import SecureIIoT.Mp.ReadRadix
import SecureIIoT.Mp.Large
import SecureIIoT.TA.Paillier
import SecureIIoT.DemoKey

/-!
# Paillier in the TA, on digits

The commands of `ta/paillier_ta.c` again, now on the integers of the library: every call is
the model of the function it calls, with the buffers it is given.  They return what the
commands on numbers return if no call fails
(`paillierTaEncryptRealU32Mp_eq`, `paillierTaDecryptRealU32Mp_eq`), and so what is proved of those
holds of these.  The proof follows the calls, each of which gives a form of the number that
the other command has at that place (`Agrees`).

The key is forms of its numbers, and this is what `read_fixed_private_key` reads from the
constants, however `char` is read (`fixed_key_commands`).  The moduli of a generated key are
odd, and so none misses its digit, and none is left to `mp_reduce`.
-/

namespace SecureIIoT

namespace TA

open ByteString Modexp Mp MpConfig

/-! ## The commands -/

/-- The integers of a key. -/
structure KeyInts where
  n : MpInt
  g : MpInt
  n2 : MpInt
  lambda : MpInt
  mu : MpInt

/-- A call that may fail, with its error as `mp_err_to_tee` turns it. -/
def mpCall {α : Type} : Except MpErr α → Except TEEError α
  | .ok a => .ok a
  | .error e => do
    mpErrToTee e
    -- no call fails with `MP_OKAY`
    .error .generic

variable (cfg : MpConfig)

/-- The bytes of a string constant, whose lines are joined. -/
def ascii (lines : List String) : List UInt8 :=
  lines.flatMap fun s ↦ s.toList.map fun c ↦ UInt8.ofNat c.toNat

def paillierNChars : List String :=
  ["d2007a47121b1ea33ba8c1cc20b9011fff3aff9c15c830773b1b55de7c21b20f",
   "7a42be8d4dfc2a4eebc351acdbeb5e6b69c4fa1e537e1c8cb26352ee3dd4a38d"]

def paillierGChars : List String :=
  ["d2007a47121b1ea33ba8c1cc20b9011fff3aff9c15c830773b1b55de7c21b20f",
   "7a42be8d4dfc2a4eebc351acdbeb5e6b69c4fa1e537e1c8cb26352ee3dd4a38e"]

def paillierN2Chars : List String :=
  ["ac44c89cd41c4f40b3674489447e8f2d2450afbeac4bb3408f9b33554acf6f3",
   "d4bf5e1261b42598d1453d5613312c9da3a496683aac2559ff20c2650723d463",
   "204a8ed0c62eb260facea94541ffe827d6d14a706c91e87e5201bf79456f7946",
   "97ba0e91aee73e572b979c064ecdd362158df90611e42bd71d22374bc7c04dba9"]

def paillierLambdaChars : List String :=
  ["34801e91c486c7a8ceea3073082e4047ffcebfe705720c1dcec6d5779f086c83",
   "6a9d232f8da0b3f2060783d5ceacf5ecfe46401553f5d21d68087aea791755c8"]

def paillierMuChars : List String :=
  ["9f4b9e3df00eacdbb148539d636842e9013deabcd55523378d87ba50ef8c0c70",
   "46b80127fcccdfed10fc793aeeae5a307792fb03b14bbe139963287be0a392aa"]

/-- `read_fixed_public_key`, of integers that are initialised. -/
def readFixedPublicKeyMp (chars : CharConfig) : Except TEEError (MpInt × MpInt × MpInt) := do
  let n ← mpCall (mpReadRadix cfg chars mpInit (ascii paillierNChars) 16)
  let g ← mpCall (mpReadRadix cfg chars mpInit (ascii paillierGChars) 16)
  let n2 ← mpCall (mpReadRadix cfg chars mpInit (ascii paillierN2Chars) 16)
  return (n, g, n2)

/-- `read_fixed_private_key` -/
def readFixedPrivateKeyMp (chars : CharConfig) : Except TEEError KeyInts := do
  let (n, g, n2) ← readFixedPublicKeyMp cfg chars
  let lambda ← mpCall (mpReadRadix cfg chars mpInit (ascii paillierLambdaChars) 16)
  let mu ← mpCall (mpReadRadix cfg chars mpInit (ascii paillierMuChars) 16)
  return ⟨n, g, n2, lambda, mu⟩

/-- The loop of `generate_coprime_r`, with the attempts that are left. -/
def coprimeAttemptsMp (random : ℕ → Vector UInt8 64) (n : MpInt) :
    (left attempt : ℕ) → (r gcd : MpInt) → Except TEEError MpInt
  | 0, _, _, _ => mpCall (.error .val)
  | left + 1, attempt, r, gcd => do
    let r := mpFromUbin cfg r (random attempt).toList
    let r ← mpCall (mpMod cfg r n r)
    if mpCmpD r 0 = .eq then coprimeAttemptsMp random n left (attempt + 1) r gcd
    else
      let gcd := mpGcd cfg r n gcd
      if mpCmpD gcd 1 = .eq then .ok r
      else coprimeAttemptsMp random n left (attempt + 1) r gcd

/-- `paillier_ta_encrypt_real_u32` up to the integer `c` it serialises. -/
def encryptNumberMp (key : KeyInts) (random : ℕ → Vector UInt8 64) (m : UInt32) :
    Except TEEError MpInt := do
  let mBn := mpSetU32 cfg mpInit m
  let r ← coprimeAttemptsMp cfg random key.n paillierTaRandomAttempts 0 mpInit mpInit
  let gm ← mpCall (mpExptmod cfg (longMul cfg) key.g mBn key.n2)
  let rn ← mpCall (mpExptmod cfg (longMul cfg) r key.n key.n2)
  mpCall (mpMulmod cfg (longMul cfg) gm rn key.n2 mpInit)

/-- `paillier_ta_encrypt_real_u32` -/
def paillierTaEncryptRealU32Mp (key : KeyInts) (random : ℕ → Vector UInt8 64) (m : UInt32)
    (out : CiphertextOut) (outMaxLen : UInt32) : TEEResult × CiphertextOut :=
  if outMaxLen < 128 then (.error .badParameters, out)
  else match encryptNumberMp cfg key random m with
    | .error e => (.error e, out)
    | .ok c =>
        let buf := fill out.ciphertext 0 0 paillierCiphertextMax
        match mpCall (Mp.mpToUbin cfg c paillierCiphertextMax) with
        | .error e => (.error e, { out with ciphertext := buf })
        | .ok bytes =>
            let buf := write buf 0 bytes
            if paillierCiphertextMax < bytes.length then
              (.error .badFormat, { out with ciphertext := buf })
            else (.ok (), ⟨padFront buf bytes.length, 128⟩)

/-- `paillier_ta_decrypt_real_u32` -/
def paillierTaDecryptRealU32Mp (key : KeyInts) (ciphertext : Vector UInt8 paillierCiphertextMax)
    (ciphertextLen : UInt32) : Except TEEError UInt32 := do
  require (ciphertextLen = 128) .badParameters
  let c := mpFromUbin cfg mpInit ciphertext.toList
  require (mpCmpD c 0 = .gt ∧ mpCmp c key.n2 = .lt) .badParameters
  let u ← mpCall (mpExptmod cfg (longMul cfg) c key.lambda key.n2)
  let uMinusOne := mpSubD cfg u 1 mpInit
  let (lValue, remainder) ← mpCall (mpDiv cfg uMinusOne key.n mpInit mpInit)
  require (mpCmpD remainder 0 = .eq) .badParameters
  let mBn ← mpCall (mpMulmod cfg (longMul cfg) lValue key.mu key.n mpInit)
  require (mpCountBits cfg mBn ≤ 32) .overflow
  return mpGetU32 cfg mBn

/-- The integers are forms of the numbers of a key. -/
structure KeyInts.Loads (ints : KeyInts) (key : PaillierKey) : Prop where
  n : ints.n.Repr cfg (key.n : ℕ)
  g : ints.g.Repr cfg (key.g : ℕ)
  n2 : ints.n2.Repr cfg (key.n2 : ℕ)
  lambda : ints.lambda.Repr cfg (key.lambda : ℕ)
  mu : ints.mu.Repr cfg (key.mu : ℕ)

variable {cfg} {α β γ δ : Type}

open MpInt

/-! ## Agreement -/

/-- Two results that are the same error, or values in a relation. -/
inductive Agrees {α β : Type} (rel : α → β → Prop) : Except TEEError α → Except TEEError β → Prop
  | ok {a : α} {b : β} (h : rel a b) : Agrees rel (.ok a) (.ok b)
  | error (e : TEEError) : Agrees rel (.error e) (.error e)

/-- A form of a natural number. -/
def IsForm (cfg : MpConfig) (n : ℕ) (a : MpInt) : Prop := a.Repr cfg (n : ℕ)

theorem Agrees.bind {rel : α → β → Prop} {rel' : γ → δ → Prop} {x : Except TEEError α}
    {y : Except TEEError β} {f : α → Except TEEError γ} {f' : β → Except TEEError δ}
    (h : Agrees rel x y) (hf : ∀ {a b}, rel a b → Agrees rel' (f a) (f' b)) :
    Agrees rel' (x >>= f) (y >>= f') := by
  cases h with
  | ok h => exact hf h
  | error e => exact .error e

/-! ## Draws -/

/-- The loop finds a form of the same unit, or none. -/
theorem coprimeAttemptsMp_agrees {w : TeeWorld} {n r gcd : MpInt} {N : ℕ} (hmp : w.mp = .exact)
    (hn : n.Repr cfg (N : ℕ)) (hN : 0 < N) (hr : r.Valid cfg) (hgcd : gcd.Valid cfg)
    (left attempt : ℕ) :
    Agrees (IsForm cfg) (coprimeAttempts w N left attempt)
      (coprimeAttemptsMp cfg w.random n left attempt r gcd) := by
  induction left generalizing attempt r gcd with
  | zero => exact .error _
  | succ left ih =>
    have hread := mpFromUbin_repr hr (w.random attempt).toList
    have hmod := mpMod_repr hread hn hread.toValid
    rw [if_neg (by omega), Int.fmod_eq_emod_of_nonneg _ (Int.natCast_nonneg N),
      ← Int.natCast_mod] at hmod
    obtain ⟨r', hok, hr'⟩ := hmod
    have hgcd' := mpGcd_repr hr' hn hgcd
    rw [Int.gcd_natCast_natCast] at hgcd'
    have hzero : mpCmpD r' 0 = .eq ↔ ofBE (w.random attempt).toList % N = 0 := by
      rw [mpCmpD_eq hr' cfg.base_pos, compare_eq_iff_eq]
      exact Nat.cast_inj
    have hone := mpCmpD_one_iff hgcd'
    simp only [coprimeAttempts, coprimeAttempt, hmp, LibTomMath.call_exact, except_ok_bind,
      coprimeAttemptsMp, hok, mpCall]
    generalize ofBE (w.random attempt).toList % N = R at hr' hgcd' hzero hone ⊢
    by_cases hR : R = 0
    · rw [if_pos hR, if_pos (hzero.mpr hR)]
      exact ih hr'.toValid hgcd (attempt + 1)
    · rw [if_neg hR, if_neg (mt hzero.mp hR)]
      by_cases hunit : R.gcd N = 1
      · rw [if_pos hunit, if_pos (hone.mpr hunit)]
        exact .ok hr'
      · rw [if_neg hunit, if_neg (mt hone.mp hunit)]
        exact ih hr'.toValid hgcd'.toValid (attempt + 1)

/-! ## Encryption -/

theorem not_missesDigit_of_odd {N : ℕ} (hodd : N % 2 = 1) : ¬ MissesDigit cfg N := by
  rintro ⟨k, -, -, rfl⟩
  obtain ⟨q, hq⟩ := base_eq_byte_mul cfg
  rw [hq, mul_assoc] at hodd
  omega

section Commands

variable {k : GeneratedKey} {ints : KeyInts} {w : TeeWorld}

theorem n2_odd (k : GeneratedKey) : k.n2 % 2 = 1 := by
  have hp := k.modulus.p_prime.odd_of_ne_two k.modulus.p_odd
  have hq := k.modulus.q_prime.odd_of_ne_two k.modulus.q_odd
  rw [k.n2_eq_sq]
  exact Nat.odd_iff.mp ((hp.mul hq).pow)

theorem one_lt_n2 (k : GeneratedKey) : 1 < k.n2 := by
  rw [k.n2_eq]
  exact Nat.one_lt_pow two_ne_zero k.one_lt_n

/-- A power of a form modulo the square. -/
theorem exptmod_form (hk : ints.Loads cfg k.toPaillierKey) {a x : MpInt} {A X : ℕ}
    (ha : a.Repr cfg (A : ℕ)) (hx : x.Repr cfg (X : ℕ)) :
    ∃ c, mpCall (mpExptmod cfg (longMul cfg) a x ints.n2) = .ok c ∧
      c.Repr cfg (A ^ X % k.n2 : ℕ) := by
  obtain ⟨c, hok, hc⟩ := mpExptmod_repr (fun m ↦ longMul_multiplies cfg m) hk.n2 (one_lt_n2 k)
    (.inl (n2_odd k)) (not_missesDigit_of_odd (n2_odd k)) ha hx
  exact ⟨c, by rw [hok]; rfl, hc.cast (by push_cast; rfl)⟩

/-- A product of forms modulo a number. -/
theorem mulmod_form {a b n : MpInt} {v w : ℤ} {N : ℕ} (ha : a.Repr cfg v) (hb : b.Repr cfg w)
    (hn : n.Repr cfg (N : ℕ)) (hN : 0 < N) :
    ∃ c, mpCall (mpMulmod cfg (longMul cfg) a b n mpInit) = .ok c ∧ c.Repr cfg (v * w % N) := by
  obtain ⟨c, hok, hc⟩ := mpMulmod_repr (longMul_multiplies cfg (max a.used b.used)) ha hb hn
    mpInit_valid (by omega) (le_max_left _ _) (le_max_right _ _)
  exact ⟨c, by rw [hok]; rfl, hc.cast (Int.fmod_eq_emod_of_nonneg _ (Int.natCast_nonneg N))⟩

theorem encryptNumberMp_agrees (hmp : w.mp = .exact) (hk : ints.Loads cfg k.toPaillierKey)
    (m : UInt32) : Agrees (IsForm cfg) (encryptNumber ⟨true, k.toPaillierKey⟩ w m)
      (encryptNumberMp cfg ints w.random m) := by
  simp only [encryptNumber, readFixedPublicKey, hmp, LibTomMath.call_exact, except_ok_bind,
    generateCoprimeR, powMod_eq, pure_bind, encryptNumberMp]
  refine Agrees.bind (coprimeAttemptsMp_agrees hmp hk.n k.n_pos mpInit_valid mpInit_valid _ _)
    fun {r r'} hr ↦ ?_
  obtain ⟨gm, hgm, hgmrepr⟩ := exptmod_form hk hk.g (mpSetU32_repr (@mpInit_valid cfg) m)
  obtain ⟨rn, hrn, hrnrepr⟩ := exptmod_form hk hr hk.n
  obtain ⟨c, hc, hcrepr⟩ := mulmod_form hgmrepr hrnrepr hk.n2 k.n2_pos
  simp only [hgm, hrn, hc, except_ok_bind]
  exact .ok (hcrepr.cast (by push_cast; rfl))

/-- The encryption on digits is the one on numbers. -/
theorem paillierTaEncryptRealU32Mp_eq (hmp : w.mp = .exact)
    (hk : ints.Loads cfg k.toPaillierKey) (m : UInt32) (out : CiphertextOut) (outMaxLen : UInt32) :
    paillierTaEncryptRealU32Mp cfg ints w.random m out outMaxLen =
      paillierTaEncryptRealU32 ⟨true, k.toPaillierKey⟩ w m out outMaxLen := by
  have hagrees := encryptNumberMp_agrees hmp hk m
  have hreal : ¬ (⟨true, k.toPaillierKey⟩ : TaBuild).realPaillier = false := nofun
  rw [paillierTaEncryptRealU32Mp, paillierTaEncryptRealU32, if_neg hreal]
  by_cases hmax : outMaxLen < 128
  · rw [if_pos hmax, if_pos hmax]
  rw [if_neg hmax, if_neg hmax]
  generalize encryptNumber ⟨true, k.toPaillierKey⟩ w m = x at hagrees ⊢
  generalize encryptNumberMp cfg ints w.random m = y at hagrees ⊢
  cases hagrees with
  | error e => rfl
  | @ok c a h =>
    simp only [TA.mpToUbin, hmp, LibTomMath.call_exact, mpToUbin_eq h, Int.natAbs_natCast]
    by_cases hlong : paillierCiphertextMax < byteLength c
    · simp only [if_pos hlong, mpCall]
      rfl
    · simp only [if_neg hlong, mpCall, length_toBE]

/-! ## Decryption -/

/-- The decryption on digits is the one on numbers. -/
theorem paillierTaDecryptRealU32Mp_eq (hk : ints.Loads cfg k.toPaillierKey)
    (ciphertext : Vector UInt8 paillierCiphertextMax) (ciphertextLen : UInt32) :
    paillierTaDecryptRealU32Mp cfg ints ciphertext ciphertextLen =
      paillierTaDecryptRealU32 ⟨true, k.toPaillierKey⟩ .exact ciphertext ciphertextLen := by
  simp only [paillierTaDecryptRealU32Mp, paillierTaDecryptRealU32, readFixedPrivateKey,
    readFixedPublicKey, LibTomMath.call_exact, except_ok_bind, require_of, pure_bind, powMod_eq]
  by_cases hlen : ciphertextLen = 128
  swap
  · rw [require_of_not hlen]
    rfl
  rw [require_of hlen]
  simp only [except_ok_bind]
  have hc := mpFromUbin_repr (@mpInit_valid cfg) ciphertext.toList
  generalize mpFromUbin cfg mpInit ciphertext.toList = c at hc ⊢
  generalize ofBE ciphertext.toList = C at hc ⊢
  have hrange : (mpCmpD c 0 = .gt ∧ mpCmp c ints.n2 = .lt) ↔ (0 < C ∧ C < k.n2) := by
    rw [mpCmpD_eq hc cfg.base_pos, mpCmp_eq hc hk.n2, compare_gt_iff_gt, compare_lt_iff_lt]
    exact and_congr Nat.cast_lt Nat.cast_lt
  rw [(require_inj).mpr hrange]
  by_cases hin : 0 < C ∧ C < k.n2
  swap
  · rw [require_of_not hin]
    rfl
  rw [require_of hin]
  obtain ⟨u, hu, hurepr⟩ := exptmod_form hk hc hk.lambda
  simp only [except_ok_bind, hu, decryptPower, LibTomMath.call_exact]
  generalize C ^ k.lambda % k.n2 = U at hurepr ⊢
  have hsub := (mpSubD_repr hurepr mpInit_valid cfg.one_lt_base).cast
    (by rw [Nat.cast_one] : _ = (U : ℤ) - 1)
  have hdiv := mpDiv_repr hsub hk.n (@mpInit_valid cfg) (@mpInit_valid cfg)
  rw [if_neg (by exact_mod_cast k.n_pos.ne')] at hdiv
  obtain ⟨l, remainder, hok, hl, hrem⟩ := hdiv
  have hzero : mpCmpD remainder 0 = .eq ↔ ((U : ℤ) - 1).tmod k.n = 0 := by
    rw [mpCmpD_eq hrem cfg.base_pos, compare_eq_iff_eq, Nat.cast_zero]
  obtain ⟨m, hm, hmrepr⟩ := mulmod_form hl hk.mu hk.n k.n_pos
  have hquot : mpCall (mpDiv cfg (mpSubD cfg u 1 mpInit) ints.n mpInit mpInit) =
      .ok (l, remainder) := by rw [hok, mpCall]
  simp only [hquot, except_ok_bind, (require_inj).mpr hzero]
  by_cases hdvd : ((U : ℤ) - 1).tmod k.n = 0
  swap
  · rw [require_of_not hdvd]
    rfl
  rw [require_of hdvd]
  simp only [except_ok_bind, hm]
  obtain ⟨M, hM⟩ := Int.eq_ofNat_of_zero_le (Int.emod_nonneg (((U : ℤ) - 1).tdiv k.n * k.mu)
    (by exact_mod_cast k.n_pos.ne' : (k.n : ℤ) ≠ 0))
  rw [hM] at hmrepr ⊢
  rw [Int.toNat_natCast, mpCountBits_eq hmrepr, Int.natAbs_natCast]
  by_cases hbits : Nat.size M ≤ 32
  · rw [require_of hbits, except_ok_bind, except_ok_bind,
      mpGetU32_eq hmrepr (Nat.size_le.mp hbits)]
  · rw [require_of_not hbits]
    rfl

/-! ## The commands together -/

/-- On digits, the commands return what they return on numbers, for every key, every message,
every ciphertext and every draw. -/
theorem commands_agree (hmp : w.mp = .exact) (hk : ints.Loads cfg k.toPaillierKey) (m : UInt32)
    (out : CiphertextOut) (outMaxLen : UInt32) (ciphertext : Vector UInt8 paillierCiphertextMax)
    (ciphertextLen : UInt32) :
    paillierTaEncryptRealU32Mp cfg ints w.random m out outMaxLen =
        paillierTaEncryptRealU32 ⟨true, k.toPaillierKey⟩ w m out outMaxLen ∧
      paillierTaDecryptRealU32Mp cfg ints ciphertext ciphertextLen =
        paillierTaDecryptRealU32 ⟨true, k.toPaillierKey⟩ .exact ciphertext ciphertextLen :=
  ⟨paillierTaEncryptRealU32Mp_eq hmp hk m out outMaxLen,
    paillierTaDecryptRealU32Mp_eq hk ciphertext ciphertextLen⟩

/-- What is encrypted on digits is decrypted on digits, whatever was drawn. -/
theorem decrypt_of_encrypt {out out' : CiphertextOut} {m outMaxLen : UInt32}
    {random : ℕ → Vector UInt8 64} (hk : ints.Loads cfg k.toPaillierKey) (hm : m.toNat < k.n)
    (h : paillierTaEncryptRealU32Mp cfg ints random m out outMaxLen = (.ok (), out')) :
    paillierTaDecryptRealU32Mp cfg ints out'.ciphertext out'.len = .ok m := by
  have hmp : (⟨.exact, random, IdealGcm.empty.tee⟩ : TeeWorld).mp = .exact := rfl
  have hagrees := paillierTaEncryptRealU32Mp_eq hmp hk m out outMaxLen
  rw [h] at hagrees
  obtain ⟨c, hc, hlt, hbytes, hlen⟩ := paillierTaEncryptRealU32_ok hagrees.symm
  have hcipher : k.IsCiphertext m.toNat (ofBE out'.ciphertext.toList) := by
    rw [hbytes, ofBE_toBE hlt]
    exact encryptNumber_isCiphertext rfl hc
  rw [paillierTaDecryptRealU32Mp_eq hk, hlen, paillierTaDecryptRealU32_of_isCiphertext hcipher,
    Nat.mod_eq_of_lt hm, if_pos m.toNat_lt, UInt32.ofNat_toNat]

/-- Every number has a form, and so every key is loaded by some integers. -/
def KeyInts.ofKey (cfg : MpConfig) (key : PaillierKey) : KeyInts :=
  let form := fun n ↦ mpFromUbin cfg mpInit (toBE (byteLength n) n)
  ⟨form key.n, form key.g, form key.n2, form key.lambda, form key.mu⟩

theorem KeyInts.loads_ofKey (cfg : MpConfig) (key : PaillierKey) :
    (KeyInts.ofKey cfg key).Loads cfg key := by
  have hform (n : ℕ) : (mpFromUbin cfg mpInit (toBE (byteLength n) n)).Repr cfg (n : ℕ) := by
    have h := mpFromUbin_repr (@mpInit_valid cfg) (toBE (byteLength n) n)
    rwa [ofBE_toBE (lt_pow_byteLength n)] at h
  exact ⟨hform _, hform _, hform _, hform _, hform _⟩

theorem commands_agree_demo :
    paillierTaEncryptRealU32Mp mp28 (.ofKey mp28 fixedKey) (drawing 1 IdealGcm.empty.tee).random 7
          ⟨.replicate _ 0, 0⟩ 128 =
        paillierTaEncryptRealU32 ⟨true, fixedKey⟩ (drawing 1 IdealGcm.empty.tee) 7
          ⟨.replicate _ 0, 0⟩ 128 ∧
      paillierTaDecryptRealU32Mp mp28 (.ofKey mp28 fixedKey) (.replicate _ 1) 128 =
        paillierTaDecryptRealU32 ⟨true, fixedKey⟩ .exact (.replicate _ 1) 128 :=
  @commands_agree mp28 demoKey.toGeneratedKey _ (drawing 1 IdealGcm.empty.tee) rfl
    (KeyInts.loads_ofKey mp28 _) 7 ⟨.replicate _ 0, 0⟩ 128 (.replicate _ 1) 128

theorem decrypt_of_encrypt_demo : ∃ out' : CiphertextOut,
    paillierTaDecryptRealU32Mp mp28 (.ofKey mp28 fixedKey) out'.ciphertext out'.len = .ok 7 := by
  have hdraw : generateCoprimeR (drawing 1 IdealGcm.empty.tee) demoKey.n = .ok 1 :=
    generateCoprimeR_drawing demoKey_n_gt one_pos (by norm_num) (Nat.coprime_one_left _)
  obtain ⟨out', hout⟩ := paillierTaEncryptRealU32_of_draw demoKey rfl hdraw 7 ⟨.replicate _ 0, 0⟩
  have hloads := KeyInts.loads_ofKey mp28 demoKey.toPaillierKey
  rw [← paillierTaEncryptRealU32Mp_eq rfl hloads] at hout
  exact ⟨out', decrypt_of_encrypt hloads ((by decide : (7 : UInt32).toNat < 2 ^ 32).trans
    demoKey_n_gt) hout⟩

end Commands

/-! ## The fixed key -/

/-- The digits of a number are read as it. -/
theorem readHex (cfg : MpConfig) (chars : CharConfig) {s : List String} {N : ℕ}
    (h : (ascii s).map mpToupper = (Nat.digits 16 N).reverse.map (mpSRmap.getD · 0)) :
    ∃ b, mpCall (mpReadRadix cfg chars mpInit (ascii s) 16) = .ok b ∧ b.Repr cfg (N : ℕ) := by
  have hread : ∃ b, mpReadRadix cfg chars mpInit (ascii s) 16 = .ok b ∧ b.Repr cfg (N : ℕ) :=
    mpReadRadix_digits mpInit_valid (by decide) (by decide) h
  obtain ⟨b, hok, hb⟩ := hread
  exact ⟨b, by rw [hok]; rfl, hb⟩

/-- The constants are the numbers of the fixed key. -/
theorem readFixedPrivateKeyMp_loads (cfg : MpConfig) (chars : CharConfig) :
    ∃ ints, readFixedPrivateKeyMp cfg chars = .ok ints ∧ ints.Loads cfg fixedKey := by
  obtain ⟨n, hn, hnrepr⟩ := readHex cfg chars (s := paillierNChars) (N := paillierNHex)
    (by decide +kernel)
  obtain ⟨g, hg, hgrepr⟩ := readHex cfg chars (s := paillierGChars) (N := paillierGHex)
    (by decide +kernel)
  obtain ⟨n2, hn2, hn2repr⟩ := readHex cfg chars (s := paillierN2Chars) (N := paillierN2Hex)
    (by decide +kernel)
  obtain ⟨lambda, hlambda, hlambdarepr⟩ := readHex cfg chars (s := paillierLambdaChars)
    (N := paillierLambdaHex) (by decide +kernel)
  obtain ⟨mu, hmu, hmurepr⟩ := readHex cfg chars (s := paillierMuChars) (N := paillierMuHex)
    (by decide +kernel)
  refine ⟨⟨n, g, n2, lambda, mu⟩, ?_, ⟨hnrepr, hgrepr, hn2repr, hlambdarepr, hmurepr⟩⟩
  simp only [readFixedPrivateKeyMp, readFixedPublicKeyMp, hn, hg, hn2, hlambda, hmu,
    except_ok_bind]
  rfl

/-- The commands of the TA on the key that it reads. -/
theorem fixed_key_commands (cfg : MpConfig) (chars : CharConfig) :
    ∃ ints, readFixedPrivateKeyMp cfg chars = .ok ints ∧
      (∀ (random : ℕ → Vector UInt8 64) (crypto : TeeCrypto) (m : UInt32) (out : CiphertextOut)
          (outMaxLen : UInt32),
        paillierTaEncryptRealU32Mp cfg ints random m out outMaxLen =
          paillierTaEncryptRealU32 ⟨true, fixedKey⟩ ⟨.exact, random, crypto⟩ m out outMaxLen) ∧
      ∀ (ciphertext : Vector UInt8 paillierCiphertextMax) (ciphertextLen : UInt32),
        paillierTaDecryptRealU32Mp cfg ints ciphertext ciphertextLen =
          paillierTaDecryptRealU32 ⟨true, fixedKey⟩ .exact ciphertext ciphertextLen := by
  obtain ⟨ints, hread, hloads⟩ := readFixedPrivateKeyMp_loads cfg chars
  refine ⟨ints, hread, fun random crypto m out outMaxLen ↦ ?_, fun ciphertext ciphertextLen ↦ ?_⟩
  · exact @paillierTaEncryptRealU32Mp_eq _ demoKey.toGeneratedKey ints ⟨.exact, random, crypto⟩ rfl
      hloads m out outMaxLen
  · exact @paillierTaDecryptRealU32Mp_eq _ demoKey.toGeneratedKey ints hloads ciphertext
      ciphertextLen

end TA

end SecureIIoT
