import SecureIIoT.Lib.ByteString
import SecureIIoT.Lib.Modexp
import SecureIIoT.Tee

/-!
# Paillier in the TA

The functions of `ta/paillier_ta.c`, and what each of them computes.

The encryptor and the decryptor are specified by the ciphertexts of the key.  An
encryption that succeeds, whatever the library and the random draws did, leaves the
128-byte numeral of a ciphertext of its message (`paillierTaEncryptRealU32_ok`).
Without library faults, decryption returns the message of a ciphertext if it fits 32
bits (`paillierTaDecryptRealU32_of_isCiphertext`) and rejects everything else
(`paillierTaDecryptRealU32_of_not_range`, `paillierTaDecryptRealU32_of_not_coprime`).
-/

namespace SecureIIoT

open ByteString Modexp

namespace TA

/-! ## Key material -/

def readFixedPublicKey (ta : TaBuild) (mp : LibTomMath) : Except TEEError PaillierKey := do
  mp.call .readRadixN
  mp.call .readRadixG
  mp.call .readRadixN2
  return ta.key

def readFixedPrivateKey (ta : TaBuild) (mp : LibTomMath) : Except TEEError PaillierKey := do
  let key ← readFixedPublicKey ta mp
  mp.call .readRadixLambda
  mp.call .readRadixMu
  return key

/-! ## Randomness -/

/-- `PAILLIER_TA_RANDOM_ATTEMPTS` -/
def paillierTaRandomAttempts : ℕ := 16

/-- The body of the loop of `generate_coprime_r`: the residue of a draw, if it is one to
return. -/
def coprimeAttempt (mp : LibTomMath) (n attempt : ℕ) (randomBytes : Vector UInt8 64) :
    Except TEEError (Option ℕ) := do
  mp.call (.fromUbinR attempt)
  mp.call (.modR attempt)
  let r := ofBE randomBytes.toList % n
  if r = 0 then
    return none
  else
    mp.call (.gcdR attempt)
    return if r.gcd n = 1 then some r else none

/-- The loop of `generate_coprime_r`, with the attempts that are left. -/
def coprimeAttempts (w : TeeWorld) (n : ℕ) : (left attempt : ℕ) → Except TEEError ℕ
  -- `err = MP_VAL`
  | 0, _ => .error .generic
  | left + 1, attempt => do
      match ← coprimeAttempt w.mp n attempt (w.random attempt) with
      | some r => return r
      | none => coprimeAttempts w n left (attempt + 1)

def generateCoprimeR (w : TeeWorld) (n : ℕ) : Except TEEError ℕ := do
  w.mp.call .initGcd
  coprimeAttempts w n paillierTaRandomAttempts 0

section GenerateCoprimeR

variable {w : TeeWorld} {n r : ℕ}

theorem coprimeAttempt_ok {mp : LibTomMath} {attempt : ℕ} {randomBytes : Vector UInt8 64}
    (h : coprimeAttempt mp n attempt randomBytes = .ok (some r)) : r.Coprime n := by
  simp only [coprimeAttempt, result_bind_eq_ok] at h
  obtain ⟨-, -, h⟩ := h
  split at h
  · cases h
  · obtain ⟨-, h⟩ := result_bind_eq_ok.mp h
    split at h
    · next hgcd =>
      cases h
      exact hgcd
    · cases h

/-- Whichever attempt it was, what the loop returns is a unit. -/
theorem coprimeAttempts_ok {left attempt : ℕ} (h : coprimeAttempts w n left attempt = .ok r) :
    r.Coprime n := by
  induction left generalizing attempt with
  | zero => cases h
  | succ left ih =>
      simp only [coprimeAttempts, except_bind_eq_ok] at h
      obtain ⟨draw, hdraw, h⟩ := h
      cases draw with
      | none => exact ih h
      | some r' =>
          cases h
          exact coprimeAttempt_ok hdraw

theorem generateCoprimeR_ok (h : generateCoprimeR w n = .ok r) : r.Coprime n :=
  coprimeAttempts_ok (result_bind_eq_ok.mp h).2

/-- A unit drawn first is the one that is returned. -/
theorem generateCoprimeR_of_first (hmp : w.mp = .exact)
    (hpos : 0 < ofBE (w.random 0).toList % n)
    (hcoprime : (ofBE (w.random 0).toList % n).Coprime n) :
    generateCoprimeR w n = .ok (ofBE (w.random 0).toList % n) := by
  simp [generateCoprimeR, coprimeAttempts, paillierTaRandomAttempts, coprimeAttempt, hmp,
    hpos.ne', Nat.coprime_iff_gcd_eq_one.mp hcoprime]

end GenerateCoprimeR

/-- A world without faults in which every draw is one number. -/
def drawing (r : ℕ) (crypto : TeeCrypto) : TeeWorld :=
  ⟨.exact, fun _ ↦ ofList (toBE 64 r) (length_toBE 64 r), crypto⟩

/-- A small unit is drawn. -/
theorem generateCoprimeR_drawing {n r : ℕ} {crypto : TeeCrypto} (hn : 2 ^ 32 < n) (hpos : 0 < r)
    (hsmall : r < 2 ^ 32) (hcoprime : r.Coprime n) :
    generateCoprimeR (drawing r crypto) n = .ok r := by
  have hbytes : r < 256 ^ 64 := hsmall.trans (by norm_num)
  have hdraw : ofBE ((drawing r crypto).random 0).toList % n = r := by
    rw [drawing, toList_ofList, ofBE_toBE hbytes, Nat.mod_eq_of_lt (hsmall.trans hn)]
  have h := generateCoprimeR_of_first (w := drawing r crypto) (n := n) rfl
  rw [hdraw] at h
  exact h hpos hcoprime

/-! ## Encryption -/

/-- `paillier_ta_encrypt_mock` -/
def paillierTaEncryptMock (sensorId fogId windowId : UInt32) (readingScaled : Int32) : UInt32 :=
  readingScaled.toUInt32 + sensorId * 100 + windowId * 10 + fogId

/-- `out_ciphertext` and `out_len` of `paillier_ta_encrypt_real_u32`. -/
structure CiphertextOut where
  ciphertext : Vector UInt8 paillierCiphertextMax
  len : UInt32
deriving DecidableEq

/-- `paillier_ta_encrypt_real_u32` up to the number `c` it serialises. -/
def encryptNumber (ta : TaBuild) (w : TeeWorld) (m : UInt32) : Except TEEError ℕ := do
  w.mp.call .initMulti
  let key ← readFixedPublicKey ta w.mp
  let r ← generateCoprimeR w key.n
  w.mp.call .exptmodGm
  let gm := powMod key.g m.toNat key.n2
  w.mp.call .exptmodRn
  let rn := powMod r key.n key.n2
  w.mp.call .mulmodC
  return gm * rn % key.n2

/-- `mp_to_ubin`: the bytes of a number at the front of a buffer, and how many they are. -/
def mpToUbin (mp : LibTomMath) (v : ℕ) (buf : Vector UInt8 paillierCiphertextMax) :
    Except TEEError ℕ × Vector UInt8 paillierCiphertextMax :=
  match mp.call .toUbinC with
  | .error e => (.error e, mp.toUbinLeft buf)
  | .ok () =>
      -- `MP_BUF`
      if paillierCiphertextMax < byteLength v then (.error .generic, buf)
      else (.ok (byteLength v), write buf 0 (toBE (byteLength v) v))

/-- The steps of `paillier_ta_encrypt_real_u32` after `mp_to_ubin`: what it wrote at the
front goes to the back, behind zero bytes. -/
def padFront (buf : Vector UInt8 paillierCiphertextMax) (written : ℕ) :
    Vector UInt8 paillierCiphertextMax :=
  let paddingLen := paillierCiphertextMax - written
  let moved := if paddingLen ≠ 0 then move buf paddingLen 0 written else buf
  fill moved 0 0 paddingLen

def paillierTaEncryptRealU32 (ta : TaBuild) (w : TeeWorld) (m : UInt32) (out : CiphertextOut)
    (outMaxLen : UInt32) : TEEResult × CiphertextOut :=
  if ta.realPaillier = false then (.error .notImplemented, out)
  else if outMaxLen < 128 then (.error .badParameters, out)
  else match encryptNumber ta w m with
    | .error e => (.error e, out)
    | .ok c =>
        match mpToUbin w.mp c (fill out.ciphertext 0 0 paillierCiphertextMax) with
        | (.error e, buf) => (.error e, { out with ciphertext := buf })
        | (.ok written, buf) =>
            if paillierCiphertextMax < written then
              (.error .badFormat, { out with ciphertext := buf })
            else (.ok (), ⟨padFront buf written, 128⟩)

section Encrypt

variable {ta : TaBuild} {w : TeeWorld} {m : UInt32} {c : ℕ}

/-- An encryption computes `g ^ m * r ^ n mod n2` for the unit it drew. -/
theorem encryptNumber_ok (h : encryptNumber ta w m = .ok c) :
    ∃ r, generateCoprimeR w ta.key.n = .ok r ∧
      c = ta.key.g ^ m.toNat * r ^ ta.key.n % ta.key.n2 := by
  simp only [encryptNumber, readFixedPublicKey, bind_assoc, pure_bind, result_bind_eq_ok,
    powMod_eq] at h
  obtain ⟨-, -, -, -, h⟩ := h
  obtain ⟨r, hr, h⟩ := except_bind_eq_ok.mp h
  simp only [result_bind_eq_ok] at h
  obtain ⟨-, -, -, hc⟩ := h
  cases hc
  exact ⟨r, hr, (Nat.mul_mod _ _ _).symm⟩

/-- Under a generated key that number is a ciphertext of the message. -/
theorem encryptNumber_isCiphertext {k : GeneratedKey} (hkey : ta.key = k.toPaillierKey)
    (h : encryptNumber ta w m = .ok c) : k.IsCiphertext m.toNat c := by
  obtain ⟨r, hr, rfl⟩ := encryptNumber_ok h
  rw [hkey] at hr ⊢
  exact ⟨r, generateCoprimeR_ok hr, rfl⟩

/-- Padding what `mp_to_ubin` wrote gives the numeral of full width. -/
theorem toList_padFront {buf : Vector UInt8 paillierCiphertextMax}
    (h : byteLength c ≤ paillierCiphertextMax) :
    (padFront (write buf 0 (toBE (byteLength c) c)) (byteLength c)).toList =
      toBE paillierCiphertextMax c := by
  have hlen : (toBE (byteLength c) c).length ≤ paillierCiphertextMax := by simpa using h
  have hpad := fill_move_write buf hlen
  have hwidth : paillierCiphertextMax - byteLength c + byteLength c = paillierCiphertextMax :=
    Nat.sub_add_cancel h
  rw [length_toBE, ← toBE_add _ (lt_pow_byteLength c), hwidth] at hpad
  rw [padFront, ← hpad]
  split
  · rfl
  · next hzero => rw [not_ne_iff.mp hzero, move_self]

theorem mpToUbin_ok {mp : LibTomMath} {buf buf' : Vector UInt8 paillierCiphertextMax}
    {written : ℕ} (h : mpToUbin mp c buf = (.ok written, buf')) :
    byteLength c ≤ paillierCiphertextMax ∧ written = byteLength c ∧
      buf' = write buf 0 (toBE (byteLength c) c) := by
  unfold mpToUbin at h
  split at h
  · cases h
  · split at h
    · cases h
    · next hlen =>
      cases h
      exact ⟨not_lt.mp hlen, rfl, rfl⟩

/-- A successful encryption leaves the numeral of the number it computed. -/
theorem paillierTaEncryptRealU32_ok {out out' : CiphertextOut} {outMaxLen : UInt32}
    (h : paillierTaEncryptRealU32 ta w m out outMaxLen = (.ok (), out')) :
    ∃ c, encryptNumber ta w m = .ok c ∧ c < 256 ^ paillierCiphertextMax ∧
      out'.ciphertext.toList = toBE paillierCiphertextMax c ∧ out'.len = 128 := by
  unfold paillierTaEncryptRealU32 at h
  split at h
  · cases h
  split at h
  · cases h
  cases hc : encryptNumber ta w m with
  | error e =>
      rw [hc] at h
      cases h
  | ok c =>
      rw [hc] at h
      dsimp only at h
      split at h
      · cases h
      · next written buf hbin =>
        obtain ⟨hlen, rfl, rfl⟩ := mpToUbin_ok hbin
        rw [if_neg (not_lt.mpr hlen)] at h
        obtain ⟨-, rfl⟩ := Prod.mk.inj h
        exact ⟨c, rfl, byteLength_le_iff.mp hlen, toList_padFront hlen, rfl⟩

/-! ### Without library faults -/

/-- With a unit drawn, the ciphertext number is computed. -/
theorem encryptNumber_of_draw {r : ℕ} (hmp : w.mp = .exact)
    (hr : generateCoprimeR w ta.key.n = .ok r) :
    encryptNumber ta w m = .ok (ta.key.g ^ m.toNat * r ^ ta.key.n % ta.key.n2) := by
  simp [encryptNumber, readFixedPublicKey, hmp, hr]

/-- A number of 128 bytes is serialised. -/
theorem paillierTaEncryptRealU32_of_number {out : CiphertextOut} (hmp : w.mp = .exact)
    (hta : ta.realPaillier = true) (hc : encryptNumber ta w m = .ok c)
    (hlt : c < 256 ^ paillierCiphertextMax) :
    (paillierTaEncryptRealU32 ta w m out 128).1 = .ok () := by
  have hlen : ¬ paillierCiphertextMax < byteLength c := not_lt.mpr (byteLength_le_iff.mpr hlt)
  have hbin : mpToUbin w.mp c (fill out.ciphertext 0 0 paillierCiphertextMax) =
      (.ok (byteLength c), write (fill out.ciphertext 0 0 paillierCiphertextMax) 0
        (toBE (byteLength c) c)) := by
    rw [mpToUbin, hmp, LibTomMath.call_exact]
    exact if_neg hlen
  rw [paillierTaEncryptRealU32, hta, if_neg (by decide), if_neg (by decide), hc]
  dsimp only
  rw [hbin]
  dsimp only
  rw [if_neg hlen]

/-- So an encryption under a key of at most 512 bits succeeds if a unit is drawn. -/
theorem paillierTaEncryptRealU32_of_draw (k : DemoSizedKey) {r : ℕ} (hmp : w.mp = .exact)
    (hr : generateCoprimeR w k.n = .ok r) (m : UInt32) (out : CiphertextOut) :
    ∃ out', paillierTaEncryptRealU32 ⟨true, k.toPaillierKey⟩ w m out 128 = (.ok (), out') := by
  have hc : encryptNumber ⟨true, k.toPaillierKey⟩ w m = .ok _ := encryptNumber_of_draw hmp hr
  have hlt := (encryptNumber_isCiphertext (k := k.toGeneratedKey) rfl hc).lt.trans k.n2_lt
  exact ⟨_, Prod.ext (paillierTaEncryptRealU32_of_number hmp rfl hc hlt) rfl⟩

end Encrypt

/-! ## Decryption -/

/-- `paillier_ta_decrypt_real_u32` from `u = c ^ lambda mod n2` on. -/
def decryptPower (mp : LibTomMath) (key : PaillierKey) (u : ℕ) : Except TEEError UInt32 := do
  mp.call .subD
  let uMinusOne : ℤ := u - 1
  mp.call .div
  -- `mp_div` truncates, so the remainder has the sign of `u - 1`.
  let lValue := uMinusOne.tdiv key.n
  let remainder := uMinusOne.tmod key.n
  require (remainder = 0) .badParameters
  mp.call .mulmodM
  let m := (lValue * key.mu % key.n).toNat
  require (Nat.size m ≤ 32) .overflow
  return UInt32.ofNat m

def paillierTaDecryptRealU32 (ta : TaBuild) (mp : LibTomMath)
    (ciphertext : Vector UInt8 paillierCiphertextMax) (ciphertextLen : UInt32) :
    Except TEEError UInt32 := do
  require (ta.realPaillier = true) .notImplemented
  require (ciphertextLen = 128) .badParameters
  mp.call .initMulti
  let key ← readFixedPrivateKey ta mp
  mp.call .fromUbinC
  let c := ofBE ciphertext.toList
  require (0 < c ∧ c < key.n2) .badParameters
  mp.call .exptmodU
  decryptPower mp key (powMod c key.lambda key.n2)

section Decrypt

variable {k : GeneratedKey} {ciphertext : Vector UInt8 paillierCiphertextMax} {m : ℕ}

/-- A power that leaves a remainder is rejected. -/
theorem decryptPower_of_not_dvd {key : PaillierKey} {u : ℕ} (h : ¬ (key.n : ℤ) ∣ (u : ℤ) - 1) :
    decryptPower .exact key u = .error .badParameters := by
  rw [Int.dvd_iff_tmod_eq_zero] at h
  simp [decryptPower, require_of_not h]

/-- A power that leaves none has its quotient multiplied by `mu`. -/
theorem decryptPower_of_quotient {key : PaillierKey} (l : ℕ) (hn : 0 < key.n) :
    decryptPower .exact key (l * key.n + 1) =
      if l * key.mu % key.n < 2 ^ 32 then .ok (UInt32.ofNat (l * key.mu % key.n))
      else .error .overflow := by
  have hsub : ((l * key.n + 1 : ℕ) : ℤ) - 1 = l * key.n := by push_cast; ring
  have hdiv : ((l : ℤ) * key.n).tdiv key.n = l := Int.mul_tdiv_cancel _ (by exact_mod_cast hn.ne')
  have hm : ((l : ℤ) * key.mu % key.n).toNat = l * key.mu % key.n := by
    rw [← Nat.cast_mul, ← Int.natCast_mod, Int.toNat_natCast]
  simp only [decryptPower, LibTomMath.call_exact, except_ok_bind, hsub, hdiv, hm,
    Int.mul_tmod_left, require_of, Nat.size_le]
  split
  · next hlt => rw [require_of hlt]; rfl
  · next hlt => rw [require_of_not hlt]; rfl

/-- Without faults, a 128-byte string is decrypted if its number is in range. -/
theorem paillierTaDecryptRealU32_exact (key : PaillierKey) :
    paillierTaDecryptRealU32 ⟨true, key⟩ .exact ciphertext 128 =
      if 0 < ofBE ciphertext.toList ∧ ofBE ciphertext.toList < key.n2 then
        decryptPower .exact key (ofBE ciphertext.toList ^ key.lambda % key.n2)
      else .error .badParameters := by
  simp only [paillierTaDecryptRealU32, readFixedPrivateKey, readFixedPublicKey,
    LibTomMath.call_exact, except_ok_bind, require_of, powMod_eq, pure, Except.pure]
  split
  · next h => rw [require_of h]; rfl
  · next h => rw [require_of_not h]; rfl

/-- A number out of range is rejected. -/
theorem paillierTaDecryptRealU32_of_not_range
    (h : ¬ (0 < ofBE ciphertext.toList ∧ ofBE ciphertext.toList < k.n2)) :
    paillierTaDecryptRealU32 ⟨true, k.toPaillierKey⟩ .exact ciphertext 128 =
      .error .badParameters := by
  rw [paillierTaDecryptRealU32_exact, if_neg h]

/-- A number that shares a factor with `n` is rejected. -/
theorem paillierTaDecryptRealU32_of_not_coprime
    (h : ¬ (ofBE ciphertext.toList).Coprime k.n) :
    paillierTaDecryptRealU32 ⟨true, k.toPaillierKey⟩ .exact ciphertext 128 =
      .error .badParameters := by
  rw [paillierTaDecryptRealU32_exact]
  split
  · exact decryptPower_of_not_dvd (mt k.dvd_pow_lambda_sub_one_iff.mp h)
  · rfl

/-- A ciphertext is decrypted to its message modulo `n`, if that fits 32 bits. -/
theorem paillierTaDecryptRealU32_of_isCiphertext
    (h : k.IsCiphertext m (ofBE ciphertext.toList)) :
    paillierTaDecryptRealU32 ⟨true, k.toPaillierKey⟩ .exact ciphertext 128 =
      if m % k.n < 2 ^ 32 then .ok (UInt32.ofNat (m % k.n)) else .error .overflow := by
  rw [paillierTaDecryptRealU32_exact, if_pos ⟨h.pos, h.lt⟩, h.pow_lambda,
    decryptPower_of_quotient _ k.n_pos, k.mul_mu_mod]

/-- The calls of a decryption that succeeds. -/
def decryptCalls : List MpCall :=
  [.initMulti, .readRadixN, .readRadixG, .readRadixN2, .readRadixLambda, .readRadixMu, .fromUbinC,
    .exptmodU, .subD, .div, .mulmodM]

/-- A decryption succeeds when none of its calls fails, and the one without faults does. -/
theorem paillierTaDecryptRealU32_ok_iff {ta : TaBuild} {mp : LibTomMath}
    {ciphertextLen m : UInt32} :
    paillierTaDecryptRealU32 ta mp ciphertext ciphertextLen = .ok m ↔
      (ta.realPaillier = true ∧ ciphertextLen = 128) ∧
      (∀ site ∈ decryptCalls, mp.call site = .ok ()) ∧
      paillierTaDecryptRealU32 ⟨true, ta.key⟩ .exact ciphertext 128 = .ok m := by
  simp only [paillierTaDecryptRealU32, decryptPower, readFixedPrivateKey, readFixedPublicKey,
    bind_assoc, pure_bind, result_bind_eq_ok, require_eq_ok, LibTomMath.call_exact, decryptCalls,
    List.forall_mem_cons, List.not_mem_nil, false_imp_iff, implies_true, true_and, and_true]
  tauto

/-- A string decrypts as the ciphertext it is, or is rejected because it is none. -/
theorem paillierTaDecryptRealU32_cases (k : GeneratedKey)
    (ciphertext : Vector UInt8 paillierCiphertextMax) :
    (∃ m < k.n, k.IsCiphertext m (ofBE ciphertext.toList) ∧
      paillierTaDecryptRealU32 ⟨true, k.toPaillierKey⟩ .exact ciphertext 128 =
        if m < 2 ^ 32 then .ok (UInt32.ofNat m) else .error .overflow) ∨
    ((∀ m, ¬ k.IsCiphertext m (ofBE ciphertext.toList)) ∧
      paillierTaDecryptRealU32 ⟨true, k.toPaillierKey⟩ .exact ciphertext 128 =
        .error .badParameters) := by
  by_cases hrange : 0 < ofBE ciphertext.toList ∧ ofBE ciphertext.toList < k.n2
  · by_cases hcoprime : (ofBE ciphertext.toList).Coprime k.n
    · obtain ⟨m, hm, hc⟩ := k.exists_isCiphertext hcoprime hrange.2
      have hres := paillierTaDecryptRealU32_of_isCiphertext hc
      rw [Nat.mod_eq_of_lt hm] at hres
      exact .inl ⟨m, hm, hc, hres⟩
    · exact .inr ⟨fun m hc ↦ hcoprime hc.coprime, paillierTaDecryptRealU32_of_not_coprime hcoprime⟩
  · exact .inr ⟨fun m hc ↦ hrange ⟨hc.pos, hc.lt⟩, paillierTaDecryptRealU32_of_not_range hrange⟩

end Decrypt

/-- `paillier_ta_decrypt_aggregate_mock` -/
def paillierTaDecryptAggregateMock (fakePaillierAggregate : UInt32) : Except TEEError UInt32 :=
  .ok fakePaillierAggregate

end TA

end SecureIIoT
