import SecureIIoT.DemoKey
import SecureIIoT.Host.Paillier
import SecureIIoT.TA.Paillier

/-!
# Which strings decrypt

The TA decrypts exactly the ciphertexts of 32-bit messages
(`paillierTaDecryptRealU32_accepts_exactly`).  The host's reference decryption makes
no range check and discards the division remainder, so the two agree on a string only
under a condition on it (`hostDecrypt_agrees_iff`).

A number that one prime of `n` divides and the other does not is rejected by both, by the
host only because of the numbers in the key: the residue of what it computes modulo the
prime is a constant (`paillierHostDecryptU32_of_half`), and for the demo key that
constant has more than 32 bits.
-/

namespace SecureIIoT

open ByteString

/-! ## The TA -/

section Decrypts

variable {k : GeneratedKey} {ciphertext : Vector UInt8 paillierCiphertextMax}

theorem isCiphertext_unique {c m m' : ℕ} (hm : m < k.n) (hm' : m' < k.n)
    (h : k.IsCiphertext m c) (h' : k.IsCiphertext m' c) : m = m' :=
  (h.modEq h').eq_of_lt_of_lt hm hm'

/-- Decryption succeeds on the ciphertexts of 32-bit messages. -/
theorem decrypt_ok_iff {m : UInt32} :
    TA.paillierTaDecryptRealU32 ⟨true, k.toPaillierKey⟩ .exact ciphertext 128 = .ok m ↔
      m.toNat < k.n ∧ k.IsCiphertext m.toNat (ofBE ciphertext.toList) := by
  constructor
  · intro h
    rcases TA.paillierTaDecryptRealU32_cases k ciphertext with ⟨m', hm', hc, hres⟩ | ⟨-, hres⟩
    · rw [hres] at h
      split at h
      · next hlt =>
        cases h
        rw [UInt32.toNat_ofNat_of_lt' hlt]
        exact ⟨hm', hc⟩
      · cases h
    · rw [hres] at h
      cases h
  · rintro ⟨hm, hc⟩
    rw [TA.paillierTaDecryptRealU32_of_isCiphertext hc, Nat.mod_eq_of_lt hm,
      if_pos m.toNat_lt, UInt32.ofNat_toNat]

/-- It overflows on the ciphertexts of larger messages. -/
theorem decrypt_overflow_iff :
    TA.paillierTaDecryptRealU32 ⟨true, k.toPaillierKey⟩ .exact ciphertext 128 =
        .error .overflow ↔
      ∃ m, 2 ^ 32 ≤ m ∧ m < k.n ∧ k.IsCiphertext m (ofBE ciphertext.toList) := by
  constructor
  · intro h
    rcases TA.paillierTaDecryptRealU32_cases k ciphertext with ⟨m, hm, hc, hres⟩ | ⟨-, hres⟩
    · rw [hres] at h
      split at h
      · cases h
      · next hlt => exact ⟨m, not_lt.mp hlt, hm, hc⟩
    · rw [hres] at h
      cases h
  · rintro ⟨m, hlarge, hm, hc⟩
    rw [TA.paillierTaDecryptRealU32_of_isCiphertext hc, Nat.mod_eq_of_lt hm,
      if_neg (not_lt.mpr hlarge)]

/-- It rejects a string that is no ciphertext, and only such a string. -/
theorem decrypt_badParameters_iff :
    TA.paillierTaDecryptRealU32 ⟨true, k.toPaillierKey⟩ .exact ciphertext 128 =
        .error .badParameters ↔
      ¬ ∃ m < k.n, k.IsCiphertext m (ofBE ciphertext.toList) := by
  constructor
  · rintro h ⟨m, -, hc⟩
    rw [TA.paillierTaDecryptRealU32_of_isCiphertext hc] at h
    split at h
    · cases h
    · cases h
  · intro hno
    rcases TA.paillierTaDecryptRealU32_cases k ciphertext with ⟨m, hm, hc, -⟩ | ⟨-, hres⟩
    · exact absurd ⟨m, hm, hc⟩ hno
    · exact hres

end Decrypts

/-- For a key whose ciphertexts have 128 bytes, and with a message a number below `n`:
decryption returns the message of a ciphertext of a 32-bit message, `OVERFLOW` for a
ciphertext of a larger one, and `BAD_PARAMETERS` for every other string; the message
of a ciphertext is unique. -/
theorem paillierTaDecryptRealU32_accepts_exactly (k : DemoSizedKey)
    (ciphertext : Vector UInt8 paillierCiphertextMax) :
    let c := ofBE ciphertext.toList
    let result := TA.paillierTaDecryptRealU32 ⟨true, k.toPaillierKey⟩ .exact ciphertext 128
    (∀ m : UInt32, result = .ok m ↔
      (0 < c ∧ c < k.n2) ∧ m.toNat < k.n ∧ k.IsCiphertext m.toNat c) ∧
    (result = .error .overflow ↔ ∃ m, 2 ^ 32 ≤ m ∧ m < k.n ∧ k.IsCiphertext m c) ∧
    (result = .error .badParameters ↔ ¬ ∃ m < k.n, k.IsCiphertext m c) ∧
    (¬ c.Coprime k.n → result = .error .badParameters) ∧
    ∀ m < k.n, ∀ m' < k.n, k.IsCiphertext m c → k.IsCiphertext m' c → m = m' := by
  intro c result
  refine ⟨fun m ↦ ?_, decrypt_overflow_iff, decrypt_badParameters_iff,
    TA.paillierTaDecryptRealU32_of_not_coprime, fun m hm m' hm' ↦ isCiphertext_unique hm hm'⟩
  constructor
  · intro h
    have hc := decrypt_ok_iff.mp h
    exact ⟨⟨hc.2.pos, hc.2.lt⟩, hc⟩
  · rintro ⟨-, hc⟩
    exact decrypt_ok_iff.mpr hc

/-! ## The host -/

/-- Of a multiple of one prime only, the reference decryption computes a number whose
residue modulo that prime depends on the key alone.  If the residue has more than 32
bits, so has the number. -/
theorem paillierHostDecryptU32_of_half {k : GeneratedKey} {M : Paillier.Modulus}
    (hn : k.n = M.n) (hlam : k.lambda = M.lam) {c y residue : ℕ} (hp : M.p ∣ c)
    (hq : ¬ M.q ∣ c) (hyq : y < M.q) (hy : M.p * y % M.q = 1) (hlt : residue < M.p)
    (hresidue : M.q * residue + y * k.mu ≡ 0 [MOD M.p]) (hlarge : 2 ^ 32 ≤ residue) :
    Host.paillierHostDecryptU32 k.toPaillierKey c = none := by
  have hu : 0 < c ^ k.lambda % k.n2 := by
    refine Nat.pos_of_ne_zero fun hzero ↦ hq (M.q_prime.dvd_of_dvd_pow (n := k.lambda) ?_)
    have hqn : M.q ∣ k.n2 := by
      rw [k.n2_eq, hn]
      exact Dvd.dvd.pow (Dvd.intro_left _ rfl) two_ne_zero
    exact hqn.trans (Nat.dvd_of_mod_eq_zero hzero)
  have hhalf := Paillier.Modulus.half_modEq hp hq hyq hy
  rw [← hlam, ← hn, ← k.n2_eq] at hhalf
  rw [Host.paillierHostDecryptU32_eq (Host.paillierLFunction_of_pos _ hu)]
  generalize (c ^ k.lambda % k.n2 - 1) / k.n = l at hhalf ⊢
  have hmul : l * k.mu ≡ residue [MOD M.p] := by
    have hcancel : M.q * (l * k.mu) ≡ M.q * residue [MOD M.p] := by
      refine Nat.ModEq.add_right_cancel' (y * k.mu) ?_
      calc M.q * (l * k.mu) + y * k.mu = (M.q * l + y) * k.mu := by ring
        _ ≡ 0 * k.mu [MOD M.p] := hhalf.mul_right _
        _ = 0 := zero_mul _
        _ ≡ M.q * residue + y * k.mu [MOD M.p] := hresidue.symm
    exact hcancel.cancel_left_of_coprime M.coprime_primes
  have hmod : l * k.mu % k.n % M.p = residue := by
    have hpn : M.p ∣ M.n := Dvd.intro _ rfl
    rw [hn, Nat.mod_mod_of_dvd _ hpn, hmul, Nat.mod_eq_of_lt hlt]
  rw [if_neg]
  have hle := Nat.mod_le (l * k.mu % k.n) M.p
  rw [hmod] at hle
  exact not_lt.mpr (hlarge.trans hle)

/-- A multiple of `n` becomes zero: its power is zero, and truncation makes the quotient of
minus one zero. -/
theorem paillierHostDecryptU32_of_dvd {k : GeneratedKey} {c : ℕ} (h : k.n ∣ c) :
    Host.paillierHostDecryptU32 k.toPaillierKey c = some 0 := by
  have hpow : c ^ k.lambda % k.n2 = 0 := by
    refine Nat.mod_eq_zero_of_dvd ?_
    have hlambda : 2 ≤ k.lambda := k.lambda_eq ▸ k.modulus.one_lt_lam
    rw [k.n2_eq]
    exact (pow_dvd_pow_of_dvd h 2).trans (pow_dvd_pow c hlambda)
  have hl : Host.paillierLFunction (c ^ k.lambda % k.n2) k.n = (0 : ℕ) := by
    have hone : (1 : ℤ).tdiv k.n = 0 :=
      Int.tdiv_eq_zero_of_lt one_pos.le (by exact_mod_cast k.one_lt_n)
    rw [hpow, Host.paillierLFunction, Nat.cast_zero, zero_sub, Int.neg_tdiv, hone, neg_zero]
  rw [Host.paillierHostDecryptU32_eq hl]
  simp

section DemoKey

/-- The inverse of `demoP` modulo `demoQ`, and the residue it gives. -/
def demoPInv : ℕ := 14278980042854071243390088778895331015893657287921448011752788894646825840589

def demoPResidue : ℕ :=
  77162395020517859707834847538468571094431468847743437469363438541007219476491

/-- The inverse of `demoQ` modulo `demoP`, and the residue it gives. -/
def demoQInv : ℕ := 92015448894132617683703505223653942706082567706175894143863458466456427584485

def demoQResidue : ℕ :=
  41052122851373386284410894437368577713892705690153288716158078783022898221545

theorem demoP_residue : demoPInv < demoQ ∧ demoP * demoPInv % demoQ = 1 ∧
    demoPResidue < demoP ∧ demoQ * demoPResidue + demoPInv * TA.paillierMuHex ≡ 0 [MOD demoP] ∧
    2 ^ 32 ≤ demoPResidue := by
  decide +kernel

theorem demoQ_residue : demoQInv < demoP ∧ demoQ * demoQInv % demoP = 1 ∧
    demoQResidue < demoQ ∧ demoP * demoQResidue + demoQInv * TA.paillierMuHex ≡ 0 [MOD demoQ] ∧
    2 ^ 32 ≤ demoQResidue := by
  decide +kernel

/-- The reference decryption rejects what shares one prime with `n`. -/
theorem paillierHostDecryptU32_of_half_demoKey {c : ℕ} (hcoprime : ¬ c.Coprime demoKey.n)
    (hn : ¬ demoKey.n ∣ c) : Host.paillierHostDecryptU32 demoKey.toPaillierKey c = none := by
  have hprod : demoKey.n = demoModulus.n := demoKey.n_eq
  have hlam : demoKey.lambda = demoModulus.lam := demoKey.lambda_eq
  have hboth : ¬ (demoP ∣ c ∧ demoQ ∣ c) := fun h ↦
    hn (hprod ▸ demoModulus.coprime_primes.mul_dvd_of_dvd_of_dvd h.1 h.2)
  have hone : demoP ∣ c ∨ demoQ ∣ c := by
    by_contra hno
    rw [not_or] at hno
    refine hcoprime (hprod ▸ Nat.Coprime.mul_right ?_ ?_)
    · exact (demoP_prime.coprime_iff_not_dvd.mpr hno.1).symm
    · exact (demoQ_prime.coprime_iff_not_dvd.mpr hno.2).symm
  rcases hone with hp | hq
  · obtain ⟨hlt, hinv, hreslt, hres, hlarge⟩ := demoP_residue
    exact paillierHostDecryptU32_of_half (M := demoModulus) hprod hlam hp
      (fun hq ↦ hboth ⟨hp, hq⟩) hlt hinv hreslt hres hlarge
  · obtain ⟨hlt, hinv, hreslt, hres, hlarge⟩ := demoQ_residue
    exact paillierHostDecryptU32_of_half (M := demoModulus.swap)
      (hprod.trans demoModulus.swap_n.symm) (hlam.trans demoModulus.swap_lam.symm) hq
      (fun hp ↦ hboth ⟨hp, hq⟩) hlt hinv hreslt hres hlarge

end DemoKey

/-! ## Both -/

/-- `paillier_host_fixed_bytes_to_bn`, then `paillier_host_decrypt_u32` with the fixed key. -/
def hostDecrypt (ciphertext : Vector UInt8 paillierCiphertextMax) : Option UInt32 := do
  let c ← Host.paillierHostFixedBytesToBn ciphertext.toList
  Host.paillierHostDecryptU32 Host.paillierHostInitFixedDemoKey c

/-- `paillier_ta_decrypt_real_u32` in the real build. -/
def taDecrypt (ciphertext : Vector UInt8 paillierCiphertextMax) : Except TEEError UInt32 :=
  TA.paillierTaDecryptRealU32 ⟨true, TA.fixedKey⟩ .exact ciphertext 128

/-- Both return the same message, or neither returns one. -/
def DecryptorsAgree (ciphertext : Vector UInt8 paillierCiphertextMax) : Prop :=
  ∀ m, hostDecrypt ciphertext = some m ↔ taDecrypt ciphertext = .ok m

section Agree

variable {ciphertext : Vector UInt8 paillierCiphertextMax}

theorem hostDecrypt_eq : hostDecrypt ciphertext =
    Host.paillierHostDecryptU32 demoKey.toPaillierKey (ofBE ciphertext.toList) := by
  have hlen := not_lt.mpr (Host.length_toList_le ciphertext)
  rw [hostDecrypt, Host.paillierHostFixedBytesToBn, if_neg hlen, hostKey_eq,
    demoKey_toPaillierKey, Option.bind_eq_bind, Option.bind_some]

/-- On a multiple of `n` they differ: the host returns zero. -/
theorem not_agree_of_dvd (h : demoKey.n ∣ ofBE ciphertext.toList) :
    ¬ DecryptorsAgree ciphertext := by
  intro hagree
  have hhost : hostDecrypt ciphertext = some 0 :=
      hostDecrypt_eq.trans (paillierHostDecryptU32_of_dvd h)
  have hta := (decrypt_ok_iff (k := demoKey.toGeneratedKey)).mp ((hagree 0).mp hhost)
  have hone : demoKey.n = 1 := Nat.Coprime.eq_one_of_dvd hta.2.coprime.symm h
  exact demoKey.one_lt_n.ne' hone

/-- On a number that shares one prime with `n` they agree: both reject it. -/
theorem agree_of_half (hcoprime : ¬ (ofBE ciphertext.toList).Coprime demoKey.n)
    (hn : ¬ demoKey.n ∣ ofBE ciphertext.toList) : DecryptorsAgree ciphertext := by
  intro m
  have hta : taDecrypt ciphertext = .error .badParameters :=
    TA.paillierTaDecryptRealU32_of_not_coprime (k := demoKey.toGeneratedKey) hcoprime
  rw [hostDecrypt_eq, paillierHostDecryptU32_of_half_demoKey hcoprime hn, hta]
  simp

/-- On a ciphertext they agree. -/
theorem agree_of_isCiphertext {m : ℕ} (h : demoKey.IsCiphertext m (ofBE ciphertext.toList)) :
    DecryptorsAgree ciphertext := by
  intro m'
  have hta := TA.paillierTaDecryptRealU32_of_isCiphertext h
  rw [hostDecrypt_eq, Host.paillierHostDecryptU32_of_isCiphertext h]
  rw [taDecrypt, ← demoKey_toPaillierKey, hta]
  split
  · simp
  · simp

/-- On a unit at or above `n2` they agree if the host rejects its residue, since the TA
rejects the number itself. -/
theorem agree_iff_of_large {m : ℕ} (hlarge : demoKey.n2 ≤ ofBE ciphertext.toList)
    (hm : m < demoKey.n) (h : demoKey.IsCiphertext m (ofBE ciphertext.toList % demoKey.n2)) :
    DecryptorsAgree ciphertext ↔ ¬ m < 2 ^ 32 := by
  have hta : taDecrypt ciphertext = .error .badParameters :=
    TA.paillierTaDecryptRealU32_of_not_range (k := demoKey.toGeneratedKey)
      fun hrange ↦ not_lt.mpr hlarge hrange.2
  have hhost : hostDecrypt ciphertext = if m < 2 ^ 32 then some (UInt32.ofNat m) else none := by
    rw [hostDecrypt_eq, ← Host.paillierHostDecryptU32_mod,
      Host.paillierHostDecryptU32_of_isCiphertext h, Nat.mod_eq_of_lt hm]
  rw [DecryptorsAgree, hhost, hta]
  split
  · next hlt => simpa using hlt
  · next hlt => simpa using hlt

end Agree

/-- The two decryptors agree on a string exactly if its number is not a multiple of `n`
and, where it is not below `n2`, is not modulo `n2` a ciphertext of a 32-bit message. -/
theorem hostDecrypt_agrees_iff (ciphertext : Vector UInt8 paillierCiphertextMax) :
    DecryptorsAgree ciphertext ↔
      ¬ TA.fixedKey.n ∣ ofBE ciphertext.toList ∧
        (TA.fixedKey.n2 ≤ ofBE ciphertext.toList →
          ¬ ∃ m < 2 ^ 32, demoKey.IsCiphertext m (ofBE ciphertext.toList % TA.fixedKey.n2)) := by
  rw [← demoKey_toPaillierKey]
  by_cases hn : demoKey.n ∣ ofBE ciphertext.toList
  · exact iff_of_false (not_agree_of_dvd hn) fun h ↦ h.1 hn
  by_cases hcoprime : (ofBE ciphertext.toList).Coprime demoKey.n
  · by_cases hlt : ofBE ciphertext.toList < demoKey.n2
    · obtain ⟨m, -, hc⟩ := demoKey.exists_isCiphertext hcoprime hlt
      exact iff_of_true (agree_of_isCiphertext hc) ⟨hn, fun hle ↦ absurd hlt (not_lt.mpr hle)⟩
    · have hle : demoKey.n2 ≤ ofBE ciphertext.toList := not_lt.mp hlt
      obtain ⟨m, hm, hc⟩ := demoKey.exists_isCiphertext
        (GeneratedKey.coprime_mod_n2_iff.mpr hcoprime) (Nat.mod_lt _ demoKey.n2_pos)
      rw [agree_iff_of_large hle hm hc]
      constructor
      · rintro hlarge
        refine ⟨hn, fun _ ↦ ?_⟩
        rintro ⟨m', hm', hc'⟩
        exact hlarge (isCiphertext_unique hm (hm'.trans demoKey_n_gt) hc hc' ▸ hm')
      · rintro ⟨-, hno⟩ hsmall
        exact hno hle ⟨m, hsmall, hc⟩
  · refine iff_of_true (agree_of_half hcoprime hn) ⟨hn, fun _ ↦ ?_⟩
    rintro ⟨m, -, hc⟩
    exact hcoprime (GeneratedKey.coprime_mod_n2_iff.mp hc.coprime)

/-- The all-zero string: the host decrypts it to zero, the TA rejects it. -/
theorem hostDecrypt_disagrees_at_zero :
    hostDecrypt (.replicate _ 0) = some 0 ∧
      taDecrypt (.replicate _ 0) = .error .badParameters ∧
      ¬ DecryptorsAgree (.replicate _ 0) := by
  have hzero : ofBE (Vector.replicate paillierCiphertextMax (0 : UInt8)).toList = 0 := by
    decide +kernel
  have hdvd : demoKey.n ∣ ofBE (Vector.replicate paillierCiphertextMax (0 : UInt8)).toList :=
    hzero ▸ dvd_zero _
  refine ⟨hostDecrypt_eq.trans (paillierHostDecryptU32_of_dvd hdvd), ?_, not_agree_of_dvd hdvd⟩
  exact TA.paillierTaDecryptRealU32_of_not_range (k := demoKey.toGeneratedKey)
    fun hrange ↦ hrange.1.ne' hzero

end SecureIIoT
