import SecureIIoT.Lib.Paillier

/-!
# Paillier key material

`PaillierKey` is the key as the code holds it: five numbers, read from hexadecimal
constants on both sides of the TA boundary.  `GeneratedKey` is a key that is what
key generation makes of two primes; the relations between its numbers are fields,
so a key whose `mu` does not undo its `lambda` cannot be built.  `DemoSizedKey`
adds that the modulus has at most 512 bits, which is what makes a ciphertext fit
the 128 bytes of the shared structures.

Of a generated key, the decryptors use two facts: `IsCiphertext.pow_lambda`, what
their division leaves of a ciphertext, and `mul_mu_mod`, that multiplying by `mu` then
gives the message.
-/

namespace SecureIIoT

/-- The numbers of a Paillier key (`paillier_host_keypair_t` without its scratch
context, and the five constants of `ta/paillier_ta.c`). -/
structure PaillierKey where
  n : ℕ
  n2 : ℕ
  g : ℕ
  lambda : ℕ
  mu : ℕ
deriving DecidableEq

/-- A key made from two distinct odd primes. -/
structure GeneratedKey extends PaillierKey where
  modulus : Paillier.Modulus
  n_eq : n = modulus.n
  n2_eq : n2 = n ^ 2
  g_eq : g = n + 1
  lambda_eq : lambda = modulus.lam
  /-- `mu` inverts `L (g ^ lambda mod n2)`, where `L u = (u - 1) / n`. -/
  mu_inv : mu * ((g ^ lambda % n2 - 1) / n) % n = 1

/-- A key whose ciphertexts fit the shared structures. -/
structure DemoSizedKey extends GeneratedKey where
  n_lt : n < 2 ^ 512

namespace GeneratedKey

variable (k : GeneratedKey)

theorem n2_eq_sq : k.n2 = k.modulus.n ^ 2 := by rw [k.n2_eq, k.n_eq]

theorem one_lt_n : 1 < k.n := k.n_eq ▸ k.modulus.one_lt_n

theorem n_pos : 0 < k.n := k.n_eq ▸ k.modulus.n_pos

theorem n2_pos : 0 < k.n2 := k.n2_eq ▸ pow_pos k.n_pos 2

theorem one_lt_n2 : 1 < k.n2 := by
  rw [k.n2_eq_sq]
  exact lt_trans k.modulus.one_lt_n k.modulus.n_lt_sq

/-- `mu` is the inverse of `lambda` modulo `n`. -/
theorem mul_lambda_mod : k.mu * k.lambda % k.n = 1 := by
  have h := k.mu_inv
  rwa [k.n2_eq_sq, k.g_eq, k.n_eq, k.lambda_eq, k.modulus.generator_quotient, Nat.mul_mod_mod,
    ← k.lambda_eq, ← k.n_eq] at h

theorem lambda_mul_mu_modEq : k.lambda * k.mu ≡ 1 [MOD k.n] := by
  rw [mul_comm, Nat.ModEq, k.mul_lambda_mod, Nat.mod_eq_of_lt k.one_lt_n]

theorem lam_coprime : k.modulus.lam.Coprime k.modulus.n := by
  have h : (k.lambda * k.mu).Coprime k.n :=
    (k.lambda_mul_mu_modEq.gcd_eq).trans (Nat.gcd_one_left _)
  rw [← k.lambda_eq, ← k.n_eq]
  exact h.coprime_mul_right

/-! ## Ciphertexts under a key -/

/-- `c` is `g ^ m * r ^ n mod n2` for a unit `r` modulo `n`. -/
def IsCiphertext (m c : ℕ) : Prop :=
  ∃ r, r.Coprime k.n ∧ c = k.g ^ m * r ^ k.n % k.n2

theorem isCiphertext_iff {m c : ℕ} : k.IsCiphertext m c ↔ k.modulus.IsCiphertext m c := by
  rw [IsCiphertext, Paillier.Modulus.IsCiphertext, k.g_eq, k.n2_eq, k.n_eq]
  rfl

variable {k} {m m' c c' : ℕ}

theorem IsCiphertext.lt (h : k.IsCiphertext m c) : c < k.n2 :=
  k.n2_eq_sq ▸ (k.isCiphertext_iff.mp h).lt

theorem IsCiphertext.pos (h : k.IsCiphertext m c) : 0 < c := (k.isCiphertext_iff.mp h).pos

theorem IsCiphertext.coprime (h : k.IsCiphertext m c) : c.Coprime k.n :=
  k.n_eq ▸ (k.isCiphertext_iff.mp h).coprime

/-- One, the empty aggregate, is an encryption of zero. -/
theorem isCiphertext_one : k.IsCiphertext 0 1 :=
  k.isCiphertext_iff.mpr Paillier.Modulus.isCiphertext_one

/-- Multiplying ciphertexts adds their messages. -/
theorem IsCiphertext.mul (h : k.IsCiphertext m c) (h' : k.IsCiphertext m' c') :
    k.IsCiphertext (m + m') (c * c' % k.n2) := by
  rw [isCiphertext_iff] at *
  rw [k.n2_eq_sq]
  exact h.mul h'

/-- A message counts modulo `n`. -/
theorem IsCiphertext.congr (h : k.IsCiphertext m c) (hm : m ≡ m' [MOD k.n]) :
    k.IsCiphertext m' c := by
  rw [isCiphertext_iff] at *
  exact h.congr (k.n_eq ▸ hm)

/-- The message of a ciphertext is unique modulo `n`. -/
theorem IsCiphertext.modEq (h : k.IsCiphertext m c) (h' : k.IsCiphertext m' c) :
    m ≡ m' [MOD k.n] := by
  rw [isCiphertext_iff] at h h'
  rw [k.n_eq]
  exact h.modEq k.lam_coprime h'

/-- Every unit below `n2` is a ciphertext. -/
theorem exists_isCiphertext (hc : c.Coprime k.n) (hlt : c < k.n2) :
    ∃ m < k.n, k.IsCiphertext m c := by
  rw [k.n_eq] at hc
  rw [k.n2_eq_sq] at hlt
  obtain ⟨m, hm, hcm⟩ := k.modulus.exists_isCiphertext k.lam_coprime hc hlt
  exact ⟨m, k.n_eq ▸ hm, k.isCiphertext_iff.mpr hcm⟩

/-- Reducing modulo `n2` does not change what is a unit. -/
theorem coprime_mod_n2_iff : (c % k.n2).Coprime k.n ↔ c.Coprime k.n := by
  rw [k.n2_eq_sq, k.n_eq]
  exact Paillier.Modulus.coprime_mod_sq_iff

/-! ## What a decryptor computes -/

/-- The power `lambda` of a ciphertext. -/
theorem IsCiphertext.pow_lambda (h : k.IsCiphertext m c) :
    c ^ k.lambda % k.n2 = m * k.lambda % k.n * k.n + 1 := by
  rw [k.lambda_eq, k.n2_eq_sq, k.n_eq]
  exact (k.isCiphertext_iff.mp h).pow_lam

/-- The division remainder a decryptor may test is zero exactly for units. -/
theorem dvd_pow_lambda_sub_one_iff :
    (k.n : ℤ) ∣ ((c ^ k.lambda % k.n2 : ℕ) : ℤ) - 1 ↔ c.Coprime k.n := by
  rw [k.lambda_eq, k.n2_eq_sq, k.n_eq]
  exact Paillier.Modulus.dvd_pow_lam_sub_one_iff

/-- Multiplying by `mu` undoes the multiplication by `lambda`. -/
theorem mul_mu_mod (m : ℕ) : m * k.lambda % k.n * k.mu % k.n = m % k.n := by
  calc m * k.lambda % k.n * k.mu % k.n = m * (k.lambda * k.mu) % k.n := by
        rw [Nat.mod_mul_mod, mul_assoc]
    _ = m * 1 % k.n := k.lambda_mul_mu_modEq.mul_left m
    _ = m % k.n := by rw [mul_one]

/-- Encryption, the power, the division and the multiplication in one formula. -/
theorem decrypt_formula {m r : ℕ} (hm : m < k.n) (hr : r.Coprime k.n) :
    (((k.g ^ m * r ^ k.n % k.n2) ^ k.lambda % k.n2 : ℕ) - 1 : ℤ) / k.n * k.mu % k.n = m := by
  have hc : k.IsCiphertext m (k.g ^ m * r ^ k.n % k.n2) := ⟨r, hr, rfl⟩
  have hn : (k.n : ℤ) ≠ 0 := by exact_mod_cast k.n_pos.ne'
  rw [hc.pow_lambda, Nat.cast_add, Nat.cast_one, add_sub_cancel_right, Nat.cast_mul,
    Int.mul_ediv_cancel _ hn]
  have hmessage := k.mul_mu_mod m
  rw [Nat.mod_eq_of_lt hm] at hmessage
  exact_mod_cast hmessage

end GeneratedKey

/-- A number below `n2` fits 128 bytes. -/
theorem DemoSizedKey.n2_lt (k : DemoSizedKey) : k.n2 < 256 ^ 128 := by
  have hsq (b e : ℕ) (h : k.n < b ^ e) : k.n ^ 2 < (b ^ 2) ^ e := by
    rw [← pow_mul, mul_comm, pow_mul]
    exact Nat.pow_lt_pow_left h two_ne_zero
  have hbyte (e : ℕ) : 256 ^ e = (2 ^ 2) ^ (4 * e) := by
    rw [pow_mul]
    rfl
  rw [k.n2_eq, hbyte, show 4 * 128 = 512 from rfl]
  exact hsq 2 512 k.n_lt

end SecureIIoT
