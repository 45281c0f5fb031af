import Mathlib.Tactic.NormNum.Prime
import SecureIIoT.Host.Keygen

/-!
# What the generated keys can do

Key generation draws two primes and asks for nothing but that they are distinct.  That
`λ` is coprime to `n`, on which decryption rests, is tested in passing: it is what makes
the last inverse exist (`keygen_succeeds_iff`).  At an even size it is always so.

The modulus of a key has `bits` bits or one less, and `bits` may be as little as 32, so
it can lie below the messages of `paillier_host_encrypt_u32`.  Those from the modulus on
come back reduced (`roundTrip_iff`).
-/

namespace SecureIIoT

open ByteString Host

/-- The draws of one key generation: `p`, then `repeats` times `p` again, then `q`, both of
the bits that are requested. -/
structure Draws (primes : BnGeneratePrimeEx) (bits : ℤ) (M : Paillier.Modulus) (repeats : ℕ) :
    Prop where
  first : primes (bits / 2) 0 = M.p
  repeated : ∀ i < repeats, primes (bits - bits / 2) (1 + i) = M.p
  second : primes (bits - bits / 2) (1 + repeats) = M.q
  p_bits : Nat.size M.p = (bits / 2).toNat
  q_bits : Nat.size M.q = (bits - bits / 2).toNat

section Keygen

variable {primes : BnGeneratePrimeEx} {bits : ℤ} {M : Paillier.Modulus} {repeats fuel : ℕ}

/-- The loop over `q` ends, and what follows is arithmetic on the primes. -/
theorem Draws.keygen_eq (h : Draws primes bits M repeats) (hbits : 32 ≤ bits)
    (hfuel : repeats < fuel) (kp : PaillierKey) :
    paillierHostKeygenDemo primes fuel kp bits =
      some ((keyOfPrimes M.p M.q).elim (0, kp) fun key ↦ (1, key)) := by
  have hloop := secondPrime_of_repeats h.repeated h.second M.ne hfuel
  simp only [paillierHostKeygenDemo, if_neg (not_lt.mpr hbits), h.first, hloop]
  cases keyOfPrimes M.p M.q with
  | none => rfl
  | some key => rfl

/-- With `λ` coprime to `n` the key pair is a generated key. -/
theorem Draws.exists_key (h : Draws primes bits M repeats) (hbits : 32 ≤ bits)
    (hfuel : repeats < fuel) (kp : PaillierKey) (hlam : M.lam.Coprime M.n) :
    ∃ k : GeneratedKey, k.modulus = M ∧
      paillierHostKeygenDemo primes fuel kp bits = some (1, k.toPaillierKey) := by
  obtain ⟨k, hk, hkey⟩ := keyOfPrimes_of_coprime M hlam
  refine ⟨k, hk, ?_⟩
  rw [h.keygen_eq hbits hfuel, hkey, Option.elim_some]

/-- Otherwise the key pair stays as it was. -/
theorem Draws.keygen_of_not_coprime (h : Draws primes bits M repeats) (hbits : 32 ≤ bits)
    (hfuel : repeats < fuel) (kp : PaillierKey) (hlam : ¬ M.lam.Coprime M.n) :
    paillierHostKeygenDemo primes fuel kp bits = some (0, kp) := by
  rw [h.keygen_eq hbits hfuel, keyOfPrimes_of_not_coprime M hlam, Option.elim_none]

/-- Of an even size both primes have the same length. -/
theorem Draws.coprime_of_even (h : Draws primes bits M repeats) (heven : Even bits) :
    M.lam.Coprime M.n := by
  obtain ⟨half, rfl⟩ := heven
  have hbits : Nat.size M.p = Nat.size M.q := by
    rw [h.p_bits, h.q_bits]
    congr 1
    omega
  exact M.lam_coprime_of_lt_two_mul (lt_two_mul_of_size_le M.q_prime.ne_zero hbits.le)
    (lt_two_mul_of_size_le M.p_prime.ne_zero hbits.ge)

/-- From 34 bits on the modulus lies above every message. -/
theorem Draws.two_pow_le (h : Draws primes bits M repeats) (hbits : 34 ≤ bits) :
    2 ^ 32 ≤ M.p * M.q := by
  have hp : 2 ^ 16 ≤ M.p := by
    rw [← Nat.lt_size, h.p_bits]
    omega
  have hq : 2 ^ 16 ≤ M.q := by
    rw [← Nat.lt_size, h.q_bits]
    omega
  calc 2 ^ 32 = 2 ^ 16 * 2 ^ 16 := pow_add 2 16 16
    _ ≤ M.p * M.q := Nat.mul_le_mul hp hq

/-- At 32 bits it never does. -/
theorem Draws.lt_two_pow (h : Draws primes bits M repeats) (hbits : bits = 32) :
    M.p * M.q < 2 ^ 32 := by
  subst hbits
  have hp : M.p < 2 ^ 16 := Nat.size_le.mp h.p_bits.le
  have hq : M.q < 2 ^ 16 := Nat.size_le.mp h.q_bits.le
  calc M.p * M.q < 2 ^ 16 * 2 ^ 16 := Nat.mul_lt_mul'' hp hq
    _ = 2 ^ 32 := (pow_add 2 16 16).symm

/-- `paillier_host_keygen_demo` succeeds exactly on the prime pairs for which `λ` is coprime
to `n`, which at an even size are all, and then its key decrypts every message below `n`
under every randomiser.  When it fails the key pair is not touched. -/
theorem keygen_succeeds_iff (hbits : 32 ≤ bits) (h : Draws primes bits M repeats)
    (hfuel : repeats < fuel) (kp : PaillierKey) :
    ∃ ret key, paillierHostKeygenDemo primes fuel kp bits = some (ret, key) ∧
      (ret = 1 ∨ ret = 0) ∧
      (ret = 1 ↔ Nat.gcd (M.p * M.q) (Nat.lcm (M.p - 1) (M.q - 1)) = 1) ∧
      (Even bits → ret = 1) ∧
      (ret = 1 → key.n = M.p * M.q ∧ ∀ m < key.n, ∀ r, r.Coprime key.n →
        (((key.g ^ m * r ^ key.n % key.n2) ^ key.lambda % key.n2 : ℕ) - 1 : ℤ) / key.n
          * key.mu % key.n = m) ∧
      (ret = 0 → key = kp) := by
  by_cases hlam : M.lam.Coprime M.n
  · obtain ⟨k, rfl, hkey⟩ := h.exists_key hbits hfuel kp hlam
    refine ⟨1, k.toPaillierKey, hkey, .inl rfl, ?_, fun _ ↦ rfl, fun _ ↦ ⟨k.n_eq, ?_⟩, ?_⟩
    · exact iff_of_true rfl hlam.symm
    · intro m hm r hr
      exact k.decrypt_formula hm hr
    · intro hret
      exact absurd hret one_ne_zero
  · refine ⟨0, kp, h.keygen_of_not_coprime hbits hfuel kp hlam, .inr rfl, ?_, ?_, ?_, fun _ ↦ rfl⟩
    · exact iff_of_false zero_ne_one (mt Nat.Coprime.symm hlam)
    · exact fun heven ↦ absurd (h.coprime_of_even heven) hlam
    · exact fun hret ↦ absurd hret zero_ne_one

/-- `BN_generate_prime_ex` returning `p` first and `q` then. -/
def primesOf (M : Paillier.Modulus) : BnGeneratePrimeEx := fun _ call ↦
  if call = 0 then M.p else M.q

theorem draws_primesOf (hp : Nat.size M.p = (bits / 2).toNat)
    (hq : Nat.size M.q = (bits - bits / 2).toNat) : Draws (primesOf M) bits M 0 where
  first := rfl
  repeated := fun i hi ↦ absurd hi (Nat.not_lt_zero i)
  second := rfl
  p_bits := hp
  q_bits := hq

/-- The two largest primes of 16 bits. -/
def twinModulus : Paillier.Modulus where
  p := 65521
  q := 65519
  p_prime := by norm_num
  q_prime := by norm_num
  p_odd := by norm_num
  q_odd := by norm_num
  ne := by norm_num

theorem draws_twinModulus : Draws (primesOf twinModulus) 32 twinModulus 0 :=
  draws_primesOf (by decide) (by decide)

/-- A prime of 16 bits, and one of 17 bits that is its double and one. -/
def unusableModulus : Paillier.Modulus where
  p := 49193
  q := 98387
  p_prime := by norm_num
  q_prime := by norm_num
  p_odd := by norm_num
  q_odd := by norm_num
  ne := by norm_num

theorem draws_unusableModulus : Draws (primesOf unusableModulus) 33 unusableModulus 0 :=
  draws_primesOf (by decide) (by decide)

/-- The key pair the host programs start from. -/
def zeroKey : PaillierKey := ⟨0, 0, 0, 0, 0⟩

/-- At 32 bits the first two make a key; at 33 bits the other two do not. -/
theorem keygen_succeeds_iff_demo :
    (∃ key, paillierHostKeygenDemo (primesOf twinModulus) 1 zeroKey 32 = some (1, key)) ∧
      paillierHostKeygenDemo (primesOf unusableModulus) 1 zeroKey 33 = some (0, zeroKey) := by
  constructor
  · obtain ⟨ret, key, hkey, -, -, heven, -, -⟩ :=
      keygen_succeeds_iff (by norm_num) draws_twinModulus Nat.one_pos zeroKey
    rw [heven (by decide)] at hkey
    exact ⟨key, hkey⟩
  · obtain ⟨ret, key, hkey, hret, hiff, -, -, hkeep⟩ :=
      keygen_succeeds_iff (by norm_num) draws_unusableModulus Nat.one_pos zeroKey
    have hgcd : ret ≠ 1 := by
      rw [Ne, hiff]
      norm_num [unusableModulus]
    have hzero := hret.resolve_left hgcd
    rw [hzero, hkeep hzero] at hkey
    exact hkey

/-! ## The messages of the host programs -/

/-- A key pair that generation returns is a generated key. -/
theorem Draws.generatedKey (h : Draws primes bits M repeats) (hbits : 32 ≤ bits)
    (hfuel : repeats < fuel) {kp key : PaillierKey}
    (hkey : paillierHostKeygenDemo primes fuel kp bits = some (1, key)) :
    ∃ k : GeneratedKey, k.modulus = M ∧ k.toPaillierKey = key := by
  by_cases hlam : M.lam.Coprime M.n
  · obtain ⟨k, hk, heq⟩ := h.exists_key hbits hfuel kp hlam
    rw [hkey] at heq
    cases heq
    exact ⟨k, hk, rfl⟩
  · rw [h.keygen_of_not_coprime hbits hfuel kp hlam] at hkey
    cases hkey

/-- What decryption makes of an encryption. -/
theorem decrypt_encrypt {k : GeneratedKey} {rand : ℕ → ℕ} {draws : ℕ}
    (hunit : ∃ i < draws, (rand i).Coprime k.n) (m : UInt32) :
    ∃ c, paillierHostEncryptU32 k.toPaillierKey rand draws m = some c ∧
      paillierHostDecryptU32 k.toPaillierKey c = some (UInt32.ofNat (m.toNat % k.n)) := by
  obtain ⟨c, hencrypt, hc⟩ := paillierHostEncryptU32_isCiphertext hunit m
  have hlt : m.toNat % k.n < 2 ^ 32 := lt_of_le_of_lt (Nat.mod_le _ _) m.toNat_lt
  exact ⟨c, hencrypt, by rw [paillierHostDecryptU32_of_isCiphertext hc, if_pos hlt]⟩

/-- Reduction leaves the messages below the modulus alone. -/
theorem ofNat_mod_eq_iff {n : ℕ} (hn : 0 < n) (m : UInt32) :
    UInt32.ofNat (m.toNat % n) = m ↔ m.toNat < n := by
  constructor
  · intro heq
    have hlt : m.toNat % n < 2 ^ 32 := lt_of_le_of_lt (Nat.mod_le _ _) m.toNat_lt
    have hmod : m.toNat % n = m.toNat := by
      rw [← UInt32.toNat_ofNat_of_lt' hlt, heq]
    exact hmod ▸ Nat.mod_lt _ hn
  · intro hlt
    rw [Nat.mod_eq_of_lt hlt, UInt32.ofNat_toNat]

/-- A message makes the round trip if and only if it is below the modulus.  From 34 bits on
all are; at 32 bits the largest are not. -/
theorem roundTrip_iff (hbits : 32 ≤ bits) (h : Draws primes bits M repeats)
    (hfuel : repeats < fuel) {kp key : PaillierKey}
    (hkey : paillierHostKeygenDemo primes fuel kp bits = some (1, key)) {rand : ℕ → ℕ} {draws : ℕ}
    (hunit : ∃ i < draws, (rand i).Coprime key.n) (m : UInt32) :
    ((∃ c, paillierHostEncryptU32 key rand draws m = some c ∧
      paillierHostDecryptU32 key c = some m) ↔ m.toNat < M.p * M.q) ∧
    (34 ≤ bits → m.toNat < M.p * M.q) ∧ (bits = 32 → M.p * M.q < 2 ^ 32) := by
  obtain ⟨k, rfl, rfl⟩ := h.generatedKey hbits hfuel hkey
  obtain ⟨c, hencrypt, hdecrypt⟩ := decrypt_encrypt hunit m
  refine ⟨?_, fun h34 ↦ lt_of_lt_of_le m.toNat_lt (h.two_pow_le h34), h.lt_two_pow⟩
  have hiff := ofNat_mod_eq_iff k.n_pos m
  rw [k.n_eq] at hiff
  rw [← Paillier.Modulus.n, ← hiff, ← k.n_eq]
  constructor
  · rintro ⟨c', hencrypt', hdecrypt'⟩
    rw [hencrypt] at hencrypt'
    cases hencrypt'
    rw [hdecrypt] at hdecrypt'
    exact Option.some.inj hdecrypt'
  · intro heq
    exact ⟨c, hencrypt, heq ▸ hdecrypt⟩

/-- One is a randomiser under every key. -/
theorem exists_coprime_one (n : ℕ) : ∃ i < 1, ((fun _ ↦ 1 : ℕ → ℕ) i).Coprime n :=
  ⟨0, Nat.one_pos, Nat.coprime_one_left n⟩

theorem roundTrip_iff_demo :
    ∃ key c, paillierHostKeygenDemo (primesOf twinModulus) 1 zeroKey 32 = some (1, key) ∧
      paillierHostEncryptU32 key (fun _ ↦ 1) 1 25000 = some c ∧
      paillierHostDecryptU32 key c = some 25000 := by
  obtain ⟨k, -, hkey⟩ := draws_twinModulus.exists_key (by norm_num) Nat.one_pos zeroKey
    (draws_twinModulus.coprime_of_even (by decide))
  obtain ⟨c, hc⟩ := (roundTrip_iff (by norm_num) draws_twinModulus Nat.one_pos hkey
    (exists_coprime_one k.n) 25000).1.mpr (by decide)
  exact ⟨k.toPaillierKey, c, hkey, hc⟩

/-- At 32 bits the largest message comes back as another one. -/
theorem not_roundTrip_demo :
    ∃ key c, paillierHostKeygenDemo (primesOf twinModulus) 1 zeroKey 32 = some (1, key) ∧
      paillierHostEncryptU32 key (fun _ ↦ 1) 1 4294967295 = some c ∧
      paillierHostDecryptU32 key c = some 2096896 := by
  obtain ⟨k, hk, hkey⟩ := draws_twinModulus.exists_key (by norm_num) Nat.one_pos zeroKey
    (draws_twinModulus.coprime_of_even (by decide))
  obtain ⟨c, hencrypt, hdecrypt⟩ := decrypt_encrypt (exists_coprime_one k.n) 4294967295
  have hn : k.n = 65521 * 65519 := by
    rw [k.n_eq, hk]
    rfl
  refine ⟨k.toPaillierKey, c, hkey, hencrypt, ?_⟩
  rw [hdecrypt, hn]
  rfl

end Keygen

end SecureIIoT
