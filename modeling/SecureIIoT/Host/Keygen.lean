import Mathlib.Data.Int.GCD
import SecureIIoT.Host.Paillier

/-!
# Key generation and encryption on the host

`paillier_host_keygen_demo` and `paillier_host_encrypt_u32` of `host/paillier_host.c`.
Both draw until what they draw is usable; what they draw is a parameter, and so is the
number of draws that are looked at, `fuel`: `none` says that the loop has not ended by
then.

Two primes make a key exactly if `λ` is coprime to `n` (`keyOfPrimes_of_coprime`,
`keyOfPrimes_of_not_coprime`), and the draw that an encryption goes on with is the first
unit (`drawUnit_of_first`).
-/

namespace SecureIIoT

open Modexp

namespace Host

/-! ## Key generation -/

/-- `BN_generate_prime_ex`: the prime it returns, by the bits that are requested and the
number of the call. -/
abbrev BnGeneratePrimeEx := ℤ → ℕ → ℕ

/-- `BN_mod_inverse` -/
def bnModInverse (a : ℤ) (n : ℕ) : Option ℕ :=
  if Int.gcd a n = 1 then some (Int.gcdA a n % n).toNat else none

/-- The loop that draws `q` until it is not `p`. -/
def secondPrime (primes : BnGeneratePrimeEx) (bits : ℤ) (p : ℕ) : (fuel call : ℕ) → Option ℕ
  | 0, _ => none
  | fuel + 1, call =>
    let q := primes bits call
    if p = q then secondPrime primes bits p fuel (call + 1) else some q

/-- `paillier_host_keygen_demo` from the two primes on. -/
def keyOfPrimes (p q : ℕ) : Option PaillierKey :=
  let n := p * q
  let n2 := n * n
  let g := n + 1
  let gcd := (p - 1).gcd (q - 1)
  let lcmNumer := (p - 1) * (q - 1)
  let lambda := lcmNumer / gcd
  let u := powMod g lambda n2
  let lValue := paillierLFunction u n
  match bnModInverse lValue n with
  | none => none
  | some mu => some ⟨n, n2, g, lambda, mu⟩

/-- The return value and the key pair that is left in `*kp`. -/
def paillierHostKeygenDemo (primes : BnGeneratePrimeEx) (fuel : ℕ) (kp : PaillierKey) (bits : ℤ) :
    Option (ℤ × PaillierKey) :=
  if bits < 32 then some (0, kp)
  else
    let primeBits := bits / 2
    let p := primes primeBits 0
    match secondPrime primes (bits - primeBits) p fuel 1 with
    | none => none
    | some q =>
      match keyOfPrimes p q with
      | none => some (0, kp)
      | some key => some (1, key)

/-- A `q` that is not `p` ends the loop, however often `p` was drawn again before. -/
theorem secondPrime_of_repeats {primes : BnGeneratePrimeEx} {bits : ℤ} {p q repeats fuel call : ℕ}
    (hrepeated : ∀ i < repeats, primes bits (call + i) = p)
    (hq : primes bits (call + repeats) = q) (hne : p ≠ q) (hfuel : repeats < fuel) :
    secondPrime primes bits p fuel call = some q := by
  induction repeats generalizing fuel call with
  | zero =>
      obtain ⟨fuel, rfl⟩ := Nat.exists_eq_add_one_of_ne_zero hfuel.ne'
      rw [add_zero] at hq
      rw [secondPrime, hq, if_neg hne]
  | succ repeats ih =>
      obtain ⟨fuel, rfl⟩ := Nat.exists_eq_add_one_of_ne_zero (Nat.ne_zero_of_lt hfuel)
      have hfirst : primes bits call = p := hrepeated 0 (Nat.succ_pos _)
      rw [secondPrime, hfirst, if_pos rfl]
      refine ih (fun i hi ↦ ?_) ?_ (Nat.lt_of_succ_lt_succ hfuel)
      · rw [add_assoc, add_comm 1]
        exact hrepeated (i + 1) (Nat.succ_lt_succ hi)
      · rwa [add_assoc, add_comm 1]

theorem bnModInverse_of_coprime {a n : ℕ} (hn : 1 < n) (h : a.Coprime n) :
    ∃ mu, bnModInverse a n = some mu ∧ mu * a % n = 1 := by
  have hgcd : Int.gcd a n = 1 := h
  refine ⟨_, if_pos hgcd, ?_⟩
  have hpos : (0 : ℤ) < n := by exact_mod_cast lt_trans Nat.zero_lt_one hn
  have hbezout := Int.gcd_eq_gcd_ab a n
  rw [hgcd] at hbezout
  have hmod : (a : ℤ) * Int.gcdA a n ≡ 1 [ZMOD n] := by
    refine Int.modEq_iff_dvd.mpr ⟨Int.gcdB a n, ?_⟩
    push_cast at hbezout
    linarith
  have hcast : (((Int.gcdA a n % n).toNat * a % n : ℕ) : ℤ) = 1 := by
    push_cast
    rw [Int.toNat_of_nonneg (Int.emod_nonneg _ hpos.ne'), mul_comm]
    calc (a : ℤ) * (Int.gcdA a n % n) % n = a * Int.gcdA a n % n := (Int.mod_modEq _ _).mul_left _
      _ = 1 % n := hmod
      _ = 1 := Int.emod_eq_of_lt one_pos.le (by exact_mod_cast hn)
  exact_mod_cast hcast

theorem bnModInverse_of_not_coprime {a n : ℕ} (h : ¬ a.Coprime n) : bnModInverse a n = none :=
  if_neg h

section KeyOfPrimes

variable (M : Paillier.Modulus)

/-- What `mu` is to invert. -/
theorem paillierLFunction_generator :
    paillierLFunction (powMod (M.n + 1) M.lam (M.n * M.n)) M.n = (M.lam % M.n : ℕ) := by
  have hpos : 0 < (M.n + 1) ^ M.lam % M.n ^ 2 := by
    rw [M.generator_pow_modEq M.lam, M.succ_mod]
    exact Nat.succ_pos _
  rw [powMod_eq, ← sq, paillierLFunction_of_pos _ hpos, M.generator_quotient]

/-- So the two primes make a key if and only if `λ` has an inverse modulo `n`. -/
theorem keyOfPrimes_eq :
    keyOfPrimes M.p M.q = (bnModInverse (M.lam % M.n : ℕ) M.n).map fun mu ↦
      ⟨M.n, M.n * M.n, M.n + 1, M.lam, mu⟩ := by
  have hl := paillierLFunction_generator M
  simp only [Paillier.Modulus.n, Paillier.Modulus.lam, Nat.lcm_eq_mul_div] at hl ⊢
  rw [keyOfPrimes, hl]
  cases bnModInverse _ _ with
  | none => rfl
  | some mu => rfl

theorem lam_mod_coprime_iff : (M.lam % M.n).Coprime M.n ↔ M.lam.Coprime M.n := by
  rw [Nat.Coprime, Nat.Coprime, (Nat.mod_modEq M.lam M.n).gcd_eq]

/-- The key is one that decrypts, with the modulus of the two primes. -/
theorem keyOfPrimes_of_coprime (h : M.lam.Coprime M.n) :
    ∃ k : GeneratedKey, k.modulus = M ∧ keyOfPrimes M.p M.q = some k.toPaillierKey := by
  obtain ⟨mu, hinverse, hmu⟩ :=
    bnModInverse_of_coprime M.one_lt_n ((lam_mod_coprime_iff M).mpr h)
  refine ⟨⟨⟨M.n, M.n * M.n, M.n + 1, M.lam, mu⟩, M, rfl, (sq M.n).symm, rfl, rfl, ?_⟩, rfl, ?_⟩
  · rw [← sq, M.generator_quotient]
    exact hmu
  · rw [keyOfPrimes_eq, hinverse]
    rfl

theorem keyOfPrimes_of_not_coprime (h : ¬ M.lam.Coprime M.n) : keyOfPrimes M.p M.q = none := by
  rw [keyOfPrimes_eq, bnModInverse_of_not_coprime (mt (lam_mod_coprime_iff M).mp h)]
  rfl

end KeyOfPrimes

/-! ## Encryption -/

/-- The loop that draws the randomiser.  `continue` on a zero goes on to the test of the
`gcd` that is left from the draw before. -/
def drawUnit (rand : ℕ → ℕ) (n : ℕ) : (fuel call gcd : ℕ) → Option ℕ
  | 0, _, _ => none
  | fuel + 1, call, gcd =>
    let r := rand call
    let gcd := if r = 0 then gcd else r.gcd n
    if gcd = 1 then some r else drawUnit rand n fuel (call + 1) gcd

/-- Zero is not a unit, and leaves a `gcd` that does not end the loop either. -/
theorem drawUnit_of_not_coprime {rand : ℕ → ℕ} {n call gcd : ℕ} (fuel : ℕ) (hgcd : gcd ≠ 1)
    (h : ¬ (rand call).Coprime n) :
    ∃ gcd' ≠ 1, drawUnit rand n (fuel + 1) call gcd = drawUnit rand n fuel (call + 1) gcd' := by
  by_cases hzero : rand call = 0
  · refine ⟨gcd, hgcd, ?_⟩
    rw [drawUnit, if_pos hzero, if_neg hgcd]
  · refine ⟨(rand call).gcd n, h, ?_⟩
    rw [drawUnit, if_neg hzero, if_neg h]

/-- The draw that ends the loop is the first unit. -/
theorem drawUnit_of_first {rand : ℕ → ℕ} {n fuel call gcd i : ℕ} (hn : 1 < n) (hgcd : gcd ≠ 1)
    (hfirst : ∀ j < i, ¬ (rand j).Coprime n) (hunit : (rand i).Coprime n)
    (hcall : call ≤ i) (hfuel : i < call + fuel) :
    drawUnit rand n fuel call gcd = some (rand i) := by
  induction fuel generalizing call gcd with
  | zero => exact absurd hcall (not_le.mpr hfuel)
  | succ fuel ih =>
      rcases hcall.eq_or_lt with rfl | hlt
      · have hzero : rand call ≠ 0 := by
          intro h
          rw [h, Nat.coprime_zero_left] at hunit
          exact hn.ne' hunit
        rw [drawUnit, if_neg hzero, if_pos hunit]
      · obtain ⟨gcd', hgcd', hnext⟩ := drawUnit_of_not_coprime fuel hgcd (hfirst call hlt)
        rw [hnext]
        exact ih hgcd' hlt (by omega)

/-- So the loop ends with a unit if one is drawn in time. -/
theorem exists_drawUnit {rand : ℕ → ℕ} {n fuel : ℕ} (hn : 1 < n)
    (h : ∃ i < fuel, (rand i).Coprime n) :
    ∃ r, r.Coprime n ∧ drawUnit rand n fuel 0 0 = some r := by
  classical
  have hunit : ∃ i, (rand i).Coprime n := h.imp fun _ ↦ And.right
  obtain ⟨i, hi, hcoprime⟩ := h
  have hfuel : Nat.find hunit < 0 + fuel := by
    rw [zero_add]
    exact lt_of_le_of_lt (Nat.find_min' hunit hcoprime) hi
  refine ⟨rand (Nat.find hunit), Nat.find_spec hunit, ?_⟩
  exact drawUnit_of_first hn zero_ne_one (fun j ↦ Nat.find_min hunit) (Nat.find_spec hunit)
    (Nat.zero_le _) hfuel

/-- `paillier_host_encrypt_u32`, with what `BN_rand_range` returns by the number of the
call.  The `gcd` that `BN_CTX_get` hands out is zero. -/
def paillierHostEncryptU32 (key : PaillierKey) (rand : ℕ → ℕ) (fuel : ℕ) (m : UInt32) : Option ℕ :=
  match drawUnit rand key.n fuel 0 0 with
  | none => none
  | some r =>
    let gm := powMod key.g m.toNat key.n2
    let rn := powMod r key.n key.n2
    some (gm * rn % key.n2)

/-- An encryption is a ciphertext of its message. -/
theorem paillierHostEncryptU32_isCiphertext {k : GeneratedKey} {rand : ℕ → ℕ} {fuel : ℕ}
    (h : ∃ i < fuel, (rand i).Coprime k.n) (m : UInt32) :
    ∃ c, paillierHostEncryptU32 k.toPaillierKey rand fuel m = some c ∧
      k.IsCiphertext m.toNat c := by
  obtain ⟨r, hr, hdraw⟩ := exists_drawUnit k.one_lt_n h
  refine ⟨_, ?_, r, hr, rfl⟩
  simp only [paillierHostEncryptU32, hdraw, powMod_eq, Nat.mod_mul_mod, Nat.mul_mod_mod]

end Host

end SecureIIoT
