import Mathlib.NumberTheory.LucasPrimality

/-!
# Modular exponentiation that evaluates

`powMod b e m` is `b ^ e % m` (`powMod_eq`), computed by repeated squaring so that
the kernel evaluates it on numbers of a thousand bits.  `LucasWitness` is Lucas's
primality test in the same terms, so that it is decided by evaluation.
-/

namespace Modexp

/-- Square-and-multiply from the low bit of the exponent up, at most `fuel` bits. -/
def sqMul (m : ℕ) : (fuel acc b e : ℕ) → ℕ
  | 0, acc, _, _ => acc
  | fuel + 1, acc, b, e =>
      if e = 0 then acc
      else sqMul m fuel (if e % 2 = 1 then acc * b % m else acc) (b * b % m) (e / 2)

/-- `b ^ e % m` by repeated squaring. -/
def powMod (b e m : ℕ) : ℕ := sqMul m (Nat.log2 e + 1) (1 % m) (b % m) e

/-- The accumulator times the power that is left to take is invariant modulo `m`. -/
theorem sqMul_modEq (m : ℕ) {fuel acc b e : ℕ} (he : e < 2 ^ fuel) :
    sqMul m fuel acc b e ≡ acc * b ^ e [MOD m] := by
  induction fuel generalizing acc b e with
  | zero =>
      have he₀ : e = 0 := by simpa using he
      simp [sqMul, he₀, Nat.ModEq.refl]
  | succ fuel ih =>
      rw [sqMul]
      split
      · next he₀ => simp [he₀, Nat.ModEq.refl]
      · have hhalf : e / 2 < 2 ^ fuel := by rw [pow_succ] at he; omega
        have hsq : (b * b % m) ^ (e / 2) ≡ b ^ (2 * (e / 2)) [MOD m] := by
          rw [pow_mul, sq]
          exact (Nat.mod_modEq _ _).pow _
        refine (ih hhalf).trans ?_
        split
        · next hodd =>
            have hacc : acc * b % m ≡ acc * b [MOD m] := Nat.mod_modEq _ _
            calc acc * b % m * (b * b % m) ^ (e / 2)
                ≡ acc * b * b ^ (2 * (e / 2)) [MOD m] := hacc.mul hsq
              _ = acc * b ^ (2 * (e / 2) + 1) := by ring
              _ = acc * b ^ e := by rw [show 2 * (e / 2) + 1 = e by omega]
        · next heven =>
            calc acc * (b * b % m) ^ (e / 2)
                ≡ acc * b ^ (2 * (e / 2)) [MOD m] := hsq.mul_left acc
              _ = acc * b ^ e := by rw [show 2 * (e / 2) = e by omega]

/-- The accumulator stays reduced. -/
theorem sqMul_mod (m : ℕ) {fuel acc b e : ℕ} (hacc : acc % m = acc) :
    sqMul m fuel acc b e % m = sqMul m fuel acc b e := by
  induction fuel generalizing acc b e with
  | zero => exact hacc
  | succ fuel ih =>
      rw [sqMul]
      split
      · exact hacc
      · split
        · exact ih (Nat.mod_mod _ _)
        · exact ih hacc

@[simp] theorem powMod_eq (b e m : ℕ) : powMod b e m = b ^ e % m := by
  have hfuel : e < 2 ^ (Nat.log2 e + 1) := Nat.lt_log2_self
  have hmod : powMod b e m ≡ b ^ e [MOD m] := by
    calc powMod b e m ≡ 1 % m * (b % m) ^ e [MOD m] := sqMul_modEq m hfuel
      _ ≡ 1 * b ^ e [MOD m] := (Nat.mod_modEq 1 m).mul ((Nat.mod_modEq b m).pow e)
      _ = b ^ e := one_mul _
  rw [← hmod, powMod, sqMul_mod m (Nat.mod_mod 1 m)]

/-! ## Lucas's test -/

/-- A power in `ZMod p` is one when the remainder is. -/
theorem pow_eq_one_iff_mod {p : ℕ} (hp : 1 < p) (a n : ℕ) :
    (a : ZMod p) ^ n = 1 ↔ a ^ n % p = 1 := by
  have h := ZMod.natCast_eq_natCast_iff' (a ^ n) 1 p
  rwa [Nat.cast_pow, Nat.cast_one, Nat.mod_eq_of_lt hp] at h

/-- What Lucas's test asks of a base `a` and the prime factors of `p - 1`, listed
with multiplicity: that `a` has order `p - 1` modulo `p`. -/
def LucasWitness (p a : ℕ) (factors : List ℕ) : Prop :=
  1 < p ∧ factors.prod = p - 1 ∧ powMod a (p - 1) p = 1 ∧
    ∀ f ∈ factors, powMod a ((p - 1) / f) p ≠ 1

instance (p a : ℕ) (factors : List ℕ) : Decidable (LucasWitness p a factors) :=
  inferInstanceAs (Decidable (_ ∧ _))

/-- Lucas's test. -/
theorem LucasWitness.prime {p a : ℕ} {factors : List ℕ} (h : LucasWitness p a factors)
    (hprime : ∀ f ∈ factors, f.Prime) : p.Prime := by
  obtain ⟨hp, hprod, hone, hne⟩ := h
  refine lucas_primality p a ?_ ?_
  · rwa [pow_eq_one_iff_mod hp, ← powMod_eq]
  · intro q hq hdvd
    rw [← hprod] at hdvd
    obtain ⟨f, hf, hqf⟩ := (Prime.dvd_prod_iff hq.prime).mp hdvd
    have hqf' : q = f := (Nat.prime_dvd_prime_iff_eq hq (hprime f hf)).mp hqf
    rw [Ne, pow_eq_one_iff_mod hp, ← powMod_eq, hqf']
    exact hne f hf

/-- A chain of numbers, each with a base and the prime factors of its predecessor,
which are all among the primes known before it. -/
def LucasChain : (known : List ℕ) → List (ℕ × ℕ × List ℕ) → Prop
  | _, [] => True
  | known, (p, a, factors) :: rest =>
      (LucasWitness p a factors ∧ ∀ f ∈ factors, f ∈ known) ∧ LucasChain (p :: known) rest

instance LucasChain.decidable : (known : List ℕ) → (entries : List (ℕ × ℕ × List ℕ)) →
    Decidable (LucasChain known entries)
  | _, [] => isTrue trivial
  | known, (p, _, _) :: rest =>
      have := LucasChain.decidable (p :: known) rest
      inferInstanceAs (Decidable (_ ∧ _))

/-- Every number of a chain that starts from primes is prime. -/
theorem LucasChain.prime {known : List ℕ} {entries : List (ℕ × ℕ × List ℕ)}
    (h : LucasChain known entries) (hknown : ∀ f ∈ known, f.Prime) :
    ∀ e ∈ entries, e.1.Prime := by
  induction entries generalizing known with
  | nil => simp
  | cons hd tl ih =>
      obtain ⟨⟨hlucas, hmem⟩, hrest⟩ := h
      have hp : hd.1.Prime := hlucas.prime fun f hf ↦ hknown f (hmem f hf)
      intro e he
      rcases List.mem_cons.mp he with rfl | he
      · exact hp
      · refine ih hrest (fun f hf ↦ ?_) e he
        rcases List.mem_cons.mp hf with rfl | hf
        · exact hp
        · exact hknown f hf

end Modexp
