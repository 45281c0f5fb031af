import Mathlib.Data.Int.ModEq
import Mathlib.Data.Nat.ModEq
import Mathlib.Tactic.LinearCombination
import Mathlib.Tactic.Linarith
import Mathlib.Tactic.Ring

/-!
# Montgomery reduction

Division by a power of the base, modulo a number that is prime to it.  A place is divided out
by adding the multiple of the modulus that makes the place zero (`Montgomery.redcStep`), and
after `k` places what is left is less than twice the modulus (`Montgomery.redc_lt`).

A residue `x` is then kept as `x * R`, and the product of two such forms, reduced, is the form
of the product (`Montgomery.Form.mul`).
-/

namespace Montgomery

/-- Newton's step doubles the bits to which an inverse is known. -/
theorem newton_step {b x m : ℤ} (h : m ∣ b * x - 1) : m * m ∣ b * (x * (2 - b * x)) - 1 := by
  obtain ⟨k, hk⟩ := h
  exact ⟨-(k * k), by linear_combination (-(b * x) + 1 - m * k) * hk⟩

/-! ## Reduction -/

section Reduction

variable (B N rho : ℕ)

/-- A place is divided out. -/
def redcStep (v : ℕ) : ℕ := (v + v % B * rho % B * N) / B

/-- `k` places are divided out. -/
def redc : (k v : ℕ) → ℕ
  | 0, v => v
  | k + 1, v => redc k (redcStep B N rho v)

variable {B N rho} {k v : ℕ}

/-- The division of a place has no remainder. -/
theorem mul_redcStep (hrho : B ∣ rho * N + 1) (v : ℕ) :
    B * redcStep B N rho v = v + v % B * rho % B * N := by
  refine Nat.mul_div_cancel' ?_
  rw [← Nat.modEq_zero_iff_dvd] at hrho ⊢
  calc v + v % B * rho % B * N ≡ v + v * rho * N [MOD B] :=
        (((Nat.mod_modEq _ _).trans ((Nat.mod_modEq v B).mul_right rho)).mul_right N).add_left v
    _ = v * (rho * N + 1) := by ring
    _ ≡ 0 [MOD B] := by simpa using hrho.mul_left v

/-- A bound on what is left when `k` places are to come. -/
theorem redcStep_lt (hB : 0 < B) (hrho : B ∣ rho * N + 1) (hv : v < (B ^ (k + 1) + 1) * N) :
    redcStep B N rho v < (B ^ k + 1) * N := by
  have hstep := mul_redcStep hrho v
  obtain ⟨m, rfl⟩ := Nat.exists_eq_add_one_of_ne_zero hB.ne'
  have hmu := Nat.mul_le_mul_right N (Nat.lt_succ_iff.mp (Nat.mod_lt (v % (m + 1) * rho) hB))
  refine Nat.lt_of_mul_lt_mul_left (a := m + 1) ?_
  rw [hstep]
  calc v + v % (m + 1) * rho % (m + 1) * N
      < ((m + 1) ^ (k + 1) + 1) * N + m * N := Nat.add_lt_add_of_lt_of_le hv hmu
    _ = (m + 1) * (((m + 1) ^ k + 1) * N) := by ring

/-- All places are divided out of the number and a multiple of the modulus. -/
theorem redc_spec (hB : 0 < B) (hrho : B ∣ rho * N + 1) (k v : ℕ) :
    ∃ m < B ^ k, B ^ k * redc B N rho k v = v + m * N := by
  induction k generalizing v with
  | zero => exact ⟨0, by simp, by simp [redc]⟩
  | succ k ih =>
    obtain ⟨m, hm, hvalue⟩ := ih (redcStep B N rho v)
    have hstep := mul_redcStep hrho v
    have hlow : v % B * rho % B < B := Nat.mod_lt _ hB
    refine ⟨v % B * rho % B + B * m, ?_, ?_⟩
    · rw [pow_succ']
      have hle := Nat.mul_le_mul_left B (Nat.succ_le_of_lt hm)
      rw [Nat.mul_succ] at hle
      omega
    · calc B ^ (k + 1) * redc B N rho (k + 1) v
          = B * (B ^ k * redc B N rho k (redcStep B N rho v)) := by rw [redc]; ring
        _ = B * redcStep B N rho v + B * m * N := by rw [hvalue]; ring
        _ = v + (v % B * rho % B + B * m) * N := by rw [hstep]; ring

theorem redc_modEq (hB : 0 < B) (hrho : B ∣ rho * N + 1) (k v : ℕ) :
    B ^ k * redc B N rho k v ≡ v [MOD N] := by
  obtain ⟨m, -, hvalue⟩ := redc_spec hB hrho k v
  rw [hvalue]
  exact Nat.add_mul_modulus_modEq_iff.mpr rfl

/-- What is left is less than twice the modulus. -/
theorem redc_lt (hB : 0 < B) (hrho : B ∣ rho * N + 1) (hv : v < B ^ k * N) :
    redc B N rho k v < 2 * N := by
  obtain ⟨m, hm, hvalue⟩ := redc_spec hB hrho k v
  have hle := Nat.mul_le_mul_right N hm.le
  refine Nat.lt_of_mul_lt_mul_left (a := B ^ k) ?_
  rw [hvalue, mul_left_comm]
  omega

end Reduction

/-! ## Forms -/

/-- `v` is the form of the residue of `x`. -/
structure Form (R N x v : ℕ) : Prop where
  lt : v < N
  modEq : v ≡ x * R [MOD N]

variable {R N x y v w u : ℕ}

/-- A product of forms is reduced to the form of the product. -/
theorem Form.mul (hR : Nat.Coprime R N) (hv : Form R N x v) (hw : Form R N y w) (hu : u < N)
    (hred : R * u ≡ v * w [MOD N]) : Form R N (x * y) u where
  lt := hu
  modEq := by
    refine Nat.ModEq.cancel_left_of_coprime (c := R) hR.symm ?_
    calc R * u ≡ v * w [MOD N] := hred
      _ ≡ x * R * (y * R) [MOD N] := hv.modEq.mul hw.modEq
      _ = R * (x * y * R) := by ring

/-- A form that is reduced once more is the residue. -/
theorem Form.eq_mod (hR : Nat.Coprime R N) (hv : Form R N x v) (hu : u < N)
    (hred : R * u ≡ v [MOD N]) : u = x % N := by
  have hcancel : u ≡ x [MOD N] := by
    refine Nat.ModEq.cancel_left_of_coprime (c := R) hR.symm ?_
    calc R * u ≡ v [MOD N] := hred
      _ ≡ x * R [MOD N] := hv.modEq
      _ = R * x := mul_comm _ _
  rw [← hcancel, Nat.mod_eq_of_lt hu]

end Montgomery
