import Mathlib.Data.Nat.Bitwise
import Mathlib.Tactic.Ring

/-!
# Sliding windows

The left-to-right sliding window for a power: an exponent is scanned from its highest bit,
a zero between two windows is a squaring, and a window of `w` bits is `w` squarings and a
product with a power from a table that only holds the windows with their highest bit set.
Squaring and the product may fail; the state they work on is a parameter.

What the scan computes is an addition chain.  For any relation between exponents and states
that squaring and the product keep, the state that is left holds the exponent that was
scanned (`Window.pow_spec`).
-/

namespace Window

variable {σ ε : Type}

/-! ## The scan -/

/-- Before the first bit that is set, between two windows, and within one. -/
inductive Mode
  | skip
  | scan
  | fill
deriving DecidableEq

/-- A state of the scan: the bits of the window that are filled are the highest ones. -/
structure State (σ : Type) where
  mode : Mode
  bitcpy : ℕ
  bitbuf : ℕ
  res : σ

variable (sqr : σ → Except ε σ) (mul : ℕ → σ → Except ε σ) (w : ℕ)

def sqrTimes : (n : ℕ) → σ → Except ε σ
  | 0, res => .ok res
  | n + 1, res => sqr res >>= sqrTimes n

/-- A bit that enters the window, which is used when it is full. -/
def enter (s : State σ) (y : ℕ) : Except ε (State σ) :=
  let bitcpy := s.bitcpy + 1
  let bitbuf := s.bitbuf ||| y * 2 ^ (w - bitcpy)
  if bitcpy = w then do
    let res ← sqrTimes sqr w s.res
    let res ← mul bitbuf res
    .ok ⟨.scan, 0, 0, res⟩
  else .ok ⟨.fill, bitcpy, bitbuf, s.res⟩

/-- A bit of the exponent. -/
def step (s : State σ) (y : ℕ) : Except ε (State σ) :=
  if s.mode = .skip ∧ y = 0 then .ok s
  else if s.mode = .scan ∧ y = 0 then do
    let res ← sqr s.res
    .ok { s with res := res }
  else enter sqr mul w s y

/-- A bit of the last window, which has been shifted to the place `w`. -/
def finishStep (bitbuf : ℕ) (res : σ) : Except ε σ := do
  let res ← sqr res
  if bitbuf &&& 2 ^ w ≠ 0 then mul 1 res else .ok res

def finishLoop : (n bitbuf : ℕ) → σ → Except ε σ
  | 0, _, res => .ok res
  | n + 1, bitbuf, res => do
    let res ← finishStep sqr mul w (bitbuf * 2) res
    finishLoop n (bitbuf * 2) res

def finish (s : State σ) : Except ε σ :=
  if s.mode = .fill ∧ 0 < s.bitcpy then finishLoop sqr mul w s.bitcpy s.bitbuf s.res
  else .ok s.res

/-- The power of an exponent, from its highest bit on. -/
def pow (bits : List ℕ) (one : σ) : Except ε σ := do
  let s ← bits.foldlM (step sqr mul w) ⟨.skip, 0, 0, one⟩
  finish sqr mul w s

/-! ## The exponent -/

/-- Squaring and the products with the table keep a relation between exponents and states. -/
structure Keeps (rel : ℕ → σ → Prop) : Prop where
  sqr : ∀ {e s}, rel e s → ∃ s', sqr s = .ok s' ∧ rel (2 * e) s'
  mul : ∀ {i e s}, (i = 1 ∨ 2 ^ (w - 1) ≤ i ∧ i < 2 ^ w) → rel e s →
    ∃ s', mul i s = .ok s' ∧ rel (e + i) s'

/-- What has been scanned: the state holds it but for the bits of an open window. -/
inductive Holds (rel : ℕ → σ → Prop) : ℕ → State σ → Prop
  | skip {res : σ} : rel 0 res → Holds rel 0 ⟨.skip, 0, 0, res⟩
  | scan {e : ℕ} {res : σ} : rel e res → Holds rel e ⟨.scan, 0, 0, res⟩
  | fill {e c u : ℕ} {res : σ} : rel e res → c + 1 < w → 2 ^ c ≤ u → u < 2 ^ (c + 1) →
      Holds rel (e * 2 ^ (c + 1) + u) ⟨.fill, c + 1, u * 2 ^ (w - (c + 1)), res⟩

variable {sqr mul w} {rel : ℕ → σ → Prop} {e n y : ℕ} {res : σ} {s : State σ}

theorem sqrTimes_spec (hsqr : ∀ {e s}, rel e s → ∃ s', sqr s = .ok s' ∧ rel (2 * e) s')
    (hres : rel e res) (n : ℕ) :
    ∃ res', sqrTimes sqr n res = .ok res' ∧ rel (e * 2 ^ n) res' := by
  induction n generalizing e res with
  | zero => exact ⟨res, rfl, by rwa [pow_zero, mul_one]⟩
  | succ n ih =>
    obtain ⟨s, hs, hrel⟩ := hsqr hres
    obtain ⟨res', hloop, hrel'⟩ := ih hrel
    refine ⟨res', by rw [sqrTimes, hs]; exact hloop, ?_⟩
    rwa [pow_succ', mul_left_comm, ← mul_assoc]

/-- A bit that enters a window of `c` bits. -/
theorem enter_spec (h : Keeps sqr mul w rel) (hres : rel e res) {c u : ℕ} (hc : c < w)
    (hu : u < 2 ^ c) (hy : y < 2) (htop : 2 ^ c ≤ 2 * u + y) (mode : Mode) :
    ∃ s', enter sqr mul w ⟨mode, c, u * 2 ^ (w - c), res⟩ y = .ok s' ∧
      Holds w rel (2 * (e * 2 ^ c + u) + y) s' := by
  obtain ⟨k, hk⟩ := Nat.exists_eq_add_of_lt hc
  have hor : u * 2 ^ (w - c) ||| y * 2 ^ (w - (c + 1)) = (2 * u + y) * 2 ^ (w - (c + 1)) := by
    rw [show w - c = k + 1 by omega, show w - (c + 1) = k by omega, mul_comm u,
      ← Nat.two_pow_add_eq_or_of_lt]
    · ring
    · rw [pow_succ']
      exact Nat.mul_lt_mul_of_pos_right hy (Nat.two_pow_pos k)
  have hvalue : 2 * (e * 2 ^ c + u) + y = e * 2 ^ (c + 1) + (2 * u + y) := by ring
  have hlt : 2 * u + y < 2 ^ (c + 1) := by
    rw [pow_succ']
    omega
  simp only [enter, hor, hvalue]
  split
  · next hfull =>
    -- a full window is an entry of the table
    obtain ⟨res', hsqr, hrel⟩ := sqrTimes_spec h.sqr hres w
    obtain ⟨res'', hmul, hrel⟩ := h.mul (i := 2 * u + y)
      (.inr ⟨by rwa [← hfull, Nat.add_sub_cancel], hfull ▸ hlt⟩) hrel
    refine ⟨⟨.scan, 0, 0, res''⟩, ?_, by rw [hfull]; exact .scan hrel⟩
    rw [hsqr, hfull, Nat.sub_self, pow_zero, mul_one]
    simp only [bind, Except.bind, hmul]
  · exact ⟨_, rfl, .fill hres (by omega) htop hlt⟩

/-- A bit of the exponent is scanned. -/
theorem step_spec (h : Keeps sqr mul w rel) (hw : 0 < w) (hy : y < 2) (hs : Holds w rel e s) :
    ∃ s', step sqr mul w s y = .ok s' ∧ Holds w rel (2 * e + y) s' := by
  have hbit : y = 0 ∨ y = 1 := by omega
  cases hs with
  | skip hres =>
    rcases hbit with rfl | rfl
    · exact ⟨_, rfl, .skip hres⟩
    · have henter := enter_spec h hres hw (Nat.two_pow_pos 0) hy le_rfl .skip
      simpa [step] using henter
  | scan hres =>
    rcases hbit with rfl | rfl
    · obtain ⟨res', hsqr, hrel⟩ := h.sqr hres
      exact ⟨⟨.scan, 0, 0, res'⟩, by simp [step, hsqr]; rfl, .scan hrel⟩
    · have henter := enter_spec h hres hw (Nat.two_pow_pos 0) hy le_rfl .scan
      simpa [step] using henter
  | fill hres hc hle hlt =>
    have henter := enter_spec h hres hc hlt hy (by rw [pow_succ']; omega) .fill
    simpa [step] using henter

/-- The bits that are left in an open window. -/
theorem finishLoop_spec (h : Keeps sqr mul w rel) (hres : rel e res) (hn : n ≤ w) (u : ℕ) :
    ∃ res', finishLoop sqr mul w n (u * 2 ^ (w - n)) res = .ok res' ∧
      rel (e * 2 ^ n + u % 2 ^ n) res' := by
  induction n generalizing e res with
  | zero => exact ⟨res, rfl, by rwa [pow_zero, mul_one, Nat.mod_one, add_zero]⟩
  | succ n ih =>
    obtain ⟨res', hsqr, hrel⟩ := h.sqr hres
    have hbuf : u * 2 ^ (w - (n + 1)) * 2 = u * 2 ^ (w - n) := by
      rw [show w - n = w - (n + 1) + 1 by omega, pow_succ, mul_assoc]
    have hbit : u * 2 ^ (w - n) &&& 2 ^ w = (u.testBit n).toNat * 2 ^ w := by
      rw [Nat.and_two_pow, Nat.testBit_mul_two_pow]
      simp [show w - n ≤ w by omega, show w - (w - n) = n by omega]
    have hvalue (i : ℕ) (hi : i = (u.testBit n).toNat) :
        (2 * e + i) * 2 ^ n + u % 2 ^ n = e * 2 ^ (n + 1) + u % 2 ^ (n + 1) := by
      rw [hi, Nat.toNat_testBit, Nat.mod_pow_succ]
      ring
    have hnext : ∃ res'', finishStep sqr mul w (u * 2 ^ (w - n)) res = .ok res'' ∧
        rel (2 * e + (u.testBit n).toNat) res'' := by
      simp only [finishStep, hsqr, hbit, bind, Except.bind]
      cases u.testBit n with
      | false => exact ⟨res', by simp, hrel⟩
      | true =>
        obtain ⟨res'', hmul, hrel⟩ := h.mul (.inl rfl) hrel
        exact ⟨res'', by simpa using hmul, hrel⟩
    obtain ⟨res'', hstep, hrel⟩ := hnext
    obtain ⟨out, hloop, hrel⟩ := ih hrel (by omega)
    refine ⟨out, ?_, by rwa [hvalue _ rfl] at hrel⟩
    rw [finishLoop, hbuf, hstep]
    exact hloop

theorem finish_spec (h : Keeps sqr mul w rel) (hs : Holds w rel e s) :
    ∃ res, finish sqr mul w s = .ok res ∧ rel e res := by
  cases hs with
  | skip hres => exact ⟨_, rfl, hres⟩
  | scan hres => exact ⟨_, rfl, hres⟩
  | fill hres hc hle hlt =>
    obtain ⟨res', hloop, hrel⟩ := finishLoop_spec h hres hc.le _
    rw [Nat.mod_eq_of_lt hlt] at hrel
    exact ⟨res', hloop, hrel⟩

theorem foldlM_step_spec (h : Keeps sqr mul w rel) (hw : 0 < w) {bits : List ℕ}
    (hbits : ∀ y ∈ bits, y < 2) (hs : Holds w rel e s) :
    ∃ s', bits.foldlM (step sqr mul w) s = .ok s' ∧
      Holds w rel (bits.foldl (fun e y ↦ 2 * e + y) e) s' := by
  induction bits generalizing e s with
  | nil => exact ⟨s, rfl, hs⟩
  | cons y bits ih =>
    obtain ⟨hy, hbits⟩ := List.forall_mem_cons.mp hbits
    obtain ⟨s', hstep, hs'⟩ := step_spec h hw hy hs
    obtain ⟨s'', hfold, hs''⟩ := ih hbits hs'
    refine ⟨s'', ?_, hs''⟩
    rw [List.foldlM_cons, hstep]
    exact hfold

/-- The state that is left holds the exponent. -/
theorem pow_spec (h : Keeps sqr mul w rel) (hw : 0 < w) {bits : List ℕ}
    (hbits : ∀ y ∈ bits, y < 2) (hone : rel 0 res) :
    ∃ res', pow sqr mul w bits res = .ok res' ∧
      rel (bits.foldl (fun e y ↦ 2 * e + y) 0) res' := by
  obtain ⟨s, hfold, hs⟩ := foldlM_step_spec h hw hbits (.skip hone)
  obtain ⟨res', hfinish, hrel⟩ := finish_spec h hs
  refine ⟨res', ?_, hrel⟩
  rw [pow, hfold]
  exact hfinish

end Window
