import Mathlib.Algebra.BigOperators.Intervals
import Mathlib.Algebra.Order.BigOperators.Group.Finset
import Mathlib.Data.List.GetD
import Mathlib.Data.Nat.Digits.Lemmas
import Mathlib.Tactic.LinearCombination

/-!
# Positional arithmetic in machine words

Numbers as lists of digits over a base `B`, the lowest digit first; their value is
`Nat.ofDigits B`.

A carry runs through a list of columns and leaves digits behind (`carryDigits`,
`carryOut`), and nothing is lost (`ofDigits_carryDigits`).  A machine does the same in words
of `W` values (`wordCarry`); it agrees as long as the columns have room for the carry
(`wordCarry_eq`).  A borrow is read off the top bit of a difference that wraps around
(`ofDigits_wordBorrow`).  Digits are compared from the top (`compareDigits_eq`), and the
columns of a product are those of the schoolbook (`ofDigits_columns`).  A digit of a
quotient is estimated from leading digits, and the estimate is off by one at most
(`mul_div_le_div`, `pred_mul_le`).
-/

namespace Radix

open Nat (ofDigits ofDigits_cons ofDigits_append ofDigits_nil)

variable {B : ℕ}

/-! ## Reading digits -/

section Read

/-- One more digit is one more power of the base. -/
theorem ofDigits_take_succ (ds : List ℕ) (n : ℕ) :
    ofDigits B (ds.take (n + 1)) = ofDigits B (ds.take n) + B ^ n * ds.getD n 0 := by
  rcases lt_or_ge n ds.length with h | h
  · rw [List.take_add_one, ofDigits_append, List.length_take_of_le h.le,
      List.getD_eq_getElem _ _ h, List.getElem?_eq_getElem h, Option.toList_some,
      Nat.ofDigits_singleton]
  · rw [List.take_of_length_le h, List.take_of_length_le (Nat.le_succ_of_le h),
      List.getD_eq_default _ _ h, mul_zero, add_zero]

theorem ofDigits_take_add_drop (ds : List ℕ) (n : ℕ) :
    ofDigits B (ds.take n) + B ^ n * ofDigits B (ds.drop n) = ofDigits B ds := by
  rcases le_or_gt n ds.length with h | h
  · conv_rhs => rw [← List.take_append_drop n ds, ofDigits_append, List.length_take_of_le h]
  · rw [List.drop_of_length_le h.le, List.take_of_length_le h.le, ofDigits_nil, mul_zero, add_zero]

/-- The value of the lowest `n` digits. -/
theorem ofDigits_take_lt {ds : List ℕ} (hB : 1 < B) (hds : ∀ d ∈ ds, d < B) (n : ℕ) :
    ofDigits B (ds.take n) < B ^ n :=
  (Nat.ofDigits_lt_base_pow_length hB fun d hd ↦ hds d (List.mem_of_mem_take hd)).trans_le
    (Nat.pow_le_pow_right hB.le (List.length_take_le n ds))

/-- A digit that is not zero holds the value up. -/
theorem pow_le_ofDigits_take {ds : List ℕ} {n : ℕ} (htop : ds.getD n 0 ≠ 0) :
    B ^ n ≤ ofDigits B (ds.take (n + 1)) := by
  rw [ofDigits_take_succ]
  exact (Nat.le_mul_of_pos_right _ (Nat.pos_of_ne_zero htop)).trans (Nat.le_add_left _ _)

theorem ofDigits_eq_zero {ds : List ℕ} (h : ∀ d ∈ ds, d = 0) : ofDigits B ds = 0 := by
  rw [List.eq_replicate_of_mem h, Nat.ofDigits_replicate_zero]

/-- A digit read at any index is one of the list, or the zero behind it. -/
theorem getD_lt {ds : List ℕ} (hB : 0 < B) (hds : ∀ d ∈ ds, d < B) (i : ℕ) : ds.getD i 0 < B := by
  rcases lt_or_ge i ds.length with h | h
  · rw [List.getD_eq_getElem _ _ h]
    exact hds _ (List.getElem_mem h)
  · rwa [List.getD_eq_default _ _ h]

theorem getD_eq_div_mod {ds : List ℕ} (hds : ∀ d ∈ ds, d < B) (i : ℕ) :
    ds.getD i 0 = ofDigits B ds / B ^ i % B := by
  induction ds generalizing i with
  | nil => simp
  | cons d ds ih =>
    obtain ⟨hd, hds⟩ := List.forall_mem_cons.mp hds
    cases i with
    | zero => rw [pow_zero, Nat.div_one, ofDigits_cons, Nat.add_mul_mod_self_left,
        Nat.mod_eq_of_lt hd, List.getD_cons_zero]
    | succ i => rw [List.getD_cons_succ, ih hds, pow_succ', ← Nat.div_div_eq_div_mul, ofDigits_cons,
        Nat.add_mul_div_left _ _ (Nat.zero_lt_of_lt hd), Nat.div_eq_of_lt hd, zero_add]

/-- A digit that is put in the place of another. -/
theorem ofDigits_set_add {ds : List ℕ} {i : ℕ} (hi : i < ds.length) (d : ℕ) :
    ofDigits B (ds.set i d) + B ^ i * ds.getD i 0 = ofDigits B ds + B ^ i * d := by
  induction ds generalizing i with
  | nil => exact absurd hi (Nat.not_lt_zero i)
  | cons x xs ih =>
    cases i with
    | zero =>
      rw [List.getD_cons_zero, List.set_cons_zero, ofDigits_cons, ofDigits_cons]
      ring
    | succ i =>
      rw [List.set_cons_succ, ofDigits_cons, ofDigits_cons, List.getD_cons_succ]
      linear_combination B * ih (Nat.lt_of_succ_lt_succ hi)

/-- A digit that is put in the place of a zero. -/
theorem ofDigits_set {ds : List ℕ} {i : ℕ} (hi : i < ds.length) (hzero : ds.getD i 0 = 0) (d : ℕ) :
    ofDigits B (ds.set i d) = ofDigits B ds + B ^ i * d := by
  rw [← ofDigits_set_add hi, hzero, mul_zero, add_zero]

end Read

/-! ## Carries -/

section Carry

/-- The digits a carry leaves behind on its way through columns. -/
def carryDigits (B : ℕ) : (carry : ℕ) → List ℕ → List ℕ
  | _, [] => []
  | u, col :: cols => (col + u) % B :: carryDigits B ((col + u) / B) cols

/-- The carry out of the last column. -/
def carryOut (B : ℕ) : (carry : ℕ) → List ℕ → ℕ
  | u, [] => u
  | u, col :: cols => carryOut B ((col + u) / B) cols

variable {u C U W V : ℕ} {cols : List ℕ}

@[simp] theorem length_carryDigits (u : ℕ) (cols : List ℕ) :
    (carryDigits B u cols).length = cols.length := by
  induction cols generalizing u with
  | nil => rfl
  | cons col cols ih => rw [carryDigits, List.length_cons, ih, List.length_cons]

theorem carryDigits_lt (hB : 0 < B) (u : ℕ) (cols : List ℕ) :
    ∀ d ∈ carryDigits B u cols, d < B := by
  induction cols generalizing u with
  | nil => exact fun _ h ↦ nomatch h
  | cons col cols ih => exact List.forall_mem_cons.mpr ⟨Nat.mod_lt _ hB, ih _⟩

/-- Nothing is lost on the way. -/
theorem ofDigits_carryDigits (u : ℕ) (cols : List ℕ) :
    ofDigits B (carryDigits B u cols) + B ^ cols.length * carryOut B u cols =
      u + ofDigits B cols := by
  induction cols generalizing u with
  | nil => simp [carryDigits, carryOut]
  | cons col cols ih =>
    have hcol := Nat.mod_add_div (col + u) B
    calc ofDigits B (carryDigits B u (col :: cols)) +
          B ^ (col :: cols).length * carryOut B u (col :: cols)
        = (col + u) % B + B * (ofDigits B (carryDigits B ((col + u) / B) cols) +
            B ^ cols.length * carryOut B ((col + u) / B) cols) := by
          rw [carryDigits, carryOut, ofDigits_cons, List.length_cons, pow_succ]
          ring
      _ = (col + u) % B + B * ((col + u) / B) + B * ofDigits B cols := by rw [ih]; ring
      _ = u + ofDigits B (col :: cols) := by rw [hcol, ofDigits_cons]; ring

/-- Columns up to `C` do not drive a carry above `U`, if that leaves them below the next
multiple of the base. -/
theorem carryOut_le (hroom : C + U < (U + 1) * B) (hcols : ∀ col ∈ cols, col ≤ C) (hu : u ≤ U) :
    carryOut B u cols ≤ U := by
  induction cols generalizing u with
  | nil => exact hu
  | cons col cols ih =>
    obtain ⟨hcol, hcols⟩ := List.forall_mem_cons.mp hcols
    have hlt : col + u < B * (U + 1) := by
      rw [mul_comm]
      omega
    exact ih hcols (Nat.lt_succ_iff.mp (Nat.div_lt_of_lt_mul hlt))

/-- The same loop in a machine: columns are summed up in words of `W` values, and the
carry is kept in a word of `V` values. -/
def wordCarry (B W V : ℕ) : (carry : ℕ) → List ℕ → List ℕ × ℕ
  | u, [] => ([], u)
  | u, col :: cols =>
    let t := (col + u) % W
    let rest := wordCarry B W V (t / B % V) cols
    (t % B :: rest.1, rest.2)

/-- No word overflows. -/
theorem wordCarry_eq (hroom : C + U < (U + 1) * B) (hW : C + U < W) (hV : U < V)
    (hcols : ∀ col ∈ cols, col ≤ C) (hu : u ≤ U) :
    wordCarry B W V u cols = (carryDigits B u cols, carryOut B u cols) := by
  induction cols generalizing u with
  | nil => rfl
  | cons col cols ih =>
    obtain ⟨hcol, hcols⟩ := List.forall_mem_cons.mp hcols
    have ht : (col + u) % W = col + u := Nat.mod_eq_of_lt (by omega)
    have hlt : col + u < B * (U + 1) := by
      rw [mul_comm]
      omega
    have hcarry : (col + u) / B ≤ U := Nat.lt_succ_iff.mp (Nat.div_lt_of_lt_mul hlt)
    rw [wordCarry, ht, Nat.mod_eq_of_lt (hcarry.trans_lt hV), ih hcols hcarry]
    rfl

/-- A sum that is kept in a word, one term after the other. -/
theorem foldl_add_mod {ι : Type} (f : ι → ℕ) (l : List ι) {w : ℕ} (h : w + (l.map f).sum < W) :
    l.foldl (fun w i ↦ (w + f i) % W) w = w + (l.map f).sum := by
  induction l generalizing w with
  | nil => simp
  | cons i l ih =>
    rw [List.map_cons, List.sum_cons] at h ⊢
    rw [List.foldl_cons, Nat.mod_eq_of_lt (by omega), ih (by omega), add_assoc]

end Carry

/-! ## Borrows -/

section Borrow

/-- The differences of two lists of digits in words of `W` values.  The borrow is the top
bit of the difference that wraps around. -/
def wordBorrow (B W : ℕ) : (borrow : ℕ) → List ℕ → List ℕ → List ℕ × ℕ
  | u, [], _ => ([], u)
  | u, x :: xs, [] =>
    let t := (x + (W - u)) % W
    let rest := wordBorrow B W (t / (W / 2)) xs []
    (t % B :: rest.1, rest.2)
  | u, x :: xs, y :: ys =>
    let t := (x + (W - y) + (W - u)) % W
    let rest := wordBorrow B W (t / (W / 2)) xs ys
    (t % B :: rest.1, rest.2)

variable {H u : ℕ}

/-- One difference: the borrow tells how far it wrapped. -/
theorem borrow_step {x y : ℕ} (hx : x < B) (hy : y < B) (hu : u ≤ 1) (hH : B ∣ H) (hpos : 0 < H) :
    x + B * ((x + (2 * H - y) + (2 * H - u)) % (2 * H) / H) =
        (x + (2 * H - y) + (2 * H - u)) % (2 * H) % B + y + u ∧
      (x + (2 * H - y) + (2 * H - u)) % (2 * H) / H ≤ 1 := by
  have hBH : B ≤ H := Nat.le_of_dvd hpos hH
  rcases le_or_gt (y + u) x with h | h
  · have ht : (x + (2 * H - y) + (2 * H - u)) % (2 * H) = x - (y + u) := by
      rw [show x + (2 * H - y) + (2 * H - u) = x - (y + u) + 2 * H * 2 by omega,
        Nat.add_mul_mod_self_left, Nat.mod_eq_of_lt (by omega)]
    rw [ht, Nat.div_eq_of_lt (by omega), Nat.mod_eq_of_lt (by omega)]
    omega
  · have ht : (x + (2 * H - y) + (2 * H - u)) % (2 * H) = H + (H - (y + u - x)) := by
      rw [show x + (2 * H - y) + (2 * H - u) = H + (H - (y + u - x)) + 2 * H by omega,
        Nat.add_mod_right, Nat.mod_eq_of_lt (by omega)]
    have hdiv : (H + (H - (y + u - x))) / H = 1 :=
      Nat.div_eq_of_lt_le (by omega) (by omega)
    have hmod : (H + (H - (y + u - x))) % B = (B - (y + u - x)) % B := by
      obtain ⟨k, rfl⟩ := hH
      obtain ⟨k, rfl⟩ : ∃ j, k = j + 1 :=
        Nat.exists_eq_succ_of_ne_zero (by rintro rfl; simp at hpos)
      rw [show B * (k + 1) + (B * (k + 1) - (y + u - x)) =
        B - (y + u - x) + B * (k + 1 + k) by rw [mul_add, mul_add, mul_add, mul_one]; omega,
        Nat.add_mul_mod_self_left]
    rw [ht, hdiv, hmod]
    rcases eq_or_lt_of_le (show y + u - x ≤ B by omega) with heq | hlt
    · rw [heq, Nat.sub_self, Nat.zero_mod]
      omega
    · rw [Nat.mod_eq_of_lt (by omega)]
      omega

/-- A digit that is missing is a zero. -/
theorem wordBorrow_cons (u x : ℕ) (xs ys : List ℕ) :
    wordBorrow B (2 * H) u (x :: xs) ys =
      ((x + (2 * H - ys.headD 0) + (2 * H - u)) % (2 * H) % B ::
        (wordBorrow B (2 * H) ((x + (2 * H - ys.headD 0) + (2 * H - u)) % (2 * H) / H)
          xs ys.tail).1,
      (wordBorrow B (2 * H) ((x + (2 * H - ys.headD 0) + (2 * H - u)) % (2 * H) / H)
        xs ys.tail).2) := by
  have hhalf : 2 * H / 2 = H := Nat.mul_div_cancel_left H zero_lt_two
  cases ys with
  | nil =>
    have hword : (x + 2 * H + (2 * H - u)) % (2 * H) = (x + (2 * H - u)) % (2 * H) := by
      rw [add_right_comm, Nat.add_mod_right]
    rw [wordBorrow, hhalf, List.headD_nil, List.tail_nil, Nat.sub_zero, hword]
  | cons y ys => rw [wordBorrow, hhalf, List.headD_cons, List.tail_cons]

/-- The differences, with the last borrow. -/
theorem ofDigits_wordBorrow {xs ys : List ℕ} (hxs : ∀ x ∈ xs, x < B) (hys : ∀ y ∈ ys, y < B)
    (hlen : ys.length ≤ xs.length) (hu : u ≤ 1) (hB : 0 < B) (hH : B ∣ H) (hpos : 0 < H) :
    ofDigits B xs + B ^ xs.length * (wordBorrow B (2 * H) u xs ys).2 =
        ofDigits B (wordBorrow B (2 * H) u xs ys).1 + ofDigits B ys + u ∧
      (wordBorrow B (2 * H) u xs ys).1.length = xs.length ∧
      (∀ d ∈ (wordBorrow B (2 * H) u xs ys).1, d < B) ∧
      (wordBorrow B (2 * H) u xs ys).2 ≤ 1 := by
  induction xs generalizing ys u with
  | nil =>
    obtain rfl : ys = [] := List.eq_nil_of_length_eq_zero (Nat.le_zero.mp hlen)
    simpa [wordBorrow] using hu
  | cons x xs ih =>
    obtain ⟨hx, hxs⟩ := List.forall_mem_cons.mp hxs
    have hy : ys.headD 0 < B := by
      cases ys with
      | nil => exact hB
      | cons y ys => exact hys y List.mem_cons_self
    have hvalue : ofDigits B ys = ys.headD 0 + B * ofDigits B ys.tail := by
      cases ys with
      | nil => rfl
      | cons y ys => exact ofDigits_cons
    obtain ⟨hstep, hborrow⟩ := borrow_step hx hy hu hH hpos
    obtain ⟨ihvalue, ihlen, ihlt, ihborrow⟩ := ih hxs
      (fun d hd ↦ hys d (List.mem_of_mem_tail hd))
      (by rw [List.length_tail]; exact Nat.sub_le_of_le_add hlen) hborrow
    rw [wordBorrow_cons]
    refine ⟨?_, congrArg (· + 1) ihlen, List.forall_mem_cons.mpr ⟨Nat.mod_lt _ hB, ihlt⟩, ihborrow⟩
    rw [hvalue, ofDigits_cons, ofDigits_cons, List.length_cons, pow_succ]
    linear_combination hstep + B * ihvalue

end Borrow

/-! ## Comparison -/

section Compare

/-- The comparison of the lowest `n` digits, from the highest of them on. -/
def compareDigits (as bs : List ℕ) : (n : ℕ) → Ordering
  | 0 => .eq
  | n + 1 =>
    if bs.getD n 0 < as.getD n 0 then .gt
    else if as.getD n 0 < bs.getD n 0 then .lt
    else compareDigits as bs n

theorem compareDigits_eq {as bs : List ℕ} (hB : 1 < B) (has : ∀ a ∈ as, a < B)
    (hbs : ∀ b ∈ bs, b < B) (n : ℕ) :
    compareDigits as bs n = compare (ofDigits B (as.take n)) (ofDigits B (bs.take n)) := by
  induction n with
  | zero => simp [compareDigits]
  | succ n ih =>
    have ha := ofDigits_take_lt hB has n
    have hb := ofDigits_take_lt hB hbs n
    -- a higher digit outweighs everything below it
    have hless {x y v w : ℕ} (hxy : x < y) (hv : v < B ^ n) : v + B ^ n * x < w + B ^ n * y := by
      have hmul := Nat.mul_le_mul_left (B ^ n) (Nat.succ_le_of_lt hxy)
      rw [Nat.mul_succ] at hmul
      omega
    rw [compareDigits, ofDigits_take_succ, ofDigits_take_succ]
    rcases lt_trichotomy (as.getD n 0) (bs.getD n 0) with h | h | h
    · rw [if_neg h.le.not_gt, if_pos h, eq_comm, compare_lt_iff_lt]
      exact hless h ha
    · rw [h, if_neg (lt_irrefl _), if_neg (lt_irrefl _), ih]
      simp only [compare, compareOfLessAndEq, Nat.add_lt_add_iff_right, Nat.add_right_cancel_iff]
    · rw [if_pos h, eq_comm, compare_gt_iff_gt]
      exact hless h hb

end Compare

/-! ## Digits of a quotient -/

section Quotient

variable {X Y P q : ℕ}

/-- A quotient of two numbers does not exceed that of their leading digits, with both cut
off at the same place. -/
theorem mul_div_le_div (h : q * Y ≤ X) : q * (Y / P) ≤ X / P := by
  rcases Nat.eq_zero_or_pos P with rfl | hP
  · simp
  · rw [Nat.le_div_iff_mul_le hP, mul_assoc]
    exact (Nat.mul_le_mul_left q (Nat.div_mul_le_self Y P)).trans h

/-- A quotient of leading digits is at most one above that of the numbers, if it is not
much larger than the leading digits of the divisor. -/
theorem pred_mul_le (hP : 0 < P) (h : q * (Y / P) ≤ X / P) (hq : q ≤ Y / P + 1) :
    (q - 1) * Y ≤ X := by
  cases q with
  | zero => simp
  | succ q =>
    rw [Nat.le_div_iff_mul_le hP] at h
    have hmod := Nat.div_add_mod Y P
    have hlow : q * (Y % P) ≤ Y / P * P :=
      Nat.mul_le_mul (Nat.le_of_succ_le_succ hq) (Nat.mod_lt Y hP).le
    calc (q + 1 - 1) * Y = q * (P * (Y / P)) + q * (Y % P) := by
          rw [Nat.add_sub_cancel, ← mul_add, hmod]
      _ ≤ q * (P * (Y / P)) + Y / P * P := Nat.add_le_add_left hlow _
      _ = (q + 1) * (Y / P) * P := by ring
      _ ≤ X := h

/-- A quotient is estimated by a product with the reciprocal `b * R / N` of the divisor: what
the product misses in units of `R` is missed by the estimate, and two more are. -/
theorem reciprocal_estimate {b R N x E : ℕ} (hb : 0 < b) (hR : 0 < R) (hbN : b ≤ N)
    (hx : x < b * R) (hle : q * R ≤ x / b * (b * R / N))
    (hlt : x / b * (b * R / N) < (q + E + 1) * R) : q * N ≤ x ∧ x < (q + E + 3) * N := by
  have hN : 0 < N := hb.trans_le hbN
  have hfloor := Nat.div_add_mod x b
  have hrecip := Nat.div_add_mod (b * R) N
  have hlow := Nat.mod_lt x hb
  have hrem := Nat.mod_lt (b * R) hN
  have hlead : x / b < R := Nat.div_lt_of_lt_mul hx
  generalize x / b = q1 at hle hlt hfloor hlead
  generalize b * R / N = mu at hle hlt hrecip
  constructor
  · refine Nat.le_of_mul_le_mul_right (c := R) ?_ hR
    calc q * N * R = q * R * N := by ring
      _ ≤ q1 * mu * N := Nat.mul_le_mul_right N hle
      _ = q1 * (N * mu) := by ring
      _ ≤ q1 * (b * R) := Nat.mul_le_mul_left q1 (by omega)
      _ = b * q1 * R := by ring
      _ ≤ x * R := Nat.mul_le_mul_right R (by omega)
  · refine Nat.lt_of_mul_lt_mul_right (a := R) ?_
    calc x * R = q1 * (b * R) + x % b * R := by linear_combination R * hfloor.symm
      _ = q1 * mu * N + (q1 * (b * R % N) + x % b * R) := by
          linear_combination q1 * hrecip.symm
      _ < (q + E + 1) * R * N + (R * N + N * R) := by
          refine Nat.add_lt_add_of_lt_of_le (Nat.mul_lt_mul_of_pos_right hlt hN) ?_
          exact Nat.add_le_add (Nat.mul_le_mul hlead.le hrem.le)
            (Nat.mul_le_mul_right R (hlow.le.trans hbN))
      _ = (q + E + 3) * N * R := by ring

end Quotient

/-! ## Products -/

section Product

/-- A column of the product of two numbers. -/
def column (xs ys : List ℕ) (k : ℕ) : ℕ :=
  ∑ i ∈ Finset.range (k + 1), xs.getD i 0 * ys.getD (k - i) 0

theorem column_nil (ys : List ℕ) (k : ℕ) : column [] ys k = 0 := by
  simp [column]

theorem column_cons_zero (x : ℕ) (xs ys : List ℕ) : column (x :: xs) ys 0 = x * ys.getD 0 0 := by
  simp [column]

theorem column_cons_succ (x : ℕ) (xs ys : List ℕ) (k : ℕ) :
    column (x :: xs) ys (k + 1) = x * ys.getD (k + 1) 0 + column xs ys k := by
  rw [column, Finset.sum_range_succ', add_comm]
  simp [column]

theorem sum_map_range (f : ℕ → ℕ) (n : ℕ) :
    ((List.range n).map f).sum = ∑ i ∈ Finset.range n, f i := by
  induction n with
  | zero => rfl
  | succ n ih => rw [List.sum_range_succ, ih, Finset.sum_range_succ]

/-- Only the products of digits that are there count: `ty` digits of the second number, from
the highest down, against those of the first from `tx` on. -/
theorem column_eq_window {xs ys : List ℕ} {k tx ty : ℕ} (hty : ty = min ys.length (k + 1))
    (htx : tx = k + 1 - ty) :
    column xs ys k = ∑ i ∈ Finset.range (min (xs.length - tx) ty),
      xs.getD (tx + i) 0 * ys.getD (ty - 1 - i) 0 := by
  have hwindow : ∑ i ∈ Finset.range (min (xs.length - tx) ty),
      xs.getD (tx + i) 0 * ys.getD (ty - 1 - i) 0 =
      ∑ i ∈ Finset.Ico tx (tx + min (xs.length - tx) ty), xs.getD i 0 * ys.getD (k - i) 0 := by
    rw [Finset.sum_Ico_eq_sum_range, Nat.add_sub_cancel_left]
    refine Finset.sum_congr rfl fun i hi ↦ ?_
    have hi := Finset.mem_range.mp hi
    rw [show k - (tx + i) = ty - 1 - i by omega]
  rw [hwindow, column]
  refine (Finset.sum_subset ?_ fun i hi hout ↦ ?_).symm
  · intro i hi
    rw [Finset.mem_Ico] at hi
    exact Finset.mem_range.mpr (by omega)
  · rw [Finset.mem_range] at hi
    rw [Finset.mem_Ico] at hout
    rcases lt_or_ge i tx with h | h
    · rw [List.getD_eq_default ys _ (by omega), mul_zero]
    · rw [List.getD_eq_default xs _ (by omega), zero_mul]

/-- A column has as many products as the shorter number has digits. -/
theorem column_le {xs ys : List ℕ} {m : ℕ} (hxs : ∀ x ∈ xs, x ≤ m) (hys : ∀ y ∈ ys, y ≤ m)
    (k : ℕ) : column xs ys k ≤ min xs.length ys.length * (m * m) := by
  have hread {ds : List ℕ} (hds : ∀ d ∈ ds, d ≤ m) (i : ℕ) : ds.getD i 0 ≤ m :=
    Nat.lt_succ_iff.mp (getD_lt m.succ_pos (fun d hd ↦ Nat.lt_succ_iff.mpr (hds d hd)) i)
  rw [column_eq_window rfl rfl]
  refine (Finset.sum_le_card_nsmul _ _ (m * m) fun i _ ↦
    Nat.mul_le_mul (hread hxs _) (hread hys _)).trans ?_
  rw [Finset.card_range, smul_eq_mul]
  exact Nat.mul_le_mul_right _ (by omega)

/-- A sum of terms that are the same from both ends is twice that of a half, and the term
in the middle if there is one. -/
theorem sum_range_palindrome {f : ℕ → ℕ} {n : ℕ} (hf : ∀ i < n, f (n - 1 - i) = f i) :
    ∑ i ∈ Finset.range n, f i =
      2 * ∑ i ∈ Finset.range (n / 2), f i + if n % 2 = 1 then f (n / 2) else 0 := by
  have hupper : ∑ i ∈ Finset.range (n / 2), f (n - n / 2 + i) =
      ∑ i ∈ Finset.range (n / 2), f i := by
    rw [← Finset.sum_range_reflect]
    refine Finset.sum_congr rfl fun i hi ↦ ?_
    have hi := Finset.mem_range.mp hi
    rw [show n - n / 2 + (n / 2 - 1 - i) = n - 1 - i by omega]
    exact hf i (by omega)
  have hsplit : Finset.range n = Finset.range (n - n / 2 + n / 2) := by
    rw [Nat.sub_add_cancel (by omega)]
  rw [hsplit, Finset.sum_range_add, hupper]
  split
  · next h =>
    rw [show n - n / 2 = n / 2 + 1 by omega, Finset.sum_range_succ]
    ring
  · next h =>
    rw [show n - n / 2 = n / 2 by omega]
    ring

/-- A column of a square, from the products of its lower half. -/
theorem column_self {xs : List ℕ} {k tx ty : ℕ} (hty : ty = min xs.length (k + 1))
    (htx : tx = k + 1 - ty) (hk : k < 2 * xs.length) :
    column xs xs k = 2 * ∑ i ∈ Finset.range (min (min (xs.length - tx) ty) ((ty - tx) / 2)),
        xs.getD (tx + i) 0 * xs.getD (ty - 1 - i) 0 +
      if k % 2 = 0 then xs.getD (k / 2) 0 * xs.getD (k / 2) 0 else 0 := by
  rw [column_eq_window hty htx, show min (xs.length - tx) ty = ty - tx by omega,
    Nat.min_eq_right (Nat.div_le_self _ _), sum_range_palindrome fun i hi ↦ ?_]
  · congr 1
    by_cases h : k % 2 = 0
    · rw [if_pos h, if_pos (by omega), show tx + (ty - tx) / 2 = k / 2 by omega,
        show ty - 1 - (ty - tx) / 2 = k / 2 by omega]
    · rw [if_neg h, if_neg (by omega)]
  · rw [mul_comm, show ty - 1 - (ty - tx - 1 - i) = tx + i by omega,
      show tx + (ty - tx - 1 - i) = ty - 1 - i by omega]

theorem ofDigits_map_getD (ys : List ℕ) (n : ℕ) :
    ofDigits B ((List.range n).map (ys.getD · 0)) = ofDigits B (ys.take n) := by
  induction n with
  | zero => rfl
  | succ n ih =>
    rw [List.range_succ, List.map_append, ofDigits_append, ih, ofDigits_take_succ]
    simp

theorem ofDigits_map_mul_add (x n : ℕ) (f g : ℕ → ℕ) :
    ofDigits B ((List.range n).map fun k ↦ x * f k + g k) =
      x * ofDigits B ((List.range n).map f) + ofDigits B ((List.range n).map g) := by
  induction n with
  | zero => simp
  | succ n ih =>
    simp only [List.range_succ, List.map_append, ofDigits_append, ih, List.length_map,
      List.length_range, List.map_cons, List.map_nil, Nat.ofDigits_singleton]
    ring

/-- The columns of a product, from those of its rows. -/
theorem ofDigits_columns_cons (x : ℕ) (xs ys : List ℕ) (n : ℕ) :
    ofDigits B ((List.range (n + 1)).map (column (x :: xs) ys)) =
      x * ofDigits B (ys.take (n + 1)) + B * ofDigits B ((List.range n).map (column xs ys)) := by
  have hcols : column (x :: xs) ys ∘ Nat.succ = fun k ↦ x * ys.getD (k + 1) 0 + column xs ys k :=
    funext fun k ↦ column_cons_succ x xs ys k
  rw [← ofDigits_map_getD, List.range_succ_eq_map, List.map_cons, List.map_map, List.map_cons,
    List.map_map, ofDigits_cons, ofDigits_cons, column_cons_zero, hcols, ofDigits_map_mul_add]
  simp only [Function.comp_def, Nat.succ_eq_add_one]
  ring

/-- The lowest `n` columns are the product up to a multiple of `B ^ n`. -/
theorem ofDigits_columns (xs ys : List ℕ) (n : ℕ) :
    ∃ rest, ofDigits B xs * ofDigits B ys =
      ofDigits B ((List.range n).map (column xs ys)) + B ^ n * rest := by
  induction xs generalizing n with
  | nil => exact ⟨0, by simp [column_nil, ofDigits_eq_zero]⟩
  | cons x xs ih =>
    cases n with
    | zero => exact ⟨ofDigits B (x :: xs) * ofDigits B ys, by simp⟩
    | succ n =>
      obtain ⟨rest, hrest⟩ := ih n
      refine ⟨x * ofDigits B (ys.drop (n + 1)) + rest, ?_⟩
      have hsplit := ofDigits_take_add_drop (B := B) ys (n + 1)
      rw [ofDigits_columns_cons, ofDigits_cons, add_mul, mul_assoc, hrest]
      nth_rw 1 [← hsplit]
      ring

/-- A carry through the lowest columns leaves the lowest digits of the product. -/
theorem ofDigits_carryDigits_columns (hB : 1 < B) (xs ys : List ℕ) (n : ℕ) :
    ofDigits B (carryDigits B 0 ((List.range n).map (column xs ys))) =
      ofDigits B xs * ofDigits B ys % B ^ n := by
  obtain ⟨rest, hrest⟩ := ofDigits_columns (B := B) xs ys n
  have hcarry := ofDigits_carryDigits (B := B) 0 ((List.range n).map (column xs ys))
  have hlt := Nat.ofDigits_lt_base_pow_length hB
    (carryDigits_lt (Nat.zero_lt_of_lt hB) 0 ((List.range n).map (column xs ys)))
  rw [length_carryDigits] at hlt
  rw [List.length_map, List.length_range] at hcarry hlt
  rw [hrest, ← zero_add (ofDigits B ((List.range n).map _)), ← hcarry, Nat.add_mul_mod_self_left,
    Nat.add_mul_mod_self_left, Nat.mod_eq_of_lt hlt]

/-- A carry through the highest columns leaves what the lowest ones do not come to. -/
theorem ofDigits_carryDigits_high {xs ys : List ℕ} {k n : ℕ} (hk : k ≤ n)
    (hlt : ofDigits B xs * ofDigits B ys < B ^ n) :
    B ^ k * ofDigits B (carryDigits B 0 (((List.range n).drop k).map (column xs ys))) +
      ofDigits B ((List.range k).map (column xs ys)) = ofDigits B xs * ofDigits B ys := by
  obtain ⟨rest, hrest⟩ := ofDigits_columns (B := B) xs ys n
  have hsplit := ofDigits_take_add_drop (B := B) ((List.range n).map (column xs ys)) k
  have hcarry := ofDigits_carryDigits (B := B) 0 (((List.range n).drop k).map (column xs ys))
  rw [← List.map_take, ← List.map_drop, List.take_range, Nat.min_eq_left hk] at hsplit
  rw [List.length_map, List.length_drop, List.length_range, zero_add] at hcarry
  rw [← hsplit, ← hcarry, mul_add, ← mul_assoc, ← pow_add, Nat.add_sub_cancel' hk] at hrest
  -- there is no place for what is left over
  have hzero : carryOut B 0 (((List.range n).drop k).map (column xs ys)) + rest = 0 := by
    by_contra hne
    have hle := Nat.le_mul_of_pos_right (B ^ n) (Nat.pos_of_ne_zero hne)
    rw [mul_add] at hle
    omega
  obtain ⟨hout, hrest'⟩ := Nat.add_eq_zero_iff.mp hzero
  rw [hrest, hout, hrest']
  ring

/-- What the lowest `n` columns come to. -/
theorem ofDigits_columns_le {m : ℕ} {xs ys : List ℕ} (hxs : ∀ x ∈ xs, x < m + 1)
    (hys : ∀ y ∈ ys, y < m + 1) (n : ℕ) :
    ofDigits (m + 1) ((List.range n).map (column xs ys)) ≤ n * (m * (m + 1) ^ n) := by
  induction xs generalizing n with
  | nil => exact (ofDigits_eq_zero (by simp [column_nil])).trans_le (Nat.zero_le _)
  | cons x xs ih =>
    obtain ⟨hx, hxs⟩ := List.forall_mem_cons.mp hxs
    cases n with
    | zero => exact Nat.zero_le _
    | succ n =>
      have hrow : x * ofDigits (m + 1) (ys.take (n + 1)) ≤ m * (m + 1) ^ (n + 1) := by
        rcases Nat.eq_zero_or_pos m with rfl | hm
        · rw [Nat.lt_one_iff.mp hx, zero_mul]
          exact Nat.zero_le _
        · exact Nat.mul_le_mul (Nat.lt_succ_iff.mp hx)
            (ofDigits_take_lt (Nat.succ_lt_succ hm) hys (n + 1)).le
      rw [ofDigits_columns_cons]
      calc x * ofDigits (m + 1) (ys.take (n + 1)) +
            (m + 1) * ofDigits (m + 1) ((List.range n).map (column xs ys))
          ≤ m * (m + 1) ^ (n + 1) + (m + 1) * (n * (m * (m + 1) ^ n)) :=
            Nat.add_le_add hrow (Nat.mul_le_mul_left _ (ih hxs n))
        _ = (n + 1) * (m * (m + 1) ^ (n + 1)) := by ring

end Product

end Radix
