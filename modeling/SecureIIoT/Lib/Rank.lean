import Mathlib.Algebra.Order.BigOperators.Group.List
import Mathlib.Algebra.Order.Ring.Nat
import Mathlib.Data.List.Sort
import Mathlib.Order.Bounds.Basic

/-!
# Ranks in a list

`IsRanked xs k v` says that `v` is a `k`-th smallest entry of `xs`, counted from one and
with repetitions: at least `k` entries are below `v`, and fewer than `k` are not above
it.  Such a value grows with `k`, so there is at most one (`IsRanked.mono`), and it does not
depend on the order of the entries (`IsRanked.perm`).  In a sorted list the entry at index
`i` has rank `i + 1` (`isRanked_getElem`).
-/

universe u

variable {α : Type u} [LinearOrder α]

/-- `v` is the `k`-th smallest entry of `xs`. -/
structure IsRanked (xs : List α) (k : ℕ) (v : α) : Prop where
  mem : v ∈ xs
  le_countP : k ≤ xs.countP (· ≤ v)
  length_lt : xs.length < xs.countP (v ≤ ·) + k

section Entries

variable {xs ys : List α} {k l : ℕ} {v w : α}

/-- A higher rank is not a smaller value: the entries up to `w` and those from `v` on would
be disjoint otherwise, and too many. -/
theorem IsRanked.mono (hv : IsRanked xs k v) (hw : IsRanked xs l w) (h : k ≤ l) : v ≤ w := by
  by_contra hlt
  rw [not_le] at hlt
  have hdisjoint : xs.countP (v ≤ ·) ≤ xs.countP (fun x ↦ !decide (x ≤ w)) := by
    refine List.countP_mono_left fun x _ hx ↦ ?_
    simp only [decide_eq_true_eq, Bool.not_eq_true', decide_eq_false_iff_not, not_le] at hx ⊢
    exact lt_of_lt_of_le hlt hx
  have hlength := List.length_eq_countP_add_countP (fun x ↦ decide (x ≤ w)) (l := xs)
  have hbelow := hw.le_countP
  have habove := hv.length_lt
  simp only [Bool.not_eq_true, Bool.decide_eq_false] at hlength
  omega

theorem IsRanked.perm (hv : IsRanked xs k v) (h : xs.Perm ys) : IsRanked ys k v where
  mem := h.mem_iff.mp hv.mem
  le_countP := h.countP_eq _ ▸ hv.le_countP
  length_lt := h.countP_eq _ ▸ h.length_eq ▸ hv.length_lt

/-- In a sorted list, the entries up to an index are not above the one there, and the
entries from it on not below. -/
theorem isRanked_getElem (hsorted : xs.SortedLE) (i : ℕ) (hi : i < xs.length) :
    IsRanked xs (i + 1) xs[i] := by
  rw [List.sortedLE_iff_getElem_le_getElem_of_le] at hsorted
  refine ⟨List.getElem_mem hi, ?_, ?_⟩
  · have hbelow : (xs.take (i + 1)).countP (· ≤ xs[i]) = (xs.take (i + 1)).length := by
      refine List.countP_eq_length.mpr fun x hx ↦ ?_
      obtain ⟨j, hj, rfl⟩ := List.mem_take_iff_getElem.mp hx
      simpa using hsorted (by omega)
    rw [List.length_take_of_le hi] at hbelow
    exact hbelow.symm.le.trans ((List.take_sublist _ _).countP_le)
  · have habove : (xs.drop i).countP (xs[i] ≤ ·) = (xs.drop i).length := by
      refine List.countP_eq_length.mpr fun x hx ↦ ?_
      obtain ⟨j, hj, rfl⟩ := List.mem_drop_iff_getElem.mp hx
      simpa using hsorted (by omega)
    rw [List.length_drop] at habove
    have hle := (List.drop_sublist i xs).countP_le (p := (xs[i] ≤ ·))
    omega

end Entries

/-! ## Running extrema -/

section Extrema

variable {xs : List α} {a : α}

/-- A running minimum that starts above all entries ends at the least. -/
theorem isLeast_foldl_min (hne : xs ≠ []) (ha : ∀ x ∈ xs, x ≤ a) :
    IsLeast {x | x ∈ xs} (xs.foldl min a) := by
  obtain ⟨m, hm⟩ := Option.isSome_iff_exists.mp (List.isSome_min?_of_ne_nil hne)
  obtain ⟨hmem, hle⟩ := List.min?_eq_some_iff.mp hm
  rw [List.foldl_min, hm, Option.getD_some, min_eq_right (ha m hmem)]
  exact ⟨hmem, hle⟩

/-- A running maximum that starts below all entries ends at the greatest. -/
theorem isGreatest_foldl_max (hne : xs ≠ []) (ha : ∀ x ∈ xs, a ≤ x) :
    IsGreatest {x | x ∈ xs} (xs.foldl max a) := by
  obtain ⟨m, hm⟩ := Option.isSome_iff_exists.mp (List.isSome_max?_of_ne_nil hne)
  obtain ⟨hmem, hle⟩ := List.max?_eq_some_iff.mp hm
  rw [List.foldl_max, hm, Option.getD_some, max_eq_right (ha m hmem)]
  exact ⟨hmem, hle⟩

end Extrema

/-! ## Averages -/

section Average

variable {xs : List ℕ} {a : ℕ}

theorem le_average (hne : xs ≠ []) (h : ∀ x ∈ xs, a ≤ x) : a ≤ xs.sum / xs.length := by
  rw [Nat.le_div_iff_mul_le (List.length_pos_iff.mpr hne), mul_comm]
  exact List.card_nsmul_le_sum xs a h

theorem average_le (h : ∀ x ∈ xs, x ≤ a) : xs.sum / xs.length ≤ a :=
  Nat.div_le_of_le_mul (List.sum_le_card_nsmul xs a h)

end Average
