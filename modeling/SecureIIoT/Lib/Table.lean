import Mathlib.Data.List.Nodup
import Mathlib.Logic.Function.Basic
import Mathlib.Order.Basic
import Mathlib.Order.Lattice

/-!
# Tables: a fixed array and the number of its entries in use

A table is what a C program keeps as `T entries[N]` next to a counter: new records go
to the first free entry, a record found by a linear search is modified in place, and
nothing is ever taken out.  All that matters of it is the list of its records, those
in the entries below the counter.

The second section is about the tables that are searched by a key.  Appending a record
whose key is absent, and modifying the record of a key, are updates of one finite map
(`lookup_push`, `lookup_modify`), and neither makes a key occur twice.
-/

universe u v

/-- An array of `cap` entries of which the first `count` are in use. -/
structure Table (α : Type u) (cap : ℕ) where
  entries : Vector α cap
  count : ℕ
deriving DecidableEq

namespace Table

variable {α : Type u} {cap : ℕ} {t : Table α cap}

/-- The records: the entries in use, in the order they were appended. -/
def records (t : Table α cap) : List α :=
  t.entries.toList.take t.count

/-- Nothing in use. -/
def empty (a : α) : Table α cap :=
  ⟨.replicate cap a, 0⟩

/-- Write to the entry at the counter and count it; beyond the array nothing is
written. -/
def push (t : Table α cap) (a : α) : Table α cap :=
  ⟨t.entries.setIfInBounds t.count a, t.count + 1⟩

/-- The first record that satisfies a test: its index. -/
def findIdx? (t : Table α cap) (p : α → Bool) : Option ℕ :=
  t.records.findIdx? p

/-- The entry at an index. -/
def get? (t : Table α cap) (i : ℕ) : Option α :=
  t.entries[i]?

/-- Modify the entry at an index in place. -/
def modify (t : Table α cap) (i : ℕ) (f : α → α) : Table α cap :=
  ⟨if h : i < cap then t.entries.set i (f t.entries[i]) else t.entries, t.count⟩

@[simp] theorem records_empty (a : α) : (empty a : Table α cap).records = [] := by
  simp [records, empty]

/-- As long as the counter is within the array it is the number of records. -/
theorem length_records (h : t.count ≤ cap) : t.records.length = t.count := by
  rw [records, List.length_take, Vector.length_toList, min_eq_left h]

theorem records_push (h : t.count < cap) (a : α) : (t.push a).records = t.records ++ [a] := by
  have hlt : t.count < t.entries.toList.length := by simpa using h
  rw [records, push, Vector.toList_setIfInBounds,
    List.take_succ_eq_append_getElem (by simpa using h), List.take_set_of_le (le_refl _),
    List.getElem_set_self]
  rfl

theorem records_modify (i : ℕ) (f : α → α) : (t.modify i f).records = t.records.modify i f := by
  apply List.ext_getElem?
  intro j
  by_cases hi : i < cap
  · by_cases hij : i = j
    · subst hij
      by_cases hcount : i < t.count
      · simp [records, modify, hi, hcount]
      · simp [records, modify, hcount]
    · simp [records, modify, List.getElem?_take, hi, hij]
  · have hlen : t.records.length ≤ i := by
      rw [records, List.length_take, Vector.length_toList]
      exact (min_le_right _ _).trans (not_lt.mp hi)
    rw [List.modify_eq_self hlen, modify, dif_neg hi, records]

theorem findIdx?_eq_none_iff {p : α → Bool} :
    t.findIdx? p = none ↔ ∀ a ∈ t.records, p a = false :=
  List.findIdx?_eq_none_iff

/-- What a search finds is in the entry at the index. -/
theorem findIdx?_bind_get? (p : α → Bool) : (t.findIdx? p).bind t.get? = t.records.find? p := by
  rw [List.find?_eq_bind_findIdx?_getElem?, findIdx?]
  cases h : t.records.findIdx? p with
  | none => rfl
  | some i =>
    obtain ⟨hi, -⟩ := List.findIdx?_eq_some_iff_getElem.mp h
    have hcount : i < t.count := hi.trans_le (List.length_take_le _ _)
    rw [Option.bind_some, Option.bind_some, get?, records, List.getElem?_take_of_lt hcount,
      Vector.getElem?_toList]

/-- A search that succeeds splits the records at the first match, and a modification
there replaces that record. -/
theorem exists_of_findIdx? {p : α → Bool} {i : ℕ} (h : t.findIdx? p = some i) :
    ∃ l₁ a l₂, t.records = l₁ ++ a :: l₂ ∧ (∀ b ∈ l₁, p b = false) ∧ p a = true ∧
      ∀ f, (t.modify i f).records = l₁ ++ f a :: l₂ := by
  obtain ⟨hi, ha, hfirst⟩ := List.findIdx?_eq_some_iff_getElem.mp h
  refine ⟨t.records.take i, t.records[i], t.records.drop (i + 1), ?_, ?_, ha, ?_⟩
  · simp
  · intro b hb
    obtain ⟨j, hj, rfl⟩ := List.getElem_of_mem hb
    have hji : j < i := by
      rw [List.length_take] at hj
      exact lt_of_lt_of_le hj (min_le_left _ _)
    rw [List.getElem_take]
    simpa using hfirst j hji
  · intro f
    rw [records_modify, List.modify_eq_take_cons_drop hi]

/-! ## Keyed tables -/

section Keyed

variable {κ : Type v} (key : α → κ)

/-- The keys of the records. -/
def keys (t : Table α cap) : List κ :=
  t.records.map key

variable {key} in
theorem keys_push (h : t.count < cap) (a : α) : (t.push a).keys key = t.keys key ++ [key a] := by
  rw [keys, records_push h, List.map_append, keys, List.map_singleton]

variable [DecidableEq κ]

/-- The first record with a key. -/
def lookup (t : Table α cap) (k : κ) : Option α :=
  t.records.find? fun a ↦ key a = k

variable {key}

theorem lookup_eq_none_iff {k : κ} : t.lookup key k = none ↔ k ∉ t.keys key := by
  simp [lookup, keys]

theorem mem_of_lookup_eq_some {k : κ} {a : α} (h : t.lookup key k = some a) :
    a ∈ t.records ∧ key a = k := by
  have hkey := List.find?_some (p := fun a ↦ decide (key a = k)) h
  exact ⟨List.mem_of_find?_eq_some h, of_decide_eq_true hkey⟩

/-- If no key occurs twice, the map is the set of the records. -/
theorem lookup_eq_some_iff (h : (t.keys key).Nodup) {k : κ} {a : α} :
    t.lookup key k = some a ↔ a ∈ t.records ∧ key a = k := by
  constructor
  · exact mem_of_lookup_eq_some
  · rintro ⟨ha, rfl⟩
    cases hb : t.lookup key (key a) with
    | none => exact absurd (List.mem_map_of_mem ha) (lookup_eq_none_iff.mp hb)
    | some b =>
      obtain ⟨hmem, hkey⟩ := mem_of_lookup_eq_some hb
      rw [List.inj_on_of_nodup_map h hmem ha hkey]

theorem findIdx?_key_eq_none_iff {k : κ} :
    (t.findIdx? fun a ↦ key a = k) = none ↔ k ∉ t.keys key := by
  rw [findIdx?_eq_none_iff, keys]
  simp

/-- A search by key finds the record that the lookup returns. -/
theorem exists_of_findIdx?_key {k : κ} {i : ℕ} (h : (t.findIdx? fun a ↦ key a = k) = some i) :
    ∃ l₁ a l₂, t.records = l₁ ++ a :: l₂ ∧ (∀ b ∈ l₁, key b ≠ k) ∧ key a = k ∧
      t.lookup key k = some a ∧ ∀ f, (t.modify i f).records = l₁ ++ f a :: l₂ := by
  obtain ⟨l₁, a, l₂, hsplit, hfirst, ha, hmodify⟩ := exists_of_findIdx? h
  have hne : ∀ b ∈ l₁, key b ≠ k := fun b hb ↦ of_decide_eq_false (hfirst b hb)
  refine ⟨l₁, a, l₂, hsplit, hne, of_decide_eq_true ha, ?_, hmodify⟩
  have hnone : l₁.find? (fun b ↦ decide (key b = k)) = none := by
    simpa using hne
  rw [lookup, hsplit, List.find?_append, hnone, Option.none_or]
  exact List.find?_cons_of_pos ha

theorem keys_modify {k : κ} {i : ℕ} {f : α → α} (hi : (t.findIdx? fun a ↦ key a = k) = some i)
    (hf : ∀ a, key (f a) = key a) : (t.modify i f).keys key = t.keys key := by
  obtain ⟨l₁, a, l₂, hsplit, -, -, -, hmodify⟩ := exists_of_findIdx?_key hi
  simp [keys, hsplit, hmodify, hf]

/-- Appending under an absent key adds it to the map. -/
theorem lookup_push {a : α} (h : t.count < cap) (hnew : key a ∉ t.keys key) :
    (t.push a).lookup key = Function.update (t.lookup key) (key a) (some a) := by
  funext k
  rw [lookup, records_push h, List.find?_append]
  by_cases hk : k = key a
  · subst hk
    have hnone : t.records.find? (fun b ↦ decide (key b = key a)) = none :=
      lookup_eq_none_iff.mpr hnew
    rw [Function.update_self, hnone]
    simp
  · rw [Function.update_of_ne hk, lookup]
    simp [Ne.symm hk]

/-- Modifying the record of a key changes the map there only. -/
theorem lookup_modify {k : κ} {i : ℕ} {f : α → α} (hi : (t.findIdx? fun a ↦ key a = k) = some i)
    (hf : ∀ a, key (f a) = key a) :
    (t.modify i f).lookup key = Function.update (t.lookup key) k ((t.lookup key k).map f) := by
  obtain ⟨l₁, a, l₂, hsplit, hne, ha, hlookup, hmodify⟩ := exists_of_findIdx?_key hi
  funext k'
  rw [lookup, hmodify, List.find?_append]
  by_cases hk : k' = k
  · subst hk
    have hnone : l₁.find? (fun b ↦ decide (key b = k')) = none := by
      simpa using hne
    rw [Function.update_self, hlookup, hnone]
    simp [hf, ha]
  · rw [Function.update_of_ne hk, lookup, hsplit, List.find?_append,
      List.find?_cons_of_neg (by simpa [hf, ha] using Ne.symm hk),
      List.find?_cons_of_neg (by simpa [ha] using Ne.symm hk)]

end Keyed

end Table
