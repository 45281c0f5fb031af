import Mathlib.Data.Int.CardIntervalMod
import Mathlib.Data.Set.Card
import SecureIIoT.Lib.ByteString

/-!
# Numbers from random byte strings

A uniform byte string of length `k` spells a uniform number below `256 ^ k`.  What a
sampler makes of it has a probability of so many byte strings out of `256 ^ k`, so
that the statements here are about numbers of byte strings.

Reducing modulo `n` is not uniform unless `n` divides `256 ^ k`: the residues below
`256 ^ k % n` have one byte string more than the others (`ncard_mod_eq`), and two
residues are drawn equally often exactly if they are on the same side of that bound
(`ncard_mod_eq_iff`).
-/

namespace ByteString

theorem injective_ofBE (k : ℕ) :
    Function.Injective fun bytes : Vector UInt8 k ↦ ofBE bytes.toList := by
  intro a b h
  have hlist : a.toList = b.toList := ofBE_inj (by simp) h
  exact Vector.toList_inj.mp hlist

/-- The byte strings whose number has a property, counted by their numbers. -/
theorem ncard_ofBE (k : ℕ) (P : ℕ → Prop) [DecidablePred P] :
    {bytes : Vector UInt8 k | P (ofBE bytes.toList)}.ncard = (256 ^ k).count P := by
  have himage : (fun bytes : Vector UInt8 k ↦ ofBE bytes.toList) ''
      {bytes | P (ofBE bytes.toList)} = ((Finset.range (256 ^ k)).filter P : Finset ℕ) := by
    ext v
    simp only [Set.mem_image, Set.mem_ofPred_eq, Finset.coe_filter, Finset.mem_range]
    constructor
    · rintro ⟨bytes, hP, rfl⟩
      have hlt := ofBE_lt bytes.toList
      rw [Vector.length_toList] at hlt
      exact ⟨hlt, hP⟩
    · rintro ⟨hlt, hP⟩
      have hv := ofBE_toBE hlt
      refine ⟨ofList (toBE k v) (length_toBE k v), ?_, ?_⟩
      · rwa [toList_ofList, hv]
      · rw [toList_ofList, hv]
  rw [← Set.ncard_image_of_injective _ (injective_ofBE k), himage, Set.ncard_coe_finset,
    Nat.count_eq_card_filter_range]

section Residues

variable {k n r r' : ℕ}

/-- How many byte strings reduce to a residue. -/
theorem ncard_mod_eq (hr : r < n) :
    {bytes : Vector UInt8 k | ofBE bytes.toList % n = r}.ncard =
      256 ^ k / n + if r < 256 ^ k % n then 1 else 0 := by
  have hcount := Nat.count_modEq_card (256 ^ k) (Nat.zero_lt_of_lt hr) r
  simp only [Nat.ModEq, Nat.mod_eq_of_lt hr] at hcount
  rw [← hcount]
  exact ncard_ofBE k fun v ↦ v % n = r

/-- Residues with equally many byte strings. -/
theorem ncard_mod_eq_iff (hr : r < n) (hr' : r' < n) :
    {bytes : Vector UInt8 k | ofBE bytes.toList % n = r}.ncard =
      {bytes : Vector UInt8 k | ofBE bytes.toList % n = r'}.ncard ↔
      (r < 256 ^ k % n ↔ r' < 256 ^ k % n) := by
  rw [ncard_mod_eq hr, ncard_mod_eq hr']
  by_cases h : r < 256 ^ k % n
  · by_cases h' : r' < 256 ^ k % n
    · simp [h, h']
    · simp [h, h']
  · by_cases h' : r' < 256 ^ k % n
    · simp [h, h']
    · simp [h, h']

end Residues

end ByteString
