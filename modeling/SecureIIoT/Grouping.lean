import Mathlib.Algebra.BigOperators.Group.List.Basic
import SecureIIoT.DemoKey
import SecureIIoT.Host.Kmm
import SecureIIoT.Host.Paillier
import SecureIIoT.Modes

/-!
# Aggregation by fog

A fog folds the ciphertexts of its sensors into one and hands it on as 128 bytes, and
those are folded in their turn.  Which sensor is at which fog makes no difference to
the outcome, and neither does the order: the fold over byte strings is a product
modulo `n2` (`aggregateReal_of_length`), that of the mock ciphertexts a sum of words.
-/

namespace SecureIIoT

open ByteString Host

/-! ## Ciphertexts -/

/-- One fog: the aggregate of its ciphertexts, serialised. -/
def fogAggregateReal (key : PaillierKey) (group : List (List UInt8)) : Option (List UInt8) := do
  let aggregate ← aggregateReal key paillierHostInitAggregateReal group
  paillierHostBnToFixedBytes aggregate paillierCiphertextMax

/-- All fogs: the aggregate of their aggregates. -/
def combineFogsReal (key : PaillierKey) (groups : List (List (List UInt8))) : Option ℕ := do
  let aggregates ← groups.mapM (fogAggregateReal key)
  aggregateReal key paillierHostInitAggregateReal aggregates

/-- A loop whose steps all succeed. -/
theorem mapM_eq_some {α β : Type} {f : α → Option β} {g : α → β} {l : List α}
    (h : ∀ a ∈ l, f a = some (g a)) : l.mapM f = some (l.map g) := by
  induction l with
  | nil => rfl
  | cons a l ih =>
      rw [List.forall_mem_cons] at h
      rw [List.mapM_cons, h.1, ih h.2]
      rfl

section Real

variable {key : PaillierKey}

/-- The fold over any strings that are not too long, from the empty aggregate. -/
theorem aggregateReal_init (hn : 1 < key.n2) {ciphertexts : List (List UInt8)}
    (h : ∀ ciphertext ∈ ciphertexts, ciphertext.length ≤ intMax) :
    aggregateReal key paillierHostInitAggregateReal ciphertexts =
      some ((ciphertexts.map ofBE).prod % key.n2) := by
  have hinit : paillierHostInitAggregateReal < key.n2 := hn
  rw [aggregateReal_of_length hinit h, paillierHostInitAggregateReal, one_mul]

/-- A fog never fails to serialise its aggregate. -/
theorem fogAggregateReal_eq (hn : 1 < key.n2) (hlt : key.n2 < 256 ^ paillierCiphertextMax)
    {group : List (List UInt8)} (h : ∀ ciphertext ∈ group, ciphertext.length ≤ intMax) :
    fogAggregateReal key group =
      some (toBE paillierCiphertextMax ((group.map ofBE).prod % key.n2)) := by
  have hfits : (group.map ofBE).prod % key.n2 < 256 ^ paillierCiphertextMax :=
    (Nat.mod_lt _ (Nat.zero_lt_of_lt hn)).trans hlt
  rw [fogAggregateReal, aggregateReal_init hn h]
  exact paillierHostBnToFixedBytes_of_lt (by decide) hfits

/-- The numbers that the fogs hand on multiply to the number of all the ciphertexts. -/
theorem prod_fogs (hn : 1 < key.n2) (hlt : key.n2 < 256 ^ paillierCiphertextMax)
    (groups : List (List (List UInt8))) :
    (groups.map fun group ↦
      ofBE (toBE paillierCiphertextMax ((group.map ofBE).prod % key.n2))).prod % key.n2 =
      (groups.flatten.map ofBE).prod % key.n2 := by
  have hread (v : ℕ) : ofBE (toBE paillierCiphertextMax (v % key.n2)) = v % key.n2 :=
    ofBE_toBE ((Nat.mod_lt _ (Nat.zero_lt_of_lt hn)).trans hlt)
  simp only [hread]
  rw [List.map_flatten, List.prod_flatten, List.map_map, List.prod_nat_mod (groups.map _),
    List.prod_nat_mod (groups.map (List.prod ∘ _)), List.map_map, List.map_map]
  simp only [Function.comp_def, Nat.mod_mod]

theorem length_le_of_group {ciphertexts : List (List UInt8)} {groups : List (List (List UInt8))}
    (hlen : ∀ ciphertext ∈ ciphertexts, ciphertext.length ≤ intMax)
    (hperm : groups.flatten.Perm ciphertexts) :
    ∀ group ∈ groups, ∀ ciphertext ∈ group, ciphertext.length ≤ intMax :=
  fun group hmem _ hc ↦
    hlen _ (hperm.mem_iff.mp (List.mem_flatten.mpr ⟨group, hmem, hc⟩))

/-- So the fogs together compute the fold over the whole list, in any order. -/
theorem combineFogsReal_eq (hn : 1 < key.n2) (hlt : key.n2 < 256 ^ paillierCiphertextMax)
    {ciphertexts : List (List UInt8)} {groups : List (List (List UInt8))}
    (hlen : ∀ ciphertext ∈ ciphertexts, ciphertext.length ≤ intMax)
    (hperm : groups.flatten.Perm ciphertexts) :
    combineFogsReal key groups = aggregateReal key paillierHostInitAggregateReal ciphertexts := by
  have hgroup (group : List (List UInt8)) (hmem : group ∈ groups) : fogAggregateReal key group =
      some (toBE paillierCiphertextMax ((group.map ofBE).prod % key.n2)) :=
    fogAggregateReal_eq hn hlt (length_le_of_group hlen hperm group hmem)
  have hfogs := mapM_eq_some hgroup
  have hwidth : ∀ aggregate ∈ groups.map fun group ↦
      toBE paillierCiphertextMax ((group.map ofBE).prod % key.n2), aggregate.length ≤ intMax := by
    intro aggregate hmem
    obtain ⟨group, -, rfl⟩ := List.mem_map.mp hmem
    rw [length_toBE]
    decide
  have hprod := prod_fogs hn hlt groups
  rw [(hperm.map ofBE).prod_eq] at hprod
  rw [combineFogsReal, hfogs, Option.bind_eq_bind, Option.bind_some, aggregateReal_init hn hwidth,
    aggregateReal_init hn hlen]
  simp only [List.map_map, Function.comp_def, hprod]

end Real

/-! ## Mock ciphertexts -/

/-- One fog of the mock path. -/
def fogAggregateMock (group : List UInt32) : UInt32 :=
  group.foldl paillierHostAddCiphertextMock paillierHostInitAggregateMock

/-- The mock fold is the sum of the words, modulo `2 ^ 32`. -/
theorem toNat_fogAggregateMock (group : List UInt32) :
    (fogAggregateMock group).toNat = (group.map UInt32.toNat).sum % 2 ^ 32 := by
  have hfold := toNat_foldl_add id group 0
  rw [UInt32.toNat_zero, Nat.zero_add] at hfold
  exact hfold

theorem toNat_kmmCombineFakeAggregates (aggregates : List UInt32) :
    (kmmCombineFakeAggregates aggregates).toNat = (aggregates.map UInt32.toNat).sum % 2 ^ 32 :=
  toNat_fogAggregateMock aggregates

/-- So combining what the fogs have folded gives the fold over the whole list. -/
theorem kmmCombineFakeAggregates_fogs {ciphertexts : List UInt32} {groups : List (List UInt32)}
    (hperm : groups.flatten.Perm ciphertexts) :
    kmmCombineFakeAggregates (groups.map fogAggregateMock) = fogAggregateMock ciphertexts := by
  apply UInt32.toNat_inj.mp
  rw [toNat_kmmCombineFakeAggregates, toNat_fogAggregateMock, List.map_map,
    ← (hperm.map UInt32.toNat).sum_eq, List.map_flatten, List.sum_flatten, List.map_map,
    List.sum_nat_mod (groups.map (List.sum ∘ _)), List.map_map]
  simp only [Function.comp_def, toNat_fogAggregateMock]

/-! ## Both -/

/-- For any strings that are not too long, in any order and split between fogs in any way,
combining the fogs' serialised aggregates gives the number that folding the whole list
gives, and neither fails; for mock ciphertexts the three ways to combine give the sum of
all words, modulo `2 ^ 32`. -/
theorem aggregation_of_groups (key : PaillierKey) (hn : 1 < key.n2) (hlt : key.n2 < 2 ^ 1024)
    (ciphertexts : List (List UInt8))
    (hlen : ∀ ciphertext ∈ ciphertexts, ciphertext.length ≤ intMax)
    (groups : List (List (List UInt8))) (hperm : groups.flatten.Perm ciphertexts)
    (mockCiphertexts : List UInt32) (mockGroups : List (List UInt32))
    (hmock : mockGroups.flatten.Perm mockCiphertexts) (kmm : KmmMock) (windowId : UInt32) :
    (∃ c, aggregateReal key paillierHostInitAggregateReal ciphertexts = some c ∧
      combineFogsReal key groups = some c) ∧
    (∀ group ∈ groups, ∃ bytes, fogAggregateReal key group = some bytes) ∧
    (fogAggregateMock mockCiphertexts).toNat = (mockCiphertexts.map UInt32.toNat).sum % 2 ^ 32 ∧
    kmmCombineFakeAggregates (mockGroups.map fogAggregateMock) =
      fogAggregateMock mockCiphertexts ∧
    kmmWindowCombine kmm windowId (mockGroups.map fogAggregateMock) =
      fogAggregateMock mockCiphertexts ∧
    paillierHostCombineAggregatesMock (mockGroups.map fogAggregateMock) =
      fogAggregateMock mockCiphertexts := by
  have hwidth : key.n2 < 256 ^ paillierCiphertextMax := by
    rwa [show (256 : ℕ) = 2 ^ 8 from rfl, ← pow_mul,
      show 8 * paillierCiphertextMax = 1024 from rfl]
  have hcombine := kmmCombineFakeAggregates_fogs hmock
  refine ⟨⟨_, aggregateReal_init hn hlen, ?_⟩, ?_, toNat_fogAggregateMock _, hcombine, hcombine,
    hcombine⟩
  · rw [combineFogsReal_eq hn hwidth hlen hperm, aggregateReal_init hn hlen]
  · intro group hmem
    exact ⟨_, fogAggregateReal_eq hn hwidth (length_le_of_group hlen hperm group hmem)⟩

/-- Strings that are no ciphertexts, words that wrap, and a fog without either. -/
theorem aggregation_of_groups_demo :
    (∃ c, aggregateReal TA.fixedKey paillierHostInitAggregateReal [[7], [255, 255], [1]] = some c ∧
      combineFogsReal TA.fixedKey [[[255, 255]], [], [[1], [7]]] = some c) ∧
    kmmCombineFakeAggregates ([[4294967295], [], [5, 3]].map fogAggregateMock) =
      fogAggregateMock [3, 4294967295, 5] := by
  obtain ⟨hreal, -, -, hmock, -, -⟩ := aggregation_of_groups TA.fixedKey (by decide +kernel)
    (by decide +kernel) [[7], [255, 255], [1]] (by decide) [[[255, 255]], [], [[1], [7]]]
    (by decide) [3, 4294967295, 5] [[4294967295], [], [5, 3]] (by decide) kmmInit 1
  exact ⟨hreal, hmock⟩

end SecureIIoT
