import Mathlib.Data.Finset.Dedup
import Mathlib.Data.Finset.Card
import SecureIIoT.Host.Kmm

/-!
# The slot map of the KMM

Whatever operations are called with whatever arguments, the three counters stay within
their arrays, no sensor has two slots (`kmmState_wellFormed`), and the slot map is the
finite map that the successful assignments and authorizations of the run have written,
the latest one last (`slot_eq_latest`).  Only the 33rd sensor is refused.
-/

namespace SecureIIoT

open Host

/-! ## What every state keeps -/

/-- The counters are within the arrays, and no sensor has two slots. -/
structure KmmWellFormed (kmm : KmmMock) : Prop where
  fogNodes_le : kmm.fogNodes.count ≤ 8
  slotMap_le : kmm.slotMap.count ≤ 32
  delegations_le : kmm.delegations.count ≤ 32
  nodup : kmm.sensors.Nodup

theorem kmmInit_wellFormed : KmmWellFormed kmmInit := by
  refine ⟨?_, ?_, ?_, ?_⟩
  · exact Nat.zero_le _
  · exact Nat.zero_le _
  · exact Nat.zero_le _
  · rw [KmmMock.sensors, Table.keys, kmmInit, Table.records_empty]
    exact List.nodup_nil

/-- Setting a slot adds at most one sensor, and only one that is not there. -/
theorem Host.KmmMock.SetsSlot.wellFormed {kmm kmm' : KmmMock} {s f : UInt32}
    (hset : kmm.SetsSlot s f kmm') (h : KmmWellFormed kmm) : KmmWellFormed kmm' := by
  refine ⟨?_, ?_, ?_, ?_⟩
  · rw [hset.fogNodes]
    exact h.fogNodes_le
  · rw [hset.count]
    split
    · exact h.slotMap_le
    · exact hset.room.resolve_left ‹_›
  · rw [hset.delegations]
    exact h.delegations_le
  · rw [hset.sensors]
    split
    · exact h.nodup
    · exact List.nodup_append'.mpr ⟨h.nodup, List.nodup_singleton s,
        List.disjoint_singleton.mpr ‹_›⟩

theorem KmmWellFormed.appendDelegation {kmm : KmmMock} (h : KmmWellFormed kmm)
    (hroom : kmm.delegations.count < 32) (t : KmmTuple) :
    KmmWellFormed (kmm.appendDelegation t) :=
  ⟨h.fogNodes_le, h.slotMap_le, hroom, h.nodup⟩

theorem Host.KmmEffect.wellFormed {kmm kmm' : KmmMock} {op : KmmOp} {ret : ℤ}
    (heffect : KmmEffect kmm op ret kmm') (h : KmmWellFormed kmm) : KmmWellFormed kmm' := by
  cases heffect with
  | fogsFull _ => exact h
  | registered hroom hkmm' =>
    subst hkmm'
    exact ⟨hroom, h.slotMap_le, h.delegations_le, h.nodup⟩
  | slotsFull _ _ => exact h
  | assigned hset => exact hset.wellFormed h
  | looked => exact h
  | delegationsFull _ => exact h
  | halfGranted hroom _ _ => exact h.appendDelegation hroom _
  | granted hroom hset => exact hset.wellFormed (h.appendDelegation hroom _)
  | noneActive _ => exact h
  | revoked _ _ _ hcount _ =>
    exact ⟨h.fogNodes_le, h.slotMap_le, hcount.trans_le h.delegations_le, h.nodup⟩

theorem kmmState_concat (ops : List KmmOp) (op : KmmOp) :
    kmmState (ops ++ [op]) = (kmmStep (kmmState ops) op).2 :=
  Machine.final_concat _ _ _ _

theorem kmmCalls_concat (ops : List KmmOp) (op : KmmOp) :
    kmmCalls (ops ++ [op]) = kmmCalls ops ++ [⟨kmmState ops, op,
      (kmmStep (kmmState ops) op).1, (kmmStep (kmmState ops) op).2⟩] :=
  Machine.calls_concat _ _ _ _

theorem kmmState_wellFormed (ops : List KmmOp) : KmmWellFormed (kmmState ops) :=
  Machine.run_induction kmmStep (P := fun _ kmm ↦ KmmWellFormed kmm) kmmInit_wellFormed
    (fun _ op h ↦ (kmmStep_effect _ op).wellFormed h) ops

/-! ## The finite map -/

/-- The fog that a call sets the slot of a sensor to. -/
def slotSetBy (s : UInt32) (call : Call KmmMock KmmOp ℤ) : Option UInt32 :=
  match call.op with
  | .assignSensor s' f => if call.ret = 0 ∧ s' = s then some f else none
  | .authorizeDelegation t =>
    if call.ret = 0 ∧ t.sensorId = s then some t.targetFogId else none
  | _ => none

/-- A step changes the slot of a sensor exactly if it sets it. -/
theorem Host.KmmEffect.slot {kmm kmm' : KmmMock} {op : KmmOp} {ret : ℤ}
    (heffect : KmmEffect kmm op ret kmm') (s : UInt32) :
    kmm'.slot s = (slotSetBy s ⟨kmm, op, ret, kmm'⟩).or (kmm.slot s) := by
  cases heffect with
  | fogsFull _ => rfl
  | registered _ hkmm' =>
    subst hkmm'
    rfl
  | slotsFull _ _ => rfl
  | @assigned s' f _ hset =>
    rw [hset.slot]
    by_cases hs : s' = s
    · simp [slotSetBy, hs]
    · simp [slotSetBy, hs, Function.update_of_ne (Ne.symm hs)]
  | looked => rfl
  | delegationsFull _ => rfl
  | halfGranted _ _ _ => rfl
  | @granted t _ _ hset =>
    rw [hset.slot]
    by_cases hs : t.sensorId = s
    · simp [slotSetBy, hs]
    · rw [Function.update_of_ne (Ne.symm hs)]
      simp [slotSetBy, hs, KmmMock.slot, KmmMock.appendDelegation]
  | noneActive _ => rfl
  | revoked _ _ _ _ _ => rfl

/-- The slot map is the map that the calls of the run have written. -/
theorem slot_eq_latest (ops : List KmmOp) (s : UInt32) :
    (kmmState ops).slot s = latest (slotSetBy s) (kmmCalls ops) := by
  induction ops using List.reverseRecOn with
  | nil => rfl
  | append_singleton ops op ih =>
    rw [kmmState_concat, kmmCalls_concat, latest_concat, ← ih]
    exact (kmmStep_effect _ op).slot s

/-! ## Capacity -/

theorem KmmWellFormed.card_sensors {kmm : KmmMock} (h : KmmWellFormed kmm) :
    kmm.sensors.toFinset.card = kmm.slotMap.count := by
  rw [List.toFinset_card_of_nodup h.nodup, KmmMock.sensors, Table.keys, List.length_map,
    Table.length_records h.slotMap_le]

/-- An assignment fails exactly if the sensor is new and 32 others are mapped. -/
theorem KmmWellFormed.assign_fails_iff {kmm : KmmMock} (h : KmmWellFormed kmm) (s f : UInt32) :
    (kmmAssignSensor kmm s f).1 ≠ 0 ↔ s ∉ kmm.sensors ∧ kmm.sensors.toFinset.card = 32 := by
  rw [h.card_sensors]
  have heffect := kmmAssignSensor_effect kmm s f
  generalize (kmmAssignSensor kmm s f).1 = ret, (kmmAssignSensor kmm s f).2 = kmm' at heffect
  cases heffect with
  | slotsFull hs hfull => simp [hs, h.slotMap_le.antisymm hfull]
  | assigned hset =>
    have hroom := hset.room
    constructor
    · intro hret
      exact absurd rfl hret
    · rintro ⟨hs, hcount⟩
      exact absurd (hroom.resolve_left hs) hcount.not_lt

/-- In every state that a run reaches: the counters are within the arrays, the sensors
with a slot are distinct, a lookup returns what the latest successful assignment or
authorization of the sensor has set, or 0 if there is none, and an assignment fails
exactly if the sensor has no slot and 32 distinct ones have. -/
theorem kmm_slotMap_refines (ops : List KmmOp) :
    (kmmState ops).fogNodes.count ≤ 8 ∧ (kmmState ops).slotMap.count ≤ 32 ∧
    (kmmState ops).delegations.count ≤ 32 ∧
    (((kmmState ops).slotMap.entries.toList.take (kmmState ops).slotMap.count).map
      KmmSlotEntry.sensorId).Nodup ∧
    (∀ s, kmmGetAssignedFog (kmmState ops) s =
      (latest (slotSetBy s) (kmmCalls ops)).getD 0) ∧
    ∀ s f, (kmmAssignSensor (kmmState ops) s f).1 ≠ 0 ↔
      s ∉ (kmmState ops).sensors ∧ (kmmState ops).sensors.toFinset.card = 32 := by
  have h := kmmState_wellFormed ops
  refine ⟨h.fogNodes_le, h.slotMap_le, h.delegations_le, h.nodup, ?_, h.assign_fails_iff⟩
  intro s
  rw [KmmMock.kmmGetAssignedFog_eq, slot_eq_latest]

end SecureIIoT
