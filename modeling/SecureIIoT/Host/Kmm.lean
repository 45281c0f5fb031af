import SecureIIoT.Lib.Run
import SecureIIoT.Lib.Table

/-!
# The KMM control plane

`host/kmm_mock.c`: the fog nodes, the slot map from sensors to fogs and the record of
the delegations, each an array with a counter.  The operations that change them, and
the lookup, are the operations of a machine that starts from `kmmInit`.  What else the
file exports (the quote check, the delegation request, the provisioning and revocation
of delegated keys, the window combine) prints a line and leaves the state alone.

`kmmStep_effect` is the inversion of one step: everything else about runs is a case
analysis on `KmmEffect`.
-/

namespace SecureIIoT

namespace Host

/-! ## State -/

/-- `kmm_fog_node_t` -/
structure KmmFogNode where
  fogId : UInt32
  name : Option String
  registered : UInt32
  workloadPercent : UInt32
deriving DecidableEq

/-- `kmm_slot_entry_t` -/
structure KmmSlotEntry where
  sensorId : UInt32
  assignedFogId : UInt32
deriving DecidableEq

/-- What a delegation is requested and revoked by: the arguments of
`kmm_authorize_delegation` and of `kmm_revoke_delegation`. -/
structure KmmTuple where
  sensorId : UInt32
  sourceFogId : UInt32
  targetFogId : UInt32
  windowId : UInt32
deriving DecidableEq

/-- `kmm_delegation_t` -/
structure KmmDelegation extends KmmTuple where
  active : UInt32
deriving DecidableEq

/-- `kmm_mock_t`.  The counters never pass the sizes of the arrays, so that they are
natural numbers. -/
structure KmmMock where
  fogNodes : Table KmmFogNode 8
  slotMap : Table KmmSlotEntry 32
  delegations : Table KmmDelegation 32
deriving DecidableEq

/-! ## Operations -/

/-- `find_slot`, as an index into the slot map. -/
def findSlot (kmm : KmmMock) (sensorId : UInt32) : Option ℕ :=
  kmm.slotMap.findIdx? fun slot ↦ slot.sensorId = sensorId

/-- `set_slot` -/
def setSlot (kmm : KmmMock) (sensorId fogId : UInt32) : ℤ × KmmMock :=
  match findSlot kmm sensorId with
  | some i =>
    (0, { kmm with
      slotMap := kmm.slotMap.modify i fun slot ↦ { slot with assignedFogId := fogId } })
  | none =>
    if 32 ≤ kmm.slotMap.count then (-1, kmm)
    else (0, { kmm with slotMap := kmm.slotMap.push ⟨sensorId, fogId⟩ })

/-- `kmm_init` -/
def kmmInit : KmmMock :=
  ⟨.empty ⟨0, none, 0, 0⟩, .empty ⟨0, 0⟩, .empty ⟨⟨0, 0, 0, 0⟩, 0⟩⟩

/-- `kmm_register_fog` -/
def kmmRegisterFog (kmm : KmmMock) (fogId : UInt32) (name : Option String)
    (workloadPercent : UInt32) : ℤ × KmmMock :=
  if 8 ≤ kmm.fogNodes.count then (-1, kmm)
  else (0, { kmm with fogNodes := kmm.fogNodes.push ⟨fogId, name, 1, workloadPercent⟩ })

/-- `kmm_assign_sensor` -/
def kmmAssignSensor (kmm : KmmMock) (sensorId fogId : UInt32) : ℤ × KmmMock :=
  let r := setSlot kmm sensorId fogId
  if r.1 ≠ 0 then (-1, r.2) else (0, r.2)

/-- `kmm_get_assigned_fog` -/
def kmmGetAssignedFog (kmm : KmmMock) (sensorId : UInt32) : UInt32 :=
  match (findSlot kmm sensorId).bind kmm.slotMap.get? with
  | none => 0
  | some slot => slot.assignedFogId

/-- The first part of `kmm_authorize_delegation`: the record is written before the slot
is set. -/
def KmmMock.appendDelegation (kmm : KmmMock) (t : KmmTuple) : KmmMock :=
  { kmm with delegations := kmm.delegations.push ⟨t, 1⟩ }

/-- `kmm_authorize_delegation` -/
def kmmAuthorizeDelegation (kmm : KmmMock) (t : KmmTuple) : ℤ × KmmMock :=
  if 32 ≤ kmm.delegations.count then (-1, kmm)
  else
    let r := setSlot (kmm.appendDelegation t) t.sensorId t.targetFogId
    if r.1 ≠ 0 then (-1, r.2) else (0, r.2)

/-- A record of a tuple that is still active. -/
def KmmDelegation.ActiveFor (t : KmmTuple) (d : KmmDelegation) : Prop :=
  d.toKmmTuple = t ∧ d.active ≠ 0

instance (t : KmmTuple) : DecidablePred (KmmDelegation.ActiveFor t) :=
  fun d ↦ inferInstanceAs (Decidable (d.toKmmTuple = t ∧ d.active ≠ 0))

/-- `kmm_revoke_delegation`: the loop stops at the first active record. -/
def kmmRevokeDelegation (kmm : KmmMock) (t : KmmTuple) : ℤ × KmmMock :=
  match kmm.delegations.findIdx? fun d ↦ d.ActiveFor t with
  | some i =>
    (0, { kmm with delegations := kmm.delegations.modify i fun d ↦ { d with active := 0 } })
  | none => (-1, kmm)

/-- The operations with their arguments. -/
inductive KmmOp where
  | registerFog (fogId : UInt32) (name : Option String) (workloadPercent : UInt32)
  | assignSensor (sensorId fogId : UInt32)
  | getAssignedFog (sensorId : UInt32)
  | authorizeDelegation (t : KmmTuple)
  | revokeDelegation (t : KmmTuple)
deriving DecidableEq

/-- One operation: what it returns, and the state it leaves. -/
def kmmStep : Machine KmmMock KmmOp ℤ
  | kmm, .registerFog fogId name workloadPercent => kmmRegisterFog kmm fogId name workloadPercent
  | kmm, .assignSensor sensorId fogId => kmmAssignSensor kmm sensorId fogId
  | kmm, .getAssignedFog sensorId => ((kmmGetAssignedFog kmm sensorId).toNat, kmm)
  | kmm, .authorizeDelegation t => kmmAuthorizeDelegation kmm t
  | kmm, .revokeDelegation t => kmmRevokeDelegation kmm t

/-- The state a run from `kmm_init` ends in. -/
def kmmState (ops : List KmmOp) : KmmMock :=
  Machine.final kmmStep kmmInit ops

/-- The calls of a run from `kmm_init`. -/
def kmmCalls (ops : List KmmOp) : List (Call KmmMock KmmOp ℤ) :=
  Machine.calls kmmStep kmmInit ops

/-- `kmm_combine_fake_aggregates`, the array and its `count` as a list. -/
def kmmCombineFakeAggregates (aggregates : List UInt32) : UInt32 :=
  aggregates.foldl (fun combined aggregate ↦ combined + aggregate) 0

/-- `kmm_window_combine`, which only prints the window. -/
def kmmWindowCombine (_kmm : KmmMock) (_windowId : UInt32) (aggregates : List UInt32) : UInt32 :=
  kmmCombineFakeAggregates aggregates

/-! ## Views -/

namespace KmmMock

/-- The registered fog ids. -/
def fogIds (kmm : KmmMock) : List UInt32 :=
  kmm.fogNodes.keys (·.fogId)

/-- The sensors with a slot entry. -/
def sensors (kmm : KmmMock) : List UInt32 :=
  kmm.slotMap.keys (·.sensorId)

/-- The slot map as a finite map. -/
def slot (kmm : KmmMock) (sensorId : UInt32) : Option UInt32 :=
  (kmm.slotMap.lookup (·.sensorId) sensorId).map (·.assignedFogId)

variable {kmm : KmmMock}

theorem kmmGetAssignedFog_eq (s : UInt32) : kmmGetAssignedFog kmm s = (kmm.slot s).getD 0 := by
  rw [kmmGetAssignedFog, findSlot, Table.findIdx?_bind_get?, slot, Table.lookup]
  cases kmm.slotMap.records.find? fun slot ↦ slot.sensorId = s with
  | none => rfl
  | some slot => rfl

/-- An update of the entries is one of the slots. -/
theorem slot_eq_update {slotMap : Table KmmSlotEntry 32} {s : UInt32} {entry : Option KmmSlotEntry}
    (h : slotMap.lookup (·.sensorId) =
      Function.update (kmm.slotMap.lookup (·.sensorId)) s entry) :
    slot { kmm with slotMap := slotMap } =
      Function.update kmm.slot s (entry.map (·.assignedFogId)) := by
  have hcomp (kmm : KmmMock) :
      kmm.slot = Option.map (·.assignedFogId) ∘ kmm.slotMap.lookup (·.sensorId) := rfl
  rw [hcomp, hcomp, h, Function.comp_update]

/-- `kmm'` is `kmm` with the slot of a sensor set. -/
structure SetsSlot (kmm : KmmMock) (s f : UInt32) (kmm' : KmmMock) : Prop where
  fogNodes : kmm'.fogNodes = kmm.fogNodes
  delegations : kmm'.delegations = kmm.delegations
  slot : kmm'.slot = Function.update kmm.slot s (some f)
  sensors : kmm'.sensors = if s ∈ kmm.sensors then kmm.sensors else kmm.sensors ++ [s]
  count : kmm'.slotMap.count = if s ∈ kmm.sensors then kmm.slotMap.count else kmm.slotMap.count + 1
  room : s ∈ kmm.sensors ∨ kmm.slotMap.count < 32

theorem setSlot_of_room {s : UInt32} (f : UInt32)
    (hroom : s ∈ kmm.sensors ∨ kmm.slotMap.count < 32) :
    ∃ kmm', setSlot kmm s f = (0, kmm') ∧ kmm.SetsSlot s f kmm' := by
  rw [setSlot]
  cases hfind : findSlot kmm s with
  | some i =>
    have hmem : s ∈ kmm.sensors := by
      by_contra hmem
      rw [findSlot, Table.findIdx?_key_eq_none_iff.mpr hmem] at hfind
      cases hfind
    refine ⟨_, rfl, rfl, rfl, ?_, ?_, ?_, hroom⟩
    · obtain ⟨_, _, _, _, _, _, hlookup, _⟩ := Table.exists_of_findIdx?_key hfind
      have hset (slot : KmmSlotEntry) : { slot with assignedFogId := f }.sensorId = slot.sensorId :=
        rfl
      have hslot := slot_eq_update (Table.lookup_modify hfind hset)
      rwa [hlookup] at hslot
    · rw [if_pos hmem]
      exact Table.keys_modify hfind fun _ ↦ rfl
    · rw [if_pos hmem]
      rfl
  | none =>
    have hmem : s ∉ kmm.sensors := Table.findIdx?_key_eq_none_iff.mp hfind
    have hlt : kmm.slotMap.count < 32 := hroom.resolve_left hmem
    refine ⟨_, if_neg (not_le.mpr hlt), rfl, rfl, ?_, ?_, ?_, hroom⟩
    · exact slot_eq_update (Table.lookup_push hlt hmem)
    · rw [if_neg hmem]
      exact Table.keys_push hlt _
    · rw [if_neg hmem]
      rfl

theorem setSlot_of_full {s : UInt32} (f : UInt32) (hs : s ∉ kmm.sensors)
    (hfull : 32 ≤ kmm.slotMap.count) : setSlot kmm s f = (-1, kmm) := by
  rw [setSlot, findSlot, Table.findIdx?_key_eq_none_iff.mpr hs]
  exact if_pos hfull

end KmmMock

/-! ## What a step does -/

open KmmMock

/-- The outcomes of an operation. -/
inductive KmmEffect (kmm : KmmMock) : KmmOp → ℤ → KmmMock → Prop
  | fogsFull {fogId name workloadPercent} (hfull : 8 ≤ kmm.fogNodes.count) :
      KmmEffect kmm (.registerFog fogId name workloadPercent) (-1) kmm
  | registered {fogId name workloadPercent kmm'} (hroom : kmm.fogNodes.count < 8)
      (hkmm' : kmm' = { kmm with
        fogNodes := kmm.fogNodes.push ⟨fogId, name, 1, workloadPercent⟩ }) :
      KmmEffect kmm (.registerFog fogId name workloadPercent) 0 kmm'
  | slotsFull {s f} (hs : s ∉ kmm.sensors) (hfull : 32 ≤ kmm.slotMap.count) :
      KmmEffect kmm (.assignSensor s f) (-1) kmm
  | assigned {s f kmm'} (hset : kmm.SetsSlot s f kmm') :
      KmmEffect kmm (.assignSensor s f) 0 kmm'
  | looked {s} : KmmEffect kmm (.getAssignedFog s) (kmmGetAssignedFog kmm s).toNat kmm
  | delegationsFull {t} (hfull : 32 ≤ kmm.delegations.count) :
      KmmEffect kmm (.authorizeDelegation t) (-1) kmm
  | halfGranted {t} (hroom : kmm.delegations.count < 32) (hs : t.sensorId ∉ kmm.sensors)
      (hfull : 32 ≤ kmm.slotMap.count) :
      KmmEffect kmm (.authorizeDelegation t) (-1) (kmm.appendDelegation t)
  | granted {t kmm'} (hroom : kmm.delegations.count < 32)
      (hset : (kmm.appendDelegation t).SetsSlot t.sensorId t.targetFogId kmm') :
      KmmEffect kmm (.authorizeDelegation t) 0 kmm'
  | noneActive {t} (h : ∀ d ∈ kmm.delegations.records, ¬ d.ActiveFor t) :
      KmmEffect kmm (.revokeDelegation t) (-1) kmm
  | revoked {t l₁ d l₂ delegations} (hsplit : kmm.delegations.records = l₁ ++ d :: l₂)
      (hfirst : ∀ b ∈ l₁, ¬ b.ActiveFor t) (hd : d.ActiveFor t)
      (hcount : delegations.count = kmm.delegations.count)
      (hrecords : delegations.records = l₁ ++ { d with active := 0 } :: l₂) :
      KmmEffect kmm (.revokeDelegation t) 0 { kmm with delegations := delegations }

theorem kmmRegisterFog_effect (kmm : KmmMock) (fogId : UInt32) (name : Option String)
    (workloadPercent : UInt32) :
    KmmEffect kmm (.registerFog fogId name workloadPercent)
      (kmmRegisterFog kmm fogId name workloadPercent).1
      (kmmRegisterFog kmm fogId name workloadPercent).2 := by
  rw [kmmRegisterFog]
  by_cases hfull : 8 ≤ kmm.fogNodes.count
  · rw [if_pos hfull]
    exact .fogsFull hfull
  · rw [if_neg hfull]
    exact .registered (not_le.mp hfull) rfl

theorem kmmAssignSensor_effect (kmm : KmmMock) (s f : UInt32) :
    KmmEffect kmm (.assignSensor s f) (kmmAssignSensor kmm s f).1 (kmmAssignSensor kmm s f).2 := by
  by_cases hroom : s ∈ kmm.sensors ∨ kmm.slotMap.count < 32
  · obtain ⟨kmm', hset, hsets⟩ := setSlot_of_room f hroom
    rw [kmmAssignSensor, hset]
    exact .assigned hsets
  · rw [not_or, not_lt] at hroom
    rw [kmmAssignSensor, setSlot_of_full f hroom.1 hroom.2]
    exact .slotsFull hroom.1 hroom.2

theorem kmmAuthorizeDelegation_effect (kmm : KmmMock) (t : KmmTuple) :
    KmmEffect kmm (.authorizeDelegation t) (kmmAuthorizeDelegation kmm t).1
      (kmmAuthorizeDelegation kmm t).2 := by
  rw [kmmAuthorizeDelegation]
  by_cases hfull : 32 ≤ kmm.delegations.count
  · rw [if_pos hfull]
    exact .delegationsFull hfull
  · rw [if_neg hfull]
    have hcount := not_le.mp hfull
    by_cases hroom : t.sensorId ∈ (kmm.appendDelegation t).sensors ∨
        (kmm.appendDelegation t).slotMap.count < 32
    · obtain ⟨kmm', hset, hsets⟩ := setSlot_of_room t.targetFogId hroom
      rw [hset]
      exact .granted hcount hsets
    · rw [not_or, not_lt] at hroom
      rw [setSlot_of_full t.targetFogId hroom.1 hroom.2]
      exact .halfGranted hcount hroom.1 hroom.2

theorem kmmRevokeDelegation_effect (kmm : KmmMock) (t : KmmTuple) :
    KmmEffect kmm (.revokeDelegation t) (kmmRevokeDelegation kmm t).1
      (kmmRevokeDelegation kmm t).2 := by
  rw [kmmRevokeDelegation]
  cases hfind : kmm.delegations.findIdx? fun d ↦ d.ActiveFor t with
  | none =>
    have hnone := Table.findIdx?_eq_none_iff.mp hfind
    exact .noneActive fun d hd ↦ of_decide_eq_false (hnone d hd)
  | some i =>
    obtain ⟨l₁, d, l₂, hsplit, hfirst, hd, hrecords⟩ := Table.exists_of_findIdx? hfind
    exact .revoked hsplit (fun b hb ↦ of_decide_eq_false (hfirst b hb)) (of_decide_eq_true hd) rfl
      (hrecords _)

/-- Every operation has one of the effects. -/
theorem kmmStep_effect (kmm : KmmMock) (op : KmmOp) :
    KmmEffect kmm op (kmmStep kmm op).1 (kmmStep kmm op).2 := by
  cases op with
  | registerFog fogId name workloadPercent =>
    exact kmmRegisterFog_effect kmm fogId name workloadPercent
  | assignSensor s f => exact kmmAssignSensor_effect kmm s f
  | getAssignedFog s => exact .looked
  | authorizeDelegation t => exact kmmAuthorizeDelegation_effect kmm t
  | revokeDelegation t => exact kmmRevokeDelegation_effect kmm t

end Host

end SecureIIoT
