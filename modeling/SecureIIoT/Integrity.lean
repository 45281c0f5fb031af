import SecureIIoT.Delegation

/-!
# Integrity of the KMM's tables

The KMM checks no identifier: it refuses a request when an array is full, and a
revocation when there is nothing to revoke, and grants everything else
(`authorized_iff`, first part).  That the tables refer to registered fogs and that
delegations come from the fog the sensor is at is therefore up to the caller, and holds
throughout exactly the runs whose accepted requests have these properties (second part).
-/

namespace SecureIIoT

open Host

/-- Fog ids are distinct, and slots and active delegations refer to registered fogs. -/
structure Integrity (kmm : KmmMock) : Prop where
  distinct : kmm.fogIds.Nodup
  slots : ∀ slot ∈ kmm.slotMap.records, slot.assignedFogId ∈ kmm.fogIds
  active : ∀ d ∈ kmm.delegations.records, d.active ≠ 0 →
    d.sourceFogId ∈ kmm.fogIds ∧ d.targetFogId ∈ kmm.fogIds

/-- The record that an operation creates is of a delegation by the fog the sensor is at. -/
def CreatedByOwner (kmm : KmmMock) (op : KmmOp) : Prop :=
  ∀ t, Appends kmm t op → kmmGetAssignedFog kmm t.sensorId = t.sourceFogId

/-- A run has left the tables intact, and only owners have delegated. -/
def Authorized (ops : List KmmOp) : Prop :=
  Integrity (kmmState ops) ∧ ∀ call ∈ kmmCalls ops, CreatedByOwner call.before call.op

/-- Why an operation is refused: an array is full, or there is nothing to revoke. -/
def Refused (kmm : KmmMock) : KmmOp → Prop
  | .registerFog _ _ _ => 8 ≤ kmm.fogNodes.count
  | .assignSensor s _ => s ∉ kmm.sensors ∧ 32 ≤ kmm.slotMap.count
  | .getAssignedFog _ => False
  | .authorizeDelegation t =>
    32 ≤ kmm.delegations.count ∨ t.sensorId ∉ kmm.sensors ∧ 32 ≤ kmm.slotMap.count
  | .revokeDelegation t => kmm.activeFor t = 0

/-- If there is room for what an operation writes, it refers to registered fogs, it
registers a new one, and it delegates from the fog the sensor is at.  A delegation writes
its record before its slot, and so only room for the record counts. -/
def Consistent (kmm : KmmMock) : KmmOp → Prop
  | .registerFog fogId _ _ => kmm.fogNodes.count < 8 → fogId ∉ kmm.fogIds
  | .assignSensor s f => s ∈ kmm.sensors ∨ kmm.slotMap.count < 32 → f ∈ kmm.fogIds
  | .authorizeDelegation t => kmm.delegations.count < 32 →
    kmmGetAssignedFog kmm t.sensorId = t.sourceFogId ∧ t.sourceFogId ∈ kmm.fogIds ∧
      t.targetFogId ∈ kmm.fogIds
  | _ => True

/-! ## Refusals -/

theorem Host.KmmEffect.refused_iff {kmm kmm' : KmmMock} {op : KmmOp} {ret : ℤ}
    (heffect : KmmEffect kmm op ret kmm') : ret = -1 ↔ Refused kmm op := by
  cases heffect with
  | fogsFull hfull => exact iff_of_true rfl hfull
  | registered hroom _ => exact iff_of_false (by decide) hroom.not_ge
  | slotsFull hs hfull => exact iff_of_true rfl ⟨hs, hfull⟩
  | assigned hset =>
    refine iff_of_false (by decide) ?_
    rintro ⟨hs, hfull⟩
    exact hset.room.elim hs hfull.not_gt
  | looked => exact iff_of_false (by omega) id
  | delegationsFull hfull => exact iff_of_true rfl (.inl hfull)
  | halfGranted _ hs hfull => exact iff_of_true rfl (.inr ⟨hs, hfull⟩)
  | granted hroom hset =>
    refine iff_of_false (by decide) ?_
    rintro (hfull | ⟨hs, hfull⟩)
    · exact hroom.not_ge hfull
    · exact hset.room.elim hs hfull.not_gt
  | noneActive hnone => exact iff_of_true rfl (KmmMock.activeFor_eq_zero_iff.mpr hnone)
  | revoked hsplit _ hd _ _ =>
    exact iff_of_false (by decide) (KmmMock.activeFor_pos hsplit hd).ne'

/-! ## Consistent requests -/

/-- In the states that are reached, the slots can be read off the map. -/
theorem slots_iff {kmm : KmmMock} (h : kmm.sensors.Nodup) {P : UInt32 → Prop} :
    (∀ slot ∈ kmm.slotMap.records, P slot.assignedFogId) ↔ ∀ s f, kmm.slot s = some f → P f := by
  constructor
  · intro hslots s f hs
    obtain ⟨slot, hslot, rfl⟩ := Option.map_eq_some_iff.mp hs
    exact hslots slot ((Table.lookup_eq_some_iff h).mp hslot).1
  · intro hslots slot hslot
    refine hslots slot.sensorId _ ?_
    rw [KmmMock.slot, (Table.lookup_eq_some_iff h).mpr ⟨hslot, rfl⟩]
    rfl

/-- Setting a slot keeps the slots in order exactly if it refers to a registered fog. -/
theorem Host.KmmMock.SetsSlot.slots_iff {kmm kmm' : KmmMock} {s f : UInt32}
    (hset : kmm.SetsSlot s f kmm') (h : KmmWellFormed kmm) {P : UInt32 → Prop}
    (hslots : ∀ slot ∈ kmm.slotMap.records, P slot.assignedFogId) :
    (∀ slot ∈ kmm'.slotMap.records, P slot.assignedFogId) ↔ P f := by
  rw [SecureIIoT.slots_iff (hset.wellFormed h).nodup, hset.slot]
  rw [SecureIIoT.slots_iff h.nodup] at hslots
  constructor
  · intro hupdate
    exact hupdate s f (Function.update_self _ _ _)
  · intro hf s' f' hs'
    by_cases hs : s' = s
    · rw [hs, Function.update_self, Option.some.injEq] at hs'
      exact hs' ▸ hf
    · rw [Function.update_of_ne hs] at hs'
      exact hslots s' f' hs'

theorem createdByOwner_of_ne {kmm : KmmMock} {op : KmmOp} (h : ∀ t, op ≠ .authorizeDelegation t) :
    CreatedByOwner kmm op :=
  fun t happ ↦ absurd happ.1 (h t)

theorem createdByOwner_authorize_iff {kmm : KmmMock} (hroom : kmm.delegations.count < 32)
    (t : KmmTuple) : CreatedByOwner kmm (.authorizeDelegation t) ↔
      kmmGetAssignedFog kmm t.sensorId = t.sourceFogId := by
  constructor
  · intro h
    exact h t ⟨rfl, hroom⟩
  · rintro h _ ⟨heq, -⟩
    cases heq
    exact h

/-- A record for a delegation keeps the tables intact exactly if both fogs are
registered. -/
theorem Integrity.appendDelegation_iff {kmm : KmmMock} (h : Integrity kmm)
    (hroom : kmm.delegations.count < 32) (t : KmmTuple) :
    Integrity (kmm.appendDelegation t) ↔
      t.sourceFogId ∈ kmm.fogIds ∧ t.targetFogId ∈ kmm.fogIds := by
  have hrecords :
      (kmm.appendDelegation t).delegations.records = kmm.delegations.records ++ [⟨t, 1⟩] :=
    Table.records_push hroom _
  constructor
  · intro happ
    exact happ.active ⟨t, 1⟩ (by simp [hrecords]) (by decide : (1 : UInt32) ≠ 0)
  · intro hfogs
    refine ⟨h.distinct, h.slots, ?_⟩
    intro d hd hactive
    rw [hrecords, List.mem_append, List.mem_singleton] at hd
    rcases hd with hd | rfl
    · exact h.active d hd hactive
    · exact hfogs

/-- Setting a slot to a registered fog keeps the tables intact, and to any other it does
not. -/
theorem Integrity.setsSlot_iff {kmm kmm' : KmmMock} {s f : UInt32} (h : Integrity kmm)
    (hwf : KmmWellFormed kmm) (hset : kmm.SetsSlot s f kmm') : Integrity kmm' ↔ f ∈ kmm.fogIds := by
  have hfogs : kmm'.fogIds = kmm.fogIds := by
    rw [KmmMock.fogIds, hset.fogNodes, KmmMock.fogIds]
  rw [← hset.slots_iff hwf h.slots]
  constructor
  · intro h'
    rw [← hfogs]
    exact h'.slots
  · intro hslots
    refine ⟨?_, ?_, ?_⟩
    · rw [hfogs]
      exact h.distinct
    · rw [hfogs]
      exact hslots
    · rw [hfogs, hset.delegations]
      exact h.active

/-- Registering a fog keeps the tables intact exactly if its id is new. -/
theorem Integrity.register_iff {kmm : KmmMock} (h : Integrity kmm) (hroom : kmm.fogNodes.count < 8)
    (fog : KmmFogNode) :
    Integrity { kmm with fogNodes := kmm.fogNodes.push fog } ↔ fog.fogId ∉ kmm.fogIds := by
  have hfogs : KmmMock.fogIds { kmm with fogNodes := kmm.fogNodes.push fog } =
      kmm.fogIds ++ [fog.fogId] := Table.keys_push hroom fog
  constructor
  · intro hreg
    have hdistinct := hreg.distinct
    rw [hfogs, List.nodup_append'] at hdistinct
    exact List.disjoint_singleton.mp hdistinct.2.2
  · intro hnew
    refine ⟨?_, ?_, ?_⟩
    · rw [hfogs, List.nodup_append']
      exact ⟨h.distinct, List.nodup_singleton _, List.disjoint_singleton.mpr hnew⟩
    · rw [hfogs]
      exact fun slot hslot ↦ List.mem_append_left _ (h.slots slot hslot)
    · rw [hfogs]
      intro d hd hactive
      obtain ⟨hsource, htarget⟩ := h.active d hd hactive
      exact ⟨List.mem_append_left _ hsource, List.mem_append_left _ htarget⟩

/-- Clearing a record keeps the tables intact. -/
theorem Integrity.cleared {kmm : KmmMock} (h : Integrity kmm) {delegations : Table KmmDelegation 32}
    {l₁ l₂ : List KmmDelegation} {d : KmmDelegation}
    (hsplit : kmm.delegations.records = l₁ ++ d :: l₂)
    (hrecords : delegations.records = l₁ ++ { d with active := 0 } :: l₂) :
    Integrity { kmm with delegations := delegations } := by
  refine ⟨h.distinct, h.slots, ?_⟩
  intro d' hd' hactive
  have hd' : d' ∈ l₁ ++ { d with active := 0 } :: l₂ := hrecords ▸ hd'
  refine h.active d' ?_ hactive
  rw [hsplit]
  rw [List.mem_append, List.mem_cons] at hd' ⊢
  rcases hd' with hd' | rfl | hd'
  · exact .inl hd'
  · exact absurd rfl hactive
  · exact .inr (.inr hd')

/-- A step from intact tables keeps them intact, and creates no record but an owner's,
exactly if the operation is consistent. -/
theorem Host.KmmEffect.integrity_iff {kmm kmm' : KmmMock} {op : KmmOp} {ret : ℤ}
    (heffect : KmmEffect kmm op ret kmm') (hwf : KmmWellFormed kmm) (h : Integrity kmm) :
    Integrity kmm' ∧ CreatedByOwner kmm op ↔ Consistent kmm op := by
  cases heffect with
  | fogsFull hfull =>
    exact iff_of_true ⟨h, createdByOwner_of_ne fun _ ↦ KmmOp.noConfusion⟩
      fun hroom ↦ absurd hroom hfull.not_gt
  | registered hroom hkmm' =>
    subst hkmm'
    have hreg := h.register_iff hroom
    constructor
    · rintro ⟨hkmm', -⟩ _
      exact (hreg _).mp hkmm'
    · intro hnew
      exact ⟨(hreg _).mpr (hnew hroom), createdByOwner_of_ne fun _ ↦ KmmOp.noConfusion⟩
  | slotsFull hs hfull =>
    exact iff_of_true ⟨h, createdByOwner_of_ne fun _ ↦ KmmOp.noConfusion⟩
      fun hroom ↦ (hroom.elim hs hfull.not_gt).elim
  | assigned hset =>
    have hslot := h.setsSlot_iff hwf hset
    constructor
    · rintro ⟨hkmm', -⟩ _
      exact hslot.mp hkmm'
    · intro hfog
      exact ⟨hslot.mpr (hfog hset.room), createdByOwner_of_ne fun _ ↦ KmmOp.noConfusion⟩
  | looked => exact iff_of_true ⟨h, createdByOwner_of_ne fun _ ↦ KmmOp.noConfusion⟩ trivial
  | delegationsFull hfull =>
    exact iff_of_true ⟨h, fun t happ ↦ absurd happ.2 hfull.not_gt⟩
      fun hroom ↦ absurd hroom hfull.not_gt
  | @halfGranted t hroom _ _ =>
    rw [h.appendDelegation_iff hroom, createdByOwner_authorize_iff hroom]
    constructor
    · rintro ⟨hfogs, howner⟩ _
      exact ⟨howner, hfogs⟩
    · intro hcons
      exact ⟨(hcons hroom).2, (hcons hroom).1⟩
  | @granted t _ hroom hset =>
    have happend := h.appendDelegation_iff hroom t
    rw [createdByOwner_authorize_iff hroom]
    constructor
    · rintro ⟨hkmm', howner⟩ _
      refine ⟨howner, ?_⟩
      -- The record is in the table that the slot is set in, with the same fogs.
      have hactive := hkmm'.active ⟨t, 1⟩
      rw [KmmMock.fogIds, hset.fogNodes, hset.delegations, KmmMock.appendDelegation,
        Table.records_push hroom] at hactive
      exact hactive (by simp) (by decide : (1 : UInt32) ≠ 0)
    · intro hcons
      obtain ⟨howner, hfogs⟩ := hcons hroom
      exact ⟨((happend.mpr hfogs).setsSlot_iff (hwf.appendDelegation hroom t) hset).mpr hfogs.2,
        howner⟩
  | noneActive _ => exact iff_of_true ⟨h, createdByOwner_of_ne fun _ ↦ KmmOp.noConfusion⟩ trivial
  | revoked hsplit _ _ _ hrecords =>
    exact iff_of_true
      ⟨h.cleared hsplit hrecords, createdByOwner_of_ne fun _ ↦ KmmOp.noConfusion⟩ trivial

theorem kmmInit_integrity : Integrity kmmInit := by
  refine ⟨?_, ?_, ?_⟩
  · rw [KmmMock.fogIds, Table.keys, kmmInit, Table.records_empty]
    exact List.nodup_nil
  · rw [kmmInit, Table.records_empty]
    exact List.forall_mem_nil _
  · rw [kmmInit, Table.records_empty]
    exact List.forall_mem_nil _

theorem authorized_concat_iff {ops : List KmmOp} (op : KmmOp) (h : Authorized ops) :
    Authorized (ops ++ [op]) ↔ Consistent (kmmState ops) op := by
  rw [← (kmmStep_effect (kmmState ops) op).integrity_iff (kmmState_wellFormed ops) h.1, Authorized,
    kmmState_concat, kmmCalls_concat]
  constructor
  · rintro ⟨hintegrity, howner⟩
    exact ⟨hintegrity, howner _ (List.mem_append_right _ (List.mem_singleton_self _))⟩
  · rintro ⟨hintegrity, howner⟩
    refine ⟨hintegrity, ?_⟩
    intro call hcall
    rw [List.mem_append, List.mem_singleton] at hcall
    rcases hcall with hcall | rfl
    · exact h.2 call hcall
    · exact howner

/-- In a run, requests are refused for want of room, or of a record to revoke, and for
nothing else; and the tables stay intact, with every delegation by the fog its sensor
was at, exactly if each operation is consistent. -/
theorem authorized_iff (ops : List KmmOp) :
    (∀ call ∈ kmmCalls ops, call.ret = -1 ↔ Refused call.before call.op) ∧
    ((∀ pre, pre <+: ops → Authorized pre) ↔
      ∀ call ∈ kmmCalls ops, Consistent call.before call.op) := by
  constructor
  · intro call hcall
    exact (effect_of_mem hcall).refused_iff
  · refine Iff.trans ?_ (Machine.forall_calls_iff kmmStep kmmInit ops Consistent).symm
    refine forall_prefix_iff ⟨kmmInit_integrity, List.forall_mem_nil _⟩ ?_ ops
    intro ops op h
    exact authorized_concat_iff op h

/-- None of these is refused: a second fog of one id, an assignment to a fog that is not
registered, a delegation by a fog that the sensor is not at. -/
theorem not_authorized_demo :
    (¬ Authorized [.registerFog 1 (some "A") 85, .registerFog 1 (some "B") 20]) ∧
    (¬ Authorized [.assignSensor 1 7]) ∧
    (¬ Authorized [.registerFog 1 (some "A") 85, .registerFog 2 (some "B") 20, .assignSensor 1 1,
      .authorizeDelegation ⟨1, 2, 2, 1⟩]) ∧
    (kmmCalls [.registerFog 1 (some "A") 85, .registerFog 1 (some "B") 20, .assignSensor 1 7,
      .authorizeDelegation ⟨1, 2, 2, 1⟩]).map Call.ret = [0, 0, 0, 0] := by
  refine ⟨?_, ?_, ?_, ?_⟩
  · intro h
    exact absurd h.1.distinct (by decide +kernel)
  · intro h
    exact absurd h.1.slots (by decide +kernel)
  · intro h
    have howner := (Machine.forall_calls_iff kmmStep kmmInit _ CreatedByOwner).mp h.2
      [.registerFog 1 (some "A") 85, .registerFog 2 (some "B") 20, .assignSensor 1 1] _
      (List.prefix_refl _) ⟨1, 2, 2, 1⟩ ⟨rfl, by decide⟩
    exact absurd howner (by decide +kernel)
  · decide +kernel

end SecureIIoT
