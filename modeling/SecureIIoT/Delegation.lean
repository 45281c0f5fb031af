import SecureIIoT.SlotMap

/-!
# Delegation and revocation

What a run of the KMM does to the delegation records, and where it falls short of a
delegation that is granted as a whole, ends with its revocation, gives the sensor back
and frees its entry:

* an authorization that finds no slot for its sensor fails with its record written
  (`failed_calls_unchanged_iff`);
* a revocation clears one record, so that a tuple that was authorized twice stays
  active (`revocationComplete_iff`);
* the slot is not given back with it (`served_iff`);
* a revoked record keeps its entry, and the table is full after 32 authorizations
  (`authorize_succeeds_iff`).

Each of these happens under the stated condition and under no other.
-/

namespace SecureIIoT

open Host

/-! ## Accounts of the records -/

namespace Host.KmmMock

/-- The number of active records of a tuple. -/
def activeFor (kmm : KmmMock) (t : KmmTuple) : ℕ :=
  kmm.delegations.records.countP fun d ↦ d.ActiveFor t

/-- The number of active records. -/
def activeCount (kmm : KmmMock) : ℕ :=
  kmm.delegations.records.countP fun d ↦ d.active ≠ 0

/-- The number of active records that delegate a sensor to a fog. -/
def activeTo (kmm : KmmMock) (s f : UInt32) : ℕ :=
  kmm.delegations.records.countP fun d ↦ d.sensorId = s ∧ d.targetFogId = f ∧ d.active ≠ 0

theorem activeFor_eq_zero_iff {kmm : KmmMock} {t : KmmTuple} :
    kmm.activeFor t = 0 ↔ ∀ d ∈ kmm.delegations.records, ¬ d.ActiveFor t := by
  simp [activeFor, List.countP_eq_zero]

/-- A record that a revocation finds is counted. -/
theorem activeFor_pos {kmm : KmmMock} {t : KmmTuple} {l₁ l₂ : List KmmDelegation}
    {d : KmmDelegation} (hsplit : kmm.delegations.records = l₁ ++ d :: l₂) (hd : d.ActiveFor t) :
    0 < kmm.activeFor t := by
  rw [Nat.pos_iff_ne_zero, ne_eq, activeFor_eq_zero_iff]
  exact fun hnone ↦ hnone d (by simp [hsplit]) hd

theorem activeTo_pos_iff {kmm : KmmMock} {s f : UInt32} :
    0 < kmm.activeTo s f ↔
      ∃ d ∈ kmm.delegations.records, d.sensorId = s ∧ d.targetFogId = f ∧ d.active ≠ 0 := by
  simp [activeTo, List.countP_pos_iff]

theorem countP_appendDelegation {kmm : KmmMock} (hroom : kmm.delegations.count < 32) (t : KmmTuple)
    (p : KmmDelegation → Bool) :
    (kmm.appendDelegation t).delegations.records.countP p =
      kmm.delegations.records.countP p + if p ⟨t, 1⟩ then 1 else 0 := by
  rw [appendDelegation, Table.records_push hroom, List.countP_append, List.countP_singleton]

end Host.KmmMock

/-- Replacing one record by one that is not counted. -/
theorem countP_replace (l₁ l₂ : List KmmDelegation) (d d' : KmmDelegation)
    (p : KmmDelegation → Bool) (hd' : p d' = false) :
    (l₁ ++ d' :: l₂).countP p + (if p d then 1 else 0) = (l₁ ++ d :: l₂).countP p := by
  simp only [List.countP_append, List.countP_cons, hd', Bool.false_eq_true, if_false]
  omega

theorem effect_of_mem {ops : List KmmOp} {call : Call KmmMock KmmOp ℤ} (h : call ∈ kmmCalls ops) :
    KmmEffect call.before call.op call.ret call.after := by
  obtain ⟨pre, op, -, rfl⟩ := (Machine.mem_calls_iff _).mp h
  exact kmmStep_effect _ _

/-! ## Failed calls -/

/-- The failure point of `kmm_authorize_delegation`: room for the record, none for the
slot. -/
def HalfGrants (kmm : KmmMock) : KmmOp → Prop
  | .authorizeDelegation t =>
    kmm.delegations.count < 32 ∧ t.sensorId ∉ kmm.sensors ∧ 32 ≤ kmm.slotMap.count
  | _ => False

theorem Host.KmmEffect.failed_unchanged_iff {kmm kmm' : KmmMock} {op : KmmOp} {ret : ℤ}
    (heffect : KmmEffect kmm op ret kmm') : (ret = -1 → kmm' = kmm) ↔ ¬ HalfGrants kmm op := by
  cases heffect with
  | fogsFull _ => simp [HalfGrants]
  | registered _ _ => simp [HalfGrants]
  | slotsFull _ _ => simp [HalfGrants]
  | assigned _ => simp [HalfGrants]
  | looked => simp [HalfGrants]
  | delegationsFull hfull => simp [HalfGrants, hfull.not_gt]
  | @halfGranted t hroom hs hfull =>
    -- The counter of the delegations has moved.
    have hne : kmm.appendDelegation t ≠ kmm := by
      intro heq
      have hcount := congrArg (·.delegations.count) heq
      exact absurd hcount (Nat.succ_ne_self _)
    simp [HalfGrants, hroom, hs, hfull, hne]
  | @granted t _ hroom hset =>
    constructor
    · rintro - ⟨-, hs, hfull⟩
      exact hset.room.elim hs hfull.not_gt
    · intro _ hret
      exact absurd hret (by decide)
  | noneActive _ => simp [HalfGrants]
  | revoked _ _ _ _ _ => simp [HalfGrants]

/-- In a run, all the calls that return -1 leave the state as it was exactly if no
authorization is called with room for the record and none for the sensor's slot. -/
theorem failed_calls_unchanged_iff (ops : List KmmOp) :
    (∀ call ∈ kmmCalls ops, call.ret = -1 → call.after = call.before) ↔
      ∀ call ∈ kmmCalls ops, ¬ HalfGrants call.before call.op :=
  forall₂_congr fun _ h ↦ (effect_of_mem h).failed_unchanged_iff

/-- Assign the sensors `0`, …, `31` to fog 1. -/
def assign32 : List KmmOp :=
  (List.range 32).map fun i ↦ .assignSensor (UInt32.ofNat i) 1

/-- The authorization for the 33rd sensor returns -1 and leaves an active record. -/
theorem failed_authorize_demo :
    (kmmStep (kmmState assign32) (.authorizeDelegation ⟨32, 1, 2, 1⟩)).1 = -1 ∧
    (kmmStep (kmmState assign32) (.authorizeDelegation ⟨32, 1, 2, 1⟩)).2 ≠ kmmState assign32 ∧
    (kmmStep (kmmState assign32) (.authorizeDelegation ⟨32, 1, 2, 1⟩)).2.activeFor ⟨32, 1, 2, 1⟩ =
      1 := by
  decide +kernel

/-! ## Complete revocation -/

/-- An authorization that finds room for its record writes it. -/
def Appends (kmm : KmmMock) (t : KmmTuple) (op : KmmOp) : Prop :=
  op = .authorizeDelegation t ∧ kmm.delegations.count < 32

instance (kmm : KmmMock) (t : KmmTuple) (op : KmmOp) : Decidable (Appends kmm t op) :=
  inferInstanceAs (Decidable (_ ∧ _))

/-- The account of the active records of a tuple. -/
theorem Host.KmmEffect.activeFor {kmm kmm' : KmmMock} {op : KmmOp} {ret : ℤ}
    (heffect : KmmEffect kmm op ret kmm') (t : KmmTuple) :
    kmm'.activeFor t + (if op = .revokeDelegation t ∧ ret = 0 then 1 else 0) =
      kmm.activeFor t + if Appends kmm t op then 1 else 0 := by
  cases heffect with
  | fogsFull _ => simp [Appends]
  | registered _ hkmm' =>
    subst hkmm'
    simp [Appends, KmmMock.activeFor]
  | slotsFull _ _ => simp [Appends]
  | assigned hset => simp [Appends, KmmMock.activeFor, hset.delegations]
  | looked => simp [Appends]
  | delegationsFull hfull => simp [Appends, hfull.not_gt]
  | halfGranted hroom _ _ =>
    rw [KmmMock.activeFor, KmmMock.countP_appendDelegation hroom]
    simp [Appends, hroom, KmmMock.activeFor, KmmDelegation.ActiveFor]
  | granted hroom hset =>
    rw [KmmMock.activeFor, hset.delegations, KmmMock.countP_appendDelegation hroom]
    simp [Appends, hroom, KmmMock.activeFor, KmmDelegation.ActiveFor]
  | noneActive _ => simp [Appends]
  | @revoked t' l₁ d l₂ _ hsplit _ hd _ hrecords =>
    have hd' : decide (KmmDelegation.ActiveFor t { d with active := 0 }) = false := by
      simp [KmmDelegation.ActiveFor]
    have hcount := countP_replace l₁ l₂ d _ (fun d ↦ decide (d.ActiveFor t)) hd'
    rw [KmmMock.activeFor, KmmMock.activeFor, hrecords, hsplit, ← hcount]
    simp [Appends, KmmDelegation.ActiveFor, hd.2, hd.1, eq_comm]

/-- A revocation succeeds exactly if a record of the tuple is active. -/
theorem revoke_succeeds_iff (kmm : KmmMock) (t : KmmTuple) :
    (kmmRevokeDelegation kmm t).1 = 0 ↔ 0 < kmm.activeFor t := by
  have heffect := kmmRevokeDelegation_effect kmm t
  generalize (kmmRevokeDelegation kmm t).1 = ret, (kmmRevokeDelegation kmm t).2 = kmm' at heffect
  cases heffect with
  | noneActive h => simp [KmmMock.activeFor_eq_zero_iff.mpr h]
  | revoked hsplit _ hd _ _ => simp [KmmMock.activeFor_pos hsplit hd]

/-- Along a run: after a revocation that returns 0 no record of its tuple is active,
until the tuple is authorized again. -/
def RevocationComplete (ops : List KmmOp) : Prop :=
  ∀ pre t post, pre ++ .revokeDelegation t :: post <+: ops →
    (kmmRevokeDelegation (kmmState pre) t).1 = 0 → .authorizeDelegation t ∉ post →
    ∀ d ∈ (kmmState (pre ++ .revokeDelegation t :: post)).delegations.records, ¬ d.ActiveFor t

/-- Without an authorization of the tuple, nothing makes a record of it active. -/
theorem activeFor_le_of_not_mem (ops : List KmmOp) {t : KmmTuple} {post : List KmmOp}
    (h : .authorizeDelegation t ∉ post) :
    (kmmState (ops ++ post)).activeFor t ≤ (kmmState ops).activeFor t := by
  induction post using List.reverseRecOn with
  | nil => rw [List.append_nil]
  | append_singleton post op ih =>
    rw [List.mem_append, not_or, List.mem_singleton] at h
    have haccount := (kmmStep_effect (kmmState (ops ++ post)) op).activeFor t
    rw [if_neg fun happ : Appends _ _ _ ↦ h.2 happ.1.symm, Nat.add_zero] at haccount
    rw [← List.append_assoc, kmmState_concat]
    exact (Nat.le_of_add_right_le haccount.le).trans (ih h.1)

/-- A run has complete revocations exactly if each revocation is called with at most one
active record of its tuple. -/
theorem revocationComplete_iff (ops : List KmmOp) :
    RevocationComplete ops ↔ ∀ pre t, pre ++ [.revokeDelegation t] <+: ops →
      (kmmState pre).activeFor t ≤ 1 := by
  constructor
  · intro h pre t hpre
    by_contra hmany
    have hpos : 0 < (kmmState pre).activeFor t := by omega
    have hsucc := (revoke_succeeds_iff (kmmState pre) t).mpr hpos
    have hzero := h pre t [] hpre hsucc (by simp)
    rw [← KmmMock.activeFor_eq_zero_iff, kmmState_concat] at hzero
    have haccount := (kmmStep_effect (kmmState pre) (.revokeDelegation t)).activeFor t
    have hret : (kmmStep (kmmState pre) (.revokeDelegation t)).1 = 0 := hsucc
    simp [hret, hzero, Appends] at haccount
    omega
  · intro h pre t post hpost hsucc hmem
    have hpre : pre ++ [.revokeDelegation t] <+: ops := by
      rw [List.append_cons] at hpost
      exact (List.prefix_append _ _).trans hpost
    have haccount := (kmmStep_effect (kmmState pre) (.revokeDelegation t)).activeFor t
    have hret : (kmmStep (kmmState pre) (.revokeDelegation t)).1 = 0 := hsucc
    rw [← kmmState_concat] at haccount
    have hle := activeFor_le_of_not_mem (pre ++ [.revokeDelegation t]) hmem
    rw [← List.append_cons] at hle
    rw [← KmmMock.activeFor_eq_zero_iff]
    have hone := h pre t hpre
    simp [hret, Appends] at haccount
    omega

/-- A delegation that is authorized twice is active after its revocation. -/
theorem not_revocationComplete_demo :
    ¬ RevocationComplete [.assignSensor 1 1, .authorizeDelegation ⟨1, 1, 2, 1⟩,
      .authorizeDelegation ⟨1, 1, 2, 1⟩, .revokeDelegation ⟨1, 1, 2, 1⟩] := by
  intro h
  have hnone := h [.assignSensor 1 1, .authorizeDelegation ⟨1, 1, 2, 1⟩,
    .authorizeDelegation ⟨1, 1, 2, 1⟩] ⟨1, 1, 2, 1⟩ [] (List.prefix_refl _) (by decide +kernel)
    (by simp)
  exact hnone ⟨⟨1, 1, 2, 1⟩, 1⟩ (by decide +kernel) (by decide)

/-! ## The slot of a delegated sensor -/

/-- The fog that a call assigns a sensor to. -/
def assignedBy (s : UInt32) (call : Call KmmMock KmmOp ℤ) : Option UInt32 :=
  match call.op with
  | .assignSensor s' f => if call.ret = 0 ∧ s' = s then some f else none
  | _ => none

/-- The home of a sensor: the fog of its latest successful assignment. -/
def home (ops : List KmmOp) (s : UInt32) : Option UInt32 :=
  latest (assignedBy s) (kmmCalls ops)

/-- Every sensor with a home is served by it, or by the target of a record of the sensor
that is active. -/
def Served (home : UInt32 → Option UInt32) (kmm : KmmMock) : Prop :=
  ∀ s f, home s = some f → kmmGetAssignedFog kmm s = f ∨
    ∃ d ∈ kmm.delegations.records, d.sensorId = s ∧ d.targetFogId = kmmGetAssignedFog kmm s ∧
      d.active ≠ 0

/-- A revocation that clears a record of the fog the sensor is at leaves the sensor at
its home, or another active record for that fog. -/
def KeepsServed (home : UInt32 → Option UInt32) (kmm : KmmMock) : KmmOp → Prop
  | .revokeDelegation t =>
    0 < kmm.activeFor t → kmmGetAssignedFog kmm t.sensorId = t.targetFogId →
      ∀ f, home t.sensorId = some f → t.targetFogId = f ∨ 2 ≤ kmm.activeTo t.sensorId t.targetFogId
  | _ => True

/-- Being served depends on the home, the slot and the active records of a sensor. -/
theorem Served.of_le {home : UInt32 → Option UInt32} {kmm kmm' : KmmMock} (h : Served home kmm)
    (hslot : kmm'.slot = kmm.slot) (hactive : ∀ s f, kmm.activeTo s f ≤ kmm'.activeTo s f) :
    Served home kmm' := by
  intro s f hs
  rw [KmmMock.kmmGetAssignedFog_eq, hslot, ← KmmMock.kmmGetAssignedFog_eq,
    ← KmmMock.activeTo_pos_iff]
  rcases h s f hs with hf | hd
  · exact .inl hf
  · exact .inr ((KmmMock.activeTo_pos_iff.mpr hd).trans_le (hactive _ _))

theorem activeTo_appendDelegation {kmm : KmmMock} (hroom : kmm.delegations.count < 32)
    (t : KmmTuple) (s f : UInt32) :
    (kmm.appendDelegation t).activeTo s f =
      kmm.activeTo s f + if t.sensorId = s ∧ t.targetFogId = f then 1 else 0 := by
  rw [KmmMock.activeTo, KmmMock.countP_appendDelegation hroom]
  simp [KmmMock.activeTo]

/-- Clearing a record of a tuple takes it off the account of the tuple's sensor and
target. -/
theorem activeTo_cleared {kmm : KmmMock} (kmm' : KmmMock) {t : KmmTuple}
    {l₁ l₂ : List KmmDelegation} {d : KmmDelegation}
    (hsplit : kmm.delegations.records = l₁ ++ d :: l₂) (hd : d.ActiveFor t)
    (hrecords : kmm'.delegations.records = l₁ ++ { d with active := 0 } :: l₂) (s f : UInt32) :
    kmm'.activeTo s f + (if t.sensorId = s ∧ t.targetFogId = f then 1 else 0) =
      kmm.activeTo s f := by
  obtain ⟨rfl, hactive⟩ := hd
  have hcount := countP_replace l₁ l₂ d { d with active := 0 }
    (fun d ↦ decide (d.sensorId = s ∧ d.targetFogId = f ∧ d.active ≠ 0)) (by simp)
  rw [KmmMock.activeTo, KmmMock.activeTo, hrecords, hsplit, ← hcount]
  simp [hactive]

/-- Only an operation that sets the slot of a sensor changes where it is served. -/
theorem Host.KmmMock.SetsSlot.getAssignedFog {kmm kmm' : KmmMock} {s f : UInt32}
    (hset : kmm.SetsSlot s f kmm') (s' : UInt32) :
    kmmGetAssignedFog kmm' s' = if s' = s then f else kmmGetAssignedFog kmm s' := by
  rw [KmmMock.kmmGetAssignedFog_eq, hset.slot, KmmMock.kmmGetAssignedFog_eq]
  by_cases hs : s' = s
  · rw [if_pos hs, hs, Function.update_self, Option.getD_some]
  · rw [if_neg hs, Function.update_of_ne hs]

/-- An assignment moves a sensor, and its home with it. -/
theorem Served.assign {home : UInt32 → Option UInt32} {kmm kmm' : KmmMock} {s f : UInt32}
    (h : Served home kmm) (hset : kmm.SetsSlot s f kmm') :
    Served (fun s' ↦ (assignedBy s' ⟨kmm, .assignSensor s f, 0, kmm'⟩).or (home s')) kmm' := by
  intro s' f' hs'
  rw [hset.getAssignedFog]
  by_cases hs : s' = s
  · subst hs
    rw [if_pos rfl]
    simp only [assignedBy, and_self, if_true, Option.some_or, Option.some.injEq] at hs'
    exact .inl hs'
  · rw [if_neg hs, hset.delegations]
    simp only [assignedBy, Ne.symm hs, and_false, if_false, Option.none_or] at hs'
    exact h s' f' hs'

/-- A delegation moves a sensor to the target of a record that is active. -/
theorem Served.grant {home : UInt32 → Option UInt32} {kmm kmm' : KmmMock} {t : KmmTuple}
    (h : Served home kmm) (hroom : kmm.delegations.count < 32)
    (hset : (kmm.appendDelegation t).SetsSlot t.sensorId t.targetFogId kmm') :
    Served home kmm' := by
  intro s f hs
  rw [hset.getAssignedFog, hset.delegations, ← KmmMock.activeTo_pos_iff,
    activeTo_appendDelegation hroom]
  by_cases hts : s = t.sensorId
  · rw [if_pos hts, if_pos ⟨hts.symm, rfl⟩]
    exact .inr (Nat.succ_pos _)
  · rw [if_neg hts]
    rcases h s f hs with hf | hd
    · exact .inl hf
    · exact .inr (Nat.add_pos_left (KmmMock.activeTo_pos_iff.mpr hd) _)

/-- With a record of a tuple cleared every sensor is served exactly if the sensor of the
tuple is, where it is at the target. -/
theorem Served.cleared_iff {home : UInt32 → Option UInt32} {kmm : KmmMock}
    {delegations : Table KmmDelegation 32} {t : KmmTuple} {l₁ l₂ : List KmmDelegation}
    {d : KmmDelegation} (h : Served home kmm) (hsplit : kmm.delegations.records = l₁ ++ d :: l₂)
    (hd : d.ActiveFor t) (hrecords : delegations.records = l₁ ++ { d with active := 0 } :: l₂) :
    Served home { kmm with delegations := delegations } ↔
      KeepsServed home kmm (.revokeDelegation t) := by
  have haccount := activeTo_cleared { kmm with delegations := delegations } hsplit hd hrecords
  have hpos := KmmMock.activeFor_pos hsplit hd
  constructor
  · intro hserved _ hget f hf
    rcases hserved t.sensorId f hf with hhome | hactive
    · exact .inl (hget.symm.trans hhome)
    · -- A second record must be the one that still delegates the sensor.
      have hleft := KmmMock.activeTo_pos_iff.mpr hactive
      rw [show kmmGetAssignedFog { kmm with delegations := delegations } t.sensorId =
        t.targetFogId from hget] at hleft
      have htwo := haccount t.sensorId t.targetFogId
      rw [if_pos ⟨rfl, rfl⟩] at htwo
      exact .inr (by omega)
  · intro hkeeps s f hf
    rw [← KmmMock.activeTo_pos_iff]
    have hmoved := haccount s (kmmGetAssignedFog kmm s)
    rcases h s f hf with hhome | hactive
    · exact .inl hhome
    · have hbefore := KmmMock.activeTo_pos_iff.mpr hactive
      by_cases ht : t.sensorId = s ∧ t.targetFogId = kmmGetAssignedFog kmm s
      · obtain ⟨rfl, hget⟩ := ht
        rw [if_pos ⟨rfl, hget⟩] at hmoved
        rcases hkeeps hpos hget.symm f hf with hhome | htwo
        · exact .inl (hget.symm.trans hhome)
        · rw [hget] at htwo
          have hleft : 0 < KmmMock.activeTo { kmm with delegations := delegations } t.sensorId
              (kmmGetAssignedFog kmm t.sensorId) := by omega
          exact .inr hleft
      · rw [if_neg ht, Nat.add_zero] at hmoved
        exact .inr (hmoved ▸ hbefore)

/-- A step keeps every sensor served exactly if it is no revocation that leaves one at
a fog it is not delegated to. -/
theorem Host.KmmEffect.served_step_iff {home : UInt32 → Option UInt32} {kmm kmm' : KmmMock}
    {op : KmmOp} {ret : ℤ} (heffect : KmmEffect kmm op ret kmm') (h : Served home kmm) :
    Served (fun s ↦ (assignedBy s ⟨kmm, op, ret, kmm'⟩).or (home s)) kmm' ↔
      KeepsServed home kmm op := by
  cases heffect with
  | fogsFull _ => exact iff_of_true h trivial
  | registered _ hkmm' =>
    subst hkmm'
    exact iff_of_true h trivial
  | slotsFull _ _ => exact iff_of_true h trivial
  | assigned hset => exact iff_of_true (h.assign hset) trivial
  | looked => exact iff_of_true h trivial
  | delegationsFull _ => exact iff_of_true h trivial
  | halfGranted hroom _ _ =>
    refine iff_of_true (h.of_le rfl fun s f ↦ ?_) trivial
    rw [activeTo_appendDelegation hroom]
    exact Nat.le_add_right _ _
  | granted hroom hset => exact iff_of_true (h.grant hroom hset) trivial
  | noneActive hnone =>
    refine iff_of_true h ?_
    intro hpos
    exact absurd (KmmMock.activeFor_eq_zero_iff.mpr hnone) hpos.ne'
  | revoked hsplit _ hd _ hrecords => exact h.cleared_iff hsplit hd hrecords

theorem home_concat (ops : List KmmOp) (op : KmmOp) :
    home (ops ++ [op]) = fun s ↦ (assignedBy s ⟨kmmState ops, op, (kmmStep (kmmState ops) op).1,
      (kmmStep (kmmState ops) op).2⟩).or (home ops s) := by
  funext s
  rw [home, kmmCalls_concat, latest_concat, home]

/-- Throughout a run, every sensor that has been assigned is at its home or under an
active delegation, exactly if each revocation that clears a record of the fog its sensor
is at finds the sensor at home, or finds another active record for that fog. -/
theorem served_iff (ops : List KmmOp) :
    (∀ pre, pre <+: ops → Served (home pre) (kmmState pre)) ↔
      ∀ pre op, pre ++ [op] <+: ops → KeepsServed (home pre) (kmmState pre) op := by
  refine forall_prefix_iff (P := fun ops ↦ Served (home ops) (kmmState ops)) ?_ ?_ ops
  · intro s f hs
    cases hs
  · intro ops op h
    rw [home_concat, kmmState_concat]
    exact (kmmStep_effect _ op).served_step_iff h

/-- After the delegation of the demo is revoked, sensor 1 is at fog 2. -/
theorem not_served_demo :
    ¬ Served (home [.assignSensor 1 1, .authorizeDelegation ⟨1, 1, 2, 1⟩,
        .revokeDelegation ⟨1, 1, 2, 1⟩])
      (kmmState [.assignSensor 1 1, .authorizeDelegation ⟨1, 1, 2, 1⟩,
        .revokeDelegation ⟨1, 1, 2, 1⟩]) := by
  intro h
  rcases h 1 1 (by decide +kernel) with hhome | ⟨d, hd, -, -, hactive⟩
  · exact absurd hhome (by decide +kernel)
  · have hnone : ∀ d ∈ (kmmState [.assignSensor 1 1, .authorizeDelegation ⟨1, 1, 2, 1⟩,
        .revokeDelegation ⟨1, 1, 2, 1⟩]).delegations.records, d.active = 0 := by decide +kernel
    exact hactive (hnone d hd)

/-! ## The capacity for delegations -/

/-- Is an operation an authorization? -/
def isAuthorization : KmmOp → Bool
  | .authorizeDelegation _ => true
  | _ => false

/-- An authorization takes an entry if there is one, and nothing gives one back. -/
theorem Host.KmmEffect.delegations_count {kmm kmm' : KmmMock} {op : KmmOp} {ret : ℤ}
    (heffect : KmmEffect kmm op ret kmm') (h : kmm.delegations.count ≤ 32) :
    kmm'.delegations.count =
      min 32 (kmm.delegations.count + if isAuthorization op then 1 else 0) := by
  cases heffect with
  | fogsFull _ => simp [isAuthorization, h]
  | registered _ hkmm' =>
    subst hkmm'
    simp [isAuthorization, h]
  | slotsFull _ _ => simp [isAuthorization, h]
  | assigned hset => simp [isAuthorization, hset.delegations, h]
  | looked => simp [isAuthorization, h]
  | delegationsFull hfull =>
    rw [isAuthorization, if_pos rfl, min_eq_left (hfull.trans (Nat.le_succ _))]
    exact h.antisymm hfull
  | halfGranted hroom _ _ => exact (min_eq_right hroom).symm
  | granted hroom hset =>
    rw [hset.delegations]
    exact (min_eq_right hroom).symm
  | noneActive _ => simp [isAuthorization, h]
  | revoked _ _ _ hcount _ => simp [isAuthorization, hcount, h]

/-- The records that a run has written: one for each authorization, up to 32. -/
theorem delegations_count_eq (ops : List KmmOp) :
    (kmmState ops).delegations.count = min 32 (ops.countP isAuthorization) := by
  induction ops using List.reverseRecOn with
  | nil => rfl
  | append_singleton ops op ih =>
    rw [kmmState_concat,
      (kmmStep_effect _ op).delegations_count (kmmState_wellFormed ops).delegations_le, ih,
      List.countP_append, List.countP_singleton]
    omega

/-- In the state a run reaches, an authorization for a sensor with a slot succeeds exactly
if fewer than 32 authorizations have been called, whatever has been revoked since. -/
theorem authorize_succeeds_iff (ops : List KmmOp) (t : KmmTuple)
    (hs : t.sensorId ∈ (kmmState ops).sensors) :
    (kmmAuthorizeDelegation (kmmState ops) t).1 = 0 ↔ ops.countP isAuthorization < 32 := by
  have hcount := delegations_count_eq ops
  have heffect := kmmAuthorizeDelegation_effect (kmmState ops) t
  generalize (kmmAuthorizeDelegation (kmmState ops) t).1 = ret,
    (kmmAuthorizeDelegation (kmmState ops) t).2 = kmm' at heffect
  cases heffect with
  | delegationsFull hfull =>
    have hmany : ¬ ops.countP isAuthorization < 32 := by omega
    simp [hmany]
  | halfGranted _ hnone _ => exact absurd hs hnone
  | granted hroom _ =>
    have hfew : ops.countP isAuthorization < 32 := by omega
    simp [hfew]

/-- The second delegation of a run that grants and revokes one a window. -/
theorem authorize_succeeds_demo :
    (kmmAuthorizeDelegation (kmmState [.assignSensor 1 1, .authorizeDelegation ⟨1, 1, 2, 1⟩,
      .revokeDelegation ⟨1, 1, 2, 1⟩]) ⟨1, 1, 2, 2⟩).1 = 0 ↔
    [KmmOp.assignSensor 1 1, .authorizeDelegation ⟨1, 1, 2, 1⟩,
      .revokeDelegation ⟨1, 1, 2, 1⟩].countP isAuthorization < 32 :=
  authorize_succeeds_iff _ _ (by decide +kernel)

/-- Assign sensor 1, then grant and revoke one delegation in each of 32 windows. -/
def windows32 : List KmmOp :=
  .assignSensor 1 1 :: (List.range 32).flatMap fun w ↦
    [.authorizeDelegation ⟨1, 1, 2, UInt32.ofNat w⟩, .revokeDelegation ⟨1, 1, 2, UInt32.ofNat w⟩]

/-- In the 33rd window none is active and none can be granted. -/
theorem authorize_fails_demo :
    (kmmState windows32).activeCount = 0 ∧ 1 ∈ (kmmState windows32).sensors ∧
    (kmmAuthorizeDelegation (kmmState windows32) ⟨1, 1, 2, 32⟩).1 = -1 := by
  decide +kernel

end SecureIIoT
