import Mathlib.Data.List.Forall2
import SecureIIoT.Delegation

/-!
# The account of the delegations

The delegation records are a log.  Whatever is called, a record that has been written
stays where it is with its tuple, and its flag can only be cleared
(`KmmEffect.extends`); an authorization with room adds a record at the end, a revocation
clears the flag of one.  So for each tuple the records that are active are those that
have been written less those that have been revoked (`activeFor_account`), and a
revocation finds one exactly if any is left (`kmmRevokeDelegation_cases`).
-/

namespace SecureIIoT

open Host

/-! ## The records as a log -/

/-- What may become of a record: the tuple stays, the flag is not set again. -/
def Host.KmmDelegation.Outlives (d d' : KmmDelegation) : Prop :=
  d'.toKmmTuple = d.toKmmTuple ∧ (d.active = 0 → d'.active = 0)

/-- The records after an operation: those before it, in their order, and new ones. -/
def Extends (records records' : List KmmDelegation) : Prop :=
  ∃ kept new, records' = kept ++ new ∧ List.Forall₂ KmmDelegation.Outlives records kept

theorem Host.KmmDelegation.Outlives.refl (d : KmmDelegation) : d.Outlives d :=
  ⟨rfl, id⟩

theorem forall₂_outlives_refl (records : List KmmDelegation) :
    List.Forall₂ KmmDelegation.Outlives records records :=
  List.forall₂_same.mpr fun d _ ↦ .refl d

theorem Extends.refl (records : List KmmDelegation) : Extends records records :=
  ⟨records, [], (List.append_nil _).symm, forall₂_outlives_refl records⟩

theorem Extends.concat (records : List KmmDelegation) (d : KmmDelegation) :
    Extends records (records ++ [d]) :=
  ⟨records, [d], rfl, forall₂_outlives_refl records⟩

/-- Clearing the flag of one record. -/
theorem Extends.clear (l₁ l₂ : List KmmDelegation) (d : KmmDelegation) :
    Extends (l₁ ++ d :: l₂) (l₁ ++ { d with active := 0 } :: l₂) := by
  refine ⟨_, [], (List.append_nil _).symm, ?_⟩
  have hclear : d.Outlives { d with active := 0 } := ⟨rfl, fun _ ↦ rfl⟩
  exact List.rel_append (forall₂_outlives_refl l₁) (.cons hclear (forall₂_outlives_refl l₂))

/-- No operation takes a record out, moves it, changes its tuple or sets its flag. -/
theorem Host.KmmEffect.extends {kmm kmm' : KmmMock} {op : KmmOp} {ret : ℤ}
    (heffect : KmmEffect kmm op ret kmm') :
    Extends kmm.delegations.records kmm'.delegations.records := by
  cases heffect with
  | fogsFull _ => exact .refl _
  | registered _ hkmm' =>
    subst hkmm'
    exact .refl _
  | slotsFull _ _ => exact .refl _
  | assigned hset =>
    rw [hset.delegations]
    exact .refl _
  | looked => exact .refl _
  | delegationsFull _ => exact .refl _
  | halfGranted hroom _ _ =>
    rw [KmmMock.appendDelegation, Table.records_push hroom]
    exact .concat _ _
  | granted hroom hset =>
    rw [hset.delegations, KmmMock.appendDelegation, Table.records_push hroom]
    exact .concat _ _
  | noneActive _ => exact .refl _
  | revoked hsplit _ _ _ hrecords =>
    rw [hsplit, hrecords]
    exact .clear _ _ _

/-! ## The account of a tuple -/

/-- An authorization of the tuple that has appended a record. -/
def Granted (t : KmmTuple) (call : Call KmmMock KmmOp ℤ) : Prop :=
  call.op = .authorizeDelegation t ∧
    call.after.delegations.records = call.before.delegations.records ++ [⟨t, 1⟩]

/-- A revocation of the tuple that has returned 0. -/
def Revoked (t : KmmTuple) (call : Call KmmMock KmmOp ℤ) : Prop :=
  call.op = .revokeDelegation t ∧ call.ret = 0

instance (t : KmmTuple) : DecidablePred (Granted t) :=
  fun _ ↦ inferInstanceAs (Decidable (_ ∧ _))

instance (t : KmmTuple) : DecidablePred (Revoked t) :=
  fun _ ↦ inferInstanceAs (Decidable (_ ∧ _))

/-- A record is appended exactly if there is room for it. -/
theorem Host.KmmEffect.granted_iff {kmm kmm' : KmmMock} {op : KmmOp} {ret : ℤ}
    (heffect : KmmEffect kmm op ret kmm') (t : KmmTuple) :
    Granted t ⟨kmm, op, ret, kmm'⟩ ↔ Appends kmm t op := by
  refine and_congr_right ?_
  rintro rfl
  cases heffect with
  | delegationsFull hfull => simp [hfull.not_gt]
  | halfGranted hroom _ _ => simp [KmmMock.appendDelegation, Table.records_push hroom, hroom]
  | granted hroom hset =>
    simp [hset.delegations, KmmMock.appendDelegation, Table.records_push hroom, hroom]

/-- One call: what it appends comes to the account of the tuple, what it revokes goes. -/
theorem Host.KmmEffect.account {kmm kmm' : KmmMock} {op : KmmOp} {ret : ℤ}
    (heffect : KmmEffect kmm op ret kmm') (t : KmmTuple) :
    kmm'.activeFor t + (if Revoked t ⟨kmm, op, ret, kmm'⟩ then 1 else 0) =
      kmm.activeFor t + if Granted t ⟨kmm, op, ret, kmm'⟩ then 1 else 0 := by
  simp only [heffect.granted_iff t]
  exact heffect.activeFor t

/-- The records of a tuple that are active are those that have been appended, less those
that have been revoked. -/
theorem activeFor_account (ops : List KmmOp) (t : KmmTuple) :
    (kmmState ops).activeFor t + (kmmCalls ops).countP (fun call ↦ Revoked t call) =
      (kmmCalls ops).countP fun call ↦ Granted t call := by
  induction ops using List.reverseRecOn with
  | nil =>
    rw [KmmMock.activeFor, show (kmmState []).delegations.records = [] from Table.records_empty _]
    rfl
  | append_singleton ops op ih =>
    have hstep := (kmmStep_effect (kmmState ops) op).account t
    rw [kmmState_concat, kmmCalls_concat, List.countP_append, List.countP_append,
      List.countP_singleton, List.countP_singleton]
    simp only [decide_eq_true_eq]
    omega

/-- A revocation clears the flag of the earliest active record of its tuple and touches
nothing else, or finds none. -/
theorem kmmRevokeDelegation_cases (kmm : KmmMock) (t : KmmTuple) :
    ((kmmRevokeDelegation kmm t).1 = 0 ∧ ∃ l₁ d l₂,
      kmm.delegations.records = l₁ ++ d :: l₂ ∧ (∀ b ∈ l₁, ¬ b.ActiveFor t) ∧ d.ActiveFor t ∧
      (kmmRevokeDelegation kmm t).2.delegations.records = l₁ ++ { d with active := 0 } :: l₂ ∧
      (kmmRevokeDelegation kmm t).2.delegations.count = kmm.delegations.count ∧
      (kmmRevokeDelegation kmm t).2.slotMap = kmm.slotMap ∧
      (kmmRevokeDelegation kmm t).2.fogNodes = kmm.fogNodes) ∨
    kmmRevokeDelegation kmm t = (-1, kmm) := by
  have heffect := kmmRevokeDelegation_effect kmm t
  generalize hret : (kmmRevokeDelegation kmm t).1 = ret,
    hkmm' : (kmmRevokeDelegation kmm t).2 = kmm' at heffect
  cases heffect with
  | noneActive _ => exact .inr (Prod.ext hret hkmm')
  | revoked hsplit hfirst hd hcount hrecords =>
    exact .inl ⟨rfl, _, _, _, hsplit, hfirst, hd, hrecords, hcount, rfl, rfl⟩

/-- In every run: each call leaves the records that were there, in their order and with
their tuples, and sets no flag; the active records of a tuple are the authorizations that
have appended one less the revocations that have returned 0; and a revocation returns 0
exactly if that number is positive, and then clears the flag of the earliest active
record of the tuple and changes nothing else. -/
theorem delegation_accounting (ops : List KmmOp) (t : KmmTuple) :
    (∀ call ∈ kmmCalls ops,
      Extends call.before.delegations.records call.after.delegations.records) ∧
    ((kmmState ops).activeFor t : ℤ) = (kmmCalls ops).countP (fun call ↦ Granted t call) -
      (kmmCalls ops).countP (fun call ↦ Revoked t call) ∧
    ((kmmRevokeDelegation (kmmState ops) t).1 = 0 ↔ 0 < (kmmState ops).activeFor t) ∧
    ((kmmRevokeDelegation (kmmState ops) t).1 = 0 → ∃ l₁ d l₂,
      (kmmState ops).delegations.records = l₁ ++ d :: l₂ ∧ (∀ b ∈ l₁, ¬ b.ActiveFor t) ∧
      d.ActiveFor t ∧
      (kmmRevokeDelegation (kmmState ops) t).2.delegations.records =
        l₁ ++ { d with active := 0 } :: l₂ ∧
      (kmmRevokeDelegation (kmmState ops) t).2.delegations.count =
        (kmmState ops).delegations.count ∧
      (kmmRevokeDelegation (kmmState ops) t).2.slotMap = (kmmState ops).slotMap ∧
      (kmmRevokeDelegation (kmmState ops) t).2.fogNodes = (kmmState ops).fogNodes) := by
  refine ⟨?_, ?_, revoke_succeeds_iff _ t, ?_⟩
  · intro call hcall
    exact (effect_of_mem hcall).extends
  · rw [← activeFor_account ops t]
    push_cast
    omega
  · intro hret
    rcases kmmRevokeDelegation_cases (kmmState ops) t with ⟨-, hsplit⟩ | hnone
    · exact hsplit
    · rw [hnone] at hret
      have hfailed : (-1 : ℤ) = 0 := hret
      exact absurd hfailed (by decide)

end SecureIIoT
