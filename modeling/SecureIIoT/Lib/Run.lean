import Mathlib.Data.List.Induction

/-!
# Runs of a deterministic machine

A machine takes an operation in a state, returns something and goes on in another
state; a run is the list of the operations it is given.  Statements about runs are
statements about lists that grow at the end, so the two rules here, `run_induction`
for what every run keeps and `forall_prefix_iff` for what a run keeps as long as each
of its steps does, are induction from the right.

`calls` records a run: the states before and after each operation and what was
returned.  `latest` is the last value that some call of a record set.
-/

universe u v w x

/-- A machine: what an operation returns in a state, and the state it leaves. -/
abbrev Machine (State : Type u) (Op : Type v) (Ret : Type w) :=
  State → Op → Ret × State

/-- One operation of a run. -/
structure Call (State : Type u) (Op : Type v) (Ret : Type w) where
  before : State
  op : Op
  ret : Ret
  after : State

namespace Machine

variable {State : Type u} {Op : Type v} {Ret : Type w} (M : Machine State Op Ret)

/-- The state a run ends in. -/
def final : State → List Op → State
  | s, [] => s
  | s, op :: ops => final (M s op).2 ops

/-- The record of a run. -/
def calls : State → List Op → List (Call State Op Ret)
  | _, [] => []
  | s, op :: ops => ⟨s, op, (M s op).1, (M s op).2⟩ :: calls (M s op).2 ops

theorem final_append (s : State) (ops ops' : List Op) :
    M.final s (ops ++ ops') = M.final (M.final s ops) ops' := by
  induction ops generalizing s with
  | nil => rfl
  | cons op ops ih => exact ih (M s op).2

theorem final_concat (s : State) (ops : List Op) (op : Op) :
    M.final s (ops ++ [op]) = (M (M.final s ops) op).2 :=
  M.final_append s ops [op]

theorem calls_append (s : State) (ops ops' : List Op) :
    M.calls s (ops ++ ops') = M.calls s ops ++ M.calls (M.final s ops) ops' := by
  induction ops generalizing s with
  | nil => rfl
  | cons op ops ih => exact congrArg _ (ih (M s op).2)

theorem calls_concat (s : State) (ops : List Op) (op : Op) :
    M.calls s (ops ++ [op]) = M.calls s ops ++
      [⟨M.final s ops, op, (M (M.final s ops) op).1, (M (M.final s ops) op).2⟩] :=
  M.calls_append s ops [op]

/-- The calls of a run are its operations, each in the state the run has reached. -/
theorem mem_calls_iff {s : State} {ops : List Op} {call : Call State Op Ret} :
    call ∈ M.calls s ops ↔ ∃ pre op, pre ++ [op] <+: ops ∧
      call = ⟨M.final s pre, op, (M (M.final s pre) op).1, (M (M.final s pre) op).2⟩ := by
  constructor
  · intro h
    induction ops using List.reverseRecOn with
    | nil => cases h
    | append_singleton ops op ih =>
      rw [calls_concat, List.mem_append, List.mem_singleton] at h
      rcases h with h | h
      · obtain ⟨pre, op', hpre, hcall⟩ := ih h
        exact ⟨pre, op', hpre.trans (List.prefix_append _ _), hcall⟩
      · exact ⟨ops, op, List.prefix_rfl, h⟩
  · rintro ⟨pre, op, ⟨post, rfl⟩, rfl⟩
    rw [calls_append, calls_concat]
    simp

/-- A condition on the steps of a run, over its record or over its prefixes. -/
theorem forall_calls_iff (s : State) (ops : List Op) (Q : State → Op → Prop) :
    (∀ call ∈ M.calls s ops, Q call.before call.op) ↔
      ∀ pre op, pre ++ [op] <+: ops → Q (M.final s pre) op := by
  constructor
  · intro h pre op hpre
    exact h _ (M.mem_calls_iff.mpr ⟨pre, op, hpre, rfl⟩)
  · intro h call hcall
    obtain ⟨pre, op, hpre, rfl⟩ := M.mem_calls_iff.mp hcall
    exact h pre op hpre

/-- What holds of the empty run and is kept by every step holds of every run. -/
theorem run_induction {s : State} {P : List Op → State → Prop} (nil : P [] s)
    (step : ∀ ops op, P ops (M.final s ops) → P (ops ++ [op]) (M (M.final s ops) op).2)
    (ops : List Op) : P ops (M.final s ops) := by
  induction ops using List.reverseRecOn with
  | nil => exact nil
  | append_singleton ops op ih =>
    rw [final_concat]
    exact step ops op ih

end Machine

section Prefix

variable {Op : Type v} {P : List Op → Prop} {C : List Op → Op → Prop}

/-- If a step from a run with `P` keeps `P` exactly under the condition `C`, then `P`
holds throughout a run exactly if `C` does at each step. -/
theorem forall_prefix_iff (nil : P []) (step : ∀ ops op, P ops → (P (ops ++ [op]) ↔ C ops op))
    (ops : List Op) :
    (∀ pre, pre <+: ops → P pre) ↔ ∀ pre op, pre ++ [op] <+: ops → C pre op := by
  constructor
  · intro h pre op hpre
    exact (step pre op (h pre ((List.prefix_append _ _).trans hpre))).mp (h _ hpre)
  · intro h pre hpre
    induction pre using List.reverseRecOn with
    | nil => exact nil
    | append_singleton pre op ih =>
      exact (step pre op (ih ((List.prefix_append _ _).trans hpre))).mpr (h pre op hpre)

end Prefix

section Latest

variable {C : Type v} {β : Type x} (f : C → Option β)

/-- The value set by the last call of a record that sets one. -/
def latest (history : List C) : Option β :=
  history.reverse.findSome? f

theorem latest_concat (history : List C) (c : C) :
    latest f (history ++ [c]) = (f c).or (latest f history) := by
  rw [latest, List.reverse_append, List.reverse_singleton, List.singleton_append,
    List.findSome?_cons]
  cases f c with
  | none => rfl
  | some b => rfl

end Latest
