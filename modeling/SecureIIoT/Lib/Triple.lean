import Mathlib.Data.Nat.Notation

/-!
# Triples for programs that may stop

A program of `EStateM ε σ` returns in a state or stops with an error, and keeps the state
that it has reached in both cases.  `Triple P x Q E` says that from a state with `P` the
program `x` returns with `Q` or stops with `E`.  Nothing is left out: every program here
ends in one of the two ways.

The rules follow the programs.  A loop is a `List.foldlM`, and `Triple.foldlM` is the
rule for its invariant, which may mention the number of turns made so far.
-/

universe u v

variable {ε σ α β : Type u} {γ : Type v}

/-- The state in which a program ends, returned or stopped. -/
def finalState (x : EStateM ε σ α) (s : σ) : σ :=
  match x s with
  | .ok _ s' => s'
  | .error _ s' => s'

/-- From a state with `P` the program returns with `Q` or stops with `E`. -/
def Triple (P : σ → Prop) (x : EStateM ε σ α) (Q : α → σ → Prop) (E : ε → σ → Prop) : Prop :=
  ∀ s, P s →
    match x s with
    | .ok a s' => Q a s'
    | .error e s' => E e s'

/-- A computation without a state. -/
def fromExcept : Except ε α → EStateM ε σ α
  | .ok a => pure a
  | .error e => throw e

/-- An `if` without an `else`. -/
def doIf (c : Prop) [Decidable c] (x : EStateM ε σ PUnit) : EStateM ε σ PUnit :=
  if c then x else pure ⟨⟩

namespace Triple

variable {P P' : σ → Prop} {Q Q' : α → σ → Prop} {E E' : ε → σ → Prop} {x : EStateM ε σ α}

/-- What holds on both ways out holds in the end. -/
theorem ends {R : σ → Prop} {s : σ} (h : Triple P x (fun _ ↦ R) fun _ ↦ R) (hs : P s) :
    R (finalState x s) := by
  have hx := h s hs
  unfold finalState
  cases hrun : x s with
  | ok a s' => simpa only [hrun] using hx
  | error e s' => simpa only [hrun] using hx

theorem conseq (h : Triple P x Q E) (hP : ∀ s, P' s → P s) (hQ : ∀ a s, Q a s → Q' a s)
    (hE : ∀ e s, E e s → E' e s) : Triple P' x Q' E' := by
  intro s hs
  have hx := h s (hP s hs)
  cases hrun : x s with
  | ok a s' =>
    rw [hrun] at hx
    exact hQ a s' hx
  | error e s' =>
    rw [hrun] at hx
    exact hE e s' hx

theorem mono_error (h : Triple P x Q E) (hE : ∀ e s, E e s → E' e s) : Triple P x Q E' :=
  h.conseq (fun _ hs ↦ hs) (fun _ _ hs ↦ hs) hE

theorem bind {f : α → EStateM ε σ β} {R : β → σ → Prop} (h : Triple P x Q E)
    (hf : ∀ a, Triple (Q a) (f a) R E) : Triple P (x >>= f) R E := by
  intro s hs
  have hx := h s hs
  change match EStateM.bind x f s with
    | .ok b s' => R b s'
    | .error e s' => E e s'
  unfold EStateM.bind
  cases hrun : x s with
  | ok a s' =>
    rw [hrun] at hx
    exact hf a s' hx
  | error e s' =>
    rw [hrun] at hx
    exact hx

theorem pure {a : α} (h : ∀ s, P s → Q a s) : Triple P (pure a) Q E :=
  h

theorem modify {f : σ → σ} {Q : PUnit → σ → Prop} (h : ∀ s, P s → Q ⟨⟩ (f s)) :
    Triple P (modify f) Q E :=
  h

theorem get {Q : σ → σ → Prop} (h : ∀ s, P s → Q s s) : Triple P get Q E :=
  h

/-- A computation without a state ends as it does, in the state it was given. -/
theorem of_fromExcept {r : Except ε α} (hok : ∀ a s, r = .ok a → P s → Q a s)
    (herror : ∀ e s, r = .error e → P s → E e s) : Triple P (fromExcept r) Q E := by
  intro s hs
  cases r with
  | ok a => exact hok a s rfl hs
  | error e => exact herror e s rfl hs

/-- A program goes on with what such a computation returns, or stops with its error. -/
theorem bind_fromExcept {r : Except ε α} {f : α → EStateM ε σ β} {R : β → σ → Prop}
    (herror : ∀ e s, r = .error e → P s → E e s) (h : ∀ a, r = .ok a → Triple P (f a) R E) :
    Triple P (fromExcept r >>= f) R E := by
  cases r with
  | ok a => exact fun s hs ↦ h a rfl s hs
  | error e => exact fun s hs ↦ herror e s rfl hs

theorem of_doIf {c : Prop} [Decidable c] {x : EStateM ε σ PUnit} {Q : PUnit → σ → Prop}
    (hpos : c → Triple P x Q E) (hneg : ¬ c → ∀ s, P s → Q ⟨⟩ s) :
    Triple P (doIf c x) Q E := by
  unfold doIf
  by_cases hc : c
  · rw [if_pos hc]
    exact hpos hc
  · rw [if_neg hc]
    exact pure (hneg hc)

/-- The turns of a loop, from the turn `k` on. -/
theorem foldlM_from (body : β → γ → EStateM ε σ β) (xs : List γ) (Inv : ℕ → β → σ → Prop) (k : ℕ)
    (h : ∀ i (hi : i < xs.length) b,
      Triple (Inv (k + i) b) (body b xs[i]) (Inv (k + i + 1)) E) (b : β) :
    Triple (Inv k b) (xs.foldlM body b) (Inv (k + xs.length)) E := by
  induction xs generalizing k b with
  | nil => exact pure fun s hs ↦ hs
  | cons x xs ih =>
    rw [List.foldlM_cons]
    refine bind (h 0 (Nat.succ_pos _) b) fun b ↦ ?_
    have hrest := ih (k + 1) (fun i hi b ↦ ?_) b
    · rwa [List.length_cons, Nat.add_comm xs.length, ← Nat.add_assoc]
    · have hturn := h (i + 1) (Nat.succ_lt_succ hi) b
      rwa [List.getElem_cons_succ, Nat.add_comm i, ← Nat.add_assoc] at hturn

/-- What each turn of a loop keeps, by the number of turns. -/
theorem foldlM (body : β → γ → EStateM ε σ β) (xs : List γ) (Inv : ℕ → β → σ → Prop)
    (h : ∀ i (hi : i < xs.length) b, Triple (Inv i b) (body b xs[i]) (Inv (i + 1)) E) (b : β) :
    Triple (Inv 0 b) (xs.foldlM body b) (Inv xs.length) E := by
  have hall := foldlM_from (E := E) body xs Inv 0 (fun i hi b ↦ ?_) b
  · rwa [Nat.zero_add] at hall
  · rw [Nat.zero_add]
    exact h i hi b

/-- A loop that counts. -/
theorem foldlM_range (body : β → ℕ → EStateM ε σ β) (n : ℕ) (Inv : ℕ → β → σ → Prop)
    (h : ∀ i < n, ∀ b, Triple (Inv i b) (body b i) (Inv (i + 1)) E) (b : β) :
    Triple (Inv 0 b) ((List.range n).foldlM body b) (Inv n) E := by
  have hloop := foldlM (E := E) body (List.range n) Inv (fun i hi b ↦ ?_) b
  · rwa [List.length_range] at hloop
  · rw [List.length_range] at hi
    rw [List.getElem_range]
    exact h i hi b

end Triple
