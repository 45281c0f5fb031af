import Mathlib.Data.List.Basic

/-!
# Ideal authenticated encryption

An ideal AEAD is an encryption function together with the log of the encryptions
that are made with it, over the whole history.  A request to encrypt succeeds if it
is in the log.  Decryption consults the log: it succeeds exactly on the output of a
logged encryption, and returns that encryption's message
(`Ideal.decrypt_eq_some_iff`).

That decryption is well defined is a field of the structure, `binding`: two logged
encryptions under one key and nonce with the same ciphertext and tag are the same
encryption.  A log can reuse a nonce; what it cannot do is collide on it.
-/

namespace Aead

universe u

variable {Key Nonce Aad Msg Ct Tag : Type u}

/-- One encryption: the inputs it was made with. -/
structure Query (Key Nonce Aad Msg : Type u) where
  key : Key
  nonce : Nonce
  aad : Aad
  msg : Msg
deriving DecidableEq

/-- An encryption function and the encryptions made with it. -/
structure Ideal (Key Nonce Aad Msg Ct Tag : Type u) where
  encrypt : Query Key Nonce Aad Msg → Ct × Tag
  log : List (Query Key Nonce Aad Msg)
  /-- Under one key and nonce, a ciphertext and tag belong to one encryption. -/
  binding : ∀ x ∈ log, ∀ y ∈ log, x.key = y.key → x.nonce = y.nonce → encrypt x = encrypt y → x = y

namespace Ideal

section Produce

variable [DecidableEq Key] [DecidableEq Nonce] [DecidableEq Aad] [DecidableEq Msg]

/-- The output of an encryption that is made. -/
def produce (I : Ideal Key Nonce Aad Msg Ct Tag) (x : Query Key Nonce Aad Msg) :
    Option (Ct × Tag) :=
  if x ∈ I.log then some (I.encrypt x) else none

theorem produce_eq_some_iff {I : Ideal Key Nonce Aad Msg Ct Tag} {x : Query Key Nonce Aad Msg}
    {out : Ct × Tag} : I.produce x = some out ↔ x ∈ I.log ∧ I.encrypt x = out := by
  by_cases h : x ∈ I.log
  · simp [produce, h]
  · simp [produce, h]

end Produce

/-- The encryptions of the history that have been made so far. -/
def restrict [DecidableEq Key] [DecidableEq Nonce] [DecidableEq Aad] [DecidableEq Msg]
    (I : Ideal Key Nonce Aad Msg Ct Tag) (made : List (Query Key Nonce Aad Msg)) :
    Ideal Key Nonce Aad Msg Ct Tag where
  encrypt := I.encrypt
  log := I.log.filter (· ∈ made)
  binding x hx y hy := I.binding x (List.mem_of_mem_filter hx) y (List.mem_of_mem_filter hy)

theorem mem_restrict_iff [DecidableEq Key] [DecidableEq Nonce] [DecidableEq Aad] [DecidableEq Msg]
    {I : Ideal Key Nonce Aad Msg Ct Tag} {made : List (Query Key Nonce Aad Msg)}
    {x : Query Key Nonce Aad Msg} : x ∈ (I.restrict made).log ↔ x ∈ I.log ∧ x ∈ made := by
  rw [restrict, List.mem_filter, decide_eq_true_eq]

variable [DecidableEq Key] [DecidableEq Nonce] [DecidableEq Aad] [DecidableEq Ct]
  [DecidableEq Tag]

/-- The message of the logged encryption that produced a ciphertext. -/
def decrypt (I : Ideal Key Nonce Aad Msg Ct Tag) (key : Key) (nonce : Nonce) (aad : Aad)
    (ct : Ct) (tag : Tag) : Option Msg :=
  (I.log.find? fun x ↦
    x.key = key ∧ x.nonce = nonce ∧ x.aad = aad ∧ I.encrypt x = (ct, tag)).map (·.msg)

variable {I : Ideal Key Nonce Aad Msg Ct Tag}

/-- Decryption succeeds exactly on what was encrypted, with the message that was. -/
theorem decrypt_eq_some_iff {key : Key} {nonce : Nonce} {aad : Aad} {ct : Ct} {tag : Tag}
    {msg : Msg} :
    I.decrypt key nonce aad ct tag = some msg ↔
      ⟨key, nonce, aad, msg⟩ ∈ I.log ∧ I.encrypt ⟨key, nonce, aad, msg⟩ = (ct, tag) := by
  constructor
  · intro h
    obtain ⟨x, hx, rfl⟩ := Option.map_eq_some_iff.mp h
    have hmem := List.mem_of_find?_eq_some hx
    have hmatch := List.find?_some hx
    obtain ⟨rfl, rfl, rfl, henc⟩ := of_decide_eq_true hmatch
    exact ⟨hmem, henc⟩
  · rintro ⟨hmem, henc⟩
    rw [decrypt, Option.map_eq_some_iff]
    cases hfind : I.log.find? fun x ↦
        x.key = key ∧ x.nonce = nonce ∧ x.aad = aad ∧ I.encrypt x = (ct, tag) with
    | none =>
        have hno := List.find?_eq_none.mp hfind _ hmem
        exact absurd (decide_eq_true ⟨rfl, rfl, rfl, henc⟩) hno
    | some x =>
        have hmatch := List.find?_some hfind
        obtain ⟨hkey, hnonce, -, hx⟩ := of_decide_eq_true hmatch
        have heq := I.binding x (List.mem_of_find?_eq_some hfind) _ hmem hkey hnonce
          (hx.trans henc.symm)
        exact ⟨x, rfl, congrArg Query.msg heq⟩

/-- What is encrypted decrypts under the associated data it was encrypted with, and
under no other. -/
theorem decrypt_produce_iff [DecidableEq Msg] {x : Query Key Nonce Aad Msg} {out : Ct × Tag}
    (h : I.produce x = some out) {aad : Aad} {msg : Msg} :
    I.decrypt x.key x.nonce aad out.1 out.2 = some msg ↔ aad = x.aad ∧ msg = x.msg := by
  obtain ⟨hmem, rfl⟩ := produce_eq_some_iff.mp h
  rw [decrypt_eq_some_iff]
  constructor
  · rintro ⟨hlog, henc⟩
    have heq := I.binding _ hlog x hmem rfl rfl henc
    exact ⟨congrArg Query.aad heq, congrArg Query.msg heq⟩
  · rintro ⟨rfl, rfl⟩
    exact ⟨hmem, rfl⟩

end Ideal

end Aead
