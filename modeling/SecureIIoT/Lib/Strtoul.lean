import Mathlib.Algebra.Group.Nat.Defs
import Mathlib.Data.List.TakeWhile

/-!
# `strtoul`

The conversion function of the C standard, in base 10 and in the "C" locale, on a string
without its terminator.  It skips white space, takes an optional sign and the longest run
of digits, and returns what is left of the string.  The value is negated in the unsigned
type if there is a minus sign, and is the largest one if the digits spell too large a
number; without digits nothing is converted, and the whole string is left.

A string of which nothing is left is a numeral: white space, sign and digits, which the
string determines (`Numeral.unique`).
-/

namespace Strtoul

/-! ## The conversion -/

/-- `isspace` -/
def isSpace (b : UInt8) : Bool :=
  b = 32 ∨ 9 ≤ b ∧ b ≤ 13

/-- `isdigit` -/
def isDigit (b : UInt8) : Bool :=
  48 ≤ b ∧ b ≤ 57

/-- The number that a string of digits spells. -/
def decimal (digits : List UInt8) : ℕ :=
  digits.foldl (fun v b ↦ v * 10 + (b.toNat - 48)) 0

/-- Is there a minus sign, and what follows an optional sign. -/
def splitSign : List UInt8 → Bool × List UInt8
  | [] => (false, [])
  | b :: s => if b = 43 then (false, s) else if b = 45 then (true, s) else (false, b :: s)

/-- The subject sequence: its sign and its digits, and what follows it. -/
def subject (s : List UInt8) : Bool × List UInt8 × List UInt8 :=
  let signed := splitSign (s.dropWhile isSpace)
  (signed.1, signed.2.takeWhile isDigit, signed.2.dropWhile isDigit)

/-- The value of a number in the unsigned type of the given width. -/
def toUnsigned (width : ℕ) (negative : Bool) (v : ℕ) : ℕ :=
  if 2 ^ width ≤ v then 2 ^ width - 1
  else if negative then (2 ^ width - v) % 2 ^ width else v

/-- The value, and what `*endptr` points to. -/
def strtoul (width : ℕ) (nptr : List UInt8) : ℕ × List UInt8 :=
  let (negative, digits, rest) := subject nptr
  if digits = [] then (0, nptr) else (toUnsigned width negative (decimal digits), rest)

/-! ## Numerals -/

/-- The signs, and whether they negate. -/
inductive Sign : Bool → List UInt8 → Prop
  | none : Sign false []
  | plus : Sign false [43]
  | minus : Sign true [45]

/-- Optional white space, an optional sign and at least one digit, which spell a number. -/
def Numeral (s : List UInt8) (negative : Bool) (v : ℕ) : Prop :=
  ∃ space sign digits, s = space ++ (sign ++ digits) ∧ (∀ b ∈ space, isSpace b = true) ∧
    Sign negative sign ∧ digits ≠ [] ∧ (∀ b ∈ digits, isDigit b = true) ∧ decimal digits = v

theorem isSpace_of_isDigit {b : UInt8} (h : isDigit b = true) : isSpace b = false := by
  simp only [isDigit, isSpace, decide_eq_true_eq, decide_eq_false_iff_not,
    ← UInt8.toNat_inj, UInt8.le_iff_toNat_le] at *
  have h48 : (48 : UInt8).toNat = 48 := rfl
  have h32 : (32 : UInt8).toNat = 32 := rfl
  have h13 : (13 : UInt8).toNat = 13 := rfl
  omega

/-- Splitting off a sign takes off just that. -/
theorem splitSign_spec (s : List UInt8) :
    ∃ sign, Sign (splitSign s).1 sign ∧ s = sign ++ (splitSign s).2 := by
  cases s with
  | nil => exact ⟨[], .none, rfl⟩
  | cons b s =>
    by_cases hplus : b = 43
    · subst hplus
      exact ⟨[43], .plus, rfl⟩
    · by_cases hminus : b = 45
      · subst hminus
        exact ⟨[45], .minus, rfl⟩
      · rw [splitSign, if_neg hplus, if_neg hminus]
        exact ⟨[], .none, rfl⟩

/-- A sign before a digit is split off. -/
theorem splitSign_append {negative : Bool} {sign digits : List UInt8} (hsign : Sign negative sign)
    (hne : digits ≠ []) (hdigits : ∀ b ∈ digits, isDigit b = true) :
    splitSign (sign ++ digits) = (negative, digits) := by
  cases hsign with
  | none =>
    cases digits with
    | nil => exact absurd rfl hne
    | cons b s =>
      have hb := hdigits b List.mem_cons_self
      have hplus : b ≠ 43 := by
        rintro rfl
        cases hb
      have hminus : b ≠ 45 := by
        rintro rfl
        cases hb
      rw [List.nil_append, splitSign, if_neg hplus, if_neg hminus]
  | plus => rfl
  | minus => rfl

/-- White space ends at a sign or a digit. -/
theorem dropWhile_isSpace {negative : Bool} {space sign digits : List UInt8}
    (hspace : ∀ b ∈ space, isSpace b = true) (hsign : Sign negative sign) (hne : digits ≠ [])
    (hdigits : ∀ b ∈ digits, isDigit b = true) :
    (space ++ (sign ++ digits)).dropWhile isSpace = sign ++ digits := by
  rw [List.dropWhile_append_of_pos hspace]
  cases hsign with
  | none =>
    cases digits with
    | nil => exact absurd rfl hne
    | cons b s =>
      have hb := isSpace_of_isDigit (hdigits b List.mem_cons_self)
      rw [List.nil_append, List.dropWhile_cons_of_neg (by simp [hb])]
  | plus => rfl
  | minus => rfl

/-- A numeral is a string whose subject sequence leaves nothing. -/
theorem numeral_iff {s : List UInt8} {negative : Bool} {v : ℕ} :
    Numeral s negative v ↔
      ∃ digits, subject s = (negative, digits, []) ∧ digits ≠ [] ∧ decimal digits = v := by
  constructor
  · rintro ⟨space, sign, digits, rfl, hspace, hsign, hne, hdigits, hv⟩
    refine ⟨digits, ?_, hne, hv⟩
    rw [subject, dropWhile_isSpace hspace hsign hne hdigits, splitSign_append hsign hne hdigits]
    rw [List.takeWhile_eq_self_iff.mpr hdigits, List.dropWhile_eq_nil_iff.mpr hdigits]
  · rintro ⟨digits, hsubject, hne, hv⟩
    obtain ⟨sign, hsign, hsplit⟩ := splitSign_spec (s.dropWhile isSpace)
    obtain ⟨hneg, hsubject⟩ := Prod.mk.inj hsubject
    obtain ⟨htake, hdrop⟩ := Prod.mk.inj hsubject
    have hdigits := List.takeWhile_append_dropWhile (p := isDigit)
      (l := (splitSign (s.dropWhile isSpace)).2)
    rw [htake, hdrop, List.append_nil] at hdigits
    rw [hneg] at hsign
    rw [← hdigits] at hsplit
    refine ⟨s.takeWhile isSpace, sign, digits, ?_, ?_, hsign, hne, ?_, hv⟩
    · rw [← hsplit, List.takeWhile_append_dropWhile]
    · exact fun b hb ↦ List.mem_takeWhile_imp hb
    · rw [← htake]
      exact fun b hb ↦ List.mem_takeWhile_imp hb

/-- A string is one numeral at most. -/
theorem Numeral.unique {s : List UInt8} {negative negative' : Bool} {v v' : ℕ}
    (h : Numeral s negative v) (h' : Numeral s negative' v') : negative = negative' ∧ v = v' := by
  obtain ⟨digits, hsubject, -, rfl⟩ := numeral_iff.mp h
  obtain ⟨digits', hsubject', -, rfl⟩ := numeral_iff.mp h'
  cases hsubject.symm.trans hsubject'
  exact ⟨rfl, rfl⟩

/-- Converting a whole string to a number other than zero. -/
theorem strtoul_whole_iff {width : ℕ} {s : List UInt8} {v : ℕ} (hv : v ≠ 0) :
    strtoul width s = (v, []) ↔
      ∃ negative n, Numeral s negative n ∧ toUnsigned width negative n = v := by
  rcases hsubject : subject s with ⟨negative, digits, rest⟩
  simp only [strtoul, hsubject]
  constructor
  · intro h
    by_cases hne : digits = []
    · rw [if_pos hne] at h
      exact absurd (Prod.mk.inj h).1.symm hv
    · rw [if_neg hne] at h
      obtain ⟨hvalue, rfl⟩ := Prod.mk.inj h
      exact ⟨negative, _, numeral_iff.mpr ⟨digits, hsubject, hne, rfl⟩, hvalue⟩
  · rintro ⟨negative', n, hnumeral, rfl⟩
    obtain ⟨digits', hsubject', hne, rfl⟩ := numeral_iff.mp hnumeral
    cases hsubject.symm.trans hsubject'
    exact if_neg hne

/-- What is left is the end of the string. -/
theorem strtoul_suffix (width : ℕ) (s : List UInt8) : (strtoul width s).2 <:+ s := by
  rw [strtoul]
  dsimp only
  split
  · exact List.suffix_rfl
  · obtain ⟨sign, -, hsplit⟩ := splitSign_spec (s.dropWhile isSpace)
    have hsigned : (splitSign (s.dropWhile isSpace)).2 <:+ s.dropWhile isSpace :=
      ⟨sign, hsplit.symm⟩
    exact ((List.dropWhile_suffix _).trans hsigned).trans (List.dropWhile_suffix _)

end Strtoul
