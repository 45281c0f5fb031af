import SecureIIoT.Host.Args

/-!
# Which counts the benchmarks accept

A count is meant to be a decimal numeral from 1 to `2 ^ 32 - 1`, with an optional plus
sign.  All of these are accepted for what they are, whatever the width of `unsigned long`.
Beyond them the parser accepts what `strtoul` makes a number of that range from
(`parseU32Arg_ok_iff`): a numeral with a minus sign close enough to the width, and, where
`unsigned long` has 32 bits, every numeral that is too large (`acceptsCounts_iff`).
-/

namespace SecureIIoT

open Strtoul Host

/-- An argument is accepted exactly as the numeral from 1 to `2 ^ 32 - 1` that it is. -/
def AcceptsCounts (result : Except ArgError UInt32) (arg : CString) : Prop :=
  ∀ v, result = .ok v ↔ 1 ≤ v.toNat ∧ Numeral arg.bytes false v.toNat

/-- A minus sign that makes a small number of the numeral after it. -/
def WrapsSmall (width : ℕ) (arg : CString) : Prop :=
  ∃ n, Numeral arg.bytes true n ∧ 0 < n ∧ n < 2 ^ width ∧ 2 ^ width - n < 2 ^ 32

/-- A numeral that a 32-bit `unsigned long` does not hold. -/
def Saturates (width : ℕ) (arg : CString) : Prop :=
  width = 32 ∧ ∃ negative n, Numeral arg.bytes negative n ∧ 2 ^ 32 ≤ n

section Parse

variable {width : ℕ} {arg : CString}

/-- There is no terminator within a string, so that a pointer to one is at its end. -/
theorem pointee_eq_zero_iff {rest : List UInt8} (h : rest <:+ arg.bytes) :
    pointee rest = 0 ↔ rest = [] := by
  cases rest with
  | nil => simp [pointee]
  | cons b rest =>
    have hb : b ≠ 0 := arg.noNul b (h.subset List.mem_cons_self)
    simp [pointee, hb]

/-- What is accepted: a numeral that `strtoul` takes for the count. -/
theorem parseU32Arg_ok_iff {name : String} {v : UInt32} :
    parseU32Arg width arg name = .ok v ↔ v.toNat ≠ 0 ∧
      ∃ negative n, Numeral arg.bytes negative n ∧ toUnsigned width negative n = v.toNat := by
  have hlt := v.toNat_lt
  rcases hconvert : strtoul width arg.bytes with ⟨value, rest⟩
  have hsuffix : rest <:+ arg.bytes := by
    simpa only [hconvert] using strtoul_suffix width arg.bytes
  simp only [parseU32Arg, hconvert]
  constructor
  · intro h
    split at h
    · cases h
    · next hvalid =>
      cases h
      simp only [not_or, ne_eq, not_not, not_lt] at hvalid
      obtain ⟨hend, hzero, hmax⟩ := hvalid
      have hcount : value < 2 ^ 32 := by omega
      have hvalue : (UInt32.ofNat value).toNat = value := UInt32.toNat_ofNat_of_lt' hcount
      rw [hvalue, ← strtoul_whole_iff hzero, hconvert, (pointee_eq_zero_iff hsuffix).mp hend]
      exact ⟨hzero, rfl⟩
  · rintro ⟨hzero, hnumeral⟩
    have hwhole := (strtoul_whole_iff hzero).mpr hnumeral
    obtain ⟨rfl, rfl⟩ := Prod.mk.inj (hconvert.symm.trans hwhole)
    have hvalid : ¬ (pointee [] ≠ 0 ∨ v.toNat = 0 ∨ 2 ^ 32 - 1 < v.toNat) := by
      simp only [pointee, List.headD_nil, not_or, not_lt, ne_eq, not_not, true_and]
      exact ⟨hzero, by omega⟩
    rw [if_neg hvalid, UInt32.ofNat_toNat]

/-- A numeral of the grammar is accepted, on either width. -/
theorem toUnsigned_of_lt {n : ℕ} (hn : n < 2 ^ width) : toUnsigned width false n = n := by
  rw [toUnsigned, if_neg (not_le.mpr hn)]
  rfl

/-- What the conversion of a numeral makes of it, if that is a count: the number itself, or
one of the two ways to slip through. -/
theorem toUnsigned_cases {negative : Bool} {n : ℕ} {v : UInt32} (hwidth : width = 32 ∨ width = 64)
    (hnumeral : Numeral arg.bytes negative n) (hzero : v.toNat ≠ 0)
    (h : toUnsigned width negative n = v.toNat) :
    (negative = false ∧ n = v.toNat) ∨ WrapsSmall width arg ∨ Saturates width arg := by
  have hv := v.toNat_lt
  by_cases hlarge : 2 ^ width ≤ n
  · rw [toUnsigned, if_pos hlarge] at h
    rcases hwidth with rfl | rfl
    · exact .inr (.inr ⟨rfl, negative, n, hnumeral, hlarge⟩)
    · omega
  · have hlt := not_le.mp hlarge
    cases negative with
    | false =>
      rw [toUnsigned_of_lt hlt] at h
      exact .inl ⟨rfl, h⟩
    | true =>
      rw [toUnsigned, if_neg hlarge, if_pos rfl] at h
      have hpos : 0 < n := by
        by_contra hn
        rw [Nat.eq_zero_of_not_pos hn, Nat.sub_zero, Nat.mod_self] at h
        exact hzero h.symm
      rw [Nat.mod_eq_of_lt (by omega)] at h
      exact .inr (.inl ⟨n, hnumeral, hpos, hlt, h ▸ hv⟩)

/-- A numeral that wraps is accepted. -/
theorem WrapsSmall.accepted (h : WrapsSmall width arg) (name : String) :
    ∃ n v, Numeral arg.bytes true n ∧ parseU32Arg width arg name = .ok v := by
  obtain ⟨n, hnumeral, hpos, hlt, hsmall⟩ := h
  have hv : (UInt32.ofNat (2 ^ width - n)).toNat = 2 ^ width - n :=
    UInt32.toNat_ofNat_of_lt' hsmall
  refine ⟨n, UInt32.ofNat (2 ^ width - n), hnumeral,
    parseU32Arg_ok_iff.mpr ⟨?_, true, n, hnumeral, ?_⟩⟩
  · omega
  · rw [hv, toUnsigned, if_neg (not_le.mpr hlt), if_pos rfl, Nat.mod_eq_of_lt (by omega)]

/-- A numeral that is too large for 32 bits is accepted as the largest. -/
theorem Saturates.accepted (h : Saturates width arg) (name : String) :
    ∃ negative n, Numeral arg.bytes negative n ∧ 2 ^ 32 ≤ n ∧
      parseU32Arg width arg name = .ok (UInt32.ofNat (2 ^ 32 - 1)) := by
  obtain ⟨rfl, negative, n, hnumeral, hlarge⟩ := h
  refine ⟨negative, n, hnumeral, hlarge,
    parseU32Arg_ok_iff.mpr ⟨by decide, negative, n, hnumeral, ?_⟩⟩
  rw [toUnsigned, if_pos hlarge]
  rfl

/-- The parser accepts exactly the counts if the argument slips through in neither way. -/
theorem parseU32Arg_accepts_iff (hwidth : width = 32 ∨ width = 64) (name : String) :
    AcceptsCounts (parseU32Arg width arg name) arg ↔
      ¬ WrapsSmall width arg ∧ ¬ Saturates width arg := by
  constructor
  · intro h
    constructor
    · intro hwraps
      obtain ⟨n, v, hnumeral, hok⟩ := hwraps.accepted name
      cases (hnumeral.unique ((h v).mp hok).2).1
    · intro hsaturates
      obtain ⟨negative, n, hnumeral, hlarge, hok⟩ := hsaturates.accepted name
      have hn := (hnumeral.unique ((h _).mp hok).2).2
      rw [UInt32.toNat_ofNat_of_lt' (by decide)] at hn
      omega
  · rintro ⟨hwraps, hsaturates⟩ v
    rw [parseU32Arg_ok_iff]
    constructor
    · rintro ⟨hzero, negative, n, hnumeral, hvalue⟩
      rcases toUnsigned_cases hwidth hnumeral hzero hvalue with ⟨rfl, rfl⟩ | hslips
      · exact ⟨Nat.one_le_iff_ne_zero.mpr hzero, hnumeral⟩
      · exact absurd hslips (not_or.mpr ⟨hwraps, hsaturates⟩)
    · rintro ⟨hpos, hnumeral⟩
      have hlt : v.toNat < 2 ^ width := by
        have hv := v.toNat_lt
        rcases hwidth with rfl | rfl
        · exact hv
        · omega
      exact ⟨Nat.one_le_iff_ne_zero.mp hpos, false, v.toNat, hnumeral, toUnsigned_of_lt hlt⟩

/-! ## Accepted command lines -/

theorem parseU32Arg_ne_zero {name : String} {v : UInt32} (h : parseU32Arg width arg name = .ok v) :
    v ≠ 0 := by
  rintro rfl
  exact (parseU32Arg_ok_iff.mp h).1 rfl

theorem parseIterations_ok {args : List CString} {iterations : UInt32}
    (h : parseIterations width args = .ok iterations) : iterations ≠ 0 := by
  match args with
  | [] =>
    cases h
    decide
  | [arg] => exact parseU32Arg_ne_zero h
  | _ :: _ :: _ => cases h

/-- A step that fails ends the parsing. -/
theorem argument_bind_eq_ok {α β : Type} {x : Except ArgError α} {f : α → Except ArgError β}
    {b : β} : (x >>= f) = .ok b ↔ ∃ a, x = .ok a ∧ f a = .ok b := by
  cases x with
  | error e => simp [bind, Except.bind]
  | ok a => simp [bind, Except.bind]

/-- The full benchmark runs with a positive count and a key size that it has. -/
theorem fullCryptoParseArgs_ok {args : List CString} {iterations keyBits : UInt32}
    (h : fullCryptoParseArgs width args = .ok (iterations, keyBits)) :
    iterations ≠ 0 ∧ (keyBits = 512 ∨ keyBits = 2048) := by
  match args with
  | [] =>
    cases h
    exact ⟨by decide, .inl rfl⟩
  | [arg] =>
    obtain ⟨v, hv, h⟩ := argument_bind_eq_ok.mp h
    cases h
    exact ⟨parseU32Arg_ne_zero hv, .inl rfl⟩
  | [arg, bits] =>
    obtain ⟨v, hv, h⟩ := argument_bind_eq_ok.mp h
    obtain ⟨k, -, h⟩ := argument_bind_eq_ok.mp h
    split at h
    · cases h
    · next hsupported =>
      cases h
      exact ⟨parseU32Arg_ne_zero hv, or_iff_not_and_not.mpr hsupported⟩
  | _ :: _ :: _ :: _ => cases h

/-- The Paillier benchmark runs with a positive count and 32 bits at least. -/
theorem paillierBenchParseArgs_ok {args : List CString} {bits iterations : UInt32}
    (h : paillierBenchParseArgs width args = .ok (bits, iterations)) :
    ¬ bits < 32 ∧ iterations ≠ 0 := by
  match args with
  | [] =>
    cases h
    decide
  | [_] => cases h
  | [arg, arg'] =>
    obtain ⟨k, -, h⟩ := argument_bind_eq_ok.mp h
    obtain ⟨v, hv, h⟩ := argument_bind_eq_ok.mp h
    split at h
    · cases h
    · next hsupported =>
      cases h
      exact ⟨hsupported, parseU32Arg_ne_zero hv⟩
  | _ :: _ :: _ :: _ => cases h

end Parse

/-! ## The parser against its grammar -/

/-- On either width of `unsigned long`, an argument is accepted exactly as the count that
it spells, unless it is a numeral with a minus sign that wraps to a count, or, on 32 bits,
a numeral from `2 ^ 32` on. -/
theorem acceptsCounts_iff {width : ℕ} (hwidth : width = 32 ∨ width = 64) (arg : CString)
    (name : String) :
    (AcceptsCounts (parseU32Arg width arg name) arg ↔
      ¬ WrapsSmall width arg ∧ ¬ Saturates width arg) ∧
    (AcceptsCounts (parseIterations width [arg]) arg ↔
      ¬ WrapsSmall width arg ∧ ¬ Saturates width arg) :=
  ⟨parseU32Arg_accepts_iff hwidth name, parseU32Arg_accepts_iff hwidth _⟩

/-- `" +30"` -/
def plusArg : CString :=
  ⟨[32, 43, 51, 48], by simp⟩

/-- `"-18446744073709551615"` -/
def minusArg : CString :=
  ⟨[45, 49, 56, 52, 52, 54, 55, 52, 52, 48, 55, 51, 55, 48, 57, 53, 53, 49, 54, 49, 53], by simp⟩

/-- `"4294967296"` -/
def largeArg : CString :=
  ⟨[52, 50, 57, 52, 57, 54, 55, 50, 57, 54], by simp⟩

/-- A numeral with a plus sign is accepted for what it is. -/
theorem acceptsCounts_iff_demo :
    AcceptsCounts (parseU32Arg 64 plusArg "iteration count") plusArg := by
  have hplus : Numeral plusArg.bytes false 30 :=
    numeral_iff.mpr ⟨[51, 48], by decide, by decide, by decide⟩
  refine (acceptsCounts_iff (.inr rfl) plusArg "iteration count").1.mpr ⟨?_, ?_⟩
  · rintro ⟨n, hnumeral, -⟩
    cases (hnumeral.unique hplus).1
  · rintro ⟨hwidth, -⟩
    cases hwidth

/-- On 64 bits the numeral `-(2 ^ 64 - 1)` is accepted as 1, and on 32 bits `2 ^ 32` as
`2 ^ 32 - 1`. -/
theorem acceptsCounts_fails_demo :
    (parseU32Arg 64 minusArg "iteration count" = .ok 1 ∧ ¬ ∃ n, Numeral minusArg.bytes false n) ∧
    (parseU32Arg 32 largeArg "iteration count" = .ok 4294967295 ∧
      ¬ Numeral largeArg.bytes false 4294967295) ∧
    ¬ AcceptsCounts (parseU32Arg 64 minusArg "iteration count") minusArg ∧
    ¬ AcceptsCounts (parseU32Arg 32 largeArg "iteration count") largeArg := by
  have hminus : Numeral minusArg.bytes true 18446744073709551615 :=
    numeral_iff.mpr ⟨_, rfl, by decide, by decide +kernel⟩
  have hlarge : Numeral largeArg.bytes false 4294967296 :=
    numeral_iff.mpr ⟨_, rfl, by decide, by decide +kernel⟩
  have hno : ¬ ∃ n, Numeral minusArg.bytes false n := by
    rintro ⟨n, hnumeral⟩
    cases (hnumeral.unique hminus).1
  have hother : ¬ Numeral largeArg.bytes false 4294967295 := by
    intro hnumeral
    cases (hnumeral.unique hlarge).2
  have hok : parseU32Arg 64 minusArg "iteration count" = .ok 1 := by decide +kernel
  have hok' : parseU32Arg 32 largeArg "iteration count" = .ok 4294967295 := by decide +kernel
  refine ⟨⟨hok, hno⟩, ⟨hok', hother⟩, fun h ↦ hno ⟨_, ((h 1).mp hok).2⟩, fun h ↦ hother ?_⟩
  exact ((h 4294967295).mp hok').2

end SecureIIoT
