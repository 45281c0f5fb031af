import SecureIIoT.Mp.Bytes

/-!
# Numerals

`mp_read_radix` reads an optional minus sign and digits up to the end of the string or of the
line (`mpReadRadix_numeral`), and refuses every other string (`mpReadRadix_not_numeral`).  Its
digits are those of `mp_s_rmap` below the radix (`radixDigit_eq_some_iff`), as the reverse map
inverts it, and one more: the check of the position in the reverse map lets the one behind its
end pass, which is that of the character 128 if `char` is unsigned (`radixDigit_128_iff`).
-/

namespace SecureIIoT

namespace Mp

open Radix

open Nat (ofDigits)

/-! ## The operation -/

/-- How `char` is read: whether it is signed, and what stands behind the reverse map. -/
structure CharConfig where
  signed : Bool
  beyond : UInt8

variable (cfg : MpConfig) (chars : CharConfig)

/-- `mp_s_rmap` -/
def mpSRmap : List UInt8 :=
  [48, 49, 50, 51, 52, 53, 54, 55, 56, 57, 65, 66, 67, 68, 69, 70, 71, 72, 73, 74, 75, 76, 77, 78,
   79, 80, 81, 82, 83, 84, 85, 86, 87, 88, 89, 90, 97, 98, 99, 100, 101, 102, 103, 104, 105, 106,
   107, 108, 109, 110, 111, 112, 113, 114, 115, 116, 117, 118, 119, 120, 121, 122, 43, 47]

/-- `mp_s_rmap_reverse` -/
def mpSRmapReverse : List UInt8 :=
  [0xff, 0xff, 0xff, 0x3e, 0xff, 0xff, 0xff, 0x3f,
   0x00, 0x01, 0x02, 0x03, 0x04, 0x05, 0x06, 0x07,
   0x08, 0x09, 0xff, 0xff, 0xff, 0xff, 0xff, 0xff,
   0xff, 0x0a, 0x0b, 0x0c, 0x0d, 0x0e, 0x0f, 0x10,
   0x11, 0x12, 0x13, 0x14, 0x15, 0x16, 0x17, 0x18,
   0x19, 0x1a, 0x1b, 0x1c, 0x1d, 0x1e, 0x1f, 0x20,
   0x21, 0x22, 0x23, 0xff, 0xff, 0xff, 0xff, 0xff,
   0xff, 0x24, 0x25, 0x26, 0x27, 0x28, 0x29, 0x2a,
   0x2b, 0x2c, 0x2d, 0x2e, 0x2f, 0x30, 0x31, 0x32,
   0x33, 0x34, 0x35, 0x36, 0x37, 0x38, 0x39, 0x3a,
   0x3b, 0x3c, 0x3d, 0xff, 0xff, 0xff, 0xff, 0xff]

/-- `MP_TOUPPER` -/
def mpToupper (c : UInt8) : UInt8 :=
  if 97 ≤ c ∧ c ≤ 122 then c + 65 - 97 else c

/-- The position of a character in the reverse map, `(unsigned)(ch - '(')`. -/
def rmapPos (ch : UInt8) : ℕ :=
  let ch : ℤ := if chars.signed ∧ 128 ≤ ch then ch.toNat - 256 else ch.toNat
  ((ch - 40) % 2 ^ 32).toNat

/-- The entry of the reverse map for a character. -/
def rmapEntry (ch : UInt8) : UInt8 :=
  let pos := rmapPos chars ch
  if mpSRmapReverse.length < pos then 0xff
  else (mpSRmapReverse ++ [chars.beyond]).getD pos 0xff

/-- The digit that a character is in a radix. -/
def radixDigit (radix : ℕ) (c : UInt8) : Option ℕ :=
  let y := rmapEntry chars (if radix ≤ 36 then mpToupper c else c)
  if y = 0xff ∨ radix ≤ y.toNat then none else some y.toNat

/-- The loop of `mp_read_radix`, with what it leaves of the string. -/
def readRadixLoop (radix : ℕ) : List UInt8 → MpInt → List UInt8 × MpInt
  | [], a => ([], a)
  | c :: str, a =>
    match radixDigit chars radix c with
    | none => (c :: str, a)
    | some y =>
      let a := mpMulD cfg a radix a
      readRadixLoop radix str (mpAddD cfg a y a)

/-- The sign, and what follows it. -/
def readSign : List UInt8 → MpSign × List UInt8
  | [] => (.zpos, [])
  | c :: str => if c = 45 then (.neg, str) else (.zpos, c :: str)

/-- Does the string end here, or its line. -/
def endsHere : List UInt8 → Bool
  | [] => true
  | c :: _ => c = 13 ∨ c = 10

/-- `mp_read_radix`, on a string without its terminator. -/
def mpReadRadix (a : MpInt) (str : List UInt8) (radix : ℕ) : Except MpErr MpInt :=
  if radix < 2 ∨ 64 < radix then .error .val
  else
    let (sign, str) := readSign str
    let (str, a) := readRadixLoop cfg chars radix str (mpZero a)
    if endsHere str then .ok (if a.used = 0 then a else { a with sign := sign })
    else .error .val

variable {cfg} {chars} {a : MpInt} {radix y : ℕ} {c : UInt8} {str digits rest : List UInt8}
  {ys : List ℕ}

open MpInt

/-! ## Digits -/

/-- The digits: the characters of `mp_s_rmap`, in both cases up to the radix 36, and the one
whose entry stands behind the reverse map. -/
def IsDigit (chars : CharConfig) (radix : ℕ) (c : UInt8) (y : ℕ) : Prop :=
  y < radix ∧ (mpSRmap[y]? = some (if radix ≤ 36 then mpToupper c else c) ∨
    c = 128 ∧ chars.signed = false ∧ chars.beyond.toNat = y)

theorem rmapPos_eq (chars : CharConfig) (ch : UInt8) : rmapPos chars ch =
    if ch.toNat < 40 then 2 ^ 32 + ch.toNat - 40
    else if chars.signed = true ∧ 128 ≤ ch.toNat then 2 ^ 32 + ch.toNat - 296
    else ch.toNat - 40 := by
  have hlt := ch.toNat_lt
  have h128 : (128 : UInt8) ≤ ch ↔ 128 ≤ ch.toNat := UInt8.le_iff_toNat_le
  simp only [rmapPos, h128]
  split_ifs <;> omega

theorem rmapPos_eq_88_iff : rmapPos chars c = 88 ↔ c = 128 ∧ chars.signed = false := by
  have h128 : c = 128 ↔ c.toNat = 128 := UInt8.toNat_inj.symm
  have hlt := c.toNat_lt
  rw [rmapPos_eq, h128]
  cases chars.signed
  · simp only [Bool.false_eq_true, false_and, if_false, and_true]
    split_ifs <;> omega
  · simp only [true_and, Bool.true_eq_false, and_false, iff_false]
    split_ifs <;> omega

/-- Only for the character 128 does the reading of `char` matter. -/
theorem rmapPos_signed (h : rmapPos chars c ≠ 88) :
    rmapPos chars c = rmapPos ⟨true, 0⟩ c ∨
      88 < rmapPos chars c ∧ 88 < rmapPos ⟨true, 0⟩ c := by
  rw [rmapPos_eq] at h
  rw [rmapPos_eq, rmapPos_eq]
  cases hs : chars.signed
  · simp only [hs, Bool.false_eq_true, false_and, if_false, true_and] at h ⊢
    split_ifs at h ⊢ <;> omega
  · exact .inl rfl

theorem rmapEntry_eq (chars : CharConfig) (ch : UInt8) : rmapEntry chars ch =
    if ch = 128 ∧ chars.signed = false then chars.beyond else rmapEntry ⟨true, 0⟩ ch := by
  have hlength : mpSRmapReverse.length = 88 := rfl
  split
  · next hout =>
    have hpos := rmapPos_eq_88_iff.mpr hout
    simp only [rmapEntry, hpos]
    rfl
  · next hout =>
    have hpos := mt rmapPos_eq_88_iff.mp hout
    simp only [rmapEntry, hlength]
    rcases rmapPos_signed hpos with heq | ⟨hlt, hlt'⟩
    · rw [← heq]
      split_ifs
      · rfl
      · rw [List.getD_append _ _ _ _ (by omega), List.getD_append _ _ _ _ (by omega)]
    · rw [if_pos hlt, if_pos hlt']

theorem forall_byte {p : UInt8 → Prop} (h : ∀ n < 256, p (UInt8.ofNat n)) (c : UInt8) : p c := by
  have hc := h c.toNat c.toNat_lt
  rwa [UInt8.ofNat_toNat] at hc

/-- The reverse map inverts the map. -/
theorem mpSRmap_rmapEntry (ch : UInt8) (h : rmapEntry ⟨true, 0⟩ ch ≠ 0xff) :
    mpSRmap[(rmapEntry ⟨true, 0⟩ ch).toNat]? = some ch := by
  revert h
  exact forall_byte (p := fun ch ↦ rmapEntry ⟨true, 0⟩ ch ≠ 0xff →
    mpSRmap[(rmapEntry ⟨true, 0⟩ ch).toNat]? = some ch) (by decide +kernel) ch

theorem rmapEntry_mpSRmap {ch : UInt8} (h : mpSRmap[y]? = some ch) :
    rmapEntry ⟨true, 0⟩ ch = UInt8.ofNat y ∧ y < 64 ∧ ch ≠ 128 := by
  have hall : ∀ n < 64, rmapEntry ⟨true, 0⟩ (mpSRmap.getD n 0) = UInt8.ofNat n ∧
      mpSRmap.getD n 0 ≠ 128 := by
    decide +kernel
  obtain ⟨hy, rfl⟩ := List.getElem?_eq_some_iff.mp h
  have hlt : y < 64 := hy
  have hget := hall y hlt
  rw [List.getD_eq_getElem _ _ hy] at hget
  exact ⟨hget.1, hlt, hget.2⟩

theorem mpToupper_eq_128_iff : mpToupper c = 128 ↔ c = 128 :=
  forall_byte (p := fun c ↦ mpToupper c = 128 ↔ c = 128) (by decide +kernel) c

theorem radixDigit_eq_some_iff (hradix : radix ≤ 64) :
    radixDigit chars radix c = some y ↔ IsDigit chars radix c y := by
  have hfold : (if radix ≤ 36 then mpToupper c else c) = 128 ↔ c = 128 := by
    split
    · exact mpToupper_eq_128_iff
    · exact Iff.rfl
  rw [radixDigit, IsDigit, rmapEntry_eq]
  simp only [hfold]
  generalize (if radix ≤ 36 then mpToupper c else c) = ch at hfold
  by_cases hout : c = 128 ∧ chars.signed = false
  · have hmap : mpSRmap[y]? ≠ some ch := fun h ↦ (rmapEntry_mpSRmap h).2.2 (hfold.mpr hout.1)
    have h255 : chars.beyond = 0xff ↔ chars.beyond.toNat = 255 := UInt8.toNat_inj.symm
    simp only [hmap, hout, and_self, if_true, true_and, false_or, h255]
    split_ifs with h
    · simp only [false_iff]
      omega
    · rw [Option.some_inj]
      omega
  · simp only [← and_assoc, hout, if_false, false_and, or_false]
    split_ifs with h
    · simp only [false_iff, not_and]
      intro hy hmap
      obtain ⟨hentry, hlt, -⟩ := rmapEntry_mpSRmap hmap
      rw [hentry, ← UInt8.toNat_inj, UInt8.toNat_ofNat_of_lt' (hlt.trans (by decide))] at h
      have h255 : (255 : UInt8).toNat = 255 := rfl
      omega
    · obtain ⟨hne, hlt⟩ := not_or.mp h
      rw [Option.some_inj]
      constructor
      · rintro rfl
        exact ⟨not_le.mp hlt, mpSRmap_rmapEntry ch hne⟩
      · rintro ⟨-, hmap⟩
        obtain ⟨hentry, hy, -⟩ := rmapEntry_mpSRmap hmap
        rw [hentry, UInt8.toNat_ofNat_of_lt' (hy.trans (by decide))]

/-- The character behind the reverse map is a digit if `char` is unsigned, and what stands there is
below the radix. -/
theorem radixDigit_128_iff (hradix : radix ≤ 64) : radixDigit chars radix 128 = some y ↔
    y < radix ∧ chars.signed = false ∧ chars.beyond.toNat = y := by
  have hupper : (if radix ≤ 36 then mpToupper 128 else 128) = 128 := ite_self _
  have hmap : mpSRmap[y]? ≠ some 128 := fun h ↦ (rmapEntry_mpSRmap h).2.2 rfl
  rw [radixDigit_eq_some_iff hradix, IsDigit, hupper]
  simp only [hmap, false_or, true_and]

/-! ## Numerals -/

/-- The sign, the digits and what follows them: nothing, or the end of a line. -/
def Numeral (chars : CharConfig) (radix : ℕ) (str : List UInt8) (v : ℤ) : Prop :=
  ∃ (sign : MpSign) (digits rest : List UInt8) (ys : List ℕ),
    str = (if sign = .neg then [45] else []) ++ (digits ++ rest) ∧
    List.Forall₂ (IsDigit chars radix) digits ys ∧ (∀ c ∈ rest.head?, c = 13 ∨ c = 10) ∧
    v = sign.apply (ofDigits radix ys.reverse)

/-- Signs and ends of lines are not digits. -/
theorem not_isDigit (hc : c = 45 ∨ c = 13 ∨ c = 10) : ¬ IsDigit chars radix c y := by
  have hupper : mpToupper c = c ∧ c ≠ 128 ∧ c ∉ mpSRmap := by
    rcases hc with rfl | rfl | rfl <;> decide
  rintro ⟨-, hmap | ⟨h128, -⟩⟩
  · rw [hupper.1, ite_self] at hmap
    exact hupper.2.2 (List.mem_of_getElem? hmap)
  · exact hupper.2.1 h128

/-- A string is digits and what does not start with one. -/
theorem exists_digits (chars : CharConfig) (radix : ℕ) (str : List UInt8) :
    ∃ digits rest ys, str = digits ++ rest ∧
      List.Forall₂ (fun c y ↦ radixDigit chars radix c = some y) digits ys ∧
      ∀ c ∈ rest.head?, radixDigit chars radix c = none := by
  induction str with
  | nil => exact ⟨[], [], [], rfl, .nil, fun c h ↦ nomatch h⟩
  | cons c str ih =>
    cases hc : radixDigit chars radix c with
    | none =>
      refine ⟨[], c :: str, [], rfl, .nil, fun c' h ↦ ?_⟩
      obtain rfl : c = c' := Option.some_inj.mp h
      exact hc
    | some y =>
      obtain ⟨digits, rest, ys, rfl, hdigits, hrest⟩ := ih
      exact ⟨c :: digits, rest, y :: ys, rfl, .cons hc hdigits, hrest⟩

theorem radixDigit_lt (h : radixDigit chars radix c = some y) : y < radix := by
  rw [radixDigit] at h
  generalize (if radix ≤ 36 then mpToupper c else c) = ch at h
  split_ifs at h with hy
  obtain rfl := Option.some_inj.mp h
  exact not_le.mp (not_or.mp hy).2

/-- The loop reads the digits. -/
theorem readRadixLoop_append (hbase : radix < cfg.base)
    (hdigits : List.Forall₂ (fun c y ↦ radixDigit chars radix c = some y) digits ys)
    (hrest : ∀ c ∈ rest.head?, radixDigit chars radix c = none) {V : ℕ} (ha : a.Repr cfg (V : ℕ)) :
    ∃ b, readRadixLoop cfg chars radix (digits ++ rest) a = (rest, b) ∧
      b.Repr cfg (V * radix ^ ys.length + ofDigits radix ys.reverse : ℕ) := by
  induction hdigits generalizing a V with
  | nil =>
    refine ⟨a, ?_, ha.cast (by simp)⟩
    cases rest with
    | nil => rfl
    | cons c rest => simp only [List.nil_append, readRadixLoop, hrest c rfl]
  | @cons c y digits ys hc hdigits ih =>
    have hsign : a.sign = .zpos := by
      rw [ha.sign_eq, if_neg (by omega)]
    have hmul := mpMulD_repr ha.toValid ha.toValid hbase
    rw [hsign, MpSign.apply_zpos, ha.mag_natCast] at hmul
    have hadd := mpAddD_repr hmul hmul.toValid ((radixDigit_lt hc).trans hbase)
    obtain ⟨b, hloop, hb⟩ := ih (V := V * radix + y) (hadd.cast (by push_cast; rfl))
    refine ⟨b, ?_, hb.cast ?_⟩
    · simp only [List.cons_append, readRadixLoop, hc]
      exact hloop
    · rw [List.reverse_cons, Nat.ofDigits_append, Nat.ofDigits_singleton, List.length_reverse,
        List.length_cons, pow_succ]
      push_cast
      ring

/-- A sign for a number that is not negative. -/
theorem repr_signed {n : ℕ} (ha : a.Repr cfg (n : ℕ)) (s : MpSign) :
    (if a.used = 0 then a else { a with sign := s }).Repr cfg (s.apply n) := by
  split
  · next hused =>
    have hn : (n : ℤ) = 0 := ha.used_eq_zero_iff.mp hused
    obtain rfl : n = 0 := Nat.cast_eq_zero.mp hn
    exact ha.cast (MpSign.apply_zero s).symm
  · next hused =>
    exact ⟨⟨ha.toValid.withSign s, ha.top, fun h ↦ absurd h hused⟩,
      congrArg s.apply ha.mag_natCast⟩

theorem endsHere_iff : endsHere rest = true ↔ ∀ c ∈ rest.head?, c = 13 ∨ c = 10 := by
  cases rest with
  | nil => simp [endsHere]
  | cons c rest => simp [endsHere]

/-- What is read after the digits decides. -/
theorem mpReadRadix_split (ha : a.Valid cfg) (hradix : 2 ≤ radix) (hradix' : radix ≤ 64)
    (sign : MpSign)
    (hdigits : List.Forall₂ (fun c y ↦ radixDigit chars radix c = some y) digits ys)
    (hrest : ∀ c ∈ rest.head?, radixDigit chars radix c = none)
    (hsign : sign = .zpos → ∀ c ∈ (digits ++ rest).head?, c ≠ 45) :
    ∃ b : MpInt, b.Repr cfg (sign.apply (ofDigits radix ys.reverse)) ∧
      mpReadRadix cfg chars a ((if sign = .neg then [45] else []) ++ (digits ++ rest)) radix =
        if endsHere rest then .ok b else .error .val := by
  have hbase : radix < cfg.base := by
    have hpow : 2 ^ 8 ≤ cfg.base := Nat.pow_le_pow_right two_pos cfg.lt_digitBit.le
    omega
  obtain ⟨b, hloop, hb⟩ := readRadixLoop_append (V := 0) hbase hdigits hrest (mpZero_repr ha)
  rw [Nat.zero_mul, Nat.zero_add] at hb
  refine ⟨_, repr_signed hb sign, ?_⟩
  have hread : readSign ((if sign = .neg then [45] else []) ++ (digits ++ rest)) =
      (sign, digits ++ rest) := by
    cases sign with
    | zpos =>
      rw [if_neg (by decide), List.nil_append]
      cases hstr : digits ++ rest with
      | nil => rfl
      | cons c str =>
        rw [hstr] at hsign
        exact if_neg (hsign rfl c rfl)
    | neg => rfl
  rw [mpReadRadix, if_neg (by omega), hread]
  simp only [hloop]

/-- `mp_read_radix` accepts the numerals, and reads their numbers. -/
theorem mpReadRadix_numeral (ha : a.Valid cfg) (hradix : 2 ≤ radix) (hradix' : radix ≤ 64) {v : ℤ}
    (h : Numeral chars radix str v) :
    ∃ b, mpReadRadix cfg chars a str radix = .ok b ∧ b.Repr cfg v := by
  obtain ⟨sign, digits, rest, ys, rfl, hdigits, hrest, rfl⟩ := h
  have hnone : ∀ c ∈ rest.head?, radixDigit chars radix c = none := by
    intro c hc
    rw [Option.eq_none_iff_forall_ne_some]
    exact fun y hy ↦ not_isDigit (.inr (hrest c hc)) ((radixDigit_eq_some_iff hradix').mp hy)
  have hsign : sign = .zpos → ∀ c ∈ (digits ++ rest).head?, c ≠ 45 := by
    rintro - c hc rfl
    cases hdigits with
    | nil => exact absurd (hrest 45 hc) (by decide)
    | cons hd _ =>
      obtain rfl := Option.some_inj.mp hc
      exact not_isDigit (.inl rfl) hd
  obtain ⟨b, hb, hread⟩ := mpReadRadix_split ha hradix hradix' sign
    (hdigits.imp fun _ _ ↦ (radixDigit_eq_some_iff hradix').mpr) hnone hsign
  exact ⟨b, hread.trans (if_pos (endsHere_iff.mpr hrest)), hb⟩

/-- The digits of a number are read as the number, in either case. -/
theorem mpReadRadix_digits (ha : a.Valid cfg) (hradix : 2 ≤ radix) (hradix' : radix ≤ 36) {N : ℕ}
    (h : str.map mpToupper = (Nat.digits radix N).reverse.map (mpSRmap.getD · 0)) :
    ∃ b, mpReadRadix cfg chars a str radix = .ok b ∧ b.Repr cfg (N : ℕ) := by
  have hchars : List.Forall₂ (fun y c ↦ mpToupper c = mpSRmap.getD y 0)
      (Nat.digits radix N).reverse str := by
    rw [← List.forall₂_eq_eq_eq, List.forall₂_map_left_iff, List.forall₂_map_right_iff] at h
    exact h.flip
  have hlt : ∀ y ∈ (Nat.digits radix N).reverse, y < radix :=
    fun y hy ↦ Nat.digits_lt_base hradix (List.mem_reverse.mp hy)
  have hdigits : List.Forall₂ (IsDigit chars radix) str (Nat.digits radix N).reverse := by
    refine ((List.forall₂_and_left _ _).mpr ⟨hlt, hchars⟩).flip.imp fun c y hcy ↦ ⟨hcy.1, .inl ?_⟩
    have hmap : y < mpSRmap.length := hcy.1.trans_le (hradix'.trans (by decide))
    rw [if_pos hradix', hcy.2, List.getD_eq_getElem _ _ hmap, List.getElem?_eq_getElem hmap]
  refine mpReadRadix_numeral ha hradix (hradix'.trans (by decide))
    ⟨.zpos, str, [], (Nat.digits radix N).reverse, ?_, hdigits, (fun c hc ↦ nomatch hc), ?_⟩
  · rw [if_neg (by decide), List.nil_append, List.append_nil]
  · rw [List.reverse_reverse, Nat.ofDigits_digits, MpSign.apply_zpos]

/-- Every other string is refused. -/
theorem mpReadRadix_not_numeral (ha : a.Valid cfg) (hradix : 2 ≤ radix) (hradix' : radix ≤ 64)
    (h : ¬ ∃ v, Numeral chars radix str v) :
    mpReadRadix cfg chars a str radix = .error .val := by
  have hstr : ∃ (sign : MpSign) (s : List UInt8),
      str = (if sign = .neg then [45] else []) ++ s ∧ (sign = .zpos → ∀ c ∈ s.head?, c ≠ 45) := by
    by_cases hhead : str.head? = some 45
    · obtain ⟨s, rfl⟩ : ∃ s, str = 45 :: s := List.head?_eq_some_iff.mp hhead
      exact ⟨.neg, s, rfl, fun h ↦ nomatch h⟩
    · refine ⟨.zpos, str, rfl, fun _ c hc hc45 ↦ hhead ?_⟩
      rw [← hc45]
      exact hc
  obtain ⟨sign, s, rfl, hsign⟩ := hstr
  obtain ⟨digits, rest, ys, rfl, hdigits, hrest⟩ := exists_digits chars radix s
  obtain ⟨b, -, hread⟩ := mpReadRadix_split ha hradix hradix' sign hdigits hrest hsign
  rw [hread, if_neg]
  exact fun hend ↦ h ⟨_, sign, digits, rest, ys, rfl,
    hdigits.imp fun _ _ ↦ (radixDigit_eq_some_iff hradix').mp, endsHere_iff.mp hend, rfl⟩

end Mp

end SecureIIoT
