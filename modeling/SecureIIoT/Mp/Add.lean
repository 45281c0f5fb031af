import SecureIIoT.Mp.Basic

/-!
# Comparison, addition and subtraction

`mp_cmp` compares numbers, and `mp_add`, `mp_sub`, `mp_add_d` and `mp_sub_d` return the
canonical form of the sum and of the difference.  The digit loops work on magnitudes: the
carry of an addition is one bit, and the borrow of a subtraction is the top bit of an
`mp_digit` that wraps around.  A loop reads the digits of an index before it writes the one
there, so a destination may be an argument.
-/

namespace SecureIIoT

namespace Mp

open Radix

open Nat (ofDigits)

variable (cfg : MpConfig)

/-! ## Copies and small values -/

/-- `mp_copy` to another integer. -/
def mpCopy (a b : MpInt) : MpInt :=
  { (b.grow a.used).store a.digits with sign := a.sign }

/-- `mp_abs` -/
def mpAbs (a b : MpInt) : MpInt :=
  { mpCopy a b with sign := .zpos }

/-- `mp_zero` -/
def mpZero (a : MpInt) : MpInt where
  sign := .zpos
  used := 0
  dp := List.replicate a.dp.length 0

/-- `mp_set` -/
def mpSet (a : MpInt) (b : ℕ) : MpInt where
  sign := .zpos
  used := if b % cfg.base ≠ 0 then 1 else 0
  dp := b % cfg.base :: List.replicate (a.dp.length - 1) 0

/-! ## Comparison -/

/-- `mp_cmp_mag` -/
def mpCmpMag (a b : MpInt) : Ordering :=
  if b.used < a.used then .gt
  else if a.used < b.used then .lt
  else compareDigits a.dp b.dp a.used

/-- `mp_cmp` -/
def mpCmp (a b : MpInt) : Ordering :=
  if a.sign ≠ b.sign then if a.sign = .neg then .lt else .gt
  else if a.sign = .neg then mpCmpMag b a
  else mpCmpMag a b

/-- `mp_cmp_d` -/
def mpCmpD (a : MpInt) (b : ℕ) : Ordering :=
  if a.sign = .neg then .lt
  else if 1 < a.used then .gt
  else if b < a.dp.getD 0 0 then .gt
  else if a.dp.getD 0 0 < b then .lt
  else .eq

/-! ## Magnitudes -/

/-- `A[i] + B[i]`, with the digits of the longer number at the end. -/
def addColumns : List ℕ → List ℕ → List ℕ
  | [], ys => ys
  | xs, [] => xs
  | x :: xs, y :: ys => (x + y) :: addColumns xs ys

/-- The loops of `s_mp_add`, and the last carry. -/
def addDigits (u : ℕ) (cols : List ℕ) : List ℕ :=
  let out := wordCarry cfg.base (2 ^ cfg.digitSize) (2 ^ cfg.digitSize) u cols
  out.1 ++ [out.2]

/-- The loops of `s_mp_sub`. -/
def subDigits (u : ℕ) (xs ys : List ℕ) : List ℕ :=
  (wordBorrow cfg.base (2 ^ cfg.digitSize) u xs ys).1

/-- `s_mp_add` -/
def sMpAdd (a b c : MpInt) : MpInt :=
  c.fill (max a.used b.used + 1) c.sign (addDigits cfg 0 (addColumns a.digits b.digits))

/-- `s_mp_sub` -/
def sMpSub (a b c : MpInt) : MpInt :=
  c.fill a.used c.sign (subDigits cfg 0 a.digits b.digits)

/-! ## Numbers -/

/-- `mp_add` -/
def mpAdd (a b c : MpInt) : MpInt :=
  if a.sign = b.sign then sMpAdd cfg a b { c with sign := a.sign }
  else if mpCmpMag a b = .lt then sMpSub cfg b a { c with sign := b.sign }
  else sMpSub cfg a b { c with sign := a.sign }

/-- `mp_sub` -/
def mpSub (a b c : MpInt) : MpInt :=
  if a.sign ≠ b.sign then sMpAdd cfg a b { c with sign := a.sign }
  else if mpCmpMag a b ≠ .lt then sMpSub cfg a b { c with sign := a.sign }
  else sMpSub cfg b a { c with sign := if a.sign = .zpos then .neg else .zpos }

/-- `mp_add_d` of a number that is not negative. -/
def addDPos (a : MpInt) (b : ℕ) (c : MpInt) : MpInt :=
  c.fill (a.used + 1) .zpos (addDigits cfg b a.digits)

/-- `mp_sub_d` from a number that is not negative. -/
def subDPos (a : MpInt) (b : ℕ) (c : MpInt) : MpInt :=
  if a.used = 1 ∧ a.dp.getD 0 0 ≤ b ∨ a.used = 0 then
    c.fill (a.used + 1) .neg [if a.used = 1 then b - a.dp.getD 0 0 else b]
  else c.fill (a.used + 1) .zpos (subDigits cfg b a.digits [])

/-- `mp_add_d` -/
def mpAddD (a : MpInt) (b : ℕ) (c : MpInt) : MpInt :=
  if a.sign = .neg ∧ (1 < a.used ∨ b ≤ a.dp.getD 0 0) then
    ({ subDPos cfg { a with sign := .zpos } b c with sign := .neg } : MpInt).clamp
  else if a.sign = .zpos then addDPos cfg a b c
  else c.fill (a.used + 1) .zpos [if a.used = 1 then b - a.dp.getD 0 0 else b]

/-- `mp_sub_d` -/
def mpSubD (a : MpInt) (b : ℕ) (c : MpInt) : MpInt :=
  if a.sign = .neg then
    ({ addDPos cfg { a with sign := .zpos } b c with sign := .neg } : MpInt).clamp
  else subDPos cfg a b c

/-! ## What they compute -/

variable {cfg} {a b c : MpInt} {v w : ℤ} {d : ℕ}

open MpInt

theorem MpInt.Repr.copy (ha : a.Repr cfg v) (hb : b.Valid cfg) : (mpCopy a b).Repr cfg v := by
  have hlen := ha.length_digits
  have hstore := (hb.grow a.used).store ha.digits_lt (hlen.le.trans (le_length_grow b a.used))
  have hdigits : (mpCopy a b).digits = a.digits := digits_store _ _
  have hused : (mpCopy a b).used = a.used := hlen
  have hvalid : (mpCopy a b).Valid cfg :=
    ⟨hstore.prec_le, hstore.used_le, hstore.digit_lt, hstore.excess⟩
  refine ⟨⟨hvalid, fun n hn ↦ ?_, fun h ↦ ha.zero (hused ▸ h)⟩, ?_⟩
  · rw [← getD_digits hvalid, hdigits, getD_digits ha.toValid]
    exact ha.top n (hused ▸ hn)
  · rw [toInt, mag, hdigits]
    exact ha.toInt_eq

/-- The other sign of a form. -/
theorem MpInt.Canonical.repr_pos (ha : a.Canonical cfg) :
    ({ a with sign := .zpos } : MpInt).Repr cfg (a.mag cfg) where
  prec_le := ha.prec_le
  used_le := ha.used_le
  digit_lt := ha.digit_lt
  excess := ha.excess
  top := ha.top
  zero _ := rfl
  toInt_eq := rfl

theorem MpInt.Repr.abs (ha : a.Repr cfg v) (hb : b.Valid cfg) : (mpAbs a b).Repr cfg |v| := by
  have hcopy := ha.copy hb
  have habs := hcopy.toCanonical.repr_pos
  rwa [hcopy.mag_eq, ← Int.abs_eq_natAbs] at habs

/-- A sign may be changed before an operation. -/
theorem MpInt.Valid.withSign (hc : c.Valid cfg) (s : MpSign) :
    ({ c with sign := s } : MpInt).Valid cfg :=
  ⟨hc.prec_le, hc.used_le, hc.digit_lt, hc.excess⟩

/-- A number of one digit. -/
theorem MpInt.repr_singleton {a : MpInt} (ha : a.Valid cfg)
    (hdp : a.dp.getD 0 0 = d) (hused : a.used = if d ≠ 0 then 1 else 0) (hsign : a.sign = .zpos) :
    a.Repr cfg d := by
  refine ⟨⟨ha, fun n hn ↦ ?_, fun _ ↦ hsign⟩, ?_⟩
  · rw [hused] at hn
    split at hn
    · next hne =>
      obtain rfl : 0 = n := Nat.succ.inj hn
      rwa [hdp]
    · exact nomatch hn
  · have hmag := ofDigits_take_succ (B := cfg.base) a.dp 0
    rw [toInt, hsign, MpSign.apply_zpos, mag, digits, hused]
    split
    · rw [hmag, hdp]; simp
    · next h => rw [not_not.mp h]; simp

theorem mpZero_repr (ha : a.Valid cfg) : (mpZero a).Repr cfg 0 := by
  have hvalid : (mpZero a).Valid cfg := ⟨by simpa [mpZero] using ha.prec_le, Nat.zero_le _,
    fun _ h ↦ List.eq_of_mem_replicate h ▸ cfg.base_pos, fun d ↦ List.eq_of_mem_replicate⟩
  have hdp : (mpZero a).dp.getD 0 0 = 0 := hvalid.getD_eq_zero le_rfl
  exact_mod_cast repr_singleton hvalid hdp rfl rfl

theorem mpSet_repr (ha : a.Valid cfg) (hd : d < cfg.base) : (mpSet cfg a d).Repr cfg d := by
  have hlen : (mpSet cfg a d).dp.length = a.dp.length := by
    have hpos := cfg.minPrec_pos.trans_le ha.prec_le
    simp only [mpSet, List.length_cons, List.length_replicate]
    omega
  have hpos := cfg.minPrec_pos.trans_le ha.prec_le
  have hmod := Nat.mod_eq_of_lt hd
  refine repr_singleton ⟨hlen ▸ ha.prec_le, ?_, ?_, ?_⟩ hmod (by rw [mpSet, hmod]) rfl
  · rw [hlen, mpSet]
    split
    · exact hpos
    · exact Nat.zero_le _
  · exact List.forall_mem_cons.mpr ⟨Nat.mod_lt _ cfg.base_pos,
      fun _ h ↦ List.eq_of_mem_replicate h ▸ cfg.base_pos⟩
  · simp only [mpSet]
    split
    · exact fun d ↦ List.eq_of_mem_replicate
    · next h => exact List.forall_mem_cons.mpr ⟨not_not.mp h, fun d ↦ List.eq_of_mem_replicate⟩

/-- The comparison of magnitudes. -/
theorem mpCmpMag_eq (ha : a.Canonical cfg) (hb : b.Canonical cfg) :
    mpCmpMag a b = compare (a.mag cfg) (b.mag cfg) := by
  -- more digits are a larger number
  have hless {a b : MpInt} (ha : a.Canonical cfg) (hb : b.Canonical cfg) (h : a.used < b.used) :
      a.mag cfg < b.mag cfg := by
    obtain ⟨n, hn⟩ := Nat.exists_eq_succ_of_ne_zero (Nat.ne_zero_of_lt h)
    calc a.mag cfg < cfg.base ^ a.used := ha.mag_lt
      _ ≤ cfg.base ^ n := Nat.pow_le_pow_right cfg.base_pos (by omega)
      _ ≤ b.mag cfg := hb.pow_le_mag hn
  rw [mpCmpMag]
  rcases lt_trichotomy a.used b.used with h | h | h
  · rw [if_neg h.le.not_gt, if_pos h, eq_comm, compare_lt_iff_lt]
    exact hless ha hb h
  · rw [if_neg (h ▸ lt_irrefl _), if_neg (h ▸ lt_irrefl _),
      compareDigits_eq cfg.one_lt_base ha.digit_lt hb.digit_lt, mag, mag, digits, digits, h]
  · rw [if_pos h, eq_comm, compare_gt_iff_gt]
    exact hless hb ha h

theorem mpCmpMag_lt_iff (ha : a.Canonical cfg) (hb : b.Canonical cfg) :
    mpCmpMag a b = .lt ↔ a.mag cfg < b.mag cfg := by
  rw [mpCmpMag_eq ha hb, compare_lt_iff_lt]

/-- `mp_cmp` compares the numbers. -/
theorem mpCmp_eq (ha : a.Repr cfg v) (hb : b.Repr cfg w) : mpCmp a b = compare v w := by
  have hsa := ha.sign_eq
  have hsb := hb.sign_eq
  rw [mpCmp, hsa, hsb, mpCmpMag_eq ha.toCanonical hb.toCanonical,
    mpCmpMag_eq hb.toCanonical ha.toCanonical, ha.mag_eq, hb.mag_eq]
  simp only [compare, compareOfLessAndEq]
  grind

theorem mpCmpD_eq (ha : a.Repr cfg v) (hd : d < cfg.base) : mpCmpD a d = compare v d := by
  have hsign := ha.sign_eq
  have hmag := ha.mag_eq
  have hfirst := ofDigits_take_succ (B := cfg.base) a.dp 0
  rw [List.take_zero, Nat.ofDigits_nil, pow_zero, one_mul, zero_add] at hfirst
  have hvalue : a.used ≤ 1 → a.mag cfg = a.dp.getD 0 0 := by
    intro hle
    rcases Nat.le_one_iff_eq_zero_or_eq_one.mp hle with h | h
    · rw [ha.getD_eq_zero h.le, ha.toCanonical.used_eq_zero_iff.mp h]
    · rw [mag, digits, h, hfirst, zero_add]
  have hlarge : 1 < a.used → d < a.mag cfg := by
    intro hlt
    obtain ⟨n, hn⟩ := Nat.exists_eq_succ_of_ne_zero (Nat.ne_zero_of_lt hlt)
    exact hd.trans_le ((Nat.le_self_pow (by omega) _).trans (ha.toCanonical.pow_le_mag hn))
  rw [mpCmpD, hsign]
  simp only [compare, compareOfLessAndEq]
  grind

@[simp] theorem addColumns_nil (xs : List ℕ) : addColumns xs [] = xs := by
  cases xs <;> rfl

theorem ofDigits_addColumns (B : ℕ) (xs ys : List ℕ) :
    ofDigits B (addColumns xs ys) = ofDigits B xs + ofDigits B ys := by
  induction xs generalizing ys with
  | nil => rw [addColumns, Nat.ofDigits_nil, zero_add]
  | cons x xs ih =>
    cases ys with
    | nil => rw [addColumns_nil, Nat.ofDigits_nil, add_zero]
    | cons y ys =>
      rw [addColumns, Nat.ofDigits_cons, Nat.ofDigits_cons, Nat.ofDigits_cons, ih]
      ring

theorem length_addColumns (xs ys : List ℕ) :
    (addColumns xs ys).length = max xs.length ys.length := by
  induction xs generalizing ys with
  | nil => rw [addColumns, List.length_nil, Nat.zero_max]
  | cons x xs ih =>
    cases ys with
    | nil => rw [addColumns_nil, List.length_nil, Nat.max_zero]
    | cons y ys => rw [addColumns, List.length_cons, ih, List.length_cons, List.length_cons,
        Nat.succ_max_succ]

theorem addColumns_le {xs ys : List ℕ} {m : ℕ} (hxs : ∀ x ∈ xs, x ≤ m) (hys : ∀ y ∈ ys, y ≤ m) :
    ∀ col ∈ addColumns xs ys, col ≤ 2 * m := by
  induction xs generalizing ys with
  | nil => exact fun y hy ↦ (hys y hy).trans (Nat.le_mul_of_pos_left m two_pos)
  | cons x xs ih =>
    cases ys with
    | nil => exact fun x hx ↦ (hxs x (by simpa using hx)).trans (Nat.le_mul_of_pos_left m two_pos)
    | cons y ys =>
      obtain ⟨hx, hxs⟩ := List.forall_mem_cons.mp hxs
      obtain ⟨hy, hys⟩ := List.forall_mem_cons.mp hys
      exact List.forall_mem_cons.mpr ⟨by omega, ih hxs hys⟩

/-- The sum of columns and a carry that leave room in an `mp_digit`. -/
theorem addDigits_spec (cfg : MpConfig) {u C U : ℕ} {cols : List ℕ}
    (hroom : C + U < (U + 1) * cfg.base) (hword : C + U < 2 ^ cfg.digitSize) (hU : U < cfg.base)
    (hcols : ∀ col ∈ cols, col ≤ C) (hu : u ≤ U) :
    ofDigits cfg.base (addDigits cfg u cols) = u + ofDigits cfg.base cols ∧
      (addDigits cfg u cols).length = cols.length + 1 ∧
      ∀ d ∈ addDigits cfg u cols, d < cfg.base := by
  have hsum := ofDigits_carryDigits (B := cfg.base) u cols
  have hout := carryOut_le hroom hcols hu
  rw [addDigits, wordCarry_eq hroom hword (by omega) hcols hu]
  refine ⟨?_, by simp, List.forall_mem_append.mpr ⟨carryDigits_lt cfg.base_pos u cols, ?_⟩⟩
  · rw [Nat.ofDigits_append, length_carryDigits, Nat.ofDigits_singleton, hsum]
  · exact List.forall_mem_singleton.mpr (hout.trans_lt hU)

/-- The difference of digits, of which the first is not the smaller. -/
theorem subDigits_spec {xs ys : List ℕ} (hxs : ∀ x ∈ xs, x < cfg.base)
    (hys : ∀ y ∈ ys, y < cfg.base) (hlen : ys.length ≤ xs.length)
    (hle : ofDigits cfg.base ys ≤ ofDigits cfg.base xs) :
    ofDigits cfg.base (subDigits cfg 0 xs ys) = ofDigits cfg.base xs - ofDigits cfg.base ys ∧
      (subDigits cfg 0 xs ys).length = xs.length ∧ ∀ d ∈ subDigits cfg 0 xs ys, d < cfg.base := by
  have hsize : 2 ^ cfg.digitSize = 2 * 2 ^ (cfg.digitSize - 1) := by
    rw [← pow_succ', Nat.sub_add_cancel (Nat.one_le_of_lt cfg.digitBit_lt)]
  have hdvd : cfg.base ∣ 2 ^ (cfg.digitSize - 1) :=
    pow_dvd_pow 2 (Nat.le_sub_one_of_lt cfg.digitBit_lt)
  obtain ⟨hvalue, hlength, hlt, hborrow⟩ := ofDigits_wordBorrow hxs hys hlen zero_le_one
    cfg.base_pos hdvd (Nat.two_pow_pos _)
  rw [subDigits, hsize]
  refine ⟨?_, hlength, hlt⟩
  have hbound := Nat.ofDigits_lt_base_pow_length cfg.one_lt_base hlt
  rw [hlength] at hbound
  -- a borrow that is left would make the difference too large
  rcases Nat.le_one_iff_eq_zero_or_eq_one.mp hborrow with h | h
  · rw [h, mul_zero] at hvalue
    omega
  · rw [h, mul_one] at hvalue
    omega

/-- A digit to subtract is a borrow into the lowest difference. -/
theorem subDigits_digit (x b : ℕ) (xs : List ℕ) :
    subDigits cfg b (x :: xs) [] = subDigits cfg 0 (x :: xs) [b] := by
  have hpos := Nat.two_pow_pos cfg.digitSize
  rw [subDigits, subDigits, wordBorrow, wordBorrow, Nat.sub_zero, Nat.add_mod_right]

theorem sMpAdd_repr (ha : a.Valid cfg) (hb : b.Valid cfg) (hc : c.Valid cfg) :
    (sMpAdd cfg a b c).Repr cfg (c.sign.apply (a.mag cfg + b.mag cfg)) := by
  have hbase := cfg.lt_base
  have hcols := addColumns_le (m := cfg.base - 1)
    (fun x hx ↦ Nat.le_sub_one_of_lt (ha.digits_lt x hx))
    (fun y hy ↦ Nat.le_sub_one_of_lt (hb.digits_lt y hy))
  obtain ⟨hvalue, hlen, hlt⟩ := addDigits_spec cfg (U := 1) (by omega)
    (by have := cfg.two_mul_base_le; omega) cfg.one_lt_base hcols zero_le_one
  have hfill := repr_fill hc hlt (n := max a.used b.used + 1)
    (by rw [hlen, length_addColumns, ha.length_digits, hb.length_digits]) c.sign
  rwa [hvalue, zero_add, ofDigits_addColumns] at hfill

theorem sMpSub_repr (ha : a.Canonical cfg) (hb : b.Canonical cfg) (hc : c.Valid cfg)
    (hle : b.mag cfg ≤ a.mag cfg) :
    (sMpSub cfg a b c).Repr cfg (c.sign.apply (a.mag cfg - b.mag cfg)) := by
  have hused : b.digits.length ≤ a.digits.length := by
    rw [ha.length_digits, hb.length_digits]
    by_contra hlt
    rw [not_le] at hlt
    have hcmp := mpCmpMag_eq ha hb
    rw [mpCmpMag, if_neg hlt.le.not_gt, if_pos hlt, eq_comm, compare_lt_iff_lt] at hcmp
    exact absurd hcmp hle.not_gt
  obtain ⟨hvalue, hlen, hlt⟩ := subDigits_spec ha.digits_lt hb.digits_lt hused hle
  have hfill := repr_fill hc hlt (hlen.le.trans ha.length_digits.le) c.sign
  rwa [hvalue] at hfill

/-! ## Sums and differences -/

/-- Sums and differences of natural numbers. -/
theorem sMpAdd_natCast {m n : ℕ} (ha : a.Repr cfg (m : ℕ)) (hb : b.Repr cfg (n : ℕ))
    (hc : c.Valid cfg) (hsign : c.sign = .zpos) :
    (sMpAdd cfg a b c).Repr cfg (m + n : ℕ) := by
  have hadd := sMpAdd_repr ha.toValid hb.toValid hc
  rwa [hsign, ha.mag_natCast, hb.mag_natCast] at hadd

theorem sMpSub_natCast {m n : ℕ} (ha : a.Repr cfg (m : ℕ)) (hb : b.Repr cfg (n : ℕ))
    (hc : c.Valid cfg) (hsign : c.sign = .zpos) (hle : n ≤ m) :
    (sMpSub cfg a b c).Repr cfg (m - n : ℕ) := by
  have hsub := sMpSub_repr ha.toCanonical hb.toCanonical hc
    (by rwa [ha.mag_natCast, hb.mag_natCast])
  rwa [hsign, ha.mag_natCast, hb.mag_natCast] at hsub

theorem mpCmpMag_lt_iff_natCast {m n : ℕ} (ha : a.Repr cfg (m : ℕ)) (hb : b.Repr cfg (n : ℕ)) :
    mpCmpMag a b = .lt ↔ m < n := by
  rw [mpCmpMag_lt_iff ha.toCanonical hb.toCanonical, ha.mag_natCast, hb.mag_natCast]

/-- `mp_add` adds, whatever its destination held. -/
theorem mpAdd_repr (ha : a.Repr cfg v) (hb : b.Repr cfg w) (hc : c.Valid cfg) :
    (mpAdd cfg a b c).Repr cfg (v + w) := by
  have hv := ha.toInt_eq
  have hw := hb.toInt_eq
  have hcmp := mpCmpMag_lt_iff ha.toCanonical hb.toCanonical
  rw [toInt] at hv hw
  rw [mpAdd]
  split
  · next hsign =>
    convert sMpAdd_repr ha.toValid hb.toValid (hc.withSign a.sign) using 1
    rw [← hv, ← hw, hsign]
    cases b.sign
    · simp
    · simp only [MpSign.apply_neg]; push_cast; ring
  · next hsign =>
    split
    · next hlt =>
      rw [hcmp] at hlt
      convert sMpSub_repr hb.toCanonical ha.toCanonical (hc.withSign b.sign) hlt.le using 1
      rw [← hv, ← hw]
      cases hsa : a.sign <;> cases hsb : b.sign <;> simp_all <;> omega
    · next hlt =>
      rw [hcmp, not_lt] at hlt
      convert sMpSub_repr ha.toCanonical hb.toCanonical (hc.withSign a.sign) hlt using 1
      rw [← hv, ← hw]
      cases hsa : a.sign <;> cases hsb : b.sign <;> simp_all <;> omega

theorem mpSub_repr (ha : a.Repr cfg v) (hb : b.Repr cfg w) (hc : c.Valid cfg) :
    (mpSub cfg a b c).Repr cfg (v - w) := by
  have hv := ha.toInt_eq
  have hw := hb.toInt_eq
  have hcmp := mpCmpMag_lt_iff ha.toCanonical hb.toCanonical
  rw [toInt] at hv hw
  rw [mpSub]
  split
  · next hsign =>
    convert sMpAdd_repr ha.toValid hb.toValid (hc.withSign a.sign) using 1
    rw [← hv, ← hw]
    cases hsa : a.sign <;> cases hsb : b.sign <;> simp_all <;> omega
  · next hsign =>
    rw [not_not] at hsign
    split
    · next hle =>
      rw [ne_eq, hcmp, not_lt] at hle
      convert sMpSub_repr ha.toCanonical hb.toCanonical (hc.withSign a.sign) hle using 1
      rw [← hv, ← hw, ← hsign]
      cases a.sign <;> simp <;> omega
    · next hlt =>
      rw [ne_eq, not_not, hcmp] at hlt
      convert sMpSub_repr hb.toCanonical ha.toCanonical (hc.withSign _) hlt.le using 1
      rw [← hv, ← hw, ← hsign]
      cases a.sign <;> simp <;> omega

/-- The lowest digit of a number of at most one digit is the number. -/
theorem MpInt.Repr.getD_zero (ha : a.Repr cfg v) (hused : a.used ≤ 1) :
    a.dp.getD 0 0 = v.natAbs := by
  have hfirst := ofDigits_take_succ (B := cfg.base) a.dp 0
  rw [List.take_zero, Nat.ofDigits_nil, pow_zero, one_mul, zero_add, zero_add] at hfirst
  rw [← ha.mag_eq]
  rcases Nat.le_one_iff_eq_zero_or_eq_one.mp hused with h | h
  · rw [ha.getD_eq_zero h.le, ha.toCanonical.used_eq_zero_iff.mp h]
  · rw [mag, digits, h, hfirst]

/-- More digits are a number beyond every digit. -/
theorem MpInt.Repr.lt_natAbs (ha : a.Repr cfg v) (hused : 1 < a.used) (hd : d < cfg.base) :
    d < v.natAbs := by
  obtain ⟨n, hn⟩ := Nat.exists_eq_succ_of_ne_zero (Nat.ne_zero_of_lt hused)
  rw [← ha.mag_eq]
  exact hd.trans_le ((Nat.le_self_pow (by omega) _).trans (ha.toCanonical.pow_le_mag hn))

/-- `mp_add_d` to a number that is not negative. -/
theorem addDPos_repr (ha : a.Valid cfg) (hc : c.Valid cfg) (hd : d < cfg.base) :
    (addDPos cfg a d c).Repr cfg (a.mag cfg + d) := by
  have hbase := cfg.two_mul_base_le
  have hone := cfg.one_lt_base
  have hsquare := Nat.mul_le_mul_right cfg.base hone
  obtain ⟨hvalue, hlen, hlt⟩ := addDigits_spec cfg (C := cfg.base - 1) (U := cfg.base - 1)
    (by rw [Nat.sub_add_cancel hone.le]; omega) (by omega) (by omega)
    (fun x hx ↦ Nat.le_sub_one_of_lt (ha.digits_lt x hx)) (Nat.le_sub_one_of_lt hd)
  have hfill := repr_fill hc hlt (n := a.used + 1) (by rw [hlen, ha.length_digits]) .zpos
  rw [hvalue, Nat.add_comm d] at hfill
  exact_mod_cast hfill

/-- `mp_sub_d` from a number that is not negative. -/
theorem subDPos_repr (ha : a.Repr cfg v) (hv : 0 ≤ v) (hc : c.Valid cfg) (hd : d < cfg.base) :
    (subDPos cfg a d c).Repr cfg (v - d) := by
  rw [subDPos]
  split
  · next hsmall =>
    have hfirst := ha.getD_zero (by omega)
    have hzero := ha.used_eq_zero_iff
    convert repr_fill hc (List.forall_mem_singleton.mpr ?_) (n := a.used + 1) (by simp) .neg
      using 1
    · rw [Nat.ofDigits_singleton, MpSign.apply_neg]
      split <;> omega
    · split <;> omega
  · next hlarge =>
    have hused : a.used ≠ 0 := fun h ↦ hlarge (.inr h)
    have hle : d ≤ a.mag cfg := by
      rw [ha.mag_eq]
      rcases Nat.lt_or_ge 1 a.used with h | h
      · exact (ha.lt_natAbs h hd).le
      · have hfirst := ha.getD_zero h
        omega
    obtain ⟨x, xs, hcons⟩ := List.exists_cons_of_length_pos
      (ha.length_digits ▸ Nat.pos_of_ne_zero hused)
    obtain ⟨hvalue, hlen, hlt⟩ := subDigits_spec ha.digits_lt
      (List.forall_mem_singleton.mpr hd) (by simp [hcons])
      (by rwa [Nat.ofDigits_singleton])
    rw [hcons, subDigits_digit, ← hcons]
    convert repr_fill hc hlt (n := a.used + 1) (by rw [hlen, ha.length_digits]; omega) .zpos
      using 1
    have hmag : ofDigits cfg.base a.digits = v.natAbs := ha.mag_eq
    rw [ha.mag_eq] at hle
    rw [hvalue, Nat.ofDigits_singleton, MpSign.apply_zpos, hmag, Nat.cast_sub hle,
      Int.natAbs_of_nonneg hv]

/-- `mp_add_d` adds a digit. -/
theorem mpAddD_repr (ha : a.Repr cfg v) (hc : c.Valid cfg) (hd : d < cfg.base) :
    (mpAddD cfg a d c).Repr cfg (v + d) := by
  have hsign := ha.sign_eq
  have hpos := ha.toCanonical.repr_pos
  rw [ha.mag_eq] at hpos
  rw [mpAddD]
  split
  · next hcond =>
    have hneg : v < 0 := by
      by_contra hv
      rw [if_neg hv] at hsign
      exact absurd hcond.1 (by rw [hsign]; decide)
    have hle : (d : ℤ) ≤ v.natAbs := by
      rcases Nat.lt_or_ge 1 a.used with h | h
      · exact_mod_cast (ha.lt_natAbs h hd).le
      · have hfirst := ha.getD_zero h
        have hcond := hcond.2
        omega
    have hsub := subDPos_repr hpos (Int.natCast_nonneg _) hc hd
    convert (hsub.toValid.withSign .neg).repr_clamp using 1
    have hmag := hsub.mag_eq
    rw [toInt, MpSign.apply_neg]
    change v + d = -(mag cfg (subDPos cfg { a with sign := .zpos } d c) : ℤ)
    omega
  · next hcond =>
    split
    · next hz =>
      have hv : 0 ≤ v := by
        by_contra hlt
        rw [if_pos (not_le.mp hlt)] at hsign
        exact absurd hz (by rw [hsign]; decide)
      have hadd := addDPos_repr ha.toValid hc hd
      rwa [ha.mag_eq, Int.natAbs_of_nonneg hv] at hadd
    · next hz =>
      have hv : v < 0 := by
        by_contra hlt
        exact hz (by rw [hsign, if_neg hlt])
      have hzero := ha.used_eq_zero_iff
      rw [hsign, if_pos hv] at hcond
      have hfirst := ha.getD_zero (by grind)
      convert repr_fill hc (List.forall_mem_singleton.mpr ?_) (n := a.used + 1) (by simp) .zpos
        using 1
      · rw [Nat.ofDigits_singleton, MpSign.apply_zpos]
        grind
      · grind

/-- `mp_sub_d` subtracts a digit. -/
theorem mpSubD_repr (ha : a.Repr cfg v) (hc : c.Valid cfg) (hd : d < cfg.base) :
    (mpSubD cfg a d c).Repr cfg (v - d) := by
  have hsign := ha.sign_eq
  rw [mpSubD]
  split
  · next hneg =>
    have hv : v < 0 := by
      by_contra hv
      rw [if_neg hv] at hsign
      exact absurd hneg (by rw [hsign]; decide)
    have hadd := addDPos_repr (a := { a with sign := .zpos }) (ha.toValid.withSign _) hc hd
    convert (hadd.toValid.withSign .neg).repr_clamp using 1
    have hmag := hadd.mag_eq
    have hself : mag cfg { a with sign := .zpos } = v.natAbs := ha.mag_eq
    rw [toInt, MpSign.apply_neg]
    change v - d = -(mag cfg (addDPos cfg { a with sign := .zpos } d c) : ℤ)
    omega
  · next hneg =>
    refine subDPos_repr ha ?_ hc hd
    by_contra hv
    exact hneg (by rw [hsign, if_pos (not_le.mp hv)])

end Mp

end SecureIIoT
