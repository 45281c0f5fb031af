import SecureIIoT.Lib.Radix

/-!
# Integers of the library

The integers of `ta/libtommath`: a sign, and a buffer of digits of which the first `used`
count.  What the operations rely on is that no digit overflows its `MP_DIGIT_BIT` bits and
that the digits behind the used ones are zero (`MpInt.Valid`); what they return is besides
clamped (`MpInt.Canonical`).  An operation fills its destination with digits and clamps it,
and that is a canonical form of the number the digits stand for, whatever the destination
held before (`MpInt.repr_fill`).  A number has one canonical form (`MpInt.Repr.digits_eq`).

Lengths and counts of bits, `int` in the source, are numbers without a bound here, and so the
products of them that the source forms (`used * 2 * MP_DIGIT_BIT`) never overflow.  Allocation
failures are left out, and so is the build with `MP_8BIT`.
-/

namespace SecureIIoT

namespace Mp

open Radix

open Nat (ofDigits)

/-! ## Configurations -/

/-- The sizes a build of the library fixes: `MP_DIGIT_BIT`, and the bits of an `mp_digit`.  A
digit of `MP_8BIT` has seven. -/
structure MpConfig where
  digitBit : ℕ
  digitSize : ℕ
  lt_digitBit : 8 < digitBit
  digitBit_lt : digitBit < digitSize
  digitSize_le : digitSize ≤ 64

namespace MpConfig

/-- `MP_16BIT` -/
def mp16 : MpConfig := ⟨15, 16, by decide, by decide, by decide⟩

/-- `MP_28BIT` -/
def mp28 : MpConfig := ⟨28, 32, by decide, by decide, by decide⟩

/-- `MP_31BIT` -/
def mp31 : MpConfig := ⟨31, 32, by decide, by decide, by decide⟩

/-- `MP_64BIT` -/
def mp64 : MpConfig := ⟨60, 64, by decide, by decide, by decide⟩

variable (cfg : MpConfig)

/-- The bits of an `mp_word`. -/
def wordSize : ℕ := 2 * cfg.digitSize

/-- A digit is masked with `MP_MASK`, which is one less. -/
def base : ℕ := 2 ^ cfg.digitBit

/-- `MP_MAXFAST` -/
def maxfast : ℕ := 2 ^ (cfg.wordSize - 2 * cfg.digitBit)

/-- `MP_WARRAY` -/
def warray : ℕ := 2 ^ (cfg.wordSize - 2 * cfg.digitBit + 1)

/-- `MP_MIN_PREC` -/
def minPrec : ℕ := (64 + cfg.digitBit - 1) / cfg.digitBit

theorem base_pos : 0 < cfg.base := Nat.two_pow_pos _

theorem lt_base : 2 ^ 8 < cfg.base := Nat.pow_lt_pow_right one_lt_two cfg.lt_digitBit

theorem one_lt_base : 1 < cfg.base := (Nat.one_lt_two_pow (by decide)).trans cfg.lt_base

/-- A digit has a bit to spare. -/
theorem two_mul_base_le : 2 * cfg.base ≤ 2 ^ cfg.digitSize := by
  rw [base, ← pow_succ']
  exact Nat.pow_le_pow_right two_pos cfg.digitBit_lt

/-- Every buffer has room for two digits. -/
theorem two_le_minPrec : 2 ≤ cfg.minPrec := by
  have hpos := cfg.lt_digitBit
  have hlt := cfg.digitBit_lt
  have hle := cfg.digitSize_le
  rw [minPrec, Nat.le_div_iff_mul_le (by omega)]
  omega

theorem minPrec_pos : 0 < cfg.minPrec := cfg.two_le_minPrec.trans' one_le_two

/-- A word has room for `MP_MAXFAST` products of digits. -/
theorem maxfast_mul_base : cfg.maxfast * (cfg.base * cfg.base) = 2 ^ cfg.wordSize := by
  have hlt := cfg.digitBit_lt
  rw [maxfast, base, ← pow_add, ← pow_add, wordSize]
  congr 1
  omega

end MpConfig

/-! ## Integers -/

/-- `mp_sign` -/
inductive MpSign
  | zpos
  | neg
deriving DecidableEq

/-- The number of a sign and a magnitude. -/
def MpSign.apply : MpSign → ℕ → ℤ
  | .zpos, v => v
  | .neg, v => -v

@[simp] theorem MpSign.apply_zpos (v : ℕ) : MpSign.zpos.apply v = v := rfl

@[simp] theorem MpSign.apply_neg (v : ℕ) : MpSign.neg.apply v = -v := rfl

@[simp] theorem MpSign.apply_zero (s : MpSign) : s.apply 0 = 0 := by
  cases s <;> rfl

@[simp] theorem MpSign.natAbs_apply (s : MpSign) (v : ℕ) : (s.apply v).natAbs = v := by
  cases s with
  | zpos => exact Int.natAbs_natCast v
  | neg => rw [MpSign.apply_neg, Int.natAbs_neg, Int.natAbs_natCast]

/-- `mp_int`: the `alloc` digits of the buffer are in `dp`. -/
structure MpInt where
  sign : MpSign
  used : ℕ
  dp : List ℕ
deriving DecidableEq

namespace MpInt

/-- The digits that count. -/
def digits (a : MpInt) : List ℕ := a.dp.take a.used

variable (cfg : MpConfig)

/-- The magnitude. -/
def mag (a : MpInt) : ℕ := ofDigits cfg.base a.digits

def toInt (a : MpInt) : ℤ := a.sign.apply (a.mag cfg)

/-- A buffer as the operations need it. -/
structure Valid (a : MpInt) : Prop where
  prec_le : cfg.minPrec ≤ a.dp.length
  used_le : a.used ≤ a.dp.length
  digit_lt : ∀ d ∈ a.dp, d < cfg.base
  excess : ∀ d ∈ a.dp.drop a.used, d = 0

/-- An integer as the operations leave it: its highest digit is not zero, and zero is not
negative. -/
structure Canonical (a : MpInt) : Prop extends a.Valid cfg where
  top : ∀ n, a.used = n + 1 → a.dp.getD n 0 ≠ 0
  zero : a.used = 0 → a.sign = .zpos

/-- The canonical form of a number. -/
structure Repr (a : MpInt) (v : ℤ) : Prop extends a.Canonical cfg where
  toInt_eq : a.toInt cfg = v

variable {cfg} {a b c : MpInt} {v w : ℤ} {ds : List ℕ} {n : ℕ}

theorem Valid.length_digits (ha : a.Valid cfg) : a.digits.length = a.used :=
  List.length_take_of_le ha.used_le

theorem Valid.digits_lt (ha : a.Valid cfg) : ∀ d ∈ a.digits, d < cfg.base :=
  fun d hd ↦ ha.digit_lt d (List.mem_of_mem_take hd)

theorem Valid.mag_lt (ha : a.Valid cfg) : a.mag cfg < cfg.base ^ a.used :=
  ofDigits_take_lt cfg.one_lt_base ha.digit_lt a.used

/-- The whole buffer stands for the magnitude. -/
theorem Valid.ofDigits_dp (ha : a.Valid cfg) : ofDigits cfg.base a.dp = a.mag cfg := by
  rw [← ofDigits_take_add_drop a.dp a.used, ofDigits_eq_zero ha.excess, mul_zero, add_zero]
  rfl

/-- A digit behind the used ones is a zero. -/
theorem Valid.getD_eq_zero (ha : a.Valid cfg) (hn : a.used ≤ n) : a.dp.getD n 0 = 0 := by
  rcases lt_or_ge n a.dp.length with h | h
  · rw [List.getD_eq_getElem _ _ h]
    exact ha.excess _ (List.mem_drop_iff_getElem.mpr ⟨n - a.used, by omega, by grind⟩)
  · exact List.getD_eq_default _ _ h

/-- Reading within the used digits. -/
theorem getD_digits (ha : a.Valid cfg) (n : ℕ) : a.digits.getD n 0 = a.dp.getD n 0 := by
  rcases lt_or_ge n a.used with h | h
  · have hlen := ha.length_digits
    have hused := ha.used_le
    rw [List.getD_eq_getElem _ _ (by omega), List.getD_eq_getElem _ _ (by omega)]
    exact List.getElem_take
  · rw [ha.getD_eq_zero h, List.getD_eq_default _ _ (by rw [ha.length_digits]; exact h)]

/-- The highest digit holds the magnitude up. -/
theorem Canonical.pow_le_mag (ha : a.Canonical cfg) (hn : a.used = n + 1) :
    cfg.base ^ n ≤ a.mag cfg := by
  rw [mag, digits, hn]
  exact pow_le_ofDigits_take (ha.top n hn)

theorem Canonical.used_eq_zero_iff (ha : a.Canonical cfg) : a.used = 0 ↔ a.mag cfg = 0 := by
  refine ⟨fun h ↦ by rw [mag, digits, h]; rfl, fun h ↦ ?_⟩
  by_contra hne
  obtain ⟨n, hn⟩ := Nat.exists_eq_succ_of_ne_zero hne
  have hle := ha.pow_le_mag hn
  exact (Nat.pow_pos cfg.base_pos).ne' (Nat.le_zero.mp (h ▸ hle))

theorem Repr.cast (ha : a.Repr cfg v) (h : v = w) : a.Repr cfg w := h ▸ ha

theorem Repr.mag_eq (ha : a.Repr cfg v) : a.mag cfg = v.natAbs := by
  rw [← ha.toInt_eq, toInt, MpSign.natAbs_apply]

theorem Repr.used_eq_zero_iff (ha : a.Repr cfg v) : a.used = 0 ↔ v = 0 := by
  rw [ha.toCanonical.used_eq_zero_iff, ha.mag_eq, Int.natAbs_eq_zero]

theorem Repr.sign_eq (ha : a.Repr cfg v) : a.sign = if v < 0 then .neg else .zpos := by
  have hv := ha.toInt_eq
  rw [toInt] at hv
  cases hs : a.sign with
  | zpos => rw [hs, MpSign.apply_zpos] at hv; rw [if_neg (by omega)]
  | neg =>
    have hpos : a.mag cfg ≠ 0 := fun h ↦ by
      simpa [hs] using ha.zero (ha.toCanonical.used_eq_zero_iff.mpr h)
    rw [hs, MpSign.apply_neg] at hv
    rw [if_pos (by omega)]

theorem Repr.mag_natCast (ha : a.Repr cfg (n : ℕ)) : a.mag cfg = n := by
  rw [ha.mag_eq, Int.natAbs_natCast]

theorem Repr.ofDigits_digits (ha : a.Repr cfg (n : ℕ)) : ofDigits cfg.base a.digits = n :=
  ha.mag_natCast

theorem Repr.sign_natCast (ha : a.Repr cfg (n : ℕ)) : a.sign = .zpos := by
  rw [ha.sign_eq, if_neg (Int.natCast_nonneg n).not_gt]

/-- The digits of a number are those Mathlib gives it. -/
theorem Repr.digits_eq (ha : a.Repr cfg v) : a.digits = Nat.digits cfg.base v.natAbs := by
  rw [← ha.mag_eq, mag]
  refine (Nat.digits_ofDigits _ cfg.one_lt_base _ ha.digits_lt fun hne ↦ ?_).symm
  obtain ⟨n, hn⟩ := Nat.exists_eq_succ_of_ne_zero (n := a.used) fun h ↦ hne (by rw [digits, h]; rfl)
  have hlen := ha.length_digits
  rw [List.getLast_eq_getElem, ← List.getD_eq_getElem _ 0, getD_digits ha.toValid, hlen, hn]
  exact ha.top n hn

/-- Two forms of a number agree in what counts. -/
theorem Repr.used_eq (ha : a.Repr cfg v) (hb : b.Repr cfg v) : a.used = b.used := by
  rw [← ha.length_digits, ← hb.length_digits, ha.digits_eq, hb.digits_eq]

/-- A number has no more digits than a power of the base above it. -/
theorem Repr.used_le_of_lt (ha : a.Repr cfg v) (h : v.natAbs < cfg.base ^ n) : a.used ≤ n := by
  by_contra hlt
  obtain ⟨k, hk⟩ := Nat.exists_eq_add_one_of_ne_zero (Nat.ne_zero_of_lt (not_le.mp hlt))
  have hle := ha.toCanonical.pow_le_mag hk
  have hpow := Nat.pow_le_pow_right cfg.base_pos (by omega : n ≤ k)
  rw [ha.mag_eq] at hle
  omega

/-- A smaller number has no more digits. -/
theorem Repr.used_mono (ha : a.Repr cfg v) (hb : b.Repr cfg w) (h : v.natAbs ≤ w.natAbs) :
    a.used ≤ b.used :=
  ha.used_le_of_lt (h.trans_lt (hb.mag_eq ▸ hb.mag_lt))

/-! ## Filling a destination -/

/-- `mp_grow` -/
def grow (a : MpInt) (size : ℕ) : MpInt :=
  if a.dp.length < size then
    { a with dp := a.dp ++ List.replicate (size - a.dp.length) 0 }
  else a

/-- The digits of a result, and zeros up to the digits used before (`MP_ZERO_DIGITS`). -/
def store (c : MpInt) (ds : List ℕ) : MpInt :=
  { c with
    used := ds.length
    dp := ds ++ List.replicate (c.used - ds.length) 0 ++ c.dp.drop (max c.used ds.length) }

/-- The loop of `mp_clamp`. -/
def clampUsed (dp : List ℕ) : (used : ℕ) → ℕ
  | 0 => 0
  | used + 1 => if dp.getD used 0 = 0 then clampUsed dp used else used + 1

/-- `mp_clamp` -/
def clamp (a : MpInt) : MpInt :=
  let used := clampUsed a.dp a.used
  { a with used := used, sign := if used = 0 then .zpos else a.sign }

/-- How the operations write a result to their destination: room for `size` digits, the
digits, the sign, and `mp_clamp`. -/
def fill (c : MpInt) (size : ℕ) (sign : MpSign) (ds : List ℕ) : MpInt :=
  clamp { (c.grow size).store ds with sign := sign }

theorem dp_grow (a : MpInt) (size : ℕ) :
    (a.grow size).dp = a.dp ++ List.replicate (size - a.dp.length) 0 := by
  rw [grow]
  split
  · rfl
  · next h => rw [Nat.sub_eq_zero_of_le (not_lt.mp h), List.replicate_zero, List.append_nil]

@[simp] theorem used_grow (a : MpInt) (size : ℕ) : (a.grow size).used = a.used := by
  rw [grow]
  split <;> rfl

@[simp] theorem sign_grow (a : MpInt) (size : ℕ) : (a.grow size).sign = a.sign := by
  rw [grow]
  split <;> rfl

theorem le_length_grow (a : MpInt) (size : ℕ) : size ≤ (a.grow size).dp.length := by
  rw [dp_grow, List.length_append, List.length_replicate]
  omega

theorem Valid.grow (ha : a.Valid cfg) (size : ℕ) : (a.grow size).Valid cfg where
  prec_le := by
    rw [dp_grow, List.length_append]
    exact ha.prec_le.trans (Nat.le_add_right _ _)
  used_le := by
    rw [dp_grow, used_grow, List.length_append]
    exact ha.used_le.trans (Nat.le_add_right _ _)
  digit_lt := by
    rw [dp_grow, List.forall_mem_append]
    exact ⟨ha.digit_lt, fun d hd ↦ List.eq_of_mem_replicate hd ▸ cfg.base_pos⟩
  excess := by
    rw [dp_grow, used_grow, List.drop_append_of_le_length ha.used_le, List.forall_mem_append]
    exact ⟨ha.excess, fun d ↦ List.eq_of_mem_replicate⟩

theorem digits_store (c : MpInt) (ds : List ℕ) : (c.store ds).digits = ds := by
  rw [digits, store, List.append_assoc, List.take_left]

theorem Valid.store (hc : c.Valid cfg) (hds : ∀ d ∈ ds, d < cfg.base)
    (hlen : ds.length ≤ c.dp.length) : (c.store ds).Valid cfg where
  prec_le := by
    have hprec := hc.prec_le
    have hused := hc.used_le
    simp only [MpInt.store, List.length_append, List.length_replicate, List.length_drop]
    omega
  used_le := by
    simp only [MpInt.store, List.length_append]
    omega
  digit_lt := by
    simp only [MpInt.store, List.forall_mem_append]
    exact ⟨⟨hds, fun d hd ↦ List.eq_of_mem_replicate hd ▸ cfg.base_pos⟩,
      fun d hd ↦ hc.digit_lt d (List.mem_of_mem_drop hd)⟩
  excess := by
    simp only [MpInt.store, List.append_assoc, List.drop_left, List.forall_mem_append]
    refine ⟨fun d ↦ List.eq_of_mem_replicate, fun d hd ↦ hc.excess d ?_⟩
    have hdrop : c.dp.drop (max c.used ds.length) =
        (c.dp.drop c.used).drop (max c.used ds.length - c.used) := by
      rw [List.drop_drop, Nat.add_sub_cancel' (le_max_left _ _)]
    exact List.mem_of_mem_drop (hdrop ▸ hd)

theorem clampUsed_le (dp : List ℕ) (used : ℕ) : clampUsed dp used ≤ used := by
  induction used with
  | zero => exact le_rfl
  | succ used ih =>
    rw [clampUsed]
    split
    · exact ih.trans (Nat.le_succ used)
    · exact le_rfl

/-- The digits that are dropped are zeros. -/
theorem getD_of_clampUsed_le {dp : List ℕ} {used i : ℕ} (hle : clampUsed dp used ≤ i)
    (hlt : i < used) : dp.getD i 0 = 0 := by
  induction used with
  | zero => exact absurd hlt (Nat.not_lt_zero i)
  | succ used ih =>
    rw [clampUsed] at hle
    split at hle
    · next h =>
      rcases Nat.lt_succ_iff_lt_or_eq.mp hlt with hlt | rfl
      · exact ih hle hlt
      · exact h
    · exact absurd hlt hle.not_gt

theorem getD_clampUsed_ne {dp : List ℕ} {used n : ℕ} (h : clampUsed dp used = n + 1) :
    dp.getD n 0 ≠ 0 := by
  induction used with
  | zero => exact nomatch h
  | succ used ih =>
    rw [clampUsed] at h
    split at h
    · exact ih h
    · next hne =>
      obtain rfl : used = n := Nat.succ.inj h
      exact hne

theorem Valid.mag_clamp (ha : a.Valid cfg) : a.clamp.mag cfg = a.mag cfg := by
  have hle := clampUsed_le a.dp a.used
  have hzero : ∀ d ∈ a.digits.drop (clampUsed a.dp a.used), d = 0 := by
    intro d hd
    obtain ⟨i, hi, rfl⟩ := List.mem_drop_iff_getElem.mp hd
    have hlen := ha.length_digits
    rw [← List.getD_eq_getElem _ 0 (by omega), getD_digits ha]
    exact getD_of_clampUsed_le (Nat.le_add_right _ _) (by omega)
  have hdigits : a.clamp.digits = a.digits.take (clampUsed a.dp a.used) := by
    rw [digits, digits, List.take_take, Nat.min_eq_left hle]
    rfl
  rw [mag, mag, hdigits, ← ofDigits_take_add_drop a.digits (clampUsed a.dp a.used),
    ofDigits_eq_zero hzero, mul_zero, add_zero]

/-- Clamping keeps the number, and makes the form canonical. -/
theorem Valid.repr_clamp (ha : a.Valid cfg) : a.clamp.Repr cfg (a.toInt cfg) where
  prec_le := ha.prec_le
  used_le := (clampUsed_le a.dp a.used).trans ha.used_le
  digit_lt := ha.digit_lt
  excess d hd := by
    obtain ⟨i, hi, rfl⟩ := List.mem_drop_iff_getElem.mp hd
    rw [← List.getD_eq_getElem _ 0 (by omega)]
    rcases lt_or_ge (a.clamp.used + i) a.used with h | h
    · exact getD_of_clampUsed_le (Nat.le_add_right _ _) (by omega)
    · exact ha.getD_eq_zero (by omega)
  top n := getD_clampUsed_ne
  zero h := if_pos h
  toInt_eq := by
    have hmag := ha.mag_clamp
    rw [toInt, toInt, hmag]
    rcases eq_or_ne (clampUsed a.dp a.used) 0 with h | h
    · have hzero : a.mag cfg = 0 := by
        rw [← hmag, mag, digits]
        simp [clamp, h]
      rw [hzero, MpSign.apply_zero, MpSign.apply_zero]
    · simp [clamp, h]

/-- What an operation leaves in its destination. -/
theorem repr_fill (hc : c.Valid cfg) (hds : ∀ d ∈ ds, d < cfg.base) (hlen : ds.length ≤ n)
    (s : MpSign) : (c.fill n s ds).Repr cfg (s.apply (ofDigits cfg.base ds)) := by
  have hstore := (hc.grow n).store hds (hlen.trans (le_length_grow c n))
  have hvalid : Valid cfg { (c.grow n).store ds with sign := s } := ⟨hstore.prec_le,
    hstore.used_le, hstore.digit_lt, hstore.excess⟩
  have hvalue : toInt cfg { (c.grow n).store ds with sign := s } =
      s.apply (ofDigits cfg.base ds) :=
    congrArg (fun ds ↦ s.apply (ofDigits cfg.base ds)) (digits_store (c.grow n) ds)
  exact hvalue ▸ hvalid.repr_clamp

end MpInt

end Mp

end SecureIIoT
