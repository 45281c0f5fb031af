import SecureIIoT.Mp.Exptmod

/-!
# Bytes and words

How numbers come into the library and leave it.  `mp_from_ubin` reads big-endian bytes and
`mp_to_ubin` writes as many as the number needs, and each undoes the other but for the zero
bytes in front (`mpFromUbin_repr`, `mpToUbin_eq`).  While it reads, `mp_from_ubin` uses a digit
more than it has, and there is always room for it (`Reading`).  `mp_set_u32` and
`mp_get_mag_u32` do the same for a word of 32 bits.
-/

namespace SecureIIoT

namespace Mp

open Radix ByteString

open Nat (ofDigits)

variable (cfg : MpConfig)

/-! ## The operations -/

/-- The loop of `mp_from_ubin`. -/
def fromUbinStep (a : MpInt) (byte : UInt8) : MpInt :=
  let a := mpMul2d cfg a 8 a
  { a with used := a.used + 1, dp := a.dp.set 0 (a.dp.getD 0 0 ||| byte.toNat) }

/-- `mp_from_ubin` -/
def mpFromUbin (a : MpInt) (buf : List UInt8) : MpInt :=
  let a := if a.dp.length < 2 then a.grow 2 else a
  (buf.foldl (fromUbinStep cfg) (mpZero a)).clamp

/-- `mp_ubin_size` -/
def mpUbinSize (a : MpInt) : ℕ :=
  let size := mpCountBits cfg a
  size / 8 + if size &&& 7 ≠ 0 then 1 else 0

/-- The loop of `mp_to_ubin`, which writes the last byte first. -/
def toUbinLoop : (x : ℕ) → (t : MpInt) → List UInt8
  | 0, _ => []
  | x + 1, t => toUbinLoop x (mpDiv2d cfg t 8 t) ++ [UInt8.ofNat (t.dp.getD 0 0 &&& 255)]

/-- `mp_to_ubin`: the bytes it writes at the front of its buffer, all of which it counts. -/
def mpToUbin (a : MpInt) (maxlen : ℕ) : Except MpErr (List UInt8) :=
  let count := mpUbinSize cfg a
  if maxlen < count then .error .buf else .ok (toUbinLoop cfg count (mpInitCopy cfg a))

/-- The loop of `mp_set_u32`. -/
def setDigits : (fuel b : ℕ) → List ℕ
  | 0, _ => []
  | fuel + 1, b =>
    if b = 0 then []
    else if 32 ≤ cfg.digitBit then [b % cfg.base]
    else b % cfg.base :: setDigits fuel (b / cfg.base)

/-- `mp_set_u32` -/
def mpSetU32 (a : MpInt) (b : UInt32) : MpInt :=
  let ds := setDigits cfg 32 b.toNat
  ⟨.zpos, ds.length, ds ++ List.replicate (a.dp.length - ds.length) 0⟩

/-- The loop of `mp_get_mag_u32`. -/
def getMagLoop (dp : List ℕ) : (i res : ℕ) → ℕ
  | 0, res => res
  | i + 1, res =>
    let res := (if 32 ≤ cfg.digitBit then res else res * cfg.base % 2 ^ 32) ||| dp.getD i 0 % 2 ^ 32
    if 32 ≤ cfg.digitBit then res else getMagLoop dp i res

/-- `mp_get_mag_u32` -/
def mpGetMagU32 (a : MpInt) : UInt32 :=
  UInt32.ofNat
    (getMagLoop cfg a.dp (min a.used ((32 + cfg.digitBit - 1) / cfg.digitBit)) 0)

/-- `mp_get_u32`, the word of `mp_get_i32`. -/
def mpGetU32 (a : MpInt) : UInt32 :=
  if a.sign = .neg then -mpGetMagU32 cfg a else mpGetMagU32 cfg a

variable {cfg} {a c t : MpInt} {v : ℤ} {N V : ℕ}

open MpInt

/-! ## Reading bytes -/

/-- Eight bits more, also for a number that is not clamped. -/
theorem mpMul2d_byte (ha : a.Valid cfg) :
    (mpMul2d cfg a 8 a).Repr cfg (a.sign.apply (a.mag cfg * 2 ^ 8)) ∧
      a.dp.length ≤ (mpMul2d cfg a 8 a).dp.length ∧
      a.used + 1 ≤ (mpMul2d cfg a 8 a).dp.length := by
  have hbit := cfg.lt_digitBit
  have hlen := ha.length_digits
  have hused := ha.used_le
  have hcopy : (mpCopy a a).Valid cfg :=
    ((ha.grow a.used).store ha.digits_lt (hlen.le.trans (le_length_grow a a.used))).withSign a.sign
  have hdigits : (mpCopy a a).digits = a.digits := digits_store _ _
  have hcopied : (mpCopy a a).used = a.used := hlen
  have hsame : (mpCopy a a).dp.length = a.dp.length := by
    simp only [mpCopy, store, grow, if_neg hused.not_gt, List.length_append,
      List.length_replicate, List.length_drop, hlen]
    omega
  have hvalid := hcopy.grow ((mpCopy a a).used + 8 / cfg.digitBit + 1)
  have hroom := le_length_grow (mpCopy a a) ((mpCopy a a).used + 8 / cfg.digitBit + 1)
  have hmore : (mpCopy a a).dp.length ≤
      ((mpCopy a a).grow ((mpCopy a a).used + 8 / cfg.digitBit + 1)).dp.length := by
    rw [dp_grow, List.length_append]
    exact Nat.le_add_right _ _
  have hgused := used_grow (mpCopy a a) ((mpCopy a a).used + 8 / cfg.digitBit + 1)
  have hgsign := sign_grow (mpCopy a a) ((mpCopy a a).used + 8 / cfg.digitBit + 1)
  have hgdigits : ((mpCopy a a).grow ((mpCopy a a).used + 8 / cfg.digitBit + 1)).digits =
      a.digits := by
    rw [digits, hgused, dp_grow, List.take_append_of_le_length hcopy.used_le]
    exact hdigits
  rw [mpMul2d]
  generalize (mpCopy a a).grow ((mpCopy a a).used + 8 / cfg.digitBit + 1) = g at *
  rw [Nat.div_eq_of_lt hbit] at hroom
  simp only [if_neg hbit.not_ge, Nat.mod_eq_of_lt hbit, hgdigits]
  rw [if_pos (by decide)]
  obtain ⟨hvalue, hlong, hlt, hshort⟩ := shiftDigits_spec ha.digits_lt hbit
  have hrepr := repr_clamp_store hvalid hlt (by omega)
  rw [hvalue, hgsign] at hrepr
  have hstored : (g.store (shiftDigits cfg 8 a.digits)).clamp.dp.length = g.dp.length := by
    have := hvalid.used_le
    simp only [clamp, store, List.length_append, List.length_replicate, List.length_drop]
    omega
  exact ⟨hrepr, by omega, by omega⟩

/-- What holds while bytes are read: the highest digit is one that is not needed, unless it is
the only one and holds a byte. -/
structure Reading (cfg : MpConfig) (a : MpInt) (V : ℕ) : Prop extends a.Valid cfg where
  sign_eq : a.sign = .zpos
  mag_eq : a.mag cfg = V
  room : a.used ≤ 1 ∧ V < 2 ^ 8 ∨ ∃ k, a.used = k + 2 ∧ V < cfg.base ^ (k + 1)

/-- A digit is a number of bytes and some bits, which go in front of a byte. -/
theorem base_eq_byte_mul (cfg : MpConfig) : ∃ q, cfg.base = 2 ^ 8 * q := by
  refine ⟨2 ^ (cfg.digitBit - 8), ?_⟩
  rw [MpConfig.base, ← pow_add, Nat.add_sub_cancel' cfg.lt_digitBit.le]

/-- Small digits come with more of them. -/
theorem three_le_minPrec (h : cfg.base < 2 ^ 16) : 3 ≤ cfg.minPrec := by
  have hlt := (Nat.pow_lt_pow_iff_right one_lt_two).mp h
  have hpos := cfg.lt_digitBit
  rw [MpConfig.minPrec, Nat.le_div_iff_mul_le (by omega)]
  omega

/-- There is room for the digit that is used up to now. -/
theorem Reading.used_succ_le (ha : Reading cfg a V) (hc : c.Repr cfg (V * 2 ^ 8 : ℕ))
    (hroom : a.used + 1 ≤ c.dp.length) : c.used + 1 ≤ c.dp.length := by
  have hbase := cfg.lt_base
  have hprec := hc.prec_le
  have htwo := cfg.two_le_minPrec
  rcases ha.room with ⟨hused, hV⟩ | ⟨k, hused, hV⟩
  · have hle : c.used ≤ 2 := hc.used_le_of_lt (by
      rw [Int.natAbs_natCast]
      calc V * 2 ^ 8 < 2 ^ 8 * 2 ^ 8 := Nat.mul_lt_mul_of_pos_right hV (by decide)
        _ ≤ cfg.base * cfg.base := Nat.mul_le_mul hbase.le hbase.le
        _ = cfg.base ^ 2 := (pow_two _).symm)
    rcases Nat.lt_or_eq_of_le hle with hlt | heq
    · omega
    · have hpow := hc.toCanonical.pow_le_mag heq
      rw [hc.mag_natCast, pow_one] at hpow
      have hthree := three_le_minPrec (by omega : cfg.base < 2 ^ 16)
      omega
  · have hle : c.used ≤ k + 2 := hc.used_le_of_lt (by
      rw [Int.natAbs_natCast, pow_succ cfg.base (k + 1)]
      exact Nat.mul_lt_mul'' hV hbase)
    omega

theorem fromUbinStep_reading (ha : Reading cfg a V) (byte : UInt8) :
    Reading cfg (fromUbinStep cfg a byte) (V * 256 + byte.toNat) := by
  obtain ⟨hrepr, -, hroom⟩ := mpMul2d_byte ha.toValid
  have hbyte := byte.toNat_lt
  rw [ha.sign_eq, ha.mag_eq, MpSign.apply_zpos] at hrepr
  have hused := ha.used_succ_le hrepr hroom
  rw [fromUbinStep]
  generalize mpMul2d cfg a 8 a = c at *
  obtain ⟨q, hq⟩ := base_eq_byte_mul cfg
  have hqpos : 0 < q := Nat.pos_of_ne_zero fun h ↦ by
    have := cfg.base_pos
    rw [hq, h] at this
    omega
  -- the byte goes to bits that are zero
  have hlow : c.dp.getD 0 0 = 2 ^ 8 * (V % q) := by
    rw [getD_eq_div_mod hrepr.digit_lt 0, hrepr.ofDigits_dp, hrepr.mag_natCast, pow_zero,
      Nat.div_one, hq, mul_comm V, Nat.mul_mod_mul_left]
  have hor : c.dp.getD 0 0 ||| byte.toNat = c.dp.getD 0 0 + byte.toNat := by
    rw [hlow]
    exact (Nat.two_pow_add_eq_or_of_lt hbyte _).symm
  have hlt : c.dp.getD 0 0 + byte.toNat < cfg.base := by
    have := Nat.mod_lt V hqpos
    rw [hlow, hq]
    omega
  simp only [hor]
  have hvalid : Valid cfg
      { c with used := c.used + 1, dp := c.dp.set 0 (c.dp.getD 0 0 + byte.toNat) } := by
    refine ⟨by rw [List.length_set]; exact hrepr.prec_le, by rw [List.length_set]; exact hused,
      forall_mem_set hrepr.digit_lt hlt, fun d hd ↦ hrepr.excess d ?_⟩
    have hdrop : c.dp.drop (c.used + 1) = (c.dp.drop c.used).drop 1 := List.drop_drop.symm
    rw [List.drop_set_of_lt (Nat.succ_pos _), hdrop] at hd
    exact List.mem_of_mem_drop hd
  have hmag := hvalid.ofDigits_dp
  have hset := ofDigits_set_add (B := cfg.base) (by omega : 0 < c.dp.length)
    (c.dp.getD 0 0 + byte.toNat)
  have hold := hrepr.ofDigits_dp
  rw [hrepr.mag_natCast] at hold
  refine ⟨hvalid, hrepr.sign_natCast, ?_, ?_⟩
  · rw [hold, pow_zero, one_mul, one_mul] at hset
    have hvalue : ofDigits cfg.base (c.dp.set 0 (c.dp.getD 0 0 + byte.toNat)) =
        V * 256 + byte.toNat := by omega
    exact hmag.symm.trans hvalue
  · rcases Nat.eq_zero_or_pos c.used with hzero | hpos
    · have hV : V * 2 ^ 8 = 0 := by exact_mod_cast hrepr.used_eq_zero_iff.mp hzero
      exact .inl ⟨by rw [hzero], by omega⟩
    · obtain ⟨k, hk⟩ := Nat.exists_eq_add_one_of_ne_zero hpos.ne'
      have hmaglt := hrepr.mag_lt
      rw [hrepr.mag_natCast, hk, hq] at hmaglt
      have hlt : V < (2 ^ 8 * q) ^ k * q := by
        refine Nat.lt_of_mul_lt_mul_right (a := 2 ^ 8) (hmaglt.trans_eq ?_)
        ring
      refine .inr ⟨k, by rw [hk], ?_⟩
      rw [hq, pow_succ]
      generalize (2 ^ 8 * q) ^ k = P at hlt ⊢
      have hle := Nat.mul_le_mul_right 256 (Nat.succ_le_of_lt hlt)
      calc V * 256 + byte.toNat < V.succ * 256 := by
            rw [Nat.succ_mul]
            exact Nat.add_lt_add_left hbyte _
        _ ≤ P * q * 256 := hle
        _ = P * (2 ^ 8 * q) := by ring

/-- `mp_from_ubin` reads the number of the bytes. -/
theorem mpFromUbin_repr (ha : a.Valid cfg) (buf : List UInt8) :
    (mpFromUbin cfg a buf).Repr cfg (ofBE buf : ℕ) := by
  have hgrow : (if a.dp.length < 2 then a.grow 2 else a).Valid cfg := by
    split
    · exact ha.grow 2
    · exact ha
  have hzero := mpZero_repr hgrow
  have hstart : Reading cfg (mpZero (if a.dp.length < 2 then a.grow 2 else a)) 0 :=
    ⟨hzero.toValid, rfl, hzero.mag_eq, .inl ⟨Nat.zero_le 1, by decide⟩⟩
  have hloop : ∀ (bytes : List UInt8) {s : MpInt} {V : ℕ}, Reading cfg s V →
      Reading cfg (bytes.foldl (fromUbinStep cfg) s)
        (bytes.foldl (fun acc b ↦ acc * 256 + b.toNat) V) := by
    intro bytes
    induction bytes with
    | nil => exact fun h ↦ h
    | cons b bytes ih => exact fun h ↦ ih (fromUbinStep_reading h b)
  have hend := hloop buf hstart
  refine hend.toValid.repr_clamp.cast ?_
  rw [toInt, hend.sign_eq, hend.mag_eq]
  rfl

/-! ## Writing bytes -/

theorem mpUbinSize_eq (ha : a.Repr cfg v) : mpUbinSize cfg a = byteLength v.natAbs := by
  have hand : Nat.size v.natAbs &&& 7 = Nat.size v.natAbs % 8 :=
    Nat.and_two_pow_sub_one_eq_mod _ 3
  rw [mpUbinSize, mpCountBits_eq ha, byteLength]
  simp only [hand]
  split <;> omega

/-- The bytes are those of the magnitude. -/
theorem toUbinLoop_eq (ht : t.Repr cfg v) (x : ℕ) :
    toUbinLoop cfg x t = toBE x v.natAbs := by
  induction x generalizing t v with
  | zero => rfl
  | succ x ih =>
    have hdiv := ih (mpDiv2d_repr ht ht.toValid 8)
    obtain ⟨q, hq⟩ := base_eq_byte_mul cfg
    have hlow : t.dp.getD 0 0 &&& 255 = v.natAbs % 256 := by
      rw [getD_eq_div_mod ht.digit_lt 0, ht.ofDigits_dp, ht.mag_eq, pow_zero, Nat.div_one,
        Nat.and_two_pow_sub_one_eq_mod _ 8, hq]
      exact Nat.mod_mul_right_mod _ _ _
    have hbyte : UInt8.ofNat (v.natAbs % 256) = UInt8.ofNat v.natAbs := by
      refine UInt8.toNat_inj.mp ?_
      simp
    rw [toUbinLoop, hdiv, hlow, hbyte, toBE, Int.natAbs_tdiv]
    rfl

/-- `mp_to_ubin` writes the numeral of the magnitude, with no zero byte in front. -/
theorem mpToUbin_eq (ha : a.Repr cfg v) (maxlen : ℕ) :
    mpToUbin cfg a maxlen = if maxlen < byteLength v.natAbs then .error .buf
      else .ok (toBE (byteLength v.natAbs) v.natAbs) := by
  rw [mpToUbin]
  simp only [mpUbinSize_eq ha, toUbinLoop_eq (mpInitCopy_repr ha)]

/-! ## Words -/

/-- A word has the digits Mathlib gives its number. -/
theorem setDigits_eq {fuel b : ℕ} (hb : b < 2 ^ 32) (hfuel : b < 2 ^ fuel) :
    setDigits cfg fuel b = Nat.digits cfg.base b := by
  have hbase := cfg.one_lt_base
  induction fuel generalizing b with
  | zero =>
    obtain rfl := Nat.lt_one_iff.mp hfuel
    rw [Nat.digits_zero, setDigits]
  | succ fuel ih =>
    rw [setDigits]
    split
    · next h => rw [h, Nat.digits_zero]
    next h =>
      have hdiv : b / cfg.base ≤ b / 2 := Nat.div_le_div_left hbase two_pos
      rw [pow_succ] at hfuel
      split
      · next hone =>
        have hlt : b < cfg.base := hb.trans_le (Nat.pow_le_pow_right two_pos hone)
        rw [Nat.digits_of_lt _ _ h hlt, Nat.mod_eq_of_lt hlt]
      · rw [Nat.digits_def' hbase (Nat.pos_of_ne_zero h), ih (by omega) (by omega)]

theorem two_pow_le_base_pow (cfg : MpConfig) : 2 ^ 32 ≤ cfg.base ^ cfg.minPrec := by
  have hpos := cfg.lt_digitBit
  have hmod := Nat.div_add_mod (64 + cfg.digitBit - 1) cfg.digitBit
  have hlt := Nat.mod_lt (64 + cfg.digitBit - 1) (by omega : 0 < cfg.digitBit)
  rw [MpConfig.base, ← pow_mul, MpConfig.minPrec]
  exact Nat.pow_le_pow_right two_pos (by omega)

/-- `mp_set_u32` makes the word a number. -/
theorem mpSetU32_repr (ha : a.Valid cfg) (b : UInt32) :
    (mpSetU32 cfg a b).Repr cfg (b.toNat : ℕ) := by
  have hb : b.toNat < 2 ^ 32 := b.toNat_lt
  have hbase := cfg.one_lt_base
  have hdigits : setDigits cfg 32 b.toNat = Nat.digits cfg.base b.toNat := setDigits_eq hb hb
  have hlen : (Nat.digits cfg.base b.toNat).length ≤ a.dp.length :=
    ((Nat.digits_length_le_iff hbase _).mpr (hb.trans_le (two_pow_le_base_pow cfg))).trans
      ha.prec_le
  have hzero := mpZero_repr ha
  have hstore : mpSetU32 cfg a b = (mpZero a).store (Nat.digits cfg.base b.toNat) := by
    simp [mpSetU32, store, mpZero, hdigits]
  rw [hstore]
  refine (repr_store hzero.toValid (fun d hd ↦ Nat.digits_lt_base hbase hd)
    (hlen.trans (by simp [mpZero])) (fun k hk ↦ ?_) fun _ ↦ rfl).cast ?_
  · have hne : Nat.digits cfg.base b.toNat ≠ [] := fun h ↦ by simp [h] at hk
    have hlast := Nat.getLast_digit_ne_zero cfg.base (Nat.digits_ne_nil_iff_ne_zero.mp hne)
    rw [List.getLast_eq_getElem, ← List.getD_eq_getElem _ 0] at hlast
    rwa [hk] at hlast
  · rw [Nat.ofDigits_digits]
    rfl

theorem getMagLoop_eq (ha : a.Repr cfg (V : ℕ)) (hV : V < 2 ^ 32) (hbit : cfg.digitBit < 32)
    (i : ℕ) : getMagLoop cfg a.dp i (V / cfg.base ^ i) = V := by
  induction i with
  | zero => rw [getMagLoop, pow_zero, Nat.div_one]
  | succ i ih =>
    have hread := getD_eq_div_mod ha.digit_lt i
    rw [ha.ofDigits_dp, ha.mag_natCast] at hread
    have hdiv := Nat.div_add_mod' (V / cfg.base ^ i) cfg.base
    have hle := Nat.div_le_self V (cfg.base ^ i)
    have hlow := Nat.mod_lt (V / cfg.base ^ i) cfg.base_pos
    have hor := Nat.two_pow_add_eq_or_of_lt hlow (V / cfg.base ^ i / cfg.base)
    have hstep : V / cfg.base ^ (i + 1) * cfg.base % 2 ^ 32 ||| a.dp.getD i 0 % 2 ^ 32 =
        V / cfg.base ^ i := by
      rw [hread, pow_succ, ← Nat.div_div_eq_div_mul, Nat.mod_eq_of_lt (by omega),
        Nat.mod_eq_of_lt (by omega), mul_comm]
      exact hor.symm.trans (Nat.div_add_mod _ _)
    simp only [getMagLoop, if_neg hbit.not_ge, hstep]
    exact ih

/-- `mp_get_u32` returns a number that fits the word. -/
theorem mpGetU32_eq (ha : a.Repr cfg (V : ℕ)) (hV : V < 2 ^ 32) :
    mpGetU32 cfg a = UInt32.ofNat V := by
  have hpos := cfg.lt_digitBit
  rw [mpGetU32, ha.sign_natCast, if_neg nofun, mpGetMagU32]
  congr 1
  rcases lt_or_ge cfg.digitBit 32 with hbit | hbit
  · have hmod := Nat.div_add_mod (32 + cfg.digitBit - 1) cfg.digitBit
    have hlt := Nat.mod_lt (32 + cfg.digitBit - 1) (by omega : 0 < cfg.digitBit)
    have hused : a.used ≤ (32 + cfg.digitBit - 1) / cfg.digitBit := ha.used_le_of_lt (by
      rw [Int.natAbs_natCast, MpConfig.base, ← pow_mul]
      exact hV.trans_le (Nat.pow_le_pow_right two_pos (by omega)))
    have hmag := ha.mag_lt
    rw [ha.mag_natCast] at hmag
    have hloop := getMagLoop_eq ha hV hbit a.used
    rwa [Nat.div_eq_of_lt hmag, ← min_eq_left hused] at hloop
  · have hbase : 2 ^ 32 ≤ cfg.base := Nat.pow_le_pow_right two_pos hbit
    have hused : a.used ≤ 1 := ha.used_le_of_lt (by
      rw [Int.natAbs_natCast, pow_one]
      omega)
    have hread := getD_eq_div_mod ha.digit_lt 0
    rw [ha.ofDigits_dp, ha.mag_natCast, pow_zero, Nat.div_one, Nat.mod_eq_of_lt (by omega)] at hread
    have hcount : 1 ≤ (32 + cfg.digitBit - 1) / cfg.digitBit := by
      rw [Nat.le_div_iff_mul_le (by omega)]
      omega
    rw [min_eq_left (hused.trans hcount)]
    rcases Nat.le_one_iff_eq_zero_or_eq_one.mp hused with hzero | hone
    · have hV : V = 0 := by exact_mod_cast ha.used_eq_zero_iff.mp hzero
      rw [hzero, hV, getMagLoop]
    · rw [hone]
      simp only [getMagLoop, if_pos hbit, hread, Nat.zero_or]
      exact Nat.mod_eq_of_lt hV

end Mp

end SecureIIoT
