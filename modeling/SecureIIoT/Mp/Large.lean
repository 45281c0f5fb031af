import SecureIIoT.Mp.Div

/-!
# Products of long integers

Above the cutoffs `mp_mul` and `mp_sqr` split their arguments and multiply the parts with
`mp_mul` and `mp_sqr` again: in halves by Karatsuba's method, in thirds by the method of Toom
and Cook, and in blocks of the shorter one if the lengths differ much.  The parts and their
sums are shorter than what is split, and so the recursion ends with the products by columns
and rows (`largeMul_splits`).  Then `mp_mul` and `mp_sqr` are right for integers of any
length (`longMul_multiplies`).

A block that is left over is shorter than the others, and behind it the integer still has
digits of the block before; `mp_mul` only reads the digits that are used (`mpMul_congr`).
-/

namespace SecureIIoT

namespace Mp

open Radix

open Nat (ofDigits)

variable (cfg : MpConfig)

/-! ## The operations -/

/-- An integer of `size` digits with digits of another. -/
def slice (size : ℕ) (ds : List ℕ) : MpInt := ((mpInitSize cfg size).store ds).clamp

/-- `s_mp_karatsuba_mul`: the upper parts are not clamped. -/
def sMpKaratsubaMul (large : LargeMul) (a b c : MpInt) : MpInt :=
  let B := min a.used b.used / 2
  let x0 := slice cfg B (a.digits.take B)
  let y0 := slice cfg B (b.digits.take B)
  let x1 := (mpInitSize cfg (a.used - B)).store (a.digits.drop B)
  let y1 := (mpInitSize cfg (b.used - B)).store (b.digits.drop B)
  let x0y0 := mpMul cfg large x0 y0 (mpInitSize cfg (B * 2))
  let x1y1 := mpMul cfg large x1 y1 (mpInitSize cfg (B * 2))
  let t1 := sMpAdd cfg x1 x0 (mpInitSize cfg (B * 2))
  let x0 := sMpAdd cfg y1 y0 x0
  let t1 := mpMul cfg large t1 x0 t1
  let x0 := mpAdd cfg x0y0 x1y1 x0
  let t1 := sMpSub cfg t1 x0 t1
  let t1 := mpLshd t1 B
  let x1y1 := mpLshd x1y1 (B * 2)
  let t1 := mpAdd cfg x0y0 t1 t1
  mpAdd cfg t1 x1y1 c

/-- `s_mp_karatsuba_sqr` -/
def sMpKaratsubaSqr (large : LargeMul) (a b : MpInt) : MpInt :=
  let B := a.used / 2
  let x0 := slice cfg B (a.digits.take B)
  let x1 := (mpInitSize cfg (a.used - B)).store (a.digits.drop B)
  let x0x0 := mpSqr cfg large x0 (mpInitSize cfg (B * 2))
  let x1x1 := mpSqr cfg large x1 (mpInitSize cfg ((a.used - B) * 2))
  let t1 := sMpAdd cfg x1 x0 (mpInitSize cfg (a.used * 2))
  let t1 := mpSqr cfg large t1 t1
  let t2 := sMpAdd cfg x0x0 x1x1 (mpInitSize cfg (a.used * 2))
  let t1 := sMpSub cfg t1 t2 t1
  let t1 := mpLshd t1 B
  let x1x1 := mpLshd x1x1 (B * 2)
  let t1 := mpAdd cfg x0x0 t1 t1
  mpAdd cfg t1 x1x1 b

/-- The loop of `s_mp_div_3` that fixes the remainder. -/
def fixLoop : (fuel t w : ℕ) → ℕ × ℕ
  | 0, t, w => (t, w)
  | fuel + 1, t, w => if 3 ≤ w then fixLoop fuel (t + 1) (w - 3) else (t, w)

/-- The digit of the quotient of `w` by three, and the remainder. -/
def div3Digit (w : ℕ) : ℕ × ℕ :=
  if 3 ≤ w then
    let t := w * (cfg.base / 3) % 2 ^ cfg.wordSize / cfg.base
    fixLoop w t ((w + 2 ^ cfg.wordSize - (t + t + t) % 2 ^ cfg.wordSize) % 2 ^ cfg.wordSize)
  else (0, w)

/-- The loop of `s_mp_div_3`, which runs from the highest digit down. -/
def div3Digits : List ℕ → List ℕ × ℕ
  | [] => ([], 0)
  | x :: xs =>
    let rest := div3Digits xs
    let out := div3Digit cfg (rest.2 * cfg.base % 2 ^ cfg.wordSize ||| x)
    (out.1 % 2 ^ cfg.digitSize :: rest.1, out.2)

/-- `s_mp_div_3` -/
def sMpDiv3 (a : MpInt) : MpInt :=
  (mpInitSize cfg a.used).fill a.used a.sign (div3Digits cfg a.digits).1

/-- The values of `x2 * x ^ 2 + x1 * x + x0` at one, two and minus one, as `s_mp_toom_mul`
computes them in `s`, `t` and `x1`. -/
def toomEval (x0 x1 x2 s t : MpInt) : MpInt × MpInt × MpInt :=
  let t := mpAdd cfg x2 x1 t
  let s := mpAdd cfg t x0 s
  let t := mpAdd cfg t x2 t
  let t := mpMul2 cfg t t
  let t := mpAdd cfg t x0 t
  let x1 := mpSub cfg x2 x1 x1
  (s, t, mpAdd cfg x1 x0 x1)

/-- The interpolation of `s_mp_toom_mul`, from the values at zero, one, two, minus one and
infinity. -/
def toomInterpolate (B : ℕ) (a0 S1 S2 a1 b1 T1 c : MpInt) : MpInt :=
  let S2 := mpSub cfg S2 a1 S2
  let S2 := sMpDiv3 cfg S2
  let a1 := mpSub cfg S1 a1 a1
  let a1 := mpDiv2 cfg a1 a1
  let S1 := mpSub cfg S1 a0 S1
  let S2 := mpSub cfg S2 S1 S2
  let S2 := mpDiv2 cfg S2 S2
  let S1 := mpSub cfg S1 a1 S1
  let S1 := mpSub cfg S1 b1 S1
  let T1 := mpMul2 cfg b1 T1
  let S2 := mpSub cfg S2 T1 S2
  let a1 := mpSub cfg a1 S2 a1
  let b1 := mpLshd b1 (4 * B)
  let S2 := mpLshd S2 (3 * B)
  let b1 := mpAdd cfg b1 S2 b1
  let S1 := mpLshd S1 (2 * B)
  let b1 := mpAdd cfg b1 S1 b1
  let a1 := mpLshd a1 (1 * B)
  let b1 := mpAdd cfg b1 a1 b1
  mpAdd cfg b1 a0 c

/-- `s_mp_toom_mul` -/
def sMpToomMul (large : LargeMul) (a b c : MpInt) : MpInt :=
  let B := min a.used b.used / 3
  let a0 := slice cfg B (a.digits.take B)
  let a1 := slice cfg B ((a.digits.drop B).take B)
  let a2 := slice cfg (B + (a.used - 3 * B)) (a.digits.drop (2 * B))
  let b0 := slice cfg B (b.digits.take B)
  let b1 := slice cfg B ((b.digits.drop B).take B)
  let b2 := slice cfg (B + (b.used - 3 * B)) (b.digits.drop (2 * B))
  let (S2, T1, a1) := toomEval cfg a0 a1 a2 mpInit mpInit
  let (S1, c, b1) := toomEval cfg b0 b1 b2 mpInit c
  let S1 := mpMul cfg large S1 S2 S1
  let S2 := mpMul cfg large T1 c S2
  let a1 := mpMul cfg large a1 b1 a1
  let b1 := mpMul cfg large a2 b2 b1
  let a0 := mpMul cfg large a0 b0 a0
  toomInterpolate cfg B a0 S1 S2 a1 b1 T1 c

/-- `s_mp_toom_sqr` -/
def sMpToomSqr (large : LargeMul) (a b : MpInt) : MpInt :=
  let B := a.used / 3
  let a0 := slice cfg B (a.digits.take B)
  let a1 := slice cfg B ((a.digits.drop B).take B)
  let a2 := slice cfg (B + (a.used - 3 * B)) (a.digits.drop (2 * B))
  let S0 := mpSqr cfg large a0 mpInit
  let a0 := mpAdd cfg a0 a2 a0
  let b := mpSub cfg a0 a1 b
  let a0 := mpAdd cfg a0 a1 a0
  let a0 := mpSqr cfg large a0 a0
  let b := mpSqr cfg large b b
  let a1 := mpMul cfg large a1 a2 a1
  let a1 := mpMul2 cfg a1 a1
  let a2 := mpSqr cfg large a2 a2
  let b := mpAdd cfg a0 b b
  let b := mpDiv2 cfg b b
  let a0 := mpSub cfg a0 b a0
  let a0 := mpSub cfg a0 a1 a0
  let b := mpSub cfg b a2 b
  let b := mpSub cfg b S0 b
  let a2 := mpLshd a2 (4 * B)
  let a1 := mpLshd a1 (3 * B)
  let b := mpLshd b (2 * B)
  let a0 := mpLshd a0 (1 * B)
  let a2 := mpAdd cfg a2 a1 a2
  let b := mpAdd cfg a2 b b
  let b := mpAdd cfg b a0 b
  mpAdd cfg b S0 b

/-- What `s_mp_balance_mul` keeps from a block to the next. -/
structure BalanceState where
  a0 : MpInt
  tmp : MpInt
  r : MpInt

/-- A block of `s_mp_balance_mul`, with its product in its place. -/
def balanceStep (large : LargeMul) (B : MpInt) (s : BalanceState) (place : ℕ) (ds : List ℕ) :
    BalanceState :=
  let a0 := MpInt.clamp { s.a0 with used := ds.length, dp := ds ++ s.a0.dp.drop ds.length }
  let tmp := mpLshd (mpMul cfg large a0 B s.tmp) place
  ⟨a0, tmp, mpAdd cfg s.r tmp s.r⟩

/-- `s_mp_balance_mul`, which swaps its result with the destination. -/
def sMpBalanceMul (large : LargeMul) (a b : MpInt) : MpInt :=
  let nblocks := max a.used b.used / min a.used b.used
  let bsize := min a.used b.used
  let A := if a.used < b.used then b else a
  let B := if a.used < b.used then a else b
  let s := (List.range nblocks).foldl
    (fun s i ↦ balanceStep cfg large B s (bsize * i) ((A.digits.drop (bsize * i)).take bsize))
    ⟨mpInitSize cfg (bsize + 2), mpInit, mpInit⟩
  let s :=
    if bsize * nblocks < A.used then
      balanceStep cfg large B s (bsize * nblocks) (A.digits.drop (bsize * nblocks))
    else s
  s.r

/-- The products of long integers, which are split at most `fuel` times. -/
def largeMul : (fuel : ℕ) → LargeMul
  | 0 => ⟨fun _ _ c ↦ c, fun _ _ c ↦ c, fun _ _ c ↦ c, fun _ b ↦ b, fun _ b ↦ b⟩
  | fuel + 1 =>
    ⟨fun a b _ ↦ sMpBalanceMul cfg (largeMul fuel) a b, sMpToomMul cfg (largeMul fuel),
      sMpKaratsubaMul cfg (largeMul fuel), sMpToomSqr cfg (largeMul fuel),
      sMpKaratsubaSqr cfg (largeMul fuel)⟩

/-- The products of long integers: they are split less often than they have digits. -/
def longMul : LargeMul :=
  ⟨fun a b c ↦ (largeMul cfg (max a.used b.used)).balanceMul a b c,
    fun a b c ↦ (largeMul cfg (max a.used b.used)).toomMul a b c,
    fun a b c ↦ (largeMul cfg (max a.used b.used)).karatsubaMul a b c,
    fun a b ↦ (largeMul cfg a.used).toomSqr a b,
    fun a b ↦ (largeMul cfg a.used).karatsubaSqr a b⟩

variable {cfg} {a b c : MpInt} {large : LargeMul} {ds : List ℕ} {m n size : ℕ} {v w : ℤ}

open MpInt

/-! ## Parts -/

theorem slice_repr (hds : ∀ d ∈ ds, d < cfg.base) (hlen : ds.length ≤ size) :
    (slice cfg size ds).Repr cfg (ofDigits cfg.base ds : ℕ) :=
  repr_clamp_store (mpInitSize_valid cfg size) hds
    (hlen.trans (by rw [mpInitSize, List.length_replicate]; exact le_max_right _ _))

/-- The upper part of a number needs no clamping. -/
theorem upper_repr (ha : a.Canonical cfg) (hn : n < a.used) :
    ((mpInitSize cfg (a.used - n)).store (a.digits.drop n)).Repr cfg
      (ofDigits cfg.base (a.digits.drop n) : ℕ) := by
  have hlen := ha.length_digits
  obtain ⟨t, ht⟩ := Nat.exists_eq_add_of_lt hn
  refine repr_store (mpInitSize_valid cfg _) (fun d hd ↦ ha.digits_lt d (List.mem_of_mem_drop hd))
    ?_ (fun k hk ↦ ?_) fun _ ↦ rfl
  · rw [List.length_drop, hlen, mpInitSize, List.length_replicate]
    exact le_max_right _ _
  · rw [List.length_drop, hlen] at hk
    rw [List.getD_eq_getElem?_getD, List.getElem?_drop, ← List.getD_eq_getElem?_getD]
    exact ha.getD_digits_ne (by omega)

/-- Parts of a number are small. -/
theorem ofDigits_drop_lt (ha : a.Valid cfg) (n : ℕ) :
    ofDigits cfg.base (a.digits.drop n) < cfg.base ^ (a.used - n) := by
  have hlt := Nat.ofDigits_lt_base_pow_length cfg.one_lt_base
    (fun d hd ↦ ha.digits_lt d (List.mem_of_mem_drop (i := n) hd))
  rwa [List.length_drop, ha.length_digits] at hlt

/-! ## Division by three -/

theorem fixLoop_eq {fuel t w : ℕ} (hw : w ≤ fuel) : fixLoop fuel t w = (t + w / 3, w % 3) := by
  induction fuel generalizing t w with
  | zero =>
    obtain rfl := Nat.le_zero.mp hw
    rfl
  | succ fuel ih =>
    rw [fixLoop]
    split
    · rw [ih (by omega), Prod.mk.injEq]
      omega
    · rw [Nat.div_eq_of_lt (by omega), Nat.mod_eq_of_lt (by omega), add_zero]

/-- The product with a third of the base is not too large, and the loop finds what is missing. -/
theorem div3Digit_eq {w : ℕ} (hw : w < 3 * cfg.base) : div3Digit cfg w = (w / 3, w % 3) := by
  have hbase := cfg.lt_base
  have hsquare := two_mul_square_le cfg
  have hthird := Nat.div_mul_le_self cfg.base 3
  have hself := Nat.mul_le_mul_right cfg.base hbase.le
  rw [div3Digit]
  split
  · have hmul : 3 * (w * (cfg.base / 3)) ≤ w * cfg.base := by
      rw [mul_left_comm]
      exact Nat.mul_le_mul_left w (by omega)
    have hword : w * (cfg.base / 3) < 2 ^ cfg.wordSize := by
      have hlt := Nat.mul_lt_mul_of_pos_right hw cfg.base_pos
      rw [mul_assoc] at hlt
      omega
    have ht : 3 * (w * (cfg.base / 3) / cfg.base) ≤ w := by
      refine Nat.le_of_mul_le_mul_right ((?_ : _ ≤ _).trans hmul) cfg.base_pos
      rw [mul_assoc]
      exact Nat.mul_le_mul_left 3 (Nat.div_mul_le_self _ _)
    rw [Nat.mod_eq_of_lt hword]
    generalize w * (cfg.base / 3) / cfg.base = t at ht ⊢
    have hrest : (w + 2 ^ cfg.wordSize - (t + t + t) % 2 ^ cfg.wordSize) % 2 ^ cfg.wordSize =
        w - 3 * t := by
      rw [Nat.mod_eq_of_lt (by omega : t + t + t < 2 ^ cfg.wordSize),
        show w + 2 ^ cfg.wordSize - (t + t + t) = w - 3 * t + 2 ^ cfg.wordSize by omega,
        Nat.add_mod_right, Nat.mod_eq_of_lt (by omega)]
    simp only [hrest]
    rw [fixLoop_eq (Nat.sub_le _ _), Prod.mk.injEq]
    omega
  · rw [Nat.div_eq_of_lt (by omega), Nat.mod_eq_of_lt (by omega)]

theorem div3Digits_spec (hds : ∀ d ∈ ds, d < cfg.base) :
    3 * ofDigits cfg.base (div3Digits cfg ds).1 + (div3Digits cfg ds).2 = ofDigits cfg.base ds ∧
      (div3Digits cfg ds).1.length = ds.length ∧
      (∀ d ∈ (div3Digits cfg ds).1, d < cfg.base) ∧ (div3Digits cfg ds).2 < 3 := by
  induction ds with
  | nil => exact ⟨rfl, rfl, by simp [div3Digits], three_pos⟩
  | cons x xs ih =>
    obtain ⟨hx, hxs⟩ := List.forall_mem_cons.mp hds
    obtain ⟨hvalue, hlength, hlt, hrest⟩ := ih hxs
    rw [div3Digits]
    generalize div3Digits cfg xs = rest at hvalue hlength hlt hrest ⊢
    have hbase := cfg.lt_base
    have hsquare := two_mul_square_le cfg
    have hself := Nat.mul_le_mul_right cfg.base hbase.le
    have hmul := Nat.mul_le_mul_right cfg.base (Nat.le_of_lt_succ hrest)
    have hdigit := cfg.two_mul_base_le
    have hw : rest.2 * cfg.base % 2 ^ cfg.wordSize ||| x = rest.2 * cfg.base + x := by
      rw [Nat.mod_eq_of_lt (by omega), mul_comm]
      exact (Nat.two_pow_add_eq_or_of_lt hx rest.2).symm
    have hlow : rest.2 * cfg.base + x < 3 * cfg.base := by omega
    simp only [hw, div3Digit_eq hlow]
    have hquot : (rest.2 * cfg.base + x) / 3 < cfg.base := Nat.div_lt_of_lt_mul hlow
    rw [Nat.mod_eq_of_lt (by omega)]
    refine ⟨?_, congrArg (· + 1) hlength, List.forall_mem_cons.mpr ⟨hquot, hlt⟩,
      Nat.mod_lt _ three_pos⟩
    have hdiv := Nat.div_add_mod (rest.2 * cfg.base + x) 3
    rw [Nat.ofDigits_cons, Nat.ofDigits_cons, ← hvalue]
    linear_combination hdiv

/-- `s_mp_div_3` divides by three, and rounds to zero. -/
theorem sMpDiv3_repr (ha : a.Repr cfg v) : (sMpDiv3 cfg a).Repr cfg (v.tdiv 3) := by
  obtain ⟨hvalue, hlength, hlt, hrest⟩ := div3Digits_spec ha.digits_lt
  have hquot : ofDigits cfg.base (div3Digits cfg a.digits).1 = a.mag cfg / 3 := by
    rw [mag, ← hvalue, Nat.mul_add_div three_pos, Nat.div_eq_of_lt hrest, add_zero]
  refine (repr_fill (mpInitSize_valid cfg a.used) hlt (hlength.le.trans ha.length_digits.le)
    a.sign).cast ?_
  rw [hquot, ← ha.toInt_eq]
  exact apply_tdiv a.sign (a.mag cfg) 3

/-! ## Karatsuba's method -/

/-- The halves of a number: their sum is shorter than the number, as it has many digits. -/
theorem halves_repr (ha : a.Canonical cfg) (hB : 0 < n) (hn : 2 * n ≤ a.used)
    (hm : a.used + 1 ≤ m + n) :
    ∃ x0 x1 : ℕ, a.mag cfg = x0 + cfg.base ^ n * x1 ∧
      (slice cfg n (a.digits.take n)).Repr cfg x0 ∧ x0 < cfg.base ^ m ∧
      ((mpInitSize cfg (a.used - n)).store (a.digits.drop n)).Repr cfg x1 ∧ x1 < cfg.base ^ m ∧
      x1 + x0 < cfg.base ^ m := by
  have hbase := cfg.lt_base
  have hlow := ofDigits_take_lt cfg.one_lt_base ha.digits_lt n
  have hhigh := ofDigits_drop_lt ha.toValid n
  have hle : cfg.base ^ n ≤ cfg.base ^ (a.used - n) :=
    Nat.pow_le_pow_right cfg.base_pos (by omega)
  have hroom : cfg.base ^ (a.used - n) * cfg.base ≤ cfg.base ^ m := by
    rw [← pow_succ]
    exact Nat.pow_le_pow_right cfg.base_pos (by omega)
  have htwo : cfg.base ^ (a.used - n) * 2 ≤ cfg.base ^ (a.used - n) * cfg.base :=
    Nat.mul_le_mul_left _ (by omega)
  exact ⟨_, _, (ofDigits_take_add_drop a.digits n).symm,
    slice_repr (fun d hd ↦ ha.digits_lt d (List.mem_of_mem_take hd)) (List.length_take_le _ _),
    by omega, upper_repr ha (by omega), by omega, by omega⟩

/-- Karatsuba's method multiplies magnitudes. -/
theorem sMpKaratsubaMul_repr (hlarge : large.Multiplies cfg m) (ha : a.Canonical cfg)
    (hb : b.Canonical cfg) (hc : c.Valid cfg) (haused : a.used ≤ m + 1) (hbused : b.used ≤ m + 1)
    (hcutoff : karatsubaMulCutoff ≤ min a.used b.used) :
    (sMpKaratsubaMul cfg large a b c).Repr cfg (a.mag cfg * b.mag cfg : ℕ) := by
  rw [karatsubaMulCutoff] at hcutoff
  rw [sMpKaratsubaMul]
  generalize hB : min a.used b.used / 2 = B
  obtain ⟨x0, x1, hx, hx0, hx0lt, hx1, hx1lt, hxlt⟩ :=
    halves_repr (m := m) ha (by omega : 0 < B) (by omega) (by omega)
  obtain ⟨y0, y1, hy, hy0, hy0lt, hy1, hy1lt, hylt⟩ :=
    halves_repr (m := m) hb (by omega : 0 < B) (by omega) (by omega)
  have hdigits {x : MpInt} {k : ℕ} (hx : x.Repr cfg k) (hk : k < cfg.base ^ m) : x.used ≤ m :=
    hx.used_le_of_lt (by rwa [Int.natAbs_natCast])
  have hx0y0 := hlarge.mul hx0 hy0 (mpInitSize_valid cfg (B * 2)) (hdigits hx0 hx0lt)
    (hdigits hy0 hy0lt)
  have hx1y1 := hlarge.mul hx1 hy1 (mpInitSize_valid cfg (B * 2)) (hdigits hx1 hx1lt)
    (hdigits hy1 hy1lt)
  have ht1 := sMpAdd_natCast hx1 hx0 (mpInitSize_valid cfg (B * 2)) rfl
  have ht2 := sMpAdd_natCast hy1 hy0 hx0.toValid hx0.sign_natCast
  have hprod : (mpMul cfg large _ _ _).Repr cfg ((x1 + x0) * (y1 + y0) : ℕ) :=
    (hlarge.mul ht1 ht2 ht1.toValid (hdigits ht1 hxlt) (hdigits ht2 hylt)).cast (by push_cast; ring)
  have hsum : (mpAdd cfg _ _ _).Repr cfg (x0 * y0 + x1 * y1 : ℕ) :=
    (mpAdd_repr hx0y0 hx1y1 ht2.toValid).cast (by push_cast; ring)
  have hcross := sMpSub_natCast hprod hsum hprod.toValid hprod.sign_natCast (by nlinarith)
  have hmiddle := mpLshd_repr hcross B
  have hhigh := mpLshd_repr hx1y1 (B * 2)
  refine (mpAdd_repr (mpAdd_repr hx0y0 hmiddle hmiddle.toValid) hhigh hc).cast ?_
  have hvalue : (x1 + x0) * (y1 + y0) - (x0 * y0 + x1 * y1) = x1 * y0 + x0 * y1 := by
    refine Nat.sub_eq_of_eq_add ?_
    ring
  rw [hvalue, hx, hy]
  push_cast
  ring

/-- Karatsuba's method squares magnitudes. -/
theorem sMpKaratsubaSqr_repr (hlarge : large.Multiplies cfg m) (ha : a.Canonical cfg)
    (hb : b.Valid cfg) (haused : a.used ≤ m + 1) (hcutoff : karatsubaSqrCutoff ≤ a.used) :
    (sMpKaratsubaSqr cfg large a b).Repr cfg (a.mag cfg * a.mag cfg : ℕ) := by
  rw [karatsubaSqrCutoff] at hcutoff
  rw [sMpKaratsubaSqr]
  generalize hB : a.used / 2 = B
  obtain ⟨x0, x1, hx, hx0, hx0lt, hx1, hx1lt, hxlt⟩ :=
    halves_repr (m := m) ha (by omega : 0 < B) (by omega) (by omega)
  have hdigits {x : MpInt} {k : ℕ} (hx : x.Repr cfg k) (hk : k < cfg.base ^ m) : x.used ≤ m :=
    hx.used_le_of_lt (by rwa [Int.natAbs_natCast])
  have hx0x0 : (mpSqr cfg large _ _).Repr cfg (x0 * x0 : ℕ) :=
    hlarge.sqr hx0 (mpInitSize_valid cfg (B * 2)) (hdigits hx0 hx0lt)
  have hx1x1 : (mpSqr cfg large _ _).Repr cfg (x1 * x1 : ℕ) :=
    hlarge.sqr hx1 (mpInitSize_valid cfg ((a.used - B) * 2)) (hdigits hx1 hx1lt)
  have ht1 := sMpAdd_natCast hx1 hx0 (mpInitSize_valid cfg (a.used * 2)) rfl
  have hprod : (mpSqr cfg large _ _).Repr cfg ((x1 + x0) * (x1 + x0) : ℕ) :=
    hlarge.sqr ht1 ht1.toValid (hdigits ht1 hxlt)
  have ht2 := sMpAdd_natCast hx0x0 hx1x1 (mpInitSize_valid cfg (a.used * 2)) rfl
  have hcross := sMpSub_natCast hprod ht2 hprod.toValid hprod.sign_natCast (by nlinarith)
  have hmiddle := mpLshd_repr hcross B
  have hhigh := mpLshd_repr hx1x1 (B * 2)
  refine (mpAdd_repr (mpAdd_repr hx0x0 hmiddle hmiddle.toValid) hhigh hb).cast ?_
  have hvalue : (x1 + x0) * (x1 + x0) - (x0 * x0 + x1 * x1) = 2 * (x1 * x0) := by
    refine Nat.sub_eq_of_eq_add ?_
    ring
  rw [hvalue, hx]
  push_cast
  ring

/-! ## The method of Toom and Cook -/

theorem toomEval_repr {x0 x1 x2 s t : MpInt} {u0 u1 u2 : ℤ} (h0 : x0.Repr cfg u0)
    (h1 : x1.Repr cfg u1) (h2 : x2.Repr cfg u2) (hs : s.Valid cfg) (ht : t.Valid cfg) :
    ∃ s' t' x', toomEval cfg x0 x1 x2 s t = (s', t', x') ∧ s'.Repr cfg (u0 + u1 + u2) ∧
      t'.Repr cfg (u0 + 2 * u1 + 4 * u2) ∧ x'.Repr cfg (u0 - u1 + u2) := by
  have hsum := mpAdd_repr h2 h1 ht
  have htwice := mpAdd_repr hsum h2 hsum.toValid
  have hdouble := mpMul2_repr htwice htwice.toValid
  have hdiff := mpSub_repr h2 h1 h1.toValid
  exact ⟨_, _, _, rfl, (mpAdd_repr hsum h0 hs).cast (by ring),
    (mpAdd_repr hdouble h0 hdouble.toValid).cast (by ring),
    (mpAdd_repr hdiff h0 hdiff.toValid).cast (by ring)⟩

theorem tdiv_eq_of_eq_mul {u q k : ℤ} (hk : k ≠ 0) (h : u = k * q) : u.tdiv k = q := by
  rw [h, Int.mul_tdiv_cancel_left _ hk]

/-- The interpolation finds the coefficients, and its divisions have no remainder. -/
theorem toomInterpolate_repr {B : ℕ} {a0 S1 S2 a1 b1 T1 : MpInt} {c0 c4 : ℤ} (c1 c2 c3 : ℤ)
    (h0 : a0.Repr cfg c0) (hS1 : S1.Repr cfg (c0 + c1 + c2 + c3 + c4))
    (hS2 : S2.Repr cfg (c0 + 2 * c1 + 4 * c2 + 8 * c3 + 16 * c4))
    (ha1 : a1.Repr cfg (c0 - c1 + c2 - c3 + c4)) (hb1 : b1.Repr cfg c4) (hT1 : T1.Valid cfg)
    (hc : c.Valid cfg) :
    (toomInterpolate cfg B a0 S1 S2 a1 b1 T1 c).Repr cfg (c0 + c1 * cfg.base ^ B +
      c2 * cfg.base ^ (2 * B) + c3 * cfg.base ^ (3 * B) + c4 * cfg.base ^ (4 * B)) := by
  -- the values are combined until a coefficient is left
  have h3 := sMpDiv3_repr (mpSub_repr hS2 ha1 hS2.toValid)
  rw [tdiv_eq_of_eq_mul (q := c1 + c2 + 3 * c3 + 5 * c4) three_ne_zero (by ring)] at h3
  have hodd := mpSub_repr hS1 ha1 ha1.toValid
  have hodd := mpDiv2_repr hodd hodd.toValid
  rw [tdiv_eq_of_eq_mul (q := c1 + c3) two_ne_zero (by ring)] at hodd
  have hrest := mpSub_repr hS1 h0 hS1.toValid
  have hdiff := mpSub_repr h3 hrest h3.toValid
  have hhalf := mpDiv2_repr hdiff hdiff.toValid
  rw [tdiv_eq_of_eq_mul (q := c3 + 2 * c4) two_ne_zero (by ring)] at hhalf
  have heven := mpSub_repr hrest hodd hrest.toValid
  have hc2 := (mpSub_repr heven hb1 heven.toValid).cast (by ring : _ = c2)
  have hT1 := mpMul2_repr hb1 hT1
  have hc3 := (mpSub_repr hhalf hT1 hhalf.toValid).cast (by ring : _ = c3)
  have hc1 := (mpSub_repr hodd hc3 hodd.toValid).cast (by ring : _ = c1)
  -- and the coefficients are put in their places
  have hp4 := mpLshd_repr hb1 (4 * B)
  have hp3 := mpLshd_repr hc3 (3 * B)
  have hp2 := mpLshd_repr hc2 (2 * B)
  have hp1 := mpLshd_repr hc1 (1 * B)
  have hsum := mpAdd_repr hp4 hp3 hp4.toValid
  have hsum := mpAdd_repr hsum hp2 hsum.toValid
  have hsum := mpAdd_repr hsum hp1 hsum.toValid
  refine (mpAdd_repr hsum h0 hc).cast ?_
  rw [one_mul]
  ring

/-- The thirds of a number: their values are shorter than the number, as it has many digits. -/
theorem thirds_repr (ha : a.Canonical cfg) (hB : 0 < n) (hn : 3 * n ≤ a.used)
    (hm : a.used ≤ m + 1) :
    ∃ x0 x1 x2 : ℕ, a.mag cfg = x0 + x1 * cfg.base ^ n + x2 * cfg.base ^ (2 * n) ∧
      (slice cfg n (a.digits.take n)).Repr cfg x0 ∧
      (slice cfg n ((a.digits.drop n).take n)).Repr cfg x1 ∧
      (slice cfg (n + (a.used - 3 * n)) (a.digits.drop (2 * n))).Repr cfg x2 ∧
      x0 + 2 * x1 + 4 * x2 < cfg.base ^ m := by
  have hbase := cfg.lt_base
  have hlen := ha.length_digits
  have hdrop : ∀ d ∈ a.digits.drop n, d < cfg.base :=
    fun d hd ↦ ha.digits_lt d (List.mem_of_mem_drop hd)
  have hlow := ofDigits_take_lt cfg.one_lt_base ha.digits_lt n
  have hmiddle := ofDigits_take_lt cfg.one_lt_base hdrop n
  have hhigh := ofDigits_drop_lt ha.toValid (2 * n)
  have hle : cfg.base ^ n ≤ cfg.base ^ (a.used - 2 * n) :=
    Nat.pow_le_pow_right cfg.base_pos (by omega)
  have hroom : cfg.base ^ (a.used - 2 * n) * cfg.base ≤ cfg.base ^ m := by
    rw [← pow_succ]
    exact Nat.pow_le_pow_right cfg.base_pos (by omega)
  have hseven : cfg.base ^ (a.used - 2 * n) * 7 ≤ cfg.base ^ (a.used - 2 * n) * cfg.base :=
    Nat.mul_le_mul_left _ (by omega)
  refine ⟨_, _, _, ?_, slice_repr (fun d hd ↦ ha.digits_lt d (List.mem_of_mem_take hd))
    (List.length_take_le _ _), slice_repr (fun d hd ↦ hdrop d (List.mem_of_mem_take hd))
    (List.length_take_le _ _), slice_repr (fun d hd ↦ ha.digits_lt d (List.mem_of_mem_drop hd))
    (by rw [List.length_drop, hlen]; omega), by omega⟩
  have hfirst := ofDigits_take_add_drop (B := cfg.base) a.digits n
  have hsecond := ofDigits_take_add_drop (B := cfg.base) (a.digits.drop n) n
  rw [List.drop_drop, ← two_mul] at hsecond
  rw [mag, ← hfirst, ← hsecond]
  ring

/-- The method of Toom and Cook multiplies magnitudes. -/
theorem sMpToomMul_repr (hlarge : large.Multiplies cfg m) (ha : a.Canonical cfg)
    (hb : b.Canonical cfg) (hc : c.Valid cfg) (haused : a.used ≤ m + 1) (hbused : b.used ≤ m + 1)
    (hcutoff : toomMulCutoff ≤ min a.used b.used) :
    (sMpToomMul cfg large a b c).Repr cfg (a.mag cfg * b.mag cfg : ℕ) := by
  rw [toomMulCutoff] at hcutoff
  rw [sMpToomMul]
  generalize hB : min a.used b.used / 3 = B
  obtain ⟨x0, x1, x2, hx, hx0, hx1, hx2, hxlt⟩ :=
    thirds_repr ha (by omega : 0 < B) (by omega) haused
  obtain ⟨y0, y1, y2, hy, hy0, hy1, hy2, hylt⟩ :=
    thirds_repr hb (by omega : 0 < B) (by omega) hbused
  have hdigits {x : MpInt} {k : ℤ} (hx : x.Repr cfg k) (hk : k.natAbs < cfg.base ^ m) :
      x.used ≤ m := hx.used_le_of_lt hk
  obtain ⟨S2, T1, a1, haeval, hS2, hT1, ha1⟩ :=
    toomEval_repr hx0 hx1 hx2 (@mpInit_valid cfg) mpInit_valid
  obtain ⟨S1, c', b1, hbeval, hS1, hc', hb1⟩ := toomEval_repr hy0 hy1 hy2 (@mpInit_valid cfg) hc
  simp only [haeval, hbeval]
  have hone := hlarge.mul hS1 hS2 hS1.toValid (hdigits hS1 (by omega)) (hdigits hS2 (by omega))
  have htwo := hlarge.mul hT1 hc' hS2.toValid (hdigits hT1 (by omega)) (hdigits hc' (by omega))
  have hneg := hlarge.mul ha1 hb1 ha1.toValid (hdigits ha1 (by omega)) (hdigits hb1 (by omega))
  have hinf := hlarge.mul hx2 hy2 hb1.toValid (hdigits hx2 (by omega)) (hdigits hy2 (by omega))
  have hzero := hlarge.mul hx0 hy0 hx0.toValid (hdigits hx0 (by omega)) (hdigits hy0 (by omega))
  refine (toomInterpolate_repr (x0 * y1 + x1 * y0) (x0 * y2 + x1 * y1 + x2 * y0)
    (x1 * y2 + x2 * y1) hzero (hone.cast (by ring)) (htwo.cast (by ring)) (hneg.cast (by ring))
    hinf hT1.toValid hc'.toValid).cast ?_
  rw [hx, hy]
  push_cast
  ring

/-- The method of Toom and Cook squares magnitudes. -/
theorem sMpToomSqr_repr (hlarge : large.Multiplies cfg m) (ha : a.Canonical cfg)
    (hb : b.Valid cfg) (haused : a.used ≤ m + 1) (hcutoff : toomSqrCutoff ≤ a.used) :
    (sMpToomSqr cfg large a b).Repr cfg (a.mag cfg * a.mag cfg : ℕ) := by
  rw [toomSqrCutoff] at hcutoff
  rw [sMpToomSqr]
  generalize hB : a.used / 3 = B
  obtain ⟨x0, x1, x2, hx, hx0, hx1, hx2, hxlt⟩ :=
    thirds_repr ha (by omega : 0 < B) (by omega) haused
  have hdigits {x : MpInt} {k : ℤ} (hx : x.Repr cfg k) (hk : k.natAbs < cfg.base ^ m) :
      x.used ≤ m := hx.used_le_of_lt hk
  -- the values at one and minus one, and the coefficients that are products
  have hS0 := hlarge.sqr hx0 mpInit_valid (hdigits hx0 (by omega))
  have hsum := mpAdd_repr hx0 hx2 hx0.toValid
  have hneg := mpSub_repr hsum hx1 hb
  have hone := mpAdd_repr hsum hx1 hsum.toValid
  have hone := hlarge.sqr hone hone.toValid (hdigits hone (by omega))
  have hneg := hlarge.sqr hneg hneg.toValid (hdigits hneg (by omega))
  have hcross := hlarge.mul hx1 hx2 hx1.toValid (hdigits hx1 (by omega)) (hdigits hx2 (by omega))
  have hc3 := mpMul2_repr hcross hcross.toValid
  have hc4 := hlarge.sqr hx2 hx2.toValid (hdigits hx2 (by omega))
  have heven := mpAdd_repr hone hneg hneg.toValid
  have heven := mpDiv2_repr heven heven.toValid
  rw [tdiv_eq_of_eq_mul (q := x0 * x0 + (2 * x0 * x2 + x1 * x1) + x2 * x2) two_ne_zero (by ring)]
    at heven
  have hodd := mpSub_repr hone heven hone.toValid
  have hc1 := mpSub_repr hodd hc3 hodd.toValid
  have hrest := mpSub_repr heven hc4 heven.toValid
  have hc2 := mpSub_repr hrest hS0 hrest.toValid
  -- which are put in their places
  have hp4 := mpLshd_repr hc4 (4 * B)
  have hp3 := mpLshd_repr hc3 (3 * B)
  have hp2 := mpLshd_repr hc2 (2 * B)
  have hp1 := mpLshd_repr hc1 (1 * B)
  have hsum := mpAdd_repr hp4 hp3 hp4.toValid
  have hsum := mpAdd_repr hsum hp2 hp2.toValid
  have hsum := mpAdd_repr hsum hp1 hsum.toValid
  refine (mpAdd_repr hsum hS0 hsum.toValid).cast ?_
  rw [hx, one_mul]
  push_cast
  ring

/-! ## Blocks -/

/-- Two integers that differ behind their digits only. -/
structure Alike (a b : MpInt) : Prop where
  sign_eq : a.sign = b.sign
  used_eq : a.used = b.used
  digits_eq : a.digits = b.digits

theorem Alike.refl (a : MpInt) : Alike a a := ⟨rfl, rfl, rfl⟩

theorem getD_digits_of_lt {i : ℕ} (hi : i < a.used) : a.digits.getD i 0 = a.dp.getD i 0 := by
  rw [digits, List.getD_eq_getElem?_getD, List.getD_eq_getElem?_getD, List.getElem?_take_of_lt hi]

theorem Alike.getD {a' : MpInt} (ha : Alike a a') {i : ℕ} (hi : i < a'.used) :
    a.dp.getD i 0 = a'.dp.getD i 0 := by
  rw [← getD_digits_of_lt hi, ← ha.digits_eq, getD_digits_of_lt (ha.used_eq ▸ hi)]

/-- The operations on long integers only read the digits that are used. -/
structure LargeMul.Reads (large : LargeMul) : Prop where
  balance : ∀ {a a' b b' : MpInt}, Alike a a' → Alike b b' → ∀ c,
    large.balanceMul a b c = large.balanceMul a' b' c
  toom : ∀ {a a' b b' : MpInt}, Alike a a' → Alike b b' → ∀ c,
    large.toomMul a b c = large.toomMul a' b' c
  karatsuba : ∀ {a a' b b' : MpInt}, Alike a a' → Alike b b' → ∀ c,
    large.karatsubaMul a b c = large.karatsubaMul a' b' c

theorem mulColumn_congr {a' b' : MpInt} (ha : Alike a a') (hb : Alike b b') :
    mulColumn cfg a b = mulColumn cfg a' b' := by
  funext ix w
  simp only [mulColumn, ha.used_eq, hb.used_eq]
  refine List.foldl_ext _ _ _ fun w iz hiz ↦ ?_
  have hiz := List.mem_range.mp hiz
  rw [ha.getD (by omega), hb.getD (by omega)]

theorem mpMul_congr {a' b' : MpInt} (hreads : large.Reads) (ha : Alike a a') (hb : Alike b b') :
    mpMul cfg large a b c = mpMul cfg large a' b' c := by
  rw [mpMul, mpMul, hreads.balance ha hb, hreads.toom ha hb, hreads.karatsuba ha hb, sMpMulDigs,
    sMpMulDigs, sMpMulDigsFast, sMpMulDigsFast, mulColumn_congr ha hb, ha.used_eq, hb.used_eq,
    ha.sign_eq, hb.sign_eq, ha.digits_eq, hb.digits_eq]

theorem balanceStep_congr {B B' : MpInt} (hreads : large.Reads) (hB : Alike B B')
    (s : BalanceState) (place : ℕ) (ds : List ℕ) :
    balanceStep cfg large B s place ds = balanceStep cfg large B' s place ds := by
  rw [balanceStep, balanceStep, mpMul_congr hreads (.refl _) hB]

theorem sMpBalanceMul_congr {a' b' : MpInt} (hreads : large.Reads) (ha : Alike a a')
    (hb : Alike b b') : sMpBalanceMul cfg large a b = sMpBalanceMul cfg large a' b' := by
  rw [sMpBalanceMul, sMpBalanceMul, ha.used_eq, hb.used_eq]
  split
  · simp only [hb.digits_eq, hb.used_eq, balanceStep_congr hreads ha]
  · simp only [ha.digits_eq, ha.used_eq, balanceStep_congr hreads hb]

theorem largeMul_succ (cfg : MpConfig) (fuel : ℕ) : largeMul cfg (fuel + 1) =
    ⟨fun a b _ ↦ sMpBalanceMul cfg (largeMul cfg fuel) a b, sMpToomMul cfg (largeMul cfg fuel),
      sMpKaratsubaMul cfg (largeMul cfg fuel), sMpToomSqr cfg (largeMul cfg fuel),
      sMpKaratsubaSqr cfg (largeMul cfg fuel)⟩ :=
  rfl

theorem largeMul_reads (fuel : ℕ) : (largeMul cfg fuel).Reads := by
  induction fuel with
  | zero => exact ⟨fun _ _ _ ↦ rfl, fun _ _ _ ↦ rfl, fun _ _ _ ↦ rfl⟩
  | succ fuel ih =>
    rw [largeMul_succ]
    refine ⟨fun ha hb _ ↦ sMpBalanceMul_congr ih ha hb, fun ha hb c ↦ ?_, fun ha hb c ↦ ?_⟩
    · simp only [sMpToomMul, ha.used_eq, hb.used_eq, ha.digits_eq, hb.digits_eq]
    · simp only [sMpKaratsubaMul, ha.used_eq, hb.used_eq, ha.digits_eq, hb.digits_eq]

theorem clampUsed_append (ds rest rest' : List ℕ) {used : ℕ} (h : used ≤ ds.length) :
    clampUsed (ds ++ rest) used = clampUsed (ds ++ rest') used := by
  induction used with
  | zero => rfl
  | succ used ih =>
    rw [clampUsed, clampUsed, List.getD_append _ _ _ _ h, List.getD_append _ _ _ _ h,
      ih (Nat.le_of_succ_le h)]

/-- Clamping does not look behind the digits. -/
theorem clamp_alike (s : MpSign) (ds rest rest' : List ℕ) :
    Alike (clamp ⟨s, ds.length, ds ++ rest⟩) (clamp ⟨s, ds.length, ds ++ rest'⟩) := by
  have hused := clampUsed_append ds rest rest' le_rfl
  refine ⟨?_, hused, ?_⟩
  · simp only [clamp, hused]
  · simp only [digits, clamp, hused, List.take_append_of_le_length (clampUsed_le _ _)]

/-- What holds from a block to the next: the blocks so far have the product `v`. -/
structure BalanceState.Holds (cfg : MpConfig) (s : BalanceState) (v : ℤ) : Prop where
  sign_eq : s.a0.sign = .zpos
  tmp_valid : s.tmp.Valid cfg
  r_repr : s.r.Repr cfg v

theorem balanceStep_holds {B : MpInt} {s : BalanceState} (hlarge : large.Multiplies cfg m)
    (hreads : large.Reads) (hs : s.Holds cfg v) (hB : B.Repr cfg w) (hBused : B.used ≤ m)
    (hds : ∀ d ∈ ds, d < cfg.base) (hlen : ds.length ≤ m) (place : ℕ) :
    (balanceStep cfg large B s place ds).Holds cfg
      (v + w * (cfg.base ^ place * ofDigits cfg.base ds : ℕ)) := by
  have hblock := slice_repr hds le_rfl
  have halike : Alike (clamp { s.a0 with used := ds.length, dp := ds ++ s.a0.dp.drop ds.length })
      (slice cfg ds.length ds) := by
    have hstore : (mpInitSize cfg ds.length).store ds =
        ⟨.zpos, ds.length, ds ++ (mpInitSize cfg ds.length).dp.drop ds.length⟩ := by
      simp [store, mpInitSize]
    rw [slice, hstore, ← hs.sign_eq]
    exact clamp_alike _ _ _ _
  have hmul := hlarge.mul hblock hB hs.tmp_valid
    (hblock.used_le_of_lt (Nat.ofDigits_lt_base_pow_length cfg.one_lt_base hds) |>.trans hlen)
    hBused
  rw [← mpMul_congr hreads halike (.refl B)] at hmul
  have hplace := mpLshd_repr hmul place
  refine ⟨?_, hplace.toValid, (mpAdd_repr hs.r_repr hplace hs.r_repr.toValid).cast ?_⟩
  · simp [balanceStep, clamp, hs.sign_eq]
  · push_cast
    ring

/-- Blocks of a number that are multiplied one by one. -/
theorem balanceStep_foldl {A B : MpInt} {bsize : ℕ} {s : BalanceState}
    (hlarge : large.Multiplies cfg m) (hreads : large.Reads) (hs : s.Holds cfg 0)
    (hA : A.Valid cfg) (hB : B.Repr cfg w) (hBused : B.used ≤ m) (hbsize : bsize ≤ m) (n : ℕ) :
    ((List.range n).foldl (fun s i ↦ balanceStep cfg large B s (bsize * i)
      ((A.digits.drop (bsize * i)).take bsize)) s).Holds cfg
      (w * ofDigits cfg.base (A.digits.take (bsize * n))) := by
  induction n with
  | zero => simpa using hs
  | succ n ih =>
    rw [List.range_succ, List.foldl_append]
    have hdigits : ∀ d ∈ (A.digits.drop (bsize * n)).take bsize, d < cfg.base :=
      fun d hd ↦ hA.digits_lt d (List.mem_of_mem_drop (List.mem_of_mem_take hd))
    have hstep := balanceStep_holds hlarge hreads ih hB hBused hdigits
      ((List.length_take_le _ _).trans hbsize) (bsize * n)
    have hsplit := ofDigits_take_add_drop (B := cfg.base) (A.digits.take (bsize * (n + 1)))
      (bsize * n)
    rw [List.take_take, List.drop_take, Nat.mul_succ, Nat.min_eq_left (Nat.le_add_right _ _),
      Nat.add_sub_cancel_left] at hsplit
    rw [Nat.mul_succ, ← hsplit]
    push_cast at hstep ⊢
    rw [mul_add]
    exact hstep

/-- The blocks of the longer factor, of which the last one is shorter. -/
theorem balanceStep_blocks {A B : MpInt} {s : BalanceState} (hlarge : large.Multiplies cfg m)
    (hreads : large.Reads) (hs : s.Holds cfg 0) (hA : A.Valid cfg) (hB : B.Repr cfg w)
    (hpos : 0 < B.used) (hBused : B.used ≤ m) :
    (let n := A.used / B.used
     let s := (List.range n).foldl (fun s i ↦ balanceStep cfg large B s (B.used * i)
       ((A.digits.drop (B.used * i)).take B.used)) s
     if B.used * n < A.used then balanceStep cfg large B s (B.used * n) (A.digits.drop (B.used * n))
     else s).Holds cfg (w * A.mag cfg) := by
  have hlen := hA.length_digits
  have hmod := Nat.div_add_mod A.used B.used
  have hlt := Nat.mod_lt A.used hpos
  have hfold := balanceStep_foldl hlarge hreads hs hA hB hBused hBused (A.used / B.used)
  simp only
  split
  · have hrest : (A.digits.drop (B.used * (A.used / B.used))).length ≤ m := by
      rw [List.length_drop, hlen]
      omega
    have hstep := balanceStep_holds hlarge hreads hfold hB hBused
      (fun d hd ↦ hA.digits_lt d (List.mem_of_mem_drop hd)) hrest (B.used * (A.used / B.used))
    rwa [← mul_add, ← Nat.cast_add, ofDigits_take_add_drop] at hstep
  · rwa [List.take_of_length_le (by omega)] at hfold

/-- The product in blocks, which has the sign of the shorter factor. -/
theorem sMpBalanceMul_repr (hlarge : large.Multiplies cfg m) (hreads : large.Reads)
    (ha : a.Repr cfg v) (hb : b.Repr cfg w) (hpos : 0 < min a.used b.used)
    (hm : min a.used b.used ≤ m) :
    ∃ s : MpSign, (sMpBalanceMul cfg large a b).Repr cfg (s.apply (a.mag cfg * b.mag cfg)) := by
  have hinit : (mpInit).Repr cfg 0 := ⟨⟨mpInit_valid, nofun, fun _ ↦ rfl⟩, rfl⟩
  have hs : BalanceState.Holds cfg ⟨mpInitSize cfg (min a.used b.used + 2), mpInit, mpInit⟩ 0 :=
    ⟨rfl, mpInit_valid, hinit⟩
  rw [sMpBalanceMul]
  rcases lt_or_ge a.used b.used with h | h
  · rw [min_eq_left h.le] at hs hpos hm
    have hblocks := balanceStep_blocks hlarge hreads hs hb.toValid ha hpos hm
    refine ⟨a.sign, ?_⟩
    rw [apply_mul, ← toInt, ha.toInt_eq]
    simp only [if_pos h, min_eq_left h.le, max_eq_right h.le]
    exact hblocks.r_repr
  · rw [min_eq_right h] at hs hpos hm
    have hblocks := balanceStep_blocks hlarge hreads hs ha.toValid hb hpos hm
    refine ⟨b.sign, ?_⟩
    rw [mul_comm (a.mag cfg), apply_mul, ← toInt, hb.toInt_eq]
    simp only [if_neg h.not_gt, min_eq_right h, max_eq_left h]
    exact hblocks.r_repr

/-! ## The recursion -/

/-- What is split has fewer digits than the number it is a part of, and so the recursion is
deep enough. -/
theorem largeMul_splits (n : ℕ) : (largeMul cfg n).Splits cfg n := by
  induction n with
  | zero =>
    constructor
    all_goals
      intros
      simp_all [karatsubaMulCutoff, toomMulCutoff, toomSqrCutoff, karatsubaSqrCutoff]
  | succ n ih =>
    rw [largeMul_succ]
    refine ⟨fun ha hb hc haused hbused hcutoff hlong ↦ ?_,
      fun ha hb hc haused hbused hcutoff ↦ ⟨.zpos, ?_⟩,
      fun ha hb hc haused hbused hcutoff ↦ ⟨.zpos, ?_⟩,
      fun ha hb haused hcutoff ↦ ⟨.zpos, ?_⟩, fun ha hb haused hcutoff ↦ ⟨.zpos, ?_⟩⟩
    · rw [karatsubaMulCutoff] at hcutoff
      exact sMpBalanceMul_repr ih.multiplies (largeMul_reads n) ha hb (by omega) (by omega)
    · dsimp only
      exact sMpToomMul_repr ih.multiplies ha.toCanonical hb.toCanonical hc haused hbused hcutoff
    · dsimp only
      exact sMpKaratsubaMul_repr ih.multiplies ha.toCanonical hb.toCanonical hc haused hbused
        hcutoff
    · dsimp only
      exact sMpToomSqr_repr ih.multiplies ha.toCanonical hb haused hcutoff
    · dsimp only
      exact sMpKaratsubaSqr_repr ih.multiplies ha.toCanonical hb haused hcutoff

/-- `mp_mul` and `mp_sqr` are right for integers of any length. -/
theorem longMul_multiplies (cfg : MpConfig) (m : ℕ) : (longMul cfg).Multiplies cfg m := by
  refine LargeMul.Splits.multiplies ⟨fun ha hb hc _ _ ↦ ?_, fun ha hb hc _ _ ↦ ?_,
    fun ha hb hc _ _ ↦ ?_, fun ha hb _ ↦ ?_, fun ha hb _ ↦ ?_⟩
  · exact (largeMul_splits _).balanceMul ha hb hc (le_max_left _ _) (le_max_right _ _)
  · exact (largeMul_splits _).toomMul ha hb hc (le_max_left _ _) (le_max_right _ _)
  · exact (largeMul_splits _).karatsubaMul ha hb hc (le_max_left _ _) (le_max_right _ _)
  · exact (largeMul_splits _).toomSqr ha hb le_rfl
  · exact (largeMul_splits _).karatsubaSqr ha hb le_rfl

end Mp

end SecureIIoT
