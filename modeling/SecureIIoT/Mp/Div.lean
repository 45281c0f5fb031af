import SecureIIoT.Mp.Mul
import SecureIIoT.Mp.Shift
import SecureIIoT.Tee

/-!
# Division

`mp_div`, the schoolbook division with a trial digit for every place of the quotient.  The
trial digit is estimated from two leading digits and corrected with three; one more than the
digit of the quotient is left at most, and an addition makes up for it (`divStep_spec`).  The
correction compares three digits of the dividend that are not clamped: when the highest is
zero it ends early, and the digit is then off by one at most because the divisor is
normalised.  The quotient and the remainder are those of a division that rounds to zero
(`mpDiv_repr`), and `mp_mod` has the sign of the modulus (`mpMod_repr`).
-/

namespace SecureIIoT

namespace Mp

open Radix ByteString

open Nat (ofDigits)

variable (cfg : MpConfig)

/-! ## The operations -/

/-- `MP_PREC` -/
def mpPrec : ℕ := 32

/-- `mp_init` -/
def mpInit : MpInt where
  sign := .zpos
  used := 0
  dp := List.replicate mpPrec 0

/-- `mp_init_copy` -/
def mpInitCopy (a : MpInt) : MpInt := mpCopy a (mpInitSize cfg a.used)

section Trial

variable (x y : MpInt) (i t : ℕ)

/-- Step 3.1: the estimate from the two highest digits. -/
def trialStart : ℕ :=
  if x.dp.getD i 0 = y.dp.getD t 0 then cfg.base - 1
  else
    let tmp := (x.dp.getD i 0 * 2 ^ cfg.digitBit % 2 ^ cfg.wordSize ||| x.dp.getD (i - 1) 0) /
      y.dp.getD t 0
    let tmp := if cfg.base - 1 < tmp then cfg.base - 1 else tmp
    tmp % cfg.base

/-- The left hand side of the test: the two highest digits of `y`, times the estimate. -/
def trialLeft (t1 : MpInt) (q : ℕ) : MpInt :=
  let t1 := mpZero t1
  let t1 : MpInt :=
    { t1 with
      used := 2
      dp := (t1.dp.set 0 (if t = 0 then 0 else y.dp.getD (t - 1) 0)).set 1 (y.dp.getD t 0) }
  mpMulD cfg t1 q t1

/-- The right hand side: three digits of `x`, which are not clamped. -/
def trialRight : MpInt where
  sign := .zpos
  used := 3
  dp := ((mpInit.dp.set 0 (if i < 2 then 0 else x.dp.getD (i - 2) 0)).set 1
    (x.dp.getD (i - 1) 0)).set 2 (x.dp.getD i 0)

/-- The loop that lowers the estimate. -/
def trialLoop : (fuel q : ℕ) → (t1 : MpInt) → ℕ × MpInt
  | 0, q, t1 => (q, t1)
  | fuel + 1, q, t1 =>
    let q := (q + (cfg.base - 1)) % cfg.base
    let t1 := trialLeft cfg y t t1 q
    if mpCmpMag t1 (trialRight x i) = .gt then trialLoop fuel q t1 else (q, t1)

end Trial

/-- What the loop of `mp_div` works on: the buffer of `q`, `x` and `t1`. -/
structure DivState where
  q : List ℕ
  x : MpInt
  t1 : MpInt

/-- Step 3 for one place. -/
def divStep (y : MpInt) (t i : ℕ) (s : DivState) : DivState :=
  if s.x.used < i then s
  else
    let out := trialLoop cfg s.x y i t cfg.base ((trialStart cfg s.x y i t + 1) % cfg.base) s.t1
    let q := out.1
    let t1 := mpLshd (mpMulD cfg y q out.2) (i - t - 1)
    let x := mpSub cfg s.x t1 s.x
    if x.sign = .neg then
      let t1 := mpLshd (mpCopy y t1) (i - t - 1)
      { q := s.q.set (i - t - 1) ((q + (cfg.base - 1)) % cfg.base)
        x := mpAdd cfg x t1 x
        t1 := t1 }
    else { q := s.q.set (i - t - 1) q, x := x, t1 := t1 }

/-- Step 3 for the places that are left. -/
def divLoop (y : MpInt) (t : ℕ) : (left : ℕ) → DivState → DivState
  | 0, s => s
  | left + 1, s => divLoop y t left (divStep cfg y t (t + left + 1) s)

/-- The loop for the highest place, which is small. -/
def topLoop (y : MpInt) (place : ℕ) : (fuel : ℕ) → (q : List ℕ) → (x : MpInt) → List ℕ × MpInt
  | 0, q, x => (q, x)
  | fuel + 1, q, x =>
    if mpCmp x y ≠ .lt then
      topLoop y place fuel (q.set place ((q.getD place 0 + 1) % 2 ^ cfg.digitSize))
        (mpSub cfg x y x)
    else (q, x)

/-- The shift that leaves `y` one bit short of its digits. -/
def divNorm (y : MpInt) : ℕ :=
  let norm := mpCountBits cfg y % cfg.digitBit
  if norm < cfg.digitBit - 1 then cfg.digitBit - 1 - norm else 0

/-- The steps on the normalised magnitudes, for a buffer of `q` that is cleared. -/
def divDigits (x y : MpInt) (q : List ℕ) : DivState :=
  let n := x.used - 1
  let t := y.used - 1
  let y := mpLshd y (n - t)
  let top := topLoop cfg y (n - t) cfg.base q x
  divLoop cfg (mpRshd y (n - t)) t (n - t) ⟨top.1, top.2, mpInit⟩

/-- `mp_div`.  Where the source passes `NULL`, the result is not looked at. -/
def mpDiv (a b c d : MpInt) : Except MpErr (MpInt × MpInt) :=
  if b.used = 0 then .error .val
  else if mpCmpMag a b = .lt then .ok (mpZero c, mpCopy a d)
  else
    let sign : MpSign := if a.sign = b.sign then .zpos else .neg
    let x := { mpInitCopy cfg a with sign := .zpos }
    let y := { mpInitCopy cfg b with sign := .zpos }
    let norm := divNorm cfg y
    let x := if norm = 0 then x else mpMul2d cfg x norm x
    let y := if norm = 0 then y else mpMul2d cfg y norm y
    let s := divDigits cfg x y (mpInitSize cfg (a.used + 2)).dp
    let q : MpInt := ⟨.zpos, a.used + 2, s.q⟩
    let x := { s.x with sign := if s.x.used = 0 then .zpos else a.sign }
    .ok ({ q.clamp with sign := sign }, mpDiv2d cfg x norm x)

/-- `mp_mod` -/
def mpMod (a b c : MpInt) : Except MpErr MpInt := do
  let (_, t) ← mpDiv cfg a b (mpInitSize cfg b.used) (mpInitSize cfg b.used)
  if t.used = 0 ∨ t.sign = b.sign then .ok t else .ok (mpAdd cfg b t c)

/-- `mp_mulmod` -/
def mpMulmod (large : LargeMul) (a b c d : MpInt) : Except MpErr MpInt :=
  mpMod cfg (mpMul cfg large a b (mpInitSize cfg c.used)) c d

/-! ## The trial digit -/

variable {cfg} {a b c d x y t1 : MpInt} {v w : ℤ} {i t k q X Y : ℕ}

open MpInt

theorem mpInit_valid : mpInit.Valid cfg where
  prec_le := by
    have hlt := cfg.lt_digitBit
    rw [MpConfig.minPrec, mpInit, List.length_replicate, mpPrec]
    exact Nat.lt_succ_iff.mp (Nat.div_lt_of_lt_mul (by omega))
  used_le := Nat.zero_le _
  digit_lt _ hd := List.eq_of_mem_replicate hd ▸ cfg.base_pos
  excess _ := List.eq_of_mem_replicate

theorem forall_mem_set {p : ℕ → Prop} {l : List ℕ} {n e : ℕ} (hl : ∀ z ∈ l, p z) (he : p e) :
    ∀ z ∈ l.set n e, p z := fun z hz ↦ by
  rcases List.mem_or_eq_of_mem_set hz with h | rfl
  · exact hl z h
  · exact he

/-- A digit that is read, or zero where there is none. -/
theorem ite_getD_lt {p : Prop} [Decidable p] (hx : x.Valid cfg) (n : ℕ) :
    (if p then 0 else x.dp.getD n 0) < cfg.base := by
  split
  · exact cfg.base_pos
  · exact getD_lt cfg.base_pos hx.digit_lt n

/-- The leading digits of the divisor, times the estimate. -/
theorem trialLeft_repr (hy : y.Valid cfg) (ht1 : t1.Valid cfg) (hq : q < cfg.base) :
    (trialLeft cfg y t t1 q).Repr cfg
      ((y.dp.getD t 0 * cfg.base + if t = 0 then 0 else y.dp.getD (t - 1) 0) * q : ℕ) := by
  have hzero := mpZero_repr ht1
  obtain ⟨l0, l1, rest, hdp⟩ : ∃ l0 l1 rest, (mpZero t1).dp = l0 :: l1 :: rest := by
    have hlen := cfg.two_le_minPrec.trans hzero.prec_le
    match (mpZero t1).dp, hlen with
    | l0 :: l1 :: rest, _ => exact ⟨l0, l1, rest, rfl⟩
  have hexcess : ∀ z ∈ rest, z = 0 := by
    have h := hzero.excess
    rw [hdp] at h
    exact fun z hz ↦ h z (List.mem_cons_of_mem _ (List.mem_cons_of_mem _ hz))
  have hprec := hzero.prec_le
  rw [hdp] at hprec
  have hvalid : (⟨.zpos, 2, (if t = 0 then 0 else y.dp.getD (t - 1) 0) ::
      y.dp.getD t 0 :: rest⟩ : MpInt).Valid cfg :=
    ⟨hprec, by simp, List.forall_mem_cons.mpr ⟨ite_getD_lt hy _, List.forall_mem_cons.mpr
      ⟨getD_lt cfg.base_pos hy.digit_lt t, fun z hz ↦ hexcess z hz ▸ cfg.base_pos⟩⟩, hexcess⟩
  simp only [trialLeft, hdp, List.set_cons_zero, List.set_cons_succ]
  refine (mpMulD_repr hvalid hvalid hq).cast ?_
  rw [MpSign.apply_zpos, mag, digits]
  simp only [List.take_succ_cons, List.take_zero, Nat.ofDigits_cons, Nat.ofDigits_nil]
  congr 1
  ring

/-- What the test compares: its left hand side is the larger one only if it has three
digits. -/
theorem trial_gt_iff (hx : x.Valid cfg) (hy : y.Valid cfg) (ht1 : t1.Valid cfg) (hq : q < cfg.base)
    {V U : ℕ} (hV : V = y.dp.getD t 0 * cfg.base + if t = 0 then 0 else y.dp.getD (t - 1) 0)
    (hU : U = (x.dp.getD i 0 * cfg.base + x.dp.getD (i - 1) 0) * cfg.base +
      if i < 2 then 0 else x.dp.getD (i - 2) 0) :
    mpCmpMag (trialLeft cfg y t t1 q) (trialRight x i) = .gt ↔
      cfg.base * cfg.base ≤ V * q ∧ U < V * q := by
  have hleft := trialLeft_repr (t := t) hy ht1 hq
  rw [← hV] at hleft
  have hmag : (trialLeft cfg y t t1 q).mag cfg = V * q := by
    rw [hleft.mag_eq, Int.natAbs_natCast]
  have hright : ofDigits cfg.base ((trialRight x i).dp.take 3) = U := by
    have htake : (trialRight x i).dp.take 3 = [if i < 2 then 0 else x.dp.getD (i - 2) 0,
        x.dp.getD (i - 1) 0, x.dp.getD i 0] := rfl
    rw [htake, hU]
    simp only [Nat.ofDigits_cons, Nat.ofDigits_nil]
    ring
  have hrightlt : ∀ z ∈ (trialRight x i).dp, z < cfg.base := by
    have hread := getD_lt cfg.base_pos hx.digit_lt
    exact forall_mem_set (forall_mem_set (forall_mem_set
      (fun z hz ↦ List.eq_of_mem_replicate hz ▸ cfg.base_pos) (ite_getD_lt hx _))
      (hread _)) (hread _)
  have hVlt : V * q < cfg.base ^ 3 := by
    have hlow : (if t = 0 then 0 else y.dp.getD (t - 1) 0) < cfg.base := ite_getD_lt hy _
    have hhigh := getD_lt cfg.base_pos hy.digit_lt t
    have hsquare : V < cfg.base * cfg.base := by
      have hmul := Nat.mul_le_mul_right cfg.base (Nat.succ_le_of_lt hhigh)
      rw [Nat.succ_mul] at hmul
      omega
    calc V * q < cfg.base * cfg.base * cfg.base := Nat.mul_lt_mul'' hsquare hq
      _ = cfg.base ^ 3 := by ring
  have hused : (trialRight x i).used = 3 := rfl
  rw [mpCmpMag, hused]
  rcases lt_trichotomy (trialLeft cfg y t t1 q).used 3 with h | h | h
  · -- shorter, whatever the three digits are
    have hlt := hleft.mag_lt.trans_le (Nat.pow_le_pow_right cfg.base_pos (Nat.le_of_lt_succ h))
    rw [if_neg h.le.not_gt, if_pos h]
    rw [hmag, sq] at hlt
    simp only [reduceCtorEq, false_iff, not_and]
    omega
  · have hle := hleft.toCanonical.pow_le_mag h
    rw [if_neg h.le.not_gt, if_neg h.ge.not_gt,
      compareDigits_eq cfg.one_lt_base hleft.digit_lt hrightlt, compare_gt_iff_gt, h, hright]
    rw [hmag, sq] at hle
    rw [mag, digits, h] at hmag
    rw [hmag]
    exact ⟨fun h ↦ ⟨hle, h⟩, And.right⟩
  · obtain ⟨n, hn⟩ := Nat.exists_eq_add_one_of_ne_zero (Nat.ne_zero_of_lt h)
    have hle := (Nat.pow_le_pow_right cfg.base_pos (by omega : 3 ≤ n)).trans
      (hleft.toCanonical.pow_le_mag hn)
    omega

/-- The loop stops at the largest estimate that is not rejected. -/
theorem trialLoop_spec {rejected : ℕ → Prop} {fuel : ℕ} (hy : y.Valid cfg)
    (ht1 : t1.Valid cfg) (hq : q < cfg.base) (hfuel : q < fuel)
    (hrejected : ∀ t1 : MpInt, t1.Valid cfg → ∀ j < cfg.base,
      mpCmpMag (trialLeft cfg y t t1 j) (trialRight x i) = .gt ↔ rejected j)
    (hzero : ¬ rejected 0) :
    ∃ r t1', trialLoop cfg x y i t fuel ((q + 1) % cfg.base) t1 = (r, t1') ∧ t1'.Valid cfg ∧
      r ≤ q ∧ ¬ rejected r ∧ ∀ j, r < j → j ≤ q → rejected j := by
  induction q generalizing fuel t1 with
  | zero =>
    obtain ⟨fuel, rfl⟩ := Nat.exists_eq_add_one_of_ne_zero (Nat.ne_zero_of_lt hfuel)
    have hword : ((0 + 1) % cfg.base + (cfg.base - 1)) % cfg.base = 0 := by
      have hone := cfg.one_lt_base
      rw [zero_add, Nat.mod_eq_of_lt hone, Nat.add_sub_cancel' hone.le, Nat.mod_self]
    simp only [trialLoop, hword]
    rw [if_neg (mt (hrejected t1 ht1 0 hq).mp hzero)]
    exact ⟨0, _, rfl, (trialLeft_repr hy ht1 hq).toValid, le_rfl, hzero, by omega⟩
  | succ q ih =>
    obtain ⟨fuel, rfl⟩ := Nat.exists_eq_add_one_of_ne_zero (Nat.ne_zero_of_lt hfuel)
    have hword : ((q + 1 + 1) % cfg.base + (cfg.base - 1)) % cfg.base = (q + 1) % cfg.base := by
      rw [Nat.mod_add_mod, show q + 1 + 1 + (cfg.base - 1) = q + 1 + cfg.base by omega,
        Nat.add_mod_right]
    simp only [trialLoop, hword, Nat.mod_eq_of_lt hq]
    split
    · next hgt =>
      have hnext := ih (trialLeft_repr (t := t) hy ht1 hq).toValid (Nat.lt_of_succ_lt hq)
        (Nat.lt_of_succ_lt_succ hfuel)
      rw [Nat.mod_eq_of_lt hq] at hnext
      obtain ⟨r, t1', hloop, hvalid, hle, hr, hall⟩ := hnext
      refine ⟨r, t1', hloop, hvalid, by omega, hr, fun j hrj hj ↦ ?_⟩
      rcases Nat.le_succ_iff.mp hj with hj | rfl
      · exact hall j hrj hj
      · exact (hrejected t1 ht1 _ hq).mp hgt
    · next hgt =>
      exact ⟨q + 1, _, rfl, (trialLeft_repr hy ht1 hq).toValid, le_rfl,
        mt (hrejected t1 ht1 _ hq).mpr hgt, by omega⟩

/-- The first estimate is a digit, and not too small. -/
theorem trialStart_spec (hx : x.Valid cfg) (htop : y.dp.getD t 0 ≠ 0) :
    trialStart cfg x y i t < cfg.base ∧
      (∀ j < cfg.base, j * y.dp.getD t 0 ≤ x.dp.getD i 0 * cfg.base + x.dp.getD (i - 1) 0 →
        j ≤ trialStart cfg x y i t) ∧
      (x.dp.getD i 0 ≠ y.dp.getD t 0 →
        trialStart cfg x y i t * y.dp.getD t 0 ≤
          x.dp.getD i 0 * cfg.base + x.dp.getD (i - 1) 0) := by
  have hone := cfg.one_lt_base
  have hhigh := getD_lt cfg.base_pos hx.digit_lt i
  have hnext := getD_lt cfg.base_pos hx.digit_lt (i - 1)
  rw [trialStart]
  split
  · next h => exact ⟨by omega, fun j hj _ ↦ by omega, fun hne ↦ absurd h hne⟩
  · have hword : (x.dp.getD i 0 * 2 ^ cfg.digitBit % 2 ^ cfg.wordSize ||| x.dp.getD (i - 1) 0) =
        x.dp.getD i 0 * cfg.base + x.dp.getD (i - 1) 0 := by
      have hsquare := two_mul_square_le cfg
      have hmul := Nat.mul_lt_mul_of_pos_right hhigh cfg.base_pos
      rw [show 2 ^ cfg.digitBit = cfg.base from rfl, Nat.mod_eq_of_lt (by omega), mul_comm]
      exact (Nat.two_pow_add_eq_or_of_lt hnext _).symm
    rw [hword]
    generalize x.dp.getD i 0 * cfg.base + x.dp.getD (i - 1) 0 = u
    have hmin : (if cfg.base - 1 < u / y.dp.getD t 0 then cfg.base - 1 else u / y.dp.getD t 0) =
        min (cfg.base - 1) (u / y.dp.getD t 0) := by
      split <;> omega
    simp only [hmin]
    rw [Nat.mod_eq_of_lt (by omega)]
    refine ⟨by omega, fun j hj hmul ↦ ?_, fun _ ↦ ?_⟩
    · exact le_min (by omega) ((Nat.le_div_iff_mul_le (Nat.pos_of_ne_zero htop)).mpr hmul)
    · exact (Nat.mul_le_mul_right _ (min_le_right _ _)).trans (Nat.div_mul_le_self u _)

/-- The two or three leading digits of a dividend, read at a place. -/
theorem leading_digits (hx : x.Repr cfg (X : ℕ)) (hlt : X < cfg.base ^ (i + 1)) (hi : 1 ≤ i) :
    x.dp.getD i 0 * cfg.base + x.dp.getD (i - 1) 0 = X / cfg.base ^ (i - 1) ∧
      (x.dp.getD i 0 * cfg.base + x.dp.getD (i - 1) 0) * cfg.base +
        (if i < 2 then 0 else x.dp.getD (i - 2) 0) = cfg.base * X / cfg.base ^ (i - 1) := by
  have hread (j : ℕ) : x.dp.getD j 0 = X / cfg.base ^ j % cfg.base := by
    rw [getD_eq_div_mod hx.digit_lt, hx.ofDigits_dp, hx.mag_eq, Int.natAbs_natCast]
  have hstep (j : ℕ) : X / cfg.base ^ (j + 1) * cfg.base + X / cfg.base ^ j % cfg.base =
      X / cfg.base ^ j := by
    rw [pow_succ, ← Nat.div_div_eq_div_mul, mul_comm, Nat.div_add_mod]
  obtain ⟨j, rfl⟩ := Nat.exists_eq_add_of_le' hi
  have htwo : x.dp.getD (j + 1) 0 * cfg.base + x.dp.getD j 0 = X / cfg.base ^ j := by
    have htop : X / cfg.base ^ (j + 1) < cfg.base :=
      Nat.div_lt_of_lt_mul (by rwa [← pow_succ])
    rw [hread, hread, Nat.mod_eq_of_lt htop, hstep]
  rw [Nat.add_sub_cancel]
  refine ⟨htwo, ?_⟩
  rw [htwo]
  cases j with
  | zero => rw [if_pos (by decide), pow_zero, Nat.div_one, Nat.div_one, add_zero, mul_comm]
  | succ j =>
    rw [if_neg (by omega), show j + 1 + 1 - 2 = j by omega, hread, hstep, pow_succ',
      Nat.mul_div_mul_left _ _ cfg.base_pos]

/-- The leading digits of a divisor that is shifted to a place. -/
theorem leading_divisor (hy : y.Repr cfg (Y : ℕ)) (hused : y.used = t + 1) (k : ℕ) :
    y.dp.getD t 0 = Y * cfg.base ^ k / cfg.base ^ (t + k) ∧
      (y.dp.getD t 0 * cfg.base + if t = 0 then 0 else y.dp.getD (t - 1) 0) =
        cfg.base * (Y * cfg.base ^ k) / cfg.base ^ (t + k) := by
  have hpos (n : ℕ) : 0 < cfg.base ^ n := Nat.pow_pos cfg.base_pos
  have hlt : Y < cfg.base ^ (t + 1) := by
    have hlt := hy.mag_lt
    rwa [hy.mag_eq, Int.natAbs_natCast, hused] at hlt
  have hread (j : ℕ) : y.dp.getD j 0 = Y / cfg.base ^ j % cfg.base := by
    rw [getD_eq_div_mod hy.digit_lt, hy.ofDigits_dp, hy.mag_eq, Int.natAbs_natCast]
  have htop : y.dp.getD t 0 = Y / cfg.base ^ t := by
    rw [hread, Nat.mod_eq_of_lt (Nat.div_lt_of_lt_mul (by rwa [← pow_succ]))]
  refine ⟨by rw [htop, pow_add, Nat.mul_div_mul_right _ _ (hpos k)], ?_⟩
  rw [htop, ← mul_assoc, pow_add, Nat.mul_div_mul_right _ _ (hpos k)]
  cases t with
  | zero => rw [if_pos rfl, pow_zero, Nat.div_one, Nat.div_one, add_zero, mul_comm]
  | succ t =>
    rw [if_neg t.succ_ne_zero, Nat.succ_sub_one, hread, pow_succ',
      Nat.mul_div_mul_left _ _ cfg.base_pos, mul_comm cfg.base, ← Nat.div_div_eq_div_mul,
      mul_comm, Nat.div_add_mod]

/-- The digit of the quotient, or one more, is what the trial ends with. -/
theorem trial_spec (hy : y.Repr cfg (Y : ℕ)) (hused : y.used = t + 1)
    (hnorm : cfg.base ≤ 4 * y.dp.getD t 0) (hx : x.Repr cfg (X : ℕ)) (ht1 : t1.Valid cfg)
    (hX : X < Y * cfg.base ^ (k + 1)) :
    ∃ q t1', trialLoop cfg x y (t + k + 1) t cfg.base
        ((trialStart cfg x y (t + k + 1) t + 1) % cfg.base) t1 = (q, t1') ∧ t1'.Valid cfg ∧
      q < cfg.base ∧ X / (Y * cfg.base ^ k) ≤ q ∧ q ≤ X / (Y * cfg.base ^ k) + 1 := by
  have hbase := cfg.lt_base
  have hpow : 0 < cfg.base ^ (t + k) := Nat.pow_pos cfg.base_pos
  have htop : y.dp.getD t 0 ≠ 0 := by omega
  have hYlt : Y < cfg.base ^ (t + 1) := by
    have hlt := hy.mag_lt
    rwa [hy.mag_eq, Int.natAbs_natCast, hused] at hlt
  have hYpos : 0 < Y * cfg.base ^ k := by
    refine Nat.mul_pos (Nat.pos_of_ne_zero fun h ↦ ?_) (Nat.pow_pos cfg.base_pos)
    rw [h] at hX
    simp at hX
  have hXlt : X < cfg.base ^ (t + k + 1 + 1) := by
    calc X < Y * cfg.base ^ (k + 1) := hX
      _ ≤ cfg.base ^ (t + 1) * cfg.base ^ (k + 1) := Nat.mul_le_mul_right _ hYlt.le
      _ = cfg.base ^ (t + k + 1 + 1) := by rw [← pow_add]; congr 1; omega
  have hdigit : X / (Y * cfg.base ^ k) < cfg.base :=
    Nat.div_lt_of_lt_mul (by rwa [mul_assoc, ← pow_succ])
  obtain ⟨htwo, hthree⟩ := leading_digits hx hXlt (by omega)
  obtain ⟨hone, hpair⟩ := leading_divisor hy hused k
  rw [Nat.add_sub_cancel] at htwo hthree
  obtain ⟨hstart, hmax, hquot⟩ := trialStart_spec (i := t + k + 1) hx.toValid htop
  rw [Nat.add_sub_cancel, htwo] at hmax hquot
  have hself : X / (Y * cfg.base ^ k) * (Y * cfg.base ^ k) ≤ X := Nat.div_mul_le_self _ _
  -- the digit of the quotient is not above the first estimate
  have hle : X / (Y * cfg.base ^ k) ≤ trialStart cfg x y (t + k + 1) t := by
    refine hmax _ hdigit ?_
    rw [hone]
    exact mul_div_le_div hself
  obtain ⟨q, t1', hloop, hvalid, hq, hstop, hlower⟩ := trialLoop_spec
    (x := x) (i := t + k + 1) (t := t) hy.toValid ht1 hstart hstart
    (fun _ ht j hj ↦ trial_gt_iff hx.toValid hy.toValid ht hj rfl rfl)
    (by simp [cfg.base_pos.ne'])
  rw [Nat.add_sub_cancel, hthree, hpair] at hstop hlower
  refine ⟨q, t1', hloop, hvalid, by omega, ?_, ?_⟩
  · -- nor is it rejected
    by_contra hlt
    have hgt := (hlower _ (not_le.mp hlt) hle).2
    have hdiv : X / (Y * cfg.base ^ k) * (cfg.base * (Y * cfg.base ^ k) / cfg.base ^ (t + k)) ≤
        cfg.base * X / cfg.base ^ (t + k) :=
      mul_div_le_div (by rw [mul_left_comm]; exact Nat.mul_le_mul_left _ hself)
    exact hdiv.not_gt (hgt.trans_eq (mul_comm _ _))
  · -- what the test lets through is one above it at most
    have hpred : (q - 1) * (Y * cfg.base ^ k) ≤ X := by
      have hlarge : cfg.base ≤ cfg.base * (Y * cfg.base ^ k) / cfg.base ^ (t + k) := by
        rw [← hpair]
        exact (Nat.le_mul_of_pos_left _ (Nat.pos_of_ne_zero htop)).trans (Nat.le_add_right _ _)
      by_cases hcase : cfg.base * (Y * cfg.base ^ k) / cfg.base ^ (t + k) * q ≤
          cfg.base * X / cfg.base ^ (t + k)
      · have hmul := pred_mul_le (q := q) hpow (by rwa [mul_comm q]) (by omega)
        rw [mul_left_comm] at hmul
        exact Nat.le_of_mul_le_mul_left hmul cfg.base_pos
      · -- here the highest digit of the dividend is zero
        have hsmall : cfg.base * X / cfg.base ^ (t + k) < cfg.base * cfg.base := by
          by_contra hge
          exact hstop ⟨by omega, by omega⟩
        have hxtop : x.dp.getD (t + k + 1) 0 = 0 := by
          by_contra hne
          rw [← hthree, add_mul] at hsmall
          have hmul := Nat.le_mul_of_pos_left (cfg.base * cfg.base) (Nat.pos_of_ne_zero hne)
          rw [← mul_assoc] at hmul
          omega
        have hprod := (Nat.mul_le_mul_right (y.dp.getD t 0) hq).trans
          (hquot (by rw [hxtop]; exact htop.symm))
        have hnext := getD_lt cfg.base_pos hx.digit_lt (t + k)
        refine pred_mul_le hpow (by rwa [← hone]) ?_
        rw [← hone]
        rw [hxtop, zero_mul, zero_add] at htwo
        rw [← htwo] at hprod
        by_contra hgt
        have hmul := Nat.mul_le_mul_right (y.dp.getD t 0) (by omega : 4 ≤ q)
        omega
    have hdiv := (Nat.le_div_iff_mul_le hYpos).mpr hpred
    omega

theorem set_of_getD_eq {l : List ℕ} {n e : ℕ} (h : l.getD n 0 = e) : l.set n e = l := by
  rcases Nat.lt_or_ge n l.length with hlt | hge
  · rw [List.getD_eq_getElem _ _ hlt] at h
    rw [← h, List.set_getElem_self]
  · exact List.set_eq_of_length_le hge

/-- One place of the quotient: its digit, and what remains. -/
theorem divStep_spec {s : DivState} (hy : y.Repr cfg (Y : ℕ)) (hused : y.used = t + 1)
    (hnorm : cfg.base ≤ 4 * y.dp.getD t 0) (hx : s.x.Repr cfg (X : ℕ)) (ht1 : s.t1.Valid cfg)
    (hX : X < Y * cfg.base ^ (k + 1)) (hzero : s.q.getD k 0 = 0) :
    (divStep cfg y t (t + k + 1) s).q = s.q.set k (X / (Y * cfg.base ^ k)) ∧
      (divStep cfg y t (t + k + 1) s).x.Repr cfg (X % (Y * cfg.base ^ k) : ℕ) ∧
      (divStep cfg y t (t + k + 1) s).t1.Valid cfg := by
  rw [divStep]
  split
  · next hskip =>
    -- the dividend is too short for this place
    have hlt : X < Y * cfg.base ^ k := by
      have hxlt := hx.mag_lt
      have hyle := hy.toCanonical.pow_le_mag hused
      rw [hx.mag_eq, Int.natAbs_natCast] at hxlt
      rw [hy.mag_eq, Int.natAbs_natCast] at hyle
      calc X < cfg.base ^ s.x.used := hxlt
        _ ≤ cfg.base ^ (t + k) := Nat.pow_le_pow_right cfg.base_pos (by omega)
        _ = cfg.base ^ t * cfg.base ^ k := pow_add _ _ _
        _ ≤ Y * cfg.base ^ k := Nat.mul_le_mul_right _ hyle
    rw [Nat.div_eq_of_lt hlt, Nat.mod_eq_of_lt hlt]
    exact ⟨(set_of_getD_eq hzero).symm, hx, ht1⟩
  · obtain ⟨q, t1', hloop, hvalid, hq, hge, hle⟩ := trial_spec hy hused hnorm hx ht1 hX
    have hshift : t + k + 1 - t - 1 = k := by omega
    have hprod := mpLshd_repr (mpMulD_repr hy.toValid hvalid hq) k
    have hysign : y.sign = .zpos := by rw [hy.sign_eq, if_neg (Int.natCast_nonneg Y).not_gt]
    rw [hysign, MpSign.apply_zpos, hy.mag_eq, Int.natAbs_natCast] at hprod
    have hsub := mpSub_repr hx hprod hx.toValid
    have hmod := Nat.div_add_mod X (Y * cfg.base ^ k)
    simp only [hloop, hshift]
    split
    · next hneg =>
      -- the digit is one too large
      have hlt : (X : ℤ) - (Y * q : ℕ) * (cfg.base : ℤ) ^ k < 0 := by
        have hsign := hsub.sign_eq
        rw [hneg] at hsign
        by_contra hge
        rw [if_neg hge] at hsign
        exact nomatch hsign
      have hqeq : q = X / (Y * cfg.base ^ k) + 1 := by
        rcases Nat.lt_or_ge q (X / (Y * cfg.base ^ k) + 1) with h | h
        · obtain rfl : q = X / (Y * cfg.base ^ k) := by omega
          have hself : X / (Y * cfg.base ^ k) * (Y * cfg.base ^ k) ≤ X := Nat.div_mul_le_self _ _
          zify at hself
          push_cast at hlt
          nlinarith
        · omega
      have hback := mpAdd_repr hsub (mpLshd_repr (hy.copy hprod.toValid) k) hsub.toValid
      refine ⟨?_, hback.cast ?_, (mpLshd_repr (hy.copy hprod.toValid) k).toValid⟩
      · have hpos := cfg.base_pos
        change s.q.set k ((q + (cfg.base - 1)) % cfg.base) = _
        rw [hqeq, show X / (Y * cfg.base ^ k) + 1 + (cfg.base - 1) =
          X / (Y * cfg.base ^ k) + cfg.base by omega, Nat.add_mod_right,
          Nat.mod_eq_of_lt (by omega)]
      · rw [hqeq]
        zify at hmod
        push_cast at hmod ⊢
        linear_combination -hmod
    · next hpos =>
      have hnonneg : 0 ≤ (X : ℤ) - (Y * q : ℕ) * (cfg.base : ℤ) ^ k := by
        by_contra hlt
        exact hpos (by rw [hsub.sign_eq, if_pos (not_le.mp hlt)])
      have hqeq : q = X / (Y * cfg.base ^ k) := by
        have hmul : q * (Y * cfg.base ^ k) ≤ X := by
          zify
          push_cast at hnonneg
          linarith
        have hYpos : 0 < Y * cfg.base ^ k := by
          by_contra h
          rw [pow_succ, ← mul_assoc, Nat.eq_zero_of_not_pos h, zero_mul] at hX
          exact absurd hX (Nat.not_lt_zero X)
        exact le_antisymm ((Nat.le_div_iff_mul_le hYpos).mpr hmul) hge
      refine ⟨by rw [hqeq], hsub.cast ?_, hprod.toValid⟩
      rw [hqeq]
      zify at hmod
      push_cast at hmod ⊢
      linear_combination -hmod

/-- A quotient is its digit at a place, and the quotient of what remains. -/
theorem place_add_div (hY : 0 < Y) (P : ℕ) : P * (X / (Y * P)) + X % (Y * P) / Y = X / Y := by
  have hmod := Nat.div_add_mod X (Y * P)
  conv_rhs => rw [← hmod]
  rw [mul_assoc, Nat.mul_add_div hY]

/-- The places that are left: a quotient written to the places below, and the remainder. -/
theorem divLoop_spec {s : DivState} (hy : y.Repr cfg (Y : ℕ)) (hused : y.used = t + 1)
    (hnorm : cfg.base ≤ 4 * y.dp.getD t 0) (hx : s.x.Repr cfg (X : ℕ)) (ht1 : s.t1.Valid cfg)
    (hX : X < Y * cfg.base ^ k) (hroom : k ≤ s.q.length) (hq : ∀ d ∈ s.q, d < cfg.base)
    (hzero : ∀ j < k, s.q.getD j 0 = 0) :
    ofDigits cfg.base (divLoop cfg y t k s).q = ofDigits cfg.base s.q + X / Y ∧
      (divLoop cfg y t k s).q.length = s.q.length ∧
      (∀ d ∈ (divLoop cfg y t k s).q, d < cfg.base) ∧
      (divLoop cfg y t k s).x.Repr cfg (X % Y : ℕ) := by
  induction k generalizing s X with
  | zero =>
    rw [pow_zero, mul_one] at hX
    rw [Nat.div_eq_of_lt hX, Nat.mod_eq_of_lt hX, divLoop]
    exact ⟨rfl, rfl, hq, hx⟩
  | succ k ih =>
    have hYpos : 0 < Y * cfg.base ^ k := by
      by_contra h
      rw [pow_succ, ← mul_assoc, Nat.eq_zero_of_not_pos h, zero_mul] at hX
      exact absurd hX (Nat.not_lt_zero X)
    have hdigit : X / (Y * cfg.base ^ k) < cfg.base :=
      Nat.div_lt_of_lt_mul (by rwa [mul_assoc, ← pow_succ])
    obtain ⟨hset, hrem, hvalid⟩ := divStep_spec hy hused hnorm hx ht1 hX (hzero k k.lt_succ_self)
    obtain ⟨hvalue, hlen, hlt, hx'⟩ := ih (s := divStep cfg y t (t + k + 1) s) hrem hvalid
      (Nat.mod_lt X hYpos) (by rw [hset, List.length_set]; omega)
      (by rw [hset]; exact forall_mem_set hq hdigit)
      (fun j hj ↦ by
        rw [hset, List.getD_eq_getElem?_getD, List.getElem?_set_ne (by omega),
          ← List.getD_eq_getElem?_getD]
        exact hzero j (by omega))
    have hmodmod : X % (Y * cfg.base ^ k) % Y = X % Y :=
      Nat.mod_mod_of_dvd X (Nat.dvd_mul_right _ _)
    rw [divLoop]
    refine ⟨?_, by rw [hlen, hset, List.length_set], hlt, hmodmod ▸ hx'⟩
    have hplace := place_add_div (X := X) (Nat.pos_of_mul_pos_right hYpos) (cfg.base ^ k)
    rw [hvalue, hset, ofDigits_set (by omega) (hzero k k.lt_succ_self), add_assoc, hplace]

/-- The highest place, by subtraction. -/
theorem topLoop_spec {place fuel : ℕ} {qs : List ℕ} (hy : y.Repr cfg (Y : ℕ)) (hY : 0 < Y)
    (hx : x.Repr cfg (X : ℕ)) (hfuel : X / Y < fuel) (hplace : place < qs.length)
    (hroom : qs.getD place 0 + X / Y < 2 ^ cfg.digitSize) :
    (topLoop cfg y place fuel qs x).1 = qs.set place (qs.getD place 0 + X / Y) ∧
      (topLoop cfg y place fuel qs x).2.Repr cfg (X % Y : ℕ) := by
  induction fuel generalizing qs x X with
  | zero => exact absurd hfuel (Nat.not_lt_zero _)
  | succ fuel ih =>
    rw [topLoop, mpCmp_eq hx hy]
    rcases Nat.lt_or_ge X Y with hlt | hge
    · have hcmp : compare (X : ℤ) Y = .lt := compare_lt_iff_lt.mpr (by exact_mod_cast hlt)
      rw [hcmp, if_neg (not_not.mpr rfl), Nat.div_eq_of_lt hlt, Nat.mod_eq_of_lt hlt, add_zero]
      exact ⟨(set_of_getD_eq rfl).symm, hx⟩
    · have hcmp : compare (X : ℤ) Y ≠ .lt :=
        mt compare_lt_iff_lt.mp (by exact_mod_cast hge.not_gt)
      have hdiv : X / Y = (X - Y) / Y + 1 := Nat.div_eq_sub_div hY hge
      have hnonneg := Nat.zero_le ((X - Y) / Y)
      have hget : (qs.set place ((qs.getD place 0 + 1) % 2 ^ cfg.digitSize)).getD place 0 =
          qs.getD place 0 + 1 := by
        rw [List.getD_eq_getElem _ _ (by rwa [List.length_set]), List.getElem_set_self,
          Nat.mod_eq_of_lt (by omega)]
      have hplace' : place <
          (qs.set place ((qs.getD place 0 + 1) % 2 ^ cfg.digitSize)).length := by
        rwa [List.length_set]
      obtain ⟨hset, hrem⟩ := ih ((mpSub_repr hx hy hx.toValid).cast (Nat.cast_sub hge).symm)
        (by omega) hplace' (by omega)
      rw [if_pos hcmp]
      refine ⟨?_, by rwa [← Nat.mod_eq_sub_mod hge] at hrem⟩
      rw [hset, hget, List.set_set, hdiv]
      congr 1
      omega

/-- The digits of a quotient by a normalised divisor, and the remainder. -/
theorem divDigits_spec {qs : List ℕ} (hx : x.Repr cfg (X : ℕ)) (hy : y.Repr cfg (Y : ℕ))
    (hused : y.used = t + 1) (hnorm : cfg.base ≤ 4 * y.dp.getD t 0) (hle : Y ≤ X)
    (hroom : x.used - 1 - t < qs.length) (hqs : ∀ d ∈ qs, d = 0) :
    ofDigits cfg.base (divDigits cfg x y qs).q = X / Y ∧
      (divDigits cfg x y qs).q.length = qs.length ∧
      (∀ d ∈ (divDigits cfg x y qs).q, d < cfg.base) ∧
      (divDigits cfg x y qs).x.Repr cfg (X % Y : ℕ) := by
  have hbase := cfg.lt_base
  have hread (z : MpInt) (hz : z.Repr cfg (Y : ℕ)) :
      z.dp.getD t 0 = Y / cfg.base ^ t % cfg.base := by
    rw [getD_eq_div_mod hz.digit_lt, hz.ofDigits_dp, hz.mag_eq, Int.natAbs_natCast]
  have hYge : cfg.base ^ t ≤ Y := by
    have hge := hy.toCanonical.pow_le_mag hused
    rwa [hy.mag_eq, Int.natAbs_natCast] at hge
  have hYpos : 0 < Y := (Nat.pow_pos cfg.base_pos).trans_le hYge
  -- a quarter of the divisor's length
  have hlarge : cfg.base ^ (t + 1) ≤ 4 * Y := by
    have hdiv := Nat.div_mul_le_self Y (cfg.base ^ t)
    have hmod := Nat.mod_le (Y / cfg.base ^ t) cfg.base
    rw [hread y hy] at hnorm
    calc cfg.base ^ (t + 1) = cfg.base * cfg.base ^ t := pow_succ' _ _
      _ ≤ 4 * (Y / cfg.base ^ t) * cfg.base ^ t := Nat.mul_le_mul_right _ (by omega)
      _ = 4 * (Y / cfg.base ^ t * cfg.base ^ t) := mul_assoc _ _ _
      _ ≤ 4 * Y := Nat.mul_le_mul_left 4 hdiv
  have hXlt : X < cfg.base ^ x.used := by
    have hlt := hx.mag_lt
    rwa [hx.mag_eq, Int.natAbs_natCast] at hlt
  have hn : t < x.used := by
    by_contra hge
    exact absurd (hYge.trans hle) ((hXlt.trans_le
      (Nat.pow_le_pow_right cfg.base_pos (not_lt.mp hge))).not_ge)
  obtain ⟨k, hk⟩ := Nat.exists_eq_add_of_le (Nat.le_sub_one_of_lt hn)
  have hsub : x.used - 1 - t = k := by omega
  rw [hsub] at hroom
  have hPpos : 0 < cfg.base ^ k := Nat.pow_pos cfg.base_pos
  have hshift : (mpLshd y k).Repr cfg (Y * cfg.base ^ k : ℕ) :=
    (mpLshd_repr hy k).cast (by push_cast; rfl)
  have hback : (mpRshd (mpLshd y k) k).Repr cfg (Y : ℕ) := (mpRshd_repr hshift k).cast (by
    rw [← Int.ofNat_tdiv, Nat.mul_div_cancel _ hPpos])
  have hquot : X / (Y * cfg.base ^ k) < 4 := by
    refine Nat.div_lt_of_lt_mul ?_
    calc X < cfg.base ^ x.used := hXlt
      _ = cfg.base ^ (t + 1) * cfg.base ^ k := by rw [← pow_add]; congr 1; omega
      _ ≤ 4 * Y * cfg.base ^ k := Nat.mul_le_mul_right _ hlarge
      _ = Y * cfg.base ^ k * 4 := by ring
  have hzero (j : ℕ) : qs.getD j 0 = 0 := by
    rcases Nat.lt_or_ge j qs.length with h | h
    · rw [List.getD_eq_getElem _ _ h]
      exact hqs _ (List.getElem_mem h)
    · exact List.getD_eq_default _ _ h
  obtain ⟨htop, hrem⟩ := topLoop_spec hshift (Nat.mul_pos hYpos hPpos) hx
    (show _ < cfg.base by omega) hroom (by
      have hsize := cfg.two_mul_base_le
      rw [hzero]
      omega)
  rw [hzero, zero_add] at htop
  obtain ⟨hvalue, hlen, hlt, hx'⟩ := divLoop_spec
    (s := ⟨(topLoop cfg (mpLshd y k) k cfg.base qs x).1,
      (topLoop cfg (mpLshd y k) k cfg.base qs x).2, mpInit⟩) hback
    (hback.used_eq hy ▸ hused) (by rw [hread _ hback, ← hread y hy]; exact hnorm) hrem
    (k := k) mpInit_valid (Nat.mod_lt X (Nat.mul_pos hYpos hPpos)) (by
      rw [htop, List.length_set]
      exact hroom.le) (by
      rw [htop]
      exact forall_mem_set (fun d hd ↦ hqs d hd ▸ cfg.base_pos) (by omega)) (fun j hj ↦ by
      rw [htop, List.getD_eq_getElem?_getD, List.getElem?_set_ne (by omega),
        ← List.getD_eq_getElem?_getD, hzero])
  rw [Nat.mod_mod_of_dvd X (Nat.dvd_mul_right _ _)] at hx'
  simp only [divDigits, hused, Nat.add_sub_cancel, hsub]
  refine ⟨?_, by rw [hlen, htop, List.length_set], hlt, hx'⟩
  rw [hvalue, htop, ofDigits_set hroom (hzero k), ofDigits_eq_zero hqs, zero_add,
    place_add_div hYpos]

/-! ## The operations -/

/-- The normalised divisor: its highest digit is one bit short. -/
theorem divNorm_spec {n : ℕ} (hy : y.Repr cfg (n : ℕ)) (hn : n ≠ 0) :
    divNorm cfg y < cfg.digitBit ∧
      ∀ z : MpInt, z.Repr cfg (n * 2 ^ divNorm cfg y : ℕ) →
        ∃ t, z.used = t + 1 ∧ cfg.base ≤ 4 * z.dp.getD t 0 := by
  have hbit := cfg.lt_digitBit
  have hnorm : divNorm cfg y < cfg.digitBit ∧
      (Nat.size n + divNorm cfg y) % cfg.digitBit = cfg.digitBit - 1 := by
    rw [divNorm, mpCountBits_eq hy, Int.natAbs_natCast]
    have hmod := Nat.mod_lt (Nat.size n) (by omega : 0 < cfg.digitBit)
    split
    · next h =>
      refine ⟨by omega, ?_⟩
      rw [← Nat.mod_add_mod, Nat.add_sub_cancel' h.le, Nat.mod_eq_of_lt (by omega)]
    · exact ⟨by omega, by rw [add_zero]; omega⟩
  refine ⟨hnorm.1, fun z hz ↦ ?_⟩
  have hne : n * 2 ^ divNorm cfg y ≠ 0 := Nat.mul_ne_zero hn (Nat.two_pow_pos _).ne'
  have hused : z.used ≠ 0 := mt hz.used_eq_zero_iff.mp (by exact_mod_cast hne)
  obtain ⟨t, ht⟩ := Nat.exists_eq_add_one_of_ne_zero hused
  refine ⟨t, ht, ?_⟩
  -- the length of the number, by its digits
  have hlen := mpCountBits_top hz.toValid ht
  rw [mpCountBits_eq hz, Int.natAbs_natCast, ← Nat.shiftLeft_eq,
    Nat.size_shiftLeft hn] at hlen
  have htop : Nat.size (z.dp.getD t 0) ≤ cfg.digitBit :=
    Nat.size_le.mpr (getD_lt cfg.base_pos hz.digit_lt t)
  have hmod := hnorm.2
  rw [hlen, Nat.mul_add_mod_self_right] at hmod
  have heq : Nat.size (z.dp.getD t 0) = cfg.digitBit - 1 := by
    rcases Nat.lt_or_eq_of_le htop with h | h
    · rwa [Nat.mod_eq_of_lt h] at hmod
    · rw [h, Nat.mod_self] at hmod
      omega
  have hge : 2 ^ (cfg.digitBit - 2) ≤ z.dp.getD t 0 := Nat.lt_size.mp (by omega)
  have hbase : cfg.base = 4 * 2 ^ (cfg.digitBit - 2) := by
    rw [MpConfig.base, show (4 : ℕ) = 2 ^ 2 from rfl, ← pow_add, Nat.add_sub_cancel' (by omega)]
  omega

theorem mpInitCopy_repr (ha : a.Repr cfg v) : (mpInitCopy cfg a).Repr cfg v :=
  ha.copy (mpInitSize_valid cfg a.used)

/-- A shift by the bits of the normalisation. -/
theorem normalise_repr {z : MpInt} {m n : ℕ} (hz : z.Repr cfg (m : ℕ)) :
    (if n = 0 then z else mpMul2d cfg z n z).Repr cfg (m * 2 ^ n : ℕ) := by
  split
  · next h => exact hz.cast (by rw [h, pow_zero, mul_one])
  · exact (mpMul2d_repr hz hz.toValid n).cast (by push_cast; rfl)

/-- A remainder that is zero is positive. -/
theorem MpInt.Repr.restoreSign {m : ℕ} (hz : x.Repr cfg (m : ℕ)) (s : MpSign) :
    ({ x with sign := if x.used = 0 then .zpos else s } : MpInt).Repr cfg (s.apply m) := by
  have hsign := MpInt.Repr.withSign (s := .zpos) hz s
  have hpos : (if 0 < x.used then s else MpSign.zpos) = if x.used = 0 then .zpos else s := by
    split <;> split <;> first | rfl | omega
  rwa [hpos] at hsign

/-- A buffer with digits enough for its number, as it is clamped. -/
theorem MpInt.repr_clamp_buffer {ds : List ℕ} {n : ℕ} (hds : ∀ z ∈ ds, z < cfg.base)
    (hprec : cfg.minPrec ≤ ds.length) (hn : n ≤ ds.length)
    (hlt : ofDigits cfg.base ds < cfg.base ^ n) (s : MpSign) :
    (⟨s, n, ds⟩ : MpInt).clamp.Repr cfg (s.apply (ofDigits cfg.base ds)) := by
  have hhigh : ofDigits cfg.base (ds.drop n) = 0 := by
    by_contra hne
    have hmul := Nat.le_mul_of_pos_right (cfg.base ^ n) (Nat.pos_of_ne_zero hne)
    have hsplit := ofDigits_take_add_drop (B := cfg.base) ds n
    omega
  have hvalid : (⟨s, n, ds⟩ : MpInt).Valid cfg :=
    ⟨hprec, hn, hds, Nat.digits_zero_of_eq_zero cfg.base_pos.ne' hhigh⟩
  have hvalue := hvalid.ofDigits_dp
  have hclamp := hvalid.repr_clamp
  rw [toInt, ← hvalue] at hclamp
  exact hclamp

/-- Division that rounds to zero, on magnitudes. -/
theorem tdiv_eq_apply (ha : a.Repr cfg v) (hb : b.Repr cfg w) :
    v.tdiv w = (if a.sign = b.sign then MpSign.zpos else .neg).apply (v.natAbs / w.natAbs) ∧
      v.tmod w = a.sign.apply (v.natAbs % w.natAbs) := by
  have hv := ha.toInt_eq
  have hw := hb.toInt_eq
  rw [toInt, ha.mag_eq] at hv
  rw [toInt, hb.mag_eq] at hw
  generalize v.natAbs = m at hv
  generalize w.natAbs = n at hw
  subst hv hw
  constructor
  · cases a.sign <;> cases b.sign <;> simp
  · cases a.sign <;> cases b.sign <;> simp [Int.tmod_eq_emod_of_nonneg]

/-- `mp_div` divides, and rounds to zero; it fails for a divisor that is zero. -/
theorem mpDiv_repr (ha : a.Repr cfg v) (hb : b.Repr cfg w) (hc : c.Valid cfg) (hd : d.Valid cfg) :
    if w = 0 then mpDiv cfg a b c d = .error .val
    else ∃ c' d', mpDiv cfg a b c d = .ok (c', d') ∧ c'.Repr cfg (v.tdiv w) ∧
      d'.Repr cfg (v.tmod w) := by
  obtain ⟨hquot, hrem⟩ := tdiv_eq_apply ha hb
  have hzero := hb.used_eq_zero_iff
  split
  · next h => rw [mpDiv, if_pos (hzero.mpr h)]
  next hw =>
  rw [mpDiv, if_neg (mt hzero.mp hw)]
  have hcmp := mpCmpMag_lt_iff ha.toCanonical hb.toCanonical
  rw [ha.mag_eq, hb.mag_eq] at hcmp
  split
  · next hlt =>
    rw [hcmp] at hlt
    refine ⟨_, _, rfl, (mpZero_repr hc).cast ?_, (ha.copy hd).cast ?_⟩
    · rw [hquot, Nat.div_eq_of_lt hlt, MpSign.apply_zero]
    · rw [hrem, Nat.mod_eq_of_lt hlt, ← ha.mag_eq]
      exact ha.toInt_eq.symm
  next hge =>
  rw [hcmp, not_lt] at hge
  have hwpos : w.natAbs ≠ 0 := Int.natAbs_ne_zero.mpr hw
  have hx := (mpInitCopy_repr ha).toCanonical.repr_pos
  have hy := (mpInitCopy_repr hb).toCanonical.repr_pos
  rw [(mpInitCopy_repr ha).mag_eq] at hx
  rw [(mpInitCopy_repr hb).mag_eq] at hy
  simp only
  generalize ({ mpInitCopy cfg a with sign := .zpos } : MpInt) = x at hx ⊢
  generalize ({ mpInitCopy cfg b with sign := .zpos } : MpInt) = y at hy ⊢
  obtain ⟨hnorm, htop⟩ := divNorm_spec hy hwpos
  generalize divNorm cfg y = norm at hnorm htop ⊢
  have hxn := normalise_repr (n := norm) hx
  have hyn := normalise_repr (n := norm) hy
  obtain ⟨t, ht, hquarter⟩ := htop _ hyn
  have hpow := Nat.two_pow_pos norm
  have hvlt := ha.mag_lt
  rw [ha.mag_eq] at hvlt
  have hroom : (if norm = 0 then x else mpMul2d cfg x norm x).used - 1 - t <
      (mpInitSize cfg (a.used + 2)).dp.length := by
    -- the shift adds a digit at most
    have hxused : (if norm = 0 then x else mpMul2d cfg x norm x).used ≤ a.used + 1 := by
      by_contra hlt
      obtain ⟨m, hm⟩ := Nat.exists_eq_add_one_of_ne_zero (Nat.ne_zero_of_lt (not_le.mp hlt))
      have hle := hxn.toCanonical.pow_le_mag hm
      rw [hxn.mag_eq, Int.natAbs_natCast] at hle
      have hbits : 2 ^ norm < cfg.base := Nat.pow_lt_pow_right one_lt_two hnorm
      have hmul := Nat.mul_lt_mul'' hvlt hbits
      have hpowle := Nat.pow_le_pow_right cfg.base_pos (by omega : a.used + 1 ≤ m)
      rw [pow_succ] at hpowle
      omega
    simp only [mpInitSize, List.length_replicate]
    omega
  obtain ⟨hvalue, hlen, hlt, hx'⟩ := divDigits_spec hxn hyn
    ht hquarter (Nat.mul_le_mul_right _ hge) hroom (fun _ ↦ List.eq_of_mem_replicate)
  rw [Nat.mul_div_mul_right _ _ hpow] at hvalue
  rw [Nat.mul_mod_mul_right] at hx'
  generalize divDigits cfg (if norm = 0 then x else mpMul2d cfg x norm x)
    (if norm = 0 then y else mpMul2d cfg y norm y) (mpInitSize cfg (a.used + 2)).dp = s
    at hvalue hlen hlt hx' ⊢
  refine ⟨_, _, rfl, ?_, ?_⟩
  · have hlength : s.q.length = max cfg.minPrec (a.used + 2) := by
      rw [hlen, mpInitSize, List.length_replicate]
    have hlow : ofDigits cfg.base s.q < cfg.base ^ (a.used + 2) := by
      rw [hvalue]
      exact (Nat.div_le_self _ _).trans_lt
        (hvlt.trans_le (Nat.pow_le_pow_right cfg.base_pos (Nat.le_add_right _ _)))
    have hclamp := repr_clamp_buffer hlt (by omega) (by omega) hlow .zpos
    rw [hvalue, MpSign.apply_zpos] at hclamp
    have hpos : 0 < v.natAbs / w.natAbs := Nat.div_pos hge (Nat.pos_of_ne_zero hwpos)
    have hsign := MpInt.Repr.withSign (s := .zpos) hclamp
      (if a.sign = b.sign then MpSign.zpos else .neg)
    rw [if_pos (Nat.pos_of_ne_zero (mt hclamp.used_eq_zero_iff.mp (by exact_mod_cast hpos.ne')))]
      at hsign
    exact hsign.cast hquot.symm
  · have hsign := hx'.restoreSign a.sign
    refine (mpDiv2d_repr hsign hsign.toValid norm).cast ?_
    rw [← apply_tdiv, Nat.mul_div_cancel _ hpow, hrem]

/-- A remainder of the sign of the divisor, from that of the dividend. -/
theorem fmod_eq_ite (v w : ℤ) :
    v.fmod w = if v.tmod w = 0 ∨ (v.tmod w < 0 ↔ w < 0) then v.tmod w else w + v.tmod w := by
  have hdvd := Int.dvd_iff_tmod_eq_zero (a := w) (b := v)
  rw [Int.fmod_eq_tmod]
  rcases eq_or_ne (v.tmod w) 0 with hzero | hne
  · rw [if_pos (hdvd.mpr hzero), if_pos (Or.inl hzero), add_zero]
  rw [if_neg (mt hdvd.mp hne)]
  rcases le_or_gt 0 v with hv | hv
  · have hpos := Int.tmod_nonneg w hv
    rw [if_pos hv]
    split <;> split <;> omega
  · have hneg := Int.tmod_nonneg w (Int.neg_nonneg.mpr hv.le)
    rw [Int.neg_tmod] at hneg
    rw [if_neg hv.not_ge]
    split <;> split <;> omega

/-- `mp_mod` has the sign of the modulus; it fails for a modulus that is zero. -/
theorem mpMod_repr (ha : a.Repr cfg v) (hb : b.Repr cfg w) (hc : c.Valid cfg) :
    if w = 0 then mpMod cfg a b c = .error .val
    else ∃ c', mpMod cfg a b c = .ok c' ∧ c'.Repr cfg (v.fmod w) := by
  have hdiv := mpDiv_repr ha hb (mpInitSize_valid cfg b.used) (mpInitSize_valid cfg b.used)
  rw [mpMod]
  split
  · next hw =>
    rw [if_pos hw] at hdiv
    rw [hdiv]
    rfl
  next hw =>
  rw [if_neg hw] at hdiv
  obtain ⟨q, t, hok, -, ht⟩ := hdiv
  have hsign : t.used = 0 ∨ t.sign = b.sign ↔ v.tmod w = 0 ∨ (v.tmod w < 0 ↔ w < 0) := by
    rw [ht.used_eq_zero_iff, ht.sign_eq, hb.sign_eq]
    by_cases htneg : v.tmod w < 0 <;> by_cases hwneg : w < 0 <;> simp [htneg, hwneg]
  rw [hok, fmod_eq_ite]
  change ∃ c', (if t.used = 0 ∨ t.sign = b.sign then Except.ok t else .ok (mpAdd cfg b t c)) =
    .ok c' ∧ _
  by_cases h : v.tmod w = 0 ∨ (v.tmod w < 0 ↔ w < 0)
  · rw [if_pos (hsign.mpr h), if_pos h]
    exact ⟨t, rfl, ht⟩
  · rw [if_neg (mt hsign.mp h), if_neg h]
    exact ⟨mpAdd cfg b t c, rfl, mpAdd_repr hb ht hc⟩

/-- `mp_mulmod` reduces the product. -/
theorem mpMulmod_repr {large : LargeMul} {m : ℤ} {n : ℕ} (hlarge : large.Multiplies cfg n)
    (ha : a.Repr cfg v) (hb : b.Repr cfg w) (hc : c.Repr cfg m) (hd : d.Valid cfg) (hm : m ≠ 0)
    (haused : a.used ≤ n) (hbused : b.used ≤ n) :
    ∃ d', mpMulmod cfg large a b c d = .ok d' ∧ d'.Repr cfg ((v * w).fmod m) := by
  have hmul := hlarge.mul ha hb (mpInitSize_valid cfg c.used) haused hbused
  have hmod := mpMod_repr hmul hc hd
  rwa [if_neg hm] at hmod

end Mp

end SecureIIoT
