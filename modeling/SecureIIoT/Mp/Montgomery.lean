import Mathlib.Data.Nat.Bitwise
import SecureIIoT.Lib.Montgomery
import SecureIIoT.Mp.Div

/-!
# Montgomery reduction of the library

`mp_montgomery_setup` inverts the lowest digit of the modulus by Newton's iteration,
`mp_montgomery_calc_normalization` doubles its way to the residue of the power of the base, and
`mp_montgomery_reduce` divides that power out, by rows or, for a modulus of less than
`MP_MAXFAST` digits, by columns that are not carried before the end.  Both ways agree with
`Montgomery.redc`, and neither drops a carry (`reduceRows_spec`, `fastRows_spec`): the columns
take a carry each besides the products, which is the digit by which `MP_MAXFAST` may not be
reached.
-/

namespace SecureIIoT

namespace Mp

open Radix ByteString Montgomery

open Nat (ofDigits)

variable (cfg : MpConfig)

/-! ## The operations -/

/-- `x *= 2u - (b * x)` -/
def newton (b x : ℕ) : ℕ :=
  x * ((2 + 2 ^ cfg.digitSize - b * x % 2 ^ cfg.digitSize) % 2 ^ cfg.digitSize) %
    2 ^ cfg.digitSize

/-- `mp_montgomery_setup`: the third step is left out with `MP_16BIT`, the fourth is made with
`MP_64BIT` only. -/
def mpMontgomerySetup (n : MpInt) : Except MpErr ℕ :=
  let b := n.dp.getD 0 0
  if b % 2 = 0 then .error .val
  else
    let x := (((b + 2) &&& 4) * 2 + b) % 2 ^ cfg.digitSize
    let x := newton cfg b x
    let x := newton cfg b x
    let x := if cfg.digitSize ≤ 16 then x else newton cfg b x
    let x := if cfg.digitSize ≤ 32 then x else newton cfg b x
    .ok ((2 ^ cfg.digitBit + 2 ^ cfg.wordSize - x) % 2 ^ cfg.wordSize % 2 ^ cfg.digitSize %
      cfg.base)

/-- The end of a reduction: the modulus is subtracted if that is possible. -/
def backOff (x n : MpInt) : MpInt := if mpCmpMag x n ≠ .lt then sMpSub cfg x n x else x

/-- The loop of `mp_montgomery_calc_normalization`. -/
def normLoop (b : MpInt) : (left : ℕ) → MpInt → MpInt
  | 0, a => a
  | left + 1, a => normLoop b left (backOff cfg (mpMul2 cfg a a) b)

/-- `mp_montgomery_calc_normalization` -/
def mpMontgomeryCalcNormalization (a b : MpInt) : MpInt :=
  let bits := mpCountBits cfg b % cfg.digitBit
  if 1 < b.used then
    normLoop cfg b (cfg.digitBit + 1 - bits)
      (mp2expt cfg a ((b.used - 1) * cfg.digitBit + bits - 1))
  else normLoop cfg b cfg.digitBit (mpSet cfg a 1)

/-- The loop of `mp_montgomery_reduce` that propagates a carry upwards. -/
def propagateDigit : (u : ℕ) → (tmpx : List ℕ) → List ℕ
  | _, [] => []
  | u, x :: xs =>
    if u = 0 then x :: xs
    else
      let r := (x + u) % 2 ^ cfg.digitSize
      r % cfg.base :: propagateDigit (r / cfg.base) xs

/-- The inner loop of `mp_montgomery_reduce`. -/
def reduceRow (mu : ℕ) : (u : ℕ) → (tmpx tmpn : List ℕ) → List ℕ
  | _, [], _ => []
  | u, xs, [] => propagateDigit cfg u xs
  | u, x :: xs, n :: ns =>
    let r := (mu * n + u + x) % 2 ^ cfg.wordSize
    r % cfg.base :: reduceRow mu (r / cfg.base % 2 ^ cfg.digitSize) xs ns

/-- The outer loop of `mp_montgomery_reduce`, on the digits of `x` from `ix` on. -/
def reduceRows (rho : ℕ) (ns : List ℕ) : (left : ℕ) → List ℕ → List ℕ
  | 0, xs => xs
  | left + 1, xs =>
    let mu := xs.getD 0 0 * rho % 2 ^ cfg.wordSize % cfg.base
    match reduceRow cfg mu 0 xs ns with
    | [] => []
    | x :: xs => x :: reduceRows rho ns left xs

/-- The inner loop of `s_mp_montgomery_reduce_fast`. -/
def addProducts (mu : ℕ) : (ws ns : List ℕ) → List ℕ
  | w :: ws, n :: ns => (w + mu * n) % 2 ^ cfg.wordSize :: addProducts mu ws ns
  | ws, _ => ws

/-- The outer loop of `s_mp_montgomery_reduce_fast`, on the columns from `ix` on. -/
def fastRows (rho : ℕ) (ns : List ℕ) : (left : ℕ) → List ℕ → List ℕ
  | 0, ws => ws
  | left + 1, ws =>
    let mu := ws.getD 0 0 % cfg.base * rho % 2 ^ cfg.wordSize % cfg.base
    match addProducts cfg mu ws ns with
    | w :: next :: ws => fastRows rho ns left ((next + w / cfg.base) % 2 ^ cfg.wordSize :: ws)
    | ws => ws

/-- `s_mp_montgomery_reduce_fast`: the carries that are left are fixed, and the words masked, in
one go. -/
def sMpMontgomeryReduceFast (x n : MpInt) (rho : ℕ) : Except MpErr MpInt :=
  if cfg.warray < x.used then .error .val
  else
    let ws := x.digits ++ List.replicate (n.used * 2 + 1 - x.used) 0
    let ws := (fastRows cfg rho n.digits n.used ws).take (n.used + 1)
    let out := wordCarry cfg.base (2 ^ cfg.wordSize) (2 ^ cfg.wordSize) 0 ws
    .ok (backOff cfg (x.fill (n.used + 1) x.sign out.1) n)

/-- `mp_montgomery_reduce` -/
def mpMontgomeryReduce (x n : MpInt) (rho : ℕ) : Except MpErr MpInt :=
  let digs := n.used * 2 + 1
  if digs < cfg.warray ∧ x.used ≤ cfg.warray ∧ n.used < cfg.maxfast then
    sMpMontgomeryReduceFast cfg x n rho
  else
    let x := x.grow digs
    let x := { x with used := digs, dp := reduceRows cfg rho n.digits n.used x.dp }
    .ok (backOff cfg (mpRshd x.clamp n.used) n)

variable {cfg} {a b x n : MpInt} {N rho k : ℕ}

open MpInt

/-! ## The setup -/

/-- A step of the iteration, with as many bits as a digit of the machine has. -/
theorem newton_spec {b x j k : ℕ} (h : (2 ^ k : ℤ) ∣ b * x - 1) (hj : j ≤ 2 * k)
    (hsize : j ≤ cfg.digitSize) : (2 ^ j : ℤ) ∣ b * newton cfg b x - 1 := by
  have hstep := newton_step h
  rw [← pow_add, ← two_mul] at hstep
  have hstep := (pow_dvd_pow 2 hj).trans hstep
  have hmod (v : ℕ) : ((v % 2 ^ cfg.digitSize : ℕ) : ℤ) ≡ v [ZMOD 2 ^ j] := by
    have hsub := (Nat.mod_modEq v (2 ^ cfg.digitSize)).of_dvd (pow_dvd_pow 2 hsize)
    exact_mod_cast Int.natCast_modEq_iff.mpr hsub
  have hword : ((2 ^ cfg.digitSize : ℕ) : ℤ) ≡ 0 [ZMOD 2 ^ j] :=
    Int.modEq_zero_iff_dvd.mpr (by exact_mod_cast pow_dvd_pow 2 hsize)
  have hnewton : (newton cfg b x : ℤ) ≡ x * (2 - b * x) [ZMOD 2 ^ j] := by
    have hle := (Nat.mod_lt (b * x) (Nat.two_pow_pos cfg.digitSize)).le
    have hsub : ((2 + 2 ^ cfg.digitSize - b * x % 2 ^ cfg.digitSize : ℕ) : ℤ) ≡
        2 - b * x [ZMOD 2 ^ j] := by
      rw [Nat.cast_sub (hle.trans (Nat.le_add_left _ _)), Nat.cast_add]
      have hadd := (hword.add_left 2).sub (hmod (b * x))
      rwa [add_zero, Nat.cast_mul] at hadd
    refine (hmod _).trans ?_
    rw [Nat.cast_mul]
    exact ((hmod _).trans hsub).mul_left _
  rw [← Int.modEq_zero_iff_dvd] at hstep ⊢
  exact ((hnewton.mul_left b).sub_right 1).trans hstep

/-- The first value is right to four bits. -/
theorem newton_start (cfg : MpConfig) {b : ℕ} (hodd : b % 2 = 1) :
    (2 ^ 4 : ℤ) ∣ b * ((((b + 2) &&& 4) * 2 + b) % 2 ^ cfg.digitSize : ℕ) - 1 := by
  have hsize : 4 ≤ cfg.digitSize := by
    have hbit := cfg.lt_digitBit
    have hlt := cfg.digitBit_lt
    omega
  have hmod := Int.natCast_modEq_iff.mpr ((Nat.mod_modEq (((b + 2) &&& 4) * 2 + b)
    (2 ^ cfg.digitSize)).of_dvd (pow_dvd_pow 2 hsize))
  rw [Nat.cast_pow, Nat.cast_ofNat] at hmod
  rw [← Int.modEq_zero_iff_dvd]
  refine ((hmod.mul_left b).sub_right 1).trans ?_
  have hand : (b + 2) &&& 4 = ((b + 2) / 4 % 2) * 4 := by
    rw [show 4 = 2 ^ 2 from rfl, Nat.and_two_pow, Nat.toNat_testBit]
  rw [Int.modEq_zero_iff_dvd, hand]
  obtain ⟨q, hq⟩ : ∃ q, b = 8 * q + b % 8 := ⟨b / 8, by omega⟩
  -- the bit that is added to is the one a square of an odd number misses
  obtain h | h | h | h : b % 8 = 1 ∨ b % 8 = 3 ∨ b % 8 = 5 ∨ b % 8 = 7 := by omega
  · rw [show (b + 2) / 4 % 2 = 0 by omega, hq, h]
    exact ⟨4 * q * q + q, by push_cast; ring⟩
  · rw [show (b + 2) / 4 % 2 = 1 by omega, hq, h]
    exact ⟨4 * q * q + 7 * q + 2, by push_cast; ring⟩
  · rw [show (b + 2) / 4 % 2 = 1 by omega, hq, h]
    exact ⟨4 * q * q + 9 * q + 4, by push_cast; ring⟩
  · rw [show (b + 2) / 4 % 2 = 0 by omega, hq, h]
    exact ⟨4 * q * q + 7 * q + 3, by push_cast; ring⟩

/-- The iteration ends with the inverse of the lowest digit. -/
theorem mpMontgomerySetup_eq (cfg : MpConfig) (hodd : n.dp.getD 0 0 % 2 = 1) :
    ∃ y : ℕ, (2 ^ cfg.digitSize : ℤ) ∣ n.dp.getD 0 0 * y - 1 ∧ y < 2 ^ cfg.digitSize ∧
      mpMontgomerySetup cfg n = .ok ((2 ^ cfg.digitBit + 2 ^ cfg.wordSize - y) %
        2 ^ cfg.wordSize % 2 ^ cfg.digitSize % cfg.base) := by
  have hbit := cfg.lt_digitBit
  have hsize := cfg.digitBit_lt
  have hsize_le := cfg.digitSize_le
  have hx := newton_start cfg hodd
  simp only [mpMontgomerySetup]
  generalize n.dp.getD 0 0 = b at hodd hx ⊢
  rw [if_neg (by omega)]
  generalize (((b + 2) &&& 4) * 2 + b) % 2 ^ cfg.digitSize = x at hx ⊢
  have hlt (x : ℕ) : newton cfg b x < 2 ^ cfg.digitSize := Nat.mod_lt _ (Nat.two_pow_pos _)
  have h8 : (2 ^ 8 : ℤ) ∣ b * newton cfg b x - 1 := newton_spec hx (by omega) (by omega)
  generalize newton cfg b x = x at h8 ⊢
  by_cases h16 : cfg.digitSize ≤ 16
  · rw [if_pos h16, if_pos (by omega)]
    exact ⟨newton cfg b x, newton_spec h8 (by omega) le_rfl, hlt x, rfl⟩
  have h : (2 ^ 16 : ℤ) ∣ b * newton cfg b x - 1 := newton_spec h8 (by omega) (by omega)
  rw [if_neg h16]
  generalize newton cfg b x = x at h ⊢
  by_cases h32 : cfg.digitSize ≤ 32
  · rw [if_pos h32]
    exact ⟨newton cfg b x, newton_spec h (by omega) le_rfl, hlt x, rfl⟩
  have h : (2 ^ 32 : ℤ) ∣ b * newton cfg b x - 1 := newton_spec h (by omega) (by omega)
  rw [if_neg h32]
  exact ⟨newton cfg b (newton cfg b x), newton_spec h (by omega) le_rfl, hlt _, rfl⟩

/-- What `mp_montgomery_setup` returns is minus the inverse of the modulus. -/
theorem mpMontgomerySetup_spec (hn : n.Repr cfg (N : ℕ)) (hodd : N % 2 = 1) :
    ∃ rho, mpMontgomerySetup cfg n = .ok rho ∧ rho < cfg.base ∧ cfg.base ∣ rho * N + 1 := by
  have hbit := cfg.lt_digitBit
  have hsize := cfg.digitBit_lt
  -- the lowest digit
  have hread := getD_eq_div_mod hn.digit_lt 0
  rw [hn.ofDigits_dp, hn.mag_eq, Int.natAbs_natCast, pow_zero, Nat.div_one] at hread
  have hlow : N ≡ n.dp.getD 0 0 [MOD cfg.base] := by rw [hread]; exact (Nat.mod_modEq _ _).symm
  have hodd' : n.dp.getD 0 0 % 2 = 1 := by
    rw [hread, MpConfig.base, Nat.mod_mod_of_dvd _ (dvd_pow_self 2 (by omega)), hodd]
  generalize hb : n.dp.getD 0 0 = b at hodd' hlow
  obtain ⟨y, hy, hlt, hsetup⟩ := mpMontgomerySetup_eq (n := n) cfg (hb ▸ hodd')
  rw [hb] at hy
  refine ⟨_, hsetup, Nat.mod_lt _ cfg.base_pos, ?_⟩
  have hword : cfg.digitSize ≤ cfg.wordSize := by
    rw [MpConfig.wordSize]
    omega
  have hpow : 2 ^ cfg.digitSize ≤ 2 ^ cfg.wordSize := Nat.pow_le_pow_right two_pos hword
  -- minus the inverse
  have hneg : cfg.base ∣ (2 ^ cfg.digitBit + 2 ^ cfg.wordSize - y) % 2 ^ cfg.wordSize %
      2 ^ cfg.digitSize % cfg.base + y := by
    rw [Nat.mod_mod_of_dvd _ (pow_dvd_pow 2 hword), MpConfig.base,
      Nat.mod_mod_of_dvd _ (pow_dvd_pow 2 hsize.le), ← Nat.modEq_zero_iff_dvd]
    refine ((Nat.mod_modEq _ _).add_right y).trans ?_
    rw [Nat.sub_add_cancel ((hlt.le.trans hpow).trans (Nat.le_add_left _ _)),
      Nat.modEq_zero_iff_dvd]
    exact dvd_add dvd_rfl (pow_dvd_pow 2 (hsize.le.trans hword))
  generalize (2 ^ cfg.digitBit + 2 ^ cfg.wordSize - y) % 2 ^ cfg.wordSize % 2 ^ cfg.digitSize %
    cfg.base = rho at hneg ⊢
  refine (Nat.modEq_zero_iff_dvd.mp ((hlow.mul_left rho).add_right 1 |>.trans ?_))
  rw [Nat.modEq_zero_iff_dvd]
  have hinv : (cfg.base : ℤ) ∣ b * y - 1 := by
    refine dvd_trans ?_ hy
    rw [MpConfig.base, Nat.cast_pow, Nat.cast_ofNat]
    exact pow_dvd_pow 2 hsize.le
  have hsum : (cfg.base : ℤ) ∣ (rho + y : ℕ) := Int.natCast_dvd_natCast.mpr hneg
  have hdvd := (hsum.mul_left (b : ℤ)).sub hinv
  have hsub : ((rho * b + 1 : ℕ) : ℤ) = b * (rho + y : ℕ) - (b * y - 1) := by
    push_cast
    ring
  rwa [← Int.natCast_dvd_natCast, hsub]

/-- A number below twice the modulus is reduced by one subtraction. -/
theorem backOff_repr {v : ℕ} (hx : x.Repr cfg (v : ℕ)) (hn : n.Repr cfg (N : ℕ))
    (hlt : v < 2 * N) : (backOff cfg x n).Repr cfg (v % N : ℕ) := by
  have hcmp := mpCmpMag_lt_iff_natCast hx hn
  rw [backOff]
  split
  · next hge =>
    have hle : N ≤ v := not_lt.mp (mt hcmp.mpr hge)
    rw [Nat.mod_eq_sub_mod hle, Nat.mod_eq_of_lt (by omega)]
    exact sMpSub_natCast hx hn hx.toValid hx.sign_natCast hle
  · next hlt => rwa [Nat.mod_eq_of_lt (hcmp.mp (not_not.mp hlt))]

theorem normLoop_repr {v : ℕ} (ha : a.Repr cfg (v : ℕ)) (hb : b.Repr cfg (N : ℕ)) (hv : v < N) :
    (normLoop cfg b k a).Repr cfg (v * 2 ^ k % N : ℕ) := by
  induction k generalizing a v with
  | zero => rwa [pow_zero, mul_one, Nat.mod_eq_of_lt hv]
  | succ k ih =>
    have hdouble : (mpMul2 cfg a a).Repr cfg (v * 2 : ℕ) :=
      (mpMul2_repr ha ha.toValid).cast (by push_cast; rfl)
    have hnext := ih (backOff_repr hdouble hb (by omega)) (Nat.mod_lt _ (by omega))
    rw [normLoop]
    rwa [Nat.mod_mul_mod, mul_assoc, ← pow_succ'] at hnext

/-- `mp_montgomery_calc_normalization` returns the residue of the power of the base. -/
theorem mpMontgomeryCalcNormalization_repr (ha : a.Valid cfg) (hb : b.Repr cfg (N : ℕ))
    (hodd : N % 2 = 1) (hN : 1 < N) :
    (mpMontgomeryCalcNormalization cfg a b).Repr cfg (cfg.base ^ b.used % N : ℕ) := by
  have hbit := cfg.lt_digitBit
  have hused : b.used ≠ 0 := mt hb.used_eq_zero_iff.mp (by omega)
  rw [mpMontgomeryCalcNormalization]
  split
  · next hmany =>
    obtain ⟨t, ht⟩ := Nat.exists_eq_add_one_of_ne_zero hused
    -- the length of the modulus, by its digits
    have hlen := mpCountBits_top hb.toValid ht
    have htop : Nat.size (b.dp.getD t 0) ≤ cfg.digitBit :=
      Nat.size_le.mpr (getD_lt cfg.base_pos hb.digit_lt t)
    have htop_ne : 0 < Nat.size (b.dp.getD t 0) :=
      Nat.size_pos.mpr (Nat.pos_of_ne_zero (hb.top t ht))
    have hmod : mpCountBits cfg b % cfg.digitBit = Nat.size (b.dp.getD t 0) % cfg.digitBit := by
      rw [hlen, Nat.mul_add_mod_self_right]
    have hbits := Nat.mod_lt (Nat.size (b.dp.getD t 0)) (by omega : 0 < cfg.digitBit)
    have hle := Nat.mod_le (Nat.size (b.dp.getD t 0)) cfg.digitBit
    rw [mpCountBits_eq hb, Int.natAbs_natCast] at hlen
    have htpos : cfg.digitBit ≤ t * cfg.digitBit := Nat.le_mul_of_pos_left _ (by omega)
    rw [hmod, ht, Nat.add_sub_cancel]
    generalize Nat.size (b.dp.getD t 0) % cfg.digitBit = bits at hbits hle ⊢
    have hlt : 2 ^ (t * cfg.digitBit + bits - 1) < N := by
      refine lt_of_le_of_ne (Nat.lt_size.mp (by omega)) fun heq ↦ ?_
      rw [← heq, Nat.pow_mod, Nat.mod_self, zero_pow (by omega), Nat.zero_mod] at hodd
      exact absurd hodd zero_ne_one
    have hloop := normLoop_repr (k := cfg.digitBit + 1 - bits) (mp2expt_repr ha _) hb hlt
    have hpow : cfg.base ^ (t + 1) =
        2 ^ (t * cfg.digitBit + bits - 1 + (cfg.digitBit + 1 - bits)) := by
      rw [MpConfig.base, ← pow_mul, mul_comm, Nat.succ_mul]
      congr 1
      omega
    rwa [← pow_add, ← hpow] at hloop
  · next hone =>
    have hloop := normLoop_repr (k := cfg.digitBit)
      ((mpSet_repr ha cfg.one_lt_base).cast (by norm_num : ((1 : ℕ) : ℤ) = (1 : ℕ))) hb hN
    rw [one_mul] at hloop
    rwa [show b.used = 1 by omega, pow_one]

/-! ## Reduction by rows -/

/-- A carry on its way up, with what leaves the buffer. -/
theorem propagateDigit_spec {u : ℕ} {xs : List ℕ} (hu : u < cfg.base)
    (hxs : ∀ z ∈ xs, z < cfg.base) :
    ∃ out, ofDigits cfg.base (propagateDigit cfg u xs) + cfg.base ^ xs.length * out =
        ofDigits cfg.base xs + u ∧
      (propagateDigit cfg u xs).length = xs.length ∧
      ∀ z ∈ propagateDigit cfg u xs, z < cfg.base := by
  induction xs generalizing u with
  | nil => exact ⟨u, by simp [propagateDigit], rfl, fun _ h ↦ nomatch h⟩
  | cons x xs ih =>
    obtain ⟨hx, hxs'⟩ := List.forall_mem_cons.mp hxs
    rcases Nat.eq_zero_or_pos u with rfl | hpos
    · exact ⟨0, by simp [propagateDigit], by simp [propagateDigit],
        by simpa [propagateDigit] using hxs⟩
    · have hdigit := cfg.two_mul_base_le
      have hone := cfg.one_lt_base
      have hcarry : (x + u) / cfg.base < 2 := Nat.div_lt_of_lt_mul (by omega)
      have hstep : propagateDigit cfg u (x :: xs) =
          (x + u) % cfg.base :: propagateDigit cfg ((x + u) / cfg.base) xs := by
        simp only [propagateDigit, if_neg hpos.ne',
          Nat.mod_eq_of_lt (by omega : x + u < 2 ^ cfg.digitSize)]
      obtain ⟨out, hvalue, hlength, hlt⟩ := ih (u := (x + u) / cfg.base) (by omega) hxs'
      have hmod := Nat.mod_add_div (x + u) cfg.base
      rw [hstep]
      refine ⟨out, ?_, congrArg (· + 1) hlength,
        List.forall_mem_cons.mpr ⟨Nat.mod_lt _ cfg.base_pos, hlt⟩⟩
      rw [Nat.ofDigits_cons, Nat.ofDigits_cons, List.length_cons, pow_succ]
      linear_combination hmod + cfg.base * hvalue

/-- A multiple of the modulus is added in place, with what leaves the buffer. -/
theorem reduceRow_spec {mu u : ℕ} {xs ns : List ℕ} (hmu : mu < cfg.base) (hu : u < cfg.base)
    (hxs : ∀ z ∈ xs, z < cfg.base) (hns : ∀ z ∈ ns, z < cfg.base) :
    ∃ out, ofDigits cfg.base (reduceRow cfg mu u xs ns) + cfg.base ^ xs.length * out =
        ofDigits cfg.base xs + mu * ofDigits cfg.base ns + u ∧
      (reduceRow cfg mu u xs ns).length = xs.length ∧
      ∀ z ∈ reduceRow cfg mu u xs ns, z < cfg.base := by
  induction xs generalizing u ns with
  | nil => exact ⟨mu * ofDigits cfg.base ns + u, by simp [reduceRow], by simp [reduceRow],
      by simp [reduceRow]⟩
  | cons x xs ih =>
    cases ns with
    | nil => simpa [reduceRow] using propagateDigit_spec hu hxs
    | cons n ns =>
      obtain ⟨hx, hxs⟩ := List.forall_mem_cons.mp hxs
      obtain ⟨hn, hns⟩ := List.forall_mem_cons.mp hns
      have hsquare := two_mul_square_le cfg
      have hdigit := cfg.two_mul_base_le
      have hmul := mul_digits_le hmu hn
      have hr : mu * n + u + x < cfg.base * cfg.base := by omega
      have hcarry : (mu * n + u + x) / cfg.base < cfg.base := Nat.div_lt_of_lt_mul hr
      have hstep : reduceRow cfg mu u (x :: xs) (n :: ns) = (mu * n + u + x) % cfg.base ::
          reduceRow cfg mu ((mu * n + u + x) / cfg.base) xs ns := by
        rw [reduceRow, Nat.mod_eq_of_lt (by omega : mu * n + u + x < 2 ^ cfg.wordSize),
          Nat.mod_eq_of_lt (by omega : _ < 2 ^ cfg.digitSize)]
      obtain ⟨out, hvalue, hlength, hlt⟩ := ih hcarry hxs hns
      have hmod := Nat.mod_add_div (mu * n + u + x) cfg.base
      rw [hstep]
      refine ⟨out, ?_, congrArg (· + 1) hlength,
        List.forall_mem_cons.mpr ⟨Nat.mod_lt _ cfg.base_pos, hlt⟩⟩
      rw [Nat.ofDigits_cons, Nat.ofDigits_cons, Nat.ofDigits_cons, List.length_cons, pow_succ]
      linear_combination hmod + cfg.base * hvalue

/-- The multiple that a row adds, from its lowest digit. -/
theorem mu_eq {B rho : ℕ} (xs : List ℕ) (d : ℕ) (hB : B ∣ d) :
    xs.getD 0 0 % B * rho % d % B = ofDigits B xs % B * rho % B := by
  rw [Nat.mod_mod_of_dvd _ hB]
  cases xs with
  | nil => rfl
  | cons x xs => rw [List.getD_cons_zero, Nat.ofDigits_cons, Nat.add_mul_mod_self_left]

theorem base_dvd_wordSize (cfg : MpConfig) : cfg.base ∣ 2 ^ cfg.wordSize := by
  have hlt := cfg.digitBit_lt
  exact pow_dvd_pow 2 (by rw [MpConfig.wordSize]; omega)

/-- The rows divide the places out, one after the other, and the places become zeros. -/
theorem reduceRows_spec {xs ns : List ℕ} (hrho : cfg.base ∣ rho * ofDigits cfg.base ns + 1)
    (hxs : ∀ z ∈ xs, z < cfg.base) (hns : ∀ z ∈ ns, z < cfg.base)
    (hroom : k + ns.length + 1 ≤ xs.length)
    (hlt : ofDigits cfg.base xs < (cfg.base ^ k + 1) * ofDigits cfg.base ns) :
    ofDigits cfg.base (reduceRows cfg rho ns k xs) =
        cfg.base ^ k * redc cfg.base (ofDigits cfg.base ns) rho k (ofDigits cfg.base xs) ∧
      (reduceRows cfg rho ns k xs).length = xs.length ∧
      ∀ z ∈ reduceRows cfg rho ns k xs, z < cfg.base := by
  induction k generalizing xs with
  | zero => exact ⟨by simp [reduceRows, redc], rfl, hxs⟩
  | succ k ih =>
    have hbase := cfg.one_lt_base
    have hlen : xs.length ≠ 0 := by omega
    have hmu : xs.getD 0 0 * rho % 2 ^ cfg.wordSize % cfg.base =
        ofDigits cfg.base xs % cfg.base * rho % cfg.base := by
      rw [← mu_eq xs _ (base_dvd_wordSize cfg), Nat.mod_eq_of_lt (getD_lt cfg.base_pos hxs 0)]
    have hmu_lt : ofDigits cfg.base xs % cfg.base * rho % cfg.base < cfg.base :=
      Nat.mod_lt _ cfg.base_pos
    have hstep := mul_redcStep hrho (ofDigits cfg.base xs)
    obtain ⟨out, hvalue, hlength, hrow⟩ := reduceRow_spec hmu_lt cfg.base_pos hxs hns
    simp only [reduceRows, hmu]
    rw [add_zero, ← hstep] at hvalue
    obtain ⟨x, rest, hcons⟩ := List.exists_cons_of_length_pos
      (Nat.pos_of_ne_zero (hlength ▸ hlen))
    have hnext := redcStep_lt cfg.base_pos hrho hlt
    have hfits : cfg.base * ((cfg.base ^ k + 1) * ofDigits cfg.base ns) ≤
        cfg.base ^ xs.length := by
      have hN := Nat.ofDigits_lt_base_pow_length hbase hns
      calc cfg.base * ((cfg.base ^ k + 1) * ofDigits cfg.base ns)
          ≤ cfg.base * (cfg.base ^ k * cfg.base * cfg.base ^ ns.length) := by
            refine Nat.mul_le_mul_left _ (Nat.mul_le_mul ?_ hN.le)
            have hpos := Nat.pow_pos (n := k) cfg.base_pos
            have hmul := Nat.mul_le_mul_left (cfg.base ^ k) hbase
            omega
        _ = cfg.base ^ (k + 1 + ns.length + 1) := by ring
        _ ≤ cfg.base ^ xs.length := Nat.pow_le_pow_right cfg.base_pos hroom
    have hout : out = 0 := by
      by_contra hne
      have hle := Nat.le_mul_of_pos_right (cfg.base ^ xs.length) (Nat.pos_of_ne_zero hne)
      have hmul := Nat.mul_lt_mul_of_pos_left hnext cfg.base_pos
      omega
    rw [hout, mul_zero, add_zero] at hvalue
    rw [hcons] at hlength hrow hvalue ⊢
    obtain ⟨hx, hrest⟩ := List.forall_mem_cons.mp hrow
    rw [Nat.ofDigits_cons] at hvalue
    -- the lowest digit is divided out
    obtain rfl : x = 0 := by
      have hmod := congrArg (· % cfg.base) hvalue
      simpa [Nat.mod_eq_of_lt hx] using hmod
    rw [zero_add] at hvalue
    have htail := Nat.eq_of_mul_eq_mul_left cfg.base_pos hvalue
    rw [List.length_cons] at hlength
    obtain ⟨hfinal, hlen', hlt'⟩ := ih hrest (by omega)
      (htail ▸ hnext)
    refine ⟨?_, by rw [List.length_cons, hlen', hlength],
      List.forall_mem_cons.mpr ⟨cfg.base_pos, hlt'⟩⟩
    rw [Nat.ofDigits_cons, hfinal, htail, redc, pow_succ]
    ring

/-- The reduction by rows. -/
theorem reduceRows_repr {T : ℕ} (hx : x.Repr cfg (T : ℕ)) (hn : n.Repr cfg (N : ℕ))
    (hrho : cfg.base ∣ rho * N + 1) (hT : T < cfg.base ^ n.used * N) :
    (backOff cfg (mpRshd (MpInt.clamp { x.grow (n.used * 2 + 1) with
      used := n.used * 2 + 1
      dp := reduceRows cfg rho n.digits n.used (x.grow (n.used * 2 + 1)).dp }) n.used) n).Repr cfg
        (redc cfg.base N rho n.used T % N : ℕ) := by
  have hN := hn.ofDigits_digits
  have hlen := le_length_grow x (n.used * 2 + 1)
  have hgrow := hx.grow (n.used * 2 + 1)
  have hdp : ofDigits cfg.base (x.grow (n.used * 2 + 1)).dp = T := by
    rw [hgrow.ofDigits_dp, hgrow.mag_eq, Int.natAbs_natCast]
  obtain ⟨hvalue, hlength, hlt⟩ := reduceRows_spec (k := n.used) (hN ▸ hrho) hgrow.digit_lt
    hn.digits_lt (by rw [hn.length_digits]; omega) (by
      rw [hdp, hN, add_mul]
      exact Nat.lt_add_right _ hT)
  rw [hdp, hN] at hvalue
  have hredc := redc_lt cfg.base_pos hrho hT
  have hNlt := hn.mag_lt
  rw [hn.mag_eq, Int.natAbs_natCast] at hNlt
  have hpow : 0 < cfg.base ^ n.used := Nat.pow_pos cfg.base_pos
  have hbound : cfg.base ^ n.used * redc cfg.base N rho n.used T <
      cfg.base ^ (n.used * 2 + 1) := by
    calc cfg.base ^ n.used * redc cfg.base N rho n.used T
        < cfg.base ^ n.used * (2 * N) := Nat.mul_lt_mul_of_pos_left hredc hpow
      _ ≤ cfg.base ^ n.used * (cfg.base * cfg.base ^ n.used) :=
          Nat.mul_le_mul_left _ (Nat.mul_le_mul cfg.one_lt_base hNlt.le)
      _ = cfg.base ^ (n.used * 2 + 1) := by ring
  have hclamp := repr_clamp_buffer (n := n.used * 2 + 1) hlt
    (by rw [hlength]; exact hgrow.prec_le) (by rwa [hlength]) (by rwa [hvalue]) .zpos
  have hshift := mpRshd_repr hclamp n.used
  rw [hvalue, MpSign.apply_zpos, ← Int.ofNat_tdiv, Nat.mul_div_cancel_left _ hpow] at hshift
  simp only [hgrow.sign_natCast]
  exact backOff_repr hshift hn hredc

/-! ## Reduction by columns -/

/-- A multiple of the modulus is added to columns that have room for the products. -/
theorem addProducts_spec {mu E : ℕ} {ws ns : List ℕ} (hmu : mu < cfg.base)
    (hns : ∀ z ∈ ns, z < cfg.base) (hlen : ns.length ≤ ws.length) (hws : ∀ w ∈ ws, w ≤ E)
    (hword : E + (cfg.base - 1) * (cfg.base - 1) < 2 ^ cfg.wordSize) :
    ofDigits cfg.base (addProducts cfg mu ws ns) =
        ofDigits cfg.base ws + mu * ofDigits cfg.base ns ∧
      (addProducts cfg mu ws ns).length = ws.length ∧
      ∀ w ∈ addProducts cfg mu ws ns, w ≤ E + (cfg.base - 1) * (cfg.base - 1) := by
  induction ws generalizing ns with
  | nil =>
    obtain rfl := List.length_eq_zero_iff.mp (Nat.le_zero.mp hlen)
    exact ⟨by simp [addProducts], rfl, by simp [addProducts]⟩
  | cons w ws ih =>
    cases ns with
    | nil =>
      rw [addProducts]
      · exact ⟨by simp, rfl, fun w hw ↦ (hws w hw).trans (Nat.le_add_right _ _)⟩
      · exact fun _ _ _ _ _ ↦ nofun
    | cons n ns =>
      obtain ⟨hw, hws⟩ := List.forall_mem_cons.mp hws
      obtain ⟨hn, hns⟩ := List.forall_mem_cons.mp hns
      have hmul := Nat.mul_le_mul (Nat.le_sub_one_of_lt hmu) (Nat.le_sub_one_of_lt hn)
      obtain ⟨hvalue, hlength, hle⟩ := ih hns (Nat.le_of_succ_le_succ hlen) hws
      rw [addProducts, Nat.mod_eq_of_lt (by omega : w + mu * n < 2 ^ cfg.wordSize)]
      refine ⟨?_, congrArg (· + 1) hlength, List.forall_mem_cons.mpr ⟨by omega, hle⟩⟩
      rw [Nat.ofDigits_cons, Nat.ofDigits_cons, Nat.ofDigits_cons, hvalue]
      ring

/-- The rows divide the places out of columns that no word overflows: a column has room for a
product from each row that is to come, and for the carry `K`. -/
theorem fastRows_spec {K E w : ℕ} {ws ns : List ℕ}
    (hrho : cfg.base ∣ rho * ofDigits cfg.base ns + 1) (hns : ∀ z ∈ ns, z < cfg.base)
    (hne : ns ≠ []) (hlen : ws.length = k + ns.length) (hw : w ≤ E + K) (hws : ∀ w ∈ ws, w ≤ E)
    (hK : E + k * ((cfg.base - 1) * (cfg.base - 1)) + K = cfg.base * K)
    (hword : cfg.base * K < 2 ^ cfg.wordSize) :
    ofDigits cfg.base (fastRows cfg rho ns k (w :: ws)) =
        redc cfg.base (ofDigits cfg.base ns) rho k (ofDigits cfg.base (w :: ws)) ∧
      (fastRows cfg rho ns k (w :: ws)).length = ns.length + 1 ∧
      ∀ z ∈ fastRows cfg rho ns k (w :: ws), z ≤ cfg.base * K := by
  induction k generalizing w ws E with
  | zero =>
    rw [zero_mul, add_zero] at hK
    have hle : ∀ z ∈ w :: ws, z ≤ cfg.base * K := List.forall_mem_cons.mpr
      ⟨hw.trans hK.le, fun z hz ↦ (hws z hz).trans (hK ▸ Nat.le_add_right E K)⟩
    have hzero : fastRows cfg rho ns 0 (w :: ws) = w :: ws := by rw [fastRows]
    rw [hzero, redc]
    exact ⟨rfl, by rw [List.length_cons, hlen, zero_add], hle⟩
  | succ k ih =>
    rw [Nat.succ_mul] at hK
    have hstep := mul_redcStep hrho (ofDigits cfg.base (w :: ws))
    have hmu := @mu_eq cfg.base rho (w :: ws) _ (base_dvd_wordSize cfg)
    have hmu_lt : ofDigits cfg.base (w :: ws) % cfg.base * rho % cfg.base < cfg.base :=
      Nat.mod_lt _ cfg.base_pos
    simp only [fastRows, hmu, redc]
    generalize ofDigits cfg.base (w :: ws) % cfg.base * rho % cfg.base = mu at hstep hmu_lt ⊢
    obtain ⟨n, ns', rfl⟩ := List.exists_cons_of_ne_nil hne
    obtain ⟨hn, hns'⟩ := List.forall_mem_cons.mp hns
    have hmul := Nat.mul_le_mul (Nat.le_sub_one_of_lt hmu_lt) (Nat.le_sub_one_of_lt hn)
    rw [List.length_cons] at hlen
    obtain ⟨hvalue, hlength, hle⟩ := addProducts_spec hmu_lt hns' (by omega) hws
      (by omega : E + (cfg.base - 1) * (cfg.base - 1) < 2 ^ cfg.wordSize)
    obtain ⟨next, more, hcons⟩ := List.exists_cons_of_length_pos
      (l := addProducts cfg mu ws ns') (by omega)
    rw [addProducts, Nat.mod_eq_of_lt (by omega : w + mu * n < 2 ^ cfg.wordSize), hcons]
    rw [hcons] at hvalue hlength hle
    obtain ⟨hnext, hmore⟩ := List.forall_mem_cons.mp hle
    have hcarry : (w + mu * n) / cfg.base ≤ K :=
      Nat.div_le_of_le_mul (by omega)
    -- the division of the lowest column has no remainder
    have hdiv : (w + mu * n) / cfg.base + ofDigits cfg.base (next :: more) =
        redcStep cfg.base (ofDigits cfg.base (n :: ns')) rho (ofDigits cfg.base (w :: ws)) := by
      rw [Nat.ofDigits_cons, Nat.ofDigits_cons] at hstep
      have hsum : w + mu * n + cfg.base * ofDigits cfg.base (next :: more) =
          cfg.base * redcStep cfg.base (ofDigits cfg.base (n :: ns')) rho
            (ofDigits cfg.base (w :: ws)) := by
        rw [hvalue, Nat.ofDigits_cons, Nat.ofDigits_cons, hstep]
        ring
      have hdvd : cfg.base ∣ w + mu * n :=
        (Nat.dvd_add_left (Nat.dvd_mul_right _ _)).mp ⟨_, hsum⟩
      refine Nat.eq_of_mul_eq_mul_left cfg.base_pos ?_
      rw [mul_add, Nat.mul_div_cancel' hdvd, hsum]
    simp only
    rw [Nat.mod_eq_of_lt (by omega : next + (w + mu * n) / cfg.base < 2 ^ cfg.wordSize)]
    rw [List.length_cons] at hlength
    have hnew : ofDigits cfg.base ((next + (w + mu * n) / cfg.base) :: more) =
        redcStep cfg.base (ofDigits cfg.base (n :: ns')) rho (ofDigits cfg.base (w :: ws)) := by
      rw [← hdiv, Nat.ofDigits_cons, Nat.ofDigits_cons]
      ring
    rw [← hnew]
    exact ih (E := E + (cfg.base - 1) * (cfg.base - 1))
      (by rw [List.length_cons]; omega) (by omega) hmore (by omega)

/-- The room of a column: the products of less than `MP_MAXFAST` rows, and the carries. -/
theorem montgomery_room (cfg : MpConfig) {m : ℕ} (hm : m < cfg.maxfast) :
    cfg.base - 1 + m * ((cfg.base - 1) * (cfg.base - 1)) + (1 + m * (cfg.base - 1)) =
        cfg.base * (1 + m * (cfg.base - 1)) ∧
      cfg.base * (1 + m * (cfg.base - 1)) + (m * cfg.base + 1) <
        (m * cfg.base + 1 + 1) * cfg.base ∧
      cfg.base * (1 + m * (cfg.base - 1)) + (m * cfg.base + 1) < 2 ^ cfg.wordSize := by
  have hword := cfg.maxfast_mul_base
  have hbase := cfg.one_lt_base
  obtain ⟨b, hb⟩ := Nat.exists_eq_add_of_lt hbase
  rw [hb] at hword ⊢
  rw [show 1 + b + 1 - 1 = b + 1 by omega]
  refine ⟨by ring, by ring_nf; omega, ?_⟩
  have hle := Nat.mul_le_mul_right ((1 + b + 1) * (1 + b + 1)) (Nat.succ_le_of_lt hm)
  rw [hword] at hle
  nlinarith

/-- The reduction by columns. -/
theorem sMpMontgomeryReduceFast_repr {T : ℕ} (hx : x.Repr cfg (T : ℕ)) (hn : n.Repr cfg (N : ℕ))
    (hrho : cfg.base ∣ rho * N + 1) (hT : T < cfg.base ^ n.used * N)
    (hdigs : n.used * 2 + 1 < cfg.warray) (hfast : n.used < cfg.maxfast) :
    ∃ x', sMpMontgomeryReduceFast cfg x n rho = .ok x' ∧
      x'.Repr cfg (redc cfg.base N rho n.used T % N : ℕ) := by
  have hN := hn.ofDigits_digits
  have hNlt := hn.mag_lt
  rw [hn.mag_eq, Int.natAbs_natCast] at hNlt
  have hpow : 0 < cfg.base ^ n.used := Nat.pow_pos cfg.base_pos
  have hredc := redc_lt cfg.base_pos hrho hT
  obtain ⟨hroom, hcarry, hword⟩ := montgomery_room cfg hfast
  -- the number has no more digits than there are columns
  have hused : x.used ≤ n.used * 2 := by
    by_contra hlt
    obtain ⟨m, hm⟩ := Nat.exists_eq_add_one_of_ne_zero (Nat.ne_zero_of_lt (not_le.mp hlt))
    have hle := hx.toCanonical.pow_le_mag hm
    rw [hx.mag_eq, Int.natAbs_natCast] at hle
    have hsquare : cfg.base ^ n.used * N < cfg.base ^ (n.used * 2) := by
      rw [mul_two, pow_add]
      exact Nat.mul_lt_mul_of_pos_left hNlt hpow
    have hmono := Nat.pow_le_pow_right cfg.base_pos (by omega : n.used * 2 ≤ m)
    omega
  have hne : n.digits ≠ [] := by
    intro h
    have hzero : N = 0 := by rw [← hN, h, Nat.ofDigits_nil]
    rw [hzero, mul_zero] at hT
    exact absurd hT (Nat.not_lt_zero T)
  rw [sMpMontgomeryReduceFast, if_neg (by omega)]
  refine ⟨_, rfl, ?_⟩
  have hlen : (x.digits ++ List.replicate (n.used * 2 + 1 - x.used) 0).length =
      n.used * 2 + 1 := by
    rw [List.length_append, List.length_replicate, hx.length_digits]
    omega
  have hvalue : ofDigits cfg.base
      (x.digits ++ List.replicate (n.used * 2 + 1 - x.used) 0) = T := by
    rw [Nat.ofDigits_append, Nat.ofDigits_replicate_zero, mul_zero, add_zero, hx.ofDigits_digits]
  have hle : ∀ z ∈ x.digits ++ List.replicate (n.used * 2 + 1 - x.used) 0,
      z ≤ cfg.base - 1 := List.forall_mem_append.mpr
    ⟨fun z hz ↦ Nat.le_sub_one_of_lt (hx.digits_lt z hz),
      fun z hz ↦ (List.eq_of_mem_replicate hz).le.trans (Nat.zero_le _)⟩
  generalize x.digits ++ List.replicate (n.used * 2 + 1 - x.used) 0 = ws at hlen hvalue hle ⊢
  obtain ⟨w, ws, rfl⟩ := List.exists_cons_of_length_pos (by omega : 0 < ws.length)
  obtain ⟨hw, hws⟩ := List.forall_mem_cons.mp hle
  rw [List.length_cons] at hlen
  obtain ⟨hrows, hlength, hcols⟩ := fastRows_spec (k := n.used) (hN ▸ hrho) hn.digits_lt hne
    (by rw [hn.length_digits]; omega) (hw.trans (Nat.le_add_right _ _)) hws hroom (by omega)
  rw [hn.length_digits] at hlength
  rw [hN, hvalue] at hrows
  generalize fastRows cfg rho n.digits n.used (w :: ws) = ws at hrows hlength hcols ⊢
  rw [List.take_of_length_le hlength.le, wordCarry_eq hcarry hword (by omega) hcols (Nat.zero_le _)]
  have hsum := ofDigits_carryDigits (B := cfg.base) 0 ws
  rw [zero_add, hrows, hlength] at hsum
  have hout : carryOut cfg.base 0 ws = 0 := by
    by_contra hne
    have hle := Nat.le_mul_of_pos_right (cfg.base ^ (n.used + 1)) (Nat.pos_of_ne_zero hne)
    have hdouble := Nat.mul_le_mul cfg.one_lt_base hNlt.le
    rw [← pow_succ'] at hdouble
    omega
  rw [hout, mul_zero, add_zero] at hsum
  have hfill := repr_fill (n := n.used + 1) hx.toValid (carryDigits_lt cfg.base_pos 0 ws)
    (by rw [length_carryDigits, hlength]) x.sign
  rw [hsum, hx.sign_natCast, MpSign.apply_zpos] at hfill
  rw [hx.sign_natCast]
  exact backOff_repr hfill hn hredc

/-- `mp_montgomery_reduce` divides the power of the base out. -/
theorem mpMontgomeryReduce_repr {T : ℕ} (hx : x.Repr cfg (T : ℕ)) (hn : n.Repr cfg (N : ℕ))
    (hrho : cfg.base ∣ rho * N + 1) (hT : T < cfg.base ^ n.used * N) :
    ∃ x', mpMontgomeryReduce cfg x n rho = .ok x' ∧
      x'.Repr cfg (redc cfg.base N rho n.used T % N : ℕ) := by
  rw [mpMontgomeryReduce]
  split
  · next h => exact sMpMontgomeryReduceFast_repr hx hn hrho hT h.1 h.2.2
  · exact ⟨_, rfl, reduceRows_repr hx hn hrho hT⟩

end Mp

end SecureIIoT
