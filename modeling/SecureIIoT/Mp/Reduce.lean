import SecureIIoT.Mp.Montgomery

/-!
# Reduction modulo a number close to a power of two

`mp_reduce_2k` and `mp_reduce_2k_l` replace what lies above the bits of the modulus by its
product with `2 ^ p - n`, which is a residue of it, and they end with the remainder
(`mpReduce2k_repr`, `mpReduce2kL_repr`).  The first keeps `2 ^ p - n` in a digit, but
`mp_reduce_is_2k` only makes it at most the base.  A modulus of two digits that is the base short
of a power of two misses its digit (`MissesDigit`), and no other one does
(`mpReduceIs2k_cases`).

`mp_dr_reduce` is never reached: its moduli are found by `mp_reduce_is_2k_l` before
(`mpReduceIs2kL_of_dr`).
-/

namespace SecureIIoT

namespace Mp

open Radix ByteString

open Nat (ofDigits)

variable (cfg : MpConfig)

/-! ## The operations -/

/-- `mp_mod_2d` -/
def mpMod2d (a : MpInt) (b : ℕ) (c : MpInt) : MpInt :=
  if b = 0 then mpZero c
  else if a.used * cfg.digitBit ≤ b then mpCopy a c
  else
    let c := mpCopy a c
    let x := b / cfg.digitBit + if b % cfg.digitBit = 0 then 0 else 1
    let dp := c.dp.take x ++ List.replicate (c.used - x) 0 ++ c.dp.drop c.used
    let d := dp.getD (b / cfg.digitBit) 0 &&& 2 ^ (b % cfg.digitBit) - 1
    MpInt.clamp { c with dp := dp.set (b / cfg.digitBit) d }

/-- The loop of `mp_reduce_is_2k`. -/
def is2kLoop (dp : List ℕ) : (left iw iz : ℕ) → Bool
  | 0, _, _ => true
  | left + 1, iw, iz =>
    if dp.getD iw 0 &&& iz = 0 then false
    else
      let iz := iz * 2 % 2 ^ cfg.digitSize
      if cfg.base - 1 < iz then is2kLoop dp left (iw + 1) 1 else is2kLoop dp left iw iz

/-- `mp_reduce_is_2k` -/
def mpReduceIs2k (a : MpInt) : Bool :=
  if a.used = 0 then false
  else if a.used = 1 then true
  else is2kLoop cfg a.dp (mpCountBits cfg a - cfg.digitBit) 1 1

/-- `mp_reduce_is_2k_l` -/
def mpReduceIs2kL (a : MpInt) : Bool :=
  if a.used = 0 then false
  else if a.used = 1 then true
  else decide (a.used / 2 ≤ a.digits.count (cfg.base - 1))

/-- `mp_dr_is_modulus` -/
def mpDrIsModulus (a : MpInt) : Bool :=
  if a.used < 2 then false else (a.digits.drop 1).all (· == cfg.base - 1)

/-- `mp_reduce_2k_setup` -/
def mpReduce2kSetup (a : MpInt) : ℕ :=
  let tmp := mp2expt cfg mpInit (mpCountBits cfg a)
  (sMpSub cfg tmp a tmp).dp.getD 0 0

/-- `mp_reduce_2k_setup_l` -/
def mpReduce2kSetupL (a d : MpInt) : MpInt :=
  sMpSub cfg (mp2expt cfg mpInit (mpCountBits cfg a)) a d

/-- The loop of `mp_reduce_2k` and of `mp_reduce_2k_l`, which multiply by `d`. -/
def reduce2kLoop (mulD : MpInt → MpInt) (n : MpInt) (p : ℕ) : (fuel : ℕ) → (a q : MpInt) → MpInt
  | 0, a, _ => a
  | fuel + 1, a, q =>
    let q := mpDiv2d cfg a p q
    let a := mpMod2d cfg a p a
    let q := mulD q
    let a := sMpAdd cfg a q a
    if mpCmpMag a n ≠ .lt then reduce2kLoop mulD n p fuel (sMpSub cfg a n a) q else a

/-- `mp_reduce_2k` -/
def mpReduce2k (a n : MpInt) (d : ℕ) : MpInt :=
  reduce2kLoop cfg (fun q ↦ if d ≠ 1 then mpMulD cfg q d q else q) n (mpCountBits cfg n)
    (a.mag cfg + 1) a mpInit

/-- `mp_reduce_2k_l` -/
def mpReduce2kL (large : LargeMul) (a n d : MpInt) : MpInt :=
  reduce2kLoop cfg (fun q ↦ mpMul cfg large q d q) n (mpCountBits cfg n) (a.mag cfg + 1) a mpInit

/-- `mp_dr_setup` -/
def mpDrSetup (a : MpInt) : ℕ :=
  (2 ^ cfg.digitBit + 2 ^ cfg.wordSize - a.dp.getD 0 0) % 2 ^ cfg.wordSize % 2 ^ cfg.digitSize

/-- The loop over the digits of `mp_dr_reduce`, which ends with the carry. -/
def drRow (k : ℕ) : (mu : ℕ) → (tmpx1 tmpx2 : List ℕ) → List ℕ
  | mu, [], _ => [mu]
  | mu, x :: xs, ys =>
    let r := (ys.headD 0 * k + x + mu) % 2 ^ cfg.wordSize
    r % cfg.base :: drRow k (r / cfg.base % 2 ^ cfg.digitSize) xs ys.tail

/-- The passes of `mp_dr_reduce`. -/
def drLoop (n : MpInt) (k : ℕ) : (fuel : ℕ) → MpInt → MpInt
  | 0, x => x
  | fuel + 1, x =>
    let m := n.used
    let dp := drRow cfg k 0 (x.dp.take m) (x.dp.drop m) ++ List.replicate (x.used - m - 1) 0 ++
      x.dp.drop (max x.used (m + 1))
    let x := MpInt.clamp { x with dp := dp }
    if mpCmpMag x n ≠ .lt then drLoop n k fuel (sMpSub cfg x n x) else x

/-- `mp_dr_reduce` -/
def mpDrReduce (x n : MpInt) (k : ℕ) : MpInt :=
  drLoop cfg n k (x.mag cfg + 1) (x.grow (n.used + n.used))

variable {cfg} {a b c n : MpInt} {v w : ℤ} {N k : ℕ}

open MpInt

theorem apply_tmod (s : MpSign) (m n : ℕ) : s.apply (m % n) = (s.apply m).tmod n := by
  cases s with
  | zpos => rfl
  | neg => rw [MpSign.apply_neg, MpSign.apply_neg, Int.neg_tmod]; rfl

/-- The lowest digits of a buffer, and of the next one a part. -/
theorem ofDigits_take_set {ds : List ℕ} {i r : ℕ} (hds : ∀ d ∈ ds, d < cfg.base)
    (hr : r ≤ cfg.digitBit) :
    ofDigits cfg.base (ds.take i) + cfg.base ^ i * (ds.getD i 0 % 2 ^ r) =
      ofDigits cfg.base ds % (cfg.base ^ i * 2 ^ r) := by
  rw [Nat.mod_mul, getD_eq_div_mod hds, Nat.ofDigits_mod_pow_eq_ofDigits_take _ cfg.base_pos _ hds,
    MpConfig.base, Nat.mod_mod_of_dvd _ (pow_dvd_pow 2 hr)]

/-- `mp_mod_2d` is the remainder of `mp_div_2d`. -/
theorem mpMod2d_repr (ha : a.Repr cfg v) (hc : c.Valid cfg) (n : ℕ) :
    (mpMod2d cfg a n c).Repr cfg (v.tmod (2 ^ n : ℕ)) := by
  have hbit : 0 < cfg.digitBit := Nat.zero_lt_of_lt cfg.lt_digitBit
  have hbits : cfg.base ^ (n / cfg.digitBit) * 2 ^ (n % cfg.digitBit) = 2 ^ n := by
    rw [MpConfig.base, ← pow_mul, ← pow_add, Nat.div_add_mod]
  have hcopy := ha.copy hc
  have hused := hcopy.used_eq ha
  have hvalue := hcopy.toInt_eq
  rw [mpMod2d]
  split
  · next h => exact (mpZero_repr hc).cast (by rw [h, pow_zero, Nat.cast_one, Int.tmod_one])
  split
  · next hle =>
    refine hcopy.cast ?_
    have hlt : a.mag cfg < 2 ^ n := ha.mag_lt.trans_le (by
      rw [MpConfig.base, ← pow_mul, mul_comm]
      exact Nat.pow_le_pow_right two_pos hle)
    rw [← ha.toInt_eq, toInt, ← apply_tmod, Nat.mod_eq_of_lt hlt]
  next hlt =>
  rw [toInt] at hvalue
  rw [← hused, not_le] at hlt
  generalize mpCopy a c = c at hcopy hvalue hlt ⊢
  have hq : n / cfg.digitBit < c.used := Nat.div_lt_of_lt_mul (by rwa [mul_comm])
  have hr : n % cfg.digitBit < cfg.digitBit := Nat.mod_lt _ hbit
  have hlen := hcopy.used_le
  have hmag := hcopy.ofDigits_dp
  have hdigit := ofDigits_take_set (i := n / cfg.digitBit) hcopy.digit_lt hr.le
  have htake := ofDigits_take_succ (B := cfg.base) c.dp (n / cfg.digitBit)
  rw [hmag, hbits] at hdigit
  -- the buffer once the digits above are cleared
  obtain ⟨x, hx, hx_le⟩ : ∃ x, x = n / cfg.digitBit +
      (if n % cfg.digitBit = 0 then 0 else 1) ∧ x ≤ c.used := ⟨_, rfl, by split <;> omega⟩
  have hzeros : ofDigits cfg.base (c.dp.take x ++ List.replicate (c.used - x) 0 ++
      c.dp.drop c.used) = ofDigits cfg.base (c.dp.take x) := by
    rw [List.append_assoc, Nat.ofDigits_append, Nat.ofDigits_append, Nat.ofDigits_replicate_zero,
      ofDigits_eq_zero hcopy.excess, mul_zero, add_zero, mul_zero, add_zero]
  have hlength : (c.dp.take x ++ List.replicate (c.used - x) 0 ++
      c.dp.drop c.used).length = c.dp.length := by
    simp only [List.length_append, List.length_take, List.length_replicate, List.length_drop]
    omega
  have hds : ∀ d ∈ c.dp.take x ++ List.replicate (c.used - x) 0 ++ c.dp.drop c.used,
      d < cfg.base := by
    simp only [List.forall_mem_append]
    exact ⟨⟨fun d hd ↦ hcopy.digit_lt d (List.mem_of_mem_take hd),
      fun d hd ↦ List.eq_of_mem_replicate hd ▸ cfg.base_pos⟩,
      fun d hd ↦ hcopy.digit_lt d (List.mem_of_mem_drop hd)⟩
  simp only [← hx]
  generalize c.dp.take x ++ List.replicate (c.used - x) 0 ++ c.dp.drop c.used = ds
    at hzeros hlength hds ⊢
  have hget := getD_eq_div_mod hds (n / cfg.digitBit)
  have hlow := ofDigits_take_lt cfg.one_lt_base hcopy.digit_lt (n / cfg.digitBit)
  have hset := ofDigits_set_add (B := cfg.base) (by omega : n / cfg.digitBit < ds.length)
    (ds.getD (n / cfg.digitBit) 0 % 2 ^ (n % cfg.digitBit))
  have hmod : ofDigits cfg.base (ds.set (n / cfg.digitBit)
      (ds.getD (n / cfg.digitBit) 0 % 2 ^ (n % cfg.digitBit))) = c.mag cfg % 2 ^ n := by
    rw [hzeros, hx] at hset hget
    split at hset
    · next hzero =>
      rw [if_pos hzero, add_zero, Nat.div_eq_of_lt hlow, Nat.zero_mod] at hget
      rw [hzero, pow_zero, Nat.mod_one, mul_zero, add_zero] at hdigit
      rw [hget, Nat.zero_mod, mul_zero, add_zero, add_zero, add_zero, hdigit] at hset
      rw [hget, Nat.zero_mod, hset]
    · next hne =>
      rw [if_neg hne, htake, Nat.add_mul_div_left _ _ (Nat.pow_pos cfg.base_pos),
        Nat.div_eq_of_lt hlow, zero_add,
        Nat.mod_eq_of_lt (getD_lt cfg.base_pos hcopy.digit_lt _)] at hget
      rw [htake, hget] at hset
      rw [hget]
      omega
  have hmag_lt : c.mag cfg % 2 ^ n < cfg.base ^ c.used :=
    (Nat.mod_le _ _).trans_lt hcopy.mag_lt
  have hclamp := repr_clamp_buffer (n := c.used)
    (forall_mem_set (n := n / cfg.digitBit) hds ((Nat.mod_le _ _).trans_lt
      (getD_lt cfg.base_pos hds (n / cfg.digitBit))))
    (by rw [List.length_set, hlength]; exact hcopy.prec_le)
    (by rw [List.length_set, hlength]; exact hlen) (by rwa [hmod]) c.sign
  rw [hmod, apply_tmod, hvalue] at hclamp
  rwa [Nat.and_two_pow_sub_one_eq_mod]

/-! ## The loop -/

/-- The loop ends with the remainder, as long as `2 ^ p` is a multiple of the modulus and
`d`. -/
theorem reduce2kLoop_repr {mulD : MpInt → MpInt} {p fuel A D k : ℕ} {q : MpInt}
    (hn : n.Repr cfg (N : ℕ)) (hN : 0 < N) (hp : 2 ^ p = (k + 1) * N + D)
    (hmul : ∀ q : MpInt, ∀ Q < N, q.Repr cfg (Q : ℕ) → (mulD q).Repr cfg (Q * D : ℕ))
    (ha : a.Repr cfg (A : ℕ)) (hA : A < N * N) (hfuel : A < fuel) (hq : q.Valid cfg) :
    (reduce2kLoop cfg mulD n p fuel a q).Repr cfg (A % N : ℕ) := by
  induction fuel generalizing a q A with
  | zero => exact absurd hfuel (Nat.not_lt_zero A)
  | succ fuel ih =>
    have hpow : 0 < 2 ^ p := Nat.two_pow_pos p
    have hquot : A / 2 ^ p < N := by
      refine Nat.div_lt_of_lt_mul (hA.trans_le (Nat.mul_le_mul_right N ?_))
      rw [hp, Nat.succ_mul]
      omega
    have hdiv : (mpDiv2d cfg a p q).Repr cfg (A / 2 ^ p : ℕ) := mpDiv2d_repr ha hq p
    have hmod : (mpMod2d cfg a p a).Repr cfg (A % 2 ^ p : ℕ) := mpMod2d_repr ha ha.toValid p
    have hprod := hmul _ _ hquot hdiv
    have hadd := sMpAdd_natCast hmod hprod hmod.toValid hmod.sign_natCast
    -- a multiple of the modulus has gone
    have hvalue : A % 2 ^ p + A / 2 ^ p * D + A / 2 ^ p * (k + 1) * N = A := by
      have hmod := Nat.mod_add_div A (2 ^ p)
      linear_combination hmod + A / 2 ^ p * hp.symm
    rw [reduce2kLoop]
    generalize A % 2 ^ p + A / 2 ^ p * D = A' at hadd hvalue
    have hrem : A % N = A' % N := by rw [← hvalue, Nat.add_mul_mod_self_right]
    have hcmp := mpCmpMag_lt_iff_natCast hadd hn
    rw [hrem]
    split
    · next hge =>
      have hle : N ≤ A' := not_lt.mp (mt hcmp.mpr hge)
      have hsub := sMpSub_natCast hadd hn hadd.toValid hadd.sign_natCast hle
      rw [Nat.mod_eq_sub_mod hle]
      exact ih hsub (by omega) (by omega) hprod.toValid
    · next hlt => rwa [Nat.mod_eq_of_lt (hcmp.mp (not_not.mp hlt))]

/-- What is missing to the next power of two. -/
theorem missing_repr (hn : n.Repr cfg (N : ℕ)) (hN : 0 < N) {d : MpInt} (hd : d.Valid cfg)
    (hsign : d.sign = .zpos) :
    ∃ D, 2 ^ mpCountBits cfg n = N + D ∧ 0 < D ∧ D ≤ N ∧
      (sMpSub cfg (mp2expt cfg mpInit (mpCountBits cfg n)) n d).Repr cfg (D : ℕ) := by
  have hlen := mpCountBits_eq hn
  rw [Int.natAbs_natCast] at hlen
  have hlt := Nat.lt_size_self N
  obtain ⟨k, hk⟩ := Nat.exists_eq_add_one_of_ne_zero (Nat.size_pos.mpr hN).ne'
  have hle : 2 ^ k ≤ N := Nat.lt_size.mp (by omega)
  have hpow : 2 ^ Nat.size N = 2 * 2 ^ k := by rw [hk, pow_succ']
  have hexpt := mp2expt_repr (@mpInit_valid cfg) (Nat.size N)
  have hsub := sMpSub_natCast hexpt hn hd hsign hlt.le
  rw [hlen]
  exact ⟨2 ^ Nat.size N - N, by omega, by omega, by omega, hsub⟩

/-- `mp_reduce_2k_l` ends with the remainder, whatever the modulus is. -/
theorem mpReduce2kL_repr {large : LargeMul} {d : MpInt} {A : ℕ}
    (hlarge : large.Multiplies cfg n.used) (hn : n.Repr cfg (N : ℕ)) (hN : 0 < N)
    (hd : d.Valid cfg) (hsign : d.sign = .zpos) (ha : a.Repr cfg (A : ℕ)) (hA : A < N * N) :
    (mpReduce2kL cfg large a n (mpReduce2kSetupL cfg n d)).Repr cfg (A % N : ℕ) := by
  obtain ⟨D, hpow, hpos, hle, hrepr⟩ := missing_repr hn hN hd hsign
  refine reduce2kLoop_repr (k := 0) hn hN (by rw [hpow, zero_add, one_mul]) (fun q Q hQ hq ↦ ?_)
    ha hA ?_ mpInit_valid
  · exact (hlarge.mul hq hrepr hq.toValid (hq.used_mono hn (by simpa using hQ.le))
      (hrepr.used_mono hn (by simpa using hle))).cast (Nat.cast_mul Q D).symm
  · rw [ha.mag_eq, Int.natAbs_natCast]
    exact Nat.lt_succ_self A

/-- The bits from the second digit on are those `mp_reduce_is_2k` tests. -/
theorem is2kLoop_iff {left iw j : ℕ} {ds : List ℕ} (hds : ∀ d ∈ ds, d < cfg.base)
    (hj : j < cfg.digitBit) :
    is2kLoop cfg ds left iw (2 ^ j) = true ↔
      ∀ i < left, (ofDigits cfg.base ds).testBit (iw * cfg.digitBit + j + i) = true := by
  induction left generalizing iw j with
  | zero => simp [is2kLoop]
  | succ left ih =>
    have hbit : (ds.getD iw 0).testBit j =
        (ofDigits cfg.base ds).testBit (iw * cfg.digitBit + j) := by
      rw [getD_eq_div_mod hds, MpConfig.base, ← pow_mul, Nat.testBit_mod_two_pow,
        Nat.testBit_div_two_pow, mul_comm, decide_eq_true hj, Bool.true_and, add_comm]
    have hnext : (∀ i < left + 1, (ofDigits cfg.base ds).testBit (iw * cfg.digitBit + j + i)) ↔
        (ds.getD iw 0).testBit j ∧
          ∀ i < left, (ofDigits cfg.base ds).testBit (iw * cfg.digitBit + j + 1 + i) := by
      rw [Nat.forall_lt_succ_left, hbit, add_zero]
      simp only [add_assoc, add_comm 1]
    have hand : ds.getD iw 0 &&& 2 ^ j = 0 ↔ (ds.getD iw 0).testBit j = false := by
      rw [Nat.and_two_pow]
      cases (ds.getD iw 0).testBit j <;> simp
    have hsize := cfg.digitBit_lt
    have hiz : 2 ^ j * 2 % 2 ^ cfg.digitSize = 2 ^ (j + 1) := by
      rw [← pow_succ]
      exact Nat.mod_eq_of_lt (Nat.pow_lt_pow_right one_lt_two (by omega))
    have hmask : cfg.base - 1 < 2 ^ (j + 1) ↔ j + 1 = cfg.digitBit := by
      have hpos := cfg.base_pos
      have hpow : cfg.base ≤ 2 ^ (j + 1) ↔ cfg.digitBit ≤ j + 1 :=
        Nat.pow_le_pow_iff_right one_lt_two
      omega
    simp only [is2kLoop, hnext, hand, hiz, hmask]
    split
    · next hfalse => simp only [hfalse, Bool.false_eq_true, false_and]
    · next htrue =>
      rw [Bool.not_eq_false] at htrue
      simp only [htrue, true_and]
      split
      · next hlast =>
        have hplace : (iw + 1) * cfg.digitBit + 0 = iw * cfg.digitBit + j + 1 := by
          rw [Nat.succ_mul]
          omega
        have hone := @ih (iw + 1) 0 (Nat.zero_lt_of_lt hj)
        rwa [hplace, pow_zero] at hone
      · next hmore => exact ih (by omega)

/-- The digit of `mp_reduce_2k_setup` is the lowest of what is missing to a power of two. -/
theorem mpReduce2kSetup_eq {D : ℕ} (hn : n.Repr cfg (N : ℕ)) (hN : 0 < N)
    (hpow : 2 ^ mpCountBits cfg n = N + D) : mpReduce2kSetup cfg n = D % cfg.base := by
  have hexpt := mp2expt_repr (@mpInit_valid cfg) (mpCountBits cfg n)
  obtain ⟨D', hpow', -, -, hrepr⟩ := missing_repr hn hN hexpt.toValid hexpt.sign_natCast
  obtain rfl : D' = D := by omega
  rw [mpReduce2kSetup, getD_eq_div_mod hrepr.digit_lt, hrepr.ofDigits_dp, hrepr.mag_eq,
    Int.natAbs_natCast, pow_zero, Nat.div_one]

/-- A modulus that `mp_reduce_is_2k` accepts is a power of two less a digit, or the base. -/
theorem mpReduceIs2k_le {D : ℕ} (hn : n.Repr cfg (N : ℕ)) (his : mpReduceIs2k cfg n = true)
    (hpow : 2 ^ mpCountBits cfg n = N + D) : D ≤ cfg.base := by
  have hlen := mpCountBits_eq hn
  rw [Int.natAbs_natCast] at hlen
  have hNlt := hn.mag_lt
  rw [hn.mag_eq, Int.natAbs_natCast] at hNlt
  have hused : n.used ≠ 0 := by
    intro hzero
    simp [mpReduceIs2k, hzero] at his
  have hN : 0 < N := Nat.pos_of_ne_zero fun h ↦ hused (hn.used_eq_zero_iff.mpr (by simp [h]))
  rw [mpReduceIs2k, if_neg hused] at his
  split at his
  · next hone =>
    obtain ⟨D', hpow', -, hle, -⟩ := missing_repr hn hN (@mpInit_valid cfg) rfl
    rw [hone, pow_one] at hNlt
    omega
  · next hmany =>
    obtain ⟨t, ht⟩ := Nat.exists_eq_add_of_le' (by omega : 2 ≤ n.used)
    have hge := hn.toCanonical.pow_le_mag ht
    rw [hn.mag_eq, Int.natAbs_natCast, MpConfig.base, ← pow_mul] at hge
    have hlong : cfg.digitBit ≤ mpCountBits cfg n := by
      have hlt := Nat.lt_size.mpr hge
      have hmul := Nat.le_mul_of_pos_right cfg.digitBit (by omega : 0 < t + 1)
      omega
    have hbits := (is2kLoop_iff (j := 0) hn.digit_lt (Nat.zero_lt_of_lt cfg.lt_digitBit)).mp his
    rw [hn.ofDigits_dp, hn.mag_eq, Int.natAbs_natCast] at hbits
    obtain ⟨k, hk⟩ := Nat.exists_eq_add_of_le hlong
    have hones : N / 2 ^ cfg.digitBit = 2 ^ k - 1 := by
      refine Nat.eq_of_testBit_eq fun i ↦ ?_
      rw [Nat.testBit_div_two_pow, Nat.testBit_two_pow_sub_one]
      rcases Nat.lt_or_ge i k with hlt | hge
      · rw [decide_eq_true hlt, ← hbits i (by omega), one_mul, add_zero, add_comm]
      · rw [decide_eq_false (not_lt.mpr hge)]
        refine Nat.testBit_lt_two_pow (lt_of_lt_of_le ?_
          (Nat.pow_le_pow_right two_pos (by omega : mpCountBits cfg n ≤ i + cfg.digitBit)))
        rw [hlen]
        exact Nat.lt_size_self N
    have hle := Nat.div_mul_le_self N (2 ^ cfg.digitBit)
    rw [hones, Nat.sub_mul, one_mul, ← pow_add, add_comm k, ← hk] at hle
    rw [MpConfig.base]
    omega

/-- `mp_reduce_2k` ends with the remainder, if what is missing to a power of two is a digit. -/
theorem mpReduce2k_repr {A : ℕ} (hn : n.Repr cfg (N : ℕ)) (hN : 0 < N)
    (hD : 2 ^ Nat.size N < N + cfg.base) (ha : a.Repr cfg (A : ℕ)) (hA : A < N * N) :
    (mpReduce2k cfg a n (mpReduce2kSetup cfg n)).Repr cfg (A % N : ℕ) := by
  obtain ⟨D, hpow, -, -, -⟩ := missing_repr hn hN (@mpInit_valid cfg) rfl
  have hD : D < cfg.base := by
    rw [mpCountBits_eq hn, Int.natAbs_natCast] at hpow
    omega
  rw [mpReduce2kSetup_eq hn hN hpow, Nat.mod_eq_of_lt hD]
  refine reduce2kLoop_repr (k := 0) hn hN (by rw [hpow, zero_add, one_mul]) (fun q Q _ hq ↦ ?_)
    ha hA ?_ mpInit_valid
  · split
    · have hmul := mpMulD_repr hq.toValid hq.toValid hD
      rwa [hq.sign_natCast, hq.mag_eq, Int.natAbs_natCast] at hmul
    · next hone =>
      rw [not_not] at hone
      rwa [hone, mul_one]
  · rw [ha.mag_eq, Int.natAbs_natCast]
    exact Nat.lt_succ_self A

/-- With the digit zero, what lies above the bits of the modulus is dropped. -/
theorem mpReduce2k_zero {A : ℕ} (hn : n.Repr cfg (N : ℕ)) (ha : a.Repr cfg (A : ℕ))
    (hlt : A % 2 ^ Nat.size N < N) :
    (mpReduce2k cfg a n 0).Repr cfg (A % 2 ^ Nat.size N : ℕ) := by
  have hquot : (mpDiv2d cfg a (Nat.size N) mpInit).Repr cfg (A / 2 ^ Nat.size N : ℕ) :=
    mpDiv2d_repr ha mpInit_valid (Nat.size N)
  have hmod : (mpMod2d cfg a (Nat.size N) a).Repr cfg (A % 2 ^ Nat.size N : ℕ) :=
    mpMod2d_repr ha ha.toValid (Nat.size N)
  have hmul := mpMulD_repr hquot.toValid hquot.toValid cfg.base_pos
  rw [mul_zero, MpSign.apply_zero] at hmul
  have hadd := sMpAdd_natCast (n := 0) hmod hmul hmod.toValid hmod.sign_natCast
  have hcmp := mpCmpMag_lt_iff_natCast hadd hn
  rw [mpReduce2k, reduce2kLoop, mpCountBits_eq hn, Int.natAbs_natCast]
  simp only [ne_eq, zero_ne_one, not_false_eq_true, if_true, hcmp.mpr hlt, not_true_eq_false,
    if_false]
  exact hadd

/-- The modulus that is the base has no digit either, and needs none. -/
theorem mpReduce2k_base {A : ℕ} (hn : n.Repr cfg (cfg.base : ℕ)) (ha : a.Repr cfg (A : ℕ))
    (hA : A < cfg.base * cfg.base) :
    (mpReduce2k cfg a n (mpReduce2kSetup cfg n)).Repr cfg (A % cfg.base : ℕ) := by
  have hlen : Nat.size cfg.base = cfg.digitBit + 1 := Nat.size_pow
  have hpow : 2 ^ mpCountBits cfg n = cfg.base + cfg.base := by
    rw [mpCountBits_eq hn, Int.natAbs_natCast, hlen, pow_succ', two_mul]
    rfl
  rw [mpReduce2kSetup_eq hn cfg.base_pos hpow, Nat.mod_self]
  refine reduce2kLoop_repr (k := 1) (D := 0) hn cfg.base_pos ?_ (fun q Q _ hq ↦ ?_) ha hA ?_
    mpInit_valid
  · rw [hpow, add_zero, add_mul, one_mul]
  · have hmul := mpMulD_repr hq.toValid hq.toValid cfg.base_pos
    rwa [hq.sign_natCast, hq.mag_eq, Int.natAbs_natCast] at hmul
  · rw [ha.mag_eq, Int.natAbs_natCast]
    exact Nat.lt_succ_self A

/-! ## The moduli without a digit -/

variable (cfg) in
/-- The moduli that are accepted although what is missing to a power of two is the base. -/
def MissesDigit (N : ℕ) : Prop :=
  ∃ k, 2 ≤ k ∧ k < cfg.digitBit ∧ N = cfg.base * (2 ^ k - 1)

/-- The digits of a number whose bits are all set. -/
theorem two_pow_sub_one_div_mod {a d k : ℕ} (h : a + d ≤ k) :
    (2 ^ k - 1) / 2 ^ a % 2 ^ d = 2 ^ d - 1 := by
  refine Nat.eq_of_testBit_eq fun i ↦ ?_
  rw [Nat.testBit_mod_two_pow, Nat.testBit_div_two_pow, Nat.testBit_two_pow_sub_one,
    Nat.testBit_two_pow_sub_one]
  rcases lt_or_ge i d with hlt | hge
  · rw [decide_eq_true hlt, decide_eq_true (by omega), Bool.and_self]
  · rw [decide_eq_false (not_lt.mpr hge), Bool.false_and]

/-- A modulus the base short of a power of two has enough digits that are all ones, unless it
has two digits only. -/
theorem mpReduceIs2kL_of_ones {k : ℕ} (hn : n.Repr cfg (cfg.base * (2 ^ k - 1) : ℕ))
    (hk : cfg.digitBit ≤ k) : mpReduceIs2kL cfg n = true := by
  have hbit := cfg.lt_digitBit
  obtain ⟨t, r, hr, ht⟩ : ∃ t r, r < cfg.digitBit ∧ k = cfg.digitBit * t + r :=
    ⟨k / cfg.digitBit, k % cfg.digitBit, Nat.mod_lt _ (by omega), (Nat.div_add_mod _ _).symm⟩
  have htpos : 0 < t := by
    rcases Nat.eq_zero_or_pos t with rfl | hpos
    · omega
    · exact hpos
  have hused : n.used ≤ t + 2 := by
    refine hn.used_le_of_lt ?_
    rw [Int.natAbs_natCast, pow_succ' _ (t + 1)]
    refine Nat.mul_lt_mul_of_pos_left ?_ cfg.base_pos
    refine (Nat.sub_lt (Nat.two_pow_pos k) one_pos).trans_le ?_
    rw [MpConfig.base, ← pow_mul]
    exact Nat.pow_le_pow_right two_pos (by rw [mul_add, ht]; omega)
  have hdigit (i : ℕ) (hi : i < t) : n.digits.getD (i + 1) 0 = cfg.base - 1 := by
    rw [getD_eq_div_mod hn.digits_lt, hn.ofDigits_digits, pow_succ',
      Nat.mul_div_mul_left _ _ cfg.base_pos, MpConfig.base, ← pow_mul]
    refine two_pow_sub_one_div_mod ?_
    have hmul := Nat.mul_le_mul_left cfg.digitBit (Nat.succ_le_of_lt hi)
    rw [Nat.mul_succ] at hmul
    omega
  have hlen : t + 1 ≤ n.digits.length := by
    by_contra hlt
    have hlast := hdigit (t - 1) (by omega)
    rw [List.getD_eq_default _ _ (by omega)] at hlast
    have hbase := cfg.one_lt_base
    omega
  have hcount : t ≤ n.digits.count (cfg.base - 1) := by
    have hones : ∀ d ∈ (n.digits.drop 1).take t, cfg.base - 1 = d := by
      intro d hd
      obtain ⟨i, hi, rfl⟩ := List.mem_take_iff_getElem.mp hd
      rw [List.getElem_drop, ← List.getD_eq_getElem _ 0, add_comm]
      exact (hdigit i (by omega)).symm
    have hsub := ((List.take_sublist t (n.digits.drop 1)).trans
      (List.drop_sublist 1 n.digits)).count_le (cfg.base - 1)
    rwa [List.count_eq_length.mpr hones, List.length_take_of_le
      (by rw [List.length_drop]; omega)] at hsub
  have hlength := hn.length_digits
  rw [mpReduceIs2kL, if_neg (by omega), if_neg (by omega), decide_eq_true_eq]
  omega

/-- A modulus that is left to `mp_reduce_2k` has a digit, is the base, or misses its digit. -/
theorem mpReduceIs2k_cases (hn : n.Repr cfg (N : ℕ)) (hL : mpReduceIs2kL cfg n = false)
    (his : mpReduceIs2k cfg n = true) :
    2 ^ Nat.size N < N + cfg.base ∨ N = cfg.base ∨ MissesDigit cfg N := by
  have hN : 0 < N := by
    refine Nat.pos_of_ne_zero fun h ↦ ?_
    rw [mpReduceIs2k, if_pos (hn.used_eq_zero_iff.mpr (by rw [h, Nat.cast_zero]))] at his
    exact absurd his Bool.false_ne_true
  obtain ⟨D, hpow, -, -, -⟩ := missing_repr hn hN (@mpInit_valid cfg) rfl
  have hle := mpReduceIs2k_le hn his hpow
  rw [mpCountBits_eq hn, Int.natAbs_natCast] at hpow
  rcases hle.lt_or_eq with hlt | rfl
  · exact .inl (by omega)
  right
  have hbits : cfg.digitBit < Nat.size N := by
    refine (Nat.pow_lt_pow_iff_right one_lt_two).mp ?_
    rw [hpow]
    exact Nat.lt_add_of_pos_left hN
  obtain ⟨k, hk⟩ := Nat.exists_eq_add_of_lt hbits
  have hvalue : N = cfg.base * (2 ^ (k + 1) - 1) := by
    rw [hk, add_assoc, pow_add] at hpow
    rw [Nat.mul_sub_one]
    exact (Nat.sub_eq_of_eq_add hpow).symm
  rcases Nat.eq_zero_or_pos k with rfl | hpos
  · exact .inl (by rw [hvalue]; simp)
  · refine .inr ⟨k + 1, by omega, ?_, hvalue⟩
    by_contra hge
    rw [mpReduceIs2kL_of_ones (hvalue ▸ hn) (not_lt.mp hge)] at hL
    exact absurd hL (by decide)

theorem size_of_missesDigit {k : ℕ} (hk : 0 < k) :
    Nat.size (cfg.base * (2 ^ k - 1)) = cfg.digitBit + k := by
  obtain ⟨j, rfl⟩ := Nat.exists_eq_add_one_of_ne_zero hk.ne'
  have hpow : 2 ^ j ≤ 2 ^ (j + 1) - 1 := by
    rw [pow_succ']
    have hpos := Nat.two_pow_pos j
    omega
  refine le_antisymm (Nat.size_le.mpr ?_) (Nat.lt_size.mpr ?_)
  · rw [pow_add 2 cfg.digitBit]
    exact Nat.mul_lt_mul_of_pos_left (Nat.sub_lt (Nat.two_pow_pos _) one_pos) cfg.base_pos
  · change 2 ^ (cfg.digitBit + j) ≤ _
    rw [pow_add 2 cfg.digitBit]
    exact Nat.mul_le_mul_left cfg.base hpow

/-- A modulus that misses its digit is left to `mp_reduce_2k`, with the digit zero. -/
theorem mpReduceIs2k_of_missesDigit {k : ℕ} (hn : n.Repr cfg (cfg.base * (2 ^ k - 1) : ℕ))
    (hk : 2 ≤ k) (hlt : k < cfg.digitBit) :
    mpReduceIs2kL cfg n = false ∧ mpDrIsModulus cfg n = false ∧ mpReduceIs2k cfg n = true ∧
      mpReduce2kSetup cfg n = 0 := by
  have hbase := cfg.one_lt_base
  have hones : 0 < 2 ^ k - 1 ∧ 2 ^ k - 1 < cfg.base - 1 := by
    have hpow := Nat.pow_lt_pow_right one_lt_two hlt
    have hk := Nat.pow_le_pow_right two_pos hk
    rw [MpConfig.base]
    omega
  have hdigits : n.digits = [0, 2 ^ k - 1] := by
    rw [hn.digits_eq, Int.natAbs_natCast, Nat.digits_base_mul hbase hones.1,
      Nat.digits_of_lt _ _ hones.1.ne' (by omega)]
  have hused : n.used = 2 := by rw [← hn.length_digits, hdigits]; rfl
  have hcount : Nat.size (cfg.base * (2 ^ k - 1)) = cfg.digitBit + k :=
    size_of_missesDigit (by omega)
  have hbits : mpCountBits cfg n = cfg.digitBit + k := by
    rw [mpCountBits_eq hn, Int.natAbs_natCast, hcount]
  refine ⟨?_, ?_, ?_, ?_⟩
  · rw [mpReduceIs2kL, hused, hdigits, List.count_eq_zero_of_not_mem]
    · rfl
    · simp
      omega
  · rw [mpDrIsModulus, hused, hdigits]
    simp
    omega
  · rw [mpReduceIs2k, hused, hbits, Nat.add_sub_cancel_left]
    simp only [OfNat.ofNat_ne_zero, OfNat.ofNat_ne_one, if_false]
    refine (is2kLoop_iff (j := 0) hn.digit_lt (Nat.zero_lt_of_lt hlt)).mpr fun i hi ↦ ?_
    rw [hn.ofDigits_dp, hn.mag_eq, Int.natAbs_natCast, MpConfig.base, one_mul, add_zero,
      mul_comm, Nat.testBit_mul_two_pow, Nat.testBit_two_pow_sub_one]
    simp
    omega
  · have hpow : 2 ^ mpCountBits cfg n = cfg.base * (2 ^ k - 1) + cfg.base := by
      rw [hbits, pow_add, Nat.mul_sub_one, Nat.sub_add_cancel
        (Nat.le_mul_of_pos_right _ (Nat.two_pow_pos k))]
      rfl
    rw [mpReduce2kSetup_eq hn (Nat.mul_pos cfg.base_pos hones.1) hpow, Nat.mod_self]

/-- The diminished radix moduli are all found before `mp_dr_is_modulus` is asked for them. -/
theorem mpReduceIs2kL_of_dr (hn : n.Valid cfg) (hdr : mpDrIsModulus cfg n = true) :
    mpReduceIs2kL cfg n = true := by
  have hlen := hn.length_digits
  rw [mpDrIsModulus] at hdr
  split at hdr
  · exact absurd hdr Bool.false_ne_true
  next hused =>
  have hcount : (n.digits.drop 1).count (cfg.base - 1) = n.used - 1 := by
    rw [List.all_eq_true] at hdr
    rw [List.count_eq_length.mpr fun d hd ↦ (beq_iff_eq.mp (hdr d hd)).symm, List.length_drop, hlen]
  have hle := (List.drop_sublist 1 n.digits).count_le (cfg.base - 1)
  rw [mpReduceIs2kL, if_neg (by omega), if_neg (by omega), decide_eq_true_eq]
  omega

end Mp

end SecureIIoT
