import SecureIIoT.Lib.ByteString
import SecureIIoT.Mp.Add

/-!
# Shifts

Shifts by digits and by bits, the product with a digit, and the counts of bits.  A shift to
the left is a product with a power, one to the right a quotient that is rounded to zero;
`mp_count_bits` is the length of the magnitude, and `mp_cnt_lsb` the power of two in it.
-/

namespace SecureIIoT

namespace Mp

open Radix ByteString

open Nat (ofDigits)

variable (cfg : MpConfig)

/-! ## The operations -/

/-- `mp_lshd` -/
def mpLshd (a : MpInt) (b : ℕ) : MpInt :=
  if b = 0 then a
  else if a.used = 0 then a
  else (a.grow (a.used + b)).store (List.replicate b 0 ++ a.digits)

/-- `mp_rshd` -/
def mpRshd (a : MpInt) (b : ℕ) : MpInt :=
  if b = 0 then a
  else if a.used ≤ b then mpZero a
  else a.store (a.digits.drop b)

/-- `mp_mul_d` -/
def mpMulD (a : MpInt) (b : ℕ) (c : MpInt) : MpInt :=
  let out := wordCarry cfg.base (2 ^ cfg.wordSize) (2 ^ cfg.digitSize) 0 (a.digits.map (· * b))
  c.fill (a.used + 1) a.sign (out.1 ++ [out.2])

/-- The loop of `mp_mul_2d` and of `mp_mul_2`, which shifts by fewer bits than a digit
has. -/
def shiftLeft (d : ℕ) : (r : ℕ) → List ℕ → List ℕ × ℕ
  | r, [] => ([], r)
  | r, x :: xs =>
    let rr := x / 2 ^ (cfg.digitBit - d) % 2 ^ d
    let rest := shiftLeft d rr xs
    ((x * 2 ^ d % 2 ^ cfg.digitSize ||| r) % cfg.base :: rest.1, rest.2)

/-- The digits after such a shift, with a new one for a carry. -/
def shiftDigits (d : ℕ) (ds : List ℕ) : List ℕ :=
  let out := shiftLeft cfg d 0 ds
  out.1 ++ if out.2 ≠ 0 then [out.2] else []

/-- `mp_mul_2d` -/
def mpMul2d (a : MpInt) (b : ℕ) (c : MpInt) : MpInt :=
  let c := mpCopy a c
  let c := c.grow (c.used + b / cfg.digitBit + 1)
  let c := if cfg.digitBit ≤ b then mpLshd c (b / cfg.digitBit) else c
  let d := b % cfg.digitBit
  let c := if d ≠ 0 then c.store (shiftDigits cfg d c.digits) else c
  c.clamp

/-- `mp_mul_2` -/
def mpMul2 (a b : MpInt) : MpInt :=
  { (b.grow (a.used + 1)).store (shiftDigits cfg 1 a.digits) with sign := a.sign }

/-- The loop of `mp_div_2d`, which comes from the highest digit. -/
def shiftRight (d : ℕ) : List ℕ → List ℕ × ℕ
  | [] => ([], 0)
  | x :: xs =>
    let rest := shiftRight d xs
    ((x / 2 ^ d ||| rest.2 * 2 ^ (cfg.digitBit - d) % 2 ^ cfg.digitSize) :: rest.1, x % 2 ^ d)

/-- `mp_div_2` -/
def mpDiv2 (a b : MpInt) : MpInt := b.fill a.used a.sign (shiftRight cfg 1 a.digits).1

/-- `mp_div_2d` without a remainder. -/
def mpDiv2d (a : MpInt) (b : ℕ) (c : MpInt) : MpInt :=
  let c := mpCopy a c
  if b = 0 then c
  else
    let c := if cfg.digitBit ≤ b then mpRshd c (b / cfg.digitBit) else c
    let d := b % cfg.digitBit
    let c := if d ≠ 0 then c.store (shiftRight cfg d c.digits).1 else c
    c.clamp

/-- The loop of `mp_count_bits`, for as many bits as an `mp_digit` has. -/
def bitLoop : (fuel q r : ℕ) → ℕ
  | 0, _, r => r
  | fuel + 1, q, r => if 0 < q then bitLoop fuel (q / 2) (r + 1) else r

/-- `mp_count_bits` -/
def mpCountBits (a : MpInt) : ℕ :=
  if a.used = 0 then 0
  else bitLoop cfg.digitSize (a.dp.getD (a.used - 1) 0) ((a.used - 1) * cfg.digitBit)

/-- The loop of `mp_cnt_lsb` over digits that are zero. -/
def zeroDigits : List ℕ → ℕ
  | [] => 0
  | x :: xs => if x = 0 then zeroDigits xs + 1 else 0

/-- `lnz` -/
def lnz : List ℕ := [4, 0, 1, 0, 2, 0, 1, 0, 3, 0, 1, 0, 2, 0, 1, 0]

/-- The loop of `mp_cnt_lsb` on a digit, four bits at a time. -/
def lsbLoop : (fuel q x : ℕ) → ℕ
  | 0, _, x => x
  | fuel + 1, q, x =>
    let qq := q % 16
    let x := x + lnz.getD qq 0
    if qq = 0 then lsbLoop fuel (q / 16) x else x

/-- `mp_cnt_lsb` -/
def mpCntLsb (a : MpInt) : ℕ :=
  if a.used = 0 then 0
  else
    let x := zeroDigits a.digits
    let q := a.dp.getD x 0
    if q % 2 = 0 then lsbLoop cfg.digitSize q (x * cfg.digitBit) else x * cfg.digitBit

/-- `mp_2expt` -/
def mp2expt (a : MpInt) (b : ℕ) : MpInt :=
  let a := (mpZero a).grow (b / cfg.digitBit + 1)
  { a with
    used := b / cfg.digitBit + 1
    dp := a.dp.set (b / cfg.digitBit) (2 ^ (b % cfg.digitBit) % 2 ^ cfg.digitSize) }

/-! ## Shifts by digits -/

variable {cfg} {a b c : MpInt} {v w : ℤ} {ds : List ℕ} {n d : ℕ}

open MpInt

/-- A result whose highest digit is known not to be zero needs no clamping. -/
theorem MpInt.repr_store (hc : c.Valid cfg) (hds : ∀ d ∈ ds, d < cfg.base)
    (hlen : ds.length ≤ c.dp.length) (htop : ∀ n, ds.length = n + 1 → ds.getD n 0 ≠ 0)
    (hsign : ds.length = 0 → c.sign = .zpos) :
    (c.store ds).Repr cfg (c.sign.apply (ofDigits cfg.base ds)) := by
  have hvalid := hc.store hds hlen
  have hdigits := digits_store c ds
  refine ⟨⟨hvalid, fun n hn ↦ ?_, hsign⟩, ?_⟩
  · rw [← getD_digits hvalid, hdigits]
    exact htop n hn
  · rw [toInt, mag, hdigits]
    rfl

/-- The digits of a canonical form end in one that is not zero. -/
theorem MpInt.Canonical.getD_digits_ne (ha : a.Canonical cfg) (hn : a.used = n + 1) :
    a.digits.getD n 0 ≠ 0 := by
  rw [getD_digits ha.toValid]
  exact ha.top n hn

theorem mpLshd_repr (ha : a.Repr cfg v) (n : ℕ) :
    (mpLshd a n).Repr cfg (v * (cfg.base : ℤ) ^ n) := by
  rw [mpLshd]
  split
  · next h => exact ha.cast (by rw [h, pow_zero, mul_one])
  split
  · next h => exact ha.cast (by rw [ha.used_eq_zero_iff.mp h, zero_mul])
  · next hb hused =>
    obtain ⟨m, hm⟩ := Nat.exists_eq_add_one_of_ne_zero hused
    have hlen := ha.length_digits
    have hds : ∀ d ∈ List.replicate n 0 ++ a.digits, d < cfg.base :=
      List.forall_mem_append.mpr ⟨fun _ h ↦ List.eq_of_mem_replicate h ▸ cfg.base_pos, ha.digits_lt⟩
    have hstore := repr_store (ha.toValid.grow (a.used + n)) hds
      (by
        rw [List.length_append, List.length_replicate, hlen, add_comm]
        exact le_length_grow a _)
      (fun k hk ↦ by
        rw [List.length_append, List.length_replicate, hlen] at hk
        rw [List.getD_append_right _ _ _ _ (by rw [List.length_replicate]; omega),
          List.length_replicate, show k - n = m by omega]
        exact ha.toCanonical.getD_digits_ne hm)
      (fun h ↦ by rw [List.length_append, hlen] at h; omega)
    refine hstore.cast ?_
    rw [← ha.toInt_eq, toInt, mag, sign_grow, Nat.ofDigits_append, Nat.ofDigits_replicate_zero,
      List.length_replicate, zero_add]
    cases a.sign <;> simp [mul_comm]

/-- The quotient of a number by a power, rounded to zero. -/
theorem apply_tdiv (s : MpSign) (m n : ℕ) : s.apply (m / n) = (s.apply m).tdiv n := by
  cases s with
  | zpos => exact Int.ofNat_tdiv m n
  | neg => rw [MpSign.apply_neg, MpSign.apply_neg, Int.neg_tdiv, Int.ofNat_tdiv]

theorem tdiv_tdiv (v : ℤ) (m n : ℕ) : (v.tdiv m).tdiv n = v.tdiv (m * n : ℕ) := by
  obtain ⟨k, rfl | rfl⟩ := v.eq_nat_or_neg
  · rw [← Int.ofNat_tdiv, ← Int.ofNat_tdiv, ← Int.ofNat_tdiv, Nat.div_div_eq_div_mul]
  · rw [Int.neg_tdiv, Int.neg_tdiv, Int.neg_tdiv, ← Int.ofNat_tdiv, ← Int.ofNat_tdiv,
      ← Int.ofNat_tdiv, Nat.div_div_eq_div_mul]

theorem ofDigits_drop (hds : ∀ d ∈ ds, d < cfg.base) (n : ℕ) :
    ofDigits cfg.base (ds.drop n) = ofDigits cfg.base ds / cfg.base ^ n := by
  have hlow := ofDigits_take_lt cfg.one_lt_base hds n
  rw [← ofDigits_take_add_drop ds n, Nat.add_mul_div_left _ _ (Nat.pow_pos cfg.base_pos),
    Nat.div_eq_of_lt hlow, zero_add]

theorem mpRshd_repr (ha : a.Repr cfg v) (n : ℕ) :
    (mpRshd a n).Repr cfg (v.tdiv (cfg.base ^ n : ℕ)) := by
  rw [mpRshd]
  split
  · next h => exact ha.cast (by rw [h, pow_zero, Nat.cast_one, Int.tdiv_one])
  split
  · next h =>
    refine (mpZero_repr ha.toValid).cast ?_
    have hlt := ha.mag_lt.trans_le (Nat.pow_le_pow_right cfg.base_pos h)
    rw [← ha.toInt_eq, toInt, ← apply_tdiv, Nat.div_eq_of_lt hlt, MpSign.apply_zero]
  · next hb hused =>
    have hlen := ha.length_digits
    have hds : ∀ d ∈ a.digits.drop n, d < cfg.base :=
      fun d hd ↦ ha.digits_lt d (List.mem_of_mem_drop hd)
    have hstore := repr_store ha.toValid hds
      (by rw [List.length_drop, hlen]; exact (Nat.sub_le _ _).trans ha.used_le)
      (fun k hk ↦ by
        rw [List.length_drop, hlen] at hk
        rw [List.getD_eq_getElem?_getD, List.getElem?_drop, ← List.getD_eq_getElem?_getD]
        exact ha.toCanonical.getD_digits_ne (by omega))
      (fun h ↦ by rw [List.length_drop, hlen] at h; omega)
    refine hstore.cast ?_
    rw [ofDigits_drop ha.digits_lt, apply_tdiv]
    exact congrArg (Int.tdiv · _) ha.toInt_eq

/-! ## Products with a digit -/

theorem ofDigits_map_mul (n : ℕ) (ds : List ℕ) (B : ℕ) :
    ofDigits B (ds.map (· * n)) = ofDigits B ds * n := by
  induction ds with
  | nil => simp
  | cons d ds ih =>
    rw [List.map_cons, Nat.ofDigits_cons, Nat.ofDigits_cons, ih]
    ring

/-- `mp_mul_d` multiplies by a digit; its argument need not be clamped. -/
theorem mpMulD_repr (ha : a.Valid cfg) (hc : c.Valid cfg) (hd : d < cfg.base) :
    (mpMulD cfg a d c).Repr cfg (a.sign.apply (a.mag cfg * d)) := by
  have hword : cfg.base * cfg.base ≤ 2 ^ cfg.wordSize := by
    have hlt := cfg.digitBit_lt
    rw [MpConfig.base, ← pow_add, MpConfig.wordSize]
    exact Nat.pow_le_pow_right two_pos (by omega)
  have hdigit := cfg.two_mul_base_le
  have hroom : (cfg.base - 1) * (cfg.base - 1) + (cfg.base - 1) < cfg.base * cfg.base := by
    obtain ⟨m, hm⟩ := Nat.exists_eq_add_one_of_ne_zero cfg.base_pos.ne'
    rw [hm, Nat.add_sub_cancel]
    nlinarith
  have hroom' : (cfg.base - 1) * (cfg.base - 1) + (cfg.base - 1) <
      (cfg.base - 1 + 1) * cfg.base := by
    rwa [Nat.sub_add_cancel cfg.base_pos]
  have hcols : ∀ col ∈ a.digits.map (· * d), col ≤ (cfg.base - 1) * (cfg.base - 1) := by
    rw [List.forall_mem_map]
    exact fun x hx ↦ Nat.mul_le_mul (Nat.le_sub_one_of_lt (ha.digits_lt x hx))
      (Nat.le_sub_one_of_lt hd)
  have hcarry := wordCarry_eq hroom' (hroom.trans_le hword)
    (by omega : cfg.base - 1 < 2 ^ cfg.digitSize) hcols (Nat.zero_le _)
  have hsum := ofDigits_carryDigits (B := cfg.base) 0 (a.digits.map (· * d))
  have hout := carryOut_le hroom' hcols (Nat.zero_le _)
  rw [List.length_map, ofDigits_map_mul, zero_add] at hsum
  rw [mpMulD, hcarry]
  have hbase := cfg.base_pos
  have hds : ∀ z ∈ carryDigits cfg.base 0 (a.digits.map (· * d)) ++
      [carryOut cfg.base 0 (a.digits.map (· * d))], z < cfg.base :=
    List.forall_mem_append.mpr ⟨carryDigits_lt cfg.base_pos _ _,
      List.forall_mem_singleton.mpr (by omega)⟩
  convert repr_fill (n := a.used + 1) hc hds (by simp [ha.length_digits]) a.sign using 2
  rw [Nat.ofDigits_append, length_carryDigits, List.length_map, Nat.ofDigits_singleton, hsum]
  rfl

/-! ## Shifts by bits -/

/-- The bits that leave a digit to the left. -/
theorem shiftLeft_eq {r : ℕ} (hds : ∀ x ∈ ds, x < cfg.base) (hd : d < cfg.digitBit)
    (hr : r < 2 ^ d) :
    shiftLeft cfg d r ds =
      (carryDigits cfg.base r (ds.map (· * 2 ^ d)), carryOut cfg.base r (ds.map (· * 2 ^ d))) ∧
      carryOut cfg.base r (ds.map (· * 2 ^ d)) < 2 ^ d := by
  have hbase : cfg.base = 2 ^ d * 2 ^ (cfg.digitBit - d) := by
    rw [MpConfig.base, ← pow_add, Nat.add_sub_cancel' hd.le]
  have hpos : 0 < 2 ^ d := Nat.two_pow_pos d
  induction ds generalizing r with
  | nil => exact ⟨rfl, hr⟩
  | cons x xs ih =>
    obtain ⟨hx, hxs⟩ := List.forall_mem_cons.mp hds
    have hquot : (x * 2 ^ d + r) / cfg.base = x / 2 ^ (cfg.digitBit - d) := by
      rw [hbase, ← Nat.div_div_eq_div_mul, mul_comm x, Nat.mul_add_div hpos,
        Nat.div_eq_of_lt hr, add_zero]
    have hlt : x / 2 ^ (cfg.digitBit - d) < 2 ^ d :=
      Nat.div_lt_of_lt_mul (by rwa [mul_comm, ← hbase])
    have hdigit : (x * 2 ^ d % 2 ^ cfg.digitSize ||| r) % cfg.base =
        (x * 2 ^ d + r) % cfg.base := by
      have hsize : 2 ^ cfg.digitSize = 2 ^ d * 2 ^ (cfg.digitSize - d) := by
        have := cfg.digitBit_lt
        rw [← pow_add, Nat.add_sub_cancel' (by omega)]
      have hdvd : cfg.base ∣ 2 ^ cfg.digitSize := pow_dvd_pow 2 cfg.digitBit_lt.le
      rw [mul_comm x, hsize, Nat.mul_mod_mul_left, ← Nat.two_pow_add_eq_or_of_lt hr,
        ← Nat.mul_mod_mul_left, ← hsize, Nat.add_mod, Nat.mod_mod_of_dvd _ hdvd, ← Nat.add_mod]
    rw [shiftLeft, Nat.mod_eq_of_lt hlt, (ih hxs hlt).1, List.map_cons, carryDigits, carryOut,
      hquot, hdigit]
    exact ⟨rfl, (ih hxs hlt).2⟩

theorem shiftDigits_spec (hds : ∀ x ∈ ds, x < cfg.base) (hd : d < cfg.digitBit) :
    ofDigits cfg.base (shiftDigits cfg d ds) = ofDigits cfg.base ds * 2 ^ d ∧
      (shiftDigits cfg d ds).length ≤ ds.length + 1 ∧
      (∀ x ∈ shiftDigits cfg d ds, x < cfg.base) ∧ ds.length ≤ (shiftDigits cfg d ds).length := by
  obtain ⟨heq, hout⟩ := shiftLeft_eq hds hd (Nat.two_pow_pos d)
  have hsum := ofDigits_carryDigits (B := cfg.base) 0 (ds.map (· * 2 ^ d))
  have hbase : 2 ^ d < cfg.base := Nat.pow_lt_pow_right one_lt_two hd
  rw [List.length_map, ofDigits_map_mul, zero_add] at hsum
  rw [shiftDigits, heq, ← hsum, Nat.ofDigits_append, length_carryDigits, List.length_map]
  refine ⟨?_, ?_, List.forall_mem_append.mpr ⟨carryDigits_lt cfg.base_pos _ _, ?_⟩, ?_⟩
  · split
    · rw [Nat.ofDigits_singleton]
    · next h =>
      have hzero : carryOut cfg.base 0 (ds.map (· * 2 ^ d)) = 0 := not_not.mp h
      rw [hzero, Nat.ofDigits_nil]
  · split <;> simp
  · split
    · exact List.forall_mem_singleton.mpr (by omega)
    · exact fun _ h ↦ nomatch h
  · simp

/-- Clamping a form that is filled in place. -/
theorem MpInt.repr_clamp_store (hc : c.Valid cfg) (hds : ∀ d ∈ ds, d < cfg.base)
    (hlen : ds.length ≤ c.dp.length) :
    (c.store ds).clamp.Repr cfg (c.sign.apply (ofDigits cfg.base ds)) := by
  have hrepr := (hc.store hds hlen).repr_clamp
  rwa [toInt, mag, digits_store] at hrepr

/-- Clamping a canonical form keeps its number. -/
theorem MpInt.Repr.clamp (ha : a.Repr cfg v) : a.clamp.Repr cfg v :=
  ha.toValid.repr_clamp.cast ha.toInt_eq

theorem MpInt.Repr.grow (ha : a.Repr cfg v) (size : ℕ) : (a.grow size).Repr cfg v := by
  have hvalid := ha.toValid.grow size
  have hdigits : (a.grow size).digits = a.digits := by
    rw [digits, dp_grow, used_grow, List.take_append_of_le_length ha.used_le]
    rfl
  refine ⟨⟨hvalid, fun n hn ↦ ?_, fun h ↦ ?_⟩, ?_⟩
  · rw [← getD_digits hvalid, hdigits, getD_digits ha.toValid]
    exact ha.top n (by rwa [used_grow] at hn)
  · rw [sign_grow]
    exact ha.zero (by rwa [used_grow] at h)
  · rw [toInt, mag, hdigits, sign_grow]
    exact ha.toInt_eq

theorem length_mpLshd (a : MpInt) (n : ℕ) : a.dp.length ≤ (mpLshd a n).dp.length := by
  rw [mpLshd]
  split
  · exact le_rfl
  split
  · exact le_rfl
  · simp only [MpInt.store, List.length_append, List.length_drop, dp_grow, List.length_replicate]
    omega

theorem used_mpLshd_le (ha : a.Valid cfg) (n : ℕ) : (mpLshd a n).used ≤ a.used + n := by
  rw [mpLshd]
  split
  · exact Nat.le_add_right _ _
  split
  · exact Nat.le_add_right _ _
  · simp only [MpInt.store, List.length_append, List.length_replicate, ha.length_digits]
    omega

theorem apply_mul (s : MpSign) (m n : ℕ) : s.apply (m * n) = s.apply m * n := by
  cases s with
  | zpos => exact Nat.cast_mul m n
  | neg => rw [MpSign.apply_neg, MpSign.apply_neg, Nat.cast_mul, neg_mul]

/-- A shift in place by fewer bits than a digit has. -/
theorem MpInt.Repr.shiftDigits (ha : a.Repr cfg v) (hd : d < cfg.digitBit)
    (hroom : a.used + 1 ≤ a.dp.length) :
    (a.store (shiftDigits cfg d a.digits)).clamp.Repr cfg (v * 2 ^ d) := by
  obtain ⟨hvalue, hlen, hlt, -⟩ := shiftDigits_spec ha.digits_lt hd
  rw [ha.length_digits] at hlen
  refine (repr_clamp_store ha.toValid hlt (hlen.trans hroom)).cast ?_
  rw [hvalue, apply_mul, ← ha.toInt_eq, toInt, mag]
  push_cast
  rfl

/-- `mp_mul_2d` multiplies by a power of two. -/
theorem mpMul2d_repr (ha : a.Repr cfg v) (hc : c.Valid cfg) (n : ℕ) :
    (mpMul2d cfg a n c).Repr cfg (v * 2 ^ n) := by
  have hcopy := (ha.copy hc).grow ((mpCopy a c).used + n / cfg.digitBit + 1)
  have hroom := le_length_grow (mpCopy a c) ((mpCopy a c).used + n / cfg.digitBit + 1)
  have hused := used_grow (mpCopy a c) ((mpCopy a c).used + n / cfg.digitBit + 1)
  rw [mpMul2d]
  generalize (mpCopy a c).grow ((mpCopy a c).used + n / cfg.digitBit + 1) = g at *
  have hbits : (cfg.base : ℤ) ^ (n / cfg.digitBit) * 2 ^ (n % cfg.digitBit) = 2 ^ n := by
    rw [MpConfig.base]
    push_cast
    rw [← pow_mul, ← pow_add, Nat.div_add_mod]
  have hmod : n % cfg.digitBit < cfg.digitBit :=
    Nat.mod_lt _ (by have := cfg.lt_digitBit; omega)
  -- the digits first, and at least one digit of room for the bits
  obtain ⟨s, hs, hsrepr, hsroom⟩ : ∃ s,
      (if cfg.digitBit ≤ n then mpLshd g (n / cfg.digitBit) else g) = s ∧
      s.Repr cfg (v * (cfg.base : ℤ) ^ (n / cfg.digitBit)) ∧ s.used + 1 ≤ s.dp.length := by
    refine ⟨_, rfl, ?_⟩
    split
    · have hle := used_mpLshd_le hcopy.toValid (n / cfg.digitBit)
      have hlen := length_mpLshd g (n / cfg.digitBit)
      exact ⟨mpLshd_repr hcopy _, by omega⟩
    · next hlt =>
      rw [Nat.div_eq_of_lt (not_le.mp hlt), pow_zero, mul_one] at *
      exact ⟨hcopy, by omega⟩
  simp only [hs]
  split
  · exact (hsrepr.shiftDigits hmod hsroom).cast (by rw [mul_assoc, hbits])
  · next hzero =>
    rw [not_not] at hzero
    rw [hzero, pow_zero, mul_one] at hbits
    exact hsrepr.clamp.cast (by rw [hbits])

/-- `mp_mul_2` doubles. -/
theorem mpMul2_repr (ha : a.Repr cfg v) (hb : b.Valid cfg) :
    (mpMul2 cfg a b).Repr cfg (v * 2) := by
  have hone : 1 < cfg.digitBit := by
    have := cfg.lt_digitBit
    omega
  obtain ⟨hvalue, hlen, hlt, hge⟩ := shiftDigits_spec ha.digits_lt hone
  rw [ha.length_digits] at hlen hge
  have hvalid : ({ b.grow (a.used + 1) with sign := a.sign } : MpInt).Valid cfg :=
    (hb.grow (a.used + 1)).withSign a.sign
  refine (repr_store hvalid hlt (hlen.trans (le_length_grow b (a.used + 1))) (fun n hn ↦ ?_)
    fun h ↦ ha.zero (by omega)).cast ?_
  · -- a highest digit that is zero would be a value that is too small
    intro hzero
    have hused : a.used ≠ 0 := by
      intro h
      have hnil : a.digits = [] := List.eq_nil_of_length_eq_zero (ha.length_digits.trans h)
      rw [hnil] at hn
      exact absurd hn (by simp [shiftDigits, shiftLeft])
    obtain ⟨m, hm⟩ := Nat.exists_eq_add_one_of_ne_zero hused
    have htake := ofDigits_take_succ (B := cfg.base) (shiftDigits cfg 1 a.digits) n
    rw [← hn, List.take_length, hzero, mul_zero, add_zero, hvalue, pow_one] at htake
    have hle := ha.toCanonical.pow_le_mag hm
    rw [mag] at hle
    have hout : ∀ x ∈ shiftDigits cfg 1 a.digits, x < cfg.base := hlt
    have hlow := ofDigits_take_lt cfg.one_lt_base hout n
    rw [← htake] at hlow
    rcases Nat.lt_or_ge m n with h | h
    · -- there was a carry, and it is the highest digit
      obtain ⟨heq, -⟩ := shiftLeft_eq ha.digits_lt hone (Nat.two_pow_pos 1)
      rw [shiftDigits] at hn hzero
      split at hn
      · next hne =>
        rw [List.length_append, List.length_singleton] at hn
        rw [if_pos hne, List.getD_append_right _ _ _ _ (by omega), show n - _ = 0 by omega] at hzero
        exact hne hzero
      · rw [List.append_nil, heq, length_carryDigits, List.length_map, ha.length_digits] at hn
        omega
    · have hpow := Nat.pow_le_pow_right cfg.base_pos h
      omega
  · rw [hvalue, ← ha.toInt_eq, toInt, mag]
    exact apply_mul a.sign _ 2

/-- A quotient of digits by a power of two, from the highest digit down. -/
theorem shiftRight_spec (hds : ∀ x ∈ ds, x < cfg.base) (hd : d < cfg.digitBit) :
    2 ^ d * ofDigits cfg.base (shiftRight cfg d ds).1 + (shiftRight cfg d ds).2 =
        ofDigits cfg.base ds ∧
      (shiftRight cfg d ds).1.length = ds.length ∧
      (∀ x ∈ (shiftRight cfg d ds).1, x < cfg.base) ∧ (shiftRight cfg d ds).2 < 2 ^ d := by
  have hpos := Nat.two_pow_pos d
  have hbase : cfg.base = 2 ^ (cfg.digitBit - d) * 2 ^ d := by
    rw [MpConfig.base, ← pow_add, Nat.sub_add_cancel hd.le]
  induction ds with
  | nil => exact ⟨rfl, rfl, by simp [shiftRight], hpos⟩
  | cons x xs ih =>
    obtain ⟨hx, hxs⟩ := List.forall_mem_cons.mp hds
    obtain ⟨hvalue, hlength, hlt, hrest⟩ := ih hxs
    have hquot : x / 2 ^ d < 2 ^ (cfg.digitBit - d) :=
      Nat.div_lt_of_lt_mul (by rwa [mul_comm, ← hbase])
    have hhigh : (shiftRight cfg d xs).2 * 2 ^ (cfg.digitBit - d) < 2 ^ cfg.digitSize := by
      have hdigit := cfg.two_mul_base_le
      have hmul := Nat.mul_lt_mul_of_pos_right hrest (Nat.two_pow_pos (cfg.digitBit - d))
      rw [mul_comm (2 ^ d), ← hbase] at hmul
      omega
    have hdigit : (x / 2 ^ d ||| (shiftRight cfg d xs).2 * 2 ^ (cfg.digitBit - d) %
        2 ^ cfg.digitSize) = x / 2 ^ d + (shiftRight cfg d xs).2 * 2 ^ (cfg.digitBit - d) := by
      rw [Nat.mod_eq_of_lt hhigh, mul_comm, Nat.or_comm, ← Nat.two_pow_add_eq_or_of_lt hquot,
        add_comm]
    have hmod := Nat.div_add_mod x (2 ^ d)
    rw [shiftRight, hdigit]
    refine ⟨?_, congrArg (· + 1) hlength, List.forall_mem_cons.mpr ⟨?_, hlt⟩, Nat.mod_lt _ hpos⟩
    · rw [Nat.ofDigits_cons, Nat.ofDigits_cons, ← hvalue]
      linear_combination hmod - (shiftRight cfg d xs).2 * hbase
    · have hle := Nat.mul_le_mul_right (2 ^ (cfg.digitBit - d)) (Nat.le_sub_one_of_lt hrest)
      rw [Nat.sub_mul, one_mul, mul_comm (2 ^ d), ← hbase] at hle
      have hsmall : 2 ^ (cfg.digitBit - d) ≤ cfg.base := by
        rw [hbase]
        exact Nat.le_mul_of_pos_right _ hpos
      omega

/-- `mp_div_2d` divides by a power of two, and rounds to zero. -/
theorem mpDiv2d_repr (ha : a.Repr cfg v) (hc : c.Valid cfg) (n : ℕ) :
    (mpDiv2d cfg a n c).Repr cfg (v.tdiv (2 ^ n : ℕ)) := by
  have hcopy := ha.copy hc
  have hmod : n % cfg.digitBit < cfg.digitBit :=
    Nat.mod_lt _ (by have := cfg.lt_digitBit; omega)
  have hbits : cfg.base ^ (n / cfg.digitBit) * 2 ^ (n % cfg.digitBit) = 2 ^ n := by
    rw [MpConfig.base, ← pow_mul, ← pow_add, Nat.div_add_mod]
  rw [mpDiv2d]
  split
  · next h => exact hcopy.cast (by rw [h, pow_zero, Nat.cast_one, Int.tdiv_one])
  obtain ⟨s, hs, hsrepr⟩ : ∃ s,
      (if cfg.digitBit ≤ n then mpRshd (mpCopy a c) (n / cfg.digitBit) else mpCopy a c) = s ∧
      s.Repr cfg (v.tdiv (cfg.base ^ (n / cfg.digitBit) : ℕ)) := by
    refine ⟨_, rfl, ?_⟩
    split
    · exact mpRshd_repr hcopy _
    · next hlt =>
      exact hcopy.cast (by rw [Nat.div_eq_of_lt (not_le.mp hlt), pow_zero, Nat.cast_one,
        Int.tdiv_one])
  simp only [hs]
  split
  · obtain ⟨hvalue, hlen, hlt, hrest⟩ := shiftRight_spec hsrepr.digits_lt hmod
    have hquot : ofDigits cfg.base (shiftRight cfg (n % cfg.digitBit) s.digits).1 =
        s.mag cfg / 2 ^ (n % cfg.digitBit) := by
      rw [mag, ← hvalue, Nat.mul_add_div (Nat.two_pow_pos _), Nat.div_eq_of_lt hrest, add_zero]
    refine (repr_clamp_store hsrepr.toValid hlt
      (hlen.le.trans (hsrepr.length_digits.le.trans hsrepr.used_le))).cast ?_
    have hvalue := hsrepr.toInt_eq
    rw [toInt] at hvalue
    rw [hquot, apply_tdiv, hvalue, tdiv_tdiv, hbits]
  · next hzero =>
    rw [not_not] at hzero
    rw [hzero, pow_zero, mul_one] at hbits
    exact hsrepr.clamp.cast (by rw [hbits])

/-- `mp_div_2` halves, and rounds to zero. -/
theorem mpDiv2_repr (ha : a.Repr cfg v) (hb : b.Valid cfg) :
    (mpDiv2 cfg a b).Repr cfg (v.tdiv 2) := by
  have hbit := cfg.lt_digitBit
  obtain ⟨hvalue, hlen, hlt, hrest⟩ :=
    shiftRight_spec ha.digits_lt (by omega : 1 < cfg.digitBit)
  have hquot : ofDigits cfg.base (shiftRight cfg 1 a.digits).1 = a.mag cfg / 2 := by
    rw [pow_one] at hvalue hrest
    rw [mag, ← hvalue, Nat.mul_add_div two_pos, Nat.div_eq_of_lt hrest, add_zero]
  refine (repr_fill hb hlt (hlen.le.trans ha.length_digits.le) a.sign).cast ?_
  rw [hquot, ← ha.toInt_eq]
  exact apply_tdiv a.sign (a.mag cfg) 2

/-! ## Counts of bits -/

theorem bitLoop_eq {fuel q r : ℕ} (hq : q < 2 ^ fuel) : bitLoop fuel q r = r + Nat.size q := by
  induction fuel generalizing q r with
  | zero =>
    obtain rfl : q = 0 := by simpa using hq
    rfl
  | succ fuel ih =>
    rw [bitLoop]
    split
    · next hpos =>
      have hstep : Nat.size q = Nat.size (q / 2) + 1 := by
        refine eq_of_forall_ge_iff fun k ↦ ?_
        rw [Nat.size_le]
        cases k with
        | zero => simp [hpos.ne']
        | succ k =>
          rw [Nat.add_le_add_iff_right, Nat.size_le, pow_succ, Nat.div_lt_iff_lt_mul two_pos]
      rw [ih (by rw [pow_succ] at hq; omega), hstep]
      ring
    · next hzero =>
      obtain rfl : q = 0 := Nat.eq_zero_of_not_pos hzero
      rfl

/-- The bits of the digits below the highest, and of that one. -/
theorem mpCountBits_top (ha : a.Valid cfg) (hn : a.used = n + 1) :
    mpCountBits cfg a = n * cfg.digitBit + Nat.size (a.dp.getD n 0) := by
  have htop := getD_lt cfg.base_pos ha.digit_lt n
  have hsize := cfg.two_mul_base_le
  rw [mpCountBits, if_neg (by omega), hn, Nat.add_sub_cancel, bitLoop_eq (by omega)]

/-- `mp_count_bits` is the length of the magnitude. -/
theorem mpCountBits_eq (ha : a.Repr cfg v) : mpCountBits cfg a = Nat.size v.natAbs := by
  rw [← ha.mag_eq]
  rcases Nat.eq_zero_or_pos a.used with h | h
  · rw [mpCountBits, if_pos h, ha.toCanonical.used_eq_zero_iff.mp h]
    rfl
  obtain ⟨n, hn⟩ := Nat.exists_eq_add_one_of_ne_zero h.ne'
  have hlow := ofDigits_take_lt cfg.one_lt_base ha.digit_lt n
  have hmag : a.mag cfg = ofDigits cfg.base (a.dp.take n) + cfg.base ^ n * a.dp.getD n 0 := by
    rw [mag, digits, hn, ofDigits_take_succ]
  have hpow : cfg.base ^ n = 2 ^ (n * cfg.digitBit) := by
    rw [MpConfig.base, ← pow_mul, mul_comm]
  rw [mpCountBits_top ha.toValid hn]
  refine eq_of_forall_ge_iff fun k ↦ ?_
  rw [Nat.size_le, hmag]
  rcases Nat.lt_or_ge k (n * cfg.digitBit) with hk | hk
  · -- the highest digit alone is longer
    have hle := Nat.le_mul_of_pos_right (cfg.base ^ n) (Nat.pos_of_ne_zero (ha.top n hn))
    have hlt := Nat.pow_lt_pow_right one_lt_two hk
    rw [← hpow] at hlt
    omega
  · obtain ⟨j, rfl⟩ := Nat.exists_eq_add_of_le hk
    rw [Nat.add_le_add_iff_left, Nat.size_le, pow_add, ← hpow]
    constructor
    · intro h
      have hmul := Nat.mul_le_mul_left (cfg.base ^ n) (Nat.succ_le_of_lt h)
      rw [Nat.mul_succ] at hmul
      omega
    · intro h
      exact Nat.lt_of_mul_lt_mul_left ((Nat.le_add_left _ _).trans_lt h)

/-- The entries of the table. -/
theorem lnz_spec : ∀ q < 16, q ≠ 0 → lnz.getD q 0 < 4 ∧
    q % 2 ^ (lnz.getD q 0 + 1) = 2 ^ lnz.getD q 0 := by
  decide

/-- A power of two times an odd number. -/
theorem exists_odd_of_mod {q j : ℕ} (h : q % 2 ^ (j + 1) = 2 ^ j) :
    ∃ m, q = 2 ^ j * (2 * m + 1) := by
  refine ⟨q / 2 ^ (j + 1), ?_⟩
  have hmod := Nat.div_add_mod q (2 ^ (j + 1))
  rw [h, pow_succ] at hmod
  rw [← hmod]
  nth_rw 1 [pow_succ]
  rw [hmod]
  linear_combination -hmod

theorem lsbLoop_spec {fuel q x : ℕ} (hq : q < 16 ^ fuel) (hne : q ≠ 0) :
    ∃ j m, lsbLoop fuel q x = x + j ∧ q = 2 ^ j * (2 * m + 1) := by
  induction fuel generalizing q x with
  | zero => exact absurd (by simpa using hq) hne
  | succ fuel ih =>
    rw [lsbLoop]
    split
    · next h =>
      obtain ⟨j, m, hloop, hvalue⟩ := ih (q := q / 16) (x := x + lnz.getD (q % 16) 0)
        (Nat.div_lt_of_lt_mul (by rwa [← pow_succ'])) (by omega)
      refine ⟨4 + j, m, ?_, ?_⟩
      · rw [hloop, h, add_assoc]
        rfl
      · rw [pow_add, mul_assoc, ← hvalue]
        omega
    · next h =>
      obtain ⟨hlt, hmod⟩ := lnz_spec (q % 16) (Nat.mod_lt _ (by decide)) h
      have hdvd : 2 ^ (lnz.getD (q % 16) 0 + 1) ∣ 2 ^ 4 := pow_dvd_pow 2 hlt
      obtain ⟨m, hm⟩ := exists_odd_of_mod ((Nat.mod_mod_of_dvd q hdvd).symm.trans hmod)
      exact ⟨_, m, rfl, hm⟩

theorem zeroDigits_spec (cfg : MpConfig) (hne : ∃ x ∈ ds, x ≠ 0) :
    ds.getD (zeroDigits ds) 0 ≠ 0 ∧
      ∃ rest, ofDigits cfg.base ds = cfg.base ^ zeroDigits ds *
        (ds.getD (zeroDigits ds) 0 + cfg.base * rest) := by
  induction ds with
  | nil => exact absurd hne (by simp)
  | cons x xs ih =>
    rw [zeroDigits]
    split
    · next h =>
      obtain ⟨y, hy, hyne⟩ := hne
      obtain ⟨hget, rest, hvalue⟩ := ih
        ⟨y, (List.mem_cons.mp hy).resolve_left fun hyx ↦ hyne (hyx.trans h), hyne⟩
      rw [List.getD_cons_succ]
      refine ⟨hget, rest, ?_⟩
      rw [Nat.ofDigits_cons, hvalue, h, pow_succ]
      ring
    · next h => exact ⟨h, ofDigits cfg.base xs, by simp [Nat.ofDigits_cons]⟩

/-- `mp_cnt_lsb` is the power of two in a number. -/
theorem mpCntLsb_spec (ha : a.Repr cfg v) (hv : v ≠ 0) :
    ∃ m, v.natAbs = 2 ^ mpCntLsb cfg a * (2 * m + 1) := by
  have hused : a.used ≠ 0 := mt ha.used_eq_zero_iff.mp hv
  obtain ⟨n, hn⟩ := Nat.exists_eq_add_one_of_ne_zero hused
  have hlen := ha.length_digits
  have hne : ∃ x ∈ a.digits, x ≠ 0 := by
    have htop := ha.toCanonical.getD_digits_ne hn
    rw [List.getD_eq_getElem _ _ (by omega)] at htop
    exact ⟨_, List.getElem_mem _, htop⟩
  obtain ⟨hget, rest, hvalue⟩ := zeroDigits_spec cfg hne
  rw [getD_digits ha.toValid] at hget hvalue
  have hlt := getD_lt cfg.base_pos ha.digit_lt (zeroDigits a.digits)
  -- the digit is shorter than the base, so its power of two is that of the number
  obtain ⟨j, m, hj, hm⟩ : ∃ j m, mpCntLsb cfg a = zeroDigits a.digits * cfg.digitBit + j ∧
      a.dp.getD (zeroDigits a.digits) 0 = 2 ^ j * (2 * m + 1) := by
    simp only [mpCntLsb, if_neg hused]
    split
    · refine lsbLoop_spec ?_ hget
      calc a.dp.getD (zeroDigits a.digits) 0 < cfg.base := hlt
        _ ≤ 2 ^ cfg.digitSize := by have := cfg.two_mul_base_le; omega
        _ ≤ 16 ^ cfg.digitSize := Nat.pow_le_pow_left (by decide) _
    · next hodd =>
      exact ⟨0, a.dp.getD (zeroDigits a.digits) 0 / 2, rfl, by
        rw [pow_zero, one_mul]
        exact (Nat.two_mul_div_two_add_one_of_odd (Nat.odd_iff.mpr (by omega))).symm⟩
  have hbit : j < cfg.digitBit := by
    refine (Nat.pow_lt_pow_iff_right one_lt_two).mp (lt_of_le_of_lt ?_ hlt)
    rw [hm]
    exact Nat.le_mul_of_pos_right _ (Nat.succ_pos _)
  have hbase : cfg.base = 2 ^ j * (2 * 2 ^ (cfg.digitBit - j - 1)) := by
    rw [← pow_succ', ← pow_add, MpConfig.base]
    congr 1
    omega
  have hpow : cfg.base ^ zeroDigits a.digits = 2 ^ (zeroDigits a.digits * cfg.digitBit) := by
    rw [MpConfig.base, ← pow_mul, mul_comm]
  refine ⟨m + 2 ^ (cfg.digitBit - j - 1) * rest, ?_⟩
  rw [← ha.mag_eq, mag, hvalue, hj, hm, pow_add, ← hpow]
  nth_rw 2 [hbase]
  ring

/-- `mp_2expt` is a power of two. -/
theorem mp2expt_repr (ha : a.Valid cfg) (n : ℕ) : (mp2expt cfg a n).Repr cfg (2 ^ n : ℕ) := by
  have hgrow := ((mpZero_repr ha).toValid).grow (n / cfg.digitBit + 1)
  have hlen := le_length_grow (mpZero a) (n / cfg.digitBit + 1)
  have hused : ((mpZero a).grow (n / cfg.digitBit + 1)).used = 0 := used_grow _ _
  have hsign : ((mpZero a).grow (n / cfg.digitBit + 1)).sign = .zpos := sign_grow _ _
  have hpos : 0 < cfg.digitBit := by
    have := cfg.lt_digitBit
    omega
  have hbit : 2 ^ (n % cfg.digitBit) < cfg.base :=
    Nat.pow_lt_pow_right one_lt_two (Nat.mod_lt _ hpos)
  have hmod : 2 ^ (n % cfg.digitBit) % 2 ^ cfg.digitSize = 2 ^ (n % cfg.digitBit) :=
    Nat.mod_eq_of_lt (by have := cfg.two_mul_base_le; omega)
  have hset : mp2expt cfg a n = ((mpZero a).grow (n / cfg.digitBit + 1)).store
      (List.replicate (n / cfg.digitBit) 0 ++ [2 ^ (n % cfg.digitBit)]) := by
    have hzero : ((mpZero a).grow (n / cfg.digitBit + 1)).dp.take (n / cfg.digitBit) =
        List.replicate (n / cfg.digitBit) 0 := by
      refine List.eq_replicate_iff.mpr ⟨List.length_take_of_le (by omega), fun x hx ↦ ?_⟩
      refine hgrow.excess x ?_
      rw [hused]
      exact List.mem_of_mem_take hx
    simp only [mp2expt, MpInt.store, hmod]
    rw [List.set_eq_take_append_cons_drop, if_pos (by omega), hzero, hused]
    simp
  rw [hset]
  refine (repr_store hgrow (List.forall_mem_append.mpr
    ⟨fun _ h ↦ List.eq_of_mem_replicate h ▸ cfg.base_pos, List.forall_mem_singleton.mpr hbit⟩)
    (by simpa using hlen) (fun k hk ↦ ?_) (fun _ ↦ hsign)).cast ?_
  · rw [List.length_append, List.length_replicate, List.length_singleton] at hk
    rw [List.getD_append_right _ _ _ _ (by rw [List.length_replicate]; omega),
      List.length_replicate, show k - n / cfg.digitBit = 0 by omega]
    exact (Nat.two_pow_pos _).ne'
  · rw [hsign, MpSign.apply_zpos, Nat.ofDigits_append, Nat.ofDigits_replicate_zero,
      List.length_replicate, Nat.ofDigits_singleton, zero_add, MpConfig.base, ← pow_mul, ← pow_add,
      Nat.div_add_mod]

end Mp

end SecureIIoT
