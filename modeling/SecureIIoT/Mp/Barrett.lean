import SecureIIoT.Mp.Reduce

/-!
# Barrett reduction of the library

`mp_reduce` estimates the quotient with the reciprocal that `mp_reduce_setup` computed, and it
only computes the digits of the estimate from `um` on, where `um` is the number of digits of the
modulus.  The columns below may carry up to `um` into them, and so the estimate is up to
`um + 2` too low, which is still less than the base; the loop at the end subtracts what is left
(`mpReduce_repr`).  The digits below `um` are those the destination had before, or zeros.

The check that `um` is small enough for this compares it as an `mp_digit`, and so it is only
right for lengths that fit one: with `MP_16BIT`, a modulus of 65536 digits passes the check like
one without digits.
-/

namespace SecureIIoT

namespace Mp

open Radix

open Nat (ofDigits)

variable (cfg : MpConfig)

/-! ## The operations -/

/-- `s_mp_mul_high_digs_fast`: the digits of the destination below `digs` stay. -/
def sMpMulHighDigsFast (a b c : MpInt) (digs : ℕ) : MpInt :=
  let pa := a.used + b.used
  let c := c.grow pa
  let ws := combaLoop cfg (mulColumn cfg a b) 0 ((List.range pa).drop digs)
  MpInt.clamp
    { c with
      used := pa
      dp := c.dp.take digs ++ ws ++ List.replicate (c.used - max digs pa) 0 ++
        c.dp.drop (max c.used (max digs pa)) }

/-- The outer loop of `s_mp_mul_high_digs` on the digits of `t` from `digs` on; `skip` is
`digs - ix`. -/
def highRows (ys : List ℕ) : (xs : List ℕ) → (skip : ℕ) → (t : List ℕ) → List ℕ
  | [], _, t => t
  | x :: xs, skip, t => highRows ys xs (skip - 1) (mulRow cfg x 0 t (ys.drop skip))

/-- `s_mp_mul_high_digs`, which swaps its result with the destination. -/
def sMpMulHighDigs (a b c : MpInt) (digs : ℕ) : MpInt :=
  if a.used + b.used + 1 < cfg.warray ∧ min a.used b.used < cfg.maxfast then
    sMpMulHighDigsFast cfg a b c digs
  else
    let t := mpInitSize cfg (a.used + b.used + 1)
    MpInt.clamp
      { t with
        used := a.used + b.used + 1
        dp := t.dp.take digs ++ highRows cfg b.digits a.digits digs (t.dp.drop digs) }

/-- `mp_reduce_setup` -/
def mpReduceSetup (a b : MpInt) : Except MpErr MpInt := do
  let a := mp2expt cfg a (b.used * 2 * cfg.digitBit)
  let (a, _) ← mpDiv cfg a b a mpInit
  .ok a

/-- The loop at the end of `mp_reduce`. -/
def backOffLoop (m : MpInt) : (fuel : ℕ) → MpInt → MpInt
  | 0, x => x
  | fuel + 1, x => if mpCmp x m ≠ .lt then backOffLoop m fuel (sMpSub cfg x m x) else x

/-- `mp_reduce` -/
def mpReduce (large : LargeMul) (x m mu : MpInt) : MpInt :=
  let um := m.used
  let q := mpRshd (mpInitCopy cfg x) (um - 1)
  -- `(mp_digit)um` drops what is above the bits of a digit
  let q := if 2 ^ (cfg.digitBit - 1) < um % 2 ^ cfg.digitSize then mpMul cfg large q mu q
    else sMpMulHighDigs cfg q mu q um
  let q := mpRshd q (um + 1)
  let x := mpMod2d cfg x (cfg.digitBit * (um + 1)) x
  let q := sMpMulDigs cfg q m q (um + 1)
  let x := mpSub cfg x q x
  let x := if mpCmpD x 0 = .lt then mpAdd cfg x (mpLshd (mpSet cfg q 1) (um + 1)) x else x
  backOffLoop cfg m (x.mag cfg + 1) x

variable {cfg} {a b c m mu x : MpInt} {N X digs : ℕ}

open MpInt

/-! ## High products -/

/-- A product by columns, with the columns below `digs` left out. -/
theorem sMpMulHighDigsFast_repr (ha : a.Valid cfg) (hb : b.Valid cfg) (hc : c.Valid cfg)
    (hdigs : digs ≤ a.used + b.used) (hfast : min a.used b.used ≤ cfg.maxfast) :
    ∃ low high, low < cfg.base ^ digs ∧ cfg.base ^ digs * high +
        ofDigits cfg.base ((List.range digs).map (column a.digits b.digits)) =
        a.mag cfg * b.mag cfg ∧
      (sMpMulHighDigsFast cfg a b c digs).Repr cfg
        (c.sign.apply (low + cfg.base ^ digs * high)) := by
  obtain ⟨hroom, hword⟩ := maxfast_room cfg
  have hloop := combaLoop_eq (mulColumn cfg a b) hroom ((List.range (a.used + b.used)).drop digs)
    (fun ix _ w hw ↦ mulColumn_eq ha hb
      ((Nat.add_le_add (column_digits_le ha hb ix hfast) hw).trans_lt hword))
    (fun ix ↦ column_digits_le ha hb ix hfast) (Nat.zero_le _)
  have hhigh := ofDigits_carryDigits_high hdigs (mul_mag_lt ha hb)
  have hlt := carryDigits_lt cfg.base_pos 0
    (((List.range (a.used + b.used)).drop digs).map (column a.digits b.digits))
  have hlen := length_carryDigits (B := cfg.base) 0
    (((List.range (a.used + b.used)).drop digs).map (column a.digits b.digits))
  rw [List.length_map, List.length_drop, List.length_range] at hlen
  rw [← hloop] at hhigh hlt hlen
  have hgrow := hc.grow (a.used + b.used)
  have hpa := le_length_grow c (a.used + b.used)
  simp only [sMpMulHighDigsFast, Nat.max_eq_right hdigs]
  rw [← sign_grow c (a.used + b.used)]
  generalize c.grow (a.used + b.used) = c at hgrow hpa ⊢
  generalize combaLoop cfg (mulColumn cfg a b) 0 ((List.range (a.used + b.used)).drop digs) = ws
    at hhigh hlt hlen ⊢
  have hused := hgrow.used_le
  have hlow := ofDigits_take_lt cfg.one_lt_base hgrow.digit_lt digs
  refine ⟨ofDigits cfg.base (c.dp.take digs), ofDigits cfg.base ws, hlow, hhigh, ?_⟩
  have hzero : ofDigits cfg.base (List.replicate (c.used - (a.used + b.used)) 0 ++
      c.dp.drop (max c.used (a.used + b.used))) = 0 := by
    refine ofDigits_eq_zero (List.forall_mem_append.mpr ⟨fun d ↦ List.eq_of_mem_replicate,
      fun d hd ↦ hgrow.excess d ?_⟩)
    have hdrop : c.dp.drop (max c.used (a.used + b.used)) =
        (c.dp.drop c.used).drop (max c.used (a.used + b.used) - c.used) := by
      rw [List.drop_drop, Nat.add_sub_cancel' (le_max_left _ _)]
    exact List.mem_of_mem_drop (hdrop ▸ hd)
  have hvalue : ofDigits cfg.base (c.dp.take digs ++ ws ++
      List.replicate (c.used - (a.used + b.used)) 0 ++ c.dp.drop (max c.used (a.used + b.used))) =
      ofDigits cfg.base (c.dp.take digs) + cfg.base ^ digs * ofDigits cfg.base ws := by
    rw [List.append_assoc, Nat.ofDigits_append, hzero, mul_zero, add_zero, Nat.ofDigits_append,
      List.length_take_of_le (hdigs.trans hpa)]
  have hwords := Nat.ofDigits_lt_base_pow_length cfg.one_lt_base hlt
  rw [hlen] at hwords
  rw [← hvalue]
  refine repr_clamp_buffer ?_ ?_ ?_ ?_ c.sign
  · simp only [List.forall_mem_append]
    exact ⟨⟨⟨fun d hd ↦ hgrow.digit_lt d (List.mem_of_mem_take hd), hlt⟩,
      fun d hd ↦ List.eq_of_mem_replicate hd ▸ cfg.base_pos⟩,
      fun d hd ↦ hgrow.digit_lt d (List.mem_of_mem_drop hd)⟩
  · have hprec := hgrow.prec_le
    simp only [List.length_append, List.length_take, List.length_replicate, List.length_drop, hlen]
    omega
  · simp only [List.length_append, List.length_take, List.length_replicate, List.length_drop, hlen]
    omega
  · rw [hvalue]
    calc ofDigits cfg.base (c.dp.take digs) + cfg.base ^ digs * ofDigits cfg.base ws
        < cfg.base ^ digs * (ofDigits cfg.base ws + 1) := by rw [mul_add, mul_one]; omega
      _ ≤ cfg.base ^ digs * cfg.base ^ (a.used + b.used - digs) :=
          Nat.mul_le_mul_left _ (Nat.succ_le_of_lt hwords)
      _ = cfg.base ^ (a.used + b.used) := by rw [← pow_add, Nat.add_sub_cancel' hdigs]

/-- A product by rows, with the columns below `skip` left out, and what leaves the buffer. -/
theorem highRows_spec {xs ys ts : List ℕ} {skip : ℕ} (hxs : ∀ x ∈ xs, x < cfg.base)
    (hys : ∀ y ∈ ys, y < cfg.base) (hts : ∀ t ∈ ts, t < cfg.base) (hskip : xs.length ≤ skip + 1)
    (hzero : ∀ t ∈ ts.drop (ys.drop skip).length, t = 0) :
    ∃ out, cfg.base ^ skip * (ofDigits cfg.base (highRows cfg ys xs skip ts) +
        cfg.base ^ ts.length * out) + ofDigits cfg.base ((List.range skip).map (column xs ys)) =
        cfg.base ^ skip * ofDigits cfg.base ts + ofDigits cfg.base xs * ofDigits cfg.base ys ∧
      (highRows cfg ys xs skip ts).length = ts.length ∧
      ∀ d ∈ highRows cfg ys xs skip ts, d < cfg.base := by
  induction xs generalizing skip ts with
  | nil =>
    refine ⟨0, ?_, rfl, hts⟩
    rw [highRows, ofDigits_eq_zero (List.forall_mem_map.mpr fun k _ ↦ column_nil ys k)]
    simp
  | cons x xs ih =>
    obtain ⟨hx, hxs⟩ := List.forall_mem_cons.mp hxs
    have hdrop : ∀ y ∈ ys.drop skip, y < cfg.base := fun y hy ↦ hys y (List.mem_of_mem_drop hy)
    obtain ⟨out, hvalue, hlength, hlt, hrest⟩ := mulRow_spec hx cfg.base_pos hts hdrop hzero
    rw [highRows]
    cases skip with
    | zero =>
      obtain rfl := List.eq_nil_of_length_eq_zero (Nat.le_zero.mp (Nat.le_of_succ_le_succ hskip))
      refine ⟨out, ?_, hlength, hlt⟩
      rw [List.drop_zero] at hvalue ⊢
      simp only [highRows, pow_zero, one_mul, List.range_zero, List.map_nil, Nat.ofDigits_nil,
        add_zero, hvalue, Nat.ofDigits_singleton]
    | succ skip =>
      have hnext : ∀ t ∈ (mulRow cfg x 0 ts (ys.drop (skip + 1))).drop (ys.drop skip).length,
          t = 0 := by
        rcases lt_or_ge skip ys.length with hlt | hge
        · rwa [List.length_drop, show ys.length - skip = ys.length - (skip + 1) + 1 by omega,
            ← List.length_drop]
        · -- a row without products leaves the zeros
          rw [List.drop_of_length_le (Nat.le_succ_of_le hge), List.length_nil,
            List.drop_zero] at hzero
          rw [List.drop_of_length_le hge, List.drop_of_length_le (Nat.le_succ_of_le hge),
            List.length_nil, List.drop_zero]
          cases ts with
          | nil => exact fun _ h ↦ nomatch h
          | cons t ts =>
            exact List.forall_mem_cons.mpr ⟨rfl, (List.forall_mem_cons.mp hzero).2⟩
      obtain ⟨out', ihvalue, ihlength, ihlt⟩ := ih hxs hlt (Nat.le_of_succ_le_succ hskip) hnext
      refine ⟨out + out', ?_, ihlength.trans hlength, ihlt⟩
      have hsplit := ofDigits_take_add_drop (B := cfg.base) ys (skip + 1)
      rw [hlength] at ihvalue
      rw [Nat.add_sub_cancel, ofDigits_columns_cons, Nat.ofDigits_cons, pow_succ]
      rw [pow_succ] at hsplit
      linear_combination cfg.base * ihvalue + cfg.base ^ skip * cfg.base * hvalue + x * hsplit

/-- A product of which the columns below `digs` are left out, by columns or by rows. -/
theorem sMpMulHighDigs_repr (ha : a.Valid cfg) (hb : b.Valid cfg) (hc : c.Valid cfg)
    (hsign : c.sign = .zpos) (hdigs : digs ≤ a.used + b.used) (haused : a.used ≤ digs + 1) :
    ∃ low high, low < cfg.base ^ digs ∧ cfg.base ^ digs * high +
        ofDigits cfg.base ((List.range digs).map (column a.digits b.digits)) =
        a.mag cfg * b.mag cfg ∧
      (sMpMulHighDigs cfg a b c digs).Repr cfg (low + cfg.base ^ digs * high : ℕ) := by
  rw [sMpMulHighDigs]
  split
  · next hfast =>
    obtain ⟨low, high, hlow, hhigh, hrepr⟩ := sMpMulHighDigsFast_repr ha hb hc hdigs hfast.2.le
    rw [hsign] at hrepr
    exact ⟨low, high, hlow, hhigh, hrepr⟩
  have hpa : a.used + b.used + 1 ≤ (mpInitSize cfg (a.used + b.used + 1)).dp.length := by
    simp [mpInitSize]
  have ht := mpInitSize_valid cfg (a.used + b.used + 1)
  have hdp : ∀ d ∈ (mpInitSize cfg (a.used + b.used + 1)).dp, d = 0 :=
    fun d ↦ List.eq_of_mem_replicate
  have hsign : (mpInitSize cfg (a.used + b.used + 1)).sign = .zpos := rfl
  simp only [hsign]
  generalize mpInitSize cfg (a.used + b.used + 1) = t at hpa ht hdp ⊢
  have hrest : ∀ d ∈ t.dp.drop digs, d = 0 := fun d hd ↦ hdp d (List.mem_of_mem_drop hd)
  obtain ⟨out, hvalue, hlength, hlt⟩ := highRows_spec ha.digits_lt hb.digits_lt
    (fun d hd ↦ hrest d hd ▸ cfg.base_pos) (by rwa [ha.length_digits])
    (fun d hd ↦ hrest d (List.mem_of_mem_drop hd))
  rw [ofDigits_eq_zero hrest, mul_zero, zero_add, List.length_drop] at hvalue
  rw [List.length_drop] at hlength
  generalize highRows cfg b.digits a.digits digs (t.dp.drop digs) = rs at hvalue hlength hlt ⊢
  have hmul := mul_mag_lt ha hb
  have hout : out = 0 := by
    by_contra hne
    have hpos := Nat.le_mul_of_pos_right (cfg.base ^ (t.dp.length - digs)) (Nat.pos_of_ne_zero hne)
    have hle : cfg.base ^ (a.used + b.used) ≤
        cfg.base ^ digs * cfg.base ^ (t.dp.length - digs) := by
      rw [← pow_add]
      exact Nat.pow_le_pow_right cfg.base_pos (by omega)
    have hbound := hle.trans (Nat.mul_le_mul_left (cfg.base ^ digs) hpos)
    rw [mul_add] at hvalue
    rw [mag, mag] at hmul
    omega
  rw [hout, mul_zero, add_zero] at hvalue
  refine ⟨0, ofDigits cfg.base rs, Nat.pow_pos cfg.base_pos, hvalue, ?_⟩
  have hdigits : ofDigits cfg.base (t.dp.take digs ++ rs) =
      0 + cfg.base ^ digs * ofDigits cfg.base rs := by
    rw [Nat.ofDigits_append, List.length_take_of_le (by omega),
      ofDigits_eq_zero fun d hd ↦ hdp d (List.mem_of_mem_take hd)]
  have hlength' : (t.dp.take digs ++ rs).length = t.dp.length := by
    rw [List.length_append, List.length_take_of_le (by omega), hlength]
    omega
  rw [← hdigits]
  refine repr_clamp_buffer ?_ ?_ ?_ ?_ .zpos
  · exact List.forall_mem_append.mpr
      ⟨fun d hd ↦ hdp d (List.mem_of_mem_take hd) ▸ cfg.base_pos, hlt⟩
  · rw [hlength']
    exact ht.prec_le
  · rwa [hlength']
  · rw [hdigits, zero_add]
    rw [mag, mag] at hmul
    have hpow := Nat.pow_le_pow_right cfg.base_pos (Nat.le_add_right (a.used + b.used) 1)
    omega

/-! ## The reduction -/

/-- `mp_reduce_setup` computes the reciprocal of the modulus. -/
theorem mpReduceSetup_repr (ha : a.Valid cfg) (hb : b.Repr cfg (N : ℕ)) :
    if N = 0 then mpReduceSetup cfg a b = .error .val
    else ∃ mu, mpReduceSetup cfg a b = .ok mu ∧
      mu.Repr cfg (cfg.base ^ (2 * b.used) / N : ℕ) := by
  have hexpt := mp2expt_repr ha (b.used * 2 * cfg.digitBit)
  have hdiv := mpDiv_repr hexpt hb hexpt.toValid mpInit_valid
  have hpow : 2 ^ (b.used * 2 * cfg.digitBit) = cfg.base ^ (2 * b.used) := by
    rw [MpConfig.base, ← pow_mul]
    congr 1
    ring
  rw [mpReduceSetup]
  simp only [Nat.cast_eq_zero] at hdiv
  split
  · next hN =>
    rw [if_pos hN] at hdiv
    rw [hdiv]
    rfl
  · next hN =>
    rw [if_neg hN] at hdiv
    obtain ⟨c, d, hok, hc, -⟩ := hdiv
    rw [hok]
    exact ⟨c, rfl, hc.cast (by rw [hpow]; rfl)⟩

/-- The loop ends with the remainder. -/
theorem backOffLoop_repr {fuel : ℕ} (hm : m.Repr cfg (N : ℕ)) (hN : 0 < N)
    (hx : x.Repr cfg (X : ℕ)) (hfuel : X < fuel) :
    (backOffLoop cfg m fuel x).Repr cfg (X % N : ℕ) := by
  induction fuel generalizing x X with
  | zero => exact absurd hfuel (Nat.not_lt_zero X)
  | succ fuel ih =>
    have hcmp : mpCmp x m = .lt ↔ X < N := by
      rw [mpCmp_eq hx hm, compare_lt_iff_lt, Nat.cast_lt]
    rw [backOffLoop]
    split
    · next hge =>
      have hle : N ≤ X := not_lt.mp (mt hcmp.mpr hge)
      have hsub := sMpSub_natCast hx hm hx.toValid hx.sign_natCast hle
      rw [Nat.mod_eq_sub_mod hle]
      exact ih hsub (by omega)
    · next hlt => rwa [Nat.mod_eq_of_lt (hcmp.mp (not_not.mp hlt))]

/-- The difference of residues is the number, if it is less than the modulus. -/
theorem sub_mod_eq {R r X Y : ℕ} (hY : Y + r = X) (hr : r < R) :
    ((X % R : ℕ) - (Y % R : ℕ) : ℤ) = if X % R < Y % R then (r - R : ℤ) else r := by
  have hX : X % R = (Y % R + r) % R := by rw [← hY, Nat.mod_add_mod]
  have hlt := Nat.mod_lt Y (Nat.zero_lt_of_lt hr)
  rcases lt_or_ge (Y % R + r) R with h | h
  · rw [Nat.mod_eq_of_lt h] at hX
    rw [if_neg (by omega)]
    omega
  · rw [Nat.mod_eq_sub_mod h, Nat.mod_eq_of_lt (by omega : Y % R + r - R < R)] at hX
    rw [if_pos (by omega)]
    omega

variable (cfg) in
/-- What `mp_reduce` multiplies, for a modulus of `n + 1` digits: the upper digits `q` of the
number, and the reciprocal. -/
structure Estimand (q mu : MpInt) (X N n : ℕ) : Prop where
  upper : q.Repr cfg (X / cfg.base ^ n : ℕ)
  reciprocal : mu.Repr cfg (cfg.base ^ n * cfg.base ^ (n + 2) / N : ℕ)
  pow_le : cfg.base ^ n ≤ N
  lt_pow : X < cfg.base ^ n * cfg.base ^ (n + 2)
  upper_used : q.used ≤ n + 2
  reciprocal_used : mu.used ≤ n + 3
  lt_reciprocal_used : n + 1 < mu.used

theorem mpReduce_estimand {n : ℕ} (hm : m.Repr cfg (N : ℕ)) (hN : 0 < N) (hn : m.used = n + 1)
    (hmu : mu.Repr cfg (cfg.base ^ (2 * (n + 1)) / N : ℕ)) (hx : x.Repr cfg (X : ℕ))
    (hX : X < N * N) : Estimand cfg (mpRshd (mpInitCopy cfg x) n) mu X N n := by
  have hhigh := hm.mag_lt
  have hlow := hm.toCanonical.pow_le_mag hn
  rw [hm.mag_natCast] at hhigh hlow
  rw [hn] at hhigh
  have hsquare : cfg.base ^ (2 * (n + 1)) = cfg.base ^ n * cfg.base ^ (n + 2) := by
    rw [← pow_add]
    congr 1
    omega
  have hX' : X < cfg.base ^ n * cfg.base ^ (n + 2) := by
    refine hX.trans ((Nat.mul_lt_mul'' hhigh hhigh).trans_le (le_of_eq ?_))
    ring
  have hupper : (mpRshd (mpInitCopy cfg x) n).Repr cfg (X / cfg.base ^ n : ℕ) :=
    mpRshd_repr (hx.copy (mpInitSize_valid cfg x.used)) n
  refine ⟨hupper, hsquare ▸ hmu, hlow, hX', ?_, ?_, ?_⟩
  · refine hupper.used_le_of_lt ?_
    rw [Int.natAbs_natCast]
    exact Nat.div_lt_of_lt_mul hX'
  · refine hmu.used_le_of_lt ?_
    rw [Int.natAbs_natCast, hsquare]
    refine (Nat.div_le_div_left hlow (Nat.pow_pos cfg.base_pos)).trans_lt ?_
    rw [Nat.mul_div_cancel_left _ (Nat.pow_pos cfg.base_pos)]
    exact Nat.pow_lt_pow_right cfg.one_lt_base (Nat.lt_succ_self (n + 2))
  · have hmag := hmu.mag_lt
    rw [hmu.mag_natCast] at hmag
    have hge : cfg.base ^ (n + 1) ≤ cfg.base ^ (2 * (n + 1)) / N := by
      rw [Nat.le_div_iff_mul_le hN, two_mul, pow_add _ (n + 1)]
      exact Nat.mul_le_mul_left _ hhigh.le
    exact (Nat.pow_lt_pow_iff_right cfg.one_lt_base).mp (hge.trans_lt hmag)

/-- The whole product is off by what the roundings lose. -/
theorem Estimand.product {large : LargeMul} {q : MpInt} {n : ℕ} (h : Estimand cfg q mu X N n)
    (hlarge : large.Multiplies cfg (n + 3)) :
    ∃ k, k * N ≤ X ∧ X < (k + 3) * N ∧
      (mpRshd (mpMul cfg large q mu q) (n + 2)).Repr cfg (k : ℕ) := by
  have hpow := Nat.pow_pos (n := n + 2) cfg.base_pos
  have hmul := hlarge.mul h.upper h.reciprocal h.upper.toValid
    (h.upper_used.trans (Nat.le_succ _)) h.reciprocal_used
  obtain ⟨hle, hlt⟩ := @reciprocal_estimate _ (cfg.base ^ n) (cfg.base ^ (n + 2)) N X 0
    (Nat.pow_pos cfg.base_pos) hpow h.pow_le h.lt_pow (Nat.div_mul_le_self _ _)
    ((Nat.lt_mul_div_succ _ hpow).trans_eq (mul_comm _ _))
  exact ⟨_, hle, hlt, mpRshd_repr hmul (n + 2)⟩

/-- The product without its lower columns is off by what they would carry, besides. -/
theorem Estimand.high {q : MpInt} {n : ℕ} (h : Estimand cfg q mu X N n) :
    ∃ k, k * N ≤ X ∧ X < (k + (n + 1) + 3) * N ∧
      (mpRshd (sMpMulHighDigs cfg q mu q (n + 1)) (n + 2)).Repr cfg (k : ℕ) := by
  have hlong := h.lt_reciprocal_used
  obtain ⟨low, high, hlow, hvalue, hrepr⟩ := @sMpMulHighDigs_repr cfg q mu q (n + 1)
    h.upper.toValid h.reciprocal.toValid h.upper.toValid h.upper.sign_natCast (by omega)
    h.upper_used
  rw [h.upper.mag_natCast, h.reciprocal.mag_natCast] at hvalue
  have hcols : ofDigits cfg.base ((List.range (n + 1)).map (column q.digits mu.digits)) ≤
      (n + 1) * cfg.base ^ (n + 2) := by
    obtain ⟨d, hd⟩ := Nat.exists_eq_add_one_of_ne_zero cfg.base_pos.ne'
    have hle := ofDigits_columns_le (hd ▸ h.upper.digits_lt) (hd ▸ h.reciprocal.digits_lt) (n + 1)
    rw [hd]
    refine hle.trans (Nat.mul_le_mul_left _ ?_)
    rw [pow_succ _ (n + 1), mul_comm]
    exact Nat.mul_le_mul_left _ (Nat.le_succ d)
  -- the digits below `um` do not reach the estimate
  have hdiv : (low + cfg.base ^ (n + 1) * high) / cfg.base ^ (n + 2) = high / cfg.base := by
    rw [pow_succ _ (n + 1), ← Nat.div_div_eq_div_mul,
      Nat.add_mul_div_left _ _ (Nat.pow_pos cfg.base_pos), Nat.div_eq_of_lt hlow, zero_add]
  have hfloor : high / cfg.base * cfg.base ^ (n + 2) ≤
      X / cfg.base ^ n * (cfg.base ^ n * cfg.base ^ (n + 2) / N) := by
    rw [← hvalue, pow_succ _ (n + 1)]
    calc high / cfg.base * (cfg.base ^ (n + 1) * cfg.base)
        = cfg.base ^ (n + 1) * (high / cfg.base * cfg.base) := by ring
      _ ≤ cfg.base ^ (n + 1) * high := Nat.mul_le_mul_left _ (Nat.div_mul_le_self high cfg.base)
      _ ≤ _ := Nat.le_add_right _ _
  have hceil : X / cfg.base ^ n * (cfg.base ^ n * cfg.base ^ (n + 2) / N) <
      (high / cfg.base + (n + 1) + 1) * cfg.base ^ (n + 2) := by
    rw [← hvalue]
    calc cfg.base ^ (n + 1) * high +
          ofDigits cfg.base ((List.range (n + 1)).map (column q.digits mu.digits))
        < cfg.base ^ (n + 1) * (cfg.base * (high / cfg.base + 1)) + (n + 1) * cfg.base ^ (n + 2) :=
          Nat.add_lt_add_of_lt_of_le (Nat.mul_lt_mul_of_pos_left
            (Nat.lt_mul_div_succ high cfg.base_pos) (Nat.pow_pos cfg.base_pos)) hcols
      _ = (high / cfg.base + (n + 1) + 1) * cfg.base ^ (n + 2) := by ring
  obtain ⟨hle, hlt⟩ := @reciprocal_estimate (high / cfg.base) (cfg.base ^ n) (cfg.base ^ (n + 2))
    N X (n + 1) (Nat.pow_pos cfg.base_pos) (Nat.pow_pos cfg.base_pos) h.pow_le h.lt_pow hfloor hceil
  exact ⟨high / cfg.base, hle, hlt, hdiv ▸ mpRshd_repr hrepr (n + 2)⟩

/-- The quotient that `mp_reduce` estimates, for a modulus whose length is a digit. -/
theorem mpReduce_estimate {large : LargeMul} (hlarge : large.Multiplies cfg (m.used + 2))
    (hm : m.Repr cfg (N : ℕ)) (hN : 0 < N) (hfits : m.used < 2 ^ cfg.digitSize)
    (hmu : mu.Repr cfg (cfg.base ^ (2 * m.used) / N : ℕ)) (hx : x.Repr cfg (X : ℕ))
    (hX : X < N * N) :
    ∃ q E, E + 3 ≤ cfg.base ∧ q * N ≤ X ∧ X < (q + E + 3) * N ∧
      (mpRshd (if 2 ^ (cfg.digitBit - 1) < m.used % 2 ^ cfg.digitSize then
          mpMul cfg large (mpRshd (mpInitCopy cfg x) (m.used - 1)) mu
            (mpRshd (mpInitCopy cfg x) (m.used - 1))
        else sMpMulHighDigs cfg (mpRshd (mpInitCopy cfg x) (m.used - 1)) mu
          (mpRshd (mpInitCopy cfg x) (m.used - 1)) m.used) (m.used + 1)).Repr cfg (q : ℕ) := by
  have hbase := cfg.lt_base
  have hne : m.used ≠ 0 := mt hm.used_eq_zero_iff.mp (by exact_mod_cast hN.ne')
  obtain ⟨n, hn⟩ := Nat.exists_eq_add_one_of_ne_zero hne
  rw [Nat.mod_eq_of_lt hfits]
  rw [hn] at hlarge hmu ⊢
  have hestimand := mpReduce_estimand hm hN hn hmu hx hX
  rw [Nat.add_sub_cancel]
  split
  · obtain ⟨k, hle, hlt, hrepr⟩ := hestimand.product hlarge
    exact ⟨k, 0, by omega, hle, hlt, hrepr⟩
  · next hsmall =>
    obtain ⟨k, hle, hlt, hrepr⟩ := hestimand.high
    have hhalf : cfg.base = 2 * 2 ^ (cfg.digitBit - 1) := by
      have hbit := cfg.lt_digitBit
      rw [MpConfig.base, ← pow_succ', Nat.sub_add_cancel (by omega)]
    exact ⟨k, n + 1, by omega, hle, hlt, hrepr⟩

/-- `mp_reduce` ends with the remainder, for a modulus whose length is a digit. -/
theorem mpReduce_repr {large : LargeMul} (hlarge : large.Multiplies cfg (m.used + 2))
    (hm : m.Repr cfg (N : ℕ)) (hN : 0 < N) (hfits : m.used < 2 ^ cfg.digitSize)
    (hmu : mu.Repr cfg (cfg.base ^ (2 * m.used) / N : ℕ)) (hx : x.Repr cfg (X : ℕ))
    (hX : X < N * N) :
    (mpReduce cfg large x m mu).Repr cfg (X % N : ℕ) := by
  obtain ⟨q, E, hE, hle, hlt, hq⟩ := mpReduce_estimate hlarge hm hN hfits hmu hx hX
  obtain ⟨r, hr⟩ := Nat.exists_eq_add_of_le hle
  have hmag := hm.mag_lt
  rw [hm.mag_eq, Int.natAbs_natCast] at hmag
  have hroom : r < cfg.base ^ (m.used + 1) := by
    calc r < (E + 3) * N := by
          rw [hr, add_assoc, add_mul] at hlt
          exact Nat.lt_of_add_lt_add_left hlt
      _ ≤ cfg.base * cfg.base ^ m.used := Nat.mul_le_mul hE hmag.le
      _ = cfg.base ^ (m.used + 1) := (pow_succ' _ _).symm
  have hmod := mpMod2d_repr hx hx.toValid (cfg.digitBit * (m.used + 1))
  have hpow : 2 ^ (cfg.digitBit * (m.used + 1)) = cfg.base ^ (m.used + 1) := pow_mul _ _ _
  rw [hpow] at hmod
  have hdiff := sub_mod_eq hr.symm hroom
  rw [mpReduce]
  generalize mpRshd (if 2 ^ (cfg.digitBit - 1) < m.used % 2 ^ cfg.digitSize then
      mpMul cfg large (mpRshd (mpInitCopy cfg x) (m.used - 1)) mu
        (mpRshd (mpInitCopy cfg x) (m.used - 1))
    else sMpMulHighDigs cfg (mpRshd (mpInitCopy cfg x) (m.used - 1)) mu
      (mpRshd (mpInitCopy cfg x) (m.used - 1)) m.used) (m.used + 1) = q' at hq ⊢
  obtain ⟨s, hs, hmul⟩ := sMpMulDigs_repr hq.toValid hm.toValid hq.toValid (m.used + 1)
  rw [hq.sign_natCast, or_self] at hs
  rw [hs, hq.mag_eq, hm.mag_eq, Int.natAbs_natCast, Int.natAbs_natCast] at hmul
  have hsub := (mpSub_repr hmod hmul hmod.toValid).cast hdiff
  have hunit := mpLshd_repr (mpSet_repr hmul.toValid cfg.one_lt_base) (m.used + 1)
  have hcmp := mpCmpD_eq hsub cfg.base_pos
  generalize mpSub cfg (mpMod2d cfg x (cfg.digitBit * (m.used + 1)) x)
    (sMpMulDigs cfg q' m q' (m.used + 1)) (mpMod2d cfg x (cfg.digitBit * (m.used + 1)) x) = x'
    at hsub hcmp ⊢
  generalize mpLshd (mpSet cfg (sMpMulDigs cfg q' m q' (m.used + 1)) 1) (m.used + 1) = unit
    at hunit ⊢
  have hrest : (if mpCmpD x' 0 = .lt then mpAdd cfg x' unit x' else x').Repr cfg (r : ℕ) := by
    split at hsub
    · next hborrow =>
      rw [if_pos hborrow] at hcmp
      rw [if_pos (hcmp.trans (compare_lt_iff_lt.mpr (by omega)))]
      exact (mpAdd_repr hsub hunit hsub.toValid).cast (by push_cast; ring)
    · next hnone =>
      rw [if_neg hnone] at hcmp
      rwa [if_neg fun h ↦ absurd (compare_lt_iff_lt.mp (hcmp ▸ h)) (by omega)]
  generalize (if mpCmpD x' 0 = .lt then mpAdd cfg x' unit x' else x') = x'' at hrest ⊢
  rw [hr, Nat.mul_add_mod_self_right]
  refine backOffLoop_repr hm hN hrest ?_
  rw [hrest.mag_eq, Int.natAbs_natCast]
  exact Nat.lt_succ_self r

end Mp

end SecureIIoT
