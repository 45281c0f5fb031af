import SecureIIoT.Mp.Add

/-!
# Multiplication and squaring

`mp_mul` and `mp_sqr`.  Below the Karatsuba cut-offs both have a fast path, which sums up
the columns of the product in an `mp_word` and carries from one to the next, and one that
adds row after row.  The fast path is taken when the shorter number has at most
`MP_MAXFAST` digits, and that is what keeps the word from overflowing (`combaLoop_eq`).
From the cut-offs on, the work is done by routines that are a parameter here and have to find
the magnitude of the product.  Either way the result is the canonical form of the product
(`mpMul_repr`, `mpSqr_repr`).
-/

namespace SecureIIoT

namespace Mp

open Radix

open Nat (ofDigits)

/-- `s_mp_balance_mul`, `s_mp_toom_mul`, `s_mp_karatsuba_mul`, `s_mp_toom_sqr` and
`s_mp_karatsuba_sqr`, by what they leave in their destination. -/
structure LargeMul where
  balanceMul : MpInt → MpInt → MpInt → MpInt
  toomMul : MpInt → MpInt → MpInt → MpInt
  karatsubaMul : MpInt → MpInt → MpInt → MpInt
  toomSqr : MpInt → MpInt → MpInt
  karatsubaSqr : MpInt → MpInt → MpInt

/-- `MP_KARATSUBA_MUL_CUTOFF` -/
def karatsubaMulCutoff : ℕ := 80

/-- `MP_KARATSUBA_SQR_CUTOFF` -/
def karatsubaSqrCutoff : ℕ := 120

/-- `MP_TOOM_MUL_CUTOFF` -/
def toomMulCutoff : ℕ := 350

/-- `MP_TOOM_SQR_CUTOFF` -/
def toomSqrCutoff : ℕ := 400

variable (cfg : MpConfig)

/-! ## Columns -/

/-- The loop over the columns of a product: a column adds its products to the word `w`. -/
def combaLoop (column : (ix w : ℕ) → ℕ) : (w : ℕ) → List ℕ → List ℕ
  | _, [] => []
  | w, ix :: ixs => column ix w % cfg.base :: combaLoop column (column ix w / cfg.base) ixs

/-- A column of `s_mp_mul_digs_fast`.  Here `ty` is one more than in the source, where it
starts from `b->used - 1`. -/
def mulColumn (a b : MpInt) (ix w : ℕ) : ℕ :=
  let ty := min b.used (ix + 1)
  let tx := ix + 1 - ty
  (List.range (min (a.used - tx) ty)).foldl
    (fun w iz ↦ (w + a.dp.getD (tx + iz) 0 * b.dp.getD (ty - 1 - iz) 0) % 2 ^ cfg.wordSize) w

/-- A column of `s_mp_sqr_fast`. -/
def sqrColumn (a : MpInt) (ix w1 : ℕ) : ℕ :=
  let ty := min a.used (ix + 1)
  let tx := ix + 1 - ty
  let w := (List.range (min (min (a.used - tx) ty) ((ty - tx) / 2))).foldl
    (fun w iz ↦ (w + a.dp.getD (tx + iz) 0 * a.dp.getD (ty - 1 - iz) 0) % 2 ^ cfg.wordSize) 0
  let w := (w + w + w1) % 2 ^ cfg.wordSize
  if ix % 2 = 0 then (w + a.dp.getD (ix / 2) 0 * a.dp.getD (ix / 2) 0) % 2 ^ cfg.wordSize else w

/-- `s_mp_mul_digs_fast` -/
def sMpMulDigsFast (a b c : MpInt) (digs : ℕ) : MpInt :=
  c.fill digs c.sign
    (combaLoop cfg (mulColumn cfg a b) 0 (List.range (min digs (a.used + b.used))))

/-- `s_mp_sqr_fast` -/
def sMpSqrFast (a b : MpInt) : MpInt :=
  b.fill (a.used + a.used) b.sign
    (combaLoop cfg (sqrColumn cfg a) 0 (List.range (a.used + a.used)))

/-! ## Rows -/

/-- The inner loop of `s_mp_mul_digs` on the digits of `t` from `tmpt` on, which ends with
the carry if there is a place for it. -/
def mulRow (tmpx : ℕ) : (u : ℕ) → (tmpt tmpy : List ℕ) → List ℕ
  | _, [], _ => []
  | u, _ :: ts, [] => u :: ts
  | u, t :: ts, y :: ys =>
    let r := (t + tmpx * y + u) % 2 ^ cfg.wordSize
    r % cfg.base :: mulRow tmpx (r / cfg.base % 2 ^ cfg.digitSize) ts ys

/-- The outer loop of `s_mp_mul_digs`. -/
def mulRows (ys : List ℕ) : (xs t : List ℕ) → List ℕ
  | [], t => t
  | x :: xs, t =>
    match mulRow cfg x 0 t ys with
    | [] => []
    | d :: ts => d :: mulRows ys xs ts

/-- The loop of `s_mp_sqr` that propagates a carry upwards. -/
def propagate : (u : ℕ) → (tmpt : List ℕ) → List ℕ
  | _, [] => []
  | u, t :: ts =>
    if u = 0 then t :: ts
    else
      let r := (t + u) % 2 ^ cfg.wordSize
      r % cfg.base :: propagate (r / cfg.base % 2 ^ cfg.digitSize) ts

/-- The inner loop of `s_mp_sqr`: twice the products of `tmpx` with the digits after it. -/
def sqrRow (tmpx : ℕ) : (u : ℕ) → (tmpt tmpy : List ℕ) → List ℕ
  | _, [], _ => []
  | u, ts, [] => propagate cfg u ts
  | u, t :: ts, y :: ys =>
    let r := tmpx * y % 2 ^ cfg.wordSize
    let r := (t + r + r + u) % 2 ^ cfg.wordSize
    r % cfg.base :: sqrRow tmpx (r / cfg.base % 2 ^ cfg.digitSize) ts ys

/-- The outer loop of `s_mp_sqr`, on the digits of `t` from `2 * ix` on. -/
def sqrRows : (xs t : List ℕ) → List ℕ
  | [], t => t
  | _ :: _, [] => []
  | x :: xs, t :: ts =>
    let r := (t + x * x) % 2 ^ cfg.wordSize
    let low := r % cfg.base
    match sqrRow cfg x (r / cfg.base % 2 ^ cfg.digitSize) ts xs with
    | [] => [low]
    | next :: ts => low :: next :: sqrRows xs ts

/-- The integer `mp_init_size` returns. -/
def mpInitSize (size : ℕ) : MpInt where
  sign := .zpos
  used := 0
  dp := List.replicate (max cfg.minPrec size) 0

/-- `s_mp_mul_digs`, which swaps its result with the destination. -/
def sMpMulDigs (a b c : MpInt) (digs : ℕ) : MpInt :=
  if digs < cfg.warray ∧ min a.used b.used < cfg.maxfast then sMpMulDigsFast cfg a b c digs
  else (mpInitSize cfg digs).fill digs .zpos
    (mulRows cfg b.digits a.digits (List.replicate digs 0))

/-- `s_mp_sqr` -/
def sMpSqr (a : MpInt) : MpInt :=
  (mpInitSize cfg (2 * a.used + 1)).fill (2 * a.used + 1) .zpos
    (sqrRows cfg a.digits (List.replicate (2 * a.used + 1) 0))

/-! ## Numbers -/

variable (large : LargeMul)

/-- `mp_mul` -/
def mpMul (a b c : MpInt) : MpInt :=
  let minLen := min a.used b.used
  let maxLen := max a.used b.used
  let digs := a.used + b.used + 1
  let sign : MpSign := if a.sign = b.sign then .zpos else .neg
  let c :=
    if karatsubaMulCutoff ≤ minLen ∧ karatsubaMulCutoff ≤ maxLen / 2 ∧ 2 * minLen ≤ maxLen then
      large.balanceMul a b c
    else if toomMulCutoff ≤ minLen then large.toomMul a b c
    else if karatsubaMulCutoff ≤ minLen then large.karatsubaMul a b c
    else if digs < cfg.warray ∧ minLen ≤ cfg.maxfast then sMpMulDigsFast cfg a b c digs
    else sMpMulDigs cfg a b c digs
  { c with sign := if 0 < c.used then sign else .zpos }

/-- `mp_sqr` -/
def mpSqr (a b : MpInt) : MpInt :=
  let b :=
    if toomSqrCutoff ≤ a.used then large.toomSqr a b
    else if karatsubaSqrCutoff ≤ a.used then large.karatsubaSqr a b
    else if a.used * 2 + 1 < cfg.warray ∧ a.used < cfg.maxfast / 2 then sMpSqrFast cfg a b
    else sMpSqr cfg a
  { b with sign := .zpos }

/-! ## Products by columns -/

variable {cfg large} {a b c : MpInt} {v w : ℤ}

open MpInt

/-- A loop whose columns do not overflow is a carry through their sums. -/
theorem combaLoop_eq (column : ℕ → ℕ → ℕ) {sum : ℕ → ℕ} {C U : ℕ}
    (hroom : C + U < (U + 1) * cfg.base) (ixs : List ℕ)
    (hcolumn : ∀ ix ∈ ixs, ∀ w ≤ U, column ix w = sum ix + w) (hsum : ∀ ix, sum ix ≤ C) {w : ℕ}
    (hw : w ≤ U) : combaLoop cfg column w ixs = carryDigits cfg.base w (ixs.map sum) := by
  induction ixs generalizing w with
  | nil => rfl
  | cons ix ixs ih =>
    obtain ⟨hix, hcolumn⟩ := List.forall_mem_cons.mp hcolumn
    have hlt : sum ix + w < cfg.base * (U + 1) := by
      have := hsum ix
      rw [mul_comm]
      omega
    rw [combaLoop, hix w hw, List.map_cons, carryDigits,
      ih hcolumn (Nat.lt_succ_iff.mp (Nat.div_lt_of_lt_mul hlt))]

/-- The carry of columns of at most `MP_MAXFAST` products, and the word it is added to. -/
theorem maxfast_room (cfg : MpConfig) :
    cfg.maxfast * ((cfg.base - 1) * (cfg.base - 1)) + cfg.maxfast * (cfg.base - 1) <
        (cfg.maxfast * (cfg.base - 1) + 1) * cfg.base ∧
      cfg.maxfast * ((cfg.base - 1) * (cfg.base - 1)) + cfg.maxfast * (cfg.base - 1) <
        2 ^ cfg.wordSize := by
  have hword := cfg.maxfast_mul_base
  have hfast : 0 < cfg.maxfast := Nat.two_pow_pos _
  obtain ⟨m, hm⟩ := Nat.exists_eq_succ_of_ne_zero cfg.base_pos.ne'
  rw [hm] at hword ⊢
  rw [Nat.succ_eq_add_one, Nat.add_sub_cancel] at *
  constructor <;> nlinarith

section Columns

variable (ha : a.Valid cfg) (hb : b.Valid cfg)

include ha hb

/-- A product has no more digits than its factors together. -/
theorem mul_mag_lt : a.mag cfg * b.mag cfg < cfg.base ^ (a.used + b.used) := by
  rw [pow_add]
  exact Nat.mul_lt_mul'' ha.mag_lt hb.mag_lt

theorem column_digits_le (ix : ℕ) (hfast : min a.used b.used ≤ cfg.maxfast) :
    column a.digits b.digits ix ≤ cfg.maxfast * ((cfg.base - 1) * (cfg.base - 1)) := by
  have hle := column_le (fun d hd ↦ Nat.le_sub_one_of_lt (ha.digits_lt d hd))
    (fun d hd ↦ Nat.le_sub_one_of_lt (hb.digits_lt d hd)) ix
  rw [ha.length_digits, hb.length_digits] at hle
  exact hle.trans (Nat.mul_le_mul_right _ hfast)

/-- A column of the product, as the loop computes it. -/
theorem mulColumn_eq {ix w : ℕ} (hword : column a.digits b.digits ix + w < 2 ^ cfg.wordSize) :
    mulColumn cfg a b ix w = column a.digits b.digits ix + w := by
  rw [column_eq_window rfl rfl, ha.length_digits, hb.length_digits] at hword ⊢
  simp only [getD_digits ha, getD_digits hb] at hword ⊢
  rw [mulColumn, foldl_add_mod, sum_map_range, add_comm]
  rwa [sum_map_range, add_comm]

/-- A product by columns, of which the lowest `digs` digits are kept. -/
theorem sMpMulDigsFast_repr (hc : c.Valid cfg) (digs : ℕ)
    (hfast : min a.used b.used ≤ cfg.maxfast) :
    (sMpMulDigsFast cfg a b c digs).Repr cfg
      (c.sign.apply (a.mag cfg * b.mag cfg % cfg.base ^ digs)) := by
  obtain ⟨hroom, hword⟩ := maxfast_room cfg
  have hloop := combaLoop_eq (mulColumn cfg a b) hroom (List.range (min digs (a.used + b.used)))
    (fun ix _ w hw ↦ mulColumn_eq ha hb
      ((Nat.add_le_add (column_digits_le ha hb ix hfast) hw).trans_lt hword))
    (fun ix ↦ column_digits_le ha hb ix hfast) (Nat.zero_le _)
  have hfill := repr_fill (n := digs) hc (carryDigits_lt cfg.base_pos 0
    ((List.range (min digs (a.used + b.used))).map (column a.digits b.digits)))
    (by rw [length_carryDigits, List.length_map, List.length_range]; exact Nat.min_le_left _ _)
    c.sign
  rw [ofDigits_carryDigits_columns cfg.one_lt_base, ← hloop] at hfill
  have hmod : a.mag cfg * b.mag cfg % cfg.base ^ min digs (a.used + b.used) =
      a.mag cfg * b.mag cfg % cfg.base ^ digs := by
    rcases le_total digs (a.used + b.used) with hle | hle
    · rw [Nat.min_eq_left hle]
    · rw [Nat.min_eq_right hle, Nat.mod_eq_of_lt (mul_mag_lt ha hb),
        Nat.mod_eq_of_lt ((mul_mag_lt ha hb).trans_le (Nat.pow_le_pow_right cfg.base_pos hle))]
  exact hfill.cast (congrArg c.sign.apply hmod)

end Columns

/-- A column of the square, as the loop computes it. -/
theorem sqrColumn_eq (ha : a.Valid cfg) {ix w : ℕ} (hix : ix < 2 * a.used)
    (hword : column a.digits a.digits ix + w < 2 ^ cfg.wordSize) :
    sqrColumn cfg a ix w = column a.digits a.digits ix + w := by
  rw [column_self rfl rfl (by rwa [ha.length_digits]), ha.length_digits] at hword ⊢
  simp only [getD_digits ha] at hword ⊢
  rw [sqrColumn, foldl_add_mod, sum_map_range, zero_add]
  · split at hword
    · next h =>
      rw [if_pos h, if_pos h, Nat.mod_eq_of_lt (a := _ + _ + w) (by omega),
        Nat.mod_eq_of_lt (by omega)]
      ring
    · next h =>
      rw [if_neg h, if_neg h, Nat.mod_eq_of_lt (by omega)]
      ring
  · rw [sum_map_range]
    omega

theorem sMpSqrFast_repr (ha : a.Valid cfg) (hb : b.Valid cfg) (hfast : a.used ≤ cfg.maxfast) :
    (sMpSqrFast cfg a b).Repr cfg (b.sign.apply (a.mag cfg * a.mag cfg)) := by
  obtain ⟨hroom, hword⟩ := maxfast_room cfg
  have hmin : min a.used a.used ≤ cfg.maxfast := (min_self a.used).le.trans hfast
  have hloop := combaLoop_eq (sqrColumn cfg a) hroom (List.range (a.used + a.used))
    (fun ix hix w hw ↦ sqrColumn_eq ha (by have := List.mem_range.mp hix; omega)
      ((Nat.add_le_add (column_digits_le ha ha ix hmin) hw).trans_lt hword))
    (fun ix ↦ column_digits_le ha ha ix hmin) (Nat.zero_le _)
  have hfill := repr_fill (n := a.used + a.used) hb (carryDigits_lt cfg.base_pos 0
    ((List.range (a.used + a.used)).map (column a.digits a.digits))) (by simp) b.sign
  rw [ofDigits_carryDigits_columns cfg.one_lt_base, ← hloop] at hfill
  exact hfill.cast (congrArg b.sign.apply (Nat.mod_eq_of_lt (mul_mag_lt ha ha)))

/-! ## Products by rows -/

/-- Two products of digits, with digits and carries added, fit a word. -/
theorem two_mul_square_le (cfg : MpConfig) : 2 * (cfg.base * cfg.base) ≤ 2 ^ cfg.wordSize := by
  have hlt := cfg.digitBit_lt
  rw [MpConfig.base, ← pow_add, ← pow_succ', MpConfig.wordSize]
  exact Nat.pow_le_pow_right two_pos (by omega)

theorem mul_digits_le {x y : ℕ} (hx : x < cfg.base) (hy : y < cfg.base) :
    x * y + 2 * cfg.base ≤ cfg.base * cfg.base + 1 := by
  obtain ⟨m, hm⟩ := Nat.exists_eq_add_one_of_ne_zero cfg.base_pos.ne'
  rw [hm] at hx hy ⊢
  have hmul := Nat.mul_le_mul (Nat.lt_succ_iff.mp hx) (Nat.lt_succ_iff.mp hy)
  have hsquare : (m + 1) * (m + 1) = m * m + 2 * m + 1 := by ring
  omega

/-- A row of a product, with what leaves the buffer, for digits behind which there is nothing
yet. -/
theorem mulRow_spec {x u : ℕ} {ts ys : List ℕ} (hx : x < cfg.base) (hu : u < cfg.base)
    (hts : ∀ t ∈ ts, t < cfg.base) (hys : ∀ y ∈ ys, y < cfg.base)
    (hzero : ∀ t ∈ ts.drop ys.length, t = 0) :
    ∃ out, ofDigits cfg.base (mulRow cfg x u ts ys) + cfg.base ^ ts.length * out =
        ofDigits cfg.base ts + x * ofDigits cfg.base ys + u ∧
      (mulRow cfg x u ts ys).length = ts.length ∧ (∀ d ∈ mulRow cfg x u ts ys, d < cfg.base) ∧
      ∀ d ∈ (mulRow cfg x u ts ys).drop (ys.length + 1), d = 0 := by
  induction ts generalizing u ys with
  | nil => exact ⟨x * ofDigits cfg.base ys + u, by simp [mulRow], by rw [mulRow],
      by simp [mulRow], by simp [mulRow]⟩
  | cons t ts ih =>
    obtain ⟨ht, hts'⟩ := List.forall_mem_cons.mp hts
    cases ys with
    | nil =>
      rw [List.length_nil, List.drop_zero, List.forall_mem_cons] at hzero
      obtain ⟨rfl, hrest⟩ := hzero
      refine ⟨0, ?_, rfl, List.forall_mem_cons.mpr ⟨hu, hts'⟩, hrest⟩
      rw [mulRow, Nat.ofDigits_cons, Nat.ofDigits_cons, ofDigits_eq_zero hrest, Nat.ofDigits_nil]
      ring
    | cons y ys =>
      obtain ⟨hy, hys⟩ := List.forall_mem_cons.mp hys
      have hsquare := two_mul_square_le cfg
      have hdigit := cfg.two_mul_base_le
      have hmul := mul_digits_le hx hy
      have hr : t + x * y + u < cfg.base * cfg.base := by omega
      have hcarry : (t + x * y + u) / cfg.base < cfg.base := Nat.div_lt_of_lt_mul hr
      have hstep : mulRow cfg x u (t :: ts) (y :: ys) = (t + x * y + u) % cfg.base ::
          mulRow cfg x ((t + x * y + u) / cfg.base) ts ys := by
        rw [mulRow, Nat.mod_eq_of_lt (by omega : t + x * y + u < 2 ^ cfg.wordSize),
          Nat.mod_eq_of_lt (by omega : _ < 2 ^ cfg.digitSize)]
      obtain ⟨out, hvalue, hlength, hlt, hrest⟩ := ih hcarry hts' hys hzero
      rw [hstep]
      refine ⟨out, ?_, congrArg (· + 1) hlength,
        List.forall_mem_cons.mpr ⟨Nat.mod_lt _ cfg.base_pos, hlt⟩, hrest⟩
      have hmod := Nat.mod_add_div (t + x * y + u) cfg.base
      rw [Nat.ofDigits_cons, Nat.ofDigits_cons, Nat.ofDigits_cons, List.length_cons, pow_succ]
      linear_combination hmod + cfg.base * hvalue

/-- A product by rows, with what leaves the buffer. -/
theorem mulRows_spec {xs ys ts : List ℕ} (hxs : ∀ x ∈ xs, x < cfg.base)
    (hys : ∀ y ∈ ys, y < cfg.base) (hts : ∀ t ∈ ts, t < cfg.base)
    (hzero : ∀ t ∈ ts.drop ys.length, t = 0) :
    ∃ out, ofDigits cfg.base (mulRows cfg ys xs ts) + cfg.base ^ ts.length * out =
        ofDigits cfg.base ts + ofDigits cfg.base xs * ofDigits cfg.base ys ∧
      (mulRows cfg ys xs ts).length = ts.length ∧ ∀ d ∈ mulRows cfg ys xs ts, d < cfg.base := by
  induction xs generalizing ts with
  | nil => exact ⟨0, by simp [mulRows], rfl, hts⟩
  | cons x xs ih =>
    obtain ⟨hx, hxs⟩ := List.forall_mem_cons.mp hxs
    obtain ⟨out, hvalue, hlength, hlt, hrest⟩ := mulRow_spec hx cfg.base_pos hts hys hzero
    rw [mulRows]
    cases hrow : mulRow cfg x 0 ts ys with
    | nil =>
      rw [hrow, List.length_nil] at hlength
      obtain rfl := List.eq_nil_of_length_eq_zero hlength.symm
      exact ⟨ofDigits cfg.base (x :: xs) * ofDigits cfg.base ys, by simp, rfl,
        fun _ h ↦ nomatch h⟩
    | cons d rs =>
      rw [hrow] at hvalue hlength hlt hrest
      obtain ⟨hd, hrs⟩ := List.forall_mem_cons.mp hlt
      obtain ⟨out', ihvalue, ihlength, ihlt⟩ := ih hxs hrs hrest
      rw [List.length_cons] at hlength
      refine ⟨out + out', ?_, by rw [List.length_cons, ihlength, hlength],
        List.forall_mem_cons.mpr ⟨hd, ihlt⟩⟩
      rw [Nat.ofDigits_cons, ← hlength, pow_succ] at hvalue
      rw [Nat.ofDigits_cons, Nat.ofDigits_cons, ← hlength, pow_succ]
      linear_combination hvalue + cfg.base * ihvalue

/-- The buffer of a fresh integer is valid. -/
theorem mpInitSize_valid (cfg : MpConfig) (size : ℕ) : (mpInitSize cfg size).Valid cfg where
  prec_le := by simp [mpInitSize]
  used_le := Nat.zero_le _
  digit_lt _ hd := List.eq_of_mem_replicate hd ▸ cfg.base_pos
  excess _ := List.eq_of_mem_replicate

/-- A product of which the lowest `digs` digits are kept, by columns or by rows. -/
theorem sMpMulDigs_repr (ha : a.Valid cfg) (hb : b.Valid cfg) (hc : c.Valid cfg) (digs : ℕ) :
    ∃ s : MpSign, (s = .zpos ∨ s = c.sign) ∧ (sMpMulDigs cfg a b c digs).Repr cfg
      (s.apply (a.mag cfg * b.mag cfg % cfg.base ^ digs)) := by
  rw [sMpMulDigs]
  split
  · next hfast => exact ⟨_, .inr rfl, sMpMulDigsFast_repr ha hb hc digs hfast.2.le⟩
  · have hzero : ∀ t ∈ List.replicate digs 0, t = 0 := fun t ↦ List.eq_of_mem_replicate
    have hts : ∀ t ∈ List.replicate digs 0, t < cfg.base := fun t ht ↦ hzero t ht ▸ cfg.base_pos
    obtain ⟨out, hvalue, hlength, hlt⟩ := mulRows_spec ha.digits_lt hb.digits_lt hts
      (fun t ht ↦ hzero t (List.mem_of_mem_drop ht))
    have hpow := Nat.ofDigits_lt_base_pow_length cfg.one_lt_base hlt
    rw [hlength, List.length_replicate] at hpow
    rw [Nat.ofDigits_replicate_zero, zero_add, List.length_replicate] at hvalue
    have hfill := repr_fill (n := digs) (mpInitSize_valid cfg digs) hlt
      (by rw [hlength, List.length_replicate]) .zpos
    refine ⟨.zpos, .inl rfl, hfill.cast (congrArg _ ?_)⟩
    rw [mag, mag, ← hvalue, Nat.add_mul_mod_self_left, Nat.mod_eq_of_lt hpow]

/-! ## Squares by rows -/

/-- A carry on its way up, with what leaves the buffer. -/
theorem propagate_spec {u : ℕ} {ts : List ℕ} (hu : u < 2 * cfg.base)
    (hts : ∀ t ∈ ts, t < cfg.base) :
    ∃ out, ofDigits cfg.base (propagate cfg u ts) + cfg.base ^ ts.length * out =
        ofDigits cfg.base ts + u ∧
      (propagate cfg u ts).length = ts.length ∧ ∀ d ∈ propagate cfg u ts, d < cfg.base := by
  induction ts generalizing u with
  | nil => exact ⟨u, by simp [propagate], rfl, fun _ h ↦ nomatch h⟩
  | cons t ts ih =>
    obtain ⟨ht, hts'⟩ := List.forall_mem_cons.mp hts
    rcases Nat.eq_zero_or_pos u with rfl | hpos
    · exact ⟨0, by simp [propagate], by simp [propagate], by simpa [propagate] using hts⟩
    · have hsquare := two_mul_square_le cfg
      have hdigit := cfg.two_mul_base_le
      have hbase := cfg.lt_base
      have hr : t + u < cfg.base * 3 := by omega
      have hcarry : (t + u) / cfg.base < 3 := Nat.div_lt_of_lt_mul hr
      have hstep : propagate cfg u (t :: ts) =
          (t + u) % cfg.base :: propagate cfg ((t + u) / cfg.base) ts := by
        have hword : t + u < 2 ^ cfg.wordSize := by nlinarith
        simp only [propagate, if_neg hpos.ne', Nat.mod_eq_of_lt hword,
          Nat.mod_eq_of_lt (by omega : (t + u) / cfg.base < 2 ^ cfg.digitSize)]
      obtain ⟨out, hvalue, hlength, hlt⟩ := ih (u := (t + u) / cfg.base) (by omega) hts'
      have hmod := Nat.mod_add_div (t + u) cfg.base
      rw [hstep]
      refine ⟨out, ?_, congrArg (· + 1) hlength,
        List.forall_mem_cons.mpr ⟨Nat.mod_lt _ cfg.base_pos, hlt⟩⟩
      rw [Nat.ofDigits_cons, Nat.ofDigits_cons, List.length_cons, pow_succ]
      linear_combination hmod + cfg.base * hvalue

/-- The cross products of a row, with what leaves the buffer. -/
theorem sqrRow_spec {x u : ℕ} {ts ys : List ℕ} (hx : x < cfg.base) (hu : u < 2 * cfg.base)
    (hts : ∀ t ∈ ts, t < cfg.base) (hys : ∀ y ∈ ys, y < cfg.base) :
    ∃ out, ofDigits cfg.base (sqrRow cfg x u ts ys) + cfg.base ^ ts.length * out =
        ofDigits cfg.base ts + 2 * x * ofDigits cfg.base ys + u ∧
      (sqrRow cfg x u ts ys).length = ts.length ∧ ∀ d ∈ sqrRow cfg x u ts ys, d < cfg.base := by
  induction ts generalizing u ys with
  | nil =>
    exact ⟨2 * x * ofDigits cfg.base ys + u, by simp [sqrRow], by simp [sqrRow], by simp [sqrRow]⟩
  | cons t ts ih =>
    cases ys with
    | nil => simpa [sqrRow] using propagate_spec hu hts
    | cons y ys =>
      obtain ⟨ht, hts⟩ := List.forall_mem_cons.mp hts
      obtain ⟨hy, hys⟩ := List.forall_mem_cons.mp hys
      have hsquare := two_mul_square_le cfg
      have hdigit := cfg.two_mul_base_le
      have hmul := mul_digits_le hx hy
      have hr : t + x * y + x * y + u < cfg.base * (2 * cfg.base) := by
        rw [mul_left_comm]
        omega
      have hcarry : (t + x * y + x * y + u) / cfg.base < 2 * cfg.base := Nat.div_lt_of_lt_mul hr
      have hxy : x * y % 2 ^ cfg.wordSize = x * y := Nat.mod_eq_of_lt (by omega)
      have hstep : sqrRow cfg x u (t :: ts) (y :: ys) =
          (t + x * y + x * y + u) % cfg.base ::
            sqrRow cfg x ((t + x * y + x * y + u) / cfg.base) ts ys := by
        rw [mul_left_comm] at hr
        rw [sqrRow, hxy, Nat.mod_eq_of_lt (hr.trans_le hsquare),
          Nat.mod_eq_of_lt (hcarry.trans_le hdigit)]
      obtain ⟨out, hvalue, hlength, hlt⟩ := ih hcarry hts hys
      have hmod := Nat.mod_add_div (t + x * y + x * y + u) cfg.base
      rw [hstep]
      refine ⟨out, ?_, congrArg (· + 1) hlength,
        List.forall_mem_cons.mpr ⟨Nat.mod_lt _ cfg.base_pos, hlt⟩⟩
      rw [Nat.ofDigits_cons, Nat.ofDigits_cons, Nat.ofDigits_cons, List.length_cons, pow_succ]
      linear_combination hmod + cfg.base * hvalue

theorem sqrRows_spec {xs ts : List ℕ} (hxs : ∀ x ∈ xs, x < cfg.base)
    (hts : ∀ t ∈ ts, t < cfg.base)
    (hroom : ofDigits cfg.base ts + ofDigits cfg.base xs * ofDigits cfg.base xs <
      cfg.base ^ ts.length) :
    ofDigits cfg.base (sqrRows cfg xs ts) =
        ofDigits cfg.base ts + ofDigits cfg.base xs * ofDigits cfg.base xs ∧
      (sqrRows cfg xs ts).length = ts.length ∧ ∀ d ∈ sqrRows cfg xs ts, d < cfg.base := by
  induction xs generalizing ts with
  | nil => exact ⟨by simp [sqrRows], by rw [sqrRows], by rwa [sqrRows]⟩
  | cons x xs ih =>
    cases ts with
    | nil =>
      rw [List.length_nil, pow_zero, Nat.lt_one_iff] at hroom
      exact ⟨by rw [sqrRows, hroom, Nat.ofDigits_nil], by rw [sqrRows], by simp [sqrRows]⟩
    | cons t ts =>
      obtain ⟨hx, hxs⟩ := List.forall_mem_cons.mp hxs
      obtain ⟨ht, hts⟩ := List.forall_mem_cons.mp hts
      have hsquare := two_mul_square_le cfg
      have hdigit := cfg.two_mul_base_le
      have hmul := mul_digits_le hx hx
      have hr : t + x * x < cfg.base * cfg.base := by omega
      have hcarry : (t + x * x) / cfg.base < cfg.base := Nat.div_lt_of_lt_mul hr
      obtain ⟨out, hvalue, hlength, hlt⟩ := sqrRow_spec (u := (t + x * x) / cfg.base) hx (by omega)
        hts hxs
      have hmod := Nat.mod_add_div (t + x * x) cfg.base
      rw [sqrRows, Nat.mod_eq_of_lt (by omega : t + x * x < 2 ^ cfg.wordSize),
        Nat.mod_eq_of_lt (by omega : (t + x * x) / cfg.base < 2 ^ cfg.digitSize)]
      -- what the row adds up to, and the square of the digits after it
      have htotal : ofDigits cfg.base (t :: ts) +
          ofDigits cfg.base (x :: xs) * ofDigits cfg.base (x :: xs) =
          (t + x * x) % cfg.base +
            cfg.base * ofDigits cfg.base (sqrRow cfg x ((t + x * x) / cfg.base) ts xs) +
            cfg.base ^ (t :: ts).length * out +
            cfg.base * cfg.base * (ofDigits cfg.base xs * ofDigits cfg.base xs) := by
        rw [Nat.ofDigits_cons, Nat.ofDigits_cons, List.length_cons, pow_succ]
        linear_combination -hmod - cfg.base * hvalue
      have hout : out = 0 := by
        by_contra hne
        have hle := Nat.le_mul_of_pos_right (cfg.base ^ (t :: ts).length) (Nat.pos_of_ne_zero hne)
        omega
      rw [htotal, hout, mul_zero, add_zero] at hroom ⊢
      have hlow := Nat.mod_lt (t + x * x) cfg.base_pos
      cases hrow : sqrRow cfg x ((t + x * x) / cfg.base) ts xs with
      | nil =>
        rw [hrow, List.length_nil] at hlength
        rw [hrow, Nat.ofDigits_nil, mul_zero, add_zero, List.length_cons, ← hlength, zero_add,
          pow_one] at hroom
        have hzero : ofDigits cfg.base xs * ofDigits cfg.base xs = 0 := by
          by_contra hne
          have hle := Nat.le_mul_of_pos_right (cfg.base * cfg.base) (Nat.pos_of_ne_zero hne)
          have hself := Nat.le_mul_of_pos_right cfg.base cfg.base_pos
          omega
        exact ⟨by simp [hzero], by simp [← hlength], List.forall_mem_singleton.mpr hlow⟩
      | cons next rs =>
        rw [hrow] at hlength hlt hroom
        obtain ⟨hnext, hrs⟩ := List.forall_mem_cons.mp hlt
        rw [List.length_cons] at hlength
        rw [Nat.ofDigits_cons, List.length_cons, ← hlength, pow_succ, pow_succ] at hroom
        obtain ⟨ihvalue, ihlength, ihlt⟩ := ih hxs hrs (by
          refine Nat.lt_of_mul_lt_mul_left (a := cfg.base * cfg.base) ?_
          calc cfg.base * cfg.base * (ofDigits cfg.base rs +
                ofDigits cfg.base xs * ofDigits cfg.base xs)
              ≤ (t + x * x) % cfg.base + cfg.base * (next + cfg.base * ofDigits cfg.base rs) +
                cfg.base * cfg.base * (ofDigits cfg.base xs * ofDigits cfg.base xs) := by
                rw [mul_add, mul_add cfg.base next, ← mul_assoc cfg.base cfg.base]
                omega
            _ < cfg.base ^ rs.length * cfg.base * cfg.base := hroom
            _ = cfg.base * cfg.base * cfg.base ^ rs.length := by ring)
        refine ⟨?_, by simp only [List.length_cons, ihlength, hlength],
          List.forall_mem_cons.mpr ⟨hlow, List.forall_mem_cons.mpr ⟨hnext, ihlt⟩⟩⟩
        rw [Nat.ofDigits_cons, Nat.ofDigits_cons, Nat.ofDigits_cons, ihvalue]
        ring

theorem sMpSqr_repr (ha : a.Valid cfg) : (sMpSqr cfg a).Repr cfg (a.mag cfg * a.mag cfg : ℕ) := by
  have hzero : ∀ t ∈ List.replicate (2 * a.used + 1) 0, t = 0 := fun t ↦ List.eq_of_mem_replicate
  have hroom : a.mag cfg * a.mag cfg < cfg.base ^ (2 * a.used + 1) := by
    calc a.mag cfg * a.mag cfg < cfg.base ^ a.used * cfg.base ^ a.used :=
        Nat.mul_lt_mul'' ha.mag_lt ha.mag_lt
      _ = cfg.base ^ (2 * a.used) := by rw [← pow_add, two_mul]
      _ ≤ cfg.base ^ (2 * a.used + 1) := Nat.pow_le_pow_right cfg.base_pos (Nat.le_succ _)
  have hts : ∀ t ∈ List.replicate (2 * a.used + 1) 0, t < cfg.base :=
    fun t ht ↦ hzero t ht ▸ cfg.base_pos
  obtain ⟨hvalue, hlength, hlt⟩ := sqrRows_spec ha.digits_lt hts
    (by rwa [Nat.ofDigits_replicate_zero, zero_add, List.length_replicate])
  have hfill := repr_fill (n := 2 * a.used + 1) (mpInitSize_valid cfg (2 * a.used + 1)) hlt
    (by rw [hlength, List.length_replicate]) .zpos
  rwa [hvalue, Nat.ofDigits_replicate_zero, zero_add] at hfill

/-! ## The operations -/

/-- A form with the sign its number is to have. -/
theorem MpInt.Repr.withSign {n : ℕ} {s : MpSign} (hc : c.Repr cfg (s.apply n)) (t : MpSign) :
    ({ c with sign := if 0 < c.used then t else .zpos } : MpInt).Repr cfg (t.apply n) := by
  have hmag : c.mag cfg = n := by rw [hc.mag_eq, MpSign.natAbs_apply]
  refine ⟨⟨hc.toValid.withSign _, hc.top, fun h ↦ if_neg (le_of_eq h).not_gt⟩, ?_⟩
  change (if 0 < c.used then t else .zpos).apply (c.mag cfg) = t.apply n
  rw [hmag]
  split
  · rfl
  · next h =>
    have hzero : n = 0 := hmag ▸ hc.toCanonical.used_eq_zero_iff.mp (by omega)
    rw [hzero, MpSign.apply_zero, MpSign.apply_zero]

/-- What `mp_mul` and `mp_sqr` need of the operations on long integers, for numbers of at most
`m` digits: the magnitude of the product, with any sign. -/
structure LargeMul.Splits (cfg : MpConfig) (large : LargeMul) (m : ℕ) : Prop where
  balanceMul : ∀ {a b c : MpInt} {v w : ℤ}, a.Repr cfg v → b.Repr cfg w → c.Valid cfg →
    a.used ≤ m → b.used ≤ m → karatsubaMulCutoff ≤ min a.used b.used →
    2 * min a.used b.used ≤ max a.used b.used →
    ∃ s : MpSign, (large.balanceMul a b c).Repr cfg (s.apply (a.mag cfg * b.mag cfg))
  toomMul : ∀ {a b c : MpInt} {v w : ℤ}, a.Repr cfg v → b.Repr cfg w → c.Valid cfg →
    a.used ≤ m → b.used ≤ m → toomMulCutoff ≤ min a.used b.used →
    ∃ s : MpSign, (large.toomMul a b c).Repr cfg (s.apply (a.mag cfg * b.mag cfg))
  karatsubaMul : ∀ {a b c : MpInt} {v w : ℤ}, a.Repr cfg v → b.Repr cfg w → c.Valid cfg →
    a.used ≤ m → b.used ≤ m → karatsubaMulCutoff ≤ min a.used b.used →
    ∃ s : MpSign, (large.karatsubaMul a b c).Repr cfg (s.apply (a.mag cfg * b.mag cfg))
  toomSqr : ∀ {a b : MpInt} {v : ℤ}, a.Repr cfg v → b.Valid cfg → a.used ≤ m →
    toomSqrCutoff ≤ a.used →
    ∃ s : MpSign, (large.toomSqr a b).Repr cfg (s.apply (a.mag cfg * a.mag cfg))
  karatsubaSqr : ∀ {a b : MpInt} {v : ℤ}, a.Repr cfg v → b.Valid cfg → a.used ≤ m →
    karatsubaSqrCutoff ≤ a.used →
    ∃ s : MpSign, (large.karatsubaSqr a b).Repr cfg (s.apply (a.mag cfg * a.mag cfg))

/-- `mp_mul` multiplies. -/
theorem mpMul_repr {m : ℕ} (hlarge : large.Splits cfg m) (ha : a.Repr cfg v) (hb : b.Repr cfg w)
    (hc : c.Valid cfg) (haused : a.used ≤ m) (hbused : b.used ≤ m) :
    (mpMul cfg large a b c).Repr cfg (v * w) := by
  have hsign : v * w = (if a.sign = b.sign then MpSign.zpos else .neg).apply
      (a.mag cfg * b.mag cfg) := by
    rw [← ha.toInt_eq, ← hb.toInt_eq, toInt, toInt]
    cases a.sign <;> cases b.sign <;> simp
  have hroom := (mul_mag_lt ha.toValid hb.toValid).trans_le
    (Nat.pow_le_pow_right cfg.base_pos (Nat.le_add_right (a.used + b.used) 1))
  rw [mpMul, hsign]
  split
  · next h =>
    obtain ⟨s, hs⟩ := hlarge.balanceMul ha hb hc haused hbused h.1 h.2.2
    exact hs.withSign _
  split
  · next h =>
    obtain ⟨s, hs⟩ := hlarge.toomMul ha hb hc haused hbused h
    exact hs.withSign _
  split
  · next h =>
    obtain ⟨s, hs⟩ := hlarge.karatsubaMul ha hb hc haused hbused h
    exact hs.withSign _
  split
  · next hfast =>
    have hfast := sMpMulDigsFast_repr ha.toValid hb.toValid hc (a.used + b.used + 1) hfast.2
    rw [Nat.mod_eq_of_lt hroom] at hfast
    exact hfast.withSign _
  · obtain ⟨s, -, hs⟩ := sMpMulDigs_repr ha.toValid hb.toValid hc (a.used + b.used + 1)
    rw [Nat.mod_eq_of_lt hroom] at hs
    exact hs.withSign _

/-- A form of a square without a sign. -/
theorem MpInt.Repr.square {s : MpSign} (ha : a.Repr cfg v)
    (hb : b.Repr cfg (s.apply (a.mag cfg * a.mag cfg))) :
    ({ b with sign := .zpos } : MpInt).Repr cfg (v * v) := by
  refine hb.toCanonical.repr_pos.cast ?_
  rw [hb.mag_eq, MpSign.natAbs_apply, ha.mag_eq, Int.natAbs_mul_self]

/-- `mp_sqr` squares. -/
theorem mpSqr_repr {m : ℕ} (hlarge : large.Splits cfg m) (ha : a.Repr cfg v) (hb : b.Valid cfg)
    (haused : a.used ≤ m) : (mpSqr cfg large a b).Repr cfg (v * v) := by
  rw [mpSqr]
  split
  · next h =>
    obtain ⟨s, hs⟩ := hlarge.toomSqr ha hb haused h
    exact ha.square hs
  split
  · next h =>
    obtain ⟨s, hs⟩ := hlarge.karatsubaSqr ha hb haused h
    exact ha.square hs
  split
  · next hfast =>
    exact ha.square (sMpSqrFast_repr ha.toValid hb (hfast.2.le.trans (Nat.div_le_self _ _)))
  · exact ha.square (s := .zpos) (sMpSqr_repr ha.toValid)

/-- What the operations that are built on products need of them, for numbers of at most `m`
digits. -/
structure LargeMul.Multiplies (cfg : MpConfig) (large : LargeMul) (m : ℕ) : Prop where
  mul : ∀ {a b c : MpInt} {v w : ℤ}, a.Repr cfg v → b.Repr cfg w → c.Valid cfg → a.used ≤ m →
    b.used ≤ m → (mpMul cfg large a b c).Repr cfg (v * w)
  sqr : ∀ {a b : MpInt} {v : ℤ}, a.Repr cfg v → b.Valid cfg → a.used ≤ m →
    (mpSqr cfg large a b).Repr cfg (v * v)

theorem LargeMul.Splits.multiplies {m : ℕ} (hlarge : large.Splits cfg m) :
    large.Multiplies cfg m :=
  ⟨mpMul_repr hlarge, mpSqr_repr hlarge⟩

end Mp

end SecureIIoT
