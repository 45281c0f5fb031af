import SecureIIoT.Lib.Window
import SecureIIoT.Mp.Barrett
import SecureIIoT.Mp.Invmod

/-!
# Modular powers of the library

`s_mp_exptmod` and `s_mp_exptmod_fast` scan the exponent with a window, and they differ in how
they reduce: the first by Barrett's method or modulo `2 ^ p - d` for a long `d`, the second by
Montgomery's method or for a `d` of one digit.  What the scan needs of a reduction is that it
keeps a relation between exponents and residues (`Chain`), and then the residue that is left
is that of the exponent (`windowExp_spec`).

Allocation failures are left out, and so is the build with `MP_LOW_MEM`.
-/

namespace SecureIIoT

namespace Mp

open Radix ByteString Montgomery

open Nat (ofDigits)

variable (cfg : MpConfig)

/-! ## The operations -/

/-- The width of the window for an exponent of `x` bits. -/
def winsize (x : ℕ) : ℕ :=
  if x ≤ 7 then 2
  else if x ≤ 36 then 3
  else if x ≤ 140 then 4
  else if x ≤ 450 then 5
  else if x ≤ 1303 then 6
  else if x ≤ 3529 then 7
  else 8

/-- The bits of a digit of the exponent, from the highest on. -/
def digitBits : (bitcnt buf : ℕ) → List ℕ
  | 0, _ => []
  | bitcnt + 1, buf =>
    buf / 2 ^ (cfg.digitBit - 1) % 2 :: digitBits bitcnt (buf * 2 % 2 ^ cfg.digitSize)

/-- The bits of the exponent, from the highest on. -/
def exponentBits (x : MpInt) : List ℕ := x.digits.reverse.flatMap (digitBits cfg cfg.digitBit)

/-- The loop that creates the upper table. -/
def tableLoop (mul : MpInt → Except MpErr MpInt) : (left : ℕ) → MpInt → Except MpErr (List MpInt)
  | 0, m => .ok [m]
  | left + 1, m => do
    let next ← mul m
    let rest ← tableLoop mul left next
    .ok (m :: rest)

/-- The table and the scan of `s_mp_exptmod` and `s_mp_exptmod_fast`: the table holds `m1` at
one and the windows with their highest bit set, in integers that begin as `fresh`. -/
def windowExp (large : LargeMul) (redux : MpInt → Except MpErr MpInt) (fresh m1 res x : MpInt) :
    Except MpErr MpInt := do
  let w := winsize (mpCountBits cfg x)
  let sqr := fun r ↦ redux (mpSqr cfg large r r)
  let first ← Window.sqrTimes sqr (w - 1) (mpCopy m1 fresh)
  let upper ← tableLoop (fun m ↦ redux (mpMul cfg large m m1 fresh)) (2 ^ (w - 1) - 1) first
  let entry := fun i ↦ if i = 1 then m1 else upper.getD (i - 2 ^ (w - 1)) m1
  Window.pow sqr (fun i r ↦ redux (mpMul cfg large r (entry i) r)) w (exponentBits cfg x) res

/-- The reduction that `s_mp_exptmod_fast` picks. -/
def montgomeryRedux (p : MpInt) (rho : ℕ) (x : MpInt) : Except MpErr MpInt :=
  if p.used * 2 + 1 < cfg.warray ∧ p.used < cfg.maxfast then sMpMontgomeryReduceFast cfg x p rho
  else mpMontgomeryReduce cfg x p rho

/-- `s_mp_exptmod_fast` -/
def sMpExptmodFast (large : LargeMul) (g x p : MpInt) (redmode : ℕ) : Except MpErr MpInt :=
  let fresh := mpInitSize cfg p.dp.length
  if redmode = 0 then do
    let rho ← mpMontgomerySetup cfg p
    let res := mpMontgomeryCalcNormalization cfg fresh p
    let m1 ← mpMulmod cfg large g res p fresh
    let res ← windowExp cfg large (montgomeryRedux cfg p rho) fresh m1 res x
    montgomeryRedux cfg p rho res
  else do
    let redux := fun r ↦
      if redmode = 1 then mpDrReduce cfg r p (mpDrSetup cfg p)
      else mpReduce2k cfg r p (mpReduce2kSetup cfg p)
    let m1 ← mpMod cfg g p fresh
    windowExp cfg large (.ok ∘ redux) fresh m1 (mpSet cfg fresh 1) x

/-- `s_mp_exptmod` -/
def sMpExptmod (large : LargeMul) (g x p : MpInt) (redmode : ℕ) : Except MpErr MpInt := do
  let mu ← if redmode = 0 then mpReduceSetup cfg mpInit p else .ok (mpReduce2kSetupL cfg p mpInit)
  let redux := fun r ↦
    if redmode = 0 then mpReduce cfg large r p mu else mpReduce2kL cfg large r p mu
  let m1 ← mpMod cfg g p mpInit
  windowExp cfg large (.ok ∘ redux) mpInit m1 (mpSet cfg mpInit 1) x

/-- `mp_exptmod` from where the exponent is not negative. -/
def exptmodPos (large : LargeMul) (g x p : MpInt) : Except MpErr MpInt :=
  if mpReduceIs2kL cfg p then sMpExptmod cfg large g x p 1
  else
    let dr := if mpDrIsModulus cfg p then 1 else 0
    let dr := if dr = 0 then if mpReduceIs2k cfg p then 2 else 0 else dr
    if mpIsOdd p ∨ dr ≠ 0 then sMpExptmodFast cfg large g x p dr
    else sMpExptmod cfg large g x p 0

/-- `mp_exptmod`, which calls itself with the inverse for a negative exponent. -/
def mpExptmod (large : LargeMul) (g x p : MpInt) : Except MpErr MpInt :=
  if p.sign = .neg then .error .val
  else if x.sign = .neg then do
    let tmpG ← mpInvmod cfg g p
    exptmodPos cfg large tmpG (mpAbs x mpInit) p
  else exptmodPos cfg large g x p

variable {cfg} {g p x res fresh m1 : MpInt} {large : LargeMul} {e k n N X : ℕ} {v : ℤ}
  {redux : MpInt → Except MpErr MpInt}

open MpInt

/-! ## The bits of the exponent -/

/-- The bits of a digit are those of its lowest `MP_DIGIT_BIT` ones that are left. -/
theorem foldl_digitBits {buf : ℕ} (hn : n ≤ cfg.digitBit) :
    (digitBits cfg n buf).foldl (fun e y ↦ 2 * e + y) e =
      e * 2 ^ n + buf % 2 ^ cfg.digitBit / 2 ^ (cfg.digitBit - n) := by
  induction n generalizing buf e with
  | zero =>
    rw [digitBits, List.foldl_nil, pow_zero, mul_one, Nat.sub_zero,
      Nat.div_eq_of_lt (Nat.mod_lt _ (Nat.two_pow_pos _)), add_zero]
  | succ n ih =>
    obtain ⟨j, hj⟩ := Nat.exists_eq_add_of_le hn
    have hsize := cfg.digitBit_lt.le
    rw [digitBits, List.foldl_cons, ih (Nat.le_of_succ_le hn),
      Nat.mod_mod_of_dvd _ (pow_dvd_pow 2 hsize), hj, show n + 1 + j - 1 = n + j by omega,
      show n + 1 + j - n = j + 1 by omega, Nat.add_sub_cancel_left,
      show n + 1 + j = n + j + 1 by omega, pow_succ 2 (n + j), Nat.mul_mod_mul_right, pow_succ 2 j,
      Nat.mul_div_mul_right _ _ two_pos, ← pow_succ, Nat.mod_pow_succ, pow_add 2 n j,
      mul_comm (2 ^ n) (2 ^ j), mul_assoc (2 ^ j), Nat.add_mul_div_left _ _ (Nat.two_pow_pos j)]
    ring

theorem digitBits_lt {buf : ℕ} : ∀ y ∈ digitBits cfg n buf, y < 2 := by
  induction n generalizing buf with
  | zero => exact fun _ h ↦ nomatch h
  | succ n ih => exact List.forall_mem_cons.mpr ⟨Nat.mod_lt _ two_pos, ih⟩

theorem exponentBits_lt : ∀ y ∈ exponentBits cfg x, y < 2 := by
  intro y hy
  obtain ⟨d, -, hy⟩ := List.mem_flatMap.mp hy
  exact digitBits_lt y hy

/-- The bits of the exponent stand for its magnitude. -/
theorem foldl_exponentBits (hx : x.Valid cfg) :
    (exponentBits cfg x).foldl (fun e y ↦ 2 * e + y) 0 = x.mag cfg := by
  have hdigits : ∀ ds : List ℕ, (∀ d ∈ ds, d < cfg.base) →
      (ds.reverse.flatMap (digitBits cfg cfg.digitBit)).foldl (fun e y ↦ 2 * e + y) 0 =
        ofDigits cfg.base ds := by
    intro ds hds
    induction ds with
    | nil => rfl
    | cons d ds ih =>
      obtain ⟨hd, hds⟩ := List.forall_mem_cons.mp hds
      rw [List.reverse_cons, List.flatMap_append, List.foldl_append, ih hds,
        List.flatMap_singleton, foldl_digitBits le_rfl, Nat.sub_self, pow_zero, Nat.div_one,
        ← MpConfig.base, Nat.mod_eq_of_lt hd, Nat.ofDigits_cons]
      ring
  exact hdigits x.digits hx.digits_lt

/-! ## The scan -/

variable (cfg large redux) in
/-- A reduction keeps a relation between exponents and residues. -/
structure Chain (rel : ℕ → MpInt → Prop) : Prop where
  valid : ∀ {e s}, rel e s → s.Valid cfg
  sqr : ∀ {e s}, rel e s → ∃ s', redux (mpSqr cfg large s s) = .ok s' ∧ rel (2 * e) s'
  mul : ∀ {e i s t c}, rel e s → rel i t → c.Valid cfg →
    ∃ s', redux (mpMul cfg large s t c) = .ok s' ∧ rel (e + i) s'

variable {rel : ℕ → MpInt → Prop}

theorem tableLoop_spec {mul : MpInt → Except MpErr MpInt} {m : MpInt} {i : ℕ}
    (hmul : ∀ {e s}, rel e s → ∃ s', mul s = .ok s' ∧ rel (e + 1) s') (hm : rel i m) (d : MpInt) :
    ∃ upper, tableLoop mul n m = .ok upper ∧ ∀ j ≤ n, rel (i + j) (upper.getD j d) := by
  induction n generalizing m i with
  | zero => exact ⟨[m], rfl, fun j hj ↦ by rwa [Nat.le_zero.mp hj]⟩
  | succ n ih =>
    obtain ⟨next, hnext, hrel⟩ := hmul hm
    obtain ⟨rest, hrest, hrels⟩ := ih hrel
    refine ⟨m :: rest, by rw [tableLoop, hnext]; simp only [bind, Except.bind, hrest], ?_⟩
    rintro (_ | j) hj
    · exact hm
    · rw [List.getD_cons_succ, ← add_assoc, add_right_comm]
      exact hrels j (Nat.le_of_succ_le_succ hj)

theorem two_le_winsize (n : ℕ) : 2 ≤ winsize n := by
  unfold winsize
  split_ifs <;> decide

/-- The scan ends with the residue of the exponent. -/
theorem windowExp_spec (hchain : Chain cfg large redux rel) (hx : x.Valid cfg)
    (hfresh : fresh.Valid cfg) (hcopy : rel 1 (mpCopy m1 fresh)) (hm1 : rel 1 m1)
    (hres : rel 0 res) :
    ∃ out, windowExp cfg large redux fresh m1 res x = .ok out ∧ rel (x.mag cfg) out := by
  have hw := two_le_winsize (mpCountBits cfg x)
  rw [windowExp]
  generalize winsize (mpCountBits cfg x) = w at hw ⊢
  have htwo : 2 ≤ 2 ^ (w - 1) := Nat.le_self_pow (by omega) 2
  have hpow : 2 ^ w = 2 ^ (w - 1) * 2 := by rw [← pow_succ, Nat.sub_add_cancel (by omega)]
  obtain ⟨first, hfirst, hrel⟩ := Window.sqrTimes_spec hchain.sqr hcopy (w - 1)
  obtain ⟨upper, hupper, hrels⟩ := tableLoop_spec (n := 2 ^ (w - 1) - 1)
    (fun hs ↦ hchain.mul hs hm1 hfresh) hrel m1
  have hentry : ∀ i, i = 1 ∨ 2 ^ (w - 1) ≤ i ∧ i < 2 ^ w →
      rel i (if i = 1 then m1 else upper.getD (i - 2 ^ (w - 1)) m1) := by
    intro i hi
    split
    · next h => rwa [h]
    · next h =>
      have hlow := (hi.resolve_left h).1
      have hrel := hrels (i - 2 ^ (w - 1)) (by omega)
      rwa [one_mul, Nat.add_sub_cancel' hlow] at hrel
  have hkeeps : Window.Keeps (fun r ↦ redux (mpSqr cfg large r r))
      (fun i r ↦ redux (mpMul cfg large r
        (if i = 1 then m1 else upper.getD (i - 2 ^ (w - 1)) m1) r)) w rel :=
    ⟨hchain.sqr, fun hi hs ↦ hchain.mul hs (hentry _ hi) (hchain.valid hs)⟩
  obtain ⟨out, hout, hrel⟩ := Window.pow_spec hkeeps (by omega) exponentBits_lt hres
  rw [foldl_exponentBits hx] at hrel
  refine ⟨out, ?_, hrel⟩
  simp only [hfirst, hupper, bind, Except.bind, hout]

/-! ## Residues -/

theorem cast_pow_residue (v : ℤ) (hN : 0 < N) (X : ℕ) :
    (((v % N).toNat ^ X % N : ℕ) : ℤ) = v ^ X % N := by
  rw [Int.natCast_mod, Nat.cast_pow, Int.toNat_of_nonneg (Int.emod_nonneg _ (by omega))]
  exact (Int.mod_modEq v N).pow X

/-- A reduction to the remainder keeps the residues of the powers. -/
theorem chain_of_reduces (hlarge : large.Multiplies cfg k) (hp : p.Repr cfg (N : ℕ)) (hN : 0 < N)
    (hused : p.used ≤ k) (hred : ∀ {s : MpInt} {T : ℕ}, s.Repr cfg (T : ℕ) → T < N * N →
      ∃ s', redux s = .ok s' ∧ s'.Repr cfg (T % N : ℕ)) (g : ℕ) :
    Chain cfg large redux fun e s ↦ s.Repr cfg (g ^ e % N : ℕ) := by
  have hlt (e : ℕ) : g ^ e % N < N := Nat.mod_lt _ hN
  have hdigits {e : ℕ} {s : MpInt} (hs : s.Repr cfg (g ^ e % N : ℕ)) : s.used ≤ k :=
    (hs.used_mono hp (by rw [Int.natAbs_natCast, Int.natAbs_natCast]; exact (hlt e).le)).trans hused
  refine ⟨fun hs ↦ hs.toValid, fun {e s} hs ↦ ?_, fun {e i s t c} hs ht hc ↦ ?_⟩
  · obtain ⟨s', hok, hs'⟩ := hred (hlarge.sqr hs hs.toValid (hdigits hs))
      (Nat.mul_lt_mul'' (hlt e) (hlt e))
    rw [← Nat.mul_mod, ← pow_add, ← two_mul] at hs'
    exact ⟨s', hok, hs'⟩
  · obtain ⟨s', hok, hs'⟩ := hred (hlarge.mul hs ht hc (hdigits hs) (hdigits ht))
      (Nat.mul_lt_mul'' (hlt e) (hlt i))
    rw [← Nat.mul_mod, ← pow_add] at hs'
    exact ⟨s', hok, hs'⟩

/-- The scan with a reduction to the remainder. -/
theorem windowExp_repr (hlarge : large.Multiplies cfg k) (hp : p.Repr cfg (N : ℕ)) (hN : 1 < N)
    (hused : p.used ≤ k) (hred : ∀ {s : MpInt} {T : ℕ}, s.Repr cfg (T : ℕ) → T < N * N →
      ∃ s', redux s = .ok s' ∧ s'.Repr cfg (T % N : ℕ)) (hg : g.Repr cfg v)
    (hx : x.Repr cfg (X : ℕ)) (hfresh : fresh.Valid cfg) :
    ∃ out, (do
        let m1 ← mpMod cfg g p fresh
        windowExp cfg large redux fresh m1 (mpSet cfg fresh 1) x) = .ok out ∧
      out.Repr cfg (v ^ X % N) := by
  have hpos : 0 < N := by omega
  have hmod := mpMod_repr hg hp hfresh
  rw [if_neg (by exact_mod_cast hpos.ne'), Int.fmod_eq_emod_of_nonneg _ (Int.natCast_nonneg N)]
    at hmod
  obtain ⟨m1, hok, hm1⟩ := hmod
  have hchain := chain_of_reduces hlarge hp hpos hused hred (v % N).toNat
  have hfirst : m1.Repr cfg ((v % N).toNat ^ 1 % N : ℕ) :=
    hm1.cast (by rw [cast_pow_residue v hpos, pow_one])
  have hone : (mpSet cfg fresh 1).Repr cfg ((v % N).toNat ^ 0 % N : ℕ) := by
    rw [pow_zero, Nat.mod_eq_of_lt hN]
    exact mpSet_repr hfresh cfg.one_lt_base
  obtain ⟨out, hout, hrel⟩ := windowExp_spec hchain hx.toValid hfresh (hfirst.copy hfresh) hfirst
    hone
  rw [hx.mag_eq, Int.natAbs_natCast] at hrel
  exact ⟨out, by simp only [hok, bind, Except.bind, hout], hrel.cast (cast_pow_residue v hpos X)⟩

/-- `s_mp_exptmod` with Barrett's reduction. -/
theorem sMpExptmod_barrett (hlarge : large.Multiplies cfg (p.used + 2)) (hp : p.Repr cfg (N : ℕ))
    (hN : 1 < N) (hfits : p.used < 2 ^ cfg.digitSize) (hg : g.Repr cfg v)
    (hx : x.Repr cfg (X : ℕ)) :
    ∃ out, sMpExptmod cfg large g x p 0 = .ok out ∧ out.Repr cfg (v ^ X % N) := by
  have hsetup := mpReduceSetup_repr (@mpInit_valid cfg) hp
  rw [if_neg (by omega)] at hsetup
  obtain ⟨mu, hok, hmu⟩ := hsetup
  have hred {s : MpInt} {T : ℕ} (hs : s.Repr cfg (T : ℕ)) (hT : T < N * N) :
      ∃ s', (Except.ok (mpReduce cfg large s p mu) : Except MpErr MpInt) = .ok s' ∧
        s'.Repr cfg (T % N : ℕ) :=
    ⟨_, rfl, mpReduce_repr hlarge hp (by omega) hfits hmu hs hT⟩
  obtain ⟨out, hout, hrepr⟩ := windowExp_repr hlarge hp hN (Nat.le_add_right _ 2) hred hg hx
    mpInit_valid
  refine ⟨out, ?_, hrepr⟩
  simp only [sMpExptmod, if_true, hok]
  exact hout

/-- `s_mp_exptmod` with a long digit. -/
theorem sMpExptmod_long (hlarge : large.Multiplies cfg p.used) (hp : p.Repr cfg (N : ℕ))
    (hN : 1 < N) (hg : g.Repr cfg v) (hx : x.Repr cfg (X : ℕ)) :
    ∃ out, sMpExptmod cfg large g x p 1 = .ok out ∧ out.Repr cfg (v ^ X % N) :=
  windowExp_repr hlarge hp hN le_rfl (fun hs hT ↦ ⟨_, rfl, mpReduce2kL_repr hlarge hp (by omega)
    mpInit_valid rfl hs hT⟩) hg hx mpInit_valid

/-- `s_mp_exptmod_fast` with a digit, or the base for its modulus. -/
theorem sMpExptmodFast_unrestricted (hlarge : large.Multiplies cfg p.used)
    (hp : p.Repr cfg (N : ℕ)) (hN : 1 < N) (hD : 2 ^ Nat.size N < N + cfg.base ∨ N = cfg.base)
    (hg : g.Repr cfg v) (hx : x.Repr cfg (X : ℕ)) :
    ∃ out, sMpExptmodFast cfg large g x p 2 = .ok out ∧ out.Repr cfg (v ^ X % N) := by
  have hred {s : MpInt} {T : ℕ} (hs : s.Repr cfg (T : ℕ)) (hT : T < N * N) :
      (mpReduce2k cfg s p (mpReduce2kSetup cfg p)).Repr cfg (T % N : ℕ) := by
    rcases hD with hD | rfl
    · exact mpReduce2k_repr hp (by omega) hD hs hT
    · exact mpReduce2k_base hp hs hT
  exact windowExp_repr hlarge hp hN le_rfl (fun hs hT ↦ ⟨_, rfl, hred hs hT⟩) hg hx
    (mpInitSize_valid cfg p.dp.length)

/-! ## Montgomery's method -/

theorem montgomeryRedux_repr {rho T : ℕ} {s : MpInt} (hs : s.Repr cfg (T : ℕ))
    (hp : p.Repr cfg (N : ℕ)) (hrho : cfg.base ∣ rho * N + 1) (hT : T < cfg.base ^ p.used * N) :
    ∃ s', montgomeryRedux cfg p rho s = .ok s' ∧
      s'.Repr cfg (redc cfg.base N rho p.used T % N : ℕ) := by
  rw [montgomeryRedux]
  split
  · next hfast => exact sMpMontgomeryReduceFast_repr hs hp hrho hT hfast.1 hfast.2
  · exact mpMontgomeryReduce_repr hs hp hrho hT

/-- Montgomery's reduction keeps the forms of the powers. -/
theorem chain_of_montgomery {rho : ℕ} (hlarge : large.Multiplies cfg k) (hp : p.Repr cfg (N : ℕ))
    (hN : 0 < N) (hodd : N % 2 = 1) (hused : p.used ≤ k) (hrho : cfg.base ∣ rho * N + 1) (g : ℕ) :
    Chain cfg large (montgomeryRedux cfg p rho) fun e s ↦
      ∃ w : ℕ, s.Repr cfg w ∧ Form (cfg.base ^ p.used) N (g ^ e) w := by
  have hcoprime : Nat.Coprime (cfg.base ^ p.used) N :=
    ((Nat.coprime_two_left.mpr (Nat.odd_iff.mpr hodd)).pow_left _).pow_left _
  have hroom : N ≤ cfg.base ^ p.used := by
    have hlt := hp.mag_lt
    rw [hp.mag_eq, Int.natAbs_natCast] at hlt
    exact hlt.le
  have hdigits {w : ℕ} {s : MpInt} (hs : s.Repr cfg w) (hw : w < N) : s.used ≤ k :=
    (hs.used_mono hp (by rw [Int.natAbs_natCast, Int.natAbs_natCast]; exact hw.le)).trans hused
  -- a product of forms is reduced to a form
  have hred {s : MpInt} {i j w u : ℕ} (hw : Form (cfg.base ^ p.used) N (g ^ i) w)
      (hu : Form (cfg.base ^ p.used) N (g ^ j) u) (hs : s.Repr cfg (w * u : ℕ)) :
      ∃ s', montgomeryRedux cfg p rho s = .ok s' ∧
        ∃ w : ℕ, s'.Repr cfg w ∧ Form (cfg.base ^ p.used) N (g ^ (i + j)) w := by
    obtain ⟨s', hok, hs'⟩ := montgomeryRedux_repr hs hp hrho
      ((Nat.mul_lt_mul'' hw.lt hu.lt).trans_le (Nat.mul_le_mul_right N hroom))
    refine ⟨s', hok, _, hs', ?_⟩
    rw [pow_add]
    exact hw.mul hcoprime hu (Nat.mod_lt _ hN)
      (((Nat.mod_modEq _ _).mul_left _).trans (redc_modEq cfg.base_pos hrho p.used (w * u)))
  refine ⟨fun ⟨_, hs, _⟩ ↦ hs.toValid, ?_, ?_⟩
  · rintro e s ⟨w, hs, hw⟩
    rw [two_mul]
    exact hred hw hw (hlarge.sqr hs hs.toValid (hdigits hs hw.lt))
  · rintro e i s t c ⟨w, hs, hw⟩ ⟨u, ht, hu⟩ hc
    exact hred hw hu (hlarge.mul hs ht hc (hdigits hs hw.lt) (hdigits ht hu.lt))

/-- `s_mp_exptmod_fast` with Montgomery's reduction. -/
theorem sMpExptmodFast_montgomery (hlarge : large.Multiplies cfg k) (hp : p.Repr cfg (N : ℕ))
    (hN : 1 < N) (hodd : N % 2 = 1) (hused : p.used ≤ k) (hg : g.Repr cfg v) (hgused : g.used ≤ k)
    (hx : x.Repr cfg (X : ℕ)) :
    ∃ out, sMpExptmodFast cfg large g x p 0 = .ok out ∧ out.Repr cfg (v ^ X % N) := by
  have hpos : 0 < N := by omega
  have hlt (e : ℕ) : e % N < N := Nat.mod_lt _ hpos
  have hfresh := mpInitSize_valid cfg p.dp.length
  obtain ⟨rho, hsetup, -, hrho⟩ := mpMontgomerySetup_spec hp hodd
  have hchain := chain_of_montgomery hlarge hp hpos hodd hused hrho (v % N).toNat
  have hcoprime : Nat.Coprime (cfg.base ^ p.used) N :=
    ((Nat.coprime_two_left.mpr (Nat.odd_iff.mpr hodd)).pow_left _).pow_left _
  -- the first powers
  have hres := mpMontgomeryCalcNormalization_repr hfresh hp hodd hN
  have hone : Form (cfg.base ^ p.used) N ((v % N).toNat ^ 0) (cfg.base ^ p.used % N) :=
    ⟨hlt _, by rw [pow_zero, one_mul]; exact Nat.mod_modEq _ _⟩
  obtain ⟨m1, hmulmod, hm1⟩ := mpMulmod_repr hlarge hg hres hp hfresh
    (by exact_mod_cast hpos.ne') hgused ((hres.used_mono hp (by
      rw [Int.natAbs_natCast, Int.natAbs_natCast]
      exact (hlt _).le)).trans hused)
  have hfirst : m1.Repr cfg ((v % N).toNat * cfg.base ^ p.used % N : ℕ) := by
    refine hm1.cast ?_
    rw [Int.fmod_eq_emod_of_nonneg _ (Int.natCast_nonneg N), Int.natCast_mod _ N,
      Int.natCast_mod _ N, Nat.cast_mul, Int.toNat_of_nonneg (Int.emod_nonneg _ (by omega))]
    exact (Int.mod_modEq v N).symm.mul (Int.mod_modEq _ N)
  have hform : Form (cfg.base ^ p.used) N ((v % N).toNat ^ 1)
      ((v % N).toNat * cfg.base ^ p.used % N) :=
    ⟨hlt _, by rw [pow_one]; exact Nat.mod_modEq _ _⟩
  obtain ⟨res, hscan, w, hw, hpow⟩ := windowExp_spec hchain hx.toValid hfresh
    ⟨_, hfirst.copy hfresh, hform⟩ ⟨_, hfirst, hform⟩ ⟨_, hres, hone⟩
  rw [hx.mag_eq, Int.natAbs_natCast] at hpow
  -- the factor that is left is reduced away
  obtain ⟨out, hout, hrepr⟩ := montgomeryRedux_repr hw hp hrho
    (hpow.lt.trans_le (Nat.le_mul_of_pos_left N (Nat.pow_pos cfg.base_pos)))
  have hvalue := hpow.eq_mod hcoprime (hlt (redc cfg.base N rho p.used w))
    (((Nat.mod_modEq _ _).mul_left _).trans (redc_modEq cfg.base_pos hrho p.used w))
  refine ⟨out, ?_, hrepr.cast (by rw [hvalue, cast_pow_residue v hpos])⟩
  simp only [sMpExptmodFast, if_true, hsetup, hmulmod, bind, Except.bind, hscan, hout]

/-! ## The choice of a reduction -/

variable (cfg p N) in
/-- `mp_reduce` is made for the length of the modulus, or it is not picked as that is odd. -/
def FitsReduce : Prop := N % 2 = 1 ∨ p.used < 2 ^ cfg.digitSize

/-- A power with an exponent that is not negative, for a modulus that does not miss its digit. -/
theorem exptmodPos_repr (hlarge : ∀ k, large.Multiplies cfg k) (hp : p.Repr cfg (N : ℕ))
    (hN : 1 < N) (hfits : FitsReduce cfg p N) (hmiss : ¬ MissesDigit cfg N) (hg : g.Repr cfg v)
    (hx : x.Repr cfg (X : ℕ)) :
    ∃ out, exptmodPos cfg large g x p = .ok out ∧ out.Repr cfg (v ^ X % N) := by
  rw [exptmodPos]
  split
  · exact sMpExptmod_long (hlarge _) hp hN hg hx
  next hL =>
    rw [Bool.not_eq_true] at hL
    have hdr : ¬ mpDrIsModulus cfg p = true := fun h ↦
      Bool.false_ne_true (hL.symm.trans (mpReduceIs2kL_of_dr hp.toValid h))
    simp only [if_neg hdr, if_true]
    by_cases his : mpReduceIs2k cfg p = true
    · rw [if_pos his, if_pos (.inr two_ne_zero)]
      have hD := mpReduceIs2k_cases hp hL his
      exact sMpExptmodFast_unrestricted (hlarge _) hp hN
        (hD.imp_right fun h ↦ h.resolve_right hmiss) hg hx
    · rw [if_neg his]
      split
      · next hodd =>
        have hodd := (mpIsOdd_iff hp).mp (hodd.resolve_right (not_not.mpr rfl))
        exact sMpExptmodFast_montgomery (hlarge (max p.used g.used)) hp hN (by omega)
          (le_max_left _ _) hg (le_max_right _ _) hx
      · next heven =>
        have hused := hfits.resolve_left fun h ↦ heven (.inl ((mpIsOdd_iff hp).mpr (by omega)))
        exact sMpExptmod_barrett (hlarge _) hp hN hused hg hx

/-- Without a sign there is no inverse to take. -/
theorem mpExptmod_eq_pos (hp : p.Repr cfg (N : ℕ)) (hx : x.Repr cfg (X : ℕ)) :
    mpExptmod cfg large g x p = exptmodPos cfg large g x p := by
  rw [mpExptmod, hp.sign_natCast, hx.sign_natCast]
  rfl

theorem mpExptmod_repr (hlarge : ∀ k, large.Multiplies cfg k) (hp : p.Repr cfg (N : ℕ))
    (hN : 1 < N) (hfits : FitsReduce cfg p N) (hmiss : ¬ MissesDigit cfg N) (hg : g.Repr cfg v)
    (hx : x.Repr cfg (X : ℕ)) :
    ∃ out, mpExptmod cfg large g x p = .ok out ∧ out.Repr cfg (v ^ X % N) := by
  rw [mpExptmod_eq_pos hp hx]
  exact exptmodPos_repr hlarge hp hN hfits hmiss hg hx

/-- With a digit of zero the powers of two above the modulus are lost. -/
theorem chain_of_missesDigit {j : ℕ} (hlarge : ∀ k, large.Multiplies cfg k)
    (hp : p.Repr cfg (N : ℕ)) (hbits : Nat.size N = j) (hN : 2 ^ j < 2 * N) (hpos : 0 < N) :
    Chain cfg large (fun s ↦ .ok (mpReduce2k cfg s p 0)) fun e s ↦
      s.Repr cfg ((if e < j then 2 ^ e else 0 : ℕ) : ℤ) := by
  have hred {s : MpInt} {e i : ℕ}
      (hs : s.Repr cfg ((if e < j then 2 ^ e else 0) * (if i < j then 2 ^ i else 0) : ℕ)) :
      ∃ s', (Except.ok (mpReduce2k cfg s p 0) : Except MpErr MpInt) = .ok s' ∧
        s'.Repr cfg ((if e + i < j then 2 ^ (e + i) else 0 : ℕ) : ℤ) := by
    have hmod : (if e < j then 2 ^ e else 0) * (if i < j then 2 ^ i else 0) % 2 ^ j =
        if e + i < j then 2 ^ (e + i) else 0 := by
      split
      · split
        · split
          · next h => rw [← pow_add, Nat.mod_eq_of_lt (Nat.pow_lt_pow_right one_lt_two h)]
          · next h => rw [← pow_add, Nat.mod_eq_zero_of_dvd (pow_dvd_pow 2 (not_lt.mp h))]
        · rw [mul_zero, Nat.zero_mod, if_neg (by omega)]
      · rw [zero_mul, Nat.zero_mod, if_neg (by omega)]
    have hlt : (if e + i < j then 2 ^ (e + i) else 0) < N := by
      split
      · next h =>
        have hle : 2 ^ (e + i + 1) ≤ 2 ^ j := Nat.pow_le_pow_right two_pos h
        rw [pow_succ] at hle
        omega
      · exact hpos
    have hzero := mpReduce2k_zero hp hs (by rw [hbits, hmod]; exact hlt)
    rw [hbits, hmod] at hzero
    exact ⟨_, rfl, hzero⟩
  refine ⟨fun hs ↦ hs.toValid, fun {e s} hs ↦ ?_, fun {e i s t c} hs ht hc ↦ ?_⟩
  · rw [two_mul]
    exact hred (((hlarge _).sqr hs hs.toValid le_rfl).cast (Nat.cast_mul _ _).symm)
  · exact hred (((hlarge _).mul hs ht hc (le_max_left _ _) (le_max_right _ _)).cast
      (Nat.cast_mul _ _).symm)

theorem two_pow_eq_base_add (cfg : MpConfig) (k : ℕ) :
    2 ^ (cfg.digitBit + k) = cfg.base + cfg.base * (2 ^ k - 1) := by
  obtain ⟨j, hj⟩ := Nat.exists_eq_succ_of_ne_zero (Nat.two_pow_pos k).ne'
  rw [pow_add, ← MpConfig.base, hj, Nat.succ_sub_one, Nat.mul_succ, add_comm]

/-- Then a power of two that is the base modulo the modulus comes out as zero. -/
theorem exptmodPos_missesDigit (hlarge : ∀ k, large.Multiplies cfg k)
    (hp : p.Repr cfg (cfg.base * (2 ^ k - 1) : ℕ)) (hk : 2 ≤ k) (hlt : k < cfg.digitBit)
    (hg : g.Repr cfg 2) (hx : x.Repr cfg (cfg.digitBit + k : ℕ)) :
    ∃ out, exptmodPos cfg large g x p = .ok out ∧ out.Repr cfg 0 := by
  obtain ⟨hL, hdr, his, hsetup⟩ := mpReduceIs2k_of_missesDigit hp hk hlt
  have hbits : Nat.size (cfg.base * (2 ^ k - 1)) = cfg.digitBit + k :=
    size_of_missesDigit (by omega)
  have hfour : 2 ^ 2 ≤ 2 ^ k := Nat.pow_le_pow_right two_pos hk
  have hbase := cfg.lt_base
  have hthree : cfg.base * 3 ≤ cfg.base * (2 ^ k - 1) := Nat.mul_le_mul_left _ (by omega)
  have hpow := two_pow_eq_base_add cfg k
  generalize cfg.base * (2 ^ k - 1) = N at hp hbits hthree hpow
  have hchain := chain_of_missesDigit hlarge hp hbits (by omega) (by omega)
  have hfresh := mpInitSize_valid cfg p.dp.length
  have hmod := mpMod_repr hg hp hfresh
  rw [if_neg (by omega), Int.fmod_eq_emod_of_nonneg _ (Int.natCast_nonneg N),
    Int.emod_eq_of_lt (by omega) (by omega)] at hmod
  obtain ⟨m1, hok, hm1⟩ := hmod
  have hbit := cfg.lt_digitBit
  have hfirst := hm1.cast (by rw [if_pos (by omega)]; rfl :
    (2 : ℤ) = ((if 1 < cfg.digitBit + k then 2 ^ 1 else 0 : ℕ) : ℤ))
  have hone := (@mpSet_repr cfg _ 1 hfresh cfg.one_lt_base).cast (by rw [if_pos (by omega)]; rfl :
    ((1 : ℕ) : ℤ) = ((if 0 < cfg.digitBit + k then 2 ^ 0 else 0 : ℕ) : ℤ))
  obtain ⟨out, hout, hrepr⟩ := windowExp_spec hchain hx.toValid hfresh (hfirst.copy hfresh) hfirst
    hone
  rw [hx.mag_natCast, if_neg (lt_irrefl _)] at hrepr
  refine ⟨out, ?_, hrepr.cast Nat.cast_zero⟩
  simp only [exptmodPos, hL, hdr, his, sMpExptmodFast, hsetup, hok, Bool.false_eq_true, if_false,
    if_true, Ne, OfNat.ofNat_ne_zero, not_false_eq_true, or_true, OfNat.ofNat_ne_one,
    bind, Except.bind]
  exact hout

end Mp

end SecureIIoT
