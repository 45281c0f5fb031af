import SecureIIoT.Mp.Gcd

/-!
# Inverses of the library

`mp_invmod` runs the binary algorithm for the greatest common divisor with cofactors.  For an
odd modulus `s_mp_invmod_fast` keeps one cofactor of each number, for an even one
`s_mp_invmod_slow` keeps two, and the loop only needs that they follow the halvings and the
differences (`Cofactors`).  Either way there is an inverse if and only if the divisor is one.

The fast routine gives its result the sign of the number, but what it inverts is the residue
of the number and not its magnitude: modulo an odd number, the result for a negative number is
minus the inverse (`mpInvmod_repr`).
-/

namespace SecureIIoT

namespace Mp

open Radix

variable (cfg : MpConfig)

/-! ## The operations -/

/-- `MP_IS_EVEN` -/
def mpIsEven (a : MpInt) : Bool := a.used == 0 || a.dp.getD 0 0 % 2 == 0

/-- `MP_IS_ODD` -/
def mpIsOdd (a : MpInt) : Bool := decide (0 < a.used) && a.dp.getD 0 0 % 2 == 1

section Loops

variable {κ : Type} (halve : κ → κ) (sub : κ → κ → κ)

/-- The loop that halves a number while it is even, and its cofactors with it. -/
def halveLoop : (fuel : ℕ) → (u : MpInt) → κ → MpInt × κ
  | 0, u, B => (u, B)
  | fuel + 1, u, B => if mpIsEven u then halveLoop fuel (mpDiv2 cfg u u) (halve B) else (u, B)

/-- The steps of `s_mp_invmod_fast` and `s_mp_invmod_slow` from `top` on. -/
def inverseLoop : (fuel : ℕ) → (u v : MpInt) → (B D : κ) → MpInt × κ
  | 0, _, v, _, D => (v, D)
  | fuel + 1, u, v, B, D =>
    let (u, B) := halveLoop cfg halve (u.mag cfg) u B
    let (v, D) := halveLoop cfg halve (v.mag cfg) v D
    if mpCmp u v ≠ .lt then
      let u := mpSub cfg u v u
      if u.used = 0 then (v, D) else inverseLoop fuel u v (sub B D) D
    else
      let v := mpSub cfg v u v
      if u.used = 0 then (v, sub D B) else inverseLoop fuel u v B (sub D B)

end Loops

/-- The cofactor of `s_mp_invmod_fast` is halved modulo `x`. -/
def halveFast (x B : MpInt) : MpInt :=
  let B := if mpIsOdd B then mpSub cfg B x B else B
  mpDiv2 cfg B B

/-- The two cofactors of `s_mp_invmod_slow`. -/
def halveSlow (x y : MpInt) (AB : MpInt × MpInt) : MpInt × MpInt :=
  let (A, B) :=
    if mpIsOdd AB.1 || mpIsOdd AB.2 then (mpAdd cfg AB.1 y AB.1, mpSub cfg AB.2 x AB.2) else AB
  (mpDiv2 cfg A A, mpDiv2 cfg B B)

/-- The loop that adds the modulus to a result that is too low. -/
def raiseLoop (low : MpInt → Bool) (b : MpInt) : (fuel : ℕ) → MpInt → MpInt
  | 0, d => d
  | fuel + 1, d => if low d then raiseLoop low b fuel (mpAdd cfg d b d) else d

/-- The loop that subtracts the modulus from a result that is too big. -/
def lowerLoop (b : MpInt) : (fuel : ℕ) → MpInt → MpInt
  | 0, d => d
  | fuel + 1, d => if mpCmpMag d b ≠ .lt then lowerLoop b fuel (mpSub cfg d b d) else d

/-- The end of both routines. -/
def bringInRange (low : MpInt → Bool) (b d : MpInt) : MpInt :=
  let d := raiseLoop cfg low b (d.mag cfg) d
  lowerLoop cfg b (d.mag cfg) d

/-- `s_mp_invmod_fast`, which exchanges its result with the destination. -/
def sMpInvmodFast (a b : MpInt) : Except MpErr MpInt :=
  if mpIsEven b then .error .val
  else do
    let x := mpCopy b mpInit
    let y ← mpMod cfg a b mpInit
    if x.used = 0 ∨ y.used = 0 then .error .val
    else
      let (v, D) := inverseLoop cfg (halveFast cfg x) (fun m n ↦ mpSub cfg m n m)
        (x.mag cfg + y.mag cfg) (mpCopy x mpInit) (mpCopy y mpInit) mpInit (mpSet cfg mpInit 1)
      if mpCmpD v 1 ≠ .eq then .error .val
      else .ok { bringInRange cfg (fun d ↦ d.sign == .neg) b D with sign := a.sign }

/-- `s_mp_invmod_slow`, which exchanges its result with the destination. -/
def sMpInvmodSlow (a b : MpInt) : Except MpErr MpInt :=
  if b.sign = .neg ∨ b.used = 0 then .error .val
  else do
    let x ← mpMod cfg a b mpInit
    let y := mpCopy b mpInit
    if mpIsEven x && mpIsEven y then .error .val
    else
      let one := mpSet cfg mpInit 1
      let (v, C, _) := inverseLoop cfg (halveSlow cfg x y)
        (fun m n ↦ (mpSub cfg m.1 n.1 m.1, mpSub cfg m.2 n.2 m.2)) (x.mag cfg + y.mag cfg)
        (mpCopy x mpInit) (mpCopy y mpInit) (one, mpInit) (mpInit, one)
      if mpCmpD v 1 ≠ .eq then .error .val
      else .ok (bringInRange cfg (fun d ↦ mpCmpD d 0 == .lt) b C)

/-- `mp_invmod` -/
def mpInvmod (a b : MpInt) : Except MpErr MpInt :=
  if b.sign = .neg ∨ mpCmpD b 1 ≠ .gt then .error .val
  else if mpIsOdd b then sMpInvmodFast cfg a b
  else sMpInvmodSlow cfg a b

variable {cfg} {a b c d u x y : MpInt} {G k m n N U V X Y : ℕ} {v w : ℤ}

open MpInt

/-! ## Parity -/

theorem getD_zero_mod_two (ha : a.Repr cfg v) : (a.dp.getD 0 0 : ℤ) % 2 = v % 2 := by
  have hread := getD_eq_div_mod ha.digit_lt 0
  have hpos := cfg.lt_digitBit
  rw [ha.ofDigits_dp, ha.mag_eq, pow_zero, Nat.div_one] at hread
  have hlow : a.dp.getD 0 0 % 2 = v.natAbs % 2 := by
    rw [hread, MpConfig.base, Nat.mod_mod_of_dvd _ (dvd_pow_self 2 (by omega))]
  omega

theorem mpIsEven_iff (ha : a.Repr cfg v) : mpIsEven a = true ↔ v % 2 = 0 := by
  have hdigit := getD_zero_mod_two ha
  have hzero := ha.used_eq_zero_iff
  rw [mpIsEven, Bool.or_eq_true, beq_iff_eq, beq_iff_eq]
  omega

theorem mpIsOdd_iff (ha : a.Repr cfg v) : mpIsOdd a = true ↔ v % 2 = 1 := by
  have hdigit := getD_zero_mod_two ha
  have hzero := ha.used_eq_zero_iff
  rw [mpIsOdd, Bool.and_eq_true, decide_eq_true_iff, beq_iff_eq]
  omega

theorem mpDiv2_double (ha : a.Repr cfg (2 * v)) : (mpDiv2 cfg a a).Repr cfg v :=
  (mpDiv2_repr ha ha.toValid).cast (Int.mul_tdiv_cancel_left _ two_ne_zero)

/-! ## The loops -/

/-- Cofactors of a number that follow its halvings and differences. -/
structure Cofactors {κ : Type} (halve : κ → κ) (sub : κ → κ → κ) (rel : ℕ → κ → Prop) :
    Prop where
  halve : ∀ {n B}, rel (2 * n) B → rel n (halve B)
  sub : ∀ {m n B D}, n ≤ m → rel m B → rel n D → rel (m - n) (sub B D)

section Loops

variable {κ : Type} {halve : κ → κ} {sub : κ → κ → κ} {rel : ℕ → κ → Prop} {B D : κ}

theorem halveLoop_spec {fuel : ℕ} (hcof : Cofactors halve sub rel) (hu : u.Repr cfg (U : ℕ))
    (hB : rel U B) (hU : 0 < U) (hfuel : U ≤ fuel) :
    ∃ u' B' U' k, halveLoop cfg halve fuel u B = (u', B') ∧ u'.Repr cfg (U' : ℕ) ∧ rel U' B' ∧
      U' % 2 = 1 ∧ U = 2 ^ k * U' := by
  induction fuel generalizing u U B with
  | zero => omega
  | succ fuel ih =>
    rw [halveLoop]
    split
    · next h =>
      obtain ⟨n, rfl⟩ : ∃ n, U = 2 * n := ⟨U / 2, by have := (mpIsEven_iff hu).mp h; omega⟩
      have hhalf := mpDiv2_double (hu.cast (Nat.cast_mul 2 n))
      obtain ⟨u', B', U', k, hloop, hu', hB', hodd, rfl⟩ := ih hhalf (hcof.halve hB) (by omega)
        (by omega)
      exact ⟨u', B', U', k + 1, hloop, hu', hB', hodd, by ring⟩
    · next h =>
      rw [mpIsEven_iff hu] at h
      exact ⟨u, B, U, 0, rfl, hu, hB, by omega, by ring⟩

/-- An odd divisor stays the greatest one if twos are dropped. -/
theorem gcd_of_two_pow_mul (h : (2 ^ k * m).gcd n = G) (hG : G % 2 = 1) : m.gcd n = G := by
  rcases Nat.eq_zero_or_pos k with rfl | hk
  · rwa [pow_zero, one_mul] at h
  · have hn : ¬ 2 ∣ n := fun hn ↦ by
      have hdvd := Nat.dvd_gcd ((dvd_pow_self 2 hk.ne').mul_right m) hn
      omega
    rwa [((Nat.prime_two.coprime_iff_not_dvd.mpr hn).pow_left k).gcd_mul_left_cancel] at h

theorem inverseLoop_spec {fuel : ℕ} {v : MpInt} (hcof : Cofactors halve sub rel)
    (hu : u.Repr cfg (U : ℕ)) (hv : v.Repr cfg (V : ℕ)) (hB : rel U B) (hD : rel V D)
    (hU : 0 < U) (hV : 0 < V) (hgcd : U.gcd V = G) (hG : G % 2 = 1) (hfuel : U + V ≤ fuel) :
    ∃ v' D', inverseLoop cfg halve sub fuel u v B D = (v', D') ∧ v'.Repr cfg (G : ℕ) ∧
      rel G D' := by
  induction fuel generalizing u v U V B D with
  | zero => omega
  | succ fuel ih =>
    obtain ⟨u', B', U', k, huloop, hu', hB', hUodd, rfl⟩ := halveLoop_spec hcof hu hB hU
      hu.mag_natCast.ge
    obtain ⟨v', D', V', j, hvloop, hv', hD', hVodd, rfl⟩ := halveLoop_spec hcof hv hD hV
      hv.mag_natCast.ge
    have hUle := Nat.le_mul_of_pos_left U' (Nat.two_pow_pos k)
    have hVle := Nat.le_mul_of_pos_left V' (Nat.two_pow_pos j)
    have hgcd := gcd_of_two_pow_mul hgcd hG
    rw [Nat.gcd_comm] at hgcd
    have hgcd := gcd_of_two_pow_mul hgcd hG
    have hcmp := mpCmp_eq hu' hv'
    simp only [inverseLoop, huloop, hvloop]
    split
    · next h =>
      have hle : V' ≤ U' := by
        rw [hcmp, Ne, compare_lt_iff_lt] at h
        omega
      have hdiff := (mpSub_repr hu' hv' hu'.toValid).cast (Nat.cast_sub hle).symm
      split
      · next hzero =>
        have heq : U' = V' := by
          have := hdiff.used_eq_zero_iff.mp hzero
          omega
        rw [heq, Nat.gcd_self] at hgcd
        exact ⟨v', D', rfl, hgcd ▸ hv', hgcd ▸ hD'⟩
      · next hzero =>
        have hpos : U' - V' ≠ 0 := fun h ↦ hzero (hdiff.used_eq_zero_iff.mpr (by rw [h]; rfl))
        exact ih hdiff hv' (hcof.sub hle hB' hD') hD' (by omega) (by omega)
          (by rw [Nat.gcd_sub_self_left hle, Nat.gcd_comm, hgcd]) (by omega)
    · next h =>
      have hlt : U' < V' := by
        rw [hcmp, Ne, not_not, compare_lt_iff_lt] at h
        omega
      have hdiff := (mpSub_repr hv' hu' hv'.toValid).cast (Nat.cast_sub hlt.le).symm
      have hused : u'.used ≠ 0 := fun h ↦ by
        have := hu'.used_eq_zero_iff.mp h
        omega
      rw [if_neg hused]
      exact ih hu' hdiff hB' (hcof.sub hlt.le hD' hB') (by omega) (by omega)
        (by rw [Nat.gcd_sub_self_right hlt.le, Nat.gcd_comm, hgcd]) (by omega)

end Loops

/-! ## Cofactors -/

/-- One cofactor, modulo an odd number. -/
theorem cofactors_fast (hx : x.Repr cfg (X : ℕ)) (hX : X % 2 = 1) (Y : ℕ) :
    Cofactors (halveFast cfg x) (fun m n ↦ mpSub cfg m n m)
      fun n B ↦ ∃ v, B.Repr cfg v ∧ (X : ℤ) ∣ v * Y - n := by
  refine ⟨fun {n B} hB ↦ ?_, fun {m n B D} hle hB hD ↦ ?_⟩
  · obtain ⟨v, hB, hdvd⟩ := hB
    -- the cofactor, or what is less than it by the modulus, is even
    obtain ⟨w, hw, hdvd⟩ : ∃ w, (if mpIsOdd B then mpSub cfg B x B else B).Repr cfg (2 * w) ∧
        (X : ℤ) ∣ 2 * w * Y - (2 * n : ℕ) := by
      split
      · next h =>
        rw [mpIsOdd_iff hB] at h
        obtain ⟨w, hw⟩ : ∃ w, v - X = 2 * w := ⟨(v - X) / 2, by omega⟩
        refine ⟨w, (mpSub_repr hB hx hB.toValid).cast hw, ?_⟩
        rw [← hw, show (v - X) * Y - ((2 * n : ℕ) : ℤ) = v * Y - (2 * n : ℕ) - X * Y by ring]
        exact dvd_sub hdvd (dvd_mul_right _ _)
      · next h =>
        rw [mpIsOdd_iff hB] at h
        obtain ⟨w, rfl⟩ : ∃ w, v = 2 * w := ⟨v / 2, by omega⟩
        exact ⟨w, hB, hdvd⟩
    refine ⟨w, mpDiv2_double hw, ?_⟩
    obtain ⟨c, hc⟩ : ∃ c : ℤ, (X : ℤ) = 2 * c + 1 := ⟨X / 2, by omega⟩
    rw [show w * Y - (n : ℤ) = X * (w * Y - n) - c * (2 * w * Y - (2 * n : ℕ)) by
      rw [hc]
      push_cast
      ring]
    exact dvd_sub (dvd_mul_right _ _) (hdvd.mul_left c)
  · obtain ⟨v, hB, hv⟩ := hB
    obtain ⟨w, hD, hw⟩ := hD
    refine ⟨v - w, mpSub_repr hB hD hB.toValid, ?_⟩
    rw [Nat.cast_sub hle, show (v - w) * Y - ((m : ℤ) - n) = v * Y - m - (w * Y - n) by ring]
    exact dvd_sub hv hw

/-- Two cofactors, of numbers that are not both even. -/
theorem cofactors_slow (hx : x.Repr cfg (X : ℕ)) (hy : y.Repr cfg (Y : ℕ))
    (hodd : ¬ (Even (X : ℤ) ∧ Even (Y : ℤ))) :
    Cofactors (halveSlow cfg x y)
      (fun m n ↦ (mpSub cfg m.1 n.1 m.1, mpSub cfg m.2 n.2 m.2))
      fun n AB ↦ ∃ v w, AB.1.Repr cfg v ∧ AB.2.Repr cfg w ∧ v * X + w * Y = n := by
  refine ⟨fun {n AB} h ↦ ?_, fun {m n AB CD} hle hAB hCD ↦ ?_⟩
  · obtain ⟨v, w, hA, hB, heq⟩ := h
    have hparity : Even (v * X + w * Y) := by
      rw [heq, Nat.cast_mul]
      exact even_two_mul _
    rw [Int.even_add, Int.even_mul, Int.even_mul] at hparity
    simp only [halveSlow]
    split
    · next h =>
      rw [Bool.or_eq_true, mpIsOdd_iff hA, mpIsOdd_iff hB, ← Int.odd_iff, ← Int.odd_iff,
        ← Int.not_even_iff_odd, ← Int.not_even_iff_odd] at h
      obtain ⟨p, hp⟩ : Even (v + Y) := by
        rw [Int.even_add]
        tauto
      obtain ⟨q, hq⟩ : Even (w - X) := by
        rw [Int.even_sub]
        tauto
      refine ⟨p, q, mpDiv2_double ((mpAdd_repr hA hy hA.toValid).cast (hp.trans (two_mul p).symm)),
        mpDiv2_double ((mpSub_repr hB hx hB.toValid).cast (hq.trans (two_mul q).symm)),
        mul_left_cancel₀ (two_ne_zero' ℤ) ?_⟩
      push_cast at heq
      linear_combination heq - X * hp - Y * hq
    · next h =>
      rw [Bool.or_eq_true, mpIsOdd_iff hA, mpIsOdd_iff hB] at h
      obtain ⟨p, rfl⟩ : ∃ p, v = 2 * p := ⟨v / 2, by omega⟩
      obtain ⟨q, rfl⟩ : ∃ q, w = 2 * q := ⟨w / 2, by omega⟩
      refine ⟨p, q, mpDiv2_double hA, mpDiv2_double hB, mul_left_cancel₀ (two_ne_zero' ℤ) ?_⟩
      push_cast at heq
      linear_combination heq
  · obtain ⟨v, w, hA, hB, heq⟩ := hAB
    obtain ⟨v', w', hC, hD, heq'⟩ := hCD
    refine ⟨v - v', w - w', mpSub_repr hA hC hA.toValid, mpSub_repr hB hD hB.toValid, ?_⟩
    rw [Nat.cast_sub hle]
    linear_combination heq - heq'

/-! ## The range -/

theorem raiseLoop_repr {low : MpInt → Bool} {fuel : ℕ} (hb : b.Repr cfg (N : ℕ)) (hN : 0 < N)
    (hlow : ∀ {d : MpInt} {v : ℤ}, d.Repr cfg v → (low d = true ↔ v < 0)) (hd : d.Repr cfg v)
    (hfuel : -v ≤ fuel) : ∃ w, (raiseLoop cfg low b fuel d).Repr cfg w ∧ 0 ≤ w ∧ w % N = v % N := by
  induction fuel generalizing d v with
  | zero => exact ⟨v, hd, by omega, rfl⟩
  | succ fuel ih =>
    rw [raiseLoop]
    split
    · next h =>
      obtain ⟨w, hw, hpos, hmod⟩ := ih (mpAdd_repr hd hb hd.toValid) (by omega)
      exact ⟨w, hw, hpos, by rw [hmod, Int.add_emod_right]⟩
    · next h =>
      rw [hlow hd] at h
      exact ⟨v, hd, by omega, rfl⟩

theorem lowerLoop_repr {fuel : ℕ} (hb : b.Repr cfg (N : ℕ)) (hN : 0 < N)
    (hd : d.Repr cfg (n : ℕ)) (hfuel : n ≤ fuel) :
    (lowerLoop cfg b fuel d).Repr cfg (n % N : ℕ) := by
  induction fuel generalizing d n with
  | zero =>
    obtain rfl := Nat.le_zero.mp hfuel
    rwa [Nat.zero_mod]
  | succ fuel ih =>
    rw [lowerLoop]
    have hcmp := mpCmpMag_lt_iff_natCast hd hb
    split
    · next h =>
      have hle : N ≤ n := not_lt.mp fun hlt ↦ h (hcmp.mpr hlt)
      rw [Nat.mod_eq_sub_mod hle]
      exact ih ((mpSub_repr hd hb hd.toValid).cast (Nat.cast_sub hle).symm) (by omega)
    · next h => rwa [Nat.mod_eq_of_lt (hcmp.mp (not_not.mp h))]

theorem bringInRange_repr {low : MpInt → Bool} (hb : b.Repr cfg (N : ℕ)) (hN : 0 < N)
    (hlow : ∀ {d : MpInt} {v : ℤ}, d.Repr cfg v → (low d = true ↔ v < 0)) (hd : d.Repr cfg v) :
    (bringInRange cfg low b d).Repr cfg (v % N) := by
  have hfuel : -v ≤ (d.mag cfg : ℕ) := by
    rw [hd.mag_eq]
    omega
  obtain ⟨w, hw, hpos, hmod⟩ := raiseLoop_repr hb hN hlow hd hfuel
  obtain ⟨n, rfl⟩ := Int.eq_ofNat_of_zero_le hpos
  rw [bringInRange]
  exact (lowerLoop_repr hb hN hw hw.mag_natCast.ge).cast ((Int.natCast_mod n N).trans hmod)

/-! ## Inverses -/

theorem mpInit_repr (cfg : MpConfig) : mpInit.Repr cfg (0 : ℕ) :=
  ⟨⟨mpInit_valid, nofun, fun _ ↦ rfl⟩, rfl⟩

/-- What `mp_invmod` inverts. -/
theorem mpMod_residue (ha : a.Repr cfg v) (hb : b.Repr cfg (N : ℕ)) (hN : 0 < N) :
    ∃ y Y, mpMod cfg a b mpInit = .ok y ∧ y.Repr cfg (Y : ℕ) ∧ (Y : ℤ) = v % N ∧
      Y.gcd N = v.gcd N := by
  have hmod := mpMod_repr ha hb mpInit_valid
  rw [if_neg (by omega), Int.fmod_eq_emod_of_nonneg _ (Int.natCast_nonneg N)] at hmod
  obtain ⟨y, hok, hy⟩ := hmod
  obtain ⟨Y, hY⟩ := Int.eq_ofNat_of_zero_le (Int.emod_nonneg v (by omega : (N : ℤ) ≠ 0))
  rw [hY] at hy
  refine ⟨y, Y, hok, hy, hY.symm, ?_⟩
  rw [← Int.gcd_natCast_natCast, ← hY, Int.gcd_emod]

/-- A cofactor is an inverse of the residue, brought in range. -/
theorem inverse_of_cofactor {w : ℤ} (hN : 1 < N) (hY : (Y : ℤ) = v % N)
    (hdvd : (N : ℤ) ∣ w * Y - 1) : ∃ r : ℕ, w % N = r ∧ 0 < r ∧ r < N ∧ r * v ≡ 1 [ZMOD N] := by
  have hnonneg := Int.emod_nonneg w (by omega : (N : ℤ) ≠ 0)
  have hlt := Int.emod_lt_of_pos w (by omega : (0 : ℤ) < N)
  obtain ⟨r, hr⟩ := Int.eq_ofNat_of_zero_le hnonneg
  have hprod : (r : ℤ) * v ≡ 1 [ZMOD N] := by
    rw [← hr]
    calc w % N * v ≡ w * Y [ZMOD N] := by
          rw [hY]
          exact (Int.mod_modEq w N).mul (Int.mod_modEq v N).symm
      _ ≡ 1 [ZMOD N] := (Int.modEq_iff_dvd.mpr hdvd).symm
  refine ⟨r, hr, Nat.pos_of_ne_zero ?_, by omega, hprod⟩
  rintro rfl
  rw [Nat.cast_zero, zero_mul] at hprod
  have := Int.le_of_dvd one_pos (Int.modEq_iff_dvd.mp hprod)
  omega

/-- A positive number with another sign. -/
theorem MpInt.Repr.setSign {r : ℕ} (hd : d.Repr cfg (r : ℕ)) (hr : 0 < r) (s : MpSign) :
    ({ d with sign := s } : MpInt).Repr cfg (s.apply r) := by
  refine ⟨⟨hd.toValid.withSign s, hd.top, fun h ↦ ?_⟩, ?_⟩
  · have hzero := hd.used_eq_zero_iff.mp h
    omega
  · change s.apply (d.mag cfg) = s.apply r
    rw [hd.mag_natCast]

theorem mpCmpD_one_iff (ha : a.Repr cfg (G : ℕ)) : mpCmpD a 1 = .eq ↔ G = 1 := by
  rw [mpCmpD_eq ha cfg.one_lt_base, compare_eq_iff_eq]
  exact Nat.cast_inj

/-- The fast routine: the inverse of the residue, with the sign of the number. -/
theorem sMpInvmodFast_repr (ha : a.Repr cfg v) (hb : b.Repr cfg (N : ℕ)) (hN : 1 < N)
    (hodd : N % 2 = 1) :
    if v.gcd N = 1 then ∃ c, sMpInvmodFast cfg a b = .ok c ∧
      ∃ r : ℕ, r < N ∧ r * v ≡ 1 [ZMOD N] ∧ c.Repr cfg (if v < 0 then -r else r)
    else sMpInvmodFast cfg a b = .error .val := by
  obtain ⟨y, Y, hmod, hy, hY, hgcd⟩ := mpMod_residue ha hb (by omega)
  have hx := hb.copy (@mpInit_valid cfg)
  have heven : mpIsEven b = false := by
    rw [← Bool.not_eq_true, mpIsEven_iff hb]
    omega
  simp only [sMpInvmodFast, heven, hmod, Bool.false_eq_true, if_false, except_ok_bind]
  generalize mpCopy b mpInit = x at hx ⊢
  have hxused : x.used ≠ 0 := fun h ↦ by
    have := hx.used_eq_zero_iff.mp h
    omega
  rcases Nat.eq_zero_or_pos Y with rfl | hpos
  · rw [Nat.gcd_zero_left] at hgcd
    rw [if_neg (by omega), if_pos (.inr (hy.used_eq_zero_iff.mpr rfl))]
  · have hyused : y.used ≠ 0 := fun h ↦ by
      have := hy.used_eq_zero_iff.mp h
      omega
    have hfuel : N + Y ≤ x.mag cfg + y.mag cfg := by rw [hx.mag_natCast, hy.mag_natCast]
    have hG : N.gcd Y % 2 = 1 := by
      obtain ⟨q, hq⟩ := Nat.gcd_dvd_left N Y
      rw [hq, Nat.mul_mod] at hodd
      grind
    obtain ⟨g, D, hloop, hg, w, hD, hdvd⟩ := inverseLoop_spec (cofactors_fast hx hodd Y)
      (hx.copy (@mpInit_valid cfg)) (hy.copy (@mpInit_valid cfg))
      ⟨0, mpInit_repr cfg, by simp⟩ ⟨1, mpSet_repr mpInit_valid cfg.one_lt_base, by simp⟩
      (by omega) hpos rfl hG hfuel
    rw [if_neg (not_or.mpr ⟨hxused, hyused⟩)]
    simp only [hloop]
    rw [Nat.gcd_comm, hgcd] at hg hdvd
    split
    · next hone =>
      rw [hone, Nat.cast_one] at hdvd
      obtain ⟨r, hr, hrpos, hlt, hprod⟩ := inverse_of_cofactor hN hY hdvd
      have hlow {d : MpInt} {v : ℤ} (hd : d.Repr cfg v) :
          (d.sign == MpSign.neg) = true ↔ v < 0 := by
        rw [beq_iff_eq, hd.sign_eq]
        split
        · next h => exact iff_of_true rfl h
        · next h => exact iff_of_false nofun h
      have hrange := (bringInRange_repr hb (by omega) hlow hD).cast hr
      rw [if_neg (not_not.mpr ((mpCmpD_one_iff hg).mpr hone))]
      refine ⟨_, rfl, r, hlt, hprod, (hrange.setSign hrpos a.sign).cast ?_⟩
      rw [ha.sign_eq]
      split <;> rfl
    · next hone => rw [if_pos (mt (mpCmpD_one_iff hg).mp hone)]

/-- The slow routine, which is right for a negative number as well. -/
theorem sMpInvmodSlow_repr (ha : a.Repr cfg v) (hb : b.Repr cfg (N : ℕ)) (hN : 1 < N)
    (heven : N % 2 = 0) :
    if v.gcd N = 1 then ∃ c, sMpInvmodSlow cfg a b = .ok c ∧
      ∃ r : ℕ, r < N ∧ r * v ≡ 1 [ZMOD N] ∧ c.Repr cfg r
    else sMpInvmodSlow cfg a b = .error .val := by
  obtain ⟨x, X, hmod, hx, hX, hgcd⟩ := mpMod_residue ha hb (by omega)
  have hy := hb.copy (@mpInit_valid cfg)
  have hused : b.used ≠ 0 := fun h ↦ by
    have := hb.used_eq_zero_iff.mp h
    omega
  have hsign : ¬ (b.sign = .neg ∨ b.used = 0) := by
    rw [hb.sign_natCast]
    exact not_or.mpr ⟨nofun, hused⟩
  simp only [sMpInvmodSlow, if_neg hsign, hmod, except_ok_bind]
  generalize mpCopy b mpInit = y at hy ⊢
  have hyeven : mpIsEven y = true := (mpIsEven_iff hy).mpr (by omega)
  rw [hyeven, Bool.and_true]
  rcases Nat.even_or_odd X with hXeven | hXodd
  · have htwo : 2 ∣ v.gcd N := hgcd ▸ Nat.dvd_gcd hXeven.two_dvd (Nat.dvd_of_mod_eq_zero heven)
    rw [if_neg (by omega), if_pos ((mpIsEven_iff hx).mpr (by have := hXeven.two_dvd; omega))]
  · have hmodd := Nat.odd_iff.mp hXodd
    have hxeven : ¬ mpIsEven x = true := by
      rw [mpIsEven_iff hx]
      omega
    have hfuel : X + N ≤ x.mag cfg + y.mag cfg := by rw [hx.mag_natCast, hy.mag_natCast]
    have hG : X.gcd N % 2 = 1 := by
      obtain ⟨q, hq⟩ := Nat.gcd_dvd_left X N
      rw [hq, Nat.mul_mod] at hmodd
      grind
    have hparity : ¬ (Even (X : ℤ) ∧ Even (N : ℤ)) := fun h ↦ by
      have := Int.even_iff.mp h.1
      omega
    have hone := (@mpSet_repr cfg mpInit 1 mpInit_valid cfg.one_lt_base).cast Nat.cast_one
    obtain ⟨g, ⟨C, D⟩, hloop, hg, w, w', hC, -, hsum⟩ := inverseLoop_spec
      (B := (mpSet cfg mpInit 1, mpInit)) (D := (mpInit, mpSet cfg mpInit 1))
      (cofactors_slow hx hy hparity) (hx.copy (@mpInit_valid cfg)) (hy.copy (@mpInit_valid cfg))
      ⟨1, 0, hone, mpInit_repr cfg, by simp⟩ ⟨0, 1, mpInit_repr cfg, hone, by simp⟩
      (by omega) (by omega) rfl hG hfuel
    rw [if_neg hxeven]
    simp only [hloop]
    rw [hgcd] at hg hsum
    split
    · next hdiv =>
      have hdvd : (N : ℤ) ∣ w * X - 1 := by
        rw [hdiv, Nat.cast_one] at hsum
        exact ⟨-w', by linear_combination hsum⟩
      obtain ⟨r, hr, -, hlt, hprod⟩ := inverse_of_cofactor hN hX hdvd
      have hlow {d : MpInt} {v : ℤ} (hd : d.Repr cfg v) :
          (mpCmpD d 0 == Ordering.lt) = true ↔ v < 0 := by
        rw [beq_iff_eq, mpCmpD_eq hd cfg.base_pos, compare_lt_iff_lt, Nat.cast_zero]
      have hrange := (bringInRange_repr hb (by omega) hlow hC).cast hr
      rw [if_neg (not_not.mpr ((mpCmpD_one_iff hg).mpr hdiv))]
      exact ⟨_, rfl, r, hlt, hprod, hrange⟩
    · next hdiv => rw [if_pos (mt (mpCmpD_one_iff hg).mp hdiv)]

/-- `mp_invmod`: for a negative number and an odd modulus, the result is minus the inverse. -/
theorem mpInvmod_repr (ha : a.Repr cfg v) (hb : b.Repr cfg w) :
    if 1 < w ∧ v.gcd w = 1 then ∃ c, mpInvmod cfg a b = .ok c ∧ ∃ r : ℕ, r < w ∧
      r * v ≡ 1 [ZMOD w] ∧ c.Repr cfg (if v < 0 ∧ w % 2 = 1 then -r else r)
    else mpInvmod cfg a b = .error .val := by
  have hcmp := mpCmpD_eq hb cfg.one_lt_base
  have hguard : (b.sign = .neg ∨ mpCmpD b 1 ≠ .gt) ↔ ¬ 1 < w := by
    rw [hcmp, Ne, compare_gt_iff_gt, Nat.cast_one]
    refine ⟨fun h ↦ h.elim (fun hneg hlt ↦ ?_) id, .inr⟩
    rw [hb.sign_eq, if_neg (by omega)] at hneg
    exact nomatch hneg
  rw [mpInvmod]
  by_cases hw : 1 < w
  · obtain ⟨N, rfl⟩ := Int.eq_ofNat_of_zero_le (by omega : 0 ≤ w)
    rw [if_neg (mt hguard.mp (not_not.mpr hw))]
    rcases Nat.mod_two_eq_zero_or_one N with heven | hodd
    · have hslow := sMpInvmodSlow_repr ha hb (by omega) heven
      have hnot : ¬ mpIsOdd b = true := by
        rw [mpIsOdd_iff hb]
        omega
      simp only [hw, true_and, if_neg hnot]
      split
      · next h =>
        rw [if_pos h] at hslow
        obtain ⟨c, hok, r, hlt, hprod, hc⟩ := hslow
        exact ⟨c, hok, r, by omega, hprod, hc.cast (if_neg (by omega)).symm⟩
      · next h => rwa [if_neg h] at hslow
    · have hfast := sMpInvmodFast_repr ha hb (by omega) hodd
      simp only [hw, true_and, if_pos ((mpIsOdd_iff hb).mpr (by omega))]
      split
      · next h =>
        rw [if_pos h] at hfast
        obtain ⟨c, hok, r, hlt, hprod, hc⟩ := hfast
        refine ⟨c, hok, r, by omega, hprod, hc.cast ?_⟩
        have hiff : v < 0 ↔ v < 0 ∧ (N : ℤ) % 2 = 1 := by omega
        rw [if_congr hiff rfl rfl]
      · next h => rwa [if_neg h] at hfast
  · rw [if_pos (hguard.mpr hw), if_neg fun h ↦ hw h.1]

end Mp

end SecureIIoT
