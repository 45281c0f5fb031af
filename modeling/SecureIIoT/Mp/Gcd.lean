import SecureIIoT.Mp.Div

/-!
# The greatest common divisor

`mp_gcd` takes the power of two that both numbers have, drops the other twos, and then
subtracts the smaller number from the larger one and drops the twos of the difference, until
nothing is left.  The numbers it compares are odd, and so the twos it drops are none of the
divisor (`gcdLoop_repr`).
-/

namespace SecureIIoT

namespace Mp

variable (cfg : MpConfig)

/-! ## The operations -/

/-- The powers of two that `mp_gcd` divides out of a number with `lsb` of them, of which `k`
come first. -/
def dropTwos (k lsb : ℕ) (u : MpInt) : MpInt :=
  let u := if 0 < k then mpDiv2d cfg u k u else u
  if lsb ≠ k then mpDiv2d cfg u (lsb - k) u else u

/-- The loop of `mp_gcd`. -/
def gcdLoop : (fuel : ℕ) → (u v : MpInt) → MpInt
  | 0, u, _ => u
  | fuel + 1, u, v =>
    if v.used = 0 then u
    else
      let (u, v) := if mpCmpMag u v = .gt then (v, u) else (u, v)
      let v := sMpSub cfg v u v
      gcdLoop fuel u (mpDiv2d cfg v (mpCntLsb cfg v) v)

/-- `mp_gcd` -/
def mpGcd (a b c : MpInt) : MpInt :=
  if a.used = 0 then mpAbs b c
  else if b.used = 0 then mpAbs a c
  else
    let u := { mpInitCopy cfg a with sign := .zpos }
    let v := { mpInitCopy cfg b with sign := .zpos }
    let uLsb := mpCntLsb cfg u
    let vLsb := mpCntLsb cfg v
    let k := min uLsb vLsb
    let u := dropTwos cfg k uLsb u
    let v := dropTwos cfg k vLsb v
    let u := gcdLoop cfg (u.mag cfg + v.mag cfg) u v
    { mpMul2d cfg u k c with sign := .zpos }

variable {cfg} {a b c u v : MpInt} {i j k m n U V : ℕ} {x y : ℤ}

open MpInt

/-! ## The twos -/

theorem mpDiv2d_natCast (hu : u.Repr cfg (2 ^ k * n : ℕ)) (hc : c.Valid cfg) :
    (mpDiv2d cfg u k c).Repr cfg (n : ℕ) := by
  refine (mpDiv2d_repr hu hc k).cast ?_
  rw [Nat.cast_mul, Int.mul_tdiv_cancel_left _ (by exact_mod_cast (Nat.two_pow_pos k).ne')]

theorem dropTwos_repr (hu : u.Repr cfg (2 ^ i * n : ℕ)) (hk : k ≤ i) :
    (dropTwos cfg k i u).Repr cfg (n : ℕ) := by
  obtain ⟨j, rfl⟩ := Nat.exists_eq_add_of_le hk
  rw [pow_add, mul_assoc] at hu
  have hfirst : (if 0 < k then mpDiv2d cfg u k u else u).Repr cfg (2 ^ j * n : ℕ) := by
    split
    · exact mpDiv2d_natCast hu hu.toValid
    · next h =>
      obtain rfl : k = 0 := by omega
      rwa [pow_zero, one_mul] at hu
  rw [dropTwos]
  split
  · rw [Nat.add_sub_cancel_left]
    exact mpDiv2d_natCast hfirst hfirst.toValid
  · next h =>
    obtain rfl : j = 0 := by omega
    rwa [pow_zero, one_mul] at hfirst

/-- What is odd is no more than the number without its twos. -/
theorem exists_odd (hu : u.Repr cfg (U : ℕ)) (hU : U ≠ 0) :
    ∃ n, n % 2 = 1 ∧ U = 2 ^ mpCntLsb cfg u * n := by
  obtain ⟨m, hm⟩ := mpCntLsb_spec hu (by exact_mod_cast hU)
  exact ⟨2 * m + 1, by omega, by rwa [Int.natAbs_natCast] at hm⟩

/-- The common power of two comes first. -/
theorem gcd_two_pow_mul (hm : m % 2 = 1) (hn : n % 2 = 1) :
    (2 ^ i * m).gcd (2 ^ j * n) = m.gcd n * 2 ^ min i j := by
  have hcoprime {k l : ℕ} (hk : k % 2 = 1) : Nat.Coprime (2 ^ l) k :=
    (Nat.coprime_two_left.mpr (Nat.odd_iff.mpr hk)).pow_left l
  rcases le_total i j with h | h
  · obtain ⟨d, rfl⟩ := Nat.exists_eq_add_of_le h
    rw [min_eq_left h, pow_add, mul_assoc, Nat.gcd_mul_left,
      (hcoprime hm).gcd_mul_left_cancel_right, mul_comm]
  · obtain ⟨d, rfl⟩ := Nat.exists_eq_add_of_le h
    rw [min_eq_right h, pow_add, mul_assoc, Nat.gcd_mul_left, (hcoprime hn).gcd_mul_left_cancel,
      mul_comm]

/-! ## The loop -/

/-- The smaller number comes first. -/
theorem exchange_repr (hu : u.Repr cfg (U : ℕ)) (hv : v.Repr cfg (V : ℕ)) :
    ∃ u' v', (if mpCmpMag u v = .gt then (v, u) else (u, v)) = (u', v') ∧
      u'.Repr cfg (min U V : ℕ) ∧ v'.Repr cfg (max U V : ℕ) := by
  have hcmp := mpCmpMag_eq hu.toCanonical hv.toCanonical
  rw [hu.mag_natCast, hv.mag_natCast] at hcmp
  split
  · next h =>
    have hlt := compare_gt_iff_gt.mp (hcmp.symm.trans h)
    rw [min_eq_right hlt.le, max_eq_left hlt.le]
    exact ⟨v, u, rfl, hv, hu⟩
  · next h =>
    have hle : U ≤ V := not_lt.mp fun hlt ↦ h (hcmp.trans (compare_gt_iff_gt.mpr hlt))
    rw [min_eq_left hle, max_eq_right hle]
    exact ⟨u, v, rfl, hu, hv⟩

/-- The loop on an odd number and one that is odd or zero. -/
theorem gcdLoop_repr {fuel : ℕ} (hu : u.Repr cfg (U : ℕ)) (hv : v.Repr cfg (V : ℕ))
    (hU : U % 2 = 1) (hV : V = 0 ∨ V % 2 = 1) (hfuel : U + V ≤ fuel) :
    (gcdLoop cfg fuel u v).Repr cfg (U.gcd V : ℕ) := by
  induction fuel generalizing u v U V with
  | zero => omega
  | succ fuel ih =>
    rw [gcdLoop]
    split
    · next h =>
      obtain rfl : V = 0 := by exact_mod_cast hv.used_eq_zero_iff.mp h
      rwa [Nat.gcd_zero_right]
    · next h =>
      have hpos : V ≠ 0 := fun hzero ↦ h (hv.used_eq_zero_iff.mpr (by exact_mod_cast hzero))
      obtain ⟨u', v', hswap, hu', hv'⟩ := exchange_repr hu hv
      have hdiff := sMpSub_natCast hv' hu' hv'.toValid hv'.sign_natCast min_le_max
      have hodd : min U V % 2 = 1 := by omega
      have hgcd : (min U V).gcd (max U V - min U V) = U.gcd V := by
        rw [Nat.gcd_sub_self_right min_le_max]
        rcases le_total U V with hle | hle
        · rw [min_eq_left hle, max_eq_right hle]
        · rw [min_eq_right hle, max_eq_left hle, Nat.gcd_comm]
      simp only [hswap]
      generalize sMpSub cfg v' u' v' = d at hdiff ⊢
      rw [← hgcd]
      rcases Nat.eq_zero_or_pos (max U V - min U V) with hzero | hlt
      · rw [hzero] at hdiff ⊢
        have hlast := (mpDiv2d_repr hdiff hdiff.toValid (mpCntLsb cfg d)).cast (Int.zero_tdiv _)
        exact ih hu' hlast hodd (.inl rfl) (by omega)
      · obtain ⟨n, hn, htwos⟩ := exists_odd hdiff hlt.ne'
        have hlast := mpDiv2d_natCast (htwos ▸ hdiff) hdiff.toValid
        have hbound := Nat.le_mul_of_pos_left n (Nat.two_pow_pos (mpCntLsb cfg d))
        have hcoprime := (Nat.coprime_two_left.mpr (Nat.odd_iff.mpr hodd)).pow_left
          (mpCntLsb cfg d)
        rw [htwos, hcoprime.gcd_mul_left_cancel_right]
        exact ih hu' hlast hodd (.inr hn) (by omega)

/-- `mp_gcd` finds the greatest common divisor. -/
theorem mpGcd_repr (ha : a.Repr cfg x) (hb : b.Repr cfg y) (hc : c.Valid cfg) :
    (mpGcd cfg a b c).Repr cfg (x.gcd y : ℕ) := by
  rw [mpGcd]
  split
  · next h =>
    rw [ha.used_eq_zero_iff.mp h, Int.gcd_zero_left, ← Int.abs_eq_natAbs]
    exact hb.abs hc
  split
  · next h =>
    rw [hb.used_eq_zero_iff.mp h, Int.gcd_zero_right, ← Int.abs_eq_natAbs]
    exact ha.abs hc
  next hx hy =>
    have hu := (mpInitCopy_repr ha).toCanonical.repr_pos
    have hv := (mpInitCopy_repr hb).toCanonical.repr_pos
    rw [(mpInitCopy_repr ha).mag_eq] at hu
    rw [(mpInitCopy_repr hb).mag_eq] at hv
    rw [ha.used_eq_zero_iff, ← Int.natAbs_eq_zero] at hx
    rw [hb.used_eq_zero_iff, ← Int.natAbs_eq_zero] at hy
    simp only
    generalize ({ mpInitCopy cfg a with sign := .zpos } : MpInt) = u at hu ⊢
    generalize ({ mpInitCopy cfg b with sign := .zpos } : MpInt) = v at hv ⊢
    obtain ⟨m, hm, hxm⟩ := exists_odd hu hx
    obtain ⟨n, hn, hyn⟩ := exists_odd hv hy
    have hgcd : x.gcd y = m.gcd n * 2 ^ min (mpCntLsb cfg u) (mpCntLsb cfg v) := by
      rw [Int.gcd, hxm, hyn, gcd_two_pow_mul hm hn]
    have hu' := dropTwos_repr (hxm ▸ hu) (min_le_left _ (mpCntLsb cfg v))
    have hv' := dropTwos_repr (hyn ▸ hv) (min_le_right (mpCntLsb cfg u) _)
    generalize min (mpCntLsb cfg u) (mpCntLsb cfg v) = k at hgcd hu' hv' ⊢
    generalize dropTwos cfg k (mpCntLsb cfg u) u = u' at hu' ⊢
    generalize dropTwos cfg k (mpCntLsb cfg v) v = v' at hv' ⊢
    have hfuel : m + n ≤ u'.mag cfg + v'.mag cfg := by rw [hu'.mag_natCast, hv'.mag_natCast]
    have hmul := (mpMul2d_repr (gcdLoop_repr hu' hv' hm (.inr hn) hfuel) hc k).cast
      (by push_cast; rfl : _ = ((m.gcd n * 2 ^ k : ℕ) : ℤ))
    have hrepr := hmul.toCanonical.repr_pos
    rwa [hmul.mag_natCast, ← hgcd] at hrepr

end Mp

end SecureIIoT
