import SecureIIoT.Mp.ReadRadix
import SecureIIoT.Mp.Large

/-!
# Exact arithmetic

What a caller of the library may rely on.  An integer is in canonical form before a call and
after it, and the number it is a form of is the exact one: of sums and comparisons
(`signed_arithmetic`), of products and squares of any length (`product_of_any_length`), of
quotients and remainders (`division_exact`), of the greatest common divisor (`gcd_exact`), of
bytes and words (`bytes_round_trip`), of numerals (`numerals_read`) and, but for a sign, of
inverses (`inverse_iff`).  The reductions that the modular powers are built on agree with the
remainder, each for the numbers it is made for (`barrett_reduction`, `montgomery_reduction`), but
for the one of a digit, which is wrong for the moduli that miss their digit
(`reduction_2k_iff`).  The modular powers are right for all other moduli that are odd or not too
long for `mp_reduce` (`exptmod_iff`, `exptmod_of_negative`).
-/

namespace SecureIIoT

namespace Mp

open Radix ByteString Montgomery MpConfig

variable {cfg : MpConfig} {a b c d n x : MpInt} {v w : ℤ} {N k : ℕ}

open MpInt

/-! ## Signed arithmetic -/

/-- Sums, differences and comparisons, with a digit as well. -/
theorem signed_arithmetic (ha : a.Repr cfg v) (hb : b.Repr cfg w) (hc : c.Valid cfg)
    (hk : k < cfg.base) :
    (mpAdd cfg a b c).Repr cfg (v + w) ∧ (mpSub cfg a b c).Repr cfg (v - w) ∧
      (mpAddD cfg a k c).Repr cfg (v + k) ∧ (mpSubD cfg a k c).Repr cfg (v - k) ∧
      mpCmp a b = compare v w ∧ mpCmpD a k = compare v k :=
  ⟨mpAdd_repr ha hb hc, mpSub_repr ha hb hc, mpAddD_repr ha hc hk, mpSubD_repr ha hc hk,
    mpCmp_eq ha hb, mpCmpD_eq ha hk⟩

theorem one_digit (cfg : MpConfig) (hk : k < 2 ^ 8) : (mpSet cfg mpInit k).Repr cfg k :=
  mpSet_repr mpInit_valid (hk.trans cfg.lt_base)

theorem signed_arithmetic_of_digits :
    (mpAdd mp28 (mpSet mp28 mpInit 3) (mpSet mp28 mpInit 5) mpInit).Repr mp28 (3 + 5) :=
  (signed_arithmetic (one_digit mp28 (by decide)) (one_digit mp28 (by decide)) mpInit_valid
    (mp28.base_pos)).1

/-! ## Products and quotients -/

/-- Products and squares, whichever method their lengths select. -/
theorem product_of_any_length (ha : a.Repr cfg v) (hb : b.Repr cfg w) (hc : c.Valid cfg) :
    (mpMul cfg (longMul cfg) a b c).Repr cfg (v * w) ∧
      (mpSqr cfg (longMul cfg) a c).Repr cfg (v * v) := by
  have hlarge := longMul_multiplies cfg (max a.used b.used)
  exact ⟨hlarge.mul ha hb hc (le_max_left _ _) (le_max_right _ _),
    hlarge.sqr ha hc (le_max_left _ _)⟩

theorem product_of_powers :
    (mpMul mp28 (longMul mp28) (mp2expt mp28 mpInit 20000) (mp2expt mp28 mpInit 30000)
      mpInit).Repr mp28 ((2 ^ 20000 : ℕ) * (2 ^ 30000 : ℕ)) :=
  (product_of_any_length (mp2expt_repr mpInit_valid 20000) (mp2expt_repr mpInit_valid 30000)
    mpInit_valid).1

/-- Division rounds to zero and its remainder has the sign of the dividend; `mp_mod` has the
sign of the modulus. -/
theorem division_exact (ha : a.Repr cfg v) (hb : b.Repr cfg w) (hc : c.Valid cfg)
    (hd : d.Valid cfg) :
    if w = 0 then mpDiv cfg a b c d = .error .val ∧ mpMod cfg a b c = .error .val
    else (∃ q r, mpDiv cfg a b c d = .ok (q, r) ∧ q.Repr cfg (v.tdiv w) ∧ r.Repr cfg (v.tmod w)) ∧
      ∃ m, mpMod cfg a b c = .ok m ∧ m.Repr cfg (v.fmod w) := by
  have hdiv := mpDiv_repr ha hb hc hd
  have hmod := mpMod_repr ha hb hc
  split
  · next h =>
    rw [if_pos h] at hdiv hmod
    exact ⟨hdiv, hmod⟩
  · next h =>
    rw [if_neg h] at hdiv hmod
    exact ⟨hdiv, hmod⟩

/-- A number of three digits, `2 ^ 60 + 3`. -/
def threeDigits : MpInt := mpAdd mp28 (mp2expt mp28 mpInit 60) (mpSet mp28 mpInit 3) mpInit

theorem threeDigits_repr : threeDigits.Repr mp28 (1152921504606846979 : ℕ) :=
  (mpAdd_repr (mp2expt_repr mpInit_valid 60) (one_digit mp28 (by decide : 3 < 2 ^ 8))
    mpInit_valid).cast (by norm_num)

theorem division_of_digits :
    mpDiv mp28 threeDigits (mpSet mp28 mpInit 0) mpInit mpInit = .error .val ∧
      ∃ q r, mpDiv mp28 (mpSub mp28 mpInit (mp2expt mp28 mpInit 100) mpInit) threeDigits mpInit
          mpInit = .ok (q, r) ∧
        q.Repr mp28 (-1099511627775) ∧ r.Repr mp28 (-1152918206071963651) := by
  have hzero := division_exact threeDigits_repr (one_digit mp28 (by decide : 0 < 2 ^ 8))
    (@mpInit_valid mp28) (@mpInit_valid mp28)
  rw [if_pos Nat.cast_zero] at hzero
  have hneg := (mpSub_repr (mpInit_repr mp28) (mp2expt_repr (@mpInit_valid mp28) 100)
    mpInit_valid).cast (by rfl : _ = (-1267650600228229401496703205376 : ℤ))
  have h := division_exact hneg threeDigits_repr (@mpInit_valid mp28) (@mpInit_valid mp28)
  rw [if_neg (by norm_num)] at h
  obtain ⟨q, r, hok, hq, hr⟩ := h.1
  exact ⟨hzero.1, q, r, hok, hq.cast (by decide), hr.cast (by decide)⟩

/-- The greatest common divisor, of negative numbers as well, and that it divides. -/
theorem gcd_exact (ha : a.Repr cfg v) (hb : b.Repr cfg w) (hc : c.Valid cfg) (hd : d.Valid cfg) :
    (mpGcd cfg a b c).Repr cfg (v.gcd w : ℕ) ∧
      (v ≠ 0 → ∃ q r, mpDiv cfg a (mpGcd cfg a b c) d d = .ok (q, r) ∧
        q.Repr cfg (v / v.gcd w) ∧ r.Repr cfg 0) := by
  have hgcd := mpGcd_repr ha hb hc
  refine ⟨hgcd, fun hv ↦ ?_⟩
  have hdvd : (v.gcd w : ℤ) ∣ v := Int.gcd_dvd_left v w
  have hdiv := mpDiv_repr ha hgcd hd hd
  rw [if_neg (by exact_mod_cast (Int.gcd_pos_of_ne_zero_left w hv).ne')] at hdiv
  obtain ⟨q, r, hok, hq, hr⟩ := hdiv
  exact ⟨q, r, hok, hq.cast (Int.tdiv_eq_ediv_of_dvd hdvd),
    hr.cast (Int.tmod_eq_zero_of_dvd hdvd)⟩

theorem gcd_of_digits :
    (mpGcd mp28 (mpSet mp28 mpInit 12) (mpSet mp28 mpInit 18) mpInit).Repr mp28 (6 : ℕ) :=
  (gcd_exact (one_digit mp28 (by decide : 12 < 2 ^ 8)) (one_digit mp28 (by decide : 18 < 2 ^ 8))
    mpInit_valid (@mpInit_valid mp28)).1

/-- `mp_invmod` finds an inverse if there is one, but what it returns for a negative number and
an odd modulus is minus the inverse. -/
theorem inverse_iff (ha : a.Repr cfg v) (hb : b.Repr cfg w) :
    if 1 < w ∧ v.gcd w = 1 then
      ∃ (c : MpInt) (u : ℤ), mpInvmod cfg a b = .ok c ∧ c.Repr cfg u ∧ |u| < w ∧
        (u * v ≡ 1 [ZMOD w] ↔ ¬ (v < 0 ∧ w % 2 = 1)) ∧
        (v < 0 ∧ w % 2 = 1 → u * v ≡ -1 [ZMOD w])
    else mpInvmod cfg a b = .error .val := by
  have hinv := mpInvmod_repr ha hb
  split
  · next h =>
    rw [if_pos h] at hinv
    obtain ⟨c, hok, r, hlt, hprod, hc⟩ := hinv
    refine ⟨c, _, hok, hc, ?_, ?_, fun hneg ↦ ?_⟩
    · split
      · rwa [abs_neg, Nat.abs_cast]
      · rwa [Nat.abs_cast]
    · split
      · next hneg =>
        refine iff_of_false (fun hone ↦ ?_) (not_not.mpr hneg)
        -- an odd number above one does not divide two
        have htwo : 0 ≡ 2 [ZMOD w] := by
          have hsum := hone.add hprod
          rwa [neg_mul, neg_add_cancel, one_add_one_eq_two] at hsum
        have hdvd : w ∣ 2 := by simpa using htwo.dvd
        have hle := Int.le_of_dvd two_pos hdvd
        omega
      · next hneg => exact iff_of_true hprod hneg
    · rw [if_pos hneg, neg_mul]
      exact hprod.neg
  · next h => rwa [if_neg h] at hinv

theorem inverse_of_negative :
    ∃ (c : MpInt) (u : ℤ), mpInvmod mp28 (mpSub mp28 mpInit (mpSet mp28 mpInit 3) mpInit)
      (mpSet mp28 mpInit 7) = .ok c ∧ c.Repr mp28 u ∧ ¬ u * -3 ≡ 1 [ZMOD 7] ∧
        u * -3 ≡ -1 [ZMOD 7] := by
  have hneg := (mpSub_repr (mpInit_repr mp28) (one_digit mp28 (by decide : 3 < 2 ^ 8))
    mpInit_valid).cast (by decide : _ = (-3 : ℤ))
  have h := inverse_iff hneg ((one_digit mp28 (by decide : 7 < 2 ^ 8)).cast Nat.cast_ofNat)
  rw [if_pos (by decide)] at h
  obtain ⟨c, u, hok, hc, -, hiff, hminus⟩ := h
  exact ⟨c, u, hok, hc, fun hone ↦ hiff.mp hone (by decide), hminus (by decide)⟩

/-! ## Bytes and words -/

/-- Bytes are read as their number, and numbers are written as the shortest bytes that are read
as their magnitude; bytes that are read are written back without the zeros in front, and words
come back as they are. -/
theorem bytes_round_trip (ha : a.Repr cfg v) (hc : c.Valid cfg) (buf : List UInt8) (maxlen : ℕ)
    (word : UInt32) :
    (mpFromUbin cfg c buf).Repr cfg (ofBE buf : ℕ) ∧
      (mpUbinSize cfg a = byteLength v.natAbs ∧
        ∀ bytes, ofBE bytes = v.natAbs → mpUbinSize cfg a ≤ bytes.length) ∧
      (mpToUbin cfg a maxlen = if maxlen < mpUbinSize cfg a then .error .buf
        else .ok (toBE (mpUbinSize cfg a) v.natAbs)) ∧
      (mpFromUbin cfg c (toBE (mpUbinSize cfg a) v.natAbs)).Repr cfg |v| ∧
      (∃ bytes, mpToUbin cfg (mpFromUbin cfg c buf) buf.length = .ok bytes ∧
        List.replicate (buf.length - bytes.length) 0 ++ bytes = buf) ∧
      (mpSetU32 cfg c word).Repr cfg (word.toNat : ℕ) ∧
      mpGetU32 cfg (mpSetU32 cfg c word) = word := by
  have hsize := mpUbinSize_eq ha
  have hread := mpFromUbin_repr hc buf
  have hword := mpSetU32_repr hc word
  refine ⟨hread, ⟨hsize, fun bytes h ↦ ?_⟩, ?_, ?_, ?_, hword, ?_⟩
  · rw [hsize, ← h]
    exact byteLength_le_iff.mpr (ofBE_lt bytes)
  · rw [hsize]
    exact mpToUbin_eq ha maxlen
  · refine (mpFromUbin_repr hc _).cast ?_
    rw [hsize, ofBE_toBE (lt_pow_byteLength _), Int.abs_eq_natAbs]
  · have hle : byteLength (ofBE buf) ≤ buf.length := byteLength_le_iff.mpr (ofBE_lt buf)
    rw [mpToUbin_eq hread, Int.natAbs_natCast, if_neg hle.not_gt]
    refine ⟨_, rfl, ?_⟩
    rw [length_toBE, ← toBE_add _ (lt_pow_byteLength _), Nat.sub_add_cancel hle, toBE_ofBE]
  · rw [mpGetU32_eq hword word.toNat_lt, UInt32.ofNat_toNat]

theorem bytes_of_three_digits :
    mpToUbin mp28 threeDigits 7 = .error .buf ∧
      mpToUbin mp28 threeDigits 9 = .ok [16, 0, 0, 0, 0, 0, 0, 3] ∧
      (mpFromUbin mp28 mpInit [0, 16, 0, 0, 0, 0, 0, 0, 3]).Repr mp28
        (1152921504606846979 : ℕ) := by
  have h (maxlen : ℕ) := bytes_round_trip threeDigits_repr (@mpInit_valid mp28)
    [0, 16, 0, 0, 0, 0, 0, 0, 3] maxlen 0
  have hsize : mpUbinSize mp28 threeDigits = 8 := by
    rw [(h 0).2.1.1]
    decide +kernel
  have hto (maxlen : ℕ) := (h maxlen).2.2.1
  rw [hsize] at hto
  exact ⟨hto 7, hto 9, (h 0).1⟩

/-- The strings that are numerals are read, and no others. -/
theorem numerals_read {chars : CharConfig} {radix : ℕ} (ha : a.Valid cfg) (hradix : 2 ≤ radix)
    (hradix' : radix ≤ 64) (str : List UInt8) :
    (∀ v, (∃ b, mpReadRadix cfg chars a str radix = .ok b ∧ b.Repr cfg v) ↔
        Numeral chars radix str v) ∧
      (mpReadRadix cfg chars a str radix = .error .val ↔ ¬ ∃ v, Numeral chars radix str v) := by
  by_cases hnum : ∃ v, Numeral chars radix str v
  · obtain ⟨v, hv⟩ := hnum
    obtain ⟨b, hok, hb⟩ := mpReadRadix_numeral ha hradix hradix' hv
    refine ⟨fun w ↦ ⟨?_, fun hw ↦ mpReadRadix_numeral ha hradix hradix' hw⟩, ?_⟩
    · rintro ⟨b', hok', hb'⟩
      obtain rfl : b = b' := Except.ok.inj (hok.symm.trans hok')
      obtain rfl : v = w := hb.toInt_eq.symm.trans hb'.toInt_eq
      exact hv
    · rw [hok]
      exact ⟨(fun h ↦ nomatch h), fun h ↦ absurd ⟨v, hv⟩ h⟩
  · have herr := mpReadRadix_not_numeral ha hradix hradix' hnum
    refine ⟨fun w ↦ ⟨?_, fun hw ↦ absurd ⟨w, hw⟩ hnum⟩, iff_of_true herr hnum⟩
    rintro ⟨b, hok, -⟩
    exact nomatch hok.symm.trans herr

theorem numeral_of_line : ∃ b,
    mpReadRadix mp28 ⟨false, 0⟩ mpInit [45, 102, 70, 10] 16 = .ok b ∧ b.Repr mp28 (-255) :=
  ((numerals_read mpInit_valid (by decide) (by decide) _).1 _).mpr
    ⟨.neg, [102, 70], [10], [15, 15], rfl,
      .cons ⟨by decide, .inl (by decide)⟩ (.cons ⟨by decide, .inl (by decide)⟩ .nil),
      fun c hc ↦ .inr (Option.some_inj.mp hc).symm, by decide⟩

/-! ## Reductions -/

/-- Barrett's reduction of what is below the square of the modulus, if the length of the modulus
is a digit. -/
theorem barrett_reduction (hn : n.Repr cfg (N : ℕ)) (hN : 0 < N)
    (hfits : n.used < 2 ^ cfg.digitSize) :
    ∃ mu, mpReduceSetup cfg mpInit n = .ok mu ∧ ∀ (x : MpInt) (T : ℕ), x.Repr cfg (T : ℕ) →
      T < N * N → (mpReduce cfg (longMul cfg) x n mu).Repr cfg (T % N : ℕ) := by
  have hsetup := mpReduceSetup_repr (@mpInit_valid cfg) hn
  rw [if_neg hN.ne'] at hsetup
  obtain ⟨mu, hok, hmu⟩ := hsetup
  exact ⟨mu, hok, fun x T hx hT ↦ mpReduce_repr (longMul_multiplies cfg _) hn hN hfits hmu hx hT⟩

theorem threeDigits_used : threeDigits.used = 3 := by decide +kernel

theorem barrett_reduction_of_power : ∃ mu, mpReduceSetup mp28 mpInit threeDigits = .ok mu ∧
    (mpReduce mp28 (longMul mp28) (mp2expt mp28 mpInit 100) threeDigits mu).Repr mp28
      (1152918206071963651 : ℕ) := by
  have hfits : threeDigits.used < 2 ^ mp28.digitSize := by
    rw [threeDigits_used]
    decide
  obtain ⟨mu, hok, hred⟩ := barrett_reduction threeDigits_repr (by norm_num) hfits
  exact ⟨mu, hok, (hred _ _ (mp2expt_repr mpInit_valid 100) (by norm_num)).cast (by norm_num)⟩

/-- Montgomery's reduction for an odd modulus: by rows and by columns it ends with the
remainder of the quotient by a power of the base. -/
theorem montgomery_reduction (hn : n.Repr cfg (N : ℕ)) (hodd : N % 2 = 1) :
    ∃ rho, mpMontgomerySetup cfg n = .ok rho ∧ ∀ (x : MpInt) (T : ℕ), x.Repr cfg (T : ℕ) →
      T < cfg.base ^ n.used * N →
      ∃ r < N, cfg.base ^ n.used * r ≡ T [MOD N] ∧
        (∃ x', mpMontgomeryReduce cfg x n rho = .ok x' ∧ x'.Repr cfg (r : ℕ)) ∧
        (n.used * 2 + 1 < cfg.warray → n.used < cfg.maxfast →
          ∃ x', sMpMontgomeryReduceFast cfg x n rho = .ok x' ∧ x'.Repr cfg (r : ℕ)) := by
  obtain ⟨rho, hsetup, -, hrho⟩ := mpMontgomerySetup_spec hn hodd
  refine ⟨rho, hsetup, fun x T hx hT ↦ ⟨redc cfg.base N rho n.used T % N, ?_, ?_, ?_, ?_⟩⟩
  · exact Nat.mod_lt _ (by omega)
  · exact ((Nat.mod_modEq _ _).mul_left _).trans (redc_modEq cfg.base_pos hrho n.used T)
  · exact mpMontgomeryReduce_repr hx hn hrho hT
  · exact sMpMontgomeryReduceFast_repr hx hn hrho hT

theorem montgomery_reduction_of_power :
    ∃ rho r, mpMontgomerySetup mp28 threeDigits = .ok rho ∧ r < 1152921504606846979 ∧
      2 ^ 84 * r ≡ 2 ^ 100 [MOD 1152921504606846979] ∧
      (∃ x', mpMontgomeryReduce mp28 (mp2expt mp28 mpInit 100) threeDigits rho = .ok x' ∧
        x'.Repr mp28 (r : ℕ)) ∧
      ∃ x', sMpMontgomeryReduceFast mp28 (mp2expt mp28 mpInit 100) threeDigits rho = .ok x' ∧
        x'.Repr mp28 (r : ℕ) := by
  obtain ⟨rho, hok, hred⟩ := montgomery_reduction threeDigits_repr (by norm_num)
  rw [threeDigits_used] at hred
  obtain ⟨r, hlt, hmod, hrows, hcolumns⟩ := hred _ _ (mp2expt_repr mpInit_valid 100) (by decide)
  exact ⟨rho, r, hok, hlt, hmod, hrows, hcolumns (by decide) (by decide)⟩

/-- The reduction with a digit, for the moduli that `mp_exptmod` picks it for: it is right for
every number exactly if the modulus does not miss its digit.  A digit that is missed is the base,
and `0` is kept. -/
theorem reduction_2k_iff (hn : n.Repr cfg (N : ℕ)) (hL : mpReduceIs2kL cfg n = false)
    (his : mpReduceIs2k cfg n = true) :
    ((∀ (x : MpInt) (T : ℕ), x.Repr cfg (T : ℕ) → T < N * N →
      (mpReduce2k cfg x n (mpReduce2kSetup cfg n)).Repr cfg (T % N : ℕ)) ↔
      ¬ MissesDigit cfg N) ∧
    (MissesDigit cfg N → 2 ^ mpCountBits cfg n = cfg.base + N ∧ mpReduce2kSetup cfg n = 0) := by
  have hkept : MissesDigit cfg N →
      2 ^ mpCountBits cfg n = cfg.base + N ∧ mpReduce2kSetup cfg n = 0 := by
    rintro ⟨k, hk, hlt, rfl⟩
    refine ⟨?_, (mpReduceIs2k_of_missesDigit hn hk hlt).2.2.2⟩
    rw [mpCountBits_eq hn, Int.natAbs_natCast, size_of_missesDigit (by omega)]
    exact two_pow_eq_base_add cfg k
  refine ⟨⟨?_, ?_⟩, hkept⟩
  · intro h hmiss
    have hsetup := (hkept hmiss).2
    obtain ⟨k, hk, hlt, rfl⟩ := hmiss
    have hbits : Nat.size (cfg.base * (2 ^ k - 1)) = cfg.digitBit + k :=
      size_of_missesDigit (by omega)
    have hfour : 2 ^ 2 ≤ 2 ^ k := Nat.pow_le_pow_right two_pos hk
    have hbase := cfg.one_lt_base
    have hthree : cfg.base * 3 ≤ cfg.base * (2 ^ k - 1) := Nat.mul_le_mul_left _ (by omega)
    have hpow := two_pow_eq_base_add cfg k
    have hsquare := Nat.mul_le_mul_right (cfg.base * (2 ^ k - 1)) (by omega : 2 ≤ cfg.base *
      (2 ^ k - 1))
    -- the power of two above the modulus is reduced to zero
    have hx := mp2expt_repr (@mpInit_valid cfg) (cfg.digitBit + k)
    have hright := h _ _ hx (by omega)
    have hzero := mpReduce2k_zero hn hx (by rw [hbits, Nat.mod_self]; omega)
    rw [hbits, Nat.mod_self] at hzero
    rw [hsetup] at hright
    have heq := hzero.mag_natCast.symm.trans hright.mag_natCast
    rw [hpow, Nat.add_mod_right, Nat.mod_eq_of_lt (by omega)] at heq
    omega
  · intro hmiss x T hx hT
    have hN : 0 < N := Nat.pos_of_ne_zero fun h ↦ by
      rw [h, zero_mul] at hT
      exact Nat.not_lt_zero T hT
    rcases mpReduceIs2k_cases hn hL his with hD | rfl | hmisses
    · exact mpReduce2k_repr hn hN hD hx hT
    · exact mpReduce2k_base hn hx hT
    · exact absurd hmisses hmiss

theorem reduction_2k_misses :
    (¬ ∀ (x : MpInt) (T : ℕ), x.Repr mp28 (T : ℕ) → T < mp28.base * 3 * (mp28.base * 3) →
      (mpReduce2k mp28 x (mpMul2d mp28 (mpSet mp28 mpInit 3) 28 mpInit)
        (mpReduce2kSetup mp28 (mpMul2d mp28 (mpSet mp28 mpInit 3) 28 mpInit))).Repr mp28
        (T % (mp28.base * 3) : ℕ)) ∧
      mpReduce2kSetup mp28 (mpMul2d mp28 (mpSet mp28 mpInit 3) 28 mpInit) = 0 := by
  have hn := (mpMul2d_repr (one_digit mp28 (by decide : 3 < 2 ^ 8)) (@mpInit_valid mp28) 28).cast
    (by rfl : _ = ((mp28.base * (2 ^ 2 - 1) : ℕ) : ℤ))
  obtain ⟨hL, -, his, -⟩ := mpReduceIs2k_of_missesDigit hn le_rfl (by decide)
  obtain ⟨hiff, hkept⟩ := reduction_2k_iff hn hL his
  have hmiss : MissesDigit mp28 (mp28.base * (2 ^ 2 - 1)) := ⟨2, le_rfl, by decide, rfl⟩
  exact ⟨fun h ↦ hiff.mp h hmiss, (hkept hmiss).2⟩

/-! ## Modular powers -/

/-- `mp_exptmod` is right for every number and every exponent that is not negative exactly if the
modulus does not miss its digit; if it does, the power of two that is the base modulo the modulus
comes out as zero. -/
theorem exptmod_iff (hn : n.Repr cfg (N : ℕ)) (hN : 1 < N) (hfits : FitsReduce cfg n N) :
    ((∀ (g x : MpInt) (v : ℤ) (X : ℕ), g.Repr cfg v → x.Repr cfg (X : ℕ) →
      ∃ out, mpExptmod cfg (longMul cfg) g x n = .ok out ∧ out.Repr cfg (v ^ X % N)) ↔
      ¬ MissesDigit cfg N) ∧
    ∀ (g x : MpInt) (k : ℕ), 2 ≤ k → k < cfg.digitBit → N = cfg.base * (2 ^ k - 1) →
      g.Repr cfg 2 → x.Repr cfg (cfg.digitBit + k : ℕ) →
      ∃ out, mpExptmod cfg (longMul cfg) g x n = .ok out ∧ out.Repr cfg 0 := by
  have hlost : ∀ (g x : MpInt) (k : ℕ), 2 ≤ k → k < cfg.digitBit → N = cfg.base * (2 ^ k - 1) →
      g.Repr cfg 2 → x.Repr cfg (cfg.digitBit + k : ℕ) →
      ∃ out, mpExptmod cfg (longMul cfg) g x n = .ok out ∧ out.Repr cfg 0 := by
    rintro g x k hk hlt rfl hg hx
    rw [mpExptmod_eq_pos hn hx]
    exact exptmodPos_missesDigit (fun m ↦ longMul_multiplies cfg m) hn hk hlt hg hx
  refine ⟨⟨?_, ?_⟩, hlost⟩
  · rintro h ⟨k, hk, hlt, rfl⟩
    have hfour : 2 ^ 2 ≤ 2 ^ k := Nat.pow_le_pow_right two_pos hk
    have hbase := cfg.one_lt_base
    have hthree : cfg.base * 3 ≤ cfg.base * (2 ^ k - 1) := Nat.mul_le_mul_left _ (by omega)
    -- the exponent that makes two the base
    have hbits : cfg.digitBit + k < cfg.base := by
      obtain ⟨j, hj⟩ := Nat.exists_eq_succ_of_ne_zero (Nat.ne_zero_of_lt cfg.lt_digitBit)
      have hself := @Nat.lt_two_pow_self j
      rw [base, hj, pow_succ]
      omega
    have hx := @mpSet_repr cfg mpInit (cfg.digitBit + k) mpInit_valid hbits
    have hg := (@mpSet_repr cfg mpInit 2 mpInit_valid (by omega)).cast Nat.cast_ofNat
    obtain ⟨out, hok, hright⟩ := h _ _ _ _ hg hx
    obtain ⟨out', hok', hwrong⟩ := hlost _ _ k hk hlt rfl hg hx
    rw [hok', Except.ok.injEq] at hok
    subst hok
    have hzero := hwrong.toInt_eq.symm.trans hright.toInt_eq
    have hpow : 2 ^ (cfg.digitBit + k) = cfg.base + cfg.base * (2 ^ k - 1) :=
      two_pow_eq_base_add cfg k
    have hvalue : 2 ^ (cfg.digitBit + k) % (cfg.base * (2 ^ k - 1)) = cfg.base := by
      rw [hpow, Nat.add_mod_right, Nat.mod_eq_of_lt (by omega)]
    have hcast : ((2 ^ (cfg.digitBit + k) % (cfg.base * (2 ^ k - 1)) : ℕ) : ℤ) = 0 := by
      rw [hzero]
      push_cast
      rfl
    omega
  · intro hmiss g x v X hg hx
    exact mpExptmod_repr (fun m ↦ longMul_multiplies cfg m) hn hN hfits hmiss hg hx

theorem exptmod_misses :
    (¬ ∀ (g x : MpInt) (v : ℤ) (X : ℕ), g.Repr mp28 v → x.Repr mp28 (X : ℕ) →
      ∃ out, mpExptmod mp28 (longMul mp28) g x (mpMul2d mp28 (mpSet mp28 mpInit 3) 28 mpInit) =
        .ok out ∧ out.Repr mp28 (v ^ X % (mp28.base * 3 : ℕ))) ∧
      ∃ out, mpExptmod mp28 (longMul mp28) (mpSet mp28 mpInit 2) (mpSet mp28 mpInit 30)
        (mpMul2d mp28 (mpSet mp28 mpInit 3) 28 mpInit) = .ok out ∧ out.Repr mp28 0 := by
  have hn := (mpMul2d_repr (one_digit mp28 (by decide : 3 < 2 ^ 8)) (@mpInit_valid mp28) 28).cast
    (by rfl : _ = ((mp28.base * 3 : ℕ) : ℤ))
  have hfits : FitsReduce mp28 (mpMul2d mp28 (mpSet mp28 mpInit 3) 28 mpInit) (mp28.base * 3) :=
    .inr (by decide +kernel)
  obtain ⟨hiff, hlost⟩ := exptmod_iff hn (by decide) hfits
  refine ⟨fun h ↦ hiff.mp h ⟨2, le_rfl, by decide, rfl⟩, ?_⟩
  exact hlost _ _ 2 le_rfl (by decide) rfl
    ((one_digit mp28 (by decide : 2 < 2 ^ 8)).cast Nat.cast_ofNat)
    (one_digit mp28 (by decide : 30 < 2 ^ 8))

/-- A negative exponent: the result is the inverse of the power, up to a sign for a negative
number and an odd modulus, and it is an error if there is none. -/
theorem exptmod_of_negative {X : ℤ} (hn : n.Repr cfg (N : ℕ)) (hN : 1 < N)
    (hfits : FitsReduce cfg n N) (hmiss : ¬ MissesDigit cfg N) (ha : a.Repr cfg v)
    (hx : x.Repr cfg X) (hX : X < 0) :
    if v.gcd N = 1 then
      ∃ (out : MpInt) (r : ℕ), mpExptmod cfg (longMul cfg) a x n = .ok out ∧ out.Repr cfg r ∧
        r < N ∧ r * v ^ X.natAbs ≡ (if v < 0 ∧ (N : ℤ) % 2 = 1 then -1 else 1) ^ X.natAbs [ZMOD N]
    else mpExptmod cfg (longMul cfg) a x n = .error .val := by
  have hinv := mpInvmod_repr ha hn
  have hsign : x.sign = .neg := by rw [hx.sign_eq, if_pos hX]
  have hcall : mpExptmod cfg (longMul cfg) a x n = (do
      let tmpG ← mpInvmod cfg a n
      exptmodPos cfg (longMul cfg) tmpG (mpAbs x mpInit) n) := by
    rw [mpExptmod, hn.sign_natCast, hsign]
    rfl
  split
  · next h =>
    rw [if_pos ⟨by exact_mod_cast hN, h⟩] at hinv
    obtain ⟨c, hok, r, -, hprod, hc⟩ := hinv
    have habs := (hx.abs mpInit_valid).cast (Int.abs_eq_natAbs X)
    obtain ⟨out, hout, hrepr⟩ := exptmodPos_repr (fun m ↦ longMul_multiplies cfg m) hn hN hfits
      hmiss hc habs
    have hnonneg := Int.emod_nonneg ((if v < 0 ∧ (N : ℤ) % 2 = 1 then -(r : ℤ) else r) ^ X.natAbs)
      (by omega : (N : ℤ) ≠ 0)
    have hlt := Int.emod_lt_of_pos ((if v < 0 ∧ (N : ℤ) % 2 = 1 then -(r : ℤ) else r) ^ X.natAbs)
      (by omega : (0 : ℤ) < N)
    obtain ⟨t, ht⟩ := Int.eq_ofNat_of_zero_le hnonneg
    refine ⟨out, t, ?_, hrepr.cast ht, by omega, ?_⟩
    · rw [hcall, hok]
      exact hout
    · rw [← ht]
      refine ((Int.mod_modEq _ _).mul_right _).trans ?_
      rw [← mul_pow]
      refine Int.ModEq.pow _ ?_
      split
      · rw [neg_mul]
        exact hprod.neg
      · exact hprod
  · next h =>
    rw [if_neg fun hand ↦ h hand.2] at hinv
    rw [hcall, hinv]
    rfl

theorem exptmod_of_minus_one :
    ∃ (out : MpInt) (r : ℕ), mpExptmod mp28 (longMul mp28) (mpSet mp28 mpInit 3)
      (mpSub mp28 mpInit (mpSet mp28 mpInit 1) mpInit) (mpSet mp28 mpInit 7) = .ok out ∧
        out.Repr mp28 r ∧ r * 3 ≡ 1 [ZMOD 7] := by
  have hneg := (mpSub_repr (mpInit_repr mp28) (one_digit mp28 (by decide : 1 < 2 ^ 8))
    mpInit_valid).cast (by decide : _ = (-1 : ℤ))
  have hmiss : ¬ MissesDigit mp28 7 := by
    rintro ⟨k, hk, -, heq⟩
    have hle : 2 ^ 28 ∣ 7 := Dvd.intro _ heq.symm
    exact absurd hle (by decide)
  have h := exptmod_of_negative (one_digit mp28 (by decide : 7 < 2 ^ 8)) (by decide) (.inl rfl)
    hmiss ((one_digit mp28 (by decide : 3 < 2 ^ 8)).cast Nat.cast_ofNat) hneg (by decide)
  rw [if_pos (by decide)] at h
  obtain ⟨out, r, hok, hout, -, hprod⟩ := h
  rw [if_neg (by decide)] at hprod
  exact ⟨out, r, hok, hout, by simpa using hprod⟩

end Mp

end SecureIIoT
