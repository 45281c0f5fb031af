import SecureIIoT.DemoKey
import SecureIIoT.Host.Keygen
import SecureIIoT.Lib.Sampling
import SecureIIoT.TA.Paillier

/-!
# The randomisers

Which numbers `generate_coprime_r` and the loop of `paillier_host_encrypt_u32` go on
with.  Both go on with units only: the host with the first that is drawn, although a zero
is followed by a test of the `gcd` of the draw before (`drawUnit_some`), and the TA with
the first among 16 draws, reduced modulo `n` (`generateCoprimeR_eq_ok_iff`).  A unit makes
a ciphertext that is a unit (`randomiser_unit`).

The host's draws are uniform below `n`.  The TA's are the residues of 64 uniform bytes,
and the modulus does not divide `2 ^ 512`: the residues below `2 ^ 512 % n` are drawn from
two byte strings each, the others from one (`coprimeAttempt_uniform_iff`).
-/

namespace SecureIIoT

open ByteString Modexp

/-! ## The loop of the host -/

namespace Host

/-- The loop ends with a draw that is not zero and is coprime to `n`: the `gcd` that is
left from a round before is never one. -/
theorem drawUnit_some {rand : ℕ → ℕ} {n fuel call gcd r : ℕ} (hgcd : gcd ≠ 1)
    (h : drawUnit rand n fuel call gcd = some r) :
    r ≠ 0 ∧ r.Coprime n ∧ ∃ i, rand i = r := by
  induction fuel generalizing call gcd with
  | zero => cases h
  | succ fuel ih =>
      rw [drawUnit] at h
      by_cases hzero : rand call = 0
      · rw [if_pos hzero, if_neg hgcd] at h
        exact ih hgcd h
      · rw [if_neg hzero] at h
        by_cases hunit : (rand call).gcd n = 1
        · rw [if_pos hunit] at h
          cases h
          exact ⟨hzero, hunit, call, rfl⟩
        · rw [if_neg hunit] at h
          exact ih hunit h

end Host

/-! ## The attempts of the TA -/

namespace TA

/-- What an attempt reduces its draw to. -/
def residue (n : ℕ) (bytes : Vector UInt8 64) : ℕ :=
  ofBE bytes.toList % n

/-- A draw whose residue is a unit, where zero counts as none. -/
def DrawsUnit (n : ℕ) (bytes : Vector UInt8 64) : Prop :=
  residue n bytes ≠ 0 ∧ (residue n bytes).Coprime n

instance (n : ℕ) : DecidablePred (DrawsUnit n) :=
  fun _ ↦ inferInstanceAs (Decidable (_ ∧ _))

/-- The calls of an attempt succeed; a zero is not handed to `mp_gcd`. -/
def AttemptCalls (mp : LibTomMath) (n attempt : ℕ) (bytes : Vector UInt8 64) : Prop :=
  mp.call (.fromUbinR attempt) = .ok () ∧ mp.call (.modR attempt) = .ok () ∧
    (residue n bytes ≠ 0 → mp.call (.gcdR attempt) = .ok ())

theorem attemptCalls_exact (n attempt : ℕ) (bytes : Vector UInt8 64) :
    AttemptCalls .exact n attempt bytes :=
  ⟨rfl, rfl, fun _ ↦ rfl⟩

variable {w : TeeWorld} {n attempt left r : ℕ}

/-- An attempt whose calls succeed returns its residue if that is a unit. -/
theorem coprimeAttempt_eq_ok_iff {mp : LibTomMath} {bytes : Vector UInt8 64} {out : Option ℕ} :
    coprimeAttempt mp n attempt bytes = .ok out ↔
      AttemptCalls mp n attempt bytes ∧
        out = if DrawsUnit n bytes then some (residue n bytes) else none := by
  have hres : ofBE bytes.toList % n = residue n bytes := rfl
  simp only [coprimeAttempt, result_bind_eq_ok, AttemptCalls, and_assoc, hres]
  refine and_congr_right fun _ ↦ and_congr_right fun _ ↦ ?_
  by_cases hzero : residue n bytes = 0
  · have hnone : ¬ DrawsUnit n bytes := fun hunit ↦ hunit.1 hzero
    rw [if_pos hzero, if_neg hnone, and_iff_right fun hne ↦ absurd hzero hne]
    exact ⟨fun h ↦ (Except.ok.inj h).symm, fun h ↦ congrArg Except.ok h.symm⟩
  · have hunit : DrawsUnit n bytes ↔ (residue n bytes).gcd n = 1 := and_iff_right hzero
    rw [if_neg hzero, result_bind_eq_ok]
    refine and_congr ⟨fun h _ ↦ h, fun h ↦ h hzero⟩ ?_
    simp only [hunit]
    exact ⟨fun h ↦ (Except.ok.inj h).symm, fun h ↦ congrArg Except.ok h.symm⟩

/-- The loop returns the residue of the first attempt that draws a unit, and fails where
a call does before it or no attempt is left. -/
theorem coprimeAttempts_eq_ok_iff :
    coprimeAttempts w n left attempt = .ok r ↔
      ∃ i, attempt ≤ i ∧ i < attempt + left ∧
        (∀ j, attempt ≤ j → j ≤ i → AttemptCalls w.mp n j (w.random j)) ∧
        (∀ j, attempt ≤ j → j < i → ¬ DrawsUnit n (w.random j)) ∧
        DrawsUnit n (w.random i) ∧ r = residue n (w.random i) := by
  induction left generalizing attempt with
  | zero =>
      refine iff_of_false (fun h ↦ nomatch h) ?_
      rintro ⟨i, hle, hlt, -⟩
      exact absurd hle (not_le.mpr hlt)
  | succ left ih =>
      simp only [coprimeAttempts, except_bind_eq_ok, coprimeAttempt_eq_ok_iff]
      constructor
      · rintro ⟨out, ⟨hcalls, rfl⟩, h⟩
        by_cases hunit : DrawsUnit n (w.random attempt)
        · rw [if_pos hunit] at h
          cases h
          refine ⟨attempt, le_rfl, by omega, ?_, ?_, hunit, rfl⟩
          · intro j hle hge
            rwa [hge.antisymm hle]
          · intro j hle hlt
            exact absurd hle (not_le.mpr hlt)
        · rw [if_neg hunit] at h
          obtain ⟨i, hle, hlt, hcall, hnone, hi, hr⟩ := ih.mp h
          refine ⟨i, by omega, by omega, ?_, ?_, hi, hr⟩
          · intro j hj hji
            rcases hj.eq_or_lt with rfl | hj
            · exact hcalls
            · exact hcall j hj hji
          · intro j hj hji
            rcases hj.eq_or_lt with rfl | hj
            · exact hunit
            · exact hnone j hj hji
      · rintro ⟨i, hle, hlt, hcall, hnone, hi, rfl⟩
        refine ⟨_, ⟨hcall attempt le_rfl hle, rfl⟩, ?_⟩
        rcases hle.eq_or_lt with rfl | hle
        · rw [if_pos hi]
          rfl
        · rw [if_neg (hnone attempt le_rfl hle)]
          refine ih.mpr ⟨i, hle, by omega, ?_, ?_, hi, rfl⟩
          · exact fun j hj ↦ hcall j (by omega)
          · exact fun j hj ↦ hnone j (by omega)

/-- `generate_coprime_r` returns the first of 16 residues that is a unit. -/
theorem generateCoprimeR_eq_ok_iff :
    generateCoprimeR w n = .ok r ↔
      w.mp.call .initGcd = .ok () ∧ ∃ i < 16, (∀ j ≤ i, AttemptCalls w.mp n j (w.random j)) ∧
        (∀ j < i, ¬ DrawsUnit n (w.random j)) ∧ DrawsUnit n (w.random i) ∧
        r = residue n (w.random i) := by
  rw [generateCoprimeR, result_bind_eq_ok, coprimeAttempts_eq_ok_iff]
  simp [paillierTaRandomAttempts]

/-- Without library faults it succeeds if there is one. -/
theorem generateCoprimeR_succeeds_iff (hmp : w.mp = .exact) :
    (∃ r, generateCoprimeR w n = .ok r) ↔ ∃ i < 16, DrawsUnit n (w.random i) := by
  simp only [generateCoprimeR_eq_ok_iff, hmp]
  constructor
  · rintro ⟨r, -, i, hi, -, -, hunit, -⟩
    exact ⟨i, hi, hunit⟩
  · rintro ⟨i, hi, hunit⟩
    have hexists : ∃ i, DrawsUnit n (w.random i) := ⟨i, hunit⟩
    refine ⟨_, rfl, Nat.find hexists, ?_, fun j _ ↦ attemptCalls_exact n j _,
      fun j ↦ Nat.find_min hexists, Nat.find_spec hexists, rfl⟩
    exact (Nat.find_min' hexists hunit).trans_lt hi

end TA

/-! ## What a unit makes -/

/-- A power of the generator times an `n`-th power of a unit is a unit modulo `n ^ 2`. -/
theorem ciphertext_unit {n g r : ℕ} (hn : 1 < n) (hg : g.Coprime n) (hr : r.Coprime n) (m : ℕ) :
    0 < g ^ m * r ^ n % n ^ 2 ∧ g ^ m * r ^ n % n ^ 2 < n ^ 2 ∧
      (g ^ m * r ^ n % n ^ 2).Coprime n := by
  have hproduct : (g ^ m * r ^ n).Coprime n := (hg.pow_left m).mul_left (hr.pow_left n)
  have hmod : g ^ m * r ^ n % n ^ 2 ≡ g ^ m * r ^ n [MOD n] :=
    (Nat.mod_modEq _ _).of_dvd (dvd_pow_self n two_ne_zero)
  have hcoprime : (g ^ m * r ^ n % n ^ 2).Coprime n := hmod.gcd_eq.trans hproduct
  refine ⟨Nat.pos_of_ne_zero ?_, Nat.mod_lt _ (pow_pos (Nat.zero_lt_of_lt hn) 2), hcoprime⟩
  intro hzero
  rw [hzero, Nat.coprime_zero_left] at hcoprime
  exact hn.ne' hcoprime

/-- The draw that the host's loop ends with is a unit below `n`; `generate_coprime_r`
returns the first of 16 residues that is one, and fails if there is none; and what either
side makes of it, for every message, is a unit below `n ^ 2`. -/
theorem randomiser_unit (key : PaillierKey) (hn : 1 < key.n) (hn2 : key.n2 = key.n ^ 2)
    (hg : key.g.Coprime key.n) :
    (∀ (rand : ℕ → ℕ) (fuel r : ℕ), (∀ i, rand i < key.n) →
      Host.drawUnit rand key.n fuel 0 0 = some r → 1 ≤ r ∧ r < key.n ∧ r.gcd key.n = 1) ∧
    (∀ (w : TeeWorld) (r : ℕ), TA.generateCoprimeR w key.n = .ok r ↔
      w.mp.call .initGcd = .ok () ∧
      ∃ i < 16, (∀ j ≤ i, TA.AttemptCalls w.mp key.n j (w.random j)) ∧
        (∀ j < i, ¬ TA.DrawsUnit key.n (w.random j)) ∧ TA.DrawsUnit key.n (w.random i) ∧
        r = TA.residue key.n (w.random i)) ∧
    (∀ w : TeeWorld, w.mp = .exact → ((∃ r, TA.generateCoprimeR w key.n = .ok r) ↔
      ∃ i < 16, TA.DrawsUnit key.n (w.random i))) ∧
    (∀ (rand : ℕ → ℕ) (fuel : ℕ) (m : UInt32) (c : ℕ),
      Host.paillierHostEncryptU32 key rand fuel m = some c →
        0 < c ∧ c < key.n2 ∧ c.Coprime key.n) ∧
    ∀ (real : Bool) (w : TeeWorld) (m : UInt32) (c : ℕ),
      TA.encryptNumber ⟨real, key⟩ w m = .ok c → 0 < c ∧ c < key.n2 ∧ c.Coprime key.n := by
  refine ⟨?_, fun w r ↦ TA.generateCoprimeR_eq_ok_iff, fun w ↦ TA.generateCoprimeR_succeeds_iff,
    ?_, ?_⟩
  · intro rand fuel r hrand h
    obtain ⟨hpos, hunit, i, rfl⟩ := Host.drawUnit_some zero_ne_one h
    exact ⟨Nat.one_le_iff_ne_zero.mpr hpos, hrand i, hunit⟩
  · intro rand fuel m c h
    rw [Host.paillierHostEncryptU32] at h
    cases hdraw : Host.drawUnit rand key.n fuel 0 0 with
    | none =>
      rw [hdraw] at h
      cases h
    | some r =>
      rw [hdraw] at h
      cases h
      obtain ⟨-, hunit, -⟩ := Host.drawUnit_some zero_ne_one hdraw
      rw [powMod_eq, powMod_eq, ← Nat.mul_mod, hn2]
      exact ciphertext_unit hn hg hunit m.toNat
  · intro real w m c h
    obtain ⟨r, hr, rfl⟩ := TA.encryptNumber_ok h
    rw [hn2]
    exact ciphertext_unit hn hg (TA.generateCoprimeR_ok hr) m.toNat

/-- The host draws 0, then a multiple of 3, then 7 under the modulus 15. -/
theorem randomiser_unit_demo :
    Host.drawUnit (fun i ↦ [0, 6, 7].getD i 0) 15 3 0 0 = some 7 ∧ 1 ≤ 7 ∧ 7 < 15 ∧
      Nat.gcd 7 15 = 1 := by
  have hdraw : Host.drawUnit (fun i ↦ [0, 6, 7].getD i 0) 15 3 0 0 = some 7 := by decide
  have hrange (i : ℕ) : [0, 6, 7].getD i 0 < 15 := by
    rcases i with _ | _ | _ | i
    · decide
    · decide
    · decide
    · simp
  exact ⟨hdraw, (randomiser_unit ⟨15, 225, 16, 4, 4⟩ (by decide) (by decide)
    (by decide)).1 _ _ _ hrange hdraw⟩

/-! ## The distribution of the TA's draws -/

/-- An attempt returns a unit for the byte strings that reduce to it. -/
theorem TA.coprimeAttempt_unit_iff {n attempt r : ℕ} (hpos : 1 ≤ r) (hunit : r.Coprime n)
    (bytes : Vector UInt8 64) :
    TA.coprimeAttempt .exact n attempt bytes = .ok (some r) ↔ ofBE bytes.toList % n = r := by
  rw [coprimeAttempt_eq_ok_iff, and_iff_right (attemptCalls_exact n attempt bytes)]
  constructor
  · intro h
    split at h
    · exact (Option.some.inj h).symm
    · cases h
  · rintro rfl
    have hdraws : DrawsUnit n bytes := ⟨Nat.one_le_iff_ne_zero.mp hpos, hunit⟩
    rw [if_pos hdraws, residue]

theorem paillierNHex_mod : 256 ^ 64 % TA.paillierNHex = 2 ^ 512 - TA.paillierNHex := by
  decide +kernel

/-- Two units of the fixed modulus are drawn from equally many byte strings exactly if
both or neither of them are below `2 ^ 512 - n`. -/
theorem coprimeAttempt_uniform_iff (attempt : ℕ) {r r' : ℕ}
    (hr : 1 ≤ r ∧ r < TA.paillierNHex ∧ r.Coprime TA.paillierNHex)
    (hr' : 1 ≤ r' ∧ r' < TA.paillierNHex ∧ r'.Coprime TA.paillierNHex) :
    {bytes | TA.coprimeAttempt .exact TA.paillierNHex attempt bytes = .ok (some r)}.ncard =
      {bytes | TA.coprimeAttempt .exact TA.paillierNHex attempt bytes = .ok (some r')}.ncard ↔
    (r < 2 ^ 512 - TA.paillierNHex ↔ r' < 2 ^ 512 - TA.paillierNHex) := by
  simp only [TA.coprimeAttempt_unit_iff hr.1 hr.2.2, TA.coprimeAttempt_unit_iff hr'.1 hr'.2.2,
    ncard_mod_eq_iff hr.2.1 hr'.2.1, paillierNHex_mod]

/-- 1 and 2 are drawn equally often. -/
theorem coprimeAttempt_uniform_demo :
    {bytes | TA.coprimeAttempt .exact TA.paillierNHex 0 bytes = .ok (some 1)}.ncard =
      {bytes | TA.coprimeAttempt .exact TA.paillierNHex 0 bytes = .ok (some 2)}.ncard ↔
    (1 < 2 ^ 512 - TA.paillierNHex ↔ 2 < 2 ^ 512 - TA.paillierNHex) :=
  coprimeAttempt_uniform_iff 0 (by decide +kernel) (by decide +kernel)

/-- The unit 1 is drawn twice as often as the unit `2 ^ 512 - n`. -/
theorem coprimeAttempt_biased :
    (1 ≤ 2 ^ 512 - TA.paillierNHex ∧ 2 ^ 512 - TA.paillierNHex < TA.paillierNHex ∧
      (2 ^ 512 - TA.paillierNHex).Coprime TA.paillierNHex) ∧
    {bytes | TA.coprimeAttempt .exact TA.paillierNHex 0 bytes = .ok (some 1)}.ncard = 2 ∧
    {bytes | TA.coprimeAttempt .exact TA.paillierNHex 0 bytes =
      .ok (some (2 ^ 512 - TA.paillierNHex))}.ncard = 1 := by
  have hbound : 1 ≤ 2 ^ 512 - TA.paillierNHex ∧
      2 ^ 512 - TA.paillierNHex < TA.paillierNHex ∧
      (2 ^ 512 - TA.paillierNHex).Coprime TA.paillierNHex := by decide +kernel
  refine ⟨hbound, ?_, ?_⟩
  · simp only [TA.coprimeAttempt_unit_iff le_rfl (Nat.coprime_one_left _)]
    rw [ncard_mod_eq (by decide +kernel), paillierNHex_mod]
    decide +kernel
  · simp only [TA.coprimeAttempt_unit_iff hbound.1 hbound.2.2]
    rw [ncard_mod_eq hbound.2.1, paillierNHex_mod]
    decide +kernel

end SecureIIoT
