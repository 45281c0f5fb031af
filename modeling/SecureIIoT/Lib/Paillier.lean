import Mathlib.NumberTheory.ArithmeticFunction.Carmichael
import Mathlib.NumberTheory.Basic

/-!
# The Paillier scheme over a product of two odd primes

For `n = p * q` and `λ = lcm (p - 1) (q - 1)`, the ciphertexts of a message `m` are
the residues `(n + 1) ^ m * r ^ n` modulo `n ^ 2`, one for each unit `r` modulo `n`.
The facts a decryptor rests on are all here:

* `IsCiphertext.pow_lam`: raising a ciphertext of `m` to the power `λ` leaves
  `(m * λ) * n + 1`, whatever the unit was;
* `exists_isCiphertext`: when `λ` is coprime to `n`, every unit modulo `n ^ 2` is a
  ciphertext, and `IsCiphertext.modEq` makes its message unique modulo `n`;
* `dvd_pow_lam_sub_one_iff`: `c ^ λ - 1` is a multiple of `n` exactly for the units,
  so the test a decryptor makes before it divides is the test for being a ciphertext;
* `IsCiphertext.mul`: the product of two ciphertexts is one of the sum.

The last section is about the residues divisible by one of the two primes only, on
which division without that test still yields a number: `half_modEq` shows that this
number is the same for all of them modulo that prime.
-/

namespace Paillier

/-- Two distinct odd primes. -/
structure Modulus where
  p : ℕ
  q : ℕ
  p_prime : p.Prime
  q_prime : q.Prime
  p_odd : p ≠ 2
  q_odd : q ≠ 2
  ne : p ≠ q

namespace Modulus

variable (M : Modulus)

/-- The public modulus. -/
def n : ℕ := M.p * M.q

/-- The exponent of the units modulo `n`. -/
def lam : ℕ := Nat.lcm (M.p - 1) (M.q - 1)

/-- The same modulus with its primes exchanged. -/
def swap : Modulus := ⟨M.q, M.p, M.q_prime, M.p_prime, M.q_odd, M.p_odd, M.ne.symm⟩

@[simp] theorem swap_n : M.swap.n = M.n := Nat.mul_comm _ _

@[simp] theorem swap_lam : M.swap.lam = M.lam := Nat.lcm_comm _ _

theorem p_gt_two : 2 < M.p := lt_of_le_of_ne M.p_prime.two_le M.p_odd.symm

theorem q_gt_two : 2 < M.q := lt_of_le_of_ne M.q_prime.two_le M.q_odd.symm

theorem one_lt_n : 1 < M.n := by
  exact lt_of_lt_of_le M.p_prime.one_lt (Nat.le_mul_of_pos_right _ M.q_prime.pos)

theorem n_pos : 0 < M.n := lt_trans Nat.zero_lt_one M.one_lt_n

theorem n_lt_sq : M.n < M.n ^ 2 := by
  rw [sq]
  exact (Nat.lt_mul_iff_one_lt_right M.n_pos).mpr M.one_lt_n

theorem coprime_primes : M.p.Coprime M.q :=
  (Nat.coprime_primes M.p_prime M.q_prime).mpr M.ne

theorem one_lt_lam : 1 < M.lam := by
  have hdvd : M.p - 1 ∣ M.lam := Nat.dvd_lcm_left _ _
  have hp := M.p_gt_two
  have hq := M.q_gt_two
  have hpos : 0 < M.lam := Nat.lcm_pos (by omega) (by omega)
  exact lt_of_lt_of_le (by omega) (Nat.le_of_dvd hpos hdvd)

/-- `λ` is the Carmichael function of `n`. -/
theorem lam_eq_carmichael : M.lam = ArithmeticFunction.carmichael M.n := by
  have hprime {s : ℕ} (hs : s.Prime) (hs₂ : s ≠ 2) :
      ArithmeticFunction.carmichael s = s - 1 := by
    have h := ArithmeticFunction.carmichael_pow_of_prime_ne_two 1 hs hs₂
    rwa [pow_one, Nat.totient_prime hs] at h
  rw [n, ArithmeticFunction.carmichael_mul M.coprime_primes, hprime M.p_prime M.p_odd,
    hprime M.q_prime M.q_odd, lam]

/-- The power `λ` of a unit modulo `n` is one. -/
theorem pow_lam_modEq_one {c : ℕ} (hc : c.Coprime M.n) : c ^ M.lam ≡ 1 [MOD M.n] := by
  have hunit := ArithmeticFunction.pow_carmichael (ZMod.unitOfCoprime c hc)
  have hcast : ((c ^ M.lam : ℕ) : ZMod M.n) = ((1 : ℕ) : ZMod M.n) := by
    have h := congrArg Units.val hunit
    rw [← M.lam_eq_carmichael] at h
    simpa using h
  exact (ZMod.natCast_eq_natCast_iff _ _ _).mp hcast

/-- The power `n` only depends on the residue modulo `n`, even modulo `n ^ 2`. -/
theorem pow_n_modEq {a b : ℕ} (h : a ≡ b [MOD M.n]) : a ^ M.n ≡ b ^ M.n [MOD M.n ^ 2] := by
  have hdvd : (M.n : ℤ) ∣ (a : ℤ) - b := (Nat.modEq_iff_dvd.mp h.symm)
  have hpow := dvd_sub_pow_of_dvd_sub hdvd 1
  rw [pow_one] at hpow
  refine (Nat.modEq_iff_dvd.mpr ?_).symm
  push_cast
  exact hpow

/-! ## One plus a multiple of `n` -/

/-- The residues `x * n + 1` multiply by adding their `x`. -/
theorem succ_mul_succ_modEq (x y : ℕ) :
    (x * M.n + 1) * (y * M.n + 1) ≡ (x + y) * M.n + 1 [MOD M.n ^ 2] := by
  have h : (x * M.n + 1) * (y * M.n + 1) = (x + y) * M.n + 1 + M.n ^ 2 * (x * y) := by ring
  rw [h, Nat.ModEq, Nat.add_mul_mod_self_left]

/-- The power of one of them multiplies its `x`. -/
theorem succ_pow_modEq (x k : ℕ) : (x * M.n + 1) ^ k ≡ (x * k) * M.n + 1 [MOD M.n ^ 2] := by
  induction k with
  | zero => simp [Nat.ModEq.refl]
  | succ k ih =>
      calc (x * M.n + 1) ^ (k + 1) = (x * M.n + 1) ^ k * (x * M.n + 1) := pow_succ _ _
        _ ≡ (x * k * M.n + 1) * (x * M.n + 1) [MOD M.n ^ 2] := ih.mul_right _
        _ ≡ (x * k + x) * M.n + 1 [MOD M.n ^ 2] := M.succ_mul_succ_modEq _ _
        _ = x * (k + 1) * M.n + 1 := by rw [Nat.mul_succ]

/-- The generator's powers. -/
theorem generator_pow_modEq (m : ℕ) : (M.n + 1) ^ m ≡ m * M.n + 1 [MOD M.n ^ 2] := by
  simpa using M.succ_pow_modEq 1 m

/-- They only depend on `x` modulo `n`. -/
theorem succ_modEq_iff {x y : ℕ} :
    x * M.n + 1 ≡ y * M.n + 1 [MOD M.n ^ 2] ↔ x ≡ y [MOD M.n] := by
  rw [sq]
  refine ⟨fun h ↦ ?_, fun h ↦ (h.mul_right' M.n).add_right 1⟩
  exact Nat.ModEq.mul_right_cancel' M.n_pos.ne' (Nat.ModEq.add_right_cancel' 1 h)

/-- The reduced form of such a residue. -/
theorem succ_mod (x : ℕ) : (x * M.n + 1) % M.n ^ 2 = x % M.n * M.n + 1 := by
  have hlt : x % M.n * M.n + 1 < M.n ^ 2 := by
    have hx : x % M.n + 1 ≤ M.n := Nat.mod_lt x M.n_pos
    have hmul : (x % M.n + 1) * M.n ≤ M.n * M.n := Nat.mul_le_mul_right _ hx
    have hn := M.one_lt_n
    rw [sq]
    rw [add_one_mul] at hmul
    omega
  rw [← Nat.mod_eq_of_lt hlt]
  exact M.succ_modEq_iff.mpr (Nat.mod_modEq x M.n).symm

/-! ## Usable prime pairs

The scheme works if `λ` is coprime to `n`, that is if neither prime divides the other one
less one. -/

theorem dvd_lam_iff : M.p ∣ M.lam ↔ M.p ∣ M.q - 1 := by
  have hp := M.p_gt_two
  have hself : ¬ M.p ∣ M.p - 1 := Nat.not_dvd_of_pos_of_lt (by omega) (by omega)
  constructor
  · intro hdvd
    have hmul : M.p ∣ (M.p - 1) * (M.q - 1) := hdvd.trans (Nat.lcm_dvd_mul _ _)
    exact ((M.p_prime.dvd_mul).mp hmul).resolve_left hself
  · intro hdvd
    exact hdvd.trans (Nat.dvd_lcm_right _ _)

theorem lam_coprime_iff : M.lam.Coprime M.n ↔ ¬ M.p ∣ M.q - 1 ∧ ¬ M.q ∣ M.p - 1 := by
  have hq : M.q ∣ M.lam ↔ M.q ∣ M.p - 1 := by
    rw [← M.swap_lam]
    exact M.swap.dvd_lam_iff
  rw [n, Nat.coprime_mul_iff_right, Nat.coprime_comm, M.p_prime.coprime_iff_not_dvd,
    M.dvd_lam_iff, Nat.coprime_comm, M.q_prime.coprime_iff_not_dvd, hq]

/-- An odd prime divides no number less one that is an odd prime below its double. -/
theorem not_dvd_pred_of_lt {M : Modulus} (h : M.q < 2 * M.p) : ¬ M.p ∣ M.q - 1 := by
  rintro ⟨k, hk⟩
  have hq := M.q_gt_two
  have hp := M.p_gt_two
  match k with
  | 0 => omega
  | 1 =>
    -- The other prime would be the next number, which is even.
    obtain ⟨i, hi⟩ := M.p_prime.odd_of_ne_two M.p_odd
    obtain ⟨j, hj⟩ := M.q_prime.odd_of_ne_two M.q_odd
    omega
  | k + 2 =>
    have hle : 2 * M.p ≤ M.p * (k + 2) := by
      rw [mul_comm 2]
      exact Nat.mul_le_mul_left _ (Nat.le_add_left _ _)
    omega

/-- Primes of about the same size are usable. -/
theorem lam_coprime_of_lt_two_mul (hp : M.p < 2 * M.q) (hq : M.q < 2 * M.p) :
    M.lam.Coprime M.n := by
  have hswap : ¬ M.swap.p ∣ M.swap.q - 1 := not_dvd_pred_of_lt hp
  exact M.lam_coprime_iff.mpr ⟨not_dvd_pred_of_lt hq, hswap⟩

/-- What the division leaves of the generator's power `λ`. -/
theorem generator_quotient : ((M.n + 1) ^ M.lam % M.n ^ 2 - 1) / M.n = M.lam % M.n := by
  rw [M.generator_pow_modEq M.lam, M.succ_mod, Nat.add_sub_cancel, Nat.mul_div_cancel _ M.n_pos]

/-! ## Ciphertexts -/

/-- The encryption of `m` under the randomiser `r`. -/
def enc (m r : ℕ) : ℕ := (M.n + 1) ^ m * r ^ M.n % M.n ^ 2

/-- `c` is an encryption of `m` under some unit modulo `n`. -/
def IsCiphertext (m c : ℕ) : Prop := ∃ r, r.Coprime M.n ∧ c = M.enc m r

variable {M} {m m' c c' r r' : ℕ}

theorem enc_modEq : M.enc m r ≡ (M.n + 1) ^ m * r ^ M.n [MOD M.n ^ 2] := Nat.mod_modEq _ _

theorem enc_lt : M.enc m r < M.n ^ 2 := Nat.mod_lt _ (pow_pos M.n_pos 2)

theorem IsCiphertext.lt (h : M.IsCiphertext m c) : c < M.n ^ 2 := by
  obtain ⟨r, -, rfl⟩ := h
  exact enc_lt

theorem generator_coprime : ((M.n + 1) ^ m).Coprime M.n :=
  Nat.Coprime.pow_left m (by simp)

/-- Being coprime to `n` only depends on the residue modulo `n ^ 2`. -/
theorem coprime_mod_sq_iff : (c % M.n ^ 2).Coprime M.n ↔ c.Coprime M.n := by
  have h : c % M.n ^ 2 ≡ c [MOD M.n] := (Nat.mod_modEq c (M.n ^ 2)).of_dvd (Dvd.intro_left _ rfl)
  rw [Nat.Coprime, Nat.Coprime, h.gcd_eq]

theorem IsCiphertext.coprime (h : M.IsCiphertext m c) : c.Coprime M.n := by
  obtain ⟨r, hr, rfl⟩ := h
  rw [enc, coprime_mod_sq_iff]
  exact generator_coprime.mul_left (Nat.Coprime.pow_left M.n hr)

theorem IsCiphertext.pos (h : M.IsCiphertext m c) : 0 < c := by
  rcases Nat.eq_zero_or_pos c with rfl | hc
  · have hn := h.coprime
    rw [Nat.coprime_zero_left] at hn
    exact absurd hn M.one_lt_n.ne'
  · exact hc

/-- One is an encryption of zero. -/
theorem isCiphertext_one : M.IsCiphertext 0 1 := by
  refine ⟨1, Nat.coprime_one_left M.n, ?_⟩
  rw [enc, pow_zero, one_pow, mul_one, Nat.mod_eq_of_lt]
  exact lt_trans M.one_lt_n M.n_lt_sq

theorem enc_mul : M.enc m r * M.enc m' r' % M.n ^ 2 = M.enc (m + m') (r * r') := by
  have h : M.enc m r * M.enc m' r' ≡ (M.n + 1) ^ (m + m') * (r * r') ^ M.n [MOD M.n ^ 2] := by
    calc M.enc m r * M.enc m' r'
        ≡ (M.n + 1) ^ m * r ^ M.n * ((M.n + 1) ^ m' * r' ^ M.n) [MOD M.n ^ 2] :=
          enc_modEq.mul enc_modEq
      _ = (M.n + 1) ^ (m + m') * (r * r') ^ M.n := by rw [pow_add, mul_pow]; ring
  exact h

/-- Multiplying ciphertexts adds their messages. -/
theorem IsCiphertext.mul (h : M.IsCiphertext m c) (h' : M.IsCiphertext m' c') :
    M.IsCiphertext (m + m') (c * c' % M.n ^ 2) := by
  obtain ⟨r, hr, rfl⟩ := h
  obtain ⟨r', hr', rfl⟩ := h'
  exact ⟨r * r', hr.mul_left hr', enc_mul⟩

/-- A message counts modulo `n`. -/
theorem IsCiphertext.congr (h : M.IsCiphertext m c) (hm : m ≡ m' [MOD M.n]) :
    M.IsCiphertext m' c := by
  obtain ⟨r, hr, rfl⟩ := h
  refine ⟨r, hr, ?_⟩
  have hgen : (M.n + 1) ^ m ≡ (M.n + 1) ^ m' [MOD M.n ^ 2] :=
    (M.generator_pow_modEq m).trans
      ((M.succ_modEq_iff.mpr hm).trans (M.generator_pow_modEq m').symm)
  exact hgen.mul_right (r ^ M.n)

/-! ## What the power `λ` leaves -/

theorem enc_pow_lam_modEq (hr : r.Coprime M.n) :
    M.enc m r ^ M.lam ≡ (m * M.lam) * M.n + 1 [MOD M.n ^ 2] := by
  have hunit : (r ^ M.n) ^ M.lam ≡ 1 [MOD M.n ^ 2] := by
    have h := M.pow_n_modEq (M.pow_lam_modEq_one hr)
    rwa [one_pow, pow_right_comm] at h
  calc M.enc m r ^ M.lam
      ≡ ((M.n + 1) ^ m * r ^ M.n) ^ M.lam [MOD M.n ^ 2] := enc_modEq.pow _
    _ = (M.n + 1) ^ (m * M.lam) * (r ^ M.n) ^ M.lam := by rw [mul_pow, pow_mul]
    _ ≡ ((m * M.lam) * M.n + 1) * 1 [MOD M.n ^ 2] :=
        (M.generator_pow_modEq _).mul hunit
    _ = (m * M.lam) * M.n + 1 := mul_one _

/-- The power `λ` of a ciphertext, reduced. -/
theorem IsCiphertext.pow_lam (h : M.IsCiphertext m c) :
    c ^ M.lam % M.n ^ 2 = m * M.lam % M.n * M.n + 1 := by
  obtain ⟨r, hr, rfl⟩ := h
  rw [← M.succ_mod]
  exact enc_pow_lam_modEq hr

/-- `c ^ λ - 1` is a multiple of `n` exactly when `c` is a unit. -/
theorem dvd_pow_lam_sub_one_iff :
    (M.n : ℤ) ∣ ((c ^ M.lam % M.n ^ 2 : ℕ) : ℤ) - 1 ↔ c.Coprime M.n := by
  have hred : c ^ M.lam % M.n ^ 2 ≡ c ^ M.lam [MOD M.n] :=
    (Nat.mod_modEq _ _).of_dvd (Dvd.intro_left _ rfl)
  constructor
  · intro hdvd
    by_contra hc
    obtain ⟨s, hs, hsc, hsn⟩ := Nat.Prime.not_coprime_iff_dvd.mp hc
    have hone : (c ^ M.lam : ℕ) ≡ 1 [MOD s] := by
      refine (hred.symm.trans ?_).of_dvd hsn
      exact (Nat.modEq_iff_dvd.mpr (by simpa using hdvd)).symm
    have hzero : (c ^ M.lam : ℕ) ≡ 0 [MOD s] :=
      Nat.modEq_zero_iff_dvd.mpr (dvd_pow hsc (lt_trans Nat.zero_lt_one M.one_lt_lam).ne')
    exact hs.one_lt.ne' (Nat.dvd_one.mp (Nat.modEq_zero_iff_dvd.mp (hone.symm.trans hzero)))
  · intro hc
    have h : c ^ M.lam % M.n ^ 2 ≡ 1 [MOD M.n] := hred.trans (M.pow_lam_modEq_one hc)
    simpa using Nat.modEq_iff_dvd.mp h.symm

/-! ## Every unit is the ciphertext of one message -/

/-- Taking its message out of a unit leaves a residue whose power `λ` is one. -/
theorem remove_message (hm : m ≤ M.n) (h : c ^ M.lam ≡ (m * M.lam) * M.n + 1 [MOD M.n ^ 2]) :
    (c * (M.n + 1) ^ (M.n - m)) ^ M.lam ≡ 1 [MOD M.n ^ 2] := by
  have hsum : m * M.lam + (M.n - m) * M.lam ≡ 0 [MOD M.n] := by
    rw [← add_mul, Nat.add_sub_cancel' hm]
    exact Nat.modEq_zero_iff_dvd.mpr (Dvd.intro _ rfl)
  calc (c * (M.n + 1) ^ (M.n - m)) ^ M.lam
      = c ^ M.lam * (M.n + 1) ^ ((M.n - m) * M.lam) := by rw [mul_pow, pow_mul]
    _ ≡ (m * M.lam * M.n + 1) * ((M.n - m) * M.lam * M.n + 1) [MOD M.n ^ 2] :=
        h.mul (M.generator_pow_modEq _)
    _ ≡ (m * M.lam + (M.n - m) * M.lam) * M.n + 1 [MOD M.n ^ 2] := M.succ_mul_succ_modEq _ _
    _ ≡ 0 * M.n + 1 [MOD M.n ^ 2] := M.succ_modEq_iff.mpr hsum
    _ = 1 := by rw [zero_mul, zero_add]

section Coprime

variable (hlam : M.lam.Coprime M.n)

include hlam

/-- The message of a ciphertext is unique modulo `n`. -/
theorem IsCiphertext.modEq (h : M.IsCiphertext m c) (h' : M.IsCiphertext m' c) :
    m ≡ m' [MOD M.n] := by
  have heq : m * M.lam * M.n + 1 ≡ m' * M.lam * M.n + 1 [MOD M.n ^ 2] := by
    obtain ⟨r, hr, rfl⟩ := h
    obtain ⟨r', hr', hc⟩ := h'
    refine (enc_pow_lam_modEq hr).symm.trans ?_
    rw [hc]
    exact enc_pow_lam_modEq hr'
  exact Nat.ModEq.cancel_right_of_coprime hlam.symm (M.succ_modEq_iff.mp heq)

/-- A residue whose power `λ` is one is an `n`-th power. -/
theorem exists_pow_n_modEq {d : ℕ} (hd : d.Coprime M.n) (hone : d ^ M.lam ≡ 1 [MOD M.n ^ 2]) :
    ∃ r, r.Coprime M.n ∧ r ^ M.n ≡ d [MOD M.n ^ 2] := by
  obtain ⟨a, -, ha⟩ := Nat.exists_mul_mod_eq_one_of_coprime hlam.symm M.one_lt_lam
  refine ⟨d ^ a, Nat.Coprime.pow_left a hd, ?_⟩
  have hexp : a * M.n = M.lam * (M.n * a / M.lam) + 1 := by
    rw [mul_comm a, ← Nat.div_add_mod (M.n * a) M.lam, ha, Nat.mul_add_div
      (lt_trans Nat.zero_lt_one M.one_lt_lam), Nat.div_eq_of_lt M.one_lt_lam, add_zero]
  calc (d ^ a) ^ M.n = (d ^ M.lam) ^ (M.n * a / M.lam) * d := by
        rw [← pow_mul, hexp, pow_succ, pow_mul]
    _ ≡ 1 ^ (M.n * a / M.lam) * d [MOD M.n ^ 2] := (hone.pow _).mul_right d
    _ = d := by rw [one_pow, one_mul]

/-- A unit has a message: `c ^ λ` has the form `k * n + 1`, and dividing `k` by `λ` modulo `n`
gives it. -/
theorem exists_message (hc : c.Coprime M.n) :
    ∃ m < M.n, c ^ M.lam ≡ (m * M.lam) * M.n + 1 [MOD M.n ^ 2] := by
  obtain ⟨k, hk⟩ : ∃ k, c ^ M.lam = k * M.n + 1 := by
    have hpos : 0 < c := Nat.pos_of_ne_zero fun h ↦ by simp [h, M.one_lt_n.ne'] at hc
    have hone : 1 ≤ c ^ M.lam := Nat.one_le_pow _ _ hpos
    obtain ⟨k, hk⟩ := (Nat.modEq_iff_dvd' hone).mp (M.pow_lam_modEq_one hc).symm
    exact ⟨k, by rw [mul_comm k, ← hk, Nat.sub_add_cancel hone]⟩
  obtain ⟨inv, -, hinv⟩ := Nat.exists_mul_mod_eq_one_of_coprime hlam M.one_lt_n
  refine ⟨k * inv % M.n, Nat.mod_lt _ M.n_pos, ?_⟩
  rw [hk, M.succ_modEq_iff]
  have hone : inv * M.lam ≡ 1 [MOD M.n] := by
    rw [mul_comm, Nat.ModEq, hinv, Nat.mod_eq_of_lt M.one_lt_n]
  calc k = k * 1 := (mul_one k).symm
    _ ≡ k * (inv * M.lam) [MOD M.n] := hone.symm.mul_left k
    _ = k * inv * M.lam := (mul_assoc _ _ _).symm
    _ ≡ k * inv % M.n * M.lam [MOD M.n] := (Nat.mod_modEq _ _).symm.mul_right _

/-- Every unit modulo `n ^ 2` is a ciphertext. -/
theorem exists_isCiphertext (hc : c.Coprime M.n) (hlt : c < M.n ^ 2) :
    ∃ m < M.n, M.IsCiphertext m c := by
  obtain ⟨m, hm, hmessage⟩ := exists_message hlam hc
  have hd : (c * (M.n + 1) ^ (M.n - m)).Coprime M.n := hc.mul_left generator_coprime
  obtain ⟨r, hr, hrd⟩ := exists_pow_n_modEq hlam hd (remove_message hm.le hmessage)
  refine ⟨m, hm, r, hr, ?_⟩
  have hfull : (M.n + 1) ^ M.n ≡ 1 [MOD M.n ^ 2] := by
    have h := (M.generator_pow_modEq M.n).trans
      (M.succ_modEq_iff.mpr (Nat.modEq_zero_iff_dvd.mpr dvd_rfl : M.n ≡ 0 [MOD M.n]))
    rwa [zero_mul, zero_add] at h
  have henc : (M.n + 1) ^ m * r ^ M.n ≡ c [MOD M.n ^ 2] := by
    calc (M.n + 1) ^ m * r ^ M.n
        ≡ (M.n + 1) ^ m * (c * (M.n + 1) ^ (M.n - m)) [MOD M.n ^ 2] := hrd.mul_left _
      _ = c * (M.n + 1) ^ M.n := by
          rw [mul_left_comm, ← pow_add, Nat.add_sub_cancel' hm.le]
      _ ≡ c * 1 [MOD M.n ^ 2] := hfull.mul_left c
      _ = c := mul_one c
  rw [enc, henc, Nat.mod_eq_of_lt hlt]

end Coprime

/-! ## Multiples of one of the two primes

For `c` divisible by `p` but not by `q`, `c ^ λ` is zero modulo `p ^ 2` and one modulo
`q`.  What division by `n` makes of `c ^ λ - 1` is then the same number modulo `p` for
every such `c`; it is given by the `y` below, the inverse of `p` modulo `q`. -/

/-- The power is a multiple of `p ^ 2`. -/
theorem sq_dvd_pow_lam_mod (hp : M.p ∣ c) : M.p ^ 2 ∣ c ^ M.lam % M.n ^ 2 := by
  have hlam : 2 ≤ M.lam := M.one_lt_lam
  rw [n, mul_pow]
  refine (Nat.dvd_mod_iff (Dvd.intro _ rfl)).mpr ?_
  exact (pow_dvd_pow_of_dvd hp 2).trans (pow_dvd_pow c hlam)

/-- The power is one modulo `q`. -/
theorem pow_lam_mod_modEq_one (hq : ¬ M.q ∣ c) : c ^ M.lam % M.n ^ 2 ≡ 1 [MOD M.q] := by
  have hcq : c.Coprime M.q := (M.q_prime.coprime_iff_not_dvd.mpr hq).symm
  have hpow : c ^ (M.q - 1) ≡ 1 [MOD M.q] := by
    simpa [Nat.totient_prime M.q_prime] using Nat.ModEq.pow_totient hcq
  obtain ⟨k, hk⟩ : M.q - 1 ∣ M.lam := Nat.dvd_lcm_right _ _
  calc c ^ M.lam % M.n ^ 2 ≡ c ^ M.lam [MOD M.q] := by
        refine (Nat.mod_modEq _ _).of_dvd ?_
        rw [n, mul_pow]
        exact Dvd.dvd.mul_left (dvd_pow_self _ two_ne_zero) _
    _ = (c ^ (M.q - 1)) ^ k := by rw [hk, pow_mul]
    _ ≡ 1 ^ k [MOD M.q] := hpow.pow k
    _ = 1 := one_pow k

/-- So modulo `n` it is `p * y`. -/
theorem pow_lam_mod_mod {y : ℕ} (hp : M.p ∣ c) (hq : ¬ M.q ∣ c) (hyq : y < M.q)
    (hy : M.p * y % M.q = 1) :
    c ^ M.lam % M.n ^ 2 % M.n = M.p * y := by
  have hlt : M.p * y < M.n := Nat.mul_lt_mul_of_pos_left hyq M.p_prime.pos
  rw [← Nat.mod_eq_of_lt hlt]
  refine (Nat.modEq_and_modEq_iff_modEq_mul M.coprime_primes).mp ⟨?_, ?_⟩
  · have hzero : c ^ M.lam % M.n ^ 2 ≡ 0 [MOD M.p] :=
      Nat.modEq_zero_iff_dvd.mpr ((Dvd.intro_left _ (sq M.p).symm).trans (sq_dvd_pow_lam_mod hp))
    exact hzero.trans (Nat.modEq_zero_iff_dvd.mpr (Dvd.intro _ rfl)).symm
  · have hone : M.p * y ≡ 1 [MOD M.q] := by
      rw [Nat.ModEq, hy, Nat.mod_eq_of_lt M.q_prime.one_lt]
    exact (pow_lam_mod_modEq_one hq).trans hone.symm

/-- Dividing the power less one by `n` takes away exactly that. -/
theorem half_modEq {y : ℕ} (hp : M.p ∣ c) (hq : ¬ M.q ∣ c) (hyq : y < M.q)
    (hy : M.p * y % M.q = 1) :
    M.q * ((c ^ M.lam % M.n ^ 2 - 1) / M.n) + y ≡ 0 [MOD M.p] := by
  have hdvd := sq_dvd_pow_lam_mod hp
  have hres := pow_lam_mod_mod hp hq hyq hy
  generalize c ^ M.lam % M.n ^ 2 = u at hdvd hres ⊢
  have hpos : 0 < M.p * y := Nat.pos_of_ne_zero fun h ↦ by simp [h] at hy
  have hlt : M.p * y < M.n := hres ▸ Nat.mod_lt u M.n_pos
  have hsum : u / M.n * M.n + M.p * y = u := by
    rw [← hres, mul_comm]
    exact Nat.div_add_mod u M.n
  have hdiv : (u - 1) / M.n = u / M.n := by
    refine Nat.div_eq_of_lt_le ?_ ?_
    · omega
    · rw [add_one_mul]
      omega
  have hfactor : M.p * M.p ∣ M.p * (M.q * (u / M.n) + y) := by
    have h : M.p * (M.q * (u / M.n) + y) = u := by
      calc M.p * (M.q * (u / M.n) + y) = u / M.n * (M.p * M.q) + M.p * y := by ring
        _ = u := hsum
    rw [h, ← sq]
    exact hdvd
  rw [hdiv]
  exact Nat.modEq_zero_iff_dvd.mpr (Nat.dvd_of_mul_dvd_mul_left M.p_prime.pos hfactor)

end Modulus

end Paillier
