import SecureIIoT.DemoKey
import SecureIIoT.Host.PaillierBench
import SecureIIoT.RoundTrip
import SecureIIoT.Statistics
import SecureIIoT.Tee

/-!
# The Paillier benchmark

The benchmark decrypts the product of all its ciphertexts, whose message is the sum of the
readings modulo `n`, and the reference decryption refuses what has more than 32 bits.  So it
reports exactly if that sum modulo `n` has 32 bits (`paillierBench_reports_iff`); of a key of
49 bits or more, if there are at most 171459 iterations, whatever is drawn and however long it
takes.  With more iterations all its work is done before it stops.
-/

namespace SecureIIoT

open ByteString Host

/-! ## The sum of the readings -/

/-- The sum of the first readings. -/
def benchTotal (m : ℕ) : ℕ :=
  ∑ i ∈ Finset.range m, (25000 + i % 100)

theorem benchTotal_succ (m : ℕ) : benchTotal (m + 1) = benchTotal m + (25000 + m % 100) :=
  Finset.sum_range_succ _ _

/-- The readings repeat after a hundred. -/
theorem benchTotal_hundred_add (m : ℕ) : benchTotal (100 + m) = benchTotal 100 + benchTotal m := by
  rw [benchTotal, Finset.sum_range_add]
  simp only [Nat.add_mod_left]
  rfl

theorem benchTotal_mul_add (q r : ℕ) : benchTotal (100 * q + r) = 2504950 * q + benchTotal r := by
  induction q with
  | zero => simp
  | succ q ih =>
    have hblock : benchTotal 100 = 2504950 := by decide
    have hsplit : 100 * (q + 1) + r = 100 + (100 * q + r) := by ring
    rw [hsplit, benchTotal_hundred_add, ih, hblock]
    ring

theorem benchTotal_mono : Monotone benchTotal :=
  monotone_nat_of_le_succ fun m ↦ by
    rw [benchTotal_succ]
    exact Nat.le_add_right _ _

theorem benchTotal_le (m : ℕ) : benchTotal m ≤ 25099 * m := by
  induction m with
  | zero => rfl
  | succ m ih =>
    have hmod : m % 100 < 100 := Nat.mod_lt _ (by decide)
    rw [benchTotal_succ]
    omega

/-- The most readings whose sum has 32 bits. -/
theorem benchTotal_lt_iff (m : ℕ) : benchTotal m < 2 ^ 32 ↔ m ≤ 171459 := by
  have hmost : benchTotal 171459 = 4294961011 := by
    rw [show 171459 = 100 * 1714 + 59 from rfl, benchTotal_mul_add]
    decide
  have hover : benchTotal 171460 = 4294986070 := by
    rw [show 171460 = 100 * 1714 + 60 from rfl, benchTotal_mul_add]
    decide
  constructor
  · intro h
    by_contra hlarge
    have hle : benchTotal 171460 ≤ benchTotal m := benchTotal_mono (not_le.mp hlarge)
    rw [hover] at hle
    omega
  · intro h
    have hle : benchTotal m ≤ benchTotal 171459 := benchTotal_mono h
    rw [hmost] at hle
    omega

/-! ## The ciphertexts -/

section Ciphertexts

variable {k : GeneratedKey}

theorem toNat_paillierBenchReading {i : ℕ} (hi : i < 2 ^ 32) :
    (paillierBenchReading (UInt32.ofNat i)).toNat = 25000 + i % 100 := by
  have hmod : i % 100 < 100 := Nat.mod_lt _ (by decide)
  rw [paillierBenchReading, UInt32.toNat_add, UInt32.toNat_mod, UInt32.toNat_ofNat_of_lt' hi]
  exact Nat.mod_eq_of_lt (by simp; omega)

/-- The loop over the iterations, where each draws a unit: its ciphertexts are those of the
readings. -/
theorem paillierBenchEncrypt_ok {env : PaillierBenchEnv} {i left : ℕ}
    (hunit : ∀ j < i + left, ∃ call < env.unitDraws, (env.rand j call).Coprime k.n)
    (hsize : i + left ≤ 2 ^ 32) :
    ∃ ciphertexts, paillierBenchEncrypt env k.toPaillierKey i left = .ok ciphertexts ∧
      List.Forall₂ k.IsCiphertext ((List.range' i left).map fun j ↦ 25000 + j % 100)
        ciphertexts := by
  induction left generalizing i with
  | zero => exact ⟨[], rfl, .nil⟩
  | succ left ih =>
    obtain ⟨c, hencrypt, hc⟩ := paillierHostEncryptU32_isCiphertext (hunit i (by omega))
      (paillierBenchReading (UInt32.ofNat i))
    obtain ⟨ciphertexts, hrest, hall⟩ := ih (i := i + 1) (fun j hj ↦ hunit j (by omega)) (by omega)
    rw [toNat_paillierBenchReading (by omega)] at hc
    refine ⟨c :: ciphertexts, ?_, .cons hc hall⟩
    rw [paillierBenchEncrypt, hencrypt, hrest]
    rfl

/-- Multiplying ciphertexts together adds their messages. -/
theorem foldl_isCiphertext {ms cs : List ℕ} (h : List.Forall₂ k.IsCiphertext ms cs)
    {m c : ℕ} (hc : k.IsCiphertext m c) :
    k.IsCiphertext (m + ms.sum)
      (cs.foldl (paillierHostAddCiphertextsReal k.toPaillierKey) c) := by
  induction h generalizing m c with
  | nil => exact hc
  | cons hhead _ ih =>
    rw [List.sum_cons, ← add_assoc]
    exact ih (hc.mul hhead)

/-- So the product of the ciphertexts, if there are any, holds the sum of the messages. -/
theorem paillierBenchAggregate_isCiphertext {ms cs : List ℕ} (hne : ms ≠ [])
    (h : List.Forall₂ k.IsCiphertext ms cs) :
    k.IsCiphertext ms.sum (paillierBenchAggregate k.toPaillierKey cs) := by
  cases h with
  | nil => exact absurd rfl hne
  | cons hhead hrest =>
    rw [List.sum_cons]
    exact foldl_isCiphertext hrest hhead

theorem sum_readings (m : ℕ) :
    ((List.range' 0 m).map fun j ↦ 25000 + j % 100).sum = benchTotal m := by
  rw [benchTotal, ← List.range_eq_range']
  rfl

end Ciphertexts

/-! ## The statistics -/

/-- No call of `compute_stats` on as many latencies as it is told fails, but for its array. -/
theorem exists_paillierBenchComputeStats {calloc : ℕ → Bool} (width : ℕ)
    (latencies : List UInt64) {count : UInt32} (hcalloc : calloc count.toNat = true)
    (hlength : count ≠ 0 → latencies.length = count.toNat) :
    ∃ s, paillierBenchComputeStats calloc width latencies count = .ok s := by
  by_cases hcount : count = 0
  · exact ⟨_, if_pos hcount⟩
  have hpos : 0 < count.toNat := Nat.pos_of_ne_zero fun h ↦ hcount (UInt32.toNat_inj.mp h)
  have hsorted : (qsort latencies compareU64).length = count.toNat :=
    (perm_qsort latencies).length_eq.trans (hlength hcount)
  obtain ⟨_, hp50⟩ := percentile_eq width 50 hpos hsorted
  obtain ⟨_, hp95⟩ := percentile_eq width 95 hpos hsorted
  rw [paillierBenchComputeStats_eq calloc width latencies hcount,
    benchComputeStats_eq calloc width (hlength hcount), if_pos hcalloc, summarise, meanOf,
    if_neg hcount, hp50, hp95]
  exact ⟨_, rfl⟩

/-! ## The benchmark -/

section Bench

variable {env : PaillierBenchEnv} {bits iterations : UInt32} {M : Paillier.Modulus}
  {repeats : ℕ} {key : PaillierKey}

/-- What a benchmark meets that gets its arrays and its key, and draws its units in time. -/
structure PaillierBenchRuns (env : PaillierBenchEnv) (bits iterations : UInt32)
    (M : Paillier.Modulus) (repeats : ℕ) (key : PaillierKey) : Prop where
  arrays : env.arrays = true
  sorted : ∀ call, env.sorted call iterations.toNat = true ∧
    env.sorted call (additions iterations 0).toNat = true
  bits_le : 32 ≤ bits.toInt32.toInt
  primes : Draws env.primes bits.toInt32.toInt M repeats
  repeats_lt : repeats < env.primeDraws
  keygen : paillierBenchKey env bits = .ok key
  units : ∀ i < iterations.toNat, ∃ call < env.unitDraws, (env.rand i call).Coprime key.n

/-- Its key is one that decrypts. -/
theorem PaillierBenchRuns.exists_key (h : PaillierBenchRuns env bits iterations M repeats key) :
    ∃ k : GeneratedKey, k.modulus = M ∧ k.toPaillierKey = key := by
  have hkey := h.keygen
  by_cases hlam : M.lam.Coprime M.n
  · obtain ⟨k, hk, hkeygen⟩ := h.primes.exists_key h.bits_le h.repeats_lt ⟨0, 0, 0, 0, 0⟩ hlam
    rw [paillierBenchKey, hkeygen] at hkey
    exact ⟨k, hk, Except.ok.inj hkey⟩
  · have hkeygen := h.primes.keygen_of_not_coprime h.bits_le h.repeats_lt ⟨0, 0, 0, 0, 0⟩ hlam
    rw [paillierBenchKey, hkeygen] at hkey
    cases hkey

/-- From 49 bits on the modulus lies above every sum of readings. -/
theorem two_pow_le_of_draws {primes : BnGeneratePrimeEx} {bits : ℤ}
    (h : Draws primes bits M repeats) (hbits : 49 ≤ bits) : 2 ^ 47 ≤ M.p * M.q := by
  have hp : 2 ^ 23 ≤ M.p := by
    rw [← Nat.lt_size, h.p_bits]
    omega
  have hq : 2 ^ 24 ≤ M.q := by
    rw [← Nat.lt_size, h.q_bits]
    omega
  calc 2 ^ 47 = 2 ^ 23 * 2 ^ 24 := by rw [← pow_add]
    _ ≤ M.p * M.q := Nat.mul_le_mul hp hq

/-- Only the last iteration is left out of the additions. -/
theorem length_addLatencies (h : additions iterations 0 ≠ 0) :
    (addLatencies env iterations).length = (additions iterations 0).toNat := by
  rw [addLatencies, List.length_map, List.length_range]
  by_cases hmany : 1 < iterations
  · rw [additions, additions, if_pos hmany, if_pos hmany]
  · exact absurd (if_neg hmany) h

/-- The benchmark comes down to the decryption of its aggregate. -/
theorem paillierBench_cases (h : PaillierBenchRuns env bits iterations M repeats key)
    (hpos : iterations ≠ 0) :
    if benchTotal iterations.toNat % (M.p * M.q) < 2 ^ 32 then
      ∃ report, paillierBench env bits iterations = .ok report
    else paillierBench env bits iterations = .error (.errx "Paillier decryption failed") := by
  obtain ⟨k, rfl, rfl⟩ := h.exists_key
  have hsize : 0 + iterations.toNat ≤ 2 ^ 32 := by
    rw [zero_add]
    exact iterations.toNat_lt.le
  have hunits : ∀ j < 0 + iterations.toNat,
      ∃ call < env.unitDraws, (env.rand j call).Coprime k.n := by
    rw [zero_add]
    exact h.units
  obtain ⟨ciphertexts, hencrypt, hall⟩ := paillierBenchEncrypt_ok hunits hsize
  have hne : (List.range' 0 iterations.toNat).map (fun j ↦ 25000 + j % 100) ≠ [] := by
    rw [Ne, List.map_eq_nil_iff, List.range'_eq_nil_iff]
    exact fun hzero ↦ hpos (UInt32.toNat_inj.mp hzero)
  have hc := paillierBenchAggregate_isCiphertext hne hall
  rw [sum_readings] at hc
  have hdecrypt := paillierHostDecryptU32_of_isCiphertext hc
  rw [show k.n = k.modulus.p * k.modulus.q from k.n_eq] at hdecrypt
  obtain ⟨encrypt, hencryptStats⟩ := exists_paillierBenchComputeStats env.width
    ((List.range iterations.toNat).map fun i ↦ elapsed (env.encryptTimes i))
    (h.sorted 0).1 fun _ ↦ by rw [List.length_map, List.length_range]
  obtain ⟨add, haddStats⟩ := exists_paillierBenchComputeStats env.width
    (addLatencies env iterations) (h.sorted 1).2 length_addLatencies
  have hrun : ¬ env.arrays = false := by
    rw [h.arrays]
    exact Bool.true_eq_false_eq_False
  rw [paillierBench, if_neg hrun, h.keygen, except_ok_bind, hencrypt, except_ok_bind,
    paillierBenchDecrypt, hdecrypt]
  by_cases hsmall : benchTotal iterations.toNat % (k.modulus.p * k.modulus.q) < 2 ^ 32
  · rw [if_pos hsmall, if_pos hsmall]
    dsimp only
    rw [except_ok_bind, hencryptStats, except_ok_bind, haddStats]
    exact ⟨_, rfl⟩
  · rw [if_neg hsmall, if_neg hsmall]
    rfl

/-- The benchmark reports exactly if the sum of its readings modulo `n` has 32 bits; of a key
of 49 bits or more, exactly if there are at most 171459 iterations.  Otherwise it stops at the
decryption. -/
theorem paillierBench_reports_iff (h : PaillierBenchRuns env bits iterations M repeats key)
    (hpos : iterations ≠ 0) :
    ((∃ report, paillierBench env bits iterations = .ok report) ↔
      benchTotal iterations.toNat % (M.p * M.q) < 2 ^ 32) ∧
    (49 ≤ bits.toInt32.toInt →
      ((∃ report, paillierBench env bits iterations = .ok report) ↔ iterations ≤ 171459)) ∧
    ((¬ ∃ report, paillierBench env bits iterations = .ok report) →
      paillierBench env bits iterations = .error (.errx "Paillier decryption failed")) := by
  have hcases := paillierBench_cases h hpos
  have hreports : (∃ report, paillierBench env bits iterations = .ok report) ↔
      benchTotal iterations.toNat % (M.p * M.q) < 2 ^ 32 := by
    constructor
    · rintro ⟨report, hreport⟩
      by_contra hlarge
      rw [if_neg hlarge, hreport] at hcases
      cases hcases
    · intro hsmall
      rwa [if_pos hsmall] at hcases
  refine ⟨hreports, fun hbits ↦ ?_, fun hno ↦ ?_⟩
  · have htotal : benchTotal iterations.toNat < M.p * M.q := by
      have hle := benchTotal_le iterations.toNat
      have hlt := iterations.toNat_lt
      have hn := two_pow_le_of_draws h.primes hbits
      omega
    have hmost : (171459 : UInt32).toNat = 171459 := rfl
    rw [hreports, Nat.mod_eq_of_lt htotal, benchTotal_lt_iff, UInt32.le_iff_toNat_le, hmost]
  · rwa [if_neg (mt hreports.mpr hno)] at hcases

end Bench

/-- Nothing fails, the primes of the demo key are drawn, and 1 is every randomiser. -/
def demoPaillierBenchEnv : PaillierBenchEnv where
  arrays := true
  primes := primesOf demoModulus
  primeDraws := 1
  rand := fun _ _ ↦ 1
  unitDraws := 1
  keygenTimes := (0, 0)
  encryptTimes := fun _ ↦ (0, 0)
  addTimes := fun _ ↦ (0, 0)
  decryptTimes := (0, 0)
  sorted := fun _ _ ↦ true
  width := 64

theorem draws_demoModulus : Draws (primesOf demoModulus) 512 demoModulus 0 :=
  draws_primesOf (by decide +kernel) (by decide +kernel)

theorem exists_demoPaillierBenchRuns (iterations : UInt32) : ∃ key,
    PaillierBenchRuns demoPaillierBenchEnv 512 iterations demoModulus 0 key := by
  obtain ⟨k, -, hkeygen⟩ := draws_demoModulus.exists_key (by norm_num) Nat.one_pos ⟨0, 0, 0, 0, 0⟩
    (draws_demoModulus.coprime_of_even (by decide))
  have hbits : (512 : UInt32).toInt32.toInt = 512 := rfl
  refine ⟨k.toPaillierKey, rfl, fun _ ↦ ⟨rfl, rfl⟩, ?_, ?_, Nat.one_pos, ?_, ?_⟩
  · rw [hbits]
    norm_num
  · rw [hbits]
    exact draws_demoModulus
  · rw [paillierBenchKey, hbits, demoPaillierBenchEnv, hkeygen]
    rfl
  · exact fun _ _ ↦ exists_coprime_one k.n

/-- Of the demo key: 171459 iterations are reported, and one more is not. -/
theorem paillierBench_reports_iff_demo :
    (∃ report, paillierBench demoPaillierBenchEnv 512 171459 = .ok report) ∧
      paillierBench demoPaillierBenchEnv 512 171460 =
        .error (.errx "Paillier decryption failed") := by
  have hbits : 49 ≤ (512 : UInt32).toInt32.toInt := by decide
  obtain ⟨_, hmost⟩ := exists_demoPaillierBenchRuns 171459
  obtain ⟨_, hover⟩ := exists_demoPaillierBenchRuns 171460
  constructor
  · exact ((paillierBench_reports_iff hmost (by decide)).2.1 hbits).mpr (by decide)
  · obtain ⟨-, hiff, hfails⟩ := paillierBench_reports_iff hover (by decide)
    exact hfails fun hreport ↦ absurd ((hiff hbits).mp hreport) (by decide)

end SecureIIoT
