import SecureIIoT.Arguments
import SecureIIoT.Bookkeeping.Bench
import SecureIIoT.Bookkeeping.FullCrypto

/-!
# The counts of the benchmarks

The loop bound, the sizes of the arrays and the counts that `compute_stats` is called with
are computed in 32 bits.  As long as none of them wraps, every sample goes inside its array
and every array holds as many samples as `compute_stats` is told
(`fullBookkept_of_lt`, `benchBookkept_of_lt`).  Where one does, this fails, for every
allocation that succeeds and every run that no call disappoints (`not_fullBookkept`,
`not_benchBookkept`): the product wraps to an array that is too small, and the sum to a
loop that measures nothing.

Together these give the exact condition, `bookkeeping_exact_iff`.  With a `size_t` of 32
bits it always holds, since the allocations of a count that large fail
(`bookkeeping_exact_of_width_32`).
-/

namespace SecureIIoT

open Host

/-! ## Filled arrays -/

section Filled

variable {array : LatencyArray} {size n : ℕ}

theorem Filled.inBounds (h : Filled array size n) (hn : n ≤ size) : array.InBounds := by
  intro index hindex
  rw [h.indices_eq, List.mem_map] at hindex
  obtain ⟨i, hi, rfl⟩ := hindex
  rw [List.mem_range] at hi
  rw [h.size_eq]
  exact lt_of_le_of_lt (Nat.mod_le _ _) (hi.trans_le hn)

/-- The sample number `size` goes past the end. -/
theorem Filled.not_inBounds (h : Filled array size n) (hn : size < n) (hsize : size < 2 ^ 32) :
    ¬ array.InBounds := by
  intro hbounds
  have hmem : size ∈ array.indices := by
    rw [h.indices_eq, List.mem_map]
    exact ⟨size, List.mem_range.mpr hn, Nat.mod_eq_of_lt hsize⟩
  have hlt := hbounds size hmem
  rw [h.size_eq] at hlt
  exact hlt.false

theorem Filled.recorded_zero (h : Filled array size 0) : array.recorded = 0 := by
  simp [LatencyArray.recorded, h.indices_eq]

/-- Every entry of an array that is full holds a sample. -/
theorem Filled.recorded_full (h : Filled array size size) (hsize : size ≤ 2 ^ 32) :
    array.recorded = size := by
  have hall : ∀ index ∈ Finset.range array.size, index ∈ array.indices := by
    intro index hindex
    rw [h.size_eq, Finset.mem_range] at hindex
    rw [h.indices_eq, List.mem_map]
    exact ⟨index, List.mem_range.mpr hindex, Nat.mod_eq_of_lt (hindex.trans_le hsize)⟩
  rw [LatencyArray.recorded, Finset.filter_true_of_mem hall, Finset.card_range, h.size_eq]

end Filled

/-! ## The full benchmark -/

/-- Every write was inside its array, and every array that `compute_stats` was called with
holds as many samples as the count says. -/
def FullBookkept (s : BenchRun FullCryptoVars) : Prop :=
  s.vars.fogLatencies.InBounds ∧ s.vars.hostAggregateLatencies.InBounds ∧
    s.vars.storageLatencies.InBounds ∧ ∀ call ∈ s.statsCalls, call.1.recorded = call.2.toNat

section FullCrypto

variable {C A : Type} {width : ℕ} {m : UInt32}

theorem toNat_fullTotal (h : m.toNat + 3 < 2 ^ 32) :
    (fullCryptoWarmupIters + m).toNat = m.toNat + 3 := by
  rw [UInt32.toNat_add, Nat.add_comm]
  exact Nat.mod_eq_of_lt h

theorem toNat_fogCount (h : 3 * m.toNat < 2 ^ 32) :
    (m * secureIiotDemoReadingCount).toNat = 3 * m.toNat := by
  rw [UInt32.toNat_mul, Nat.mul_comm]
  exact Nat.mod_eq_of_lt h

/-- If the product does not wrap, the sum does not either, and a run keeps its books. -/
theorem fullBookkept_of_lt (mode : FullCryptoMode C A) (calloc : Calloc width)
    (h : 3 * m.toNat < 2 ^ 32) :
    FullBookkept (finalState (fullCryptoBench mode calloc m) (fullCryptoStart m)) := by
  have hcount := toNat_fogCount h
  have htotal := toNat_fullTotal (m := m) (by omega)
  rcases fullCryptoBench_ended mode calloc m with
    ⟨-, c, n, j, j', -, hn, hj, hj', hs⟩ | ⟨T, hT, r, hs⟩
  · refine ⟨hs.fog.inBounds (by omega), hs.hostAggregate.inBounds (by omega),
      hs.storage.inBounds (by omega), fun call hcall ↦ ?_⟩
    rw [hs.statsCalls] at hcall
    cases hcall
  · have hfog : 3 * T - 9 = (m * secureIiotDemoReadingCount).toNat := by omega
    have hpipeline : T - 3 = m.toNat := by omega
    rw [hfog, hpipeline] at hs
    refine ⟨hs.fog.inBounds le_rfl, hs.hostAggregate.inBounds le_rfl, hs.storage.inBounds le_rfl,
      fun call hcall ↦ ?_⟩
    rw [hs.statsCalls] at hcall
    have hmem := List.mem_of_mem_take hcall
    simp only [fullCryptoStatsCalls, List.mem_cons, List.not_mem_nil, or_false] at hmem
    rcases hmem with rfl | rfl | rfl
    · exact hs.fog.recorded_full (UInt32.toNat_lt _).le
    · exact hs.hostAggregate.recorded_full (UInt32.toNat_lt _).le
    · exact hs.storage.recorded_full (UInt32.toNat_lt _).le

/-- If the product wraps, the samples of the fog do not fit their array, or the sum wraps as
well and there are none. -/
theorem not_fullBookkept {mode : FullCryptoMode C A} (hreliable : Reliable mode)
    {calloc : Calloc width} (hcalloc : FullAllocated calloc m) (h : 2 ^ 32 ≤ 3 * m.toNat) :
    ¬ FullBookkept (finalState (fullCryptoBench mode calloc m) (fullCryptoStart m)) := by
  rintro ⟨hfog, -, -, hcalls⟩
  rcases fullCryptoBench_ended mode calloc m with ⟨hfailed, -⟩ | ⟨T, hT, r, hs⟩
  · exact hfailed ⟨hreliable, hcalloc⟩
  by_cases hwrap : m.toNat + 3 < 2 ^ 32
  · have htotal := toNat_fullTotal hwrap
    have hsize : (m * secureIiotDemoReadingCount).toNat < 2 ^ 32 := UInt32.toNat_lt _
    exact hs.fog.not_inBounds (by omega) hsize hfog
  · have hm : m.toNat < 2 ^ 32 := UInt32.toNat_lt _
    have htotal : (fullCryptoWarmupIters + m).toNat = (3 + m.toNat) % 2 ^ 32 := UInt32.toNat_add _ _
    have hcount : (m * secureIiotDemoReadingCount).toNat = m.toNat * 3 % 2 ^ 32 :=
      UInt32.toNat_mul _ _
    have hnone : 3 * T - 9 = 0 := by omega
    rw [hnone] at hs
    have hcall := hcalls _ hs.fogCall_mem
    rw [hs.fog.recorded_zero, hcount] at hcall
    omega

end FullCrypto

/-! ## The fog benchmark -/

/-- Every write was inside its array, and every array that `compute_stats` was called with
holds as many samples as the count says. -/
def BenchBookkept (s : BenchRun BenchVars) : Prop :=
  s.vars.fogLatencies.InBounds ∧ s.vars.storageLatencies.InBounds ∧
    s.vars.provisionLatencies.InBounds ∧ ∀ call ∈ s.statsCalls, call.1.recorded = call.2.toNat

section Bench

variable {width : ℕ} {m : UInt32}

theorem toNat_benchTotal (h : m.toNat + 10 < 2 ^ 32) :
    (warmupIters + m).toNat = m.toNat + 10 := by
  rw [UInt32.toNat_add, Nat.add_comm]
  exact Nat.mod_eq_of_lt h

theorem BenchProgress.bookkept {T c n q p : ℕ} {s : BenchRun BenchVars}
    (h : BenchProgress m T c n q p s) (hT : T - 10 = m.toNat) (hn : n ≤ m.toNat) (hq : q ≤ 30)
    (hp : p ≤ 30) : BenchBookkept s := by
  refine ⟨h.fog.inBounds hn, h.storage.inBounds hq, h.provision.inBounds hp, fun call hcall ↦ ?_⟩
  rcases h.statsCalls call hcall with ⟨hfilled, hcount⟩ | ⟨hfilled, hcount⟩
  · rw [hT] at hfilled
    rw [hcount]
    exact hfilled.recorded_full (UInt32.toNat_lt _).le
  · rw [hcount]
    exact hfilled.recorded_full (by decide)

/-- If the sum does not wrap, a run keeps its books. -/
theorem benchBookkept_of_lt (calloc : Calloc width) (env : BenchEnv)
    (h : m.toNat + 10 < 2 ^ 32) :
    BenchBookkept (finalState (benchMain calloc env m) (benchStart m)) := by
  have htotal := toNat_benchTotal h
  rcases benchMain_ended calloc env m with ⟨-, c, n, -, hn, hs⟩ | ⟨q, p, hq, hp, hs, -⟩
  · exact hs.bookkept (by omega) (by omega) (Nat.zero_le _) (Nat.zero_le _)
  · exact hs.bookkept (by omega) (by omega) hq hp

/-- If the sum wraps, nothing is measured. -/
theorem not_benchBookkept {env : BenchEnv} (hreliable : BenchReliable env)
    {calloc : Calloc width} (hcalloc : calloc.succeeds .fog m.toNat = true)
    (h : 2 ^ 32 ≤ m.toNat + 10) :
    ¬ BenchBookkept (finalState (benchMain calloc env m) (benchStart m)) := by
  rintro ⟨-, -, -, hcalls⟩
  rcases benchMain_ended calloc env m with ⟨hfailed, -⟩ | ⟨q, p, -, -, -, call, hmem, hfog, hcount⟩
  · exact hfailed ⟨hreliable, hcalloc⟩
  · have hm : m.toNat < 2 ^ 32 := UInt32.toNat_lt _
    have htotal : (warmupIters + m).toNat = (10 + m.toNat) % 2 ^ 32 := UInt32.toNat_add _ _
    have hnone : (warmupIters + m).toNat - 10 = 0 := by omega
    rw [hnone] at hfog
    have hcall := hcalls call hmem
    rw [hfog.recorded_zero, hcount] at hcall
    omega

end Bench

/-! ## Memory and calls that do not disappoint -/

/-- As much memory as `size_t` can count. -/
def generousCalloc (width : ℕ) : Calloc width where
  succeeds _ n := decide (8 * n < 2 ^ width)
  fits _ _ h := of_decide_eq_true h

/-- An encryption that leaves the message as it is. -/
def plainEvp : EvpCrypto where
  aesGcmEncrypt _ _ _ plaintext := some (plaintext, .replicate _ 0)
  aesGcmDecrypt _ _ _ ciphertext _ := some ciphertext

theorem secureIiotCreatePacket_plainEvp (reading : SensorPlaintext) (sequence : UInt32) :
    secureIiotCreatePacket plainEvp reading sequence ≠ none := by
  have hfits : ¬ 64 < (sensorQuery reading sequence).msg.length := by
    change ¬ 64 < reading.toBytes.length
    rw [SensorPlaintext.length_toBytes]
    decide
  simp [secureIiotCreatePacket, plainEvp, hfits]

/-- A TA that answers every packet with a real ciphertext. -/
def liveDemoEnv : FullCryptoEnv where
  evp := plainEvp
  openRes := 0
  invokeFogProcessing _ _ _ :=
    ⟨0, { SecureSensorResult.zero with paillierCiphertextLen := 128, realPaillierEnabled := 1 }, 0⟩
  invokeStoragePrep _ _ := ⟨0, .zero, 0⟩
  aggregateTimes _ := (0, 0)

/-- The aggregation of the live benchmark cannot fail. -/
theorem liveAggregate_ne_error (results : List SecureSensorResult) (e : BenchFault) :
    liveAggregate paillierHostInitFixedDemoKey results ≠ .error e := by
  have hkey : paillierHostInitFixedDemoKey = demoKey.toPaillierKey := hostKey_eq
  have hshort : ∀ ciphertext ∈ results.map fun result ↦
      result.paillierCiphertext.toList.take result.paillierCiphertextLen.toNat,
      ciphertext.length ≤ intMax := by
    intro ciphertext hmem
    obtain ⟨result, -, rfl⟩ := List.mem_map.mp hmem
    exact (List.length_take_le' _ _).trans (length_toList_le _)
  obtain ⟨c, hc, haggregate⟩ : ∃ c < demoKey.n2,
      aggregateReal demoKey.toPaillierKey paillierHostInitAggregateReal (results.map fun result ↦
        result.paillierCiphertext.toList.take result.paillierCiphertextLen.toNat) = some c :=
    ⟨_, Nat.mod_lt _ demoKey.n2_pos, aggregateReal_of_length demoKey.one_lt_n2 hshort⟩
  rw [liveAggregate, hkey]
  simp only [haggregate]
  rw [paillierHostBnToFixedBytes_of_lt (by decide) (hc.trans demoKey.n2_lt)]
  simp

theorem reliable_liveDemoEnv : Reliable (liveMode liveDemoEnv) where
  create := secureIiotCreatePacket_plainEvp
  setup e := by simp [liveMode, liveDemoEnv, openSession, bind, Except.bind, pure, Except.pure]
  fog key iteration i reading packet e := by
    simp [liveMode, liveDemoEnv, TeecReturn.checked, SecureSensorResult.zero, bind, Except.bind,
      pure, Except.pure]
  aggregate key iteration results e hsetup := by
    cases hsetup
    change (liveAggregate paillierHostInitFixedDemoKey results >>= _) ≠ _
    rcases haggregate : liveAggregate paillierHostInitFixedDemoKey results with e' | bytes
    · exact absurd haggregate (liveAggregate_ne_error results e')
    · simp [bind, Except.bind, pure, Except.pure]
  storage key iteration aggregate e _ := by
    simp [liveMode, liveDemoEnv, TeecReturn.checked, StorageCloudObject.zero, bind, Except.bind,
      pure, Except.pure]

/-- The key made from the primes 5 and 7, with encryptions of zero. -/
def reference2048DemoEnv : Reference2048Env where
  evp := plainEvp
  keygenDemo := some ⟨35, 1225, 36, 12, 3⟩
  encryptU32 _ _ _ _ := some 1
  encryptTimes _ _ := (0, 0)
  aggregateTimes _ := (0, 0)
  decryptTimes _ := (0, 0)

/-- With a modulus below `2 ^ 32` every number is decrypted to something. -/
theorem paillierHostDecryptU32_ne_none {key : PaillierKey} (hpos : 0 < key.n)
    (hlt : key.n ≤ 2 ^ 32) (c : ℕ) : paillierHostDecryptU32 key c ≠ none := by
  have hm : ∀ l : ℤ, (l * key.mu % key.n).toNat < 2 ^ 32 := by
    intro l
    have hmod : l * key.mu % key.n < key.n := Int.emod_lt_of_pos _ (by exact_mod_cast hpos)
    have hnonneg : 0 ≤ l * key.mu % key.n := Int.emod_nonneg _ (by exact_mod_cast hpos.ne')
    omega
  rw [paillierHostDecryptU32, if_neg (not_lt.mpr (Nat.size_le.mpr (hm _)))]
  exact Option.some_ne_none _

theorem reliable_reference2048DemoEnv : Reliable (reference2048Mode reference2048DemoEnv) where
  create := secureIiotCreatePacket_plainEvp
  setup e := by simp [reference2048Mode, reference2048DemoEnv]
  fog key iteration i reading packet e := by simp [reference2048Mode, reference2048DemoEnv]
  aggregate key iteration ciphertexts e _ := by simp [reference2048Mode]
  storage key iteration aggregate e hsetup := by
    cases hsetup
    simp only [reference2048Mode]
    split
    · next hnone =>
      exact absurd hnone (paillierHostDecryptU32_ne_none (by decide) (by decide) aggregate)
    · simp

/-- A TA that answers every command, and mocks Paillier. -/
def benchDemoEnv : BenchEnv where
  evp := plainEvp
  openRes := 0
  invokeFogProcessing _ _ := ⟨0, .zero, 0⟩
  invokeStoragePrep _ _ := ⟨0, .zero, 0⟩
  invokeProvisionKey _ _ := ⟨0, ⟨0⟩, 0⟩

theorem benchReliable_benchDemoEnv : BenchReliable benchDemoEnv where
  create := secureIiotCreatePacket_plainEvp
  openRes := rfl
  fog _ _ := rfl
  status _ _ := rfl

/-! ## The exact condition -/

/-- `size_t` can count the bytes of the three arrays of the full benchmark. -/
def FullSizesFit (width : ℕ) (m : UInt32) : Prop :=
  8 * (m * secureIiotDemoReadingCount).toNat < 2 ^ width ∧ 8 * m.toNat < 2 ^ width

section Exact

variable {width : ℕ} {m : UInt32}

theorem FullAllocated.fit {calloc : Calloc width} (h : FullAllocated calloc m) :
    FullSizesFit width m := by
  rw [FullAllocated, Bool.and_eq_true, Bool.and_eq_true] at h
  exact ⟨calloc.fits _ _ h.1.1, calloc.fits _ _ h.2⟩

theorem fullAllocated_generous (h : FullSizesFit width m) :
    FullAllocated (generousCalloc width) m := by
  rw [FullAllocated, Bool.and_eq_true, Bool.and_eq_true]
  exact ⟨⟨decide_eq_true h.1, decide_eq_true h.2⟩, decide_eq_true h.2⟩

/-- Without the arrays a run stops before it has done anything. -/
theorem finalState_of_not_allocated {C A : Type} (mode : FullCryptoMode C A)
    {calloc : Calloc width} (h : ¬ FullAllocated calloc m) :
    finalState (fullCryptoBench mode calloc m) (fullCryptoStart m) = fullCryptoStart m := by
  rw [FullAllocated, Bool.not_eq_true] at h
  unfold fullCryptoBench
  dsimp only
  rw [h]
  rfl

theorem fullBookkept_start (m : UInt32) : FullBookkept (fullCryptoStart m) := by
  have h := fullProgress_start m
  refine ⟨h.fog.inBounds (Nat.zero_le _), h.hostAggregate.inBounds (Nat.zero_le _),
    h.storage.inBounds (Nat.zero_le _), fun call hcall ↦ ?_⟩
  cases hcall

/-- When the runs of a mode keep their books, whatever memory there is and whatever the
calls return. -/
theorem fullBookkept_iff {C A Env : Type} (modeOf : Env → FullCryptoMode C A) {env₀ : Env}
    (h₀ : Reliable (modeOf env₀)) (width : ℕ) (m : UInt32) :
    (∀ (calloc : Calloc width) env,
      FullBookkept (finalState (fullCryptoBench (modeOf env) calloc m) (fullCryptoStart m))) ↔
      (FullSizesFit width m → 3 * m.toNat < 2 ^ 32) := by
  constructor
  · intro h hfit
    by_contra hwrap
    exact not_fullBookkept h₀ (fullAllocated_generous hfit) (not_lt.mp hwrap) (h _ _)
  · intro h calloc env
    by_cases hcalloc : FullAllocated calloc m
    · exact fullBookkept_of_lt _ calloc (h hcalloc.fit)
    · rw [finalState_of_not_allocated _ hcalloc]
      exact fullBookkept_start m

theorem finalState_bench_of_not_allocated {calloc : Calloc width} {env : BenchEnv}
    (h : ¬ calloc.succeeds .fog m.toNat = true) :
    finalState (benchMain calloc env m) (benchStart m) = benchStart m := by
  rw [Bool.not_eq_true] at h
  unfold benchMain
  dsimp only
  rw [h]
  rfl

theorem benchBookkept_start (m : UInt32) : BenchBookkept (benchStart m) :=
  (benchProgress_start m (m.toNat + 10)).bookkept (Nat.add_sub_cancel _ _) (Nat.zero_le _)
    (Nat.zero_le _) (Nat.zero_le _)

theorem benchBookkept_iff (width : ℕ) (m : UInt32) :
    (∀ (calloc : Calloc width) env,
      BenchBookkept (finalState (benchMain calloc env m) (benchStart m))) ↔
      (8 * m.toNat < 2 ^ width → m.toNat + 10 < 2 ^ 32) := by
  constructor
  · intro h hfit
    by_contra hwrap
    exact not_benchBookkept benchReliable_benchDemoEnv (decide_eq_true hfit) (not_lt.mp hwrap)
      (h (generousCalloc width) _)
  · intro h calloc env
    by_cases hcalloc : calloc.succeeds .fog m.toNat = true
    · exact benchBookkept_of_lt calloc env (h (calloc.fits _ _ hcalloc))
    · rw [finalState_bench_of_not_allocated hcalloc]
      exact benchBookkept_start m

/-- In both modes of the full benchmark, every run with a count keeps its books exactly if
the arrays cannot be allocated or three times the count is less than `2 ^ 32`; in the fog
benchmark, exactly if the array cannot be or the count with the warm-up is. -/
theorem bookkeeping_exact_iff (width : ℕ) (m : UInt32) :
    ((∀ (calloc : Calloc width) env,
        FullBookkept (finalState (fullCryptoMain calloc env m) (fullCryptoStart m))) ↔
      (FullSizesFit width m → 3 * m.toNat < 2 ^ 32)) ∧
    ((∀ (calloc : Calloc width) env,
        FullBookkept (finalState (runHostReference2048 calloc env m) (fullCryptoStart m))) ↔
      (FullSizesFit width m → 3 * m.toNat < 2 ^ 32)) ∧
    ((∀ (calloc : Calloc width) env,
        BenchBookkept (finalState (benchMain calloc env m) (benchStart m))) ↔
      (8 * m.toNat < 2 ^ width → m.toNat + 10 < 2 ^ 32)) :=
  ⟨fullBookkept_iff liveMode reliable_liveDemoEnv width m,
    fullBookkept_iff reference2048Mode reliable_reference2048DemoEnv width m,
    benchBookkept_iff width m⟩

/-- With a `size_t` of 32 bits, every run with every count keeps its books. -/
theorem bookkeeping_exact_of_width_32 (m : UInt32) (calloc : Calloc 32) :
    (∀ env, FullBookkept (finalState (fullCryptoMain calloc env m) (fullCryptoStart m))) ∧
    (∀ env, FullBookkept (finalState (runHostReference2048 calloc env m) (fullCryptoStart m))) ∧
    ∀ env, BenchBookkept (finalState (benchMain calloc env m) (benchStart m)) := by
  have hfull : FullSizesFit 32 m → 3 * m.toNat < 2 ^ 32 := fun hfit ↦
    lt_of_le_of_lt (Nat.mul_le_mul_right _ (by decide)) hfit.2
  have hbench : 8 * m.toNat < 2 ^ 32 → m.toNat + 10 < 2 ^ 32 := fun hfit ↦ by omega
  exact ⟨fun env ↦ (fullBookkept_iff liveMode reliable_liveDemoEnv 32 m).mpr hfull calloc env,
    fun env ↦
      (fullBookkept_iff reference2048Mode reliable_reference2048DemoEnv 32 m).mpr hfull calloc env,
    fun env ↦ (benchBookkept_iff 32 m).mpr hbench calloc env⟩

end Exact

/-- `"1431655766"` -/
def wrappingProduct : CString :=
  ⟨[49, 52, 51, 49, 54, 53, 53, 55, 54, 54], by simp⟩

/-- `"4294967286"` -/
def wrappingSum : CString :=
  ⟨[52, 50, 57, 52, 57, 54, 55, 50, 56, 54], by simp⟩

/-- On 64 bits both counts are accepted and their arrays allocated.  The first leaves the fog
array of the full benchmark with two entries, and the second the fog benchmark without a
measured iteration. -/
theorem bookkeeping_inexact_demo :
    fullCryptoParseArgs 64 [wrappingProduct] = .ok (1431655766, 512) ∧
    ¬ FullBookkept (finalState (fullCryptoMain (generousCalloc 64) liveDemoEnv 1431655766)
      (fullCryptoStart 1431655766)) ∧
    parseIterations 64 [wrappingSum] = .ok 4294967286 ∧
    ¬ BenchBookkept (finalState (benchMain (generousCalloc 64) benchDemoEnv 4294967286)
      (benchStart 4294967286)) := by
  have hfit : FullSizesFit 64 1431655766 := ⟨by decide, by decide⟩
  have hfit' : 8 * (4294967286 : UInt32).toNat < 2 ^ 64 := by decide
  refine ⟨by decide +kernel, ?_, by decide +kernel, ?_⟩
  · exact not_fullBookkept reliable_liveDemoEnv (fullAllocated_generous hfit) (by decide)
  · exact not_benchBookkept benchReliable_benchDemoEnv (decide_eq_true hfit') (by decide)

end SecureIIoT
