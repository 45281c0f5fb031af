import Mathlib.Tactic.IntervalCases
import SecureIIoT.Bookkeeping.Calls
import SecureIIoT.Host.FullCryptoBench

/-!
# Bookkeeping of the full benchmark

The invariant of a run of `secure_iiot_full_crypto_bench` says how many packets it has
created and how far each of the three arrays is filled.  It is the same for both modes, and
a step on the way breaks off only if a call of the mode fails (`triple_reading`,
`triple_iteration`).  `fullCryptoBench_ended` is what follows for every run.
-/

namespace SecureIIoT

open Host

/-! ## Progress -/

/-- The calls of `compute_stats`, first to last. -/
def fullCryptoStatsCalls (m : UInt32) (v : FullCryptoVars) : List (LatencyArray × UInt32) :=
  [(v.fogLatencies, m * secureIiotDemoReadingCount), (v.hostAggregateLatencies, m),
    (v.storageLatencies, m)]

/-- `c` packets were created, `n`, `j` and `j'` samples recorded, and `r` calls of
`compute_stats` made. -/
structure FullProgress (m : UInt32) (c n j j' r : ℕ) (s : BenchRun FullCryptoVars) : Prop where
  numbered : Numbered s.packets c
  fog : Filled s.vars.fogLatencies (m * secureIiotDemoReadingCount).toNat n
  hostAggregate : Filled s.vars.hostAggregateLatencies m.toNat j
  storage : Filled s.vars.storageLatencies m.toNat j'
  fogIndex : s.vars.fogIndex = UInt32.ofNat n
  pipelineIndex : s.vars.pipelineIndex = UInt32.ofNat j'
  statsCalls : s.statsCalls = (fullCryptoStatsCalls m s.vars).take r

variable {m : UInt32} {c n j j' r : ℕ} {s : BenchRun FullCryptoVars}

theorem fullProgress_start (m : UInt32) : FullProgress m 0 0 0 0 0 (fullCryptoStart m) where
  numbered := rfl
  fog := filled_empty _
  hostAggregate := filled_empty _
  storage := filled_empty _
  fogIndex := rfl
  pipelineIndex := rfl
  statsCalls := rfl

theorem FullProgress.packet {packet : SecureSensorPacket} (h : FullProgress m c n j j' r s)
    (hnonce : packet.nonce = benchNonce c) :
    FullProgress m (c + 1) n j j' r { s with packets := s.packets ++ [packet] } :=
  { h with numbered := h.numbered.concat hnonce }

theorem FullProgress.recordFog (h : FullProgress m c n j j' 0 s) (latency : UInt64) :
    FullProgress m c (n + 1) j j' 0 { s with vars := s.vars.recordFog latency } :=
  { h with
    fog := by
      rw [FullCryptoVars.recordFog, h.fogIndex]
      exact h.fog.write latency
    fogIndex := by
      rw [FullCryptoVars.recordFog, h.fogIndex, UInt32.ofNat_add]
      rfl }

theorem FullProgress.recordHostAggregate (h : FullProgress m c n j j 0 s) (latency : UInt64) :
    FullProgress m c n (j + 1) j 0 { s with vars := s.vars.recordHostAggregate latency } :=
  { h with
    hostAggregate := by
      rw [FullCryptoVars.recordHostAggregate, h.pipelineIndex]
      exact h.hostAggregate.write latency }

theorem FullProgress.recordStorage (h : FullProgress m c n j j' 0 s) (latency : UInt64) :
    FullProgress m c n j (j' + 1) 0 { s with vars := s.vars.recordStorage latency } :=
  { h with
    storage := by
      rw [FullCryptoVars.recordStorage, h.pipelineIndex]
      exact h.storage.write latency
    pipelineIndex := by
      rw [FullCryptoVars.recordStorage, h.pipelineIndex, UInt32.ofNat_add]
      rfl }

/-- A run of `T` iterations that a call stopped. -/
def FullStopped (m : UInt32) (T : ℕ) (s : BenchRun FullCryptoVars) : Prop :=
  ∃ c n j j', c ≤ 3 * T ∧ n ≤ 3 * T - 9 ∧ j ≤ T - 3 ∧ j' ≤ T - 3 ∧ FullProgress m c n j j' 0 s

/-- No call disappoints: packets are created, and the work of the mode is done. -/
structure Reliable {C A : Type} (mode : FullCryptoMode C A) : Prop where
  create : ∀ reading sequence, secureIiotCreatePacket mode.evp reading sequence ≠ none
  setup : ∀ e, mode.setup ≠ .error e
  fog : ∀ key iteration i reading packet e, mode.fog key iteration i reading packet ≠ .error e
  aggregate : ∀ key iteration ciphertexts e, mode.setup = .ok key →
    mode.aggregate key iteration ciphertexts ≠ .error e
  storage : ∀ key iteration aggregate e, mode.setup = .ok key →
    mode.storage key iteration aggregate ≠ .error e

/-- Warm-up iterations come first, and record nothing. -/
theorem three_le_of_measured {k : ℕ} (hk : k < 2 ^ 32)
    (h : fullCryptoWarmupIters ≤ UInt32.ofNat k) : 3 ≤ k :=
  (le_ofNat_iff hk).mp h

theorem lt_three_of_warmup {k : ℕ} (hk : k < 2 ^ 32)
    (h : ¬ fullCryptoWarmupIters ≤ UInt32.ofNat k) : k < 3 :=
  not_le.mp fun hle ↦ h ((le_ofNat_iff hk).mpr hle)

theorem secureIiotDemoReadings_getElem {i : ℕ} (hi : i < secureIiotDemoReadings.length) :
    secureIiotDemoReadings[i].sensorId = UInt32.ofNat i + 1 ∧
      secureIiotDemoReadings[i].windowId = 1 := by
  change i < 3 at hi
  interval_cases i
  all_goals exact ⟨rfl, rfl⟩

/-- The number of a packet, from the iteration and the reading. -/
theorem benchNonce_eq {k i : ℕ} (hi : i < 3) :
    benchNonce (3 * k + i) = secureIiotBuildDemoNonce (UInt32.ofNat i + 1) 1
      (UInt32.ofNat k * secureIiotDemoReadingCount + UInt32.ofNat i + 1) := by
  have hmod : (3 * k + i) % 3 = i := by omega
  rw [benchNonce, hmod, UInt32.ofNat_add, UInt32.ofNat_mul, UInt32.mul_comm]
  rfl

/-! ## One iteration -/

section Iteration

variable {C A : Type} {mode : FullCryptoMode C A} {key : PaillierKey} {T k i : ℕ}

/-- Where an iteration stops, a call has failed. -/
abbrev FullFailed (mode : FullCryptoMode C A) (m : UInt32) (T : ℕ) (_ : BenchFault)
    (s : BenchRun FullCryptoVars) : Prop :=
  ¬ Reliable mode ∧ FullStopped m T s

theorem triple_reading (hk : k < T) (hT : T ≤ 2 ^ 32) (hi : i < 3) {ciphertexts : List C}
    {reading : SensorPlaintext} (hsensor : reading.sensorId = UInt32.ofNat i + 1)
    (hwindow : reading.windowId = 1) :
    Triple (FullProgress m (3 * k + i) (3 * k + i - 9) (k - 3) (k - 3) 0)
      (fullCryptoReading mode key (UInt32.ofNat k) ciphertexts reading (UInt32.ofNat i))
      (fun _ ↦ FullProgress m (3 * k + i + 1) (3 * k + i + 1 - 9) (k - 3) (k - 3) 0)
      (FullFailed mode m T) := by
  unfold fullCryptoReading
  refine .bind (Q := fun _ ↦ FullProgress m (3 * k + i + 1) (3 * k + i - 9) (k - 3) (k - 3) 0)
    (triple_createPacket (fun packet s hnonce hs ↦ hs.packet ?_) fun e s hcreate hs ↦ ?_) fun _ ↦ ?_
  · rw [hnonce, hsensor, hwindow, benchNonce_eq hi]
  · exact ⟨fun hreliable ↦ hreliable.create _ _ hcreate, _, _, _, _, by omega, by omega, by omega,
      by omega, hs⟩
  refine .bind_fromExcept (fun e s hfog hs ↦ ?_) fun _ _ ↦ ?_
  · exact ⟨fun hreliable ↦ hreliable.fog _ _ _ _ _ _ hfog, _, _, _, _, by omega, by omega,
      by omega, by omega, hs⟩
  refine .bind (Q := fun _ ↦
    FullProgress m (3 * k + i + 1) (3 * k + i + 1 - 9) (k - 3) (k - 3) 0) (.of_doIf ?_ ?_) fun _ ↦
    .pure fun s hs ↦ hs
  · intro hmeasured
    have hthree : 3 ≤ k := three_le_of_measured (by omega) hmeasured
    have hnext : 3 * k + i + 1 - 9 = 3 * k + i - 9 + 1 := by omega
    rw [hnext]
    exact triple_setVars fun s hs ↦ hs.recordFog _
  · intro hwarmup s hs
    have hthree : k < 3 := lt_three_of_warmup (by omega) hwarmup
    have hnext : 3 * k + i + 1 - 9 = 3 * k + i - 9 := by omega
    rwa [hnext]

/-- The loop over the readings. -/
theorem triple_readings (hk : k < T) (hT : T ≤ 2 ^ 32) :
    Triple (FullProgress m (3 * k) (3 * k - 9) (k - 3) (k - 3) 0)
      (secureIiotDemoReadings.zipIdx.foldlM (fun ciphertexts (reading, i) ↦
        fullCryptoReading mode key (UInt32.ofNat k) ciphertexts reading (UInt32.ofNat i)) [])
      (fun _ ↦ FullProgress m (3 * (k + 1)) (3 * (k + 1) - 9) (k - 3) (k - 3) 0)
      (FullFailed mode m T) := by
  refine Triple.foldlM _ _ (fun i (_ : List C) ↦
    FullProgress m (3 * k + i) (3 * k + i - 9) (k - 3) (k - 3) 0) (fun i hi ciphertexts ↦ ?_) []
  rw [List.length_zipIdx] at hi
  obtain ⟨hsensor, hwindow⟩ := secureIiotDemoReadings_getElem hi
  rw [List.getElem_zipIdx, Nat.zero_add]
  exact triple_reading hk hT hi hsensor hwindow

theorem triple_iteration (hk : k < T) (hT : T ≤ 2 ^ 32) (hsetup : mode.setup = .ok key) :
    Triple (FullProgress m (3 * k) (3 * k - 9) (k - 3) (k - 3) 0)
      (fullCryptoIteration mode key (UInt32.ofNat k))
      (fun _ ↦ FullProgress m (3 * (k + 1)) (3 * (k + 1) - 9) (k + 1 - 3) (k + 1 - 3) 0)
      (FullFailed mode m T) := by
  have hmeasured : fullCryptoWarmupIters ≤ UInt32.ofNat k → k + 1 - 3 = k - 3 + 1 := by
    intro hle
    exact Nat.succ_sub (three_le_of_measured (by omega) hle)
  have hwarmup : ¬ fullCryptoWarmupIters ≤ UInt32.ofNat k → k + 1 - 3 = k - 3 := by
    intro hlt
    have hthree : k < 3 := lt_three_of_warmup (by omega) hlt
    omega
  unfold fullCryptoIteration
  refine .bind (triple_readings hk hT) fun ciphertexts ↦ ?_
  refine .bind_fromExcept (fun e s haggregate hs ↦ ?_) fun _ _ ↦ ?_
  · exact ⟨fun hreliable ↦ hreliable.aggregate _ _ _ _ hsetup haggregate, _, _, _, _, by omega,
      by omega, by omega, by omega, hs⟩
  refine .bind (Q := fun _ ↦ FullProgress m (3 * (k + 1)) (3 * (k + 1) - 9) (k + 1 - 3) (k - 3) 0)
    (.of_doIf (fun hle ↦ ?_) fun hlt s hs ↦ ?_) fun _ ↦ ?_
  · rw [hmeasured hle]
    exact triple_setVars fun s hs ↦ hs.recordHostAggregate _
  · rwa [hwarmup hlt]
  refine .bind_fromExcept (fun e s hstorage hs ↦ ?_) fun _ _ ↦ ?_
  · exact ⟨fun hreliable ↦ hreliable.storage _ _ _ _ hsetup hstorage, _, _, _, _, by omega,
      by omega, by omega, by omega, hs⟩
  refine .of_doIf (fun hle ↦ ?_) fun hlt s hs ↦ ?_
  · rw [hmeasured hle]
    exact triple_setVars fun s hs ↦ hs.recordStorage _
  · rw [hwarmup hlt] at hs ⊢
    exact hs

end Iteration

/-! ## A whole run -/

section Run

variable {C A : Type} {width : ℕ}

/-- The three arrays of latencies can be allocated. -/
def FullAllocated (calloc : Calloc width) (m : UInt32) : Prop :=
  (calloc.succeeds .fog (m * secureIiotDemoReadingCount).toNat &&
    calloc.succeeds .hostAggregate m.toNat && calloc.succeeds .storage m.toNat) = true

/-- How a run ends: a call failed on the way, or all iterations were made and `compute_stats`
called. -/
def FullEnded (mode : FullCryptoMode C A) (calloc : Calloc width) (m : UInt32)
    (s : BenchRun FullCryptoVars) : Prop :=
  ¬ (Reliable mode ∧ FullAllocated calloc m) ∧
      FullStopped m (fullCryptoWarmupIters + m).toNat s ∨
    ∃ T, T = (fullCryptoWarmupIters + m).toNat ∧
      ∃ r, FullProgress m (3 * T) (3 * T - 9) (T - 3) (T - 3) (r + 1) s

/-- The loop over the iterations. -/
theorem triple_iterations {mode : FullCryptoMode C A} {key : PaillierKey}
    (hsetup : mode.setup = .ok key) {T : ℕ} (hT : T ≤ 2 ^ 32) :
    Triple (FullProgress m 0 0 0 0 0)
      ((List.range T).foldlM
        (fun () iteration ↦ fullCryptoIteration mode key (UInt32.ofNat iteration)) ())
      (fun _ ↦ FullProgress m (3 * T) (3 * T - 9) (T - 3) (T - 3) 0) (FullFailed mode m T) := by
  exact Triple.foldlM_range _ T (fun k () ↦ FullProgress m (3 * k) (3 * k - 9) (k - 3) (k - 3) 0)
    (fun k hk _ ↦ triple_iteration hk hT hsetup) ()

/-- A call of `compute_stats` after the loop is the next one of the three. -/
theorem FullProgress.stats {c n j j' r : ℕ} {s : BenchRun FullCryptoVars}
    (h : FullProgress m c n j j' r s) {call : LatencyArray × UInt32}
    (hcall : (fullCryptoStatsCalls m s.vars)[r]? = some call) :
    FullProgress m c n j j' (r + 1) { s with statsCalls := s.statsCalls ++ [call] } :=
  { h with
    statsCalls := by
      rw [List.take_add_one, hcall, h.statsCalls]
      rfl }

/-- The first call is the one with the fog latencies. -/
theorem FullProgress.fogCall_mem {c n j j' r : ℕ} {s : BenchRun FullCryptoVars}
    (h : FullProgress m c n j j' (r + 1) s) :
    (s.vars.fogLatencies, m * secureIiotDemoReadingCount) ∈ s.statsCalls := by
  rw [h.statsCalls]
  exact List.mem_cons_self

/-- One more call of `compute_stats` does not change how a run ends. -/
theorem triple_stats {R : Type} {mode : FullCryptoMode C A} {calloc : Calloc width} {T r : ℕ}
    (hT : T = (fullCryptoWarmupIters + m).toNat)
    (computeStats : List UInt64 → UInt32 → Except BenchFault R)
    {array : FullCryptoVars → LatencyArray} {count : UInt32}
    (hcall : ∀ v, (fullCryptoStatsCalls m v)[r]? = some (array v, count)) :
    Triple (FullProgress m (3 * T) (3 * T - 9) (T - 3) (T - 3) r)
      (callComputeStats computeStats array count)
      (fun _ ↦ FullProgress m (3 * T) (3 * T - 9) (T - 3) (T - 3) (r + 1))
      (fun _ ↦ FullEnded mode calloc m) :=
  (triple_callComputeStats fun _ hs ↦ hs.stats (hcall _)).mono_error fun _ _ hs ↦
    .inr ⟨T, hT, r, hs⟩

theorem triple_fullCryptoBench (mode : FullCryptoMode C A) (calloc : Calloc width) (m : UInt32) :
    Triple (FullProgress m 0 0 0 0 0) (fullCryptoBench mode calloc m)
      (fun _ ↦ FullEnded mode calloc m) (fun _ ↦ FullEnded mode calloc m) := by
  have hstopped : ∀ {s T}, FullProgress m 0 0 0 0 0 s → FullStopped m T s := fun hs ↦
    ⟨0, 0, 0, 0, Nat.zero_le _, Nat.zero_le _, Nat.zero_le _, Nat.zero_le _, hs⟩
  unfold fullCryptoBench
  refine .bind_fromExcept (fun e s hallocate hs ↦ .inl ⟨fun hcalls ↦ ?_, hstopped hs⟩) fun _ _ ↦ ?_
  · rw [allocateLatencies_of_succeeds hcalls.2] at hallocate
    cases hallocate
  refine .bind_fromExcept (fun e s hsetup hs ↦
    .inl ⟨fun hcalls ↦ hcalls.1.setup e hsetup, hstopped hs⟩) fun key hsetup ↦ ?_
  refine .bind ((triple_iterations hsetup (UInt32.toNat_lt _).le).mono_error fun e s hs ↦
    .inl ⟨fun hcalls ↦ hs.1 hcalls.1, hs.2⟩) fun _ ↦ ?_
  refine .bind (triple_stats rfl _ fun _ ↦ rfl) fun _ ↦ ?_
  refine .bind (triple_stats rfl _ fun _ ↦ rfl) fun _ ↦ ?_
  refine .bind (triple_stats rfl _ fun _ ↦ rfl) fun _ ↦ ?_
  exact .pure fun s hs ↦ .inr ⟨_, rfl, 2, hs⟩

/-- How every run ends. -/
theorem fullCryptoBench_ended (mode : FullCryptoMode C A) (calloc : Calloc width) (m : UInt32) :
    FullEnded mode calloc m (finalState (fullCryptoBench mode calloc m) (fullCryptoStart m)) :=
  (triple_fullCryptoBench mode calloc m).ends (fullProgress_start m)

end Run

end SecureIIoT
