import SecureIIoT.Bookkeeping.Calls

/-!
# Bookkeeping of the fog benchmark

The invariant of a run of `secure_iiot_bench`, which fills one array of latencies as long
as it was asked to and two of fixed size.  `benchMain_ended` is what follows for every run.
-/

namespace SecureIIoT

open Host

/-! ## Progress -/

/-- A call of `compute_stats` with the fog latencies of a run of `T` iterations. -/
def FogCall (m : UInt32) (T : ℕ) (call : LatencyArray × UInt32) : Prop :=
  Filled call.1 m.toNat (T - 10) ∧ call.2 = m

/-- A call with the thirty latencies of one of the other commands. -/
def FixedCall (call : LatencyArray × UInt32) : Prop :=
  Filled call.1 30 30 ∧ call.2 = 30

/-- `c` packets were created, and `n`, `q` and `p` samples recorded. -/
structure BenchProgress (m : UInt32) (T c n q p : ℕ) (s : BenchRun BenchVars) : Prop where
  numbered : Numbered s.packets c
  fog : Filled s.vars.fogLatencies m.toNat n
  storage : Filled s.vars.storageLatencies 30 q
  provision : Filled s.vars.provisionLatencies 30 p
  measuredIndex : s.vars.measuredIndex = UInt32.ofNat n
  provMeasured : s.vars.provMeasured = UInt32.ofNat p
  statsCalls : ∀ call ∈ s.statsCalls, FogCall m T call ∨ FixedCall call

variable {m : UInt32} {T c n q p : ℕ} {s : BenchRun BenchVars}

theorem benchProgress_start (m : UInt32) (T : ℕ) :
    BenchProgress m T 0 0 0 0 (benchStart m) where
  numbered := rfl
  fog := filled_empty _
  storage := filled_empty _
  provision := filled_empty _
  measuredIndex := rfl
  provMeasured := rfl
  statsCalls := List.forall_mem_nil _

namespace BenchProgress

theorem packet {packet : SecureSensorPacket} (h : BenchProgress m T c n q p s)
    (hnonce : packet.nonce = benchNonce c) :
    BenchProgress m T (c + 1) n q p { s with packets := s.packets ++ [packet] } :=
  { h with numbered := h.numbered.concat hnonce }

theorem recordFog (h : BenchProgress m T c n q p s) (latency : UInt64) :
    BenchProgress m T c (n + 1) q p { s with vars := s.vars.recordFog latency } :=
  { h with
    fog := by
      rw [BenchVars.recordFog, h.measuredIndex]
      exact h.fog.write latency
    measuredIndex := by
      rw [BenchVars.recordFog, h.measuredIndex, UInt32.ofNat_add]
      rfl }

theorem recordProvision (h : BenchProgress m T c n q p s) (latency : UInt64) :
    BenchProgress m T c n q (p + 1) { s with vars := s.vars.recordProvision latency } :=
  { h with
    provision := by
      rw [BenchVars.recordProvision, h.provMeasured]
      exact h.provision.write latency
    provMeasured := by
      rw [BenchVars.recordProvision, h.provMeasured, UInt32.ofNat_add]
      rfl }

theorem stats {call : LatencyArray × UInt32} (h : BenchProgress m T c n q p s)
    (hcall : FogCall m T call ∨ FixedCall call) :
    BenchProgress m T c n q p { s with statsCalls := s.statsCalls ++ [call] } :=
  { h with
    statsCalls := by
      intro call' hmem
      rw [List.mem_append, List.mem_singleton] at hmem
      rcases hmem with hmem | rfl
      · exact h.statsCalls call' hmem
      · exact hcall }

end BenchProgress

/-! ## The loop over the iterations -/

/-- No call disappoints before the fog latencies are complete. -/
structure BenchReliable (env : BenchEnv) : Prop where
  create : ∀ reading sequence, secureIiotCreatePacket env.evp reading sequence ≠ none
  openRes : env.openRes = 0
  fog : ∀ i packet, (env.invokeFogProcessing i packet).res = 0
  status : ∀ i packet, (env.invokeFogProcessing i packet).output.status = 0

theorem checked_of_zero {ο : Type} {ret : TeecReturn ο} {status : ο → UInt32}
    (hres : ret.res = 0) (hstatus : status ret.output = 0) (failed badStatus : String) :
    ret.checked status failed badStatus = .ok (ret.output, ret.latencyUs) := by
  simp [TeecReturn.checked, hres, hstatus]

theorem ten_le_of_measured {k : ℕ} (hk : k < 2 ^ 32) (h : warmupIters ≤ UInt32.ofNat k) :
    10 ≤ k :=
  (le_ofNat_iff hk).mp h

theorem lt_ten_of_warmup {k : ℕ} (hk : k < 2 ^ 32) (h : ¬ warmupIters ≤ UInt32.ofNat k) :
    k < 10 :=
  not_le.mp fun hle ↦ h ((le_ofNat_iff hk).mpr hle)

theorem benchNonce_eq_bench {k : ℕ} (hk : k < 2 ^ 32) :
    secureIiotBuildDemoNonce (buildBenchReading (UInt32.ofNat k)).sensorId
      (buildBenchReading (UInt32.ofNat k)).windowId (UInt32.ofNat k + 1) = benchNonce k := by
  have hsmall : k % 3 < 2 ^ 32 := lt_of_le_of_lt (Nat.mod_le _ _) hk
  have hmod : UInt32.ofNat k % 3 = UInt32.ofNat (k % 3) := by
    rw [← UInt32.toNat_inj, UInt32.toNat_mod, UInt32.toNat_ofNat_of_lt' hk,
      UInt32.toNat_ofNat_of_lt' hsmall]
    rfl
  rw [benchNonce, ← hmod]
  rfl

/-- Before the fog latencies are complete: where a run of `T` iterations can be stopped. -/
def BenchStopped (m : UInt32) (T : ℕ) (s : BenchRun BenchVars) : Prop :=
  ∃ c n, c ≤ T ∧ n ≤ T - 10 ∧ BenchProgress m T c n 0 0 s

/-- The aggregate is none of the bookkeeping, and adding to it never fails. -/
theorem triple_benchAggregate (result : SecureSensorResult)
    {E : BenchFault → BenchRun BenchVars → Prop} :
    Triple (BenchProgress m T c n 0 0) (benchAggregate result)
      (fun _ ↦ BenchProgress m T c n 0 0) E := by
  have hlen : (result.paillierCiphertext.toList.take
      result.paillierCiphertextLen.toNat).length ≤ intMax :=
    (List.length_take_le' _ _).trans (length_toList_le _)
  unfold benchAggregate
  refine .bind (Q := fun _ ↦ BenchProgress m T c n 0 0) (.get fun s hs ↦ hs) fun _ ↦ ?_
  by_cases hreal : result.realPaillierEnabled ≠ 0
  · rw [if_pos hreal]
    refine .bind (Q := fun _ ↦ BenchProgress m T c n 0 0)
      (triple_setVars fun s hs ↦ { hs with }) fun _ ↦ ?_
    dsimp only
    rw [paillierHostAddCiphertextBytesReal_of_length hlen]
    exact triple_setVars fun s hs ↦ { hs with }
  · rw [if_neg hreal]
    exact triple_setVars fun s hs ↦ { hs with }

theorem triple_benchIteration {env : BenchEnv} {k : ℕ} (hk : k < T) (hT : T ≤ 2 ^ 32) :
    Triple (BenchProgress m T k (k - 10) 0 0) (benchIteration env (UInt32.ofNat k))
      (fun _ ↦ BenchProgress m T (k + 1) (k + 1 - 10) 0 0)
      (fun _ s ↦ ¬ BenchReliable env ∧ BenchStopped m T s) := by
  have hk' : k < 2 ^ 32 := lt_of_lt_of_le hk hT
  unfold benchIteration
  refine .bind (Q := fun _ ↦ BenchProgress m T (k + 1) (k - 10) 0 0)
    (triple_createPacket (fun packet s hnonce hs ↦ hs.packet ?_) fun e s hcreate hs ↦ ?_) fun _ ↦ ?_
  · rw [hnonce, benchNonce_eq_bench hk']
  · exact ⟨fun hreliable ↦ hreliable.create _ _ hcreate, _, _, by omega, by omega, hs⟩
  refine .bind_fromExcept (fun e s hfog hs ↦ ?_) fun _ _ ↦ ?_
  · refine ⟨fun hreliable ↦ ?_, _, _, by omega, by omega, hs⟩
    rw [checked_of_zero (hreliable.fog _ _) (hreliable.status _ _)] at hfog
    cases hfog
  refine .of_doIf (fun hmeasured ↦ ?_) fun hwarmup s hs ↦ ?_
  · rw [Nat.succ_sub (ten_le_of_measured hk' hmeasured)]
    exact .bind (triple_setVars fun s hs ↦ hs.recordFog _) fun _ ↦ triple_benchAggregate _
  · have hnext : k + 1 - 10 = k - 10 := by
      have hten := lt_ten_of_warmup hk' hwarmup
      omega
    rwa [hnext]

theorem triple_benchIterations {env : BenchEnv} (hT : T ≤ 2 ^ 32) :
    Triple (BenchProgress m T 0 0 0 0)
      ((List.range T).foldlM (fun () i ↦ benchIteration env (UInt32.ofNat i)) ())
      (fun _ ↦ BenchProgress m T T (T - 10) 0 0)
      (fun _ s ↦ ¬ BenchReliable env ∧ BenchStopped m T s) := by
  exact Triple.foldlM_range _ T (fun k () ↦ BenchProgress m T k (k - 10) 0 0)
    (fun k hk _ ↦ triple_benchIteration hk hT) ()

/-! ## The other commands -/

/-- After the fog latencies are complete: `compute_stats` was called with them, and `q` and
`p` samples of the other commands are recorded. -/
def BenchAfter (m : UInt32) (T q p : ℕ) (s : BenchRun BenchVars) : Prop :=
  BenchProgress m T T (T - 10) q p s ∧ ∃ call ∈ s.statsCalls, FogCall m T call

/-- Somewhere after the fog latencies are complete. -/
def BenchPast (m : UInt32) (T : ℕ) (s : BenchRun BenchVars) : Prop :=
  ∃ q p, q ≤ 30 ∧ p ≤ 30 ∧ BenchAfter m T q p s

theorem BenchAfter.stats {call : LatencyArray × UInt32} (h : BenchAfter m T q p s)
    (hcall : FixedCall call) :
    BenchAfter m T q p { s with statsCalls := s.statsCalls ++ [call] } := by
  obtain ⟨hs, fogCall, hmem, hfog⟩ := h
  exact ⟨hs.stats (.inr hcall), fogCall, List.mem_append_left _ hmem, hfog⟩

theorem triple_benchStorage {env : BenchEnv} {total : UInt32} {i : ℕ} (hi : i < 30) :
    Triple (BenchAfter m T i 0) (benchStorage env total (UInt32.ofNat i))
      (fun _ ↦ BenchAfter m T (i + 1) 0) (fun _ ↦ BenchPast m T) := by
  have hpast : ∀ s, BenchAfter m T i 0 s → BenchPast m T s := fun s hs ↦
    ⟨i, 0, hi.le, Nat.zero_le _, hs⟩
  unfold benchStorage
  refine .bind (Q := fun _ ↦ BenchAfter m T i 0) (.get fun s hs ↦ hs) fun _ ↦ ?_
  refine .bind_fromExcept (fun _ s _ hs ↦ hpast s hs) fun _ _ ↦ ?_
  exact triple_setVars fun s hs ↦ ⟨{ hs.1 with storage := hs.1.storage.write _ }, hs.2⟩

/-- The storage commands are made and reported, or skipped. -/
theorem triple_benchStorageStats {width : ℕ} {calloc : Calloc width} {env : BenchEnv}
    {total : UInt32} :
    Triple (BenchAfter m T 0 0) (benchStorageStats calloc env total)
      (fun _ s ↦ ∃ q ≤ 30, BenchAfter m T q 0 s) (fun _ ↦ BenchPast m T) := by
  unfold benchStorageStats
  refine .bind (Q := fun _ ↦ BenchAfter m T 0 0) (.get fun s hs ↦ hs) fun s₀ ↦ ?_
  by_cases hreal : s₀.vars.sawRealPaillier = true
  · rw [if_pos hreal]
    exact .pure fun s hs ↦ ⟨0, Nat.zero_le _, hs⟩
  · rw [if_neg hreal]
    refine .bind (.foldlM_range _ _ (fun i () ↦ BenchAfter m T i 0)
      (fun i hi _ ↦ triple_benchStorage hi) ()) fun _ ↦ ?_
    exact (triple_callComputeStats (Q := BenchAfter m T 30 0) fun s hs ↦
      hs.stats ⟨hs.1.storage, rfl⟩).conseq (fun _ hs ↦ hs) (fun _ s hs ↦ ⟨30, le_rfl, hs⟩)
      fun _ s hs ↦ ⟨30, 0, le_rfl, Nat.zero_le _, hs⟩

theorem triple_benchProvision {env : BenchEnv} {i : ℕ} (hq : q ≤ 30) (hi : i < 40) :
    Triple (BenchAfter m T q (i - 10)) (benchProvision env (UInt32.ofNat i))
      (fun _ ↦ BenchAfter m T q (i + 1 - 10)) (fun _ ↦ BenchPast m T) := by
  have hi' : i < 2 ^ 32 := by omega
  have hp : i - 10 ≤ 30 := by omega
  unfold benchProvision
  refine .bind_fromExcept (fun _ s _ hs ↦ ⟨q, i - 10, hq, hp, hs⟩) fun _ _ ↦ ?_
  refine .of_doIf (fun hmeasured ↦ ?_) fun hwarmup s hs ↦ ?_
  · rw [Nat.succ_sub (ten_le_of_measured hi' hmeasured)]
    exact triple_setVars fun s hs ↦ ⟨hs.1.recordProvision _, hs.2⟩
  · have hnext : i + 1 - 10 = i - 10 := by
      have hten := lt_ten_of_warmup hi' hwarmup
      omega
    rwa [hnext]

theorem triple_benchProvisions {env : BenchEnv} (hq : q ≤ 30) :
    Triple (BenchAfter m T q 0)
      ((List.range (warmupIters + provisionBenchIters).toNat).foldlM
        (fun () i ↦ benchProvision env (UInt32.ofNat i)) ())
      (fun _ ↦ BenchAfter m T q 30) (fun _ ↦ BenchPast m T) := by
  exact Triple.foldlM_range _ _ (fun i () ↦ BenchAfter m T q (i - 10))
    (fun i hi _ ↦ triple_benchProvision hq hi) ()

/-! ## A whole run -/

section Run

variable {width : ℕ}

/-- How a run ends: a call failed before the fog latencies were complete, or the run is
past them. -/
def BenchEnded (env : BenchEnv) (calloc : Calloc width) (m : UInt32)
    (s : BenchRun BenchVars) : Prop :=
  ¬ (BenchReliable env ∧ calloc.succeeds .fog m.toNat = true) ∧
      BenchStopped m (warmupIters + m).toNat s ∨
    BenchPast m (warmupIters + m).toNat s

theorem triple_benchMain (calloc : Calloc width) (env : BenchEnv) (m : UInt32) :
    Triple (BenchProgress m (warmupIters + m).toNat 0 0 0 0) (benchMain calloc env m)
      (fun _ ↦ BenchEnded env calloc m) (fun _ ↦ BenchEnded env calloc m) := by
  have hT : (warmupIters + m).toNat ≤ 2 ^ 32 := (UInt32.toNat_lt _).le
  unfold benchMain
  generalize htotal : warmupIters + m = total at hT ⊢
  have hstopped : ∀ s, BenchProgress m total.toNat 0 0 0 0 s → BenchStopped m total.toNat s :=
    fun s hs ↦ ⟨0, 0, Nat.zero_le _, Nat.zero_le _, hs⟩
  have hpast : ∀ s, BenchPast m total.toNat s → BenchEnded env calloc m s := fun s hs ↦
    .inr (htotal ▸ hs)
  have hbefore : ∀ s, ¬ (BenchReliable env ∧ calloc.succeeds .fog m.toNat = true) →
      BenchStopped m total.toNat s → BenchEnded env calloc m s := fun s hcalls hs ↦
    .inl ⟨hcalls, htotal ▸ hs⟩
  refine .bind_fromExcept (fun e s hallocate hs ↦ hbefore s (fun hcalls ↦ ?_) (hstopped s hs))
    fun _ _ ↦ ?_
  · rw [allocateLatencies_of_succeeds hcalls.2] at hallocate
    cases hallocate
  refine .bind_fromExcept (fun e s hopen hs ↦ hbefore s (fun hcalls ↦ ?_) (hstopped s hs))
    fun _ _ ↦ ?_
  · rw [openSession, hcalls.1.openRes] at hopen
    cases hopen
  refine .bind ((triple_benchIterations hT).mono_error fun e s hs ↦
    hbefore s (fun hcalls ↦ hs.1 hcalls.1) hs.2) fun _ ↦ ?_
  refine .bind ((triple_callComputeStats (Q := BenchAfter m total.toNat 0 0) fun s hs ↦
    ⟨hs.stats (.inl ⟨hs.fog, rfl⟩), _, List.mem_append_right _ (List.mem_singleton_self _), hs.fog,
      rfl⟩).mono_error fun _ s hs ↦ hpast s ⟨0, 0, Nat.zero_le _, Nat.zero_le _, hs⟩) fun _ ↦ ?_
  refine .bind (triple_benchStorageStats.mono_error fun _ s hs ↦ hpast s hs) fun _ ↦ ?_
  rintro s ⟨q, hq, hs⟩
  refine Triple.bind ((triple_benchProvisions hq).mono_error fun _ s hs ↦ hpast s hs) (fun _ ↦ ?_)
    s hs
  have hend : ∀ s, BenchAfter m total.toNat q 30 s → BenchEnded env calloc m s := fun s hs ↦
    hpast s ⟨q, 30, hq, le_rfl, hs⟩
  refine .bind ((triple_callComputeStats (Q := BenchAfter m total.toNat q 30) fun s hs ↦
    hs.stats ⟨hs.1.provision, rfl⟩).mono_error fun _ s hs ↦ hend s hs) fun _ ↦ ?_
  exact .pure hend

/-- How every run ends. -/
theorem benchMain_ended (calloc : Calloc width) (env : BenchEnv) (m : UInt32) :
    BenchEnded env calloc m (finalState (benchMain calloc env m) (benchStart m)) :=
  (triple_benchMain calloc env m).ends (benchProgress_start m _)

end Run

end SecureIIoT
