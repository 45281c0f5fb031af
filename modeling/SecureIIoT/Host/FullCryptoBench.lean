import SecureIIoT.Host.Bench

/-!
# `secure_iiot_full_crypto_bench`

`main` and `run_host_reference_2048` of `host/main_full_crypto_bench.c`, from the parsed
arguments on.  The two differ in the work that is timed and agree in everything around it:
a `FullCryptoMode` is the work, and `fullCryptoBench` the rest.
-/

namespace SecureIIoT

namespace Host

/-- `FULL_CRYPTO_WARMUP_ITERS` -/
def fullCryptoWarmupIters : UInt32 := 3

/-- `secure_iiot_demo_readings` -/
def secureIiotDemoReadings : List SensorPlaintext :=
  [{ sensorId := 1, fogId := 1, windowId := 1, readingScaled := 25000,
     timestampMs := 1710000000001 },
   { sensorId := 2, fogId := 1, windowId := 1, readingScaled := 30000,
     timestampMs := 1710000000002 },
   { sensorId := 3, fogId := 1, windowId := 1, readingScaled := 18000,
     timestampMs := 1710000000003 }]

/-- `secure_iiot_demo_reading_count` -/
def secureIiotDemoReadingCount : UInt32 :=
  UInt32.ofNat secureIiotDemoReadings.length

/-- `secure_iiot_elapsed_us`, of the two times that a piece of work is put between. -/
def secureIiotElapsedUs (times : UInt64 × UInt64) : UInt64 :=
  times.2 - times.1

/-! ## What both modes share -/

/-- The variables that change. -/
structure FullCryptoVars where
  fogLatencies : LatencyArray
  hostAggregateLatencies : LatencyArray
  storageLatencies : LatencyArray
  fogIndex : UInt32
  pipelineIndex : UInt32

/-- The state before the first iteration. -/
def fullCryptoStart (measuredIterations : UInt32) : BenchRun FullCryptoVars where
  vars :=
    { fogLatencies := ⟨(measuredIterations * secureIiotDemoReadingCount).toNat, []⟩
      hostAggregateLatencies := ⟨measuredIterations.toNat, []⟩
      storageLatencies := ⟨measuredIterations.toNat, []⟩
      fogIndex := 0
      pipelineIndex := 0 }
  packets := []
  statsCalls := []

namespace FullCryptoVars

/-- `fog_latencies[fog_index++] = …` -/
def recordFog (v : FullCryptoVars) (latency : UInt64) : FullCryptoVars :=
  { v with
    fogLatencies := v.fogLatencies.write v.fogIndex latency
    fogIndex := v.fogIndex + 1 }

/-- `host_aggregate_latencies[pipeline_index] = …` -/
def recordHostAggregate (v : FullCryptoVars) (latency : UInt64) : FullCryptoVars :=
  { v with
    hostAggregateLatencies := v.hostAggregateLatencies.write v.pipelineIndex latency }

/-- `storage_latencies[pipeline_index] = …; pipeline_index++` -/
def recordStorage (v : FullCryptoVars) (latency : UInt64) : FullCryptoVars :=
  { v with
    storageLatencies := v.storageLatencies.write v.pipelineIndex latency
    pipelineIndex := v.pipelineIndex + 1 }

end FullCryptoVars

/-- The work of a mode: what comes before the first iteration, what is done with a packet,
with the ciphertexts `C` of an iteration and with their aggregate `A`, each with its
latency. -/
structure FullCryptoMode (C A : Type) where
  evp : EvpCrypto
  setup : Except BenchFault PaillierKey
  fog : (key : PaillierKey) → (iteration i : UInt32) → SensorPlaintext → SecureSensorPacket →
    Except BenchFault (C × UInt64)
  aggregate : (key : PaillierKey) → (iteration : UInt32) → List C → Except BenchFault (A × UInt64)
  storage : (key : PaillierKey) → (iteration : UInt32) → A → Except BenchFault UInt64

section Mode

variable {C A : Type} (mode : FullCryptoMode C A) (key : PaillierKey)

/-- The body of the loop over the readings. -/
def fullCryptoReading (iteration : UInt32) (ciphertexts : List C) (reading : SensorPlaintext)
    (i : UInt32) : BenchM FullCryptoVars (List C) := do
  let reading :=
    { reading with timestampMs := reading.timestampMs + iteration.toUInt64 * 1000 }
  let packet ← createPacket mode.evp reading (iteration * secureIiotDemoReadingCount + i + 1)
  let (ciphertext, latency) ← fromExcept (mode.fog key iteration i reading packet)
  doIf (fullCryptoWarmupIters ≤ iteration) (setVars (·.recordFog latency))
  return ciphertexts ++ [ciphertext]

/-- The body of the loop over the iterations. -/
def fullCryptoIteration (iteration : UInt32) : BenchM FullCryptoVars Unit := do
  let ciphertexts ← secureIiotDemoReadings.zipIdx.foldlM
    (fun ciphertexts (reading, i) ↦
      fullCryptoReading mode key iteration ciphertexts reading (UInt32.ofNat i)) []
  let (aggregate, latency) ← fromExcept (mode.aggregate key iteration ciphertexts)
  doIf (fullCryptoWarmupIters ≤ iteration) (setVars (·.recordHostAggregate latency))
  let latency ← fromExcept (mode.storage key iteration aggregate)
  doIf (fullCryptoWarmupIters ≤ iteration) (setVars (·.recordStorage latency))

/-- A benchmark in a mode, with the statistics of the three arrays. -/
def fullCryptoBench {width : ℕ} (calloc : Calloc width) (measuredIterations : UInt32) :
    BenchM FullCryptoVars (Summary × Summary × Summary) := do
  let totalIterations := fullCryptoWarmupIters + measuredIterations
  let fogCount := measuredIterations * secureIiotDemoReadingCount
  fromExcept (allocateLatencies (calloc.succeeds .fog fogCount.toNat &&
    calloc.succeeds .hostAggregate measuredIterations.toNat &&
    calloc.succeeds .storage measuredIterations.toNat))
  let key ← fromExcept mode.setup
  (List.range totalIterations.toNat).foldlM
    (fun () iteration ↦ fullCryptoIteration mode key (UInt32.ofNat iteration)) ()
  let fog ← callComputeStats (fullCryptoComputeStats (calloc.succeeds (.sorted 0)) width)
    (·.fogLatencies) fogCount
  let host ← callComputeStats (fullCryptoComputeStats (calloc.succeeds (.sorted 1)) width)
    (·.hostAggregateLatencies) measuredIterations
  let storage ← callComputeStats (fullCryptoComputeStats (calloc.succeeds (.sorted 2)) width)
    (·.storageLatencies) measuredIterations
  return (fog, host, storage)

end Mode

/-! ## The 2048-bit reference on the host -/

/-- What `run_host_reference_2048` calls: the encryption of the packets, the results of
`paillier_host_keygen_demo` and `paillier_host_encrypt_u32`, which draw random numbers, and
the clock. -/
structure Reference2048Env where
  evp : EvpCrypto
  keygenDemo : Option PaillierKey
  encryptU32 : (key : PaillierKey) → (iteration i m : UInt32) → Option ℕ
  encryptTimes : (iteration i : UInt32) → UInt64 × UInt64
  aggregateTimes : (iteration : UInt32) → UInt64 × UInt64
  decryptTimes : (iteration : UInt32) → UInt64 × UInt64

/-- The work of `run_host_reference_2048`. -/
def reference2048Mode (env : Reference2048Env) : FullCryptoMode ℕ ℕ where
  evp := env.evp
  setup :=
    match env.keygenDemo with
    | none => .error (.errx "2048-bit host Paillier key generation failed")
    | some key => .ok key
  fog key iteration i reading _ :=
    match env.encryptU32 key iteration i reading.readingScaled.toUInt32 with
    | none => .error (.errx "2048-bit host Paillier encryption failed")
    | some ciphertext => .ok (ciphertext, secureIiotElapsedUs (env.encryptTimes iteration i))
  aggregate key iteration ciphertexts :=
    .ok (ciphertexts.foldl (paillierHostAddCiphertextsReal key) paillierHostInitAggregateReal,
      secureIiotElapsedUs (env.aggregateTimes iteration))
  storage key iteration aggregate :=
    match paillierHostDecryptU32 key aggregate with
    | none => .error (.errx "2048-bit host Paillier decrypt failed")
    | some _ => .ok (secureIiotElapsedUs (env.decryptTimes iteration))

/-- `run_host_reference_2048` -/
def runHostReference2048 {width : ℕ} (calloc : Calloc width) (env : Reference2048Env)
    (measuredIterations : UInt32) : BenchM FullCryptoVars (Summary × Summary × Summary) :=
  fullCryptoBench (reference2048Mode env) calloc measuredIterations

/-! ## The live benchmark -/

/-- What `main` calls: the encryption of the packets, the TA and the clock. -/
structure FullCryptoEnv where
  evp : EvpCrypto
  openRes : UInt32
  invokeFogProcessing : (iteration i : UInt32) → SecureSensorPacket →
    TeecReturn SecureSensorResult
  invokeStoragePrep : (iteration : UInt32) → StoragePrepInput → TeecReturn StorageCloudObject
  aggregateTimes : (iteration : UInt32) → UInt64 × UInt64

/-- The aggregate of the results of an iteration, as `aggregate_bytes`.  A length beyond the
end of a ciphertext is cut to it. -/
def liveAggregate (key : PaillierKey) (results : List SecureSensorResult) :
    Except BenchFault (List UInt8) :=
  let ciphertexts := results.map fun result ↦
    result.paillierCiphertext.toList.take result.paillierCiphertextLen.toNat
  match aggregateReal key paillierHostInitAggregateReal ciphertexts with
  | none => .error (.errx "real Paillier aggregation failed")
  | some aggregate =>
    match paillierHostBnToFixedBytes aggregate 128 with
    | none => .error (.errx "failed to serialize aggregate ciphertext")
    | some aggregateBytes => .ok aggregateBytes

/-- `storage_input` -/
def liveStorageInput (iteration : UInt32) (aggregateBytes : List UInt8) : StoragePrepInput where
  windowId := 1
  fogCount := 1
  fakePaillierAggregate := 0
  paillierAggregate := ByteString.write (.replicate _ 0) 0 aggregateBytes
  paillierAggregateLen := 128
  realPaillierEnabled := 1
  timestampMs := 1710000000999 + iteration.toUInt64

/-- The work of `main`. -/
def liveMode (env : FullCryptoEnv) : FullCryptoMode SecureSensorResult (List UInt8) where
  evp := env.evp
  setup := do
    openSession env.openRes
    return paillierHostInitFixedDemoKey
  fog _ iteration i _ packet := do
    let (result, latency) ← (env.invokeFogProcessing iteration i packet).checked (·.status)
      "Fog TA InvokeCommand failed with code 0x%x origin 0x%x"
      "Fog TA returned Secure IIoT status %u"
    if result.realPaillierEnabled = 0 then
      .error (.errx "TA did not return real Paillier ciphertext")
    else return (result, latency)
  aggregate key iteration results := do
    let aggregateBytes ← liveAggregate key results
    return (aggregateBytes, secureIiotElapsedUs (env.aggregateTimes iteration))
  storage _ iteration aggregateBytes := do
    let storageInput := liveStorageInput iteration aggregateBytes
    let (_, latency) ← (env.invokeStoragePrep iteration storageInput).checked (·.status)
      "Storage TA InvokeCommand failed with code 0x%x origin 0x%x"
      "Storage-Preparation TA returned status %u"
    return latency

/-- `main` with a key of 512 bits. -/
def fullCryptoMain {width : ℕ} (calloc : Calloc width) (env : FullCryptoEnv)
    (measuredIterations : UInt32) : BenchM FullCryptoVars (Summary × Summary × Summary) :=
  fullCryptoBench (liveMode env) calloc measuredIterations

end Host

end SecureIIoT
