import Mathlib.Data.Finset.Card
import Mathlib.Order.Interval.Finset.Nat
import SecureIIoT.DemoKey
import SecureIIoT.Host.Common
import SecureIIoT.Host.Paillier
import SecureIIoT.Host.Stats
import SecureIIoT.Lib.Triple

/-!
# The bookkeeping of the benchmarks

`main` of `host/main_bench.c` from the parsed iteration count on, after what it shares
with `host/main_full_crypto_bench.c`: the arrays of latencies, the sensor packets and the
calls of `compute_stats`.

A benchmark is a program that stops at a call of `errx` and keeps its state there.  The
state has, besides the variables of the source, every packet that was created and every
call of `compute_stats` that was made.  A write past the end of an array is recorded like
any other and the run goes on, though C leaves it undefined.  What the TEE returns, and how
long it takes, is a parameter; every BIGNUM operation is exact.
-/

namespace SecureIIoT

namespace Host

/-! ## Memory -/

/-- The calls of `calloc`. -/
inductive CallocSite
  | fog
  | hostAggregate
  | storage
  /-- The array that a call of `compute_stats` sorts, by the number of the call. -/
  | sorted (call : ℕ)

/-- Which calls of `calloc` for a number of 64-bit entries succeed.  With a `size_t` of
`width` bits, none does whose bytes `size_t` cannot count. -/
structure Calloc (width : ℕ) where
  succeeds : CallocSite → ℕ → Bool
  fits : ∀ site n, succeeds site n = true → 8 * n < 2 ^ width

/-- A cleared array of latencies and the writes to it, the first one first. -/
structure LatencyArray where
  size : ℕ
  writes : List (ℕ × UInt64)
deriving DecidableEq

namespace LatencyArray

/-- `array[index] = latency` -/
def write (array : LatencyArray) (index : UInt32) (latency : UInt64) : LatencyArray :=
  { array with writes := array.writes ++ [(index.toNat, latency)] }

/-- The indices that were written to. -/
def indices (array : LatencyArray) : List ℕ :=
  array.writes.map Prod.fst

/-- Every write was inside the array. -/
def InBounds (array : LatencyArray) : Prop :=
  ∀ index ∈ array.indices, index < array.size

/-- The number of entries that hold a sample. -/
def recorded (array : LatencyArray) : ℕ :=
  ((Finset.range array.size).filter (· ∈ array.indices)).card

/-- The entries: what was written last, or zero. -/
def words (array : LatencyArray) : List UInt64 :=
  (List.range array.size).map fun index ↦
    (((array.writes.filter (·.1 = index)).getLast?).map Prod.snd).getD 0

@[simp] theorem size_write (array : LatencyArray) (index : UInt32) (latency : UInt64) :
    (array.write index latency).size = array.size := rfl

@[simp] theorem indices_write (array : LatencyArray) (index : UInt32) (latency : UInt64) :
    (array.write index latency).indices = array.indices ++ [index.toNat] := by
  simp [write, indices]

end LatencyArray

/-! ## Runs -/

/-- The state of a benchmark: its variables, the packets created so far, and the arrays and
counts that `compute_stats` was called with. -/
structure BenchRun (Vars : Type) where
  vars : Vars
  packets : List SecureSensorPacket
  statsCalls : List (LatencyArray × UInt32)

abbrev BenchM (Vars : Type) := EStateM BenchFault (BenchRun Vars)

section Calls

variable {Vars R ο : Type}

def setVars (f : Vars → Vars) : BenchM Vars Unit :=
  modify fun s ↦ { s with vars := f s.vars }

/-- A call of `secure_iiot_create_packet`. -/
def createPacket (evp : EvpCrypto) (reading : SensorPlaintext) (sequence : UInt32) :
    BenchM Vars SecureSensorPacket :=
  match secureIiotCreatePacket evp reading sequence with
  | none => throw (.errx "AES-GCM sensor packet creation failed")
  | some packet => do
    modify fun s ↦ { s with packets := s.packets ++ [packet] }
    return packet

/-- A call of `compute_stats`. -/
def callComputeStats (computeStats : List UInt64 → UInt32 → Except BenchFault R)
    (array : Vars → LatencyArray) (count : UInt32) : BenchM Vars R := do
  modify fun s ↦ { s with statsCalls := s.statsCalls ++ [(array s.vars, count)] }
  let s ← get
  fromExcept (computeStats (array s.vars).words count)

/-- What a command of the TA returns, and the time that it took. -/
structure TeecReturn (ο : Type) where
  res : UInt32
  output : ο
  latencyUs : UInt64

/-- The checks after a command: `res` is `TEEC_SUCCESS`, and the status is zero. -/
def TeecReturn.checked (ret : TeecReturn ο) (status : ο → UInt32)
    (failed badStatus : String) : Except BenchFault (ο × UInt64) :=
  if ret.res ≠ 0 then .error (.errx failed)
  else if status ret.output ≠ 0 then .error (.errx badStatus)
  else .ok (ret.output, ret.latencyUs)

/-- The call of `secure_iiot_open`, with its result. -/
def openSession (res : UInt32) : Except BenchFault Unit :=
  if res ≠ 0 then .error (.errx "TEEC session setup failed with code 0x%x origin 0x%x")
  else .ok ()

/-- A latency array that cannot be allocated ends a benchmark. -/
def allocateLatencies (succeeds : Bool) : Except BenchFault Unit :=
  if succeeds then .ok () else .error (.errx "failed to allocate latency arrays")

end Calls

/-! ## `main_bench.c` -/

/-- `SECURE_IIOT_WARMUP_ITERS` -/
def warmupIters : UInt32 := 10

/-- `SECURE_IIOT_STORAGE_BENCH_ITERS` -/
def storageBenchIters : UInt32 := 30

/-- `SECURE_IIOT_PROVISION_BENCH_ITERS` -/
def provisionBenchIters : UInt32 := 30

/-- The variables of `main` that change. -/
structure BenchVars where
  fogLatencies : LatencyArray
  measuredIndex : UInt32
  fakeAggregateCiphertext : UInt32
  realAggregateCiphertext : ℕ
  sawRealPaillier : Bool
  storageLatencies : LatencyArray
  provisionLatencies : LatencyArray
  provMeasured : UInt32

/-- What `main` calls: the encryption of the packets, and the TA. -/
structure BenchEnv where
  evp : EvpCrypto
  openRes : UInt32
  invokeFogProcessing : UInt32 → SecureSensorPacket → TeecReturn SecureSensorResult
  invokeStoragePrep : UInt32 → StoragePrepInput → TeecReturn StorageCloudObject
  invokeProvisionKey : UInt32 → KmmProvisionInput → TeecReturn KmmProvisionResult

/-- `build_bench_reading` -/
def buildBenchReading (iteration : UInt32) : SensorPlaintext where
  sensorId := iteration % 3 + 1
  fogId := 1
  windowId := 1
  readingScaled := 25000 + (iteration % 17).toInt32
  timestampMs := 1710001000000 + iteration.toUInt64

/-- The state before the first iteration. -/
def benchStart (measuredIterations : UInt32) : BenchRun BenchVars where
  vars :=
    { fogLatencies := ⟨measuredIterations.toNat, []⟩
      measuredIndex := 0
      fakeAggregateCiphertext := paillierHostInitAggregateMock
      realAggregateCiphertext := paillierHostInitAggregateReal
      sawRealPaillier := false
      storageLatencies := ⟨storageBenchIters.toNat, []⟩
      provisionLatencies := ⟨provisionBenchIters.toNat, []⟩
      provMeasured := 0 }
  packets := []
  statsCalls := []

/-- `fog_latencies[measured_index++] = latency_us` -/
def BenchVars.recordFog (v : BenchVars) (latency : UInt64) : BenchVars :=
  { v with
    fogLatencies := v.fogLatencies.write v.measuredIndex latency
    measuredIndex := v.measuredIndex + 1 }

/-- What a measured iteration does with its ciphertext. -/
def benchAggregate (result : SecureSensorResult) : BenchM BenchVars Unit := do
  let s ← get
  if result.realPaillierEnabled ≠ 0 then do
    setVars fun v ↦ { v with sawRealPaillier := true }
    let ciphertext := result.paillierCiphertext.toList.take result.paillierCiphertextLen.toNat
    match paillierHostAddCiphertextBytesReal paillierHostInitFixedDemoKey
        s.vars.realAggregateCiphertext ciphertext with
    | (false, _) => throw (.errx "real Paillier aggregation failed")
    | (true, aggregate) => setVars fun v ↦ { v with realAggregateCiphertext := aggregate }
  else
    setVars fun v ↦ { v with
      fakeAggregateCiphertext :=
        paillierHostAddCiphertextMock v.fakeAggregateCiphertext result.fakePaillierCiphertext }

/-- The body of the loop over the iterations. -/
def benchIteration (env : BenchEnv) (i : UInt32) : BenchM BenchVars Unit := do
  let packet ← createPacket env.evp (buildBenchReading i) (i + 1)
  let (result, latency) ← fromExcept <| (env.invokeFogProcessing i packet).checked (·.status)
    "Fog TA InvokeCommand failed with code 0x%x origin 0x%x"
    "Fog TA returned Secure IIoT status %u"
  doIf (warmupIters ≤ i) do
    setVars (·.recordFog latency)
    benchAggregate result

/-- The body of the loop over the storage commands. -/
def benchStorage (env : BenchEnv) (totalIterations i : UInt32) : BenchM BenchVars Unit := do
  let s ← get
  let storageInput : StoragePrepInput :=
    { windowId := 1
      fogCount := 1
      fakePaillierAggregate := s.vars.fakeAggregateCiphertext
      paillierAggregate := .replicate _ 0
      paillierAggregateLen := 0
      realPaillierEnabled := 0
      timestampMs := 1710001000000 + totalIterations.toUInt64 + i.toUInt64 }
  let (_, latency) ← fromExcept <| (env.invokeStoragePrep i storageInput).checked (·.status)
    "Storage TA InvokeCommand failed with code 0x%x origin 0x%x"
    "Storage-Preparation TA returned status %u"
  setVars fun v ↦ { v with storageLatencies := v.storageLatencies.write i latency }

/-- `prov_input` -/
def provInput : KmmProvisionInput where
  fogId := 2
  fromFogId := 1
  windowId := 1
  keyMaterial := ByteString.ofList [0x20, 0x21, 0x22, 0x23, 0x24, 0x25, 0x26, 0x27, 0x28, 0x29,
    0x2a, 0x2b, 0x2c, 0x2d, 0x2e, 0x2f] rfl

/-- `provision_latencies[prov_measured++] = prov_latency_us` -/
def BenchVars.recordProvision (v : BenchVars) (latency : UInt64) : BenchVars :=
  { v with
    provisionLatencies := v.provisionLatencies.write v.provMeasured latency
    provMeasured := v.provMeasured + 1 }

/-- The body of the loop over the key provisionings. -/
def benchProvision (env : BenchEnv) (i : UInt32) : BenchM BenchVars Unit := do
  let (_, latency) ← fromExcept <| (env.invokeProvisionKey i provInput).checked (·.status)
    "Provision TA InvokeCommand failed with code 0x%x origin 0x%x"
    "Provision TA returned status %u"
  doIf (warmupIters ≤ i) (setVars (·.recordProvision latency))

/-- The storage commands and their statistics, which are zero if they are skipped. -/
def benchStorageStats {width : ℕ} (calloc : Calloc width) (env : BenchEnv)
    (totalIterations : UInt32) : BenchM BenchVars Stats := do
  let s ← get
  if s.vars.sawRealPaillier then
    return { mean := 0, min := 0, max := 0, p50 := 0, p95 := 0 }
  else
    (List.range storageBenchIters.toNat).foldlM
      (fun () i ↦ benchStorage env totalIterations (UInt32.ofNat i)) ()
    callComputeStats (benchComputeStats (calloc.succeeds (.sorted 1)) width) (·.storageLatencies)
      storageBenchIters

/-- `main`, with the statistics of the fog, the storage and the provisioning commands. -/
def benchMain {width : ℕ} (calloc : Calloc width) (env : BenchEnv)
    (measuredIterations : UInt32) : BenchM BenchVars (Stats × Stats × Stats) := do
  let totalIterations := warmupIters + measuredIterations
  fromExcept (allocateLatencies (calloc.succeeds .fog measuredIterations.toNat))
  fromExcept (openSession env.openRes)
  (List.range totalIterations.toNat).foldlM (fun () i ↦ benchIteration env (UInt32.ofNat i)) ()
  let fog ← callComputeStats (benchComputeStats (calloc.succeeds (.sorted 0)) width)
    (·.fogLatencies) measuredIterations
  let storage ← benchStorageStats calloc env totalIterations
  (List.range (warmupIters + provisionBenchIters).toNat).foldlM
    (fun () i ↦ benchProvision env (UInt32.ofNat i)) ()
  let provision ← callComputeStats (benchComputeStats (calloc.succeeds (.sorted 2)) width)
    (·.provisionLatencies) provisionBenchIters
  return (fog, storage, provision)

end Host

end SecureIIoT
