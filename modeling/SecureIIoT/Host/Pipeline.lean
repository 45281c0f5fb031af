import SecureIIoT.Host.FullCryptoBench

/-!
# The pipeline programs

`main` of `host/main_full_crypto_verify.c`, `host/main_full_crypto_demo.c` and
`host/main_paillier_ta_demo.c`.  Each sends the demo readings through the fog command,
aggregates the ciphertexts and goes on with the aggregate: two of them have it sealed, and two
decrypt it with the key of the host and compare.  The readings and the number they are
compared with are parameters here.

Every invocation of the TA meets a world of its own, and may not be delivered.
-/

namespace SecureIIoT

namespace Host

/-! ## What the programs share -/

/-- `secure_iiot_invoke_fog_processing`: a cleared result, and both records in full. -/
def secureIiotInvokeFogProcessing (ta : TaBuild) (w : TeeWorld) (packet : SecureSensorPacket) :
    TEEResult × MemRef SecureSensorResult :=
  TA.processSensorPacket ta w TA.recordParamTypes ⟨packet, sizeofSecureSensorPacket⟩
    ⟨.zero, sizeofSecureSensorResult⟩

/-- What a program calls, and the key that `paillier_host_init_fixed_demo_key` leaves. -/
structure PipelineEnv where
  key : PaillierKey
  ta : TaBuild
  evp : EvpCrypto
  openRes : UInt32
  fogDelivered : (i : ℕ) → Bool
  fogWorld : (i : ℕ) → TeeWorld
  storageDelivered : Bool
  storageWorld : TeeWorld

/-- The texts of a loop over the readings.  The verifier does not check the length. -/
structure FogTexts where
  notReal : String
  badLength : Option String
  addFailed : String

section Pipeline

variable {ο : Type} (texts : FogTexts) (env : PipelineEnv)

/-- The checks after a command: `res` is `TEEC_SUCCESS`, and the status is zero. -/
def checkInvoked (delivered : Bool) (out : TEEResult × MemRef ο) (status : ο → UInt32)
    (failed badStatus : String) : Except BenchFault ο :=
  match delivered, out.1 with
  | true, .ok () =>
    if status out.2.buffer ≠ 0 then .error (.errx badStatus) else .ok out.2.buffer
  | _, _ => .error (.errx failed)

/-- The checks of the ciphertext of a result. -/
def checkReal (result : SecureSensorResult) : Except BenchFault Unit :=
  if result.realPaillierEnabled = 0 then .error (.errx texts.notReal)
  else match texts.badLength with
    | none => .ok ()
    | some badLength =>
      if result.paillierCiphertextLen ≠ 128 then .error (.errx badLength) else .ok ()

/-- The body of the loop over the readings.  A length beyond the end of a ciphertext is cut
to it. -/
def fogReading (aggregate : ℕ) (reading : SensorPlaintext) (i : ℕ) : Except BenchFault ℕ :=
  match secureIiotCreatePacket env.evp reading (UInt32.ofNat i + 1) with
  | none => .error (.errx "AES-GCM sensor packet creation failed")
  | some packet => do
    let result ← checkInvoked (env.fogDelivered i)
      (secureIiotInvokeFogProcessing env.ta (env.fogWorld i) packet) (·.status)
      "Fog TA InvokeCommand failed with code 0x%x origin 0x%x"
      "Fog TA returned Secure IIoT status %u"
    checkReal texts result
    match paillierHostAddCiphertextBytesReal env.key aggregate
        (result.paillierCiphertext.toList.take result.paillierCiphertextLen.toNat) with
    | (false, _) => .error (.errx texts.addFailed)
    | (true, next) => .ok next

/-- The loop over the readings from the reading `i` on. -/
def fogReadings : (i : ℕ) → (aggregate : ℕ) → List SensorPlaintext → Except BenchFault ℕ
  | _, aggregate, [] => .ok aggregate
  | i, aggregate, reading :: readings => do
    let next ← fogReading texts env aggregate reading i
    fogReadings (i + 1) next readings

/-- The session and the aggregate of the readings. -/
def aggregateReadings (readings : List SensorPlaintext) : Except BenchFault ℕ := do
  openSession env.openRes
  fogReadings texts env 0 paillierHostInitAggregateReal readings

/-- `storage_input` -/
def pipelineStorageInput (aggregateBytes : List UInt8) : StoragePrepInput where
  windowId := 1
  fogCount := 1
  fakePaillierAggregate := 0
  paillierAggregate := ByteString.write (.replicate _ 0) 0 aggregateBytes
  paillierAggregateLen := 128
  realPaillierEnabled := 1
  timestampMs := 1710000000999

/-- The storage command on an aggregate: its request, and the cloud object. -/
def sealAggregate (aggregate : ℕ) : Except BenchFault (StoragePrepInput × StorageCloudObject) :=
  match paillierHostBnToFixedBytes aggregate 128 with
  | none => .error (.errx "failed to serialize aggregate ciphertext")
  | some aggregateBytes => do
    let storageInput := pipelineStorageInput aggregateBytes
    let cloudObject ← checkInvoked env.storageDelivered
      (secureIiotInvokeStoragePrep env.ta env.storageWorld storageInput) (·.status)
      "Storage TA InvokeCommand failed with code 0x%x origin 0x%x"
      "Storage-Preparation TA returned status %u"
    return (storageInput, cloudObject)

/-- The decryption of the aggregate with the key of the host. -/
def decryptReference (failed : String) (aggregate : ℕ) : Except BenchFault UInt32 :=
  match paillierHostDecryptU32 env.key aggregate with
  | none => .error (.errx failed)
  | some m => .ok m

end Pipeline

/-! ## `main_full_crypto_verify.c` -/

/-- `EXPECTED_AGGREGATE` -/
def expectedAggregate : UInt32 := 73000

def verifyTexts : FogTexts where
  notReal := "TA did not return real Paillier ciphertext"
  badLength := none
  addFailed := "real Paillier aggregation failed"

/-- What the verifier prints.  `auth_ok` is cleared right before an `errx` only. -/
structure VerifyReport where
  hostDecrypted : UInt32
  authOk : Bool
  paillierOk : Bool
  cloudOk : Bool
deriving DecidableEq

/-- The exit status. -/
def VerifyReport.status (report : VerifyReport) : ℕ :=
  if report.paillierOk && report.cloudOk then 0 else 1

/-- `cloud_ok` -/
def cloudOk (evp : EvpCrypto) (expected : UInt32) (storageInput : StoragePrepInput)
    (cloudObject : StorageCloudObject) : Bool :=
  match secureIiotDecryptCloudObjectForVerification evp storageInput cloudObject with
  | none => false
  | some plaintext => plaintext.windowId = 1 ∧ plaintext.plaintextAggregate = expected ∧
      plaintext.timestampMs = storageInput.timestampMs

def fullCryptoVerify (env : PipelineEnv) (readings : List SensorPlaintext) (expected : UInt32) :
    Except BenchFault VerifyReport := do
  let aggregate ← aggregateReadings verifyTexts env readings
  let hostDecrypted ← decryptReference env "host Paillier reference decrypt failed" aggregate
  let (storageInput, cloudObject) ← sealAggregate env aggregate
  return {
    hostDecrypted := hostDecrypted
    authOk := true
    paillierOk := hostDecrypted = expected
    cloudOk := cloudOk env.evp expected storageInput cloudObject }

/-! ## `main_full_crypto_demo.c` -/

def fullCryptoDemoTexts : FogTexts where
  notReal := "TA did not return real Paillier ciphertext"
  badLength := some "unexpected Paillier ciphertext len=%u"
  addFailed := "real Paillier aggregation failed"

/-- The cloud object that is printed. -/
def fullCryptoDemo (env : PipelineEnv) (readings : List SensorPlaintext) :
    Except BenchFault StorageCloudObject := do
  let aggregate ← aggregateReadings fullCryptoDemoTexts env readings
  let (_, cloudObject) ← sealAggregate env aggregate
  return cloudObject

/-! ## `main_paillier_ta_demo.c` -/

def paillierTaDemoTexts : FogTexts where
  notReal := "Fog TA returned mock Paillier path"
  badLength := some "unexpected Paillier ciphertext length %u"
  addFailed := "Fog host real Paillier aggregation failed"

/-- The number that is printed, and the exit status. -/
def paillierTaDemo (env : PipelineEnv) (readings : List SensorPlaintext) (expected : UInt32) :
    Except BenchFault (UInt32 × ℕ) := do
  let aggregate ← aggregateReadings paillierTaDemoTexts env readings
  let decryptedAggregate ← decryptReference env "host reference Paillier decrypt failed" aggregate
  return (decryptedAggregate, if decryptedAggregate = expected then 0 else 1)

end Host

end SecureIIoT
