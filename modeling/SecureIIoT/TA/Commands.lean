import SecureIIoT.TA.Paillier

/-!
# The commands of the TA

`process_sensor_packet` and `prepare_storage` of `ta/hello_world_ta.c`, with the AES-GCM
helpers and the encoders they use.

Each handler is its type and size gate around a body on records.  The bodies are
specified by what their success means (`processPacket_ok_iff`, `prepareObject_ok_iff`): which
AES-GCM call returned what, and what the record left for Normal World holds.
-/

namespace SecureIIoT

open ByteString

namespace TA

/-! ## Keys, associated data and nonces -/

/-- `DEMO_KFOG1` -/
def demoKfog1 : Vector UInt8 16 :=
  #v[0x10, 0x11, 0x12, 0x13, 0x14, 0x15, 0x16, 0x17, 0x18, 0x19, 0x1a, 0x1b, 0x1c, 0x1d, 0x1e, 0x1f]

/-- `DEMO_KSTORE` -/
def demoKstore : Vector UInt8 16 :=
  #v[0x30, 0x31, 0x32, 0x33, 0x34, 0x35, 0x36, 0x37, 0x38, 0x39, 0x3a, 0x3b, 0x3c, 0x3d, 0x3e, 0x3f]

/-- `build_metadata_aad`, through `put_u32_le` and `put_u64_le`. -/
def buildMetadataAad (packet : SecureSensorPacket) : List UInt8 :=
  le32 packet.sensorId ++ (le32 packet.fogId ++ (le32 packet.windowId ++ le64 packet.timestampMs))

/-- `build_storage_aad` -/
def buildStorageAad (input : StoragePrepInput) : List UInt8 :=
  le32 input.windowId ++ (le32 input.fogCount ++ le64 input.timestampMs)

/-- `build_storage_nonce` -/
def buildStorageNonce (windowId fogCount : UInt32) : Vector UInt8 12 :=
  ofList (le32 windowId ++ (le32 fogCount ++ [0xaa, 0xbb, 0xcc, 0xdd])) rfl

theorem toList_buildStorageNonce (windowId fogCount : UInt32) :
    (buildStorageNonce windowId fogCount).toList =
      le32 windowId ++ (le32 fogCount ++ [0xaa, 0xbb, 0xcc, 0xdd]) := toList_ofList _

/-! ## AES-GCM -/

/-- `aes_gcm_decrypt_ta`, with the capacity of the plaintext buffer. -/
def aesGcmDecryptTa (crypto : TeeCrypto) (key : Vector UInt8 16) (nonce : Vector UInt8 12)
    (aad ciphertext : List UInt8) (tag : Vector UInt8 16) (capacity : ℕ) :
    Except TEEError (List UInt8) := do
  crypto.allocateTransientObject
  crypto.populateTransientObject key
  crypto.allocateOperation
  crypto.setOperationKey
  crypto.aeInit
  crypto.aeDecryptFinal key nonce aad ciphertext tag capacity

/-- `AES_GCM_TAG_LEN` -/
def aesGcmTagLen : ℕ := 16

/-- `aes_gcm_encrypt_ta`, with the capacity of the ciphertext buffer: its result, and what
is written to the ciphertext and tag buffers. -/
def aesGcmEncryptTa (crypto : TeeCrypto) (query : GcmQuery) (capacity : ℕ) :
    TEEResult × List UInt8 × List UInt8 :=
  let out : Except TEEError (List UInt8 × List UInt8) := do
    crypto.allocateTransientObject
    crypto.populateTransientObject query.key
    crypto.allocateOperation
    crypto.setOperationKey
    crypto.aeInit
    crypto.aeEncryptFinal query.key query.nonce query.aad query.msg capacity aesGcmTagLen
  match out with
  | .error e => (.error e, [], [])
  | .ok (ciphertext, tag) => (require (tag.length = aesGcmTagLen) .badFormat, ciphertext, tag)

section OfGcm

variable {encrypt : GcmQuery → Option (List UInt8 × Vector UInt8 16)}
  {decrypt : Vector UInt8 16 → Vector UInt8 12 → List UInt8 → List UInt8 → Vector UInt8 16 →
    Option (List UInt8)} {capacity : ℕ}

/-- A decryption into a buffer that is long enough succeeds if the tag verifies. -/
theorem aesGcmDecryptTa_ofGcm {key : Vector UInt8 16} {nonce : Vector UInt8 12}
    {aad ciphertext plaintext : List UInt8} {tag : Vector UInt8 16}
    (hcapacity : ciphertext.length ≤ capacity) :
    aesGcmDecryptTa (.ofGcm encrypt decrypt) key nonce aad ciphertext tag capacity =
        .ok plaintext ↔ decrypt key nonce aad ciphertext tag = some plaintext := by
  simp only [aesGcmDecryptTa, TeeCrypto.ofGcm, except_ok_bind, if_neg (not_lt.mpr hcapacity)]
  cases decrypt key nonce aad ciphertext tag with
  | none => simp
  | some m => simp

/-- An encryption into a buffer that is long enough succeeds if it is made. -/
theorem aesGcmEncryptTa_ofGcm {query : GcmQuery} {ciphertext tag : List UInt8}
    (hcapacity : query.msg.length ≤ capacity) :
    aesGcmEncryptTa (.ofGcm encrypt decrypt) query capacity = (.ok (), ciphertext, tag) ↔
      ∃ t, encrypt query = some (ciphertext, t) ∧ tag = t.toList := by
  have hfits : ¬ (capacity < query.msg.length ∨ aesGcmTagLen < 16) := by
    simpa [aesGcmTagLen] using hcapacity
  simp only [aesGcmEncryptTa, TeeCrypto.ofGcm, except_ok_bind, if_neg hfits]
  rcases encrypt query with _ | ⟨ct, t⟩
  · simp
  · simp [aesGcmTagLen, eq_comm (a := tag), and_comm]

end OfGcm

/-- Reliable operations encrypt what fits the buffer. -/
theorem exists_aesGcmEncryptTa {crypto : TeeCrypto} (hcrypto : crypto.Reliable) {query : GcmQuery}
    {capacity : ℕ} (hcapacity : query.msg.length ≤ capacity) :
    ∃ ciphertext tag, aesGcmEncryptTa crypto query capacity = (.ok (), ciphertext, tag) ∧
      ciphertext.length = query.msg.length := by
  obtain ⟨ciphertext, tag, hfinal, hlen, htag⟩ := hcrypto.aeEncryptFinal query.key query.nonce
    query.aad query.msg capacity aesGcmTagLen hcapacity le_rfl
  have htagLen : tag.length = aesGcmTagLen := htag
  refine ⟨ciphertext, tag, ?_, hlen⟩
  simp only [aesGcmEncryptTa, hcrypto.allocateTransientObject, hcrypto.populateTransientObject,
    hcrypto.allocateOperation, hcrypto.setOperationKey, hcrypto.aeInit, except_ok_bind, hfinal]
  rw [require_of htagLen]

/-! ## The frame of a command -/

/-- The parameter types of a command that takes one record and fills another. -/
def recordParamTypes : UInt32 :=
  teeParamTypes teeParamTypeMemrefInput teeParamTypeMemrefOutput teeParamTypeNone teeParamTypeNone

/-- The frame of `process_sensor_packet` and `prepare_storage`: the type and size gate, the
body, and the output size of a body that succeeds. -/
def recordCommand {ι ο : Type} (sizeofInput sizeofOutput : ℕ) (body : ι → TEEResult × ο)
    (paramTypes : UInt32) (input : MemRef ι) (output : MemRef ο) : TEEResult × MemRef ο :=
  if paramTypes ≠ recordParamTypes then (.error .badParameters, output)
  else if input.size < sizeofInput ∨ output.size < sizeofOutput then
    (.error .badParameters, output)
  else match body input.buffer with
    | (.error e, record) => (.error e, { output with buffer := record })
    | (.ok (), record) => (.ok (), ⟨record, sizeofOutput⟩)

/-- A command succeeds when its body does, on parameters that pass the gate. -/
theorem recordCommand_ok_iff {ι ο : Type} {sizeofInput sizeofOutput : ℕ}
    {body : ι → TEEResult × ο} {paramTypes : UInt32} {input : MemRef ι}
    {output output' : MemRef ο} :
    recordCommand sizeofInput sizeofOutput body paramTypes input output = (.ok (), output') ↔
      (paramTypes = recordParamTypes ∧ sizeofInput ≤ input.size ∧ sizeofOutput ≤ output.size) ∧
      body input.buffer = (.ok (), output'.buffer) ∧ output'.size = sizeofOutput := by
  unfold recordCommand
  by_cases htypes : paramTypes = recordParamTypes
  · by_cases hsize : input.size < sizeofInput ∨ output.size < sizeofOutput
    · have hno : ¬ (sizeofInput ≤ input.size ∧ sizeofOutput ≤ output.size) := by omega
      simp [htypes, hsize, hno]
    · have hyes : sizeofInput ≤ input.size ∧ sizeofOutput ≤ output.size := by omega
      obtain ⟨buffer, size⟩ := output'
      rcases body input.buffer with ⟨e | ⟨⟩, record⟩
      · simp [htypes, hsize]
      · simp [htypes, hsize, hyes, eq_comm (a := size)]
  · simp [htypes]

/-- What the gate rejects is left as it is. -/
theorem recordCommand_of_not_gate {ι ο : Type} {sizeofInput sizeofOutput : ℕ}
    {body : ι → TEEResult × ο} {paramTypes : UInt32} {input : MemRef ι} {output : MemRef ο}
    (h : ¬ (paramTypes = recordParamTypes ∧ sizeofInput ≤ input.size ∧
      sizeofOutput ≤ output.size)) :
    recordCommand sizeofInput sizeofOutput body paramTypes input output =
      (.error .badParameters, output) := by
  rw [recordCommand]
  by_cases htypes : paramTypes = recordParamTypes
  · have hsize : ¬ (sizeofInput ≤ input.size ∧ sizeofOutput ≤ output.size) :=
      fun hsize ↦ h ⟨htypes, hsize⟩
    rw [if_neg (not_not.mpr htypes), if_pos (by omega)]
  · rw [if_pos htypes]

/-- Past the gate, the body runs. -/
theorem recordCommand_of_gate {ι ο : Type} {sizeofInput sizeofOutput : ℕ}
    {body : ι → TEEResult × ο} {input : MemRef ι} {output : MemRef ο}
    (hinput : sizeofInput ≤ input.size) (houtput : sizeofOutput ≤ output.size) :
    recordCommand sizeofInput sizeofOutput body recordParamTypes input output =
      match body input.buffer with
      | (.error e, record) => (.error e, { output with buffer := record })
      | (.ok (), record) => (.ok (), ⟨record, sizeofOutput⟩) := by
  rw [recordCommand, if_neg (not_ne_iff.mpr rfl), if_neg (by omega)]

/-- Its result is that of the command. -/
theorem recordCommand_fst_of_gate {ι ο : Type} {sizeofInput sizeofOutput : ℕ}
    {body : ι → TEEResult × ο} {input : MemRef ι} {output : MemRef ο}
    (hinput : sizeofInput ≤ input.size) (houtput : sizeofOutput ≤ output.size) :
    (recordCommand sizeofInput sizeofOutput body recordParamTypes input output).1 =
      (body input.buffer).1 := by
  rw [recordCommand_of_gate hinput houtput]
  rcases body input.buffer with ⟨e | ⟨⟩, record⟩
  · rfl
  · rfl

/-! ## The fog command -/

/-- The length check of `process_sensor_packet`. -/
def packetLengthsValid (packet : SecureSensorPacket) : Bool :=
  packet.plaintextLen = 24 ∧ packet.ciphertextLen ≤ 64 ∧ packet.ciphertextLen = packet.plaintextLen

/-- The check of the decrypted header against the packet's. -/
def headersMatch (plaintext : SensorPlaintext) (packet : SecureSensorPacket) : Bool :=
  plaintext.sensorId = packet.sensorId ∧ plaintext.fogId = packet.fogId ∧
    plaintext.windowId = packet.windowId ∧ plaintext.timestampMs = packet.timestampMs

/-- The part of `process_sensor_packet` that the build selects: the encryption of the
reading into the result. -/
def encryptReading (ta : TaBuild) (w : TeeWorld) (plaintext : SensorPlaintext)
    (result : SecureSensorResult) : TEEResult × SecureSensorResult :=
  if ta.realPaillier then
    if plaintext.readingScaled < 0 then (.error .badParameters, result)
    else
      let out := paillierTaEncryptRealU32 ta w plaintext.readingScaled.toUInt32
        ⟨result.paillierCiphertext, result.paillierCiphertextLen⟩ 128
      let written := { result with
        paillierCiphertext := out.2.ciphertext
        paillierCiphertextLen := out.2.len }
      match out.1 with
      | .error e => (.error e, written)
      | .ok () => (.ok (), { written with realPaillierEnabled := 1, fakePaillierCiphertext := 0 })
  else
    (.ok (), { result with
      fakePaillierCiphertext := paillierTaEncryptMock plaintext.sensorId plaintext.fogId
        plaintext.windowId plaintext.readingScaled
      realPaillierEnabled := 0 })

/-- The last assignments of `process_sensor_packet`. -/
def finishResult (plaintext : SensorPlaintext) (result : SecureSensorResult) :
    SecureSensorResult :=
  { result with
    sensorId := plaintext.sensorId
    fogId := plaintext.fogId
    windowId := plaintext.windowId
    scaledValue := plaintext.readingScaled.toUInt32
    status := 0 }

/-- `process_sensor_packet` after the encryption of the reading. -/
def finishPacket (plaintext : SensorPlaintext) :
    TEEResult × SecureSensorResult → TEEResult × SecureSensorResult
  | (.error e, result) => (.error e, { result with status := 5 })
  | (.ok (), result) => (.ok (), finishResult plaintext result)

/-- `process_sensor_packet` past its gate, on a cleared result. -/
def processPacket (ta : TaBuild) (w : TeeWorld) (packet : SecureSensorPacket) :
    TEEResult × SecureSensorResult :=
  let result := SecureSensorResult.zero
  if packetLengthsValid packet = false then
    (.error .badParameters, { result with status := 1 })
  else match aesGcmDecryptTa w.crypto demoKfog1 packet.nonce (buildMetadataAad packet)
      (packet.ciphertext.toList.take packet.ciphertextLen.toNat) packet.tag
      sizeofSensorPlaintext with
    | .error e => (.error e, { result with status := 2 })
    | .ok decrypted =>
        if decrypted.length ≠ sizeofSensorPlaintext then
          (.error .badFormat, { result with status := 3 })
        else
          let plaintext := SensorPlaintext.ofBytes decrypted
          if headersMatch plaintext packet = false then
            (.error .security, { result with status := 4 })
          else finishPacket plaintext (encryptReading ta w plaintext result)

def processSensorPacket (ta : TaBuild) (w : TeeWorld) :
    UInt32 → MemRef SecureSensorPacket → MemRef SecureSensorResult →
      TEEResult × MemRef SecureSensorResult :=
  recordCommand sizeofSecureSensorPacket sizeofSecureSensorResult (processPacket ta w)

section ProcessSensorPacket

variable {ta : TaBuild} {w : TeeWorld} {packet : SecureSensorPacket} {result : SecureSensorResult}
  {plaintext : SensorPlaintext}

/-- The real build encrypts a reading that is not negative, or fails. -/
theorem encryptReading_real_ok_iff (hta : ta.realPaillier = true) :
    encryptReading ta w plaintext .zero = (.ok (), result) ↔
      ¬ plaintext.readingScaled < 0 ∧ ∃ out,
        paillierTaEncryptRealU32 ta w plaintext.readingScaled.toUInt32 ⟨.replicate _ 0, 0⟩ 128 =
          (.ok (), out) ∧
        result = { SecureSensorResult.zero with
          paillierCiphertext := out.ciphertext
          paillierCiphertextLen := out.len
          realPaillierEnabled := 1 } := by
  rw [encryptReading, if_pos hta]
  by_cases hneg : plaintext.readingScaled < 0
  · simp [hneg]
  · rw [if_neg hneg]
    simp only [SecureSensorResult.zero, hneg, not_false_eq_true, true_and]
    rcases paillierTaEncryptRealU32 ta w plaintext.readingScaled.toUInt32
      ⟨.replicate _ 0, 0⟩ 128 with ⟨e | ⟨⟩, out⟩
    · simp
    · simp [eq_comm (a := result)]

/-- What the real build leaves of a reading: a ciphertext of it. -/
theorem encryptReading_real_ok {k : DemoSizedKey}
    (h : encryptReading ⟨true, k.toPaillierKey⟩ w plaintext .zero = (.ok (), result)) :
    ¬ plaintext.readingScaled < 0 ∧ ∃ ciphertext c,
      k.IsCiphertext plaintext.readingScaled.toUInt32.toNat c ∧
      ciphertext.toList = toBE paillierCiphertextMax c ∧
      result = { SecureSensorResult.zero with
        paillierCiphertext := ciphertext
        paillierCiphertextLen := 128
        realPaillierEnabled := 1 } := by
  obtain ⟨hneg, out, hout, rfl⟩ := (encryptReading_real_ok_iff rfl).mp h
  obtain ⟨c, hc, -, hbytes, hlen⟩ := paillierTaEncryptRealU32_ok hout
  rw [hlen]
  exact ⟨hneg, out.ciphertext, c, encryptNumber_isCiphertext rfl hc, hbytes, rfl⟩

theorem finishPacket_ok_iff {out : TEEResult × SecureSensorResult} :
    finishPacket plaintext out = (.ok (), result) ↔
      ∃ encrypted, out = (.ok (), encrypted) ∧ result = finishResult plaintext encrypted := by
  rcases out with ⟨e | ⟨⟩, encrypted⟩
  · simp [finishPacket]
  · simp [finishPacket, eq_comm (a := result)]

/-- Success of the body: the packet decrypts to a plaintext with its own header, whose
reading is encrypted. -/
theorem processPacket_ok_iff :
    processPacket ta w packet = (.ok (), result) ↔
      packetLengthsValid packet = true ∧ ∃ decrypted,
        aesGcmDecryptTa w.crypto demoKfog1 packet.nonce (buildMetadataAad packet)
          (packet.ciphertext.toList.take packet.ciphertextLen.toNat) packet.tag
          sizeofSensorPlaintext = .ok decrypted ∧
        decrypted.length = sizeofSensorPlaintext ∧
        headersMatch (.ofBytes decrypted) packet = true ∧ ∃ encrypted,
          encryptReading ta w (.ofBytes decrypted) .zero = (.ok (), encrypted) ∧
          result = finishResult (.ofBytes decrypted) encrypted := by
  unfold processPacket
  cases hlens : packetLengthsValid packet with
  | false => simp
  | true =>
      cases aesGcmDecryptTa w.crypto demoKfog1 packet.nonce (buildMetadataAad packet)
        (packet.ciphertext.toList.take packet.ciphertextLen.toNat) packet.tag
        sizeofSensorPlaintext with
      | error e => simp
      | ok decrypted =>
          by_cases hlen : decrypted.length = sizeofSensorPlaintext
          · cases hheader : headersMatch (.ofBytes decrypted) packet with
            | false => simp [hlen, hheader]
            | true => simp [hlen, hheader, finishPacket_ok_iff]
          · simp [hlen]

end ProcessSensorPacket

/-! ## The storage command -/

/-- The aggregate that `prepare_storage` seals, by the mode flag of the request. -/
def storageAggregate (ta : TaBuild) (w : TeeWorld) (input : StoragePrepInput) :
    Except TEEError UInt32 :=
  if input.realPaillierEnabled = 0 then
    paillierTaDecryptAggregateMock input.fakePaillierAggregate
  else
    paillierTaDecryptRealU32 ta w.mp input.paillierAggregate input.paillierAggregateLen

/-- The arguments of the encryption in `prepare_storage`. -/
def storageQuery (input : StoragePrepInput) (plaintextAggregate : UInt32) : GcmQuery where
  key := demoKstore
  nonce := buildStorageNonce input.windowId input.fogCount
  aad := buildStorageAad input
  msg := StoragePlaintext.toBytes ⟨input.windowId, plaintextAggregate, input.timestampMs⟩

@[simp] theorem length_storageQuery (input : StoragePrepInput) (plaintextAggregate : UInt32) :
    (storageQuery input plaintextAggregate).msg.length = sizeofStoragePlaintext := rfl

/-- The message fits the ciphertext buffer of the cloud object. -/
theorem length_storageQuery_le (input : StoragePrepInput) (plaintextAggregate : UInt32) :
    (storageQuery input plaintextAggregate).msg.length ≤ 64 := by
  rw [length_storageQuery]
  decide

/-- What `prepare_storage` writes to a cleared cloud object before it looks at the result
of the encryption. -/
def writtenObject (input : StoragePrepInput) (ciphertext tag : List UInt8) : StorageCloudObject :=
  { StorageCloudObject.zero with
    windowId := input.windowId
    nonce := buildStorageNonce input.windowId input.fogCount
    ciphertext := write (.replicate _ 0) 0 ciphertext
    tag := write (.replicate _ 0) 0 tag }

/-- `prepare_storage` past its gate, on a cleared cloud object. -/
def prepareObject (ta : TaBuild) (w : TeeWorld) (input : StoragePrepInput) :
    TEEResult × StorageCloudObject :=
  match storageAggregate ta w input with
  | .error e => (.error e, { StorageCloudObject.zero with status := 2 })
  | .ok plaintextAggregate =>
      match aesGcmEncryptTa w.crypto (storageQuery input plaintextAggregate) 64 with
      | (.error e, ciphertext, tag) =>
          (.error e, { writtenObject input ciphertext tag with status := 1 })
      | (.ok (), ciphertext, tag) =>
          (.ok (), { writtenObject input ciphertext tag with
            ciphertextLen := UInt32.ofNat ciphertext.length
            status := 0 })

/-- Success of the body: the aggregate is recovered, and sealed. -/
theorem prepareObject_ok_iff {ta : TaBuild} {w : TeeWorld} {input : StoragePrepInput}
    {cloudObject : StorageCloudObject} :
    prepareObject ta w input = (.ok (), cloudObject) ↔
      ∃ plaintextAggregate, storageAggregate ta w input = .ok plaintextAggregate ∧
        ∃ ciphertext tag,
          aesGcmEncryptTa w.crypto (storageQuery input plaintextAggregate) 64 =
            (.ok (), ciphertext, tag) ∧
          cloudObject = { writtenObject input ciphertext tag with
            ciphertextLen := UInt32.ofNat ciphertext.length
            status := 0 } := by
  unfold prepareObject
  cases storageAggregate ta w input with
  | error e => simp
  | ok plaintextAggregate =>
      rcases hseal : aesGcmEncryptTa w.crypto (storageQuery input plaintextAggregate) 64
        with ⟨e | ⟨⟩, ciphertext, tag⟩
      · simp [hseal]
      · simp [hseal, eq_comm (a := cloudObject)]

def prepareStorage (ta : TaBuild) (w : TeeWorld) :
    UInt32 → MemRef StoragePrepInput → MemRef StorageCloudObject →
      TEEResult × MemRef StorageCloudObject :=
  recordCommand sizeofStoragePrepInput sizeofStorageCloudObject (prepareObject ta w)

end TA

end SecureIIoT
