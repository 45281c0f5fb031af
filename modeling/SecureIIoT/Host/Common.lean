import SecureIIoT.TA.Commands

/-!
# The sensor side and the cloud verifier

`secure_iiot_create_packet` and `secure_iiot_decrypt_cloud_object_for_verification` of
`host/common.c`, with that file's own copies of the keys and encoders, and its call of the
storage command.  `none` is a return value of 0.

With ideal AES-GCM, a created packet carries the encryption of its query
(`secureIiotCreatePacket_evp_iff`).
-/

namespace SecureIIoT

open ByteString

namespace Host

/-! ## Keys, associated data and nonces -/

/-- `DEMO_KFOG1` -/
def demoKfog1 : Vector UInt8 16 :=
  ofList [0x10, 0x11, 0x12, 0x13, 0x14, 0x15, 0x16, 0x17, 0x18, 0x19, 0x1a, 0x1b, 0x1c, 0x1d, 0x1e,
    0x1f] rfl

/-- `DEMO_KSTORE` -/
def demoKstore : Vector UInt8 16 :=
  ofList [0x30, 0x31, 0x32, 0x33, 0x34, 0x35, 0x36, 0x37, 0x38, 0x39, 0x3a, 0x3b, 0x3c, 0x3d, 0x3e,
    0x3f] rfl

/-- `secure_iiot_build_metadata_aad` -/
def secureIiotBuildMetadataAad (packet : SecureSensorPacket) : List UInt8 :=
  le32 packet.sensorId ++ (le32 packet.fogId ++ (le32 packet.windowId ++ le64 packet.timestampMs))

/-- `secure_iiot_build_storage_aad` -/
def secureIiotBuildStorageAad (input : StoragePrepInput) : List UInt8 :=
  le32 input.windowId ++ (le32 input.fogCount ++ le64 input.timestampMs)

/-- `secure_iiot_build_demo_nonce` -/
def secureIiotBuildDemoNonce (sensorId windowId sequence : UInt32) : Vector UInt8 12 :=
  ofList (le32 sensorId ++ (le32 windowId ++ le32 sequence)) rfl

/-! ## Sensor packets -/

/-- The packet of `secure_iiot_create_packet` before the encryption. -/
def packetHeader (plaintext : SensorPlaintext) (sequence : UInt32) : SecureSensorPacket where
  sensorId := plaintext.sensorId
  fogId := plaintext.fogId
  windowId := plaintext.windowId
  timestampMs := plaintext.timestampMs
  plaintextLen := UInt32.ofNat sizeofSensorPlaintext
  nonce := secureIiotBuildDemoNonce plaintext.sensorId plaintext.windowId sequence
  ciphertext := .replicate _ 0
  ciphertextLen := 0
  tag := .replicate _ 0

/-- The arguments of the encryption in `secure_iiot_create_packet`. -/
def sensorQuery (plaintext : SensorPlaintext) (sequence : UInt32) : GcmQuery where
  key := demoKfog1
  nonce := (packetHeader plaintext sequence).nonce
  aad := secureIiotBuildMetadataAad (packetHeader plaintext sequence)
  msg := plaintext.toBytes

def secureIiotCreatePacket (evp : EvpCrypto) (plaintext : SensorPlaintext) (sequence : UInt32) :
    Option SecureSensorPacket :=
  let query := sensorQuery plaintext sequence
  match evp.aesGcmEncrypt query.key query.nonce query.aad query.msg with
  | none => none
  | some (ciphertext, tag) =>
      if 64 < ciphertext.length then none
      else
        let packet := packetHeader plaintext sequence
        some { packet with
          ciphertext := write packet.ciphertext 0 ciphertext
          ciphertextLen := UInt32.ofNat ciphertext.length
          tag := tag }

/-- With ideal AES-GCM, a packet is created when its encryption is made, and carries the
output. -/
theorem secureIiotCreatePacket_evp_iff {I : IdealGcm} {plaintext : SensorPlaintext}
    {sequence : UInt32} {packet : SecureSensorPacket} :
    secureIiotCreatePacket I.evp plaintext sequence = some packet ↔
      ∃ ciphertext tag, I.produce (sensorQuery plaintext sequence) = some (ciphertext, tag) ∧
        packet = { packetHeader plaintext sequence with
          ciphertext := write (.replicate _ 0) 0 ciphertext
          ciphertextLen := UInt32.ofNat sizeofSensorPlaintext
          tag := tag } := by
  simp only [secureIiotCreatePacket, IdealGcm.evp]
  rcases hproduce : I.produce (sensorQuery plaintext sequence) with _ | ⟨ciphertext, tag⟩
  · simp
  · have hlen : ciphertext.length = sizeofSensorPlaintext := I.length_of_produce hproduce
    have hfits : sizeofSensorPlaintext ≤ 64 := by decide
    simp [hlen, hfits, packetHeader, eq_comm (a := packet)]

/-! ## Verification of cloud objects -/

/-- A call of `aes_gcm_decrypt`, with the length that its plaintext buffer has. -/
structure DecryptCall where
  key : Vector UInt8 16
  nonce : Vector UInt8 12
  aad : List UInt8
  ciphertext : List UInt8
  tag : Vector UInt8 16
  plaintextLen : ℕ

/-- The call that `secure_iiot_decrypt_cloud_object_for_verification` makes. -/
def verificationCall (input : StoragePrepInput) (cloudObject : StorageCloudObject) :
    Option DecryptCall :=
  if 64 < cloudObject.ciphertextLen then none
  else some {
    key := demoKstore
    nonce := cloudObject.nonce
    aad := secureIiotBuildStorageAad input
    ciphertext := cloudObject.ciphertext.toList.take cloudObject.ciphertextLen.toNat
    tag := cloudObject.tag
    plaintextLen := sizeofStoragePlaintext }

/-- What the verifier recovers.  The plaintext of a call is taken as returned, also where it
is longer than the buffer it is written to. -/
def secureIiotDecryptCloudObjectForVerification (evp : EvpCrypto) (input : StoragePrepInput)
    (cloudObject : StorageCloudObject) : Option StoragePlaintext :=
  match verificationCall input cloudObject with
  | none => none
  | some call =>
      match evp.aesGcmDecrypt call.key call.nonce call.aad call.ciphertext call.tag with
      | none => none
      | some plaintext =>
          if plaintext.length ≠ sizeofStoragePlaintext then none
          else some (StoragePlaintext.ofBytes plaintext)

/-! ## Calls into the TA -/

/-- `secure_iiot_invoke_storage_prep`: a cleared cloud object, and both records in full. -/
def secureIiotInvokeStoragePrep (ta : TaBuild) (w : TeeWorld) (input : StoragePrepInput) :
    TEEResult × MemRef StorageCloudObject :=
  TA.prepareStorage ta w TA.recordParamTypes ⟨input, sizeofStoragePrepInput⟩
    ⟨.zero, sizeofStorageCloudObject⟩

/-- Such a call passes the gate, and leaves what the body does. -/
theorem secureIiotInvokeStoragePrep_eq (ta : TaBuild) (w : TeeWorld) (input : StoragePrepInput) :
    secureIiotInvokeStoragePrep ta w input =
      ((TA.prepareObject ta w input).1,
        ⟨(TA.prepareObject ta w input).2, sizeofStorageCloudObject⟩) := by
  have hinput : sizeofStoragePrepInput ≤
      (MemRef.mk input sizeofStoragePrepInput).size := le_rfl
  have houtput : sizeofStorageCloudObject ≤
      (MemRef.mk StorageCloudObject.zero sizeofStorageCloudObject).size := le_rfl
  rw [secureIiotInvokeStoragePrep, TA.prepareStorage, TA.recordCommand_of_gate hinput houtput]
  rcases TA.prepareObject ta w input with ⟨e | ⟨⟩, record⟩
  · rfl
  · rfl

end Host

end SecureIIoT
