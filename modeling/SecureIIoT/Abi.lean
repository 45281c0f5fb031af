import SecureIIoT.Lib.ByteString

/-!
# The structures shared by Normal World and the TA

The records of `ta/include/hello_world_ta.h`.  Both sides are built for 32-bit Arm,
so the two records whose raw bytes are encrypted on one side and read back on the
other, `SensorPlaintext` and `StoragePlaintext`, are laid out little-endian and
without padding; `toBytes` is that layout.
-/

namespace SecureIIoT

open ByteString

/-- `SECURE_IIOT_PAILLIER_CIPHERTEXT_MAX`: 1024-bit ciphertexts. -/
abbrev paillierCiphertextMax : ℕ := 128

/-- `secure_sensor_packet_t` -/
structure SecureSensorPacket where
  sensorId : UInt32
  fogId : UInt32
  windowId : UInt32
  timestampMs : UInt64
  plaintextLen : UInt32
  nonce : Vector UInt8 12
  ciphertext : Vector UInt8 64
  ciphertextLen : UInt32
  tag : Vector UInt8 16
deriving DecidableEq

/-- `sensor_plaintext_t` -/
structure SensorPlaintext where
  sensorId : UInt32
  fogId : UInt32
  windowId : UInt32
  readingScaled : Int32
  timestampMs : UInt64
deriving DecidableEq

/-- `secure_sensor_result_t`.  `fakePaillierCiphertext` is used when
`realPaillierEnabled` is 0, the big-endian bytes of `paillierCiphertext` when it
is 1. -/
structure SecureSensorResult where
  sensorId : UInt32
  fogId : UInt32
  windowId : UInt32
  fakePaillierCiphertext : UInt32
  paillierCiphertext : Vector UInt8 paillierCiphertextMax
  paillierCiphertextLen : UInt32
  scaledValue : UInt32
  realPaillierEnabled : UInt32
  status : UInt32
deriving DecidableEq

/-- `storage_prep_input_t` -/
structure StoragePrepInput where
  windowId : UInt32
  fogCount : UInt32
  fakePaillierAggregate : UInt32
  paillierAggregate : Vector UInt8 paillierCiphertextMax
  paillierAggregateLen : UInt32
  realPaillierEnabled : UInt32
  timestampMs : UInt64
deriving DecidableEq

/-- `storage_plaintext_t` -/
structure StoragePlaintext where
  windowId : UInt32
  plaintextAggregate : UInt32
  timestampMs : UInt64
deriving DecidableEq

/-- `storage_cloud_object_t` -/
structure StorageCloudObject where
  windowId : UInt32
  nonce : Vector UInt8 12
  ciphertext : Vector UInt8 64
  ciphertextLen : UInt32
  tag : Vector UInt8 16
  status : UInt32
deriving DecidableEq

/-- `kmm_provision_input_t` -/
structure KmmProvisionInput where
  fogId : UInt32
  fromFogId : UInt32
  windowId : UInt32
  keyMaterial : Vector UInt8 16
deriving DecidableEq

/-- `kmm_provision_result_t` -/
structure KmmProvisionResult where
  status : UInt32
deriving DecidableEq

/-! ## Sizes

The packet, the result and the two storage records hold a 64-bit timestamp or a
multiple of 32-bit words, and are padded to the alignment of their widest field. -/

/-- `sizeof(secure_sensor_packet_t)` -/
abbrev sizeofSecureSensorPacket : ℕ := 128

/-- `sizeof(sensor_plaintext_t)` -/
abbrev sizeofSensorPlaintext : ℕ := 24

/-- `sizeof(secure_sensor_result_t)` -/
abbrev sizeofSecureSensorResult : ℕ := 160

/-- `sizeof(storage_prep_input_t)` -/
abbrev sizeofStoragePrepInput : ℕ := 160

/-- `sizeof(storage_plaintext_t)` -/
abbrev sizeofStoragePlaintext : ℕ := 16

/-- `sizeof(storage_cloud_object_t)` -/
abbrev sizeofStorageCloudObject : ℕ := 104

/-- `sizeof(kmm_provision_input_t)` -/
abbrev sizeofKmmProvisionInput : ℕ := 28

/-- `sizeof(kmm_provision_result_t)` -/
abbrev sizeofKmmProvisionResult : ℕ := 4

/-! ## Zeroed records -/

/-- A result after `TEE_MemFill(result, 0, sizeof(*result))`. -/
def SecureSensorResult.zero : SecureSensorResult :=
  ⟨0, 0, 0, 0, .replicate _ 0, 0, 0, 0, 0⟩

/-- A cloud object after `TEE_MemFill(cloud_object, 0, sizeof(*cloud_object))`. -/
def StorageCloudObject.zero : StorageCloudObject :=
  ⟨0, .replicate _ 0, .replicate _ 0, 0, .replicate _ 0, 0⟩

/-! ## Readings

A reading is signed; it is encrypted and returned through a cast to `uint32_t`. -/

/-- The cast keeps the value of a reading that is not negative. -/
theorem cast_toUInt32_of_nonneg {reading : Int32} (h : ¬ reading < 0) :
    (reading.toUInt32.toNat : ℤ) = reading.toInt := by
  have hle : 0 ≤ reading.toInt :=
    Int.not_lt.mp fun hlt ↦ h (Int32.lt_iff_toInt_lt.mpr (by simpa using hlt))
  have hmsb : reading.toBitVec.msb = false := by
    rw [BitVec.msb_eq_toInt]
    exact decide_eq_false (Int.not_lt.mpr hle)
  exact (BitVec.toInt_eq_toNat_of_msb hmsb).symm

theorem toUInt32_inj {reading reading' : Int32} :
    reading.toUInt32 = reading'.toUInt32 ↔ reading = reading' := by
  refine ⟨fun h ↦ ?_, congrArg _⟩
  simpa using congrArg UInt32.toInt32 h

/-! ## Records as raw bytes -/

namespace SensorPlaintext

def toBytes (p : SensorPlaintext) : List UInt8 :=
  le32 p.sensorId ++ (le32 p.fogId ++ (le32 p.windowId ++
    (le32 p.readingScaled.toUInt32 ++ le64 p.timestampMs)))

def ofBytes (bytes : List UInt8) : SensorPlaintext where
  sensorId := word32 bytes 0
  fogId := word32 bytes 4
  windowId := word32 bytes 8
  readingScaled := (word32 bytes 12).toInt32
  timestampMs := word64 bytes 16

@[simp] theorem length_toBytes (p : SensorPlaintext) :
    p.toBytes.length = sizeofSensorPlaintext := rfl

/-- Copying the raw bytes of a record into another gives the record. -/
@[simp] theorem ofBytes_toBytes (p : SensorPlaintext) : ofBytes p.toBytes = p := by
  have h₀ : word32 p.toBytes 0 = p.sensorId := word32_le32 (a := []) rfl
  have h₄ : word32 p.toBytes 4 = p.fogId := word32_le32 (a := le32 p.sensorId) rfl
  have h₈ : word32 p.toBytes 8 = p.windowId :=
    word32_le32 (a := le32 p.sensorId ++ le32 p.fogId) rfl
  have h₁₂ : word32 p.toBytes 12 = p.readingScaled.toUInt32 :=
    word32_le32 (a := le32 p.sensorId ++ (le32 p.fogId ++ le32 p.windowId)) rfl
  have h₁₆ : word64 p.toBytes 16 = p.timestampMs := by
    simpa [toBytes] using word64_le64 (v := p.timestampMs) (b := [])
      (a := le32 p.sensorId ++ (le32 p.fogId ++ (le32 p.windowId ++
        le32 p.readingScaled.toUInt32))) rfl
  simp [ofBytes, h₀, h₄, h₈, h₁₂, h₁₆]

end SensorPlaintext

namespace StoragePlaintext

def toBytes (p : StoragePlaintext) : List UInt8 :=
  le32 p.windowId ++ (le32 p.plaintextAggregate ++ le64 p.timestampMs)

def ofBytes (bytes : List UInt8) : StoragePlaintext where
  windowId := word32 bytes 0
  plaintextAggregate := word32 bytes 4
  timestampMs := word64 bytes 8

@[simp] theorem length_toBytes (p : StoragePlaintext) :
    p.toBytes.length = sizeofStoragePlaintext := rfl

@[simp] theorem ofBytes_toBytes (p : StoragePlaintext) : ofBytes p.toBytes = p := by
  have h₀ : word32 p.toBytes 0 = p.windowId := word32_le32 (a := []) rfl
  have h₄ : word32 p.toBytes 4 = p.plaintextAggregate :=
    word32_le32 (a := le32 p.windowId) rfl
  have h₈ : word64 p.toBytes 8 = p.timestampMs := by
    simpa [toBytes] using word64_le64 (v := p.timestampMs) (b := [])
      (a := le32 p.windowId ++ le32 p.plaintextAggregate) rfl
  simp [ofBytes, h₀, h₄, h₈]

end StoragePlaintext

/-! ## Records in shared memory

The records that cross between the worlds are read from, and written to, the bytes of a
memory reference.  The packet and the storage request, which the TA only reads, are
padded in front of their timestamps; the records it writes have no padding. -/

namespace SecureSensorPacket

def ofBytes (bytes : List UInt8) : SecureSensorPacket where
  sensorId := word32 bytes 0
  fogId := word32 bytes 4
  windowId := word32 bytes 8
  timestampMs := word64 bytes 16
  plaintextLen := word32 bytes 24
  nonce := bytesAt bytes 28 12
  ciphertext := bytesAt bytes 40 64
  ciphertextLen := word32 bytes 104
  tag := bytesAt bytes 108 16

end SecureSensorPacket

namespace StoragePrepInput

def ofBytes (bytes : List UInt8) : StoragePrepInput where
  windowId := word32 bytes 0
  fogCount := word32 bytes 4
  fakePaillierAggregate := word32 bytes 8
  paillierAggregate := bytesAt bytes 12 paillierCiphertextMax
  paillierAggregateLen := word32 bytes 140
  realPaillierEnabled := word32 bytes 144
  timestampMs := word64 bytes 152

end StoragePrepInput

namespace KmmProvisionInput

def ofBytes (bytes : List UInt8) : KmmProvisionInput where
  fogId := word32 bytes 0
  fromFogId := word32 bytes 4
  windowId := word32 bytes 8
  keyMaterial := bytesAt bytes 12 16

end KmmProvisionInput

/-- How a record that the TA writes lies in memory: what is written at the front of a
buffer is read back, whatever follows it. -/
structure RecordLayout (α : Type) where
  size : ℕ
  toBytes : α → List UInt8
  ofBytes : List UInt8 → α
  length_toBytes : ∀ record, (toBytes record).length = size
  ofBytes_toBytes_append : ∀ record rest, ofBytes (toBytes record ++ rest) = record

namespace SecureSensorResult

def toBytes (r : SecureSensorResult) : List UInt8 :=
  le32 r.sensorId ++ (le32 r.fogId ++ (le32 r.windowId ++ (le32 r.fakePaillierCiphertext ++
    (r.paillierCiphertext.toList ++ (le32 r.paillierCiphertextLen ++ (le32 r.scaledValue ++
      (le32 r.realPaillierEnabled ++ le32 r.status)))))))

def ofBytes (bytes : List UInt8) : SecureSensorResult where
  sensorId := word32 bytes 0
  fogId := word32 bytes 4
  windowId := word32 bytes 8
  fakePaillierCiphertext := word32 bytes 12
  paillierCiphertext := bytesAt bytes 16 paillierCiphertextMax
  paillierCiphertextLen := word32 bytes 144
  scaledValue := word32 bytes 148
  realPaillierEnabled := word32 bytes 152
  status := word32 bytes 156

def layout : RecordLayout SecureSensorResult where
  size := sizeofSecureSensorResult
  toBytes := toBytes
  ofBytes := ofBytes
  length_toBytes := fun r ↦ by simp [toBytes, paillierCiphertextMax]
  ofBytes_toBytes_append := fun r rest ↦ by
    simp [toBytes, ofBytes, word32_le32_append, word32_le32_append_add, bytesAt_toList_append,
      bytesAt_le32_append_add, word32_toList_append_add (n := 128)]

end SecureSensorResult

namespace StorageCloudObject

def toBytes (o : StorageCloudObject) : List UInt8 :=
  le32 o.windowId ++ (o.nonce.toList ++ (o.ciphertext.toList ++ (le32 o.ciphertextLen ++
    (o.tag.toList ++ le32 o.status))))

def ofBytes (bytes : List UInt8) : StorageCloudObject where
  windowId := word32 bytes 0
  nonce := bytesAt bytes 4 12
  ciphertext := bytesAt bytes 16 64
  ciphertextLen := word32 bytes 80
  tag := bytesAt bytes 84 16
  status := word32 bytes 100

def layout : RecordLayout StorageCloudObject where
  size := sizeofStorageCloudObject
  toBytes := toBytes
  ofBytes := ofBytes
  length_toBytes := fun o ↦ by simp [toBytes]
  ofBytes_toBytes_append := fun o rest ↦ by
    simp [toBytes, ofBytes, word32_le32_append, word32_le32_append_add, bytesAt_toList_append,
      bytesAt_le32_append_add, word32_toList_append_add (n := 12),
      word32_toList_append_add (n := 64),
      word32_toList_append_add (n := 16), bytesAt_toList_append_add (n := 12),
      bytesAt_toList_append_add (n := 64)]

end StorageCloudObject

namespace KmmProvisionResult

def toBytes (r : KmmProvisionResult) : List UInt8 :=
  le32 r.status

def ofBytes (bytes : List UInt8) : KmmProvisionResult where
  status := word32 bytes 0

def layout : RecordLayout KmmProvisionResult where
  size := sizeofKmmProvisionResult
  toBytes := toBytes
  ofBytes := ofBytes
  length_toBytes := fun _ ↦ rfl
  ofBytes_toBytes_append := fun r rest ↦ by simp [toBytes, ofBytes, word32_le32_append]

end KmmProvisionResult

end SecureIIoT
