import SecureIIoT.Host.Common
import SecureIIoT.TA.Commands

/-!
# Recorded AES-128-GCM

A table of encryptions with the outputs of AES-128-GCM is an ideal AEAD: what it records
is the log, and every recorded encryption is made (`GcmTable.produce_of_mem`).  It also
stands for an AES-GCM that refuses no encryption (`GcmTable.total`).

`demoTable` records the encryptions of a few sensor readings and cloud objects under the
demo keys.
-/

namespace SecureIIoT

open ByteString

/-- Encryptions with their outputs, which are those of some ideal AEAD. -/
structure GcmTable where
  entries : List (GcmQuery × List UInt8 × Vector UInt8 16)
  functional : (entries.map Prod.fst).Nodup
  lengths : ∀ e ∈ entries, e.2.1.length = e.1.msg.length
  binding : ∀ e ∈ entries, ∀ e' ∈ entries, e.1.key = e'.1.key → e.1.nonce = e'.1.nonce →
    e.2 = e'.2 → e.1 = e'.1

namespace GcmTable

variable (T : GcmTable)

/-- The recorded output; of what is not recorded, some output of the right length. -/
def encrypt (x : GcmQuery) : List UInt8 × Vector UInt8 16 :=
  match T.entries.find? fun e ↦ e.1 = x with
  | some e => e.2
  | none => (x.msg, .replicate _ 0)

variable {T}

theorem encrypt_of_mem {e : GcmQuery × List UInt8 × Vector UInt8 16} (h : e ∈ T.entries) :
    T.encrypt e.1 = e.2 := by
  rw [encrypt]
  cases hfind : T.entries.find? fun e' ↦ e'.1 = e.1 with
  | none => exact absurd (decide_eq_true rfl) (List.find?_eq_none.mp hfind e h)
  | some e' =>
      have hquery : e'.1 = e.1 := by simpa using List.find?_some hfind
      exact congrArg Prod.snd
        (List.inj_on_of_nodup_map T.functional (List.mem_of_find?_eq_some hfind) h hquery)

theorem length_encrypt (x : GcmQuery) : (T.encrypt x).1.length = x.msg.length := by
  rw [encrypt]
  cases hfind : T.entries.find? fun e ↦ e.1 = x with
  | none => rfl
  | some e =>
      have hquery : e.1 = x := by simpa using List.find?_some hfind
      exact hquery ▸ T.lengths e (List.mem_of_find?_eq_some hfind)

variable (T)

/-- The ideal AEAD that makes the recorded encryptions and no others. -/
def ideal : IdealGcm where
  encrypt := T.encrypt
  log := T.entries.map Prod.fst
  binding := by
    simp only [List.forall_mem_map]
    intro e he e' he' hkey hnonce henc
    rw [encrypt_of_mem he, encrypt_of_mem he'] at henc
    exact T.binding e he e' he' hkey hnonce henc
  length_encrypt := length_encrypt

/-- The operations of an AES-GCM that encrypts whatever it is asked to. -/
def total : TeeCrypto :=
  .ofGcm (fun x ↦ some (T.encrypt x)) T.ideal.decrypt

variable {T}

theorem total_reliable : T.total.Reliable where
  allocateTransientObject := rfl
  populateTransientObject := fun _ ↦ rfl
  allocateOperation := rfl
  setOperationKey := rfl
  aeInit := rfl
  aeEncryptFinal := by
    intro key nonce aad plaintext capacity tagCapacity hcapacity htag
    have hfits : ¬ (capacity < plaintext.length ∨ tagCapacity < 16) := by omega
    exact ⟨_, _, if_neg hfits, length_encrypt _, Vector.length_toList⟩

theorem produce_of_mem {e : GcmQuery × List UInt8 × Vector UInt8 16} (h : e ∈ T.entries) :
    T.ideal.produce e.1 = some e.2 :=
  Aead.Ideal.produce_eq_some_iff.mpr ⟨List.mem_map_of_mem h, encrypt_of_mem h⟩

end GcmTable

/-! ## The demo table -/

/-- The first demo reading, with the value given. -/
def demoReading (readingScaled : Int32) : SensorPlaintext :=
  ⟨1, 1, 1, readingScaled, 1710000000001⟩

/-- A request to seal, in mock mode, the aggregate given for the first window. -/
def demoRequest (fakePaillierAggregate : UInt32) (timestampMs : UInt64) : StoragePrepInput :=
  ⟨1, 1, fakePaillierAggregate, .replicate _ 0, 0, 0, timestampMs⟩

def demoSensorEntries : List (GcmQuery × List UInt8 × Vector UInt8 16) :=
  [(Host.sensorQuery (demoReading 25000) 1,
    [0x2d, 0xd8, 0x4b, 0x2a, 0x03, 0x89, 0x08, 0x60, 0x46, 0x32, 0x7d, 0x76,
      0x5e, 0xb5, 0x3f, 0xcc, 0x32, 0x87, 0xe6, 0x5a, 0xb2, 0x83, 0xf5, 0x6c],
    #v[0x29, 0x6e, 0x40, 0x1a, 0xfd, 0xab, 0x61, 0xe0, 0xf8, 0xbc, 0x1f, 0x74, 0xa3, 0x67, 0xae,
      0x19]),
   (Host.sensorQuery (demoReading 25001) 2,
    [0x9a, 0xf6, 0x97, 0x4b, 0x53, 0x0b, 0xb2, 0xb9, 0x45, 0x9b, 0x9d, 0x2b,
      0x76, 0x15, 0x38, 0x43, 0xc5, 0x7b, 0x8d, 0x49, 0x4c, 0xca, 0x8b, 0x7c],
    #v[0xd2, 0xcb, 0x7b, 0xa2, 0xd2, 0x77, 0x1b, 0x1d, 0x89, 0xa7, 0xa9, 0xdc, 0x87, 0x98, 0x1a,
      0x58]),
   (Host.sensorQuery (demoReading (-1)) 3,
    [0x25, 0x62, 0x5e, 0xe2, 0xc1, 0xbe, 0xcb, 0xcc, 0xfd, 0xcb, 0x2b, 0xfc,
      0xa6, 0xeb, 0xca, 0x85, 0x63, 0x51, 0x75, 0x83, 0x64, 0x43, 0x67, 0xe7],
    #v[0x24, 0x42, 0x40, 0xb9, 0xd3, 0xa5, 0x67, 0x7d, 0x23, 0x6b, 0x53, 0xf4, 0x3b, 0xad, 0x6a,
      0x67])]

def demoStorageEntries : List (GcmQuery × List UInt8 × Vector UInt8 16) :=
  [(TA.storageQuery (demoRequest 73000 1710000000999) 73000,
    [0xc8, 0x25, 0x91, 0x78, 0xea, 0x8b, 0x8d, 0x69, 0x9a, 0xcb, 0x08, 0x33, 0xde, 0x30, 0x16,
      0x4e],
    #v[0xc5, 0xed, 0x3a, 0x3f, 0xb7, 0x7f, 0x4f, 0x88, 0xd4, 0xcb, 0x4c, 0x05, 0x68, 0x9f, 0x40,
      0x2a]),
   (TA.storageQuery (demoRequest 73000 1710000001000) 73000,
    [0xc8, 0x25, 0x91, 0x78, 0xea, 0x8b, 0x8d, 0x69, 0x95, 0xcb, 0x08, 0x33, 0xde, 0x30, 0x16,
      0x4e],
    #v[0x48, 0xb7, 0x7f, 0x7a, 0xb3, 0xbd, 0x9c, 0xb1, 0xa9, 0x72, 0x82, 0xd4, 0x96, 0x0d, 0x93,
      0x99]),
   (TA.storageQuery (demoRequest 0 1710000000999) 0,
    [0xc8, 0x25, 0x91, 0x78, 0xc2, 0x96, 0x8c, 0x69, 0x9a, 0xcb, 0x08, 0x33, 0xde, 0x30, 0x16,
      0x4e],
    #v[0x1b, 0x12, 0xee, 0x63, 0x26, 0x34, 0xcd, 0xa5, 0x6e, 0x02, 0x75, 0x86, 0x4d, 0xf9, 0x8f,
      0xfe]),
   (TA.storageQuery (demoRequest 1 1710000000999) 1,
    [0xc8, 0x25, 0x91, 0x78, 0xc3, 0x96, 0x8c, 0x69, 0x9a, 0xcb, 0x08, 0x33, 0xde, 0x30, 0x16,
      0x4e],
    #v[0x70, 0xba, 0x84, 0xbb, 0x4c, 0xaf, 0x5b, 0xf4, 0x55, 0xe3, 0x56, 0xaa, 0x73, 0xa9, 0x66,
      0xe1]),
   (TA.storageQuery (demoRequest 25000 1710000000999) 25000,
    [0xc8, 0x25, 0x91, 0x78, 0x6a, 0xf7, 0x8c, 0x69, 0x9a, 0xcb, 0x08, 0x33, 0xde, 0x30, 0x16,
      0x4e],
    #v[0x1b, 0xa3, 0x30, 0x1f, 0xa3, 0xce, 0x91, 0x5e, 0x05, 0x01, 0x12, 0xf2, 0xf9, 0x77, 0x1c,
      0xc9]),
   (TA.storageQuery (demoRequest 4294967295 1710000000999) 4294967295,
    [0xc8, 0x25, 0x91, 0x78, 0x3d, 0x69, 0x73, 0x96, 0x9a, 0xcb, 0x08, 0x33, 0xde, 0x30, 0x16,
      0x4e],
    #v[0x81, 0x36, 0xa5, 0x49, 0xc8, 0x9f, 0x4a, 0x95, 0xb8, 0x6e, 0xa1, 0x7a, 0xdd, 0x40, 0x61,
      0x27])]

/-- The outputs of AES-128-GCM for the demo entries. -/
def demoTable : GcmTable where
  entries := demoSensorEntries ++ demoStorageEntries
  functional := by decide +kernel
  lengths := by decide +kernel
  binding := by decide +kernel

/-! ## The readings of the demo -/

/-- The packets of the three demo readings. -/
def readingsSensorEntries : List (GcmQuery × List UInt8 × Vector UInt8 16) :=
  [(Host.sensorQuery (demoReading 25000) 1,
    [0x2d, 0xd8, 0x4b, 0x2a, 0x03, 0x89, 0x08, 0x60, 0x46, 0x32, 0x7d, 0x76,
      0x5e, 0xb5, 0x3f, 0xcc, 0x32, 0x87, 0xe6, 0x5a, 0xb2, 0x83, 0xf5, 0x6c],
    #v[0x29, 0x6e, 0x40, 0x1a, 0xfd, 0xab, 0x61, 0xe0, 0xf8, 0xbc, 0x1f, 0x74, 0xa3, 0x67, 0xae,
      0x19]),
   (Host.sensorQuery ⟨2, 1, 1, 30000, 1710000000002⟩ 2,
    [0xb2, 0x94, 0x1c, 0xd8, 0x3d, 0x16, 0x9a, 0xf9, 0xa8, 0x96, 0x8b, 0x17,
      0xc7, 0x0f, 0xbd, 0x00, 0x4e, 0x5c, 0xe5, 0xf4, 0xea, 0x6f, 0xa8, 0xcc],
    #v[0xa7, 0x25, 0x23, 0x12, 0x3e, 0x24, 0xd8, 0x56, 0xb0, 0xa0, 0xfe, 0xde, 0x16, 0xfb, 0xc8,
      0x8a]),
   (Host.sensorQuery ⟨3, 1, 1, 18000, 1710000000003⟩ 3,
    [0x15, 0x04, 0x97, 0xb4, 0xdd, 0xde, 0x8b, 0x53, 0x25, 0x78, 0x62, 0xe4,
      0x89, 0xbc, 0x09, 0x76, 0xe9, 0x25, 0x28, 0x8b, 0xae, 0xc4, 0xeb, 0xcb],
    #v[0x55, 0x1a, 0x22, 0xdf, 0x4c, 0xab, 0x7e, 0x4d, 0xbd, 0x3e, 0x78, 0x68, 0x15, 0xd9, 0x23,
      0x5f])]

/-- The outputs of AES-128-GCM for the three demo readings, and for the demo objects. -/
def readingsTable : GcmTable where
  entries := readingsSensorEntries ++ demoStorageEntries
  functional := by decide +kernel
  lengths := by decide +kernel
  binding := by decide +kernel

end SecureIIoT
