import SecureIIoT.TA.Dispatch

/-!
# Failures of the TA

A request that the dispatcher or the gate of a handler rejects changes nothing.  Past the
gate, the code that a handler returns and the status it leaves in the output agree; and
if it fails, for whatever fault of the library or of the TEE, the size of the output is
what it was and the record announces nothing (`invoke_failures_agree`).
-/

namespace SecureIIoT

open TA

/-! ## The records of a failure -/

/-- No field of the result announces a ciphertext or a reading. -/
structure SecureSensorResult.Silent (r : SecureSensorResult) : Prop where
  realPaillierEnabled : r.realPaillierEnabled = 0
  paillierCiphertextLen : r.paillierCiphertextLen = 0
  fakePaillierCiphertext : r.fakePaillierCiphertext = 0
  scaledValue : r.scaledValue = 0
  sensorId : r.sensorId = 0
  fogId : r.fogId = 0
  windowId : r.windowId = 0

/-- The cloud object announces no ciphertext. -/
def StorageCloudObject.Silent (o : StorageCloudObject) : Prop :=
  o.ciphertextLen = 0

/-- A body whose code and status agree, and that leaves a record with `silent` when it
fails. -/
structure FailureAgrees {ο : Type} (status : ο → UInt32) (silent : ο → Prop)
    (out : TEEResult × ο) : Prop where
  status_iff : out.1 = .ok () ↔ status out.2 = 0
  silent_of_error : out.1 ≠ .ok () → silent out.2

theorem FailureAgrees.of_ok {ο : Type} {status : ο → UInt32} {silent : ο → Prop} {record : ο}
    (h : status record = 0) : FailureAgrees status silent (.ok (), record) where
  status_iff := iff_of_true rfl h
  silent_of_error := fun herror ↦ absurd rfl herror

theorem FailureAgrees.of_error {ο : Type} {status : ο → UInt32} {silent : ο → Prop} {record : ο}
    (e : TEEError) (code : UInt32) (h : status record = code) (hcode : code ≠ 0)
    (hsilent : silent record) : FailureAgrees status silent (.error e, record) where
  status_iff := iff_of_false nofun (h ▸ hcode)
  silent_of_error := fun _ ↦ hsilent

/-! ## The fog command -/

/-- A failing encryption leaves the length alone. -/
theorem TA.paillierTaEncryptRealU32_error_len {ta : TaBuild} {w : TeeWorld} {m outMaxLen : UInt32}
    {out out' : CiphertextOut} {e : TEEError}
    (h : paillierTaEncryptRealU32 ta w m out outMaxLen = (.error e, out')) :
    out'.len = out.len := by
  unfold paillierTaEncryptRealU32 at h
  split at h
  · cases h
    rfl
  split at h
  · cases h
    rfl
  split at h
  · cases h
    rfl
  split at h
  · cases h
    rfl
  split at h
  · cases h
    rfl
  · cases h

theorem silent_zero : SecureSensorResult.Silent .zero :=
  ⟨rfl, rfl, rfl, rfl, rfl, rfl, rfl⟩

/-- The status announces nothing. -/
theorem SecureSensorResult.Silent.withStatus {r : SecureSensorResult} (h : r.Silent)
    (status : UInt32) : Silent { r with status := status } :=
  ⟨h.1, h.2, h.3, h.4, h.5, h.6, h.7⟩

/-- A failing encryption of the reading leaves at most bytes of the ciphertext. -/
theorem TA.encryptReading_error_silent {ta : TaBuild} {w : TeeWorld} {plaintext : SensorPlaintext}
    {result : SecureSensorResult} {e : TEEError}
    (h : encryptReading ta w plaintext .zero = (.error e, result)) : result.Silent := by
  rw [encryptReading] at h
  by_cases hreal : ta.realPaillier = true
  · rw [if_pos hreal] at h
    by_cases hneg : plaintext.readingScaled < 0
    · rw [if_pos hneg] at h
      cases h
      exact silent_zero
    · rw [if_neg hneg] at h
      rcases hout : paillierTaEncryptRealU32 ta w plaintext.readingScaled.toUInt32
        ⟨SecureSensorResult.zero.paillierCiphertext, SecureSensorResult.zero.paillierCiphertextLen⟩
        128 with ⟨e' | ⟨⟩, out⟩
      · have hlen : out.len = 0 := paillierTaEncryptRealU32_error_len hout
        simp only [hout] at h
        obtain ⟨-, rfl⟩ := Prod.mk.inj h
        exact ⟨rfl, hlen, rfl, rfl, rfl, rfl, rfl⟩
      · simp only [hout] at h
        cases h
  · rw [if_neg hreal] at h
    cases h

theorem TA.processPacket_agrees (ta : TaBuild) (w : TeeWorld) (packet : SecureSensorPacket) :
    FailureAgrees SecureSensorResult.status SecureSensorResult.Silent
      (processPacket ta w packet) := by
  unfold processPacket
  split
  · exact .of_error _ 1 rfl (by decide) (silent_zero.withStatus 1)
  split
  · exact .of_error _ 2 rfl (by decide) (silent_zero.withStatus 2)
  split
  · exact .of_error _ 3 rfl (by decide) (silent_zero.withStatus 3)
  dsimp only
  split
  · exact .of_error _ 4 rfl (by decide) (silent_zero.withStatus 4)
  rcases hencrypted : encryptReading ta w _ .zero with ⟨e | ⟨⟩, result⟩
  · exact .of_error _ 5 rfl (by decide) ((encryptReading_error_silent hencrypted).withStatus 5)
  · exact .of_ok rfl

/-! ## The other commands on records -/

theorem TA.prepareObject_agrees (ta : TaBuild) (w : TeeWorld) (input : StoragePrepInput) :
    FailureAgrees StorageCloudObject.status StorageCloudObject.Silent
      (prepareObject ta w input) := by
  unfold prepareObject
  split
  · exact .of_error _ 2 rfl (by decide) rfl
  split
  · exact .of_error _ 1 rfl (by decide) rfl
  · exact .of_ok rfl

theorem TA.importKey_agrees (crypto : TeeCrypto) (input : KmmProvisionInput) :
    FailureAgrees KmmProvisionResult.status (fun _ ↦ True) (importKey crypto input) := by
  unfold importKey
  split
  · exact .of_error _ 1 rfl (by decide) trivial
  split
  · exact .of_error _ 2 rfl (by decide) trivial
  · exact .of_ok rfl

/-! ## The entry point -/

/-- The record in parameter 1 after a command, and its size, agree with the code that the
command returns. -/
structure OutputAgrees {ο : Type} (layout : RecordLayout ο) (status : ο → UInt32)
    (silent : ο → Prop) (params : TeeParams) (out : TEEResult × TeeParams) :
    Prop where
  status_iff : out.1 = .ok () ↔ status (layout.ofBytes (out.2 1).memref.bytes) = 0
  size_of_error : out.1 ≠ .ok () → (out.2 1).memref.size = (params 1).memref.size
  silent_of_error : out.1 ≠ .ok () → silent (layout.ofBytes (out.2 1).memref.bytes)

/-- Past the gate, the frame of the handlers on records leaves what its body does. -/
theorem TA.onRecords_agrees {ι ο : Type} {sizeofInput : ℕ} {ofBytes : List UInt8 → ι}
    {layout : RecordLayout ο} {body : ι → TEEResult × ο} {paramTypes : UInt32}
    {params : TeeParams} {status : ο → UInt32} {silent : ο → Prop}
    (hbody : ∀ input, FailureAgrees status silent (body input))
    (hgate : RecordGate sizeofInput layout.size paramTypes params) :
    OutputAgrees layout status silent params
      (onRecords sizeofInput ofBytes layout body paramTypes params) := by
  obtain ⟨rfl, hinput, houtput⟩ := hgate
  have hbody := hbody (ofBytes (params 0).memref.bytes)
  have hframe := onRecords_eq sizeofInput ofBytes layout body recordParamTypes params
  rw [recordCommand_of_gate hinput houtput] at hframe
  rcases hout : body (ofBytes (params 0).memref.bytes) with ⟨e | ⟨⟩, record⟩
  · rw [hout] at hframe hbody
    obtain ⟨hcode, hrecord⟩ := Prod.mk.inj hframe
    obtain ⟨hbuffer, hsize⟩ := MemRef.mk.inj hrecord
    refine ⟨?_, fun _ ↦ hsize, fun _ ↦ ?_⟩
    · rw [hcode, hbuffer]
      exact hbody.status_iff
    · rw [hbuffer]
      exact hbody.silent_of_error nofun
  · rw [hout] at hframe hbody
    obtain ⟨hcode, hrecord⟩ := Prod.mk.inj hframe
    obtain ⟨hbuffer, -⟩ := MemRef.mk.inj hrecord
    refine ⟨?_, fun herror ↦ absurd hcode herror, fun herror ↦ absurd hcode herror⟩
    rw [hcode, hbuffer]
    exact hbody.status_iff

/-- The requests that the dispatcher and the gate of the handler let through. -/
def CommandGate (cmdId paramTypes : UInt32) (params : TeeParams) : Prop :=
  if cmdId = taHelloWorldCmdIncValue ∨ cmdId = taHelloWorldCmdDecValue then
    paramTypes = valueParamTypes
  else if cmdId = taHelloWorldCmdProcessSensorPacket then
    RecordGate sizeofSecureSensorPacket sizeofSecureSensorResult paramTypes params
  else if cmdId = taHelloWorldCmdPrepareStorage then
    RecordGate sizeofStoragePrepInput sizeofStorageCloudObject paramTypes params
  else if cmdId = taHelloWorldCmdProvisionKey then
    RecordGate sizeofKmmProvisionInput sizeofKmmProvisionResult paramTypes params
  else False

theorem invoke_of_not_gate (ta : TaBuild) (w : TeeWorld) {cmdId paramTypes : UInt32}
    {params : TeeParams} (h : ¬ CommandGate cmdId paramTypes params) :
    taInvokeCommandEntryPoint ta w cmdId paramTypes params = (.error .badParameters, params) := by
  rw [taInvokeCommandEntryPoint]
  rw [CommandGate] at h
  by_cases hinc : cmdId = taHelloWorldCmdIncValue
  · rw [if_pos (.inl hinc)] at h
    rw [if_pos hinc]
    exact incValue_of_ne h params
  by_cases hdec : cmdId = taHelloWorldCmdDecValue
  · rw [if_pos (.inr hdec)] at h
    rw [if_neg hinc, if_pos hdec]
    exact decValue_of_ne h params
  rw [if_neg (not_or_intro hinc hdec)] at h
  rw [if_neg hinc, if_neg hdec]
  by_cases hfog : cmdId = taHelloWorldCmdProcessSensorPacket
  · rw [if_pos hfog] at h
    rw [if_pos hfog]
    exact onRecords_of_not_gate _ _ SecureSensorResult.layout _ h
  rw [if_neg hfog] at h
  rw [if_neg hfog]
  by_cases hstorage : cmdId = taHelloWorldCmdPrepareStorage
  · rw [if_pos hstorage] at h
    rw [if_pos hstorage]
    exact onRecords_of_not_gate _ _ StorageCloudObject.layout _ h
  rw [if_neg hstorage] at h
  rw [if_neg hstorage]
  by_cases hkey : cmdId = taHelloWorldCmdProvisionKey
  · rw [if_pos hkey] at h
    rw [if_pos hkey]
    exact onRecords_of_not_gate _ _ KmmProvisionResult.layout _ h
  · rw [if_neg hkey]

/-- For every command, parameter types and parameters, and whatever fails: a request that
is rejected leaves all parameters as they are; and past the gate of the three commands on
records, code and status agree, and a failure leaves the size of the output alone and a
record that announces nothing. -/
theorem invoke_failures_agree (ta : TaBuild) (w : TeeWorld) (cmdId paramTypes : UInt32)
    (params : TeeParams) :
    (¬ CommandGate cmdId paramTypes params →
      taInvokeCommandEntryPoint ta w cmdId paramTypes params = (.error .badParameters, params)) ∧
    (CommandGate cmdId paramTypes params →
      (cmdId = taHelloWorldCmdProcessSensorPacket →
        OutputAgrees SecureSensorResult.layout SecureSensorResult.status SecureSensorResult.Silent
          params (taInvokeCommandEntryPoint ta w cmdId paramTypes params)) ∧
      (cmdId = taHelloWorldCmdPrepareStorage →
        OutputAgrees StorageCloudObject.layout StorageCloudObject.status StorageCloudObject.Silent
          params (taInvokeCommandEntryPoint ta w cmdId paramTypes params)) ∧
      (cmdId = taHelloWorldCmdProvisionKey →
        OutputAgrees KmmProvisionResult.layout KmmProvisionResult.status (fun _ ↦ True)
          params (taInvokeCommandEntryPoint ta w cmdId paramTypes params))) := by
  refine ⟨invoke_of_not_gate ta w, fun hgate ↦ ⟨?_, ?_, ?_⟩⟩
  · rintro rfl
    exact onRecords_agrees (processPacket_agrees ta w) hgate
  · rintro rfl
    exact onRecords_agrees (prepareObject_agrees ta w) hgate
  · rintro rfl
    exact onRecords_agrees (importKey_agrees w.crypto) hgate

end SecureIIoT
