import SecureIIoT.TA.Commands

/-!
# The dispatcher of the TA

`TA_InvokeCommandEntryPoint` of `ta/hello_world_ta.c` on the parameters as they cross
from Normal World: the handlers that work on records find their bytes in the memory
references 0 and 1.  `onRecords` is their frame; what it does to the record and the size
of the output is what `recordCommand` does (`onRecords_eq`).
-/

namespace SecureIIoT

namespace TA

/-! ## Parameters -/

/-- `memref` of a `TEE_Param`: shared memory, of which `size` bytes are in use. -/
structure MemBytes where
  bytes : List UInt8
  size : ℕ
  size_le : size ≤ bytes.length

/-- `TEE_Param`.  The parameter types say which member of the union is there; no handler
looks at the other. -/
structure TeeParam where
  a : UInt32
  b : UInt32
  memref : MemBytes

/-- `TEE_Param params[4]` -/
abbrev TeeParams := Fin 4 → TeeParam

namespace MemBytes

/-- Write a string at the front. -/
def overwrite (m : MemBytes) (s : List UInt8) : MemBytes where
  bytes := s ++ m.bytes.drop s.length
  size := m.size
  size_le := by
    have h := m.size_le
    rw [List.length_append, List.length_drop]
    omega

/-- Assign to `memref.size`. -/
def setSize (m : MemBytes) (size : ℕ) (h : size ≤ m.bytes.length) : MemBytes where
  bytes := m.bytes
  size := size
  size_le := h

end MemBytes

/-- `TEE_PARAM_TYPE_VALUE_INOUT` -/
def teeParamTypeValueInout : UInt32 := 3

/-- The parameter types of `inc_value` and `dec_value`. -/
def valueParamTypes : UInt32 :=
  teeParamTypes teeParamTypeValueInout teeParamTypeNone teeParamTypeNone teeParamTypeNone

/-! ## Handlers -/

def incValue (paramTypes : UInt32) (params : TeeParams) : TEEResult × TeeParams :=
  if paramTypes ≠ valueParamTypes then (.error .badParameters, params)
  else (.ok (), Function.update params 0 { params 0 with a := (params 0).a + 1 })

def decValue (paramTypes : UInt32) (params : TeeParams) : TEEResult × TeeParams :=
  if paramTypes ≠ valueParamTypes then (.error .badParameters, params)
  else (.ok (), Function.update params 0 { params 0 with a := (params 0).a - 1 })

theorem incValue_of_ne {paramTypes : UInt32} (h : paramTypes ≠ valueParamTypes)
    (params : TeeParams) : incValue paramTypes params = (.error .badParameters, params) :=
  if_pos h

theorem decValue_of_ne {paramTypes : UInt32} (h : paramTypes ≠ valueParamTypes)
    (params : TeeParams) : decValue paramTypes params = (.error .badParameters, params) :=
  if_pos h

/-- `provision_key` past its gate, on a cleared result. -/
def importKey (crypto : TeeCrypto) (input : KmmProvisionInput) : TEEResult × KmmProvisionResult :=
  match crypto.allocateTransientObject with
  | .error e => (.error e, ⟨1⟩)
  | .ok () =>
    match crypto.populateTransientObject input.keyMaterial with
    | .error e => (.error e, ⟨2⟩)
    | .ok () => (.ok (), ⟨0⟩)

def provisionKey (w : TeeWorld) :
    UInt32 → MemRef KmmProvisionInput → MemRef KmmProvisionResult →
      TEEResult × MemRef KmmProvisionResult :=
  recordCommand sizeofKmmProvisionInput sizeofKmmProvisionResult (importKey w.crypto)

section OnRecords

variable {ι ο : Type} (sizeofInput : ℕ) (ofBytes : List UInt8 → ι) (layout : RecordLayout ο)
  (body : ι → TEEResult × ο)

/-- A record written to the front of a memory reference. -/
def MemBytes.putRecord (m : MemBytes) (record : ο) : MemBytes :=
  m.overwrite (layout.toBytes record)

theorem MemBytes.size_le_putRecord (m : MemBytes) (record : ο) :
    layout.size ≤ (m.putRecord layout record).bytes.length := by
  rw [putRecord, overwrite, List.length_append, layout.length_toBytes]
  exact Nat.le_add_right _ _

/-- The frame of the handlers on records: the type and size gate, the body on the record
in memory reference 0, its record into memory reference 1, and the output size of a body
that succeeds. -/
def onRecords (paramTypes : UInt32) (params : TeeParams) : TEEResult × TeeParams :=
  if paramTypes ≠ recordParamTypes then (.error .badParameters, params)
  else if (params 0).memref.size < sizeofInput ∨ (params 1).memref.size < layout.size then
    (.error .badParameters, params)
  else
    match body (ofBytes (params 0).memref.bytes) with
    | (.error e, record) =>
      (.error e, Function.update params 1 { params 1 with
        memref := (params 1).memref.putRecord layout record })
    | (.ok (), record) =>
      (.ok (), Function.update params 1 { params 1 with
        memref := ((params 1).memref.putRecord layout record).setSize layout.size
          ((params 1).memref.size_le_putRecord layout record) })

/-- The record that parameter 0 refers to. -/
def inputRecord (params : TeeParams) : MemRef ι :=
  ⟨ofBytes (params 0).memref.bytes, (params 0).memref.size⟩

/-- The record that parameter 1 refers to. -/
def outputRecord (params : TeeParams) : MemRef ο :=
  ⟨layout.ofBytes (params 1).memref.bytes, (params 1).memref.size⟩

/-- The gate of the handlers on records. -/
def RecordGate (sizeofInput sizeofOutput : ℕ) (paramTypes : UInt32) (params : TeeParams) :
    Prop :=
  paramTypes = recordParamTypes ∧ sizeofInput ≤ (params 0).memref.size ∧
    sizeofOutput ≤ (params 1).memref.size

/-- What the gate rejects is left as it is. -/
theorem onRecords_of_not_gate {paramTypes : UInt32} {params : TeeParams}
    (h : ¬ RecordGate sizeofInput layout.size paramTypes params) :
    onRecords sizeofInput ofBytes layout body paramTypes params =
      (.error .badParameters, params) := by
  rw [onRecords]
  by_cases htypes : paramTypes = recordParamTypes
  · have hsize : (params 0).memref.size < sizeofInput ∨ (params 1).memref.size < layout.size := by
      by_contra hsize
      exact h ⟨htypes, not_lt.mp fun hlt ↦ hsize (.inl hlt), not_lt.mp fun hlt ↦ hsize (.inr hlt)⟩
    rw [if_neg (not_not.mpr htypes), if_pos hsize]
  · rw [if_pos htypes]

/-- The frame on bytes is the frame on records. -/
theorem onRecords_eq (paramTypes : UInt32) (params : TeeParams) :
    ((onRecords sizeofInput ofBytes layout body paramTypes params).1,
      outputRecord layout (onRecords sizeofInput ofBytes layout body paramTypes params).2) =
    recordCommand sizeofInput layout.size body paramTypes
      ⟨ofBytes (params 0).memref.bytes, (params 0).memref.size⟩ (outputRecord layout params) := by
  by_cases h : RecordGate sizeofInput layout.size paramTypes params
  · obtain ⟨rfl, hinput, houtput⟩ := h
    have hsize :
        ¬ ((params 0).memref.size < sizeofInput ∨ (params 1).memref.size < layout.size) := by
      rintro (hlt | hlt)
      · exact hlt.not_ge hinput
      · exact hlt.not_ge houtput
    rw [recordCommand_of_gate hinput houtput, onRecords, if_neg (not_not.mpr rfl), if_neg hsize]
    rcases body (ofBytes (params 0).memref.bytes) with ⟨e | ⟨⟩, record⟩
    · simp [outputRecord, MemBytes.putRecord, MemBytes.overwrite, layout.ofBytes_toBytes_append]
    · simp [outputRecord, MemBytes.putRecord, MemBytes.overwrite, MemBytes.setSize,
        layout.ofBytes_toBytes_append]
  · rw [onRecords_of_not_gate sizeofInput ofBytes layout body h]
    refine (recordCommand_of_not_gate ?_).symm
    exact h

end OnRecords

/-! ## Commands -/

/-- `TA_HELLO_WORLD_CMD_INC_VALUE` -/
def taHelloWorldCmdIncValue : UInt32 := 0

/-- `TA_HELLO_WORLD_CMD_DEC_VALUE` -/
def taHelloWorldCmdDecValue : UInt32 := 1

/-- `TA_HELLO_WORLD_CMD_PROCESS_SENSOR_PACKET` -/
def taHelloWorldCmdProcessSensorPacket : UInt32 := 2

/-- `TA_HELLO_WORLD_CMD_PREPARE_STORAGE` -/
def taHelloWorldCmdPrepareStorage : UInt32 := 3

/-- `TA_HELLO_WORLD_CMD_PROVISION_KEY` -/
def taHelloWorldCmdProvisionKey : UInt32 := 4

/-- `TA_InvokeCommandEntryPoint` -/
def taInvokeCommandEntryPoint (ta : TaBuild) (w : TeeWorld) (cmdId paramTypes : UInt32)
    (params : TeeParams) : TEEResult × TeeParams :=
  if cmdId = taHelloWorldCmdIncValue then incValue paramTypes params
  else if cmdId = taHelloWorldCmdDecValue then decValue paramTypes params
  else if cmdId = taHelloWorldCmdProcessSensorPacket then
    onRecords sizeofSecureSensorPacket SecureSensorPacket.ofBytes SecureSensorResult.layout
      (processPacket ta w) paramTypes params
  else if cmdId = taHelloWorldCmdPrepareStorage then
    onRecords sizeofStoragePrepInput StoragePrepInput.ofBytes StorageCloudObject.layout
      (prepareObject ta w) paramTypes params
  else if cmdId = taHelloWorldCmdProvisionKey then
    onRecords sizeofKmmProvisionInput KmmProvisionInput.ofBytes KmmProvisionResult.layout
      (importKey w.crypto) paramTypes params
  else (.error .badParameters, params)

section Invoke

variable (ta : TaBuild) (w : TeeWorld) (paramTypes : UInt32) (params : TeeParams)

/-! What the commands on records return and leave is what the handlers do with the records
that the parameters hold. -/

theorem invoke_processSensorPacket :
    let out := taInvokeCommandEntryPoint ta w taHelloWorldCmdProcessSensorPacket paramTypes params
    (out.1, outputRecord SecureSensorResult.layout out.2) =
      processSensorPacket ta w paramTypes
        ⟨SecureSensorPacket.ofBytes (params 0).memref.bytes, (params 0).memref.size⟩
        (outputRecord SecureSensorResult.layout params) :=
  onRecords_eq _ _ SecureSensorResult.layout _ _ _

theorem invoke_prepareStorage :
    let out := taInvokeCommandEntryPoint ta w taHelloWorldCmdPrepareStorage paramTypes params
    (out.1, outputRecord StorageCloudObject.layout out.2) =
      prepareStorage ta w paramTypes
        ⟨StoragePrepInput.ofBytes (params 0).memref.bytes, (params 0).memref.size⟩
        (outputRecord StorageCloudObject.layout params) :=
  onRecords_eq _ _ StorageCloudObject.layout _ _ _

theorem invoke_provisionKey :
    let out := taInvokeCommandEntryPoint ta w taHelloWorldCmdProvisionKey paramTypes params
    (out.1, outputRecord KmmProvisionResult.layout out.2) =
      provisionKey w paramTypes
        ⟨KmmProvisionInput.ofBytes (params 0).memref.bytes, (params 0).memref.size⟩
        (outputRecord KmmProvisionResult.layout params) :=
  onRecords_eq _ _ KmmProvisionResult.layout _ _ _

end Invoke

end TA

end SecureIIoT
