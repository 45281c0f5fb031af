import SecureIIoT.Fog
import SecureIIoT.Lib.Run
import SecureIIoT.TA.Dispatch
import SecureIIoT.Tamper

/-!
# The system

Sensors create packets, the TA answers commands and the cloud verifier checks objects, in
any order and any number of times.  What goes from one to the other is up to Normal World,
which may submit any bytes: nothing that a step takes need come from an earlier step.

The sensors and the TA share one ideal AES-GCM, whose decryptions see only what has been
encrypted so far.  Over every run, the fog command accepts exactly what an earlier step
created (`fog_accepts_iff`), again and again, since the TA remembers nothing; and an object
verifies exactly if it carries the seal of an object that an earlier storage command
returned (`object_verifies_iff`).
-/

namespace SecureIIoT

open ByteString

namespace IdealGcm

/-- The encryptions of the history that have been made so far. -/
def restrict (I : IdealGcm) (made : List GcmQuery) : IdealGcm where
  toIdeal := I.toIdeal.restrict made
  length_encrypt := I.length_encrypt

end IdealGcm

/-! ## Steps -/

/-- What has been encrypted: the packets of the sensors, and the aggregates of the TA. -/
structure SystemState where
  created : List (SensorPlaintext × UInt32)
  sealed : List (StoragePrepInput × UInt32)

namespace SystemState

/-- Nothing has been encrypted yet. -/
def init : SystemState := ⟨[], []⟩

variable (s : SystemState)

def made : List GcmQuery :=
  s.created.map (fun x ↦ Host.sensorQuery x.1 x.2) ++
    s.sealed.map fun x ↦ TA.storageQuery x.1 x.2

/-- The AES-GCM of the host in a state. -/
def evp (I : IdealGcm) : EvpCrypto where
  aesGcmEncrypt key nonce aad plaintext := I.produce ⟨key, nonce, aad, plaintext⟩
  aesGcmDecrypt := (I.restrict s.made).decrypt

/-- What an invocation of the TA meets in a state. -/
def world (I : IdealGcm) (mp : LibTomMath) (random : ℕ → Vector UInt8 64) : TeeWorld :=
  ⟨mp, random, .ofGcm I.produce (I.restrict s.made).decrypt⟩

end SystemState

inductive SystemOp where
  | createPacket (plaintext : SensorPlaintext) (sequence : UInt32)
  | invokeCommand (mp : LibTomMath) (random : ℕ → Vector UInt8 64) (cmdId paramTypes : UInt32)
    (params : TA.TeeParams)
  | verifyObject (input : StoragePrepInput) (object : StorageCloudObject)

inductive SystemRet where
  | packet (packet : Option SecureSensorPacket)
  | invoked (result : TEEResult) (params : TA.TeeParams)
  | plaintext (plaintext : Option StoragePlaintext)

/-- The aggregate that a command has sealed, with its request. -/
def sealedBy (ta : TaBuild) (w : TeeWorld) (cmdId : UInt32) (params : TA.TeeParams)
    (result : TEEResult) : List (StoragePrepInput × UInt32) :=
  let input := (TA.inputRecord StoragePrepInput.ofBytes params).buffer
  if cmdId = TA.taHelloWorldCmdPrepareStorage then
    match result with
    | .error _ => []
    | .ok () => match TA.storageAggregate ta w input with
      | .error _ => []
      | .ok a => [(input, a)]
  else []

theorem mem_sealedBy_iff {ta : TaBuild} {w : TeeWorld} {cmdId : UInt32} {params : TA.TeeParams}
    {result : TEEResult} {x : StoragePrepInput × UInt32} :
    x ∈ sealedBy ta w cmdId params result ↔
      cmdId = TA.taHelloWorldCmdPrepareStorage ∧ result = .ok () ∧
        x.1 = (TA.inputRecord StoragePrepInput.ofBytes params).buffer ∧
        TA.storageAggregate ta w x.1 = .ok x.2 := by
  obtain ⟨input, a⟩ := x
  unfold sealedBy
  by_cases hcmd : cmdId = TA.taHelloWorldCmdPrepareStorage
  · rcases result with e | ⟨⟩
    · simp [hcmd]
    · cases hagg :
          TA.storageAggregate ta w (TA.inputRecord StoragePrepInput.ofBytes params).buffer with
      | error e =>
        suffices ¬ (input = (TA.inputRecord StoragePrepInput.ofBytes params).buffer ∧
            TA.storageAggregate ta w input = .ok a) by
          simpa [hcmd, hagg]
        rintro ⟨rfl, ha⟩
        rw [hagg] at ha
        cases ha
      | ok a' =>
        suffices input = (TA.inputRecord StoragePrepInput.ofBytes params).buffer ∧ a = a' ↔
            input = (TA.inputRecord StoragePrepInput.ofBytes params).buffer ∧
              TA.storageAggregate ta w input = .ok a by
          simpa [hcmd, hagg]
        refine and_congr_right fun hinput ↦ ?_
        rw [hinput, hagg, Except.ok.injEq]
        exact eq_comm
  · simp [hcmd]

def systemStep (ta : TaBuild) (I : IdealGcm) : Machine SystemState SystemOp SystemRet
  | s, .createPacket plaintext sequence =>
    let packet := Host.secureIiotCreatePacket (s.evp I) plaintext sequence
    (.packet packet, match packet with
      | none => s
      | some _ => { s with created := s.created ++ [(plaintext, sequence)] })
  | s, .invokeCommand mp random cmdId paramTypes params =>
    let w := s.world I mp random
    let out := TA.taInvokeCommandEntryPoint ta w cmdId paramTypes params
    (.invoked out.1 out.2, { s with sealed := s.sealed ++ sealedBy ta w cmdId params out.1 })
  | s, .verifyObject input object =>
    (.plaintext (Host.secureIiotDecryptCloudObjectForVerification (s.evp I) input object), s)

/-- The state and the calls of a run in which nothing was encrypted before. -/
def systemState (ta : TaBuild) (I : IdealGcm) (ops : List SystemOp) : SystemState :=
  Machine.final (systemStep ta I) .init ops

def systemCalls (ta : TaBuild) (I : IdealGcm) (ops : List SystemOp) :
    List (Call SystemState SystemOp SystemRet) :=
  Machine.calls (systemStep ta I) .init ops

/-! ## What a run has encrypted -/

namespace SystemCall

/-- What a call has created. -/
def created (call : Call SystemState SystemOp SystemRet) : List (SensorPlaintext × UInt32) :=
  match call.op, call.ret with
  | .createPacket plaintext sequence, .packet (some _) => [(plaintext, sequence)]
  | _, _ => []

/-- What a call has sealed. -/
def sealed (ta : TaBuild) (I : IdealGcm) (call : Call SystemState SystemOp SystemRet) :
    List (StoragePrepInput × UInt32) :=
  match call.op, call.ret with
  | .invokeCommand mp random cmdId _ params, .invoked result _ =>
    sealedBy ta (call.before.world I mp random) cmdId params result
  | _, _ => []

end SystemCall

section Run

variable (ta : TaBuild) (I : IdealGcm)

theorem systemStep_snd (s : SystemState) (op : SystemOp) :
    let call : Call SystemState SystemOp SystemRet :=
      ⟨s, op, (systemStep ta I s op).1, (systemStep ta I s op).2⟩
    call.after =
      ⟨s.created ++ SystemCall.created call, s.sealed ++ SystemCall.sealed ta I call⟩ := by
  cases op with
  | createPacket plaintext sequence =>
    simp only [systemStep]
    cases Host.secureIiotCreatePacket (s.evp I) plaintext sequence with
    | none => simp [SystemCall.created, SystemCall.sealed]
    | some packet => simp [SystemCall.created, SystemCall.sealed]
  | invokeCommand mp random cmdId paramTypes params =>
    simp [systemStep, SystemCall.created, SystemCall.sealed]
  | verifyObject input object => simp [systemStep, SystemCall.created, SystemCall.sealed]

/-- The state of a run is what its calls have created and sealed. -/
theorem systemState_eq (ops : List SystemOp) :
    systemState ta I ops =
      ⟨(systemCalls ta I ops).flatMap SystemCall.created,
        (systemCalls ta I ops).flatMap (SystemCall.sealed ta I)⟩ := by
  induction ops using List.reverseRecOn with
  | nil => rfl
  | append_singleton ops op ih =>
    have hcreated := congrArg SystemState.created ih
    have hsealed := congrArg SystemState.sealed ih
    dsimp only at hcreated hsealed
    rw [systemCalls, Machine.calls_concat, List.flatMap_append, List.flatMap_append,
      List.flatMap_singleton, List.flatMap_singleton]
    change _ = SystemState.mk ((systemCalls ta I ops).flatMap SystemCall.created ++ _)
      ((systemCalls ta I ops).flatMap (SystemCall.sealed ta I) ++ _)
    rw [← hcreated, ← hsealed, systemState, Machine.final_concat]
    exact systemStep_snd ta I (systemState ta I ops) op

/-- What a state holds as created is what some call has created. -/
theorem mem_created_iff {ops : List SystemOp} {x : SensorPlaintext × UInt32} :
    x ∈ (systemState ta I ops).created ↔ ∃ packet, ∃ call ∈ systemCalls ta I ops,
      call.op = .createPacket x.1 x.2 ∧ call.ret = .packet (some packet) := by
  rw [systemState_eq]
  dsimp only
  rw [List.mem_flatMap]
  constructor
  · rintro ⟨⟨before, op, ret, after⟩, hcall, hx⟩
    cases op with
    | createPacket plaintext sequence =>
      rcases ret with ⟨_ | packet⟩ | _ | _
      · cases hx
      · obtain rfl := List.mem_singleton.mp hx
        exact ⟨packet, _, hcall, rfl, rfl⟩
      · cases hx
      · cases hx
    | invokeCommand => cases hx
    | verifyObject => cases hx
  · rintro ⟨packet, ⟨before, op, ret, after⟩, hcall, rfl, rfl⟩
    exact ⟨_, hcall, List.mem_singleton.mpr rfl⟩

/-- What a state holds as sealed is what some storage command has sealed. -/
theorem mem_sealed_iff {ops : List SystemOp} {x : StoragePrepInput × UInt32} :
    x ∈ (systemState ta I ops).sealed ↔ ∃ mp random paramTypes params params',
      ∃ call ∈ systemCalls ta I ops,
        call.op = .invokeCommand mp random TA.taHelloWorldCmdPrepareStorage paramTypes params ∧
        call.ret = .invoked (.ok ()) params' ∧
        x.1 = (TA.inputRecord StoragePrepInput.ofBytes params).buffer ∧
        TA.storageAggregate ta (call.before.world I mp random) x.1 = .ok x.2 := by
  rw [systemState_eq]
  dsimp only
  rw [List.mem_flatMap]
  constructor
  · rintro ⟨⟨before, op, ret, after⟩, hcall, hx⟩
    cases op with
    | createPacket => cases hx
    | invokeCommand mp random cmdId paramTypes params =>
      rcases ret with _ | ⟨result, params'⟩ | _
      · cases hx
      · obtain ⟨rfl, rfl, hinput, ha⟩ := mem_sealedBy_iff.mp hx
        exact ⟨mp, random, paramTypes, params, params', _, hcall, rfl, rfl, hinput, ha⟩
      · cases hx
    | verifyObject => cases hx
  · rintro ⟨mp, random, paramTypes, params, params', ⟨before, op, ret, after⟩, hcall, rfl, rfl,
      hinput, ha⟩
    exact ⟨_, hcall, mem_sealedBy_iff.mpr ⟨rfl, rfl, hinput, ha⟩⟩

end Run

/-! ## The fog command -/

/-- The TA looks at nothing of a packet but its header, nonce, lengths, tag and ciphertext. -/
theorem processPacket_eq_of_agreesWith {ta : TaBuild} {w : TeeWorld}
    {p p' : SecureSensorPacket} (h : AgreesWith p p') :
    TA.processPacket ta w p = TA.processPacket ta w p' := by
  obtain ⟨hsensor, hfog, hwindow, htime, hnonce, hplain, hcipher, htag, hct⟩ := h
  have hlens : TA.packetLengthsValid p = TA.packetLengthsValid p' := by
    rw [TA.packetLengthsValid, TA.packetLengthsValid, hplain, hcipher]
  have haad : TA.buildMetadataAad p = TA.buildMetadataAad p' := by
    rw [TA.buildMetadataAad, TA.buildMetadataAad, hsensor, hfog, hwindow, htime]
  have hheaders (d : SensorPlaintext) : TA.headersMatch d p = TA.headersMatch d p' := by
    rw [TA.headersMatch, TA.headersMatch, hsensor, hfog, hwindow, htime]
  simp only [TA.processPacket, hlens, haad, hheaders, hnonce, htag, hct]

/-- The two demo keys differ. -/
theorem demoKstore_ne_demoKfog1 : TA.demoKstore ≠ TA.demoKfog1 := by
  decide

section Created

variable {ta : TaBuild} {I : IdealGcm} {ops : List SystemOp}

/-- A packet that a call of a run has created, as one of the encryptions made so far. -/
theorem exists_createdPacket {call : Call SystemState SystemOp SystemRet}
    {plaintext : SensorPlaintext} {sequence : UInt32} {packet : SecureSensorPacket}
    (hcall : call ∈ systemCalls ta I ops) (hop : call.op = .createPacket plaintext sequence)
    (hret : call.ret = .packet (some packet)) :
    ∃ x : CreatedPacket (I.restrict (systemState ta I ops).made),
      x.plaintext = plaintext ∧ x.sequence = sequence ∧ x.packet = packet := by
  have hmade : (plaintext, sequence) ∈ (systemState ta I ops).created :=
    (mem_created_iff ta I).mpr ⟨packet, call, hcall, hop, hret⟩
  obtain ⟨pre, op, -, rfl⟩ := (Machine.mem_calls_iff _).mp hcall
  obtain rfl : op = .createPacket plaintext sequence := hop
  have hcreate : Host.secureIiotCreatePacket I.evp plaintext sequence = some packet :=
    SystemRet.packet.inj hret
  obtain ⟨ciphertext, tag, hproduce, hpacket⟩ := Host.secureIiotCreatePacket_evp_iff.mp hcreate
  obtain ⟨hlog, henc⟩ := Aead.Ideal.produce_eq_some_iff.mp hproduce
  have hquery : Host.sensorQuery plaintext sequence ∈
      (I.restrict (systemState ta I ops).made).log :=
    Aead.Ideal.mem_restrict_iff.mpr ⟨hlog, List.mem_append_left _ (List.mem_map_of_mem hmade)⟩
  have hproduce' := Aead.Ideal.produce_eq_some_iff.mpr ⟨hquery, henc⟩
  exact ⟨⟨plaintext, sequence, packet, Host.secureIiotCreatePacket_evp_iff.mpr
    ⟨ciphertext, tag, hproduce', hpacket⟩⟩, rfl, rfl, rfl⟩

/-- Under the fog key, the encryptions made so far are those of the packets created. -/
theorem exists_createdPackets (ta : TaBuild) (I : IdealGcm) (ops : List SystemOp) :
    ∃ created : List (CreatedPacket (I.restrict (systemState ta I ops).made)),
      (∀ x ∈ created, ∃ call ∈ systemCalls ta I ops,
        call.op = .createPacket x.plaintext x.sequence ∧ call.ret = .packet (some x.packet)) ∧
      ∀ query ∈ (I.restrict (systemState ta I ops).made).log, query.key = TA.demoKfog1 →
        ∃ x ∈ created, query = Host.sensorQuery x.plaintext x.sequence := by
  have hpacket : ∀ query ∈ (I.restrict (systemState ta I ops).made).log,
      query.key = TA.demoKfog1 → ∃ x : CreatedPacket (I.restrict (systemState ta I ops).made),
        query = Host.sensorQuery x.plaintext x.sequence ∧ ∃ call ∈ systemCalls ta I ops,
          call.op = .createPacket x.plaintext x.sequence ∧ call.ret = .packet (some x.packet) := by
    intro query hquery hkey
    obtain ⟨-, hmade⟩ := Aead.Ideal.mem_restrict_iff.mp hquery
    rcases List.mem_append.mp hmade with hcreated | hsealed
    · obtain ⟨⟨plaintext, sequence⟩, hx, rfl⟩ := List.mem_map.mp hcreated
      obtain ⟨packet, call, hcall, hop, hret⟩ := (mem_created_iff ta I).mp hx
      obtain ⟨x, rfl, rfl, rfl⟩ := exists_createdPacket hcall hop hret
      exact ⟨x, rfl, call, hcall, hop, hret⟩
    · obtain ⟨⟨input, a⟩, -, rfl⟩ := List.mem_map.mp hsealed
      exact absurd hkey demoKstore_ne_demoKfog1
  choose f hf using hpacket
  have hfilter : ∀ query ∈ (I.restrict (systemState ta I ops).made).log.filter
      (·.key = TA.demoKfog1), query ∈ (I.restrict (systemState ta I ops).made).log ∧
        query.key = TA.demoKfog1 := by
    simp
  refine ⟨List.pmap (fun query h ↦ f query h.1 h.2) _ hfilter, ?_, ?_⟩
  · intro x hx
    obtain ⟨query, hquery, rfl⟩ := List.mem_pmap.mp hx
    exact (hf query _ _).2
  · intro query hquery hkey
    refine ⟨f query hquery hkey, List.mem_pmap.mpr ⟨query, ?_, rfl⟩, (hf query hquery hkey).1⟩
    exact List.mem_filter.mpr ⟨hquery, decide_eq_true hkey⟩

/-- After any run, the fog command succeeds exactly on what agrees with a packet that an
earlier step created, as often as it is submitted, if the reading is encrypted; and it
leaves that reading's record. -/
theorem fog_accepts_iff (ta : TaBuild) (I : IdealGcm) (ops : List SystemOp) (mp : LibTomMath)
    (random : ℕ → Vector UInt8 64) (paramTypes : UInt32) (params : TA.TeeParams)
    (record : MemRef SecureSensorResult) :
    let w := (systemState ta I ops).world I mp random
    let out := TA.taInvokeCommandEntryPoint ta w TA.taHelloWorldCmdProcessSensorPacket paramTypes
      params
    (out.1, TA.outputRecord SecureSensorResult.layout out.2) = (.ok (), record) ↔
      TA.RecordGate sizeofSecureSensorPacket sizeofSecureSensorResult paramTypes params ∧
      ∃ plaintext sequence packet, (∃ call ∈ systemCalls ta I ops,
        call.op = .createPacket plaintext sequence ∧ call.ret = .packet (some packet)) ∧
        AgreesWith (TA.inputRecord SecureSensorPacket.ofBytes params).buffer packet ∧
        ∃ encrypted, TA.encryptReading ta w plaintext .zero = (.ok (), encrypted) ∧
          record = ⟨TA.finishResult plaintext encrypted, sizeofSecureSensorResult⟩ := by
  intro w out
  rw [TA.invoke_processSensorPacket, TA.processSensorPacket, TA.recordCommand_ok_iff]
  refine and_congr_right fun _ ↦ ?_
  constructor
  · rintro ⟨hbody, hsize⟩
    obtain ⟨hlens, decrypted, hdecrypt, -, -, encrypted, henc, hresult⟩ :=
      TA.processPacket_ok_iff.mp hbody
    obtain ⟨created, hcreated, hlog⟩ := exists_createdPackets ta I ops
    obtain ⟨x, hx, hagrees, rfl⟩ := exists_created_of_decrypt hlog hlens hdecrypt
    rw [SensorPlaintext.ofBytes_toBytes] at henc hresult
    refine ⟨x.plaintext, x.sequence, x.packet, hcreated x hx, hagrees, encrypted, henc, ?_⟩
    rw [← hresult, ← hsize]
  · rintro ⟨plaintext, sequence, packet, ⟨call, hcall, hop, hret⟩, hagrees, encrypted, henc, rfl⟩
    obtain ⟨x, rfl, rfl, rfl⟩ := exists_createdPacket hcall hop hret
    have hbody : TA.processPacket ta w x.packet =
        TA.finishPacket x.plaintext (TA.encryptReading ta w x.plaintext .zero) :=
      x.processPacket (w := ⟨mp, random, (I.restrict (systemState ta I ops).made).tee⟩) rfl
    refine ⟨(processPacket_eq_of_agreesWith hagrees).trans ?_, rfl⟩
    rw [hbody, henc]
    rfl

end Created

/-! ## The verifier -/

section Sealed

variable {ta : TaBuild} {I : IdealGcm} {ops : List SystemOp}

/-- The request matters for its window, fog count and timestamp. -/
theorem Carries.of_sameRequest {I : IdealGcm} {i j : StoragePrepInput}
    {object : StorageCloudObject} {query : GcmQuery}
    (h : i.windowId = j.windowId ∧ i.fogCount = j.fogCount ∧ i.timestampMs = j.timestampMs)
    (hcarries : Carries I i object query) : Carries I j object query := by
  obtain ⟨hlog, hkey, hnonce, haad, hlen, henc⟩ := hcarries
  have haad' : Host.secureIiotBuildStorageAad i = Host.secureIiotBuildStorageAad j :=
    buildStorageAad_eq_iff.mpr h
  exact ⟨hlog, hkey, hnonce, haad.trans haad', hlen, henc⟩

/-- The object that a storage command of a run has returned carries what it has sealed. -/
theorem carries_of_call {call : Call SystemState SystemOp SystemRet} {mp : LibTomMath}
    {random : ℕ → Vector UInt8 64} {paramTypes : UInt32} {params params' : TA.TeeParams}
    {input : StoragePrepInput} {a : UInt32} (hcall : call ∈ systemCalls ta I ops)
    (hop : call.op =
      .invokeCommand mp random TA.taHelloWorldCmdPrepareStorage paramTypes params)
    (hret : call.ret = .invoked (.ok ()) params')
    (hinput : input = (TA.inputRecord StoragePrepInput.ofBytes params).buffer)
    (ha : TA.storageAggregate ta (call.before.world I mp random) input = .ok a) :
    Carries (I.restrict (systemState ta I ops).made) input
      (TA.outputRecord StorageCloudObject.layout params').buffer (TA.storageQuery input a) := by
  have hmade : (input, a) ∈ (systemState ta I ops).sealed :=
    (mem_sealed_iff ta I).mpr ⟨mp, random, paramTypes, params, params', call, hcall, hop, hret,
      hinput, ha⟩
  obtain ⟨pre, op, -, rfl⟩ := (Machine.mem_calls_iff _).mp hcall
  obtain rfl : op = .invokeCommand mp random TA.taHelloWorldCmdPrepareStorage paramTypes params :=
    hop
  obtain ⟨hresult, hparams⟩ := SystemRet.invoked.inj hret
  have hinvoke := TA.invoke_prepareStorage ta
    ((systemState ta I pre).world I mp random) paramTypes params
  have hok : TA.prepareStorage ta ⟨mp, random, I.tee⟩ paramTypes
      ⟨input, (params 0).memref.size⟩ (TA.outputRecord StorageCloudObject.layout params) =
        (.ok (), TA.outputRecord StorageCloudObject.layout params') := by
    rw [hinput, ← hparams, ← hresult]
    exact hinvoke.symm
  obtain ⟨⟨hlog, hcarries⟩, -⟩ := carries_of_ok (I := I) rfl hok ha
  refine ⟨Aead.Ideal.mem_restrict_iff.mpr ⟨hlog, List.mem_append_right _ ?_⟩, hcarries⟩
  exact List.mem_map_of_mem hmade

/-- After any run, an object verifies for a request exactly if it has the seal of the object
that an earlier storage command returned for a request with the same window, fog count and
timestamp; and what is recovered is the aggregate that was sealed then. -/
theorem object_verifies_iff (ta : TaBuild) (I : IdealGcm) (ops : List SystemOp)
    (input : StoragePrepInput) (object : StorageCloudObject) (plaintext : StoragePlaintext) :
    Host.secureIiotDecryptCloudObjectForVerification ((systemState ta I ops).evp I) input object =
      some plaintext ↔
      ∃ mp random paramTypes params params' input' a, (∃ call ∈ systemCalls ta I ops,
        call.op = .invokeCommand mp random TA.taHelloWorldCmdPrepareStorage paramTypes params ∧
        call.ret = .invoked (.ok ()) params' ∧
        input' = (TA.inputRecord StoragePrepInput.ofBytes params).buffer ∧
        TA.storageAggregate ta (call.before.world I mp random) input' = .ok a) ∧
        (input.windowId = input'.windowId ∧ input.fogCount = input'.fogCount ∧
          input.timestampMs = input'.timestampMs) ∧
        SameSeal (TA.outputRecord StorageCloudObject.layout params').buffer object ∧
        plaintext = ⟨input.windowId, a, input.timestampMs⟩ := by
  have hverify : Host.secureIiotDecryptCloudObjectForVerification
      (I.restrict (systemState ta I ops).made).evp input object = some plaintext ↔ _ :=
    verify_eq_some_iff
  refine hverify.trans ?_
  constructor
  · rintro ⟨query, hcarries, hplain⟩
    obtain ⟨-, hmade⟩ := Aead.Ideal.mem_restrict_iff.mp hcarries.1
    rcases List.mem_append.mp hmade with hcreated | hsealed
    · obtain ⟨x, -, rfl⟩ := List.mem_map.mp hcreated
      exact absurd hcarries.2.1.symm demoKstore_ne_demoKfog1
    · obtain ⟨⟨input', a⟩, hx, rfl⟩ := List.mem_map.mp hsealed
      obtain ⟨mp, random, paramTypes, params, params', call, hcall, hop, hret, hinput, ha⟩ :=
        (mem_sealed_iff ta I).mp hx
      have hsame := buildStorageAad_eq_iff.mp hcarries.2.2.2.1.symm
      have hcarries' := carries_of_call hcall hop hret hinput ha
      refine ⟨mp, random, paramTypes, params, params', input', a,
        ⟨call, hcall, hop, hret, hinput, ha⟩, hsame,
        hcarries'.sameSeal (hcarries.of_sameRequest hsame), ?_⟩
      rw [hplain, hsame.1, hsame.2.2]
      exact StoragePlaintext.ofBytes_toBytes _
  · rintro ⟨mp, random, paramTypes, params, params', input', a,
      ⟨call, hcall, hop, hret, hinput, ha⟩, hsame, hseal, rfl⟩
    have hcarries := carries_of_call hcall hop hret hinput ha
    have hrequest : input'.windowId = input.windowId ∧ input'.fogCount = input.fogCount ∧
        input'.timestampMs = input.timestampMs :=
      ⟨hsame.1.symm, hsame.2.1.symm, hsame.2.2.symm⟩
    refine ⟨_, (hcarries.of_sameSeal hseal).of_sameRequest hrequest, ?_⟩
    rw [hsame.1, hsame.2.2]
    exact (StoragePlaintext.ofBytes_toBytes _).symm

end Sealed

end SecureIIoT
