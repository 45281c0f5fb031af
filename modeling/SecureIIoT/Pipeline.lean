import SecureIIoT.Host.Pipeline
import SecureIIoT.Modes
import SecureIIoT.Tamper

/-!
# The pipeline programs

On ideal AES-GCM, with one key on both sides and whatever fails or is drawn: a program
returns exactly if none of its steps fails (`fullCryptoVerify_ok_iff`), and what it then has
decrypted, and what the cloud object holds, is the sum of the readings modulo `n`.  So the
verifier has two outcomes for readings with the expected sum: it stops at an `errx`, or all
its checks pass.
-/

namespace SecureIIoT

open ByteString Host

/-- The programs run over ideal AES-GCM, with one key on both sides. -/
structure Host.PipelineEnv.Over (env : PipelineEnv) (realPaillier : Bool) (k : DemoSizedKey)
    (I : IdealGcm) : Prop where
  key : env.key = k.toPaillierKey
  ta : env.ta = ⟨realPaillier, k.toPaillierKey⟩
  evp : env.evp = I.evp
  fog : ∀ i, (env.fogWorld i).crypto = I.tee
  storage : env.storageWorld.crypto = I.tee

/-- What a reading needs to get through: its packet is encrypted, the command delivered, and
the real build encrypts the reading. -/
structure FogSucceeds (env : PipelineEnv) (I : IdealGcm) (reading : SensorPlaintext) (i : ℕ) :
    Prop where
  packet : sensorQuery reading (UInt32.ofNat i + 1) ∈ I.log
  delivered : env.fogDelivered i = true
  real : env.ta.realPaillier = true
  encrypted : ∃ result, TA.encryptReading env.ta (env.fogWorld i) reading .zero = (.ok (), result)

/-- The sum of the readings. -/
def sumOfReadings (readings : List SensorPlaintext) : ℕ :=
  (readings.map fun reading ↦ reading.readingScaled.toUInt32.toNat).sum

section Checks

variable {ο : Type}

theorem checkInvoked_ok_iff {delivered : Bool} {out : TEEResult × MemRef ο} {status : ο → UInt32}
    {failed badStatus : String} {record : ο} :
    checkInvoked delivered out status failed badStatus = .ok record ↔
      delivered = true ∧ out.1 = .ok () ∧ status out.2.buffer = 0 ∧ record = out.2.buffer := by
  rcases out with ⟨e | ⟨⟩, output⟩
  · simp [checkInvoked]
  · cases delivered with
    | false => simp [checkInvoked]
    | true =>
      by_cases hstatus : status output.buffer = 0
      · simp [checkInvoked, hstatus, eq_comm (a := record)]
      · simp [checkInvoked, hstatus]

end Checks

section Fog

variable {env : PipelineEnv} {realPaillier : Bool} {k : DemoSizedKey} {I : IdealGcm}
  {texts : FogTexts} {reading : SensorPlaintext} {i aggregate next m : ℕ}

/-- The command on a created packet leaves the encryption of its reading. -/
theorem invokeFogProcessing_created (henv : env.Over realPaillier k I) (x : CreatedPacket I) :
    secureIiotInvokeFogProcessing env.ta (env.fogWorld i) x.packet =
      ((TA.finishPacket x.plaintext (TA.encryptReading env.ta (env.fogWorld i) x.plaintext
          .zero)).1,
        ⟨(TA.finishPacket x.plaintext (TA.encryptReading env.ta (env.fogWorld i) x.plaintext
          .zero)).2, sizeofSecureSensorResult⟩) := by
  have hinput : sizeofSecureSensorPacket ≤
      (MemRef.mk x.packet sizeofSecureSensorPacket).size := le_rfl
  have houtput : sizeofSecureSensorResult ≤
      (MemRef.mk SecureSensorResult.zero sizeofSecureSensorResult).size := le_rfl
  rw [secureIiotInvokeFogProcessing, TA.processSensorPacket,
    TA.recordCommand_of_gate hinput houtput, x.processPacket (henv.fog i)]
  rcases TA.finishPacket x.plaintext (TA.encryptReading env.ta (env.fogWorld i) x.plaintext .zero)
    with ⟨e | ⟨⟩, record⟩
  · rfl
  · rfl

/-- What goes into the aggregate of a result. -/
def resultNumber (result : SecureSensorResult) : ℕ :=
  ofBE (result.paillierCiphertext.toList.take result.paillierCiphertextLen.toNat)

theorem add_resultNumber (key : PaillierKey) (aggregate : ℕ) (result : SecureSensorResult) :
    paillierHostAddCiphertextBytesReal key aggregate
        (result.paillierCiphertext.toList.take result.paillierCiphertextLen.toNat) =
      (true, aggregate * resultNumber result % key.n2) :=
  paillierHostAddCiphertextBytesReal_of_length
    ((List.length_take_le' _ _).trans (length_toList_le _))

/-- A packet is created exactly if its encryption is made. -/
theorem exists_createPacket_iff {sequence : UInt32} :
    (∃ packet, secureIiotCreatePacket I.evp reading sequence = some packet) ↔
      sensorQuery reading sequence ∈ I.log := by
  constructor
  · rintro ⟨packet, hpacket⟩
    obtain ⟨ciphertext, tag, hproduce, -⟩ := secureIiotCreatePacket_evp_iff.mp hpacket
    exact (Aead.Ideal.produce_eq_some_iff.mp hproduce).1
  · intro hlog
    exact ⟨_, secureIiotCreatePacket_evp_iff.mpr
      ⟨_, _, Aead.Ideal.produce_eq_some_iff.mpr ⟨hlog, rfl⟩, rfl⟩⟩

/-- What one reading does: it succeeds if none of its steps fails, and multiplies its
ciphertext in. -/
theorem fogReading_ok_iff (henv : env.Over realPaillier k I) :
    fogReading texts env aggregate reading i = .ok next ↔
      sensorQuery reading (UInt32.ofNat i + 1) ∈ I.log ∧ env.fogDelivered i = true ∧
      ∃ encrypted, TA.encryptReading env.ta (env.fogWorld i) reading .zero = (.ok (), encrypted) ∧
        checkReal texts (TA.finishResult reading encrypted) = .ok () ∧
        next = aggregate * resultNumber (TA.finishResult reading encrypted) % k.n2 := by
  rw [fogReading, henv.evp, ← exists_createPacket_iff]
  cases hpacket : secureIiotCreatePacket I.evp reading (UInt32.ofNat i + 1) with
  | none => simp
  | some packet =>
    have hinvoke := invokeFogProcessing_created (i := i) henv ⟨reading, _, packet, hpacket⟩
    dsimp only at hinvoke ⊢
    rw [hinvoke]
    constructor
    · intro h
      obtain ⟨result, hinvoked, hrest⟩ := except_bind_eq_ok.mp h
      obtain ⟨hdelivered, hok, -, hresult⟩ := checkInvoked_ok_iff.mp hinvoked
      obtain ⟨encrypted, henc, hfinish⟩ := TA.finishPacket_ok_iff.mp (Prod.ext hok rfl)
      obtain rfl := hresult.trans hfinish
      obtain ⟨⟨⟩, hchecked, hadd⟩ := except_bind_eq_ok.mp hrest
      rw [add_resultNumber, henv.key] at hadd
      exact ⟨⟨packet, rfl⟩, hdelivered, encrypted, henc, hchecked, (Except.ok.inj hadd).symm⟩
    · rintro ⟨-, hdelivered, encrypted, henc, hchecked, rfl⟩
      have hfinish : TA.finishPacket reading (TA.encryptReading env.ta (env.fogWorld i) reading
          .zero) = (.ok (), TA.finishResult reading encrypted) :=
        TA.finishPacket_ok_iff.mpr ⟨encrypted, henc, rfl⟩
      rw [hfinish]
      refine except_bind_eq_ok.mpr ⟨_, checkInvoked_ok_iff.mpr ⟨hdelivered, rfl, rfl, rfl⟩,
        except_bind_eq_ok.mpr ⟨(), hchecked, ?_⟩⟩
      rw [add_resultNumber, henv.key]

/-- The encryption of a reading passes the checks in the real build, and in no other. -/
theorem checkReal_ok_iff (henv : env.Over realPaillier k I) {encrypted : SecureSensorResult}
    (henc : TA.encryptReading env.ta (env.fogWorld i) reading .zero = (.ok (), encrypted)) :
    checkReal texts (TA.finishResult reading encrypted) = .ok () ↔ realPaillier = true := by
  rw [henv.ta] at henc
  cases realPaillier with
  | false =>
    obtain ⟨-, rfl⟩ := Prod.mk.inj henc
    constructor
    · rintro ⟨⟩
    · rintro ⟨⟩
  | true =>
    obtain ⟨-, ciphertext, c, -, -, rfl⟩ := TA.encryptReading_real_ok (k := k) henc
    cases hlength : texts.badLength with
    | none => simp [checkReal, TA.finishResult, hlength]
    | some badLength => simp [checkReal, TA.finishResult, hlength]

variable (texts) in
/-- A reading gets through or not whatever the aggregate is. -/
theorem exists_fogReading_iff (henv : env.Over realPaillier k I) (aggregate : ℕ) :
    (∃ next, fogReading texts env aggregate reading i = .ok next) ↔
      FogSucceeds env I reading i := by
  have hreal : env.ta.realPaillier = realPaillier := by rw [henv.ta]
  constructor
  · rintro ⟨next, h⟩
    obtain ⟨hlog, hdelivered, encrypted, henc, hchecked, -⟩ := (fogReading_ok_iff henv).mp h
    exact ⟨hlog, hdelivered, hreal.trans ((checkReal_ok_iff henv henc).mp hchecked),
      encrypted, henc⟩
  · rintro ⟨hlog, hdelivered, hta, encrypted, henc⟩
    exact ⟨_, (fogReading_ok_iff henv).mpr ⟨hlog, hdelivered, encrypted, henc,
      (checkReal_ok_iff henv henc).mpr (hreal.symm.trans hta), rfl⟩⟩

/-- A reading that gets through is added to the aggregate. -/
theorem fogReading_isCiphertext (henv : env.Over realPaillier k I)
    (h : fogReading texts env aggregate reading i = .ok next)
    (haggregate : k.IsCiphertext m aggregate) :
    k.IsCiphertext (m + reading.readingScaled.toUInt32.toNat) next := by
  obtain ⟨-, -, encrypted, henc, hchecked, rfl⟩ := (fogReading_ok_iff henv).mp h
  obtain rfl := (checkReal_ok_iff henv henc).mp hchecked
  rw [henv.ta] at henc
  obtain ⟨-, ciphertext, c, hc, hbytes, rfl⟩ := TA.encryptReading_real_ok (k := k) henc
  have hnumber : resultNumber (TA.finishResult reading { SecureSensorResult.zero with
      paillierCiphertext := ciphertext
      paillierCiphertextLen := 128
      realPaillierEnabled := 1 }) = c := by
    have htake : ciphertext.toList.take 128 = ciphertext.toList :=
      List.take_of_length_le Vector.length_toList.le
    change ofBE (ciphertext.toList.take 128) = c
    rw [htake, hbytes, ofBE_toBE (hc.lt.trans k.n2_lt)]
  rw [hnumber]
  exact haggregate.mul hc

variable (texts aggregate) in
/-- The loop gets through exactly if every reading does. -/
theorem exists_fogReadings_iff (henv : env.Over realPaillier k I)
    {readings : List SensorPlaintext} :
    (∃ next, fogReadings texts env i aggregate readings = .ok next) ↔
      ∀ x ∈ readings.zipIdx i, FogSucceeds env I x.1 x.2 := by
  induction readings generalizing i aggregate with
  | nil => simp [fogReadings]
  | cons reading readings ih =>
    rw [List.zipIdx_cons, List.forall_mem_cons, ← exists_fogReading_iff texts henv
      aggregate]
    constructor
    · rintro ⟨final, h⟩
      obtain ⟨next, hnext, hrest⟩ := except_bind_eq_ok.mp h
      exact ⟨⟨next, hnext⟩, (ih next).mp ⟨final, hrest⟩⟩
    · rintro ⟨⟨next, hnext⟩, hrest⟩
      obtain ⟨final, hfinal⟩ := (ih next).mpr hrest
      exact ⟨final, except_bind_eq_ok.mpr ⟨next, hnext, hfinal⟩⟩

/-- The loop adds the readings. -/
theorem fogReadings_isCiphertext (henv : env.Over realPaillier k I)
    {readings : List SensorPlaintext}
    (h : fogReadings texts env i aggregate readings = .ok next)
    (haggregate : k.IsCiphertext m aggregate) :
    k.IsCiphertext (m + sumOfReadings readings) next := by
  induction readings generalizing i aggregate m with
  | nil =>
    cases h
    exact haggregate
  | cons reading readings ih =>
    obtain ⟨aggregate', hnext, hrest⟩ := except_bind_eq_ok.mp h
    have hstep := ih hrest (fogReading_isCiphertext henv hnext haggregate)
    rwa [add_assoc] at hstep

theorem openSession_ok_iff {res : UInt32} : openSession res = .ok () ↔ res = 0 := by
  by_cases h : res = 0
  · simp [openSession, h]
  · simp [openSession, h]

/-- The readings are aggregated exactly if the session is opened and each gets through. -/
theorem exists_aggregateReadings_iff (henv : env.Over realPaillier k I)
    {readings : List SensorPlaintext} :
    (∃ c, aggregateReadings texts env readings = .ok c) ↔
      env.openRes = 0 ∧ ∀ x ∈ readings.zipIdx, FogSucceeds env I x.1 x.2 := by
  rw [← exists_fogReadings_iff texts paillierHostInitAggregateReal henv, ← openSession_ok_iff]
  constructor
  · rintro ⟨c, h⟩
    obtain ⟨⟨⟩, hopen, hrest⟩ := except_bind_eq_ok.mp h
    exact ⟨hopen, c, hrest⟩
  · rintro ⟨hopen, c, hrest⟩
    exact ⟨c, except_bind_eq_ok.mpr ⟨(), hopen, hrest⟩⟩

theorem aggregateReadings_isCiphertext (henv : env.Over realPaillier k I)
    {readings : List SensorPlaintext} {c : ℕ}
    (h : aggregateReadings texts env readings = .ok c) :
    k.IsCiphertext (sumOfReadings readings) c := by
  obtain ⟨⟨⟩, -, hrest⟩ := except_bind_eq_ok.mp h
  have hsum := fogReadings_isCiphertext henv hrest k.isCiphertext_one
  rwa [zero_add] at hsum

end Fog

/-! ## What becomes of the aggregate -/

/-- The encryption that the storage command makes of an aggregate. -/
def pipelineQuery (a : UInt32) : GcmQuery :=
  TA.storageQuery (pipelineStorageInput []) a

/-- The bytes of the aggregate are not in it. -/
theorem storageQuery_pipeline (aggregateBytes : List UInt8) (a : UInt32) :
    TA.storageQuery (pipelineStorageInput aggregateBytes) a = pipelineQuery a := by
  simp only [pipelineQuery, TA.storageQuery, TA.buildStorageAad, pipelineStorageInput]

theorem ofBytes_pipelineQuery (a : UInt32) :
    StoragePlaintext.ofBytes (pipelineQuery a).msg = ⟨1, a, 1710000000999⟩ :=
  StoragePlaintext.ofBytes_toBytes _

/-- What the storage command needs to get through with a sum. -/
structure StorageSucceeds (env : PipelineEnv) (k : DemoSizedKey) (I : IdealGcm) (sum : ℕ) :
    Prop where
  delivered : env.storageDelivered = true
  real : env.ta.realPaillier = true
  calls : ∀ site ∈ TA.decryptCalls, env.storageWorld.mp.call site = .ok ()
  small : sum % k.n < 2 ^ 32
  sealed : pipelineQuery (UInt32.ofNat (sum % k.n)) ∈ I.log

section Aggregate

variable {env : PipelineEnv} {realPaillier : Bool} {k : DemoSizedKey} {I : IdealGcm} {sum c : ℕ}

/-- The reference decryption gets through with a sum of 32 bits. -/
theorem decryptReference_ok_iff (hkey : env.key = k.toPaillierKey) (hc : k.IsCiphertext sum c)
    {failed : String} {m : UInt32} :
    decryptReference env failed c = .ok m ↔
      sum % k.n < 2 ^ 32 ∧ m = UInt32.ofNat (sum % k.n) := by
  rw [decryptReference, hkey, paillierHostDecryptU32_of_isCiphertext hc]
  by_cases hsmall : sum % k.n < 2 ^ 32
  · rw [if_pos hsmall]
    constructor
    · intro h
      exact ⟨hsmall, (Except.ok.inj h).symm⟩
    · rintro ⟨-, rfl⟩
      rfl
  · rw [if_neg hsmall]
    constructor
    · rintro ⟨⟩
    · rintro ⟨hlt, -⟩
      exact absurd hlt hsmall

/-- The request for an aggregate carries its sum, if that has 32 bits. -/
theorem storageAggregate_pipeline_iff {w : TeeWorld} {bytes : Vector UInt8 paillierCiphertextMax}
    (hc : k.IsCiphertext sum (ofBE bytes.toList)) {a : UInt32} :
    TA.storageAggregate ⟨realPaillier, k.toPaillierKey⟩ w (pipelineStorageInput bytes.toList) =
        .ok a ↔
      realPaillier = true ∧ (∀ site ∈ TA.decryptCalls, w.mp.call site = .ok ()) ∧
        a.toNat = sum % k.n := by
  have hone : (pipelineStorageInput bytes.toList).realPaillierEnabled ≠ 0 := by
    change (1 : UInt32) ≠ 0
    decide
  have hbytes : (pipelineStorageInput bytes.toList).paillierAggregate = bytes := write_toList _ _
  rw [storageAggregate_ok_iff, carriesAggregate_real_iff hone, hbytes]
  constructor
  · rintro ⟨⟨hreal, -⟩, hcalls, hlt, ha⟩
    exact ⟨hreal, hcalls, by rw [← ha.modEq hc, Nat.mod_eq_of_lt hlt]⟩
  · rintro ⟨hreal, hcalls, ha⟩
    exact ⟨⟨hreal, rfl⟩, hcalls, ha ▸ Nat.mod_lt _ k.n_pos,
      hc.congr (ha ▸ (Nat.mod_modEq _ _).symm)⟩

/-- An aggregate that the storage command gets through with: what it took, and what the
verifier recovers of the object. -/
theorem sealAggregate_ok (henv : env.Over realPaillier k I) (hc : k.IsCiphertext sum c)
    {storageInput : StoragePrepInput} {cloudObject : StorageCloudObject}
    (h : sealAggregate env c = .ok (storageInput, cloudObject)) :
    StorageSucceeds env k I sum ∧ storageInput.timestampMs = 1710000000999 ∧
      secureIiotDecryptCloudObjectForVerification I.evp storageInput cloudObject =
        some ⟨1, UInt32.ofNat (sum % k.n), 1710000000999⟩ := by
  obtain ⟨bytes, hbytes, rfl⟩ := exists_serialised hc
  have hlen : paillierHostBnToFixedBytes (ofBE bytes.toList) 128 = some bytes.toList := hbytes
  rw [sealAggregate, hlen] at h
  obtain ⟨object, hinvoked, hout⟩ := except_bind_eq_ok.mp h
  obtain ⟨hdelivered, hok, -, rfl⟩ := checkInvoked_ok_iff.mp hinvoked
  obtain ⟨rfl, rfl⟩ := Prod.mk.inj (Except.ok.inj hout)
  have hprepare : TA.prepareStorage env.ta env.storageWorld TA.recordParamTypes
      ⟨pipelineStorageInput bytes.toList, sizeofStoragePrepInput⟩
      ⟨.zero, sizeofStorageCloudObject⟩ = (.ok (), _) := Prod.ext hok rfl
  obtain ⟨a, ha⟩ := storageAggregate_of_ok hprepare
  obtain ⟨hcarries, -⟩ := carries_of_ok henv.storage hprepare ha
  rw [storageQuery_pipeline] at hcarries
  rw [henv.ta] at ha
  obtain ⟨hbuild, hcalls, hvalue⟩ := (storageAggregate_pipeline_iff hc).mp ha
  have hsum : a = UInt32.ofNat (sum % k.n) := by rw [← hvalue, UInt32.ofNat_toNat]
  refine ⟨⟨hdelivered, ?_, hcalls, hvalue ▸ a.toNat_lt, hsum ▸ hcarries.1⟩, rfl, ?_⟩
  · rw [henv.ta]
    exact hbuild
  · rw [← hsum, verify_eq_some_iff]
    exact ⟨_, hcarries, (ofBytes_pipelineQuery a).symm⟩

/-- What it takes is enough. -/
theorem exists_sealAggregate (henv : env.Over realPaillier k I) (hc : k.IsCiphertext sum c)
    (h : StorageSucceeds env k I sum) : ∃ out, sealAggregate env c = .ok out := by
  obtain ⟨bytes, hbytes, rfl⟩ := exists_serialised hc
  have hlen : paillierHostBnToFixedBytes (ofBE bytes.toList) 128 = some bytes.toList := hbytes
  have hbuild : realPaillier = true := by
    have hreal := h.real
    rwa [henv.ta] at hreal
  have ha : TA.storageAggregate env.ta env.storageWorld (pipelineStorageInput bytes.toList) =
      .ok (UInt32.ofNat (sum % k.n)) := by
    rw [henv.ta]
    exact (storageAggregate_pipeline_iff hc).mpr
      ⟨hbuild, h.calls, UInt32.toNat_ofNat_of_lt' h.small⟩
  obtain ⟨ciphertext, tag, hseal⟩ : ∃ ciphertext tag,
      TA.aesGcmEncryptTa env.storageWorld.crypto (TA.storageQuery
        (pipelineStorageInput bytes.toList) (UInt32.ofNat (sum % k.n))) 64 =
          (.ok (), ciphertext, tag) := by
    rw [henv.storage, storageQuery_pipeline]
    exact ⟨_, _, (TA.aesGcmEncryptTa_ofGcm (TA.length_storageQuery_le _ _)).mpr
      ⟨_, Aead.Ideal.produce_eq_some_iff.mpr ⟨h.sealed, rfl⟩, rfl⟩⟩
  have hprepare : TA.prepareStorage env.ta env.storageWorld TA.recordParamTypes
      ⟨pipelineStorageInput bytes.toList, sizeofStoragePrepInput⟩
      ⟨.zero, sizeofStorageCloudObject⟩ = _ := prepareStorage_of_sealed le_rfl le_rfl ha hseal
  rw [sealAggregate, hlen]
  refine ⟨_, except_bind_eq_ok.mpr ⟨_, checkInvoked_ok_iff.mpr ⟨h.delivered, ?_, ?_, rfl⟩, rfl⟩⟩
  · exact congrArg Prod.fst hprepare
  · rw [secureIiotInvokeStoragePrep, hprepare]

end Aggregate

/-! ## The programs -/

section Programs

variable {env : PipelineEnv} {realPaillier : Bool} {k : DemoSizedKey} {I : IdealGcm}
  {readings : List SensorPlaintext}

/-- What the verifier needs to get to its report. -/
structure PipelineSucceeds (env : PipelineEnv) (k : DemoSizedKey) (I : IdealGcm)
    (readings : List SensorPlaintext) : Prop where
  opened : env.openRes = 0
  fog : ∀ x ∈ readings.zipIdx, FogSucceeds env I x.1 x.2
  storage : StorageSucceeds env k I (sumOfReadings readings)

/-- The comparison of what the verifier recovers. -/
theorem cloudOk_eq {evp : EvpCrypto} {storageInput : StoragePrepInput}
    {cloudObject : StorageCloudObject} {expected a : UInt32}
    (htime : storageInput.timestampMs = 1710000000999)
    (hverify : secureIiotDecryptCloudObjectForVerification evp storageInput cloudObject =
      some ⟨1, a, 1710000000999⟩) :
    cloudOk evp expected storageInput cloudObject = decide (a = expected) := by
  rw [cloudOk, hverify, htime]
  simp

/-- The verifier reports exactly if no step fails, and reports the sum of the readings modulo
`n`: its two comparisons have one outcome, and in a report the authentication has not failed. -/
theorem fullCryptoVerify_ok_iff (henv : env.Over realPaillier k I) {expected : UInt32}
    {report : VerifyReport} :
    fullCryptoVerify env readings expected = .ok report ↔
      PipelineSucceeds env k I readings ∧ report = {
        hostDecrypted := UInt32.ofNat (sumOfReadings readings % k.n)
        authOk := true
        paillierOk := UInt32.ofNat (sumOfReadings readings % k.n) = expected
        cloudOk := UInt32.ofNat (sumOfReadings readings % k.n) = expected } := by
  constructor
  · intro h
    obtain ⟨aggregate, haggregate, hrest⟩ := except_bind_eq_ok.mp h
    obtain ⟨hostDecrypted, hdecrypt, hrest⟩ := except_bind_eq_ok.mp hrest
    obtain ⟨⟨storageInput, cloudObject⟩, hseal, hreport⟩ := except_bind_eq_ok.mp hrest
    obtain ⟨hopen, hfog⟩ := (exists_aggregateReadings_iff henv).mp ⟨_, haggregate⟩
    have hc := aggregateReadings_isCiphertext henv haggregate
    obtain ⟨-, rfl⟩ := (decryptReference_ok_iff henv.key hc).mp hdecrypt
    obtain ⟨hstorage, htime, hverify⟩ := sealAggregate_ok henv hc hseal
    refine ⟨⟨hopen, hfog, hstorage⟩, ?_⟩
    rw [← Except.ok.inj hreport, henv.evp, cloudOk_eq htime hverify]
  · rintro ⟨⟨hopen, hfog, hstorage⟩, rfl⟩
    obtain ⟨aggregate, haggregate⟩ := (exists_aggregateReadings_iff henv).mpr ⟨hopen, hfog⟩
    have hc := aggregateReadings_isCiphertext henv haggregate
    obtain ⟨⟨storageInput, cloudObject⟩, hseal⟩ := exists_sealAggregate henv hc hstorage
    obtain ⟨-, htime, hverify⟩ := sealAggregate_ok henv hc hseal
    refine except_bind_eq_ok.mpr ⟨_, haggregate, except_bind_eq_ok.mpr
      ⟨_, (decryptReference_ok_iff henv.key hc).mpr ⟨hstorage.small, rfl⟩,
        except_bind_eq_ok.mpr ⟨_, hseal, ?_⟩⟩⟩
    dsimp only
    rw [henv.evp, cloudOk_eq htime hverify]
    rfl

/-- The programs as they are, where nothing fails and 2 is drawn. -/
def demoPipelineEnv : PipelineEnv where
  key := paillierHostInitFixedDemoKey
  ta := ⟨true, TA.fixedKey⟩
  evp := readingsTable.ideal.evp
  openRes := 0
  fogDelivered := fun _ ↦ true
  fogWorld := fun _ ↦ TA.drawing 2 readingsTable.ideal.tee
  storageDelivered := true
  storageWorld := TA.drawing 2 readingsTable.ideal.tee

theorem demoPipelineEnv_over : demoPipelineEnv.Over true demoKey readingsTable.ideal where
  key := hostKey_eq
  ta := rfl
  evp := rfl
  fog := fun _ ↦ rfl
  storage := rfl

theorem demoPipelineEnv_succeeds : PipelineSucceeds demoPipelineEnv demoKey readingsTable.ideal
    secureIiotDemoReadings := by
  have hdraw : TA.generateCoprimeR (TA.drawing 2 readingsTable.ideal.tee) demoKey.n = .ok 2 :=
    TA.generateCoprimeR_drawing demoKey_n_gt two_pos (by norm_num) demoKey_units.1
  have hsum : sumOfReadings secureIiotDemoReadings % demoKey.n = 73000 := by decide +kernel
  have hfog : ∀ x ∈ secureIiotDemoReadings.zipIdx,
      sensorQuery x.1 (UInt32.ofNat x.2 + 1) ∈ readingsTable.ideal.log ∧
        ¬ x.1.readingScaled < 0 := by
    decide +kernel
  refine ⟨rfl, fun x hx ↦ ⟨(hfog x hx).1, rfl, rfl, ?_⟩, ⟨rfl, rfl, fun _ _ ↦ rfl, ?_, ?_⟩⟩
  · exact exists_encryptReading_real (k := demoKey) rfl ⟨2, hdraw⟩ (hfog x hx).2
  · rw [hsum]
    norm_num
  · rw [hsum]
    exact List.mem_map_of_mem (List.mem_append_right _ (.head _))

/-- The verifier as it is: it reports, and exits with status 0. -/
theorem fullCryptoVerify_ok_iff_demo :
    ∃ report, fullCryptoVerify demoPipelineEnv secureIiotDemoReadings expectedAggregate =
      .ok report ∧ report.status = 0 := by
  have hsum : UInt32.ofNat (sumOfReadings secureIiotDemoReadings % demoKey.n) =
      expectedAggregate := by
    decide +kernel
  refine ⟨_, (fullCryptoVerify_ok_iff demoPipelineEnv_over).mpr ⟨demoPipelineEnv_succeeds, rfl⟩,
    ?_⟩
  rw [VerifyReport.status, hsum]
  rfl

/-- What the demo prints verifies as the sum of the readings. -/
theorem fullCryptoDemo_ok (henv : env.Over realPaillier k I) {cloudObject : StorageCloudObject}
    (h : fullCryptoDemo env readings = .ok cloudObject) :
    PipelineSucceeds env k I readings ∧ ∃ storageInput : StoragePrepInput,
      secureIiotDecryptCloudObjectForVerification I.evp storageInput cloudObject =
        some ⟨1, UInt32.ofNat (sumOfReadings readings % k.n), 1710000000999⟩ := by
  obtain ⟨aggregate, haggregate, hrest⟩ := except_bind_eq_ok.mp h
  obtain ⟨⟨storageInput, object⟩, hseal, hobject⟩ := except_bind_eq_ok.mp hrest
  obtain rfl := Except.ok.inj hobject
  obtain ⟨hopen, hfog⟩ := (exists_aggregateReadings_iff henv).mp ⟨_, haggregate⟩
  have hc := aggregateReadings_isCiphertext henv haggregate
  obtain ⟨hstorage, -, hverify⟩ := sealAggregate_ok henv hc hseal
  exact ⟨⟨hopen, hfog, hstorage⟩, storageInput, hverify⟩

/-- The demo without a storage command prints the sum of the readings. -/
theorem paillierTaDemo_ok_iff (henv : env.Over realPaillier k I) {expected : UInt32}
    {out : UInt32 × ℕ} :
    paillierTaDemo env readings expected = .ok out ↔
      (env.openRes = 0 ∧ (∀ x ∈ readings.zipIdx, FogSucceeds env I x.1 x.2) ∧
        sumOfReadings readings % k.n < 2 ^ 32) ∧
      out = (UInt32.ofNat (sumOfReadings readings % k.n),
        if UInt32.ofNat (sumOfReadings readings % k.n) = expected then 0 else 1) := by
  constructor
  · intro h
    obtain ⟨aggregate, haggregate, hrest⟩ := except_bind_eq_ok.mp h
    obtain ⟨decrypted, hdecrypt, hout⟩ := except_bind_eq_ok.mp hrest
    obtain ⟨hopen, hfog⟩ := (exists_aggregateReadings_iff henv).mp ⟨_, haggregate⟩
    have hc := aggregateReadings_isCiphertext henv haggregate
    obtain ⟨hsmall, rfl⟩ := (decryptReference_ok_iff henv.key hc).mp hdecrypt
    exact ⟨⟨hopen, hfog, hsmall⟩, (Except.ok.inj hout).symm⟩
  · rintro ⟨⟨hopen, hfog, hsmall⟩, rfl⟩
    obtain ⟨aggregate, haggregate⟩ := (exists_aggregateReadings_iff henv).mpr ⟨hopen, hfog⟩
    have hc := aggregateReadings_isCiphertext henv haggregate
    exact except_bind_eq_ok.mpr ⟨_, haggregate, except_bind_eq_ok.mpr
      ⟨_, (decryptReference_ok_iff henv.key hc).mpr ⟨hsmall, rfl⟩, rfl⟩⟩

end Programs

end SecureIIoT
