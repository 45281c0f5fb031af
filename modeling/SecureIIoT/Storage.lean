import SecureIIoT.Decryption
import SecureIIoT.RecordedGcm

/-!
# The storage command

On ideal AES-GCM, the object that `prepare_storage` seals verifies against the requests
with the same window, fog count and timestamp, and against no others
(`verification_iff`).

The nonce it is sealed under is made of the window and the fog count alone.  Over a run
of requests, a nonce stands for one message exactly if no two requests that succeed
share these two and differ in their timestamp or their aggregate (`nonceUnique_iff`).
-/

namespace SecureIIoT

open ByteString

/-! ## Sealed objects -/

section Sealed

variable {ta : TaBuild} {w : TeeWorld} {paramTypes : UInt32} {input : MemRef StoragePrepInput}
  {output output' : MemRef StorageCloudObject}

/-- A request that succeeds has sealed the aggregate it carries. -/
theorem storageAggregate_of_ok
    (h : TA.prepareStorage ta w paramTypes input output = (.ok (), output')) :
    ∃ a, TA.storageAggregate ta w input.buffer = .ok a := by
  obtain ⟨-, hbody, -⟩ := TA.recordCommand_ok_iff.mp h
  obtain ⟨a, ha, -⟩ := TA.prepareObject_ok_iff.mp hbody
  exact ⟨a, ha⟩

/-- A request whose aggregate is recovered and sealed succeeds. -/
theorem prepareStorage_of_sealed {a : UInt32} {ciphertext tag : List UInt8}
    (hinput : sizeofStoragePrepInput ≤ input.size)
    (houtput : sizeofStorageCloudObject ≤ output.size)
    (ha : TA.storageAggregate ta w input.buffer = .ok a)
    (hseal : TA.aesGcmEncryptTa w.crypto (TA.storageQuery input.buffer a) 64 =
      (.ok (), ciphertext, tag)) :
    TA.prepareStorage ta w TA.recordParamTypes input output =
      (.ok (), ⟨{ TA.writtenObject input.buffer ciphertext tag with
        ciphertextLen := UInt32.ofNat ciphertext.length
        status := 0 }, sizeofStorageCloudObject⟩) :=
  TA.recordCommand_ok_iff.mpr ⟨⟨rfl, hinput, houtput⟩,
    TA.prepareObject_ok_iff.mpr ⟨a, ha, ciphertext, tag, hseal, rfl⟩, rfl⟩

/-- The object that a request leaves, on ideal AES-GCM: the output of its encryption. -/
theorem object_of_ok {I : IdealGcm} {a : UInt32} (hcrypto : w.crypto = I.tee)
    (h : TA.prepareStorage ta w paramTypes input output = (.ok (), output'))
    (ha : TA.storageAggregate ta w input.buffer = .ok a) :
    ∃ ciphertext, I.produce (TA.storageQuery input.buffer a) =
        some (ciphertext, output'.buffer.tag) ∧
      output'.buffer.nonce = TA.buildStorageNonce input.buffer.windowId input.buffer.fogCount ∧
      output'.buffer.ciphertextLen = 16 ∧
      output'.buffer.ciphertext.toList.take 16 = ciphertext := by
  obtain ⟨-, hbody, -⟩ := TA.recordCommand_ok_iff.mp h
  obtain ⟨a', ha', ciphertext, tag, hseal, hobject⟩ := TA.prepareObject_ok_iff.mp hbody
  cases ha.symm.trans ha'
  rw [hcrypto, IdealGcm.tee, TA.aesGcmEncryptTa_ofGcm (TA.length_storageQuery_le _ _)] at hseal
  obtain ⟨t, hproduce, rfl⟩ := hseal
  have hlen : ciphertext.length = 16 := I.length_of_produce hproduce
  have htake := take_write_zero (.replicate 64 0) hlen (by decide)
  rw [TA.writtenObject, write_toList, hlen] at hobject
  rw [hobject]
  exact ⟨ciphertext, hproduce, rfl, rfl, htake⟩

/-- The two encoders of the associated data are one injective function of the window, the
fog count and the timestamp. -/
theorem buildStorageAad_eq_iff {i j : StoragePrepInput} :
    Host.secureIiotBuildStorageAad j = TA.buildStorageAad i ↔
      j.windowId = i.windowId ∧ j.fogCount = i.fogCount ∧ j.timestampMs = i.timestampMs := by
  rw [TA.buildStorageAad, Host.secureIiotBuildStorageAad, le32_append_inj, le32_append_inj]
  constructor
  · rintro ⟨hw, hf, ht⟩
    exact ⟨hw, hf, le64_inj ht⟩
  · rintro ⟨hw, hf, ht⟩
    exact ⟨hw, hf, congrArg le64 ht⟩

/-- The verifier's call on such an object: it verifies against the requests with the
associated data that it was sealed with. -/
theorem verify_object_iff {I : IdealGcm} {i j : StoragePrepInput} {a : UInt32}
    {object : StorageCloudObject} {ciphertext : List UInt8}
    (hproduce : I.produce (TA.storageQuery i a) = some (ciphertext, object.tag))
    (hnonce : object.nonce = TA.buildStorageNonce i.windowId i.fogCount)
    (hlen : object.ciphertextLen = 16) (htake : object.ciphertext.toList.take 16 = ciphertext)
    (plaintext : StoragePlaintext) :
    Host.secureIiotDecryptCloudObjectForVerification I.evp j object = some plaintext ↔
      Host.secureIiotBuildStorageAad j = TA.buildStorageAad i ∧
        plaintext = ⟨i.windowId, a, i.timestampMs⟩ := by
  have hcall : Host.verificationCall j object = some {
      key := TA.demoKstore
      nonce := TA.buildStorageNonce i.windowId i.fogCount
      aad := Host.secureIiotBuildStorageAad j
      ciphertext := ciphertext
      tag := object.tag
      plaintextLen := sizeofStoragePlaintext } := by
    rw [Host.verificationCall, hlen, if_neg (by decide), hnonce, ← htake]
    rfl
  have hdecrypt (m : List UInt8) : I.evp.aesGcmDecrypt TA.demoKstore
      (TA.buildStorageNonce i.windowId i.fogCount) (Host.secureIiotBuildStorageAad j) ciphertext
      object.tag = some m ↔
        Host.secureIiotBuildStorageAad j = TA.buildStorageAad i ∧ m = (TA.storageQuery i a).msg :=
    Aead.Ideal.decrypt_produce_iff hproduce
  have hplain : StoragePlaintext.ofBytes (TA.storageQuery i a).msg =
      ⟨i.windowId, a, i.timestampMs⟩ := StoragePlaintext.ofBytes_toBytes _
  rw [Host.secureIiotDecryptCloudObjectForVerification, hcall]
  dsimp only
  by_cases haad : Host.secureIiotBuildStorageAad j = TA.buildStorageAad i
  · rw [(hdecrypt _).mpr ⟨haad, rfl⟩]
    simp [haad, hplain, eq_comm (a := plaintext)]
  · have hnone := Option.eq_none_iff_forall_ne_some.mpr fun m hm ↦ haad ((hdecrypt m).mp hm).1
    rw [hnone]
    simp [haad]

/-- On ideal AES-GCM, the object of a request that succeeds verifies against exactly the
requests with its window, fog count and timestamp, and what is recovered is its window,
its aggregate and its timestamp. -/
theorem verification_iff {I : IdealGcm} (hcrypto : w.crypto = I.tee)
    (h : TA.prepareStorage ta w paramTypes input output = (.ok (), output')) :
    ∃ a, TA.storageAggregate ta w input.buffer = .ok a ∧
      ∀ (j : StoragePrepInput) (plaintext : StoragePlaintext),
        Host.secureIiotDecryptCloudObjectForVerification I.evp j output'.buffer =
            some plaintext ↔
          (j.windowId = input.buffer.windowId ∧ j.fogCount = input.buffer.fogCount ∧
            j.timestampMs = input.buffer.timestampMs) ∧
          plaintext = ⟨input.buffer.windowId, a, input.buffer.timestampMs⟩ := by
  obtain ⟨a, ha⟩ := storageAggregate_of_ok h
  obtain ⟨ciphertext, hproduce, hnonce, hlen, htake⟩ := object_of_ok hcrypto h ha
  refine ⟨a, ha, fun j plaintext ↦ ?_⟩
  rw [verify_object_iff hproduce hnonce hlen htake, buildStorageAad_eq_iff]

end Sealed

/-- A recorded request in mock mode succeeds. -/
theorem demo_sealed {fakePaillierAggregate : UInt32} {timestampMs : UInt64}
    {out : List UInt8 × Vector UInt8 16}
    (h : (TA.storageQuery (demoRequest fakePaillierAggregate timestampMs) fakePaillierAggregate,
      out) ∈ demoTable.entries) (ta : TaBuild) :
    ∃ output', TA.prepareStorage ta (TA.drawing 2 demoTable.ideal.tee) TA.recordParamTypes
      ⟨demoRequest fakePaillierAggregate timestampMs, sizeofStoragePrepInput⟩
      ⟨.zero, sizeofStorageCloudObject⟩ = (.ok (), output') := by
  have hseal : TA.aesGcmEncryptTa demoTable.ideal.tee (TA.storageQuery
      (demoRequest fakePaillierAggregate timestampMs) fakePaillierAggregate) 64 =
        (.ok (), out.1, out.2.toList) :=
    (TA.aesGcmEncryptTa_ofGcm (TA.length_storageQuery_le _ _)).mpr
      ⟨out.2, GcmTable.produce_of_mem h, rfl⟩
  exact ⟨_, prepareStorage_of_sealed le_rfl le_rfl rfl hseal⟩

/-- The recorded request for 73000 verifies against a request with the same window, fog
count and timestamp, and not against one with the next timestamp. -/
theorem verification_iff_demo :
    ∃ output', TA.prepareStorage ⟨true, TA.fixedKey⟩ (TA.drawing 2 demoTable.ideal.tee)
        TA.recordParamTypes ⟨demoRequest 73000 1710000000999, sizeofStoragePrepInput⟩
        ⟨.zero, sizeofStorageCloudObject⟩ = (.ok (), output') ∧
      Host.secureIiotDecryptCloudObjectForVerification demoTable.ideal.evp
        (demoRequest 0 1710000000999) output'.buffer = some ⟨1, 73000, 1710000000999⟩ ∧
      ∀ plaintext, Host.secureIiotDecryptCloudObjectForVerification demoTable.ideal.evp
        (demoRequest 73000 1710000001000) output'.buffer ≠ some plaintext := by
  have hmem : (TA.storageQuery (demoRequest 73000 1710000000999) 73000, _, _) ∈
      demoTable.entries := List.mem_append_right _ (.head _)
  obtain ⟨output', h⟩ := demo_sealed hmem ⟨true, TA.fixedKey⟩
  obtain ⟨a, ha, hverify⟩ := verification_iff rfl h
  obtain rfl : 73000 = a := Except.ok.inj ha
  refine ⟨output', h, (hverify _ _).mpr ⟨⟨rfl, rfl, rfl⟩, rfl⟩, fun plaintext hplain ↦ ?_⟩
  have htime : (1710000001000 : UInt64) = 1710000000999 := ((hverify _ _).mp hplain).1.2.2
  exact absurd htime (by decide)

/-! ## Nonces -/

/-- A request to the storage command, with what it meets. -/
structure StorageRequest where
  world : TeeWorld
  paramTypes : UInt32
  input : MemRef StoragePrepInput
  output : MemRef StorageCloudObject

/-- The request that `secure_iiot_invoke_storage_prep` makes. -/
def hostStorageRequest (w : TeeWorld) (input : StoragePrepInput) : StorageRequest :=
  ⟨w, TA.recordParamTypes, ⟨input, sizeofStoragePrepInput⟩, ⟨.zero, sizeofStorageCloudObject⟩⟩

namespace StorageRequest

/-- The request succeeds. -/
def Succeeds (ta : TaBuild) (r : StorageRequest) : Prop :=
  ∃ output', TA.prepareStorage ta r.world r.paramTypes r.input r.output = (.ok (), output')

/-- The request succeeds, and this is the encryption that it makes. -/
def Seals (ta : TaBuild) (r : StorageRequest) (query : GcmQuery) : Prop :=
  r.Succeeds ta ∧ ∃ a, TA.storageAggregate ta r.world r.input.buffer = .ok a ∧
    query = TA.storageQuery r.input.buffer a

end StorageRequest

/-- The aggregate that a request carries: the field of mock mode, or, in a real build whose
library has no fault, the message of its ciphertext. -/
def CarriesAggregate (realPaillier : Bool) (k : GeneratedKey) (mp : LibTomMath)
    (input : StoragePrepInput) (a : UInt32) : Prop :=
  if input.realPaillierEnabled = 0 then input.fakePaillierAggregate = a
  else (realPaillier = true ∧ input.paillierAggregateLen = 128) ∧
    (∀ site ∈ TA.decryptCalls, mp.call site = .ok ()) ∧
    a.toNat < k.n ∧ k.IsCiphertext a.toNat (ofBE input.paillierAggregate.toList)

section CarriesAggregate

variable {realPaillier : Bool} {k : GeneratedKey} {mp : LibTomMath} {input : StoragePrepInput}
  {a : UInt32}

theorem carriesAggregate_mock_iff (h : input.realPaillierEnabled = 0) :
    CarriesAggregate realPaillier k mp input a ↔ input.fakePaillierAggregate = a := by
  rw [CarriesAggregate, if_pos h]

theorem carriesAggregate_real_iff (h : input.realPaillierEnabled ≠ 0) :
    CarriesAggregate realPaillier k mp input a ↔
      (realPaillier = true ∧ input.paillierAggregateLen = 128) ∧
      (∀ site ∈ TA.decryptCalls, mp.call site = .ok ()) ∧
      a.toNat < k.n ∧ k.IsCiphertext a.toNat (ofBE input.paillierAggregate.toList) := by
  rw [CarriesAggregate, if_neg h]

end CarriesAggregate

theorem storageAggregate_ok_iff {realPaillier : Bool} {k : GeneratedKey} {w : TeeWorld}
    {input : StoragePrepInput} {a : UInt32} :
    TA.storageAggregate ⟨realPaillier, k.toPaillierKey⟩ w input = .ok a ↔
      CarriesAggregate realPaillier k w.mp input a := by
  rw [TA.storageAggregate, CarriesAggregate]
  split
  · rw [TA.paillierTaDecryptAggregateMock, Except.ok.injEq]
  · rw [TA.paillierTaDecryptRealU32_ok_iff, decrypt_ok_iff]

namespace StorageRequest

/-- What it takes for a request to be served with the aggregate `a`: it passes the gate and
carries the aggregate, and the AES-GCM calls do not fail. -/
structure Accepted (realPaillier : Bool) (k : GeneratedKey) (r : StorageRequest) (a : UInt32) :
    Prop where
  gate : r.paramTypes = TA.recordParamTypes ∧ sizeofStoragePrepInput ≤ r.input.size ∧
    sizeofStorageCloudObject ≤ r.output.size
  carries : CarriesAggregate realPaillier k r.world.mp r.input.buffer a
  seals : ∃ ciphertext tag,
    TA.aesGcmEncryptTa r.world.crypto (TA.storageQuery r.input.buffer a) 64 =
      (.ok (), ciphertext, tag)

/-- The encryptions of successful requests, by what it takes to succeed. -/
theorem seals_iff {realPaillier : Bool} {k : GeneratedKey} {r : StorageRequest} {query : GcmQuery} :
    r.Seals ⟨realPaillier, k.toPaillierKey⟩ query ↔
      ∃ a, r.Accepted realPaillier k a ∧ query = TA.storageQuery r.input.buffer a := by
  constructor
  · rintro ⟨⟨output', hok⟩, a, ha, rfl⟩
    obtain ⟨hgate, hbody, -⟩ := TA.recordCommand_ok_iff.mp hok
    obtain ⟨a', ha', ciphertext, tag, hseal, -⟩ := TA.prepareObject_ok_iff.mp hbody
    cases ha.symm.trans ha'
    exact ⟨a, ⟨hgate, storageAggregate_ok_iff.mp ha, ciphertext, tag, hseal⟩, rfl⟩
  · rintro ⟨a, ⟨⟨htypes, hinput, houtput⟩, hcarries, ciphertext, tag, hseal⟩, rfl⟩
    have ha := storageAggregate_ok_iff.mpr hcarries
    have hok := prepareStorage_of_sealed hinput houtput ha hseal
    rw [← htypes] at hok
    exact ⟨⟨_, hok⟩, a, ha, rfl⟩

/-- Where AES-GCM does not fail, the host's request is served if it carries an aggregate. -/
theorem seals_host_iff {realPaillier : Bool} {k : GeneratedKey} {w : TeeWorld}
    {input : StoragePrepInput} {query : GcmQuery} (hcrypto : w.crypto.Reliable) :
    (hostStorageRequest w input).Seals ⟨realPaillier, k.toPaillierKey⟩ query ↔
      ∃ a, CarriesAggregate realPaillier k w.mp input a ∧ query = TA.storageQuery input a := by
  rw [seals_iff]
  constructor
  · rintro ⟨a, haccepted, rfl⟩
    exact ⟨a, haccepted.carries, rfl⟩
  · rintro ⟨a, hcarries, rfl⟩
    obtain ⟨ciphertext, tag, hseal, -⟩ :=
      TA.exists_aesGcmEncryptTa hcrypto (TA.length_storageQuery_le input a)
    exact ⟨a, ⟨⟨rfl, le_rfl, le_rfl⟩, hcarries, ciphertext, tag, hseal⟩, rfl⟩

end StorageRequest

/-- The nonce holds the window and the fog count. -/
theorem buildStorageNonce_eq_iff {windowId fogCount windowId' fogCount' : UInt32} :
    TA.buildStorageNonce windowId fogCount = TA.buildStorageNonce windowId' fogCount' ↔
      windowId = windowId' ∧ fogCount = fogCount' := by
  constructor
  · intro h
    have hbytes := congrArg Vector.toList h
    rw [TA.toList_buildStorageNonce, TA.toList_buildStorageNonce, le32_append_inj,
      le32_append_inj] at hbytes
    exact ⟨hbytes.1, hbytes.2.1⟩
  · rintro ⟨rfl, rfl⟩
    rfl

/-- The message holds the window, the aggregate and the timestamp. -/
theorem storageQuery_msg_eq_iff {i j : StoragePrepInput} {a b : UInt32} :
    (TA.storageQuery i a).msg = (TA.storageQuery j b).msg ↔
      i.windowId = j.windowId ∧ a = b ∧ i.timestampMs = j.timestampMs := by
  constructor
  · intro h
    have hplain := congrArg StoragePlaintext.ofBytes h
    simpa [TA.storageQuery] using hplain
  · rintro ⟨hw, rfl, ht⟩
    rw [TA.storageQuery, TA.storageQuery, hw, ht]

/-- In a run, a nonce stands for one message and one string of associated data. -/
def NonceUnique (ta : TaBuild) (run : List StorageRequest) : Prop :=
  ∀ r ∈ run, ∀ r' ∈ run, ∀ query query', r.Seals ta query → r'.Seals ta query' →
    query.nonce = query'.nonce → query.msg = query'.msg ∧ query.aad = query'.aad

/-- A run keeps its nonces unique exactly if any two of its requests that are accepted with
the same window and fog count have the same timestamp and carry the same aggregate. -/
theorem nonceUnique_iff (realPaillier : Bool) (k : GeneratedKey) (run : List StorageRequest) :
    NonceUnique ⟨realPaillier, k.toPaillierKey⟩ run ↔
      ∀ r ∈ run, ∀ r' ∈ run, ∀ a a', r.Accepted realPaillier k a →
        r'.Accepted realPaillier k a' → r.input.buffer.windowId = r'.input.buffer.windowId →
        r.input.buffer.fogCount = r'.input.buffer.fogCount →
        r.input.buffer.timestampMs = r'.input.buffer.timestampMs ∧ a = a' := by
  constructor
  · intro h r hr r' hr' a a' ha ha' hwindow hfog
    have hnonce := buildStorageNonce_eq_iff.mpr ⟨hwindow, hfog⟩
    have hsame := h r hr r' hr' _ _ (StorageRequest.seals_iff.mpr ⟨a, ha, rfl⟩)
      (StorageRequest.seals_iff.mpr ⟨a', ha', rfl⟩) hnonce
    obtain ⟨-, haggregate, htime⟩ := storageQuery_msg_eq_iff.mp hsame.1
    exact ⟨htime, haggregate⟩
  · intro h r hr r' hr' query query' hseals hseals' hnonce
    obtain ⟨a, ha, rfl⟩ := StorageRequest.seals_iff.mp hseals
    obtain ⟨a', ha', rfl⟩ := StorageRequest.seals_iff.mp hseals'
    obtain ⟨hwindow, hfog⟩ := buildStorageNonce_eq_iff.mp hnonce
    obtain ⟨htime, haggregate⟩ := h r hr r' hr' a a' ha ha' hwindow hfog
    exact ⟨storageQuery_msg_eq_iff.mpr ⟨hwindow, haggregate, htime⟩,
      buildStorageAad_eq_iff.mpr ⟨hwindow, hfog, htime⟩⟩

/-- A recorded request as part of a run. -/
def demoStorageRequest (fakePaillierAggregate : UInt32) (timestampMs : UInt64) : StorageRequest :=
  hostStorageRequest (TA.drawing 2 demoTable.ideal.tee)
    (demoRequest fakePaillierAggregate timestampMs)

/-- Two requests for the first window with one fog, a millisecond apart, as the benchmark
makes them: both succeed, with the same nonce and different messages. -/
theorem not_nonceUnique_demo :
    ∃ query query', (demoStorageRequest 73000 1710000000999).Seals ⟨true, TA.fixedKey⟩ query ∧
      (demoStorageRequest 73000 1710000001000).Seals ⟨true, TA.fixedKey⟩ query' ∧
      query.key = TA.demoKstore ∧ query'.key = TA.demoKstore ∧ query.nonce = query'.nonce ∧
      query.msg ≠ query'.msg ∧
      ¬ NonceUnique ⟨true, TA.fixedKey⟩
        [demoStorageRequest 73000 1710000000999, demoStorageRequest 73000 1710000001000] := by
  have hmem : (TA.storageQuery (demoRequest 73000 1710000000999) 73000, _, _) ∈
      demoTable.entries := List.mem_append_right _ (.head _)
  have hmem' : (TA.storageQuery (demoRequest 73000 1710000001000) 73000, _, _) ∈
      demoTable.entries := List.mem_append_right _ (.tail _ (.head _))
  have hseals : (demoStorageRequest 73000 1710000000999).Seals ⟨true, TA.fixedKey⟩ _ :=
    ⟨demo_sealed hmem _, 73000, rfl, rfl⟩
  have hseals' : (demoStorageRequest 73000 1710000001000).Seals ⟨true, TA.fixedKey⟩ _ :=
    ⟨demo_sealed hmem' _, 73000, rfl, rfl⟩
  have hmsg : ∀ i j : StoragePrepInput, i.timestampMs ≠ j.timestampMs →
      (TA.storageQuery i 73000).msg ≠ (TA.storageQuery j 73000).msg :=
    fun i j hne heq ↦ hne (storageQuery_msg_eq_iff.mp heq).2.2
  have hne := hmsg (demoRequest 73000 1710000000999) (demoRequest 73000 1710000001000) (by decide)
  refine ⟨_, _, hseals, hseals', rfl, rfl, rfl, hne, fun hunique ↦ hne ?_⟩
  exact (hunique _ (by simp) _ (by simp) _ _ hseals hseals' rfl).1

end SecureIIoT
