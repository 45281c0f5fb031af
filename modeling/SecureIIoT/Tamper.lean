import SecureIIoT.Storage

/-!
# Tampered cloud objects

The verifier of a cloud object takes the nonce, the ciphertext, its length and the tag from
the object, and the associated data from the request of its caller.  On ideal AES-GCM it
accepts what some logged encryption has put out for that associated data
(`verify_eq_some_iff`).  The window of the object is not looked at.

So an object that has been changed is rejected unless all that has changed is its window,
or it carries the output of another encryption for the same request
(`tamperEvident_iff`).  The sensor packet is checked where the object is not: its associated
data is built from its own header, and the TA compares that with the plaintext.
-/

namespace SecureIIoT

open ByteString

/-- The parts of a cloud object that are decrypted: a ciphertext beyond its length is not. -/
def SameSeal (object object' : StorageCloudObject) : Prop :=
  object'.nonce = object.nonce ∧ object'.ciphertextLen = object.ciphertextLen ∧
    object'.tag = object.tag ∧
    object'.ciphertext.toList.take object.ciphertextLen.toNat =
      object.ciphertext.toList.take object.ciphertextLen.toNat

/-- An object that differs from the one that was sealed does not verify, and one that
verifies is labelled with the window of what is recovered. -/
def TamperEvident (I : IdealGcm) (input : StoragePrepInput) (object object' : StorageCloudObject) :
    Prop :=
  (¬ (object'.windowId = object.windowId ∧ SameSeal object object') →
    Host.secureIiotDecryptCloudObjectForVerification I.evp input object' = none) ∧
  ∀ plaintext, Host.secureIiotDecryptCloudObjectForVerification I.evp input object' =
    some plaintext → object'.windowId = plaintext.windowId

/-- An object carries a logged encryption of 16 bytes under the storage key, for the
associated data of a request. -/
def Carries (I : IdealGcm) (input : StoragePrepInput) (object : StorageCloudObject)
    (query : GcmQuery) : Prop :=
  query ∈ I.log ∧ query.key = Host.demoKstore ∧ query.nonce = object.nonce ∧
    query.aad = Host.secureIiotBuildStorageAad input ∧ object.ciphertextLen = 16 ∧
    I.encrypt query = (object.ciphertext.toList.take object.ciphertextLen.toNat, object.tag)

section Verify

variable {I : IdealGcm} {input : StoragePrepInput} {object object' : StorageCloudObject}
  {query : GcmQuery}

/-- Verification recovers the message of the encryption that the object carries. -/
theorem verify_eq_some_iff {plaintext : StoragePlaintext} :
    Host.secureIiotDecryptCloudObjectForVerification I.evp input object = some plaintext ↔
      ∃ query, Carries I input object query ∧ plaintext = .ofBytes query.msg := by
  rw [Host.secureIiotDecryptCloudObjectForVerification, Host.verificationCall]
  constructor
  · intro h
    by_cases hlong : 64 < object.ciphertextLen
    · rw [if_pos hlong] at h
      cases h
    rw [if_neg hlong] at h
    dsimp only at h
    split at h
    · cases h
    · next msg hmsg =>
      obtain ⟨hlog, henc⟩ := Aead.Ideal.decrypt_eq_some_iff.mp hmsg
      have hlen := IdealGcm.length_of_encrypt henc
      rw [List.length_take, Vector.length_toList] at hlen
      by_cases hsize : msg.length = sizeofStoragePlaintext
      · rw [if_neg (not_not.mpr hsize)] at h
        cases h
        have hle := UInt32.le_iff_toNat_le.mp (UInt32.not_lt.mp hlong)
        have h16 : object.ciphertextLen = 16 :=
          UInt32.toNat_inj.mp ((min_eq_left hle).symm.trans (hlen.trans hsize))
        exact ⟨_, ⟨hlog, rfl, rfl, rfl, h16, henc⟩, rfl⟩
      · rw [if_pos hsize] at h
        cases h
  · rintro ⟨⟨key, nonce, aad, msg⟩, ⟨hlog, hkey, hnonce, haad, hlen, henc⟩, rfl⟩
    subst hkey hnonce haad
    have hmsg : I.evp.aesGcmDecrypt Host.demoKstore object.nonce
        (Host.secureIiotBuildStorageAad input)
        (object.ciphertext.toList.take object.ciphertextLen.toNat) object.tag = some msg :=
      Aead.Ideal.decrypt_eq_some_iff.mpr ⟨hlog, henc⟩
    have hsize : msg.length = sizeofStoragePlaintext := by
      have hlength := IdealGcm.length_of_encrypt henc
      rw [List.length_take, Vector.length_toList, hlen] at hlength
      exact hlength.symm
    have hshort : ¬ 64 < object.ciphertextLen := by
      rw [hlen]
      decide
    rw [if_neg hshort]
    dsimp only
    rw [hmsg]
    exact if_neg (not_not.mpr hsize)

/-- Objects with the same seal carry the same encryptions. -/
theorem Carries.of_sameSeal (hseal : SameSeal object object') (h : Carries I input object query) :
    Carries I input object' query := by
  obtain ⟨hlog, hkey, hnonce, haad, hlen, henc⟩ := h
  obtain ⟨hnonce', hlen', htag', hct'⟩ := hseal
  refine ⟨hlog, hkey, hnonce.trans hnonce'.symm, haad, hlen'.trans hlen, ?_⟩
  rw [henc, hlen', htag', hct']

/-- An encryption that two objects carry is their seal. -/
theorem Carries.sameSeal (h : Carries I input object query) (h' : Carries I input object' query) :
    SameSeal object object' := by
  obtain ⟨-, -, hnonce, -, hlen, henc⟩ := h
  obtain ⟨-, -, hnonce', -, hlen', henc'⟩ := h'
  obtain ⟨hct, htag⟩ := Prod.mk.inj (henc.symm.trans henc')
  refine ⟨hnonce'.symm.trans hnonce, hlen'.trans hlen.symm, htag.symm, ?_⟩
  rw [hct, hlen, hlen']

/-- An object carries one encryption. -/
theorem Carries.unique {query' : GcmQuery} (h : Carries I input object query)
    (h' : Carries I input object query') : query = query' := by
  obtain ⟨hlog, hkey, hnonce, -, -, henc⟩ := h
  obtain ⟨hlog', hkey', hnonce', -, -, henc'⟩ := h'
  exact I.binding _ hlog _ hlog' (hkey.trans hkey'.symm) (hnonce.trans hnonce'.symm)
    (henc.trans henc'.symm)

end Verify

section Sealed

variable {ta : TaBuild} {w : TeeWorld} {paramTypes : UInt32} {input : MemRef StoragePrepInput}
  {output output' : MemRef StorageCloudObject}

/-- The object that a request leaves carries the encryption it made. -/
theorem carries_of_ok {I : IdealGcm} {a : UInt32} (hcrypto : w.crypto = I.tee)
    (h : TA.prepareStorage ta w paramTypes input output = (.ok (), output'))
    (ha : TA.storageAggregate ta w input.buffer = .ok a) :
    Carries I input.buffer output'.buffer (TA.storageQuery input.buffer a) ∧
      output'.buffer.windowId = input.buffer.windowId := by
  obtain ⟨ciphertext, hproduce, hnonce, hlen, htake⟩ := object_of_ok hcrypto h ha
  obtain ⟨hlog, henc⟩ := Aead.Ideal.produce_eq_some_iff.mp hproduce
  have haad : Host.secureIiotBuildStorageAad input.buffer = TA.buildStorageAad input.buffer :=
    buildStorageAad_eq_iff.mpr ⟨rfl, rfl, rfl⟩
  obtain ⟨-, hbody, -⟩ := TA.recordCommand_ok_iff.mp h
  obtain ⟨_, -, _, _, -, hobject⟩ := TA.prepareObject_ok_iff.mp hbody
  refine ⟨⟨hlog, rfl, hnonce.symm, haad.symm, hlen, ?_⟩, ?_⟩
  · rw [henc, hlen, ← htake]
    rfl
  · rw [hobject]
    rfl

/-- On ideal AES-GCM, tampering with the object of a request that succeeds is noticed
exactly if it is not the window alone that has changed, and what is put in place of the
seal is not the output of another encryption for the same window, fog count and
timestamp. -/
theorem tamperEvident_iff {I : IdealGcm} (hcrypto : w.crypto = I.tee)
    (h : TA.prepareStorage ta w paramTypes input output = (.ok (), output')) :
    ∃ a, TA.storageAggregate ta w input.buffer = .ok a ∧ ∀ object' : StorageCloudObject,
      TamperEvident I input.buffer output'.buffer object' ↔
        ¬ (SameSeal output'.buffer object' ∧ object'.windowId ≠ output'.buffer.windowId) ∧
        ¬ ∃ query ≠ TA.storageQuery input.buffer a, Carries I input.buffer object' query := by
  obtain ⟨a, ha⟩ := storageAggregate_of_ok h
  obtain ⟨hcarries, hwindow⟩ := carries_of_ok hcrypto h ha
  have hplain : StoragePlaintext.ofBytes (TA.storageQuery input.buffer a).msg =
      ⟨input.buffer.windowId, a, input.buffer.timestampMs⟩ := StoragePlaintext.ofBytes_toBytes _
  refine ⟨a, ha, fun object' ↦ ?_⟩
  constructor
  · rintro ⟨hrejected, -⟩
    constructor
    · rintro ⟨hseal, hne⟩
      have hverify := verify_eq_some_iff.mpr ⟨_, hcarries.of_sameSeal hseal, rfl⟩
      rw [hrejected fun hsame ↦ hne hsame.1] at hverify
      cases hverify
    · rintro ⟨query, hne, hquery⟩
      have hverify := verify_eq_some_iff.mpr ⟨_, hquery, rfl⟩
      rw [hrejected fun hsame ↦ hne (hquery.unique (hcarries.of_sameSeal hsame.2))] at hverify
      cases hverify
  · rintro ⟨hwindow', hother⟩
    -- What verifies carries the encryption of the request.
    have hsame {plaintext : StoragePlaintext}
        (hverify : Host.secureIiotDecryptCloudObjectForVerification I.evp input.buffer object' =
          some plaintext) :
        (object'.windowId = output'.buffer.windowId ∧ SameSeal output'.buffer object') ∧
          plaintext.windowId = input.buffer.windowId := by
      obtain ⟨query, hquery, rfl⟩ := verify_eq_some_iff.mp hverify
      obtain rfl : query = TA.storageQuery input.buffer a := by
        by_contra hne
        exact hother ⟨query, hne, hquery⟩
      have hseal := hcarries.sameSeal hquery
      rw [hplain]
      exact ⟨⟨not_ne_iff.mp fun hne ↦ hwindow' ⟨hseal, hne⟩, hseal⟩, rfl⟩
    constructor
    · intro hdiffers
      exact Option.eq_none_iff_forall_ne_some.mpr fun _ hverify ↦ hdiffers (hsame hverify).1
    · intro plaintext hverify
      obtain ⟨⟨hlabel, -⟩, hmessage⟩ := hsame hverify
      rw [hlabel, hwindow, hmessage]

end Sealed

/-- The recorded object with its window changed is not noticed. -/
theorem tamperEvident_iff_demo :
    ∃ output', TA.prepareStorage ⟨true, TA.fixedKey⟩ (TA.drawing 2 demoTable.ideal.tee)
        TA.recordParamTypes ⟨demoRequest 73000 1710000000999, sizeofStoragePrepInput⟩
        ⟨.zero, sizeofStorageCloudObject⟩ = (.ok (), output') ∧
      (TamperEvident demoTable.ideal (demoRequest 73000 1710000000999) output'.buffer
          { output'.buffer with windowId := 2 } →
        output'.buffer.windowId = 2) := by
  have hmem : (TA.storageQuery (demoRequest 73000 1710000000999) 73000, _, _) ∈
      demoTable.entries := List.mem_append_right _ (.head _)
  obtain ⟨output', h⟩ := demo_sealed hmem ⟨true, TA.fixedKey⟩
  obtain ⟨a, -, hevident⟩ := tamperEvident_iff rfl h
  refine ⟨output', h, fun htamper ↦ ?_⟩
  by_contra hne
  exact ((hevident _).mp htamper).1 ⟨⟨rfl, rfl, rfl, rfl⟩, Ne.symm hne⟩

/-- The object for window 1, relabelled to window 2, verifies as the aggregate 73000 of
window 1. -/
theorem windowId_unbound_demo :
    ∃ output', TA.prepareStorage ⟨true, TA.fixedKey⟩ (TA.drawing 2 demoTable.ideal.tee)
        TA.recordParamTypes ⟨demoRequest 73000 1710000000999, sizeofStoragePrepInput⟩
        ⟨.zero, sizeofStorageCloudObject⟩ = (.ok (), output') ∧
      output'.buffer.windowId = 1 ∧
      Host.secureIiotDecryptCloudObjectForVerification demoTable.ideal.evp
        (demoRequest 73000 1710000000999) { output'.buffer with windowId := 2 } =
          some ⟨1, 73000, 1710000000999⟩ := by
  have hmem : (TA.storageQuery (demoRequest 73000 1710000000999) 73000, _, _) ∈
      demoTable.entries := List.mem_append_right _ (.head _)
  obtain ⟨output', h⟩ := demo_sealed hmem ⟨true, TA.fixedKey⟩
  obtain ⟨hcarries, hwindow⟩ := carries_of_ok rfl h rfl
  have hplain := StoragePlaintext.ofBytes_toBytes ⟨1, 73000, 1710000000999⟩
  exact ⟨output', h, hwindow, verify_eq_some_iff.mpr ⟨_, hcarries, hplain.symm⟩⟩

end SecureIIoT
