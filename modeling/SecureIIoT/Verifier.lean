import SecureIIoT.Host.Common

/-!
# The verifier's plaintext buffer

The verifier of cloud objects decrypts into a local buffer of the size of a
`storage_plaintext_t`, 16 bytes, and `EVP_DecryptUpdate` writes one byte there for each
byte of ciphertext, before the tag is looked at.  The length that the verifier checks
is compared with the 64 bytes of the object's ciphertext field instead, so that the
buffer is large enough for the lengths up to 16 only
(`verification_staysInBuffer_iff`).
-/

namespace SecureIIoT

open Host

/-- What `EVP_DecryptUpdate` writes fits the plaintext buffer of the call. -/
def Host.DecryptCall.StaysInBuffer (call : DecryptCall) : Prop :=
  call.ciphertext.length ≤ call.plaintextLen

/-- An object that is not rejected is decrypted at its own length. -/
theorem verificationCall_lengths {input : StoragePrepInput} {cloudObject : StorageCloudObject}
    {call : DecryptCall} (h : verificationCall input cloudObject = some call) :
    ¬ 64 < cloudObject.ciphertextLen ∧
      call.ciphertext.length = cloudObject.ciphertextLen.toNat ∧
      call.plaintextLen = sizeofStoragePlaintext := by
  rw [verificationCall] at h
  by_cases hlong : 64 < cloudObject.ciphertextLen
  · rw [if_pos hlong] at h
    cases h
  · rw [if_neg hlong, Option.some.injEq] at h
    have hle : cloudObject.ciphertextLen.toNat ≤ (64 : UInt32).toNat :=
      UInt32.le_iff_toNat_le.mp (UInt32.not_lt.mp hlong)
    subst h
    refine ⟨hlong, ?_, rfl⟩
    rw [List.length_take, Vector.length_toList]
    exact min_eq_left hle

theorem exists_verificationCall (input : StoragePrepInput) (cloudObject : StorageCloudObject)
    (h : ¬ 64 < cloudObject.ciphertextLen) :
    ∃ call, verificationCall input cloudObject = some call :=
  ⟨_, if_neg h⟩

/-- The verifier stays in its buffer exactly on the objects whose ciphertext length is at
most 16, and on those that it rejects for being longer than 64. -/
theorem verification_staysInBuffer_iff (input : StoragePrepInput)
    (cloudObject : StorageCloudObject) :
    (∀ call, verificationCall input cloudObject = some call → call.StaysInBuffer) ↔
      cloudObject.ciphertextLen ≤ 16 ∨ 64 < cloudObject.ciphertextLen := by
  constructor
  · intro hstays
    by_cases hlong : 64 < cloudObject.ciphertextLen
    · exact .inr hlong
    · obtain ⟨call, hcall⟩ := exists_verificationCall input cloudObject hlong
      obtain ⟨-, hlen, hcap⟩ := verificationCall_lengths hcall
      have hle := hstays call hcall
      rw [DecryptCall.StaysInBuffer, hlen, hcap] at hle
      exact .inl (UInt32.le_iff_toNat_le.mpr hle)
  · rintro hshort call hcall
    obtain ⟨hlong, hlen, hcap⟩ := verificationCall_lengths hcall
    rw [DecryptCall.StaysInBuffer, hlen, hcap]
    exact UInt32.le_iff_toNat_le.mp (hshort.resolve_right hlong)

/-- An object of 64 bytes, with any tag, is decrypted into the 16-byte buffer. -/
theorem not_staysInBuffer_demo :
    ∃ call, verificationCall ⟨1, 1, 73000, .replicate _ 0, 0, 0, 1710000000999⟩
        { StorageCloudObject.zero with ciphertextLen := 64 } = some call ∧
      call.ciphertext.length = 64 ∧ call.plaintextLen = 16 ∧ ¬ call.StaysInBuffer := by
  obtain ⟨call, hcall⟩ := exists_verificationCall
    ⟨1, 1, 73000, .replicate _ 0, 0, 0, 1710000000999⟩
    { StorageCloudObject.zero with ciphertextLen := 64 } (by rw [StorageCloudObject.zero]; decide)
  obtain ⟨-, hlen, hcap⟩ := verificationCall_lengths hcall
  have hlen64 : call.ciphertext.length = 64 := hlen
  refine ⟨call, hcall, hlen64, hcap, ?_⟩
  rw [DecryptCall.StaysInBuffer, hlen64, hcap]
  decide

end SecureIIoT
