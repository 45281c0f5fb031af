import SecureIIoT.DemoKey
import SecureIIoT.Host.Paillier
import SecureIIoT.TA.Paillier

/-!
# The encoding of ciphertexts

A ciphertext crosses the boundary of the TA as 128 bytes.  The TA writes them with
`mp_to_ubin`, a move and a fill, the host with `BN_bn2binpad`, and each reads what the
other has written.  Both write the numeral of the number in full width
(`toList_padFront`, `paillierHostBnToFixedBytes_of_lt`), so that there is one encoding
(`ciphertext_encoding`).
-/

namespace SecureIIoT

open ByteString

/-- A number of 128 bytes is written by the TA, over whatever the buffer held, as the host
writes it. -/
theorem padFront_eq_bnToFixedBytes {c : ℕ} (hc : c < 256 ^ paillierCiphertextMax)
    (buf : Vector UInt8 paillierCiphertextMax) :
    ∃ buf', TA.mpToUbin .exact c buf = (.ok (byteLength c), buf') ∧
      Host.paillierHostBnToFixedBytes c paillierCiphertextMax =
        some (TA.padFront buf' (byteLength c)).toList := by
  have hlen : byteLength c ≤ paillierCiphertextMax := byteLength_le_iff.mpr hc
  refine ⟨write buf 0 (toBE (byteLength c) c), if_neg (not_lt.mpr hlen), ?_⟩
  rw [Host.paillierHostBnToFixedBytes_of_lt (by decide) hc, TA.toList_padFront hlen]

/-- What the host writes is read back, by the host and as the number of the string. -/
theorem bnToFixedBytes_read {c : ℕ} {bytes : Vector UInt8 paillierCiphertextMax}
    (hc : c < 256 ^ paillierCiphertextMax)
    (h : Host.paillierHostBnToFixedBytes c paillierCiphertextMax = some bytes.toList) :
    Host.paillierHostFixedBytesToBn bytes.toList = some c ∧ ofBE bytes.toList = c := by
  rw [Host.paillierHostBnToFixedBytes_of_lt (by decide) hc] at h
  have hnumber : ofBE bytes.toList = c := by
    rw [← Option.some.inj h, ofBE_toBE hc]
  rw [Host.paillierHostFixedBytesToBn_of_length (Host.length_toList_le bytes), hnumber]
  exact ⟨rfl, rfl⟩

/-- The TA's encoding of a number below `n ^ 2` is the host's, and both read it back; so
is what a successful encryption leaves.  For strings the host's parse and its encoding
are inverse to each other, and the encoding fails exactly on numbers that do not fit. -/
theorem ciphertext_encoding {n : ℕ} (hn : n ^ 2 < 2 ^ 1024) :
    (∀ c < n ^ 2, ∀ buf : Vector UInt8 paillierCiphertextMax, ∃ buf',
      TA.mpToUbin .exact c buf = (.ok (byteLength c), buf') ∧
      Host.paillierHostBnToFixedBytes c 128 = some (TA.padFront buf' (byteLength c)).toList ∧
      Host.paillierHostFixedBytesToBn (TA.padFront buf' (byteLength c)).toList = some c ∧
      ofBE (TA.padFront buf' (byteLength c)).toList = c) ∧
    (∀ (ta : TaBuild) (w : TeeWorld) (m : UInt32) (out out' : TA.CiphertextOut)
      (outMaxLen : UInt32),
      TA.paillierTaEncryptRealU32 ta w m out outMaxLen = (.ok (), out') →
        ∃ c, TA.encryptNumber ta w m = .ok c ∧
          Host.paillierHostBnToFixedBytes c 128 = some out'.ciphertext.toList ∧
          Host.paillierHostFixedBytesToBn out'.ciphertext.toList = some c ∧
          ofBE out'.ciphertext.toList = c) ∧
    (∀ bytes : List UInt8, bytes.length ≤ Host.intMax → ∃ bn,
      Host.paillierHostFixedBytesToBn bytes = some bn ∧
      Host.paillierHostBnToFixedBytes bn bytes.length = some bytes) ∧
    ∀ bn outLen : ℕ, outLen ≤ Host.intMax →
      (Host.paillierHostBnToFixedBytes bn outLen = none ↔ 256 ^ outLen ≤ bn) := by
  have hwidth : (256 : ℕ) ^ paillierCiphertextMax = 2 ^ 1024 := by
    rw [show (256 : ℕ) = 2 ^ 8 from rfl, ← pow_mul, show 8 * paillierCiphertextMax = 1024 from rfl]
  refine ⟨?_, ?_, ?_, ?_⟩
  · intro c hc buf
    have hlt : c < 256 ^ paillierCiphertextMax := (hc.trans hn).trans_eq hwidth.symm
    obtain ⟨buf', hwrite, hhost⟩ := padFront_eq_bnToFixedBytes hlt buf
    exact ⟨buf', hwrite, hhost, bnToFixedBytes_read hlt hhost⟩
  · intro ta w m out out' outMaxLen h
    obtain ⟨c, hc, hlt, hbytes, -⟩ := TA.paillierTaEncryptRealU32_ok h
    have hhost : Host.paillierHostBnToFixedBytes c paillierCiphertextMax =
        some out'.ciphertext.toList := by
      rw [Host.paillierHostBnToFixedBytes_of_lt (by decide) hlt, hbytes]
    exact ⟨c, hc, hhost, bnToFixedBytes_read hlt hhost⟩
  · intro bytes hlen
    have hlt := ofBE_lt bytes
    refine ⟨_, Host.paillierHostFixedBytesToBn_of_length hlen, ?_⟩
    rw [Host.paillierHostBnToFixedBytes_of_lt hlen hlt, toBE_ofBE]
  · intro bn outLen hlen
    rw [Host.paillierHostBnToFixedBytes_eq_none_iff, or_iff_right (not_lt.mpr hlen)]

/-- Under the fixed modulus, a number of two bytes gets 126 zero bytes in front. -/
theorem ciphertext_encoding_demo : ∃ buf',
    TA.mpToUbin .exact 256 (.replicate _ 7) = (.ok (byteLength 256), buf') ∧
    Host.paillierHostBnToFixedBytes 256 128 = some (TA.padFront buf' (byteLength 256)).toList ∧
    Host.paillierHostFixedBytesToBn (TA.padFront buf' (byteLength 256)).toList = some 256 ∧
    ofBE (TA.padFront buf' (byteLength 256)).toList = 256 :=
  (ciphertext_encoding (n := TA.paillierNHex) (by decide +kernel)).1 256 (by decide +kernel)
    (.replicate _ 7)

end SecureIIoT
