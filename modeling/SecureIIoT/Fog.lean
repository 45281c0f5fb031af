import SecureIIoT.DemoKey
import SecureIIoT.RecordedGcm

/-!
# The fog command

On ideal AES-GCM, the real build of the TA accepts exactly the packets that the sensor
side created with a reading that is not negative
(`processSensorPacket_accepts_exactly_created`).

What it returns tells Normal World the reading: the results for two packets that differ
in their readings only agree outside the Paillier ciphertext if the readings are the
same (`result_agrees_iff`), because of the field `scaled_value`.
-/

namespace SecureIIoT

open ByteString

/-! ## Packets that were created -/

/-- A packet of the sensor side, with what it was created from. -/
structure CreatedPacket (I : IdealGcm) where
  plaintext : SensorPlaintext
  sequence : UInt32
  packet : SecureSensorPacket
  created : Host.secureIiotCreatePacket I.evp plaintext sequence = some packet

/-- A submitted packet has the header, nonce, lengths, tag and ciphertext of another. -/
def AgreesWith (p p' : SecureSensorPacket) : Prop :=
  p.sensorId = p'.sensorId ∧ p.fogId = p'.fogId ∧ p.windowId = p'.windowId ∧
    p.timestampMs = p'.timestampMs ∧ p.nonce = p'.nonce ∧ p.plaintextLen = p'.plaintextLen ∧
    p.ciphertextLen = p'.ciphertextLen ∧ p.tag = p'.tag ∧
    p.ciphertext.toList.take p.ciphertextLen.toNat =
      p'.ciphertext.toList.take p'.ciphertextLen.toNat

theorem packetLengthsValid_iff {p : SecureSensorPacket} :
    TA.packetLengthsValid p = true ↔ p.plaintextLen = 24 ∧ p.ciphertextLen = 24 := by
  simp only [TA.packetLengthsValid, decide_eq_true_eq]
  constructor
  · rintro ⟨hplain, -, hcipher⟩
    exact ⟨hplain, hcipher.trans hplain⟩
  · rintro ⟨hplain, hcipher⟩
    exact ⟨hplain, hcipher ▸ by decide, hcipher.trans hplain.symm⟩

/-- The two encoders of the associated data are one injective function of the header. -/
theorem buildMetadataAad_eq_iff {p p' : SecureSensorPacket} :
    TA.buildMetadataAad p = Host.secureIiotBuildMetadataAad p' ↔
      p.sensorId = p'.sensorId ∧ p.fogId = p'.fogId ∧ p.windowId = p'.windowId ∧
        p.timestampMs = p'.timestampMs := by
  rw [TA.buildMetadataAad, Host.secureIiotBuildMetadataAad, le32_append_inj, le32_append_inj,
    le32_append_inj]
  constructor
  · rintro ⟨hs, hf, hw, ht⟩
    exact ⟨hs, hf, hw, le64_inj ht⟩
  · rintro ⟨hs, hf, hw, ht⟩
    exact ⟨hs, hf, hw, congrArg le64 ht⟩

theorem headersMatch_iff {d : SensorPlaintext} {p : SecureSensorPacket} :
    TA.headersMatch d p = true ↔ d.sensorId = p.sensorId ∧ d.fogId = p.fogId ∧
      d.windowId = p.windowId ∧ d.timestampMs = p.timestampMs := by
  simp only [TA.headersMatch, decide_eq_true_eq]

namespace CreatedPacket

variable {I : IdealGcm} (x : CreatedPacket I)

/-- What a created packet holds besides its header: the output of its encryption. -/
theorem exists_produce : ∃ ciphertext,
    I.produce (Host.sensorQuery x.plaintext x.sequence) = some (ciphertext, x.packet.tag) ∧
      x.packet.ciphertext.toList.take x.packet.ciphertextLen.toNat = ciphertext ∧
      x.packet = { Host.packetHeader x.plaintext x.sequence with
        ciphertext := x.packet.ciphertext
        ciphertextLen := 24
        tag := x.packet.tag } := by
  obtain ⟨ciphertext, tag, hproduce, hpacket⟩ := Host.secureIiotCreatePacket_evp_iff.mp x.created
  have hlen : ciphertext.length = 24 := I.length_of_produce hproduce
  have hfits : 24 ≤ 64 := by decide
  rw [hpacket]
  exact ⟨ciphertext, hproduce, take_write_zero (.replicate 64 0) hlen hfits, rfl⟩

/-- The TA decrypts a created packet to what it was created from. -/
theorem decrypt :
    TA.aesGcmDecryptTa I.tee TA.demoKfog1 x.packet.nonce (TA.buildMetadataAad x.packet)
      (x.packet.ciphertext.toList.take x.packet.ciphertextLen.toNat) x.packet.tag
      sizeofSensorPlaintext = .ok x.plaintext.toBytes := by
  obtain ⟨ciphertext, hproduce, htake, hpacket⟩ := x.exists_produce
  have hlen : ciphertext.length = 24 := I.length_of_produce hproduce
  have haad : TA.buildMetadataAad x.packet =
      Host.secureIiotBuildMetadataAad (Host.packetHeader x.plaintext x.sequence) := by
    rw [hpacket]
    rfl
  have hnonce : x.packet.nonce = (Host.packetHeader x.plaintext x.sequence).nonce := by
    rw [hpacket]
  rw [IdealGcm.tee, TA.aesGcmDecryptTa_ofGcm (htake ▸ hlen.le), haad, hnonce, htake]
  exact (Aead.Ideal.decrypt_produce_iff hproduce).mpr ⟨rfl, rfl⟩

/-- On a created packet, the body comes down to the encryption of the reading. -/
theorem processPacket {ta : TaBuild} {w : TeeWorld} (hcrypto : w.crypto = I.tee) :
    TA.processPacket ta w x.packet =
      TA.finishPacket x.plaintext (TA.encryptReading ta w x.plaintext .zero) := by
  obtain ⟨-, -, -, hpacket⟩ := x.exists_produce
  have hlens : TA.packetLengthsValid x.packet = true := by
    rw [packetLengthsValid_iff, hpacket]
    exact ⟨rfl, rfl⟩
  have hheader : TA.headersMatch x.plaintext x.packet = true := by
    rw [headersMatch_iff, hpacket]
    exact ⟨rfl, rfl, rfl, rfl⟩
  rw [TA.processPacket, hlens, hcrypto, x.decrypt]
  simp only [Bool.true_eq_false, if_false, SensorPlaintext.length_toBytes, ne_eq,
    not_true_eq_false, SensorPlaintext.ofBytes_toBytes, hheader]

end CreatedPacket

/-! ## Which packets are accepted -/

section Accepted

variable {I : IdealGcm} {created : List (CreatedPacket I)} {w : TeeWorld} {ta : TaBuild}
  {p : SecureSensorPacket}

/-- If the created packets are all that is encrypted under the fog key, a packet that
decrypts agrees with a created one, and decrypts to its plaintext. -/
theorem exists_created_of_decrypt {decrypted : List UInt8}
    (hlog : ∀ query ∈ I.log, query.key = TA.demoKfog1 →
      ∃ x ∈ created, query = Host.sensorQuery x.plaintext x.sequence)
    (hlens : TA.packetLengthsValid p = true)
    (hdecrypt : TA.aesGcmDecryptTa I.tee TA.demoKfog1 p.nonce (TA.buildMetadataAad p)
      (p.ciphertext.toList.take p.ciphertextLen.toNat) p.tag sizeofSensorPlaintext =
        .ok decrypted) :
    ∃ x ∈ created, AgreesWith p x.packet ∧ decrypted = x.plaintext.toBytes := by
  obtain ⟨hplain, hcipher⟩ := packetLengthsValid_iff.mp hlens
  have hlen : (p.ciphertext.toList.take p.ciphertextLen.toNat).length ≤ sizeofSensorPlaintext := by
    rw [hcipher]
    exact List.length_take_le _ _
  rw [IdealGcm.tee, TA.aesGcmDecryptTa_ofGcm hlen, Aead.Ideal.decrypt_eq_some_iff] at hdecrypt
  obtain ⟨hmem, henc⟩ := hdecrypt
  obtain ⟨x, hx, hquery⟩ := hlog _ hmem rfl
  obtain ⟨ciphertext, hproduce, htake, hpacket⟩ := x.exists_produce
  have hout := (Aead.Ideal.produce_eq_some_iff.mp hproduce).2
  rw [← hquery, henc] at hout
  obtain ⟨hct, htag⟩ := Prod.mk.inj hout
  have hnonce : p.nonce = (Host.packetHeader x.plaintext x.sequence).nonce :=
    congrArg Aead.Query.nonce hquery
  obtain ⟨hsensor, hfog, hwindow, htime⟩ :=
    buildMetadataAad_eq_iff.mp (congrArg Aead.Query.aad hquery)
  have hhead : AgreesWith p { Host.packetHeader x.plaintext x.sequence with
      ciphertext := x.packet.ciphertext
      ciphertextLen := 24
      tag := x.packet.tag } := by
    refine ⟨hsensor, hfog, hwindow, htime, hnonce, hplain, hcipher, htag, hct.trans ?_⟩
    rw [← htake, hpacket]
  rw [← hpacket] at hhead
  exact ⟨x, hx, hhead, congrArg Aead.Query.msg hquery⟩

/-- With a unit drawn and no faults, the real build encrypts a reading that is not
negative. -/
theorem exists_encryptReading_real {k : DemoSizedKey} {plaintext : SensorPlaintext}
    (hmp : w.mp = .exact) (hdraw : ∃ r, TA.generateCoprimeR w k.n = .ok r)
    (hreading : ¬ plaintext.readingScaled < 0) :
    ∃ result, TA.encryptReading ⟨true, k.toPaillierKey⟩ w plaintext .zero = (.ok (), result) := by
  obtain ⟨r, hr⟩ := hdraw
  obtain ⟨out, hout⟩ := TA.paillierTaEncryptRealU32_of_draw k hmp hr
    plaintext.readingScaled.toUInt32 ⟨.replicate _ 0, 0⟩
  exact ⟨_, (TA.encryptReading_real_ok_iff rfl).mpr ⟨hreading, out, hout, rfl⟩⟩

/-- So the real build accepts a created packet with such a reading. -/
theorem CreatedPacket.accepted {k : DemoSizedKey} (x : CreatedPacket I)
    (hcrypto : w.crypto = I.tee) (hmp : w.mp = .exact)
    (hdraw : ∃ r, TA.generateCoprimeR w k.n = .ok r) (hreading : ¬ x.plaintext.readingScaled < 0)
    {input : MemRef SecureSensorPacket} {output : MemRef SecureSensorResult}
    (hpacket : input.buffer = x.packet) (hinput : sizeofSecureSensorPacket ≤ input.size)
    (houtput : sizeofSecureSensorResult ≤ output.size) :
    ∃ encrypted, TA.processSensorPacket ⟨true, k.toPaillierKey⟩ w TA.recordParamTypes input output =
      (.ok (), ⟨TA.finishResult x.plaintext encrypted, sizeofSecureSensorResult⟩) := by
  obtain ⟨encrypted, henc⟩ := exists_encryptReading_real hmp hdraw hreading
  refine ⟨encrypted, TA.recordCommand_ok_iff.mpr ⟨⟨rfl, hinput, houtput⟩, ?_, rfl⟩⟩
  rw [hpacket, x.processPacket hcrypto, henc]
  rfl

end Accepted

/-- On ideal AES-GCM, where the created packets are all that is encrypted under the fog
key: a packet that the real build accepts agrees with a created one, whose ids the
result echoes and whose reading it encrypts; and a created packet is accepted if its
reading is not negative and a unit is drawn, and rejected if its reading is negative. -/
theorem processSensorPacket_accepts_exactly_created (k : DemoSizedKey) {I : IdealGcm}
    {created : List (CreatedPacket I)} {w : TeeWorld} (hcrypto : w.crypto = I.tee)
    (hlog : ∀ query ∈ I.log, query.key = TA.demoKfog1 →
      ∃ x ∈ created, query = Host.sensorQuery x.plaintext x.sequence) :
    (∀ paramTypes input output output',
      TA.processSensorPacket ⟨true, k.toPaillierKey⟩ w paramTypes input output =
        (.ok (), output') →
      ∃ x ∈ created, AgreesWith input.buffer x.packet ∧
        output'.buffer.sensorId = x.plaintext.sensorId ∧
        output'.buffer.fogId = x.plaintext.fogId ∧
        output'.buffer.windowId = x.plaintext.windowId ∧
        ∃ m : ℕ, (m : ℤ) = x.plaintext.readingScaled.toInt ∧
          k.IsCiphertext m (ofBE output'.buffer.paillierCiphertext.toList)) ∧
    ∀ x ∈ created, ∀ input output, input.buffer = x.packet →
      sizeofSecureSensorPacket ≤ input.size → sizeofSecureSensorResult ≤ output.size →
      (0 ≤ x.plaintext.readingScaled → w.mp = .exact → (∃ r, TA.generateCoprimeR w k.n = .ok r) →
        ∃ output', TA.processSensorPacket ⟨true, k.toPaillierKey⟩ w TA.recordParamTypes input
          output = (.ok (), output')) ∧
      (x.plaintext.readingScaled < 0 →
        (TA.processSensorPacket ⟨true, k.toPaillierKey⟩ w TA.recordParamTypes input output).1 =
          .error .badParameters) := by
  constructor
  · intro paramTypes input output output' h
    obtain ⟨-, hbody, -⟩ := TA.recordCommand_ok_iff.mp h
    obtain ⟨hlens, decrypted, hdecrypt, -, -, encrypted, henc, hresult⟩ :=
      TA.processPacket_ok_iff.mp hbody
    rw [hcrypto] at hdecrypt
    obtain ⟨x, hx, hagrees, rfl⟩ := exists_created_of_decrypt hlog hlens hdecrypt
    rw [SensorPlaintext.ofBytes_toBytes] at henc hresult
    obtain ⟨hreading, ciphertext, c, hc, hbytes, rfl⟩ := TA.encryptReading_real_ok henc
    rw [hresult]
    refine ⟨x, hx, hagrees, rfl, rfl, rfl, _, cast_toUInt32_of_nonneg hreading, ?_⟩
    have hvalue : ofBE ciphertext.toList = c := by rw [hbytes, ofBE_toBE (hc.lt.trans k.n2_lt)]
    exact hvalue ▸ hc
  · intro x hx input output hpacket hinput houtput
    constructor
    · intro hreading hmp hdraw
      obtain ⟨_, haccepted⟩ := x.accepted hcrypto hmp hdraw (Int32.not_lt.mpr hreading) hpacket
        hinput houtput
      exact ⟨_, haccepted⟩
    · intro hreading
      rw [TA.processSensorPacket, TA.recordCommand_fst_of_gate hinput houtput, hpacket,
        x.processPacket hcrypto, TA.encryptReading, if_pos rfl, if_pos hreading]
      rfl

/-- The packet of a recorded encryption. -/
def GcmTable.createdPacket {T : GcmTable} (plaintext : SensorPlaintext) (sequence : UInt32)
    (ciphertext : List UInt8) (tag : Vector UInt8 16)
    (h : (Host.sensorQuery plaintext sequence, ciphertext, tag) ∈ T.entries) :
    CreatedPacket T.ideal where
  plaintext := plaintext
  sequence := sequence
  packet := { Host.packetHeader plaintext sequence with
    ciphertext := write (.replicate _ 0) 0 ciphertext
    ciphertextLen := UInt32.ofNat sizeofSensorPlaintext
    tag := tag }
  created := Host.secureIiotCreatePacket_evp_iff.mpr
    ⟨ciphertext, tag, GcmTable.produce_of_mem h, rfl⟩

/-- The recorded packets, with readings 25000, 25001 and -1. -/
def demoPacket₁ : CreatedPacket demoTable.ideal :=
  GcmTable.createdPacket (demoReading 25000) 1 _ _ (.head _)

def demoPacket₂ : CreatedPacket demoTable.ideal :=
  GcmTable.createdPacket (demoReading 25001) 2 _ _ (.tail _ (.head _))

def demoPacket₃ : CreatedPacket demoTable.ideal :=
  GcmTable.createdPacket (demoReading (-1)) 3 _ _ (.tail _ (.tail _ (.head _)))

/-- They are all that is recorded under the fog key. -/
theorem demoPackets_log : ∀ query ∈ demoTable.ideal.log, query.key = TA.demoKfog1 →
    ∃ x ∈ [demoPacket₁, demoPacket₂, demoPacket₃],
      query = Host.sensorQuery x.plaintext x.sequence := by
  have hstorage : ∀ e ∈ demoStorageEntries, e.1.key ≠ TA.demoKfog1 := by decide
  intro query hquery hkey
  obtain ⟨e, he, rfl⟩ := List.mem_map.mp hquery
  rcases List.mem_append.mp he with hsensor | hseal
  · simp only [demoSensorEntries, List.mem_cons, List.not_mem_nil, or_false] at hsensor
    rcases hsensor with rfl | rfl | rfl
    · exact ⟨demoPacket₁, by simp, rfl⟩
    · exact ⟨demoPacket₂, by simp, rfl⟩
    · exact ⟨demoPacket₃, by simp, rfl⟩
  · exact absurd hkey (hstorage e hseal)

/-- The real build with the demo key, on a recorded packet that it accepts. -/
theorem demo_accepted (x : CreatedPacket demoTable.ideal)
    (hreading : ¬ x.plaintext.readingScaled < 0)
    {r : ℕ} (hpos : 0 < r) (hsmall : r < 2 ^ 32) (hcoprime : r.Coprime demoKey.n) :
    ∃ encrypted, TA.processSensorPacket ⟨true, demoKey.toPaillierKey⟩
      (TA.drawing r demoTable.ideal.tee) TA.recordParamTypes ⟨x.packet, sizeofSecureSensorPacket⟩
      ⟨.zero, sizeofSecureSensorResult⟩ =
        (.ok (), ⟨TA.finishResult x.plaintext encrypted, sizeofSecureSensorResult⟩) :=
  x.accepted rfl rfl ⟨r, TA.generateCoprimeR_drawing demoKey_n_gt hpos hsmall hcoprime⟩ hreading rfl
    le_rfl le_rfl

/-- Of the recorded packets, the first is accepted and the last is rejected. -/
theorem processSensorPacket_accepts_exactly_created_demo :
    (∃ output', TA.processSensorPacket ⟨true, demoKey.toPaillierKey⟩
      (TA.drawing 2 demoTable.ideal.tee) TA.recordParamTypes
      ⟨demoPacket₁.packet, sizeofSecureSensorPacket⟩ ⟨.zero, sizeofSecureSensorResult⟩ =
        (.ok (), output')) ∧
    (TA.processSensorPacket ⟨true, demoKey.toPaillierKey⟩ (TA.drawing 2 demoTable.ideal.tee)
      TA.recordParamTypes ⟨demoPacket₃.packet, sizeofSecureSensorPacket⟩
      ⟨.zero, sizeofSecureSensorResult⟩).1 = .error .badParameters := by
  have hexact := (processSensorPacket_accepts_exactly_created demoKey
    (w := TA.drawing 2 demoTable.ideal.tee) rfl demoPackets_log).2
  constructor
  · have hdraw : TA.generateCoprimeR (TA.drawing 2 demoTable.ideal.tee) demoKey.n = .ok 2 :=
      TA.generateCoprimeR_drawing demoKey_n_gt two_pos (by norm_num) demoKey_units.1
    exact (hexact demoPacket₁ (by simp) _ _ rfl le_rfl le_rfl).1 (by decide) rfl ⟨2, hdraw⟩
  · exact (hexact demoPacket₃ (by simp) _ _ rfl le_rfl le_rfl).2 (by decide)

/-! ## What the result tells -/

/-- The plaintext that the TA decrypts a packet to. -/
def decryptedPlaintext (crypto : TeeCrypto) (p : SecureSensorPacket) :
    Except TEEError SensorPlaintext :=
  SensorPlaintext.ofBytes <$> TA.aesGcmDecryptTa crypto TA.demoKfog1 p.nonce
    (TA.buildMetadataAad p) (p.ciphertext.toList.take p.ciphertextLen.toNat) p.tag
    sizeofSensorPlaintext

theorem CreatedPacket.decryptedPlaintext {I : IdealGcm} (x : CreatedPacket I) :
    decryptedPlaintext I.tee x.packet = .ok x.plaintext := by
  rw [SecureIIoT.decryptedPlaintext, x.decrypt]
  exact congrArg Except.ok (SensorPlaintext.ofBytes_toBytes x.plaintext)

/-- Two results have the same fields but for the bytes of the Paillier ciphertext. -/
def AgreeOffCiphertext (result result' : SecureSensorResult) : Prop :=
  { result with paillierCiphertext := result'.paillierCiphertext } = result'

/-- What an accepted packet leaves: its plaintext, and the encryption of its reading. -/
theorem result_of_accepted {ta : TaBuild} {w : TeeWorld} {paramTypes : UInt32}
    {input : MemRef SecureSensorPacket} {output output' : MemRef SecureSensorResult}
    {d : SensorPlaintext}
    (h : TA.processSensorPacket ta w paramTypes input output = (.ok (), output'))
    (hd : decryptedPlaintext w.crypto input.buffer = .ok d) :
    ∃ encrypted, TA.encryptReading ta w d .zero = (.ok (), encrypted) ∧
      output'.buffer = TA.finishResult d encrypted := by
  obtain ⟨-, hbody, -⟩ := TA.recordCommand_ok_iff.mp h
  obtain ⟨-, decrypted, hdecrypt, -, -, encrypted, henc, hresult⟩ :=
    TA.processPacket_ok_iff.mp hbody
  have hplain : SensorPlaintext.ofBytes decrypted = d := by
    rw [decryptedPlaintext, hdecrypt] at hd
    exact Except.ok.inj hd
  rw [hplain] at henc hresult
  exact ⟨encrypted, henc, hresult⟩

/-- In the real build, that is the plaintext and the bytes of the Paillier ciphertext. -/
theorem result_of_accepted_real {ta : TaBuild} {w : TeeWorld} {paramTypes : UInt32}
    {input : MemRef SecureSensorPacket} {output output' : MemRef SecureSensorResult}
    {d : SensorPlaintext} (hta : ta.realPaillier = true)
    (h : TA.processSensorPacket ta w paramTypes input output = (.ok (), output'))
    (hd : decryptedPlaintext w.crypto input.buffer = .ok d) :
    ∃ paillierCiphertext, output'.buffer = TA.finishResult d { SecureSensorResult.zero with
      paillierCiphertext := paillierCiphertext
      paillierCiphertextLen := 128
      realPaillierEnabled := 1 } := by
  obtain ⟨encrypted, henc, hresult⟩ := result_of_accepted h hd
  obtain ⟨-, out, hout, rfl⟩ := (TA.encryptReading_real_ok_iff hta).mp henc
  obtain ⟨-, -, -, -, hlen⟩ := TA.paillierTaEncryptRealU32_ok hout
  rw [hresult, hlen]
  exact ⟨out.ciphertext, rfl⟩

/-- Of two packets that the real build accepts, whose plaintexts differ in nothing but the
reading, the results agree outside the Paillier ciphertext exactly if the readings are
equal, whatever was drawn. -/
theorem result_agrees_iff {ta : TaBuild} (hta : ta.realPaillier = true) {w w' : TeeWorld}
    {paramTypes paramTypes' : UInt32} {input input' : MemRef SecureSensorPacket}
    {output₀ output output₀' output' : MemRef SecureSensorResult} {d d' : SensorPlaintext}
    (h : TA.processSensorPacket ta w paramTypes input output₀ = (.ok (), output))
    (h' : TA.processSensorPacket ta w' paramTypes' input' output₀' = (.ok (), output'))
    (hd : decryptedPlaintext w.crypto input.buffer = .ok d)
    (hd' : decryptedPlaintext w'.crypto input'.buffer = .ok d')
    (hsame : { d with readingScaled := d'.readingScaled } = d') :
    AgreeOffCiphertext output.buffer output'.buffer ↔ d.readingScaled = d'.readingScaled := by
  obtain ⟨_, hresult⟩ := result_of_accepted_real hta h hd
  obtain ⟨_, hresult'⟩ := result_of_accepted_real hta h' hd'
  rw [AgreeOffCiphertext, hresult, hresult', ← hsame]
  constructor
  · intro hagree
    exact toUInt32_inj.mp (congrArg SecureSensorResult.scaledValue hagree)
  · intro hreading
    simp [TA.finishResult, hreading]

/-- The first recorded packet, with two different draws. -/
theorem result_agrees_iff_demo :
    ∃ output output', TA.processSensorPacket ⟨true, demoKey.toPaillierKey⟩
        (TA.drawing 2 demoTable.ideal.tee) TA.recordParamTypes
        ⟨demoPacket₁.packet, sizeofSecureSensorPacket⟩ ⟨.zero, sizeofSecureSensorResult⟩ =
          (.ok (), output) ∧
      TA.processSensorPacket ⟨true, demoKey.toPaillierKey⟩
        (TA.drawing 3 demoTable.ideal.tee) TA.recordParamTypes
        ⟨demoPacket₁.packet, sizeofSecureSensorPacket⟩ ⟨.zero, sizeofSecureSensorResult⟩ =
          (.ok (), output') ∧
      AgreeOffCiphertext output.buffer output'.buffer := by
  obtain ⟨_, h⟩ := demo_accepted demoPacket₁ (by decide) two_pos (by norm_num) demoKey_units.1
  obtain ⟨_, h'⟩ := demo_accepted demoPacket₁ (by decide) three_pos (by norm_num)
    demoKey_units.2.1
  exact ⟨_, _, h, h', (result_agrees_iff rfl h h' demoPacket₁.decryptedPlaintext
    demoPacket₁.decryptedPlaintext rfl).mpr rfl⟩

/-- The recorded packets with readings 25000 and 25001, with the same draw: the result names
the reading. -/
theorem result_disagrees_demo :
    ∃ output output', TA.processSensorPacket ⟨true, demoKey.toPaillierKey⟩
        (TA.drawing 2 demoTable.ideal.tee) TA.recordParamTypes
        ⟨demoPacket₁.packet, sizeofSecureSensorPacket⟩ ⟨.zero, sizeofSecureSensorResult⟩ =
          (.ok (), output) ∧
      TA.processSensorPacket ⟨true, demoKey.toPaillierKey⟩
        (TA.drawing 2 demoTable.ideal.tee) TA.recordParamTypes
        ⟨demoPacket₂.packet, sizeofSecureSensorPacket⟩ ⟨.zero, sizeofSecureSensorResult⟩ =
          (.ok (), output') ∧
      decryptedPlaintext demoTable.ideal.tee demoPacket₁.packet = .ok (demoReading 25000) ∧
      decryptedPlaintext demoTable.ideal.tee demoPacket₂.packet = .ok (demoReading 25001) ∧
      output.buffer.scaledValue = 25000 ∧ output'.buffer.scaledValue = 25001 ∧
      ¬ AgreeOffCiphertext output.buffer output'.buffer := by
  obtain ⟨_, h⟩ := demo_accepted demoPacket₁ (by decide) two_pos (by norm_num) demoKey_units.1
  obtain ⟨_, h'⟩ := demo_accepted demoPacket₂ (by decide) two_pos (by norm_num) demoKey_units.1
  refine ⟨_, _, h, h', demoPacket₁.decryptedPlaintext, demoPacket₂.decryptedPlaintext, rfl, rfl, ?_⟩
  intro hagree
  have hvalue : (25000 : UInt32) = 25001 := congrArg SecureSensorResult.scaledValue hagree
  exact absurd hvalue (by decide)

end SecureIIoT
