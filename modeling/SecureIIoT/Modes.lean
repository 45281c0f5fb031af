import SecureIIoT.Aggregation
import SecureIIoT.Fog
import SecureIIoT.Storage

/-!
# Modes of aggregation

A build of the TA encrypts readings in one mode, real or mock; a storage request says in
which mode its aggregate is.  The host can aggregate the results of accepted packets for
either.

A request in real mode is refused by the mock build, and seals the sum of the readings in
the real one.  A request in mock mode is never refused: the real build seals zero, and
the mock build the sum of what the mock encryption made of the readings
(`modesAgree_iff`).
-/

namespace SecureIIoT

open ByteString

/-! ## Accepted packets -/

/-- A packet with a reading that is not negative, and its run through the fog command. -/
structure AcceptedPacket (ta : TaBuild) where
  world : TeeWorld
  paramTypes : UInt32
  input : MemRef SecureSensorPacket
  output₀ : MemRef SecureSensorResult
  output : MemRef SecureSensorResult
  plaintext : SensorPlaintext
  accepted : TA.processSensorPacket ta world paramTypes input output₀ = (.ok (), output)
  decrypts : decryptedPlaintext world.crypto input.buffer = .ok plaintext
  nonneg : ¬ plaintext.readingScaled < 0

namespace AcceptedPacket

variable {ta : TaBuild} (x : AcceptedPacket ta)

def result : SecureSensorResult := x.output.buffer

def reading : ℕ := x.plaintext.readingScaled.toInt.toNat

/-- What the mock encryption adds to the reading. -/
def offset : ℕ :=
  100 * x.plaintext.sensorId.toNat + 10 * x.plaintext.windowId.toNat + x.plaintext.fogId.toNat

theorem toNat_readingScaled : x.plaintext.readingScaled.toUInt32.toNat = x.reading := by
  rw [reading, ← cast_toUInt32_of_nonneg x.nonneg, Int.toNat_natCast]

/-- In the real build, the result holds a ciphertext of the reading, and no mock one. -/
theorem result_real {k : DemoSizedKey} (x : AcceptedPacket ⟨true, k.toPaillierKey⟩) :
    Host.EncodesMessage k.toGeneratedKey x.reading
        (x.result.paillierCiphertext.toList.take x.result.paillierCiphertextLen.toNat) ∧
      x.result.fakePaillierCiphertext = 0 := by
  obtain ⟨encrypted, henc, hresult⟩ := result_of_accepted x.accepted x.decrypts
  obtain ⟨-, ciphertext, c, hc, hbytes, rfl⟩ := TA.encryptReading_real_ok henc
  rw [toNat_readingScaled] at hc
  have htake : ciphertext.toList.take 128 = ciphertext.toList :=
    List.take_of_length_le Vector.length_toList.le
  have hvalue : ofBE ciphertext.toList = c := by rw [hbytes, ofBE_toBE (hc.lt.trans k.n2_lt)]
  rw [result, hresult]
  refine ⟨?_, rfl⟩
  change Host.EncodesMessage _ _ (ciphertext.toList.take 128)
  rw [htake]
  exact ⟨Host.length_toList_le ciphertext, hvalue ▸ hc⟩

/-- In the mock build, the mock ciphertext is the reading and its offset. -/
theorem result_mock {key : PaillierKey} (x : AcceptedPacket ⟨false, key⟩) :
    x.result.fakePaillierCiphertext.toNat = (x.reading + x.offset) % 2 ^ 32 := by
  obtain ⟨encrypted, henc, hresult⟩ := result_of_accepted x.accepted x.decrypts
  obtain ⟨-, rfl⟩ := Prod.mk.inj henc
  have hfake : x.result.fakePaillierCiphertext = TA.paillierTaEncryptMock x.plaintext.sensorId
      x.plaintext.fogId x.plaintext.windowId x.plaintext.readingScaled := by
    rw [result, hresult]
    rfl
  rw [hfake, TA.paillierTaEncryptMock, offset, ← toNat_readingScaled]
  simp only [UInt32.toNat_add, UInt32.toNat_mul, UInt32.reduceToNat]
  omega

end AcceptedPacket

/-! ## Aggregation of their results -/

section Aggregate

variable {k : DemoSizedKey} {metadata : StoragePrepInput}

/-- The mock aggregate of the results. -/
def aggregateMock (results : List SecureSensorResult) : UInt32 :=
  results.foldl (fun aggregate result ↦
    Host.paillierHostAddCiphertextMock aggregate result.fakePaillierCiphertext)
    Host.paillierHostInitAggregateMock

/-- A storage request for the results in the mode given, with the other fields as they are.
In real mode there may be none, if an aggregation or the serialisation fails. -/
def storageRequest (key : PaillierKey) (metadata : StoragePrepInput)
    (results : List SecureSensorResult) : (real : Bool) → Option StoragePrepInput
  | false => some { metadata with
      fakePaillierAggregate := aggregateMock results
      realPaillierEnabled := 0 }
  | true => do
      let c ← Host.aggregateReal key Host.paillierHostInitAggregateReal (results.map fun result ↦
        result.paillierCiphertext.toList.take result.paillierCiphertextLen.toNat)
      let bytes ← Host.paillierHostBnToFixedBytes c paillierCiphertextMax
      return { metadata with
        paillierAggregate := write metadata.paillierAggregate 0 bytes
        paillierAggregateLen := 128
        realPaillierEnabled := 1 }

/-- The sum of the readings. -/
def readingSum {ta : TaBuild} (packets : List (AcceptedPacket ta)) : ℕ :=
  (packets.map (·.reading)).sum

/-- The sum of what the mock encryption adds to them. -/
def offsetSum {ta : TaBuild} (packets : List (AcceptedPacket ta)) : ℕ :=
  (packets.map (·.offset)).sum

/-- Adding words adds their values, modulo `2 ^ 32`. -/
theorem toNat_foldl_add {α : Type} (f : α → UInt32) (l : List α) (start : UInt32) :
    (l.foldl (fun acc x ↦ acc + f x) start).toNat =
      (start.toNat + (l.map fun x ↦ (f x).toNat).sum) % 2 ^ 32 := by
  induction l generalizing start with
  | nil =>
      rw [List.foldl_nil, List.map_nil, List.sum_nil, Nat.add_zero]
      exact (Nat.mod_eq_of_lt start.toNat_lt).symm
  | cons x l ih =>
      rw [List.foldl_cons, ih, List.map_cons, List.sum_cons, UInt32.toNat_add, Nat.mod_add_mod,
        Nat.add_assoc]

/-- In the mock build, the mock aggregate is the sum of the readings and the offsets. -/
theorem aggregateMock_mock {key : PaillierKey} (packets : List (AcceptedPacket ⟨false, key⟩)) :
    (aggregateMock (packets.map (·.result))).toNat =
      (readingSum packets + offsetSum packets) % 2 ^ 32 := by
  have hfold := toNat_foldl_add (fun x : AcceptedPacket ⟨false, key⟩ ↦
    x.result.fakePaillierCiphertext) packets Host.paillierHostInitAggregateMock
  have hsum : (packets.map fun x ↦ x.result.fakePaillierCiphertext.toNat).sum ≡
      readingSum packets + offsetSum packets [MOD 2 ^ 32] := by
    rw [readingSum, offsetSum, ← List.sum_map_add]
    induction packets with
    | nil => rfl
    | cons x packets ih =>
        rw [List.map_cons, List.map_cons, List.sum_cons, List.sum_cons, x.result_mock]
        exact (Nat.mod_modEq _ _).add (ih (toNat_foldl_add _ _ _))
  rw [aggregateMock, List.foldl_map]
  refine hfold.trans ?_
  rw [Host.paillierHostInitAggregateMock, UInt32.toNat_zero, Nat.zero_add]
  exact hsum

/-- So it is the sum of the readings exactly if the offsets vanish. -/
theorem aggregateMock_eq_sum_iff {key : PaillierKey}
    (packets : List (AcceptedPacket ⟨false, key⟩)) :
    aggregateMock (packets.map (·.result)) = UInt32.ofNat (readingSum packets) ↔
      2 ^ 32 ∣ offsetSum packets := by
  rw [← UInt32.toNat_inj, aggregateMock_mock, UInt32.toNat_ofNat']
  constructor
  · intro h
    have hzero : readingSum packets + offsetSum packets ≡ readingSum packets + 0 [MOD 2 ^ 32] := h
    exact Nat.modEq_zero_iff_dvd.mp (hzero.add_left_cancel' _)
  · rintro ⟨d, hd⟩
    rw [hd, Nat.add_mul_mod_self_left]

/-- In the real build, the mock aggregate is zero. -/
theorem aggregateMock_real (packets : List (AcceptedPacket ⟨true, k.toPaillierKey⟩)) :
    aggregateMock (packets.map (·.result)) = 0 := by
  rw [aggregateMock, List.foldl_map]
  induction packets with
  | nil => rfl
  | cons x packets ih =>
      rw [List.foldl_cons, x.result_real.2]
      exact ih

variable (metadata) in
/-- In the real build, there is a request in real mode, and it carries the sum modulo `n`, if
that has 32 bits. -/
theorem storageRequest_real (packets : List (AcceptedPacket ⟨true, k.toPaillierKey⟩)) :
    ∃ input, storageRequest k.toPaillierKey metadata (packets.map (·.result)) true = some input ∧
      ∀ a, CarriesAggregate true k.toGeneratedKey .exact input a ↔
        a.toNat = readingSum packets % k.n := by
  have hmessages : List.Forall₂ (Host.EncodesMessage k.toGeneratedKey) (packets.map (·.reading))
      ((packets.map (·.result)).map fun result ↦
        result.paillierCiphertext.toList.take result.paillierCiphertextLen.toNat) := by
    rw [List.map_map, List.forall₂_map_left_iff, List.forall₂_map_right_iff, List.forall₂_same]
    exact fun x _ ↦ x.result_real.1
  have hinit : k.IsCiphertext 0 Host.paillierHostInitAggregateReal := k.isCiphertext_one
  obtain ⟨c, hfold, hc⟩ := Host.aggregateReal_isCiphertext hmessages hinit
  rw [zero_add, ← readingSum] at hc
  obtain ⟨bytes, hbytes, hvalue⟩ := exists_serialised hc
  refine ⟨{ metadata with
    paillierAggregate := bytes
    paillierAggregateLen := 128
    realPaillierEnabled := 1 }, ?_, fun a ↦ ?_⟩
  · simp only [storageRequest, hfold, hbytes, Option.bind_eq_bind, Option.bind_some, write_toList]
    rfl
  · have hone : (1 : UInt32) ≠ 0 := by decide
    rw [carriesAggregate_real_iff hone, hvalue]
    constructor
    · rintro ⟨-, -, hlt, ha⟩
      rw [← ha.modEq hc, Nat.mod_eq_of_lt hlt]
    · intro ha
      refine ⟨⟨rfl, rfl⟩, fun _ _ ↦ rfl, ha ▸ Nat.mod_lt _ k.n_pos, ?_⟩
      exact hc.congr (ha ▸ (Nat.mod_modEq _ _).symm)

end Aggregate

/-! ## Which requests are served rightly -/

/-- A request for accepted packets in the mode given is served, if at all, in the mode of the
build and with the sum of the readings. -/
def ModesAgree (ta : TaBuild) (w : TeeWorld) (metadata : StoragePrepInput)
    (packets : List (AcceptedPacket ta)) (real : Bool) : Prop :=
  ∀ input, storageRequest ta.key metadata (packets.map (·.result)) real = some input →
    ∀ query, (hostStorageRequest w input).Seals ta query →
      real = ta.realPaillier ∧ query = TA.storageQuery input (UInt32.ofNat (readingSum packets))

theorem storageQuery_inj {input : StoragePrepInput} {a b : UInt32} :
    TA.storageQuery input a = TA.storageQuery input b ↔ a = b :=
  ⟨fun h ↦ (storageQuery_msg_eq_iff.mp (congrArg Aead.Query.msg h)).2.1, congrArg _⟩

section ModesAgree

variable {realPaillier : Bool} {k : DemoSizedKey} {w : TeeWorld} {metadata : StoragePrepInput}

/-- Where AES-GCM does not fail, a request is served with the aggregate it carries. -/
theorem modesAgree_iff_carries {real : Bool} (hcrypto : w.crypto.Reliable)
    {packets : List (AcceptedPacket ⟨realPaillier, k.toPaillierKey⟩)} {input : StoragePrepInput}
    (hinput : storageRequest k.toPaillierKey metadata (packets.map (·.result)) real = some input) :
    ModesAgree ⟨realPaillier, k.toPaillierKey⟩ w metadata packets real ↔
      ∀ a, CarriesAggregate realPaillier k.toGeneratedKey w.mp input a →
        real = realPaillier ∧ a = UInt32.ofNat (readingSum packets) := by
  constructor
  · intro h a ha
    obtain ⟨hbuild, hquery⟩ :=
      h input hinput _ ((StorageRequest.seals_host_iff hcrypto).mpr ⟨a, ha, rfl⟩)
    exact ⟨hbuild, storageQuery_inj.mp hquery⟩
  · intro h input' hinput' query hseals
    cases hinput.symm.trans hinput'
    obtain ⟨a, ha, rfl⟩ := (StorageRequest.seals_host_iff hcrypto).mp hseals
    obtain ⟨hbuild, hsum⟩ := h a ha
    exact ⟨hbuild, storageQuery_inj.mpr hsum⟩

/-- In mock mode, the sum of the mock ciphertexts has to be that of the readings. -/
theorem modesAgree_mock_iff (hcrypto : w.crypto.Reliable)
    (packets : List (AcceptedPacket ⟨realPaillier, k.toPaillierKey⟩)) :
    ModesAgree ⟨realPaillier, k.toPaillierKey⟩ w metadata packets false ↔
      realPaillier = false ∧
        aggregateMock (packets.map (·.result)) = UInt32.ofNat (readingSum packets) := by
  rw [modesAgree_iff_carries hcrypto rfl]
  constructor
  · intro h
    obtain ⟨hbuild, hsum⟩ := h _ ((carriesAggregate_mock_iff rfl).mpr rfl)
    exact ⟨hbuild.symm, hsum⟩
  · rintro ⟨hbuild, hsum⟩ a ha
    have haggregate := (carriesAggregate_mock_iff rfl).mp ha
    exact ⟨hbuild.symm, haggregate.symm.trans hsum⟩

/-- In real mode, the mock build refuses every request. -/
theorem modesAgree_real_of_mock (packets : List (AcceptedPacket ⟨false, k.toPaillierKey⟩)) :
    ModesAgree ⟨false, k.toPaillierKey⟩ w metadata packets true := by
  intro input hinput query hseals
  obtain ⟨a, haccepted, -⟩ := StorageRequest.seals_iff.mp hseals
  obtain ⟨c, -, hbytes⟩ := Option.bind_eq_some_iff.mp hinput
  obtain ⟨bytes, -, hrequest⟩ := Option.bind_eq_some_iff.mp hbytes
  cases hrequest
  have hone : (1 : UInt32) ≠ 0 := by decide
  cases ((carriesAggregate_real_iff hone).mp haccepted.carries).1.1

/-- In real mode, the real build seals the sum modulo `n`, if it has 32 bits. -/
theorem modesAgree_real_iff (hmp : w.mp = .exact) (hcrypto : w.crypto.Reliable)
    (packets : List (AcceptedPacket ⟨true, k.toPaillierKey⟩)) :
    ModesAgree ⟨true, k.toPaillierKey⟩ w metadata packets true ↔
      (readingSum packets % k.n < 2 ^ 32 →
        readingSum packets % k.n = readingSum packets % 2 ^ 32) := by
  obtain ⟨input, hinput, hcarries⟩ := storageRequest_real metadata packets
  rw [modesAgree_iff_carries hcrypto hinput, hmp]
  constructor
  · intro h hsmall
    have hvalue := UInt32.toNat_ofNat_of_lt' hsmall
    obtain ⟨-, hsum⟩ := h _ ((hcarries _).mpr hvalue)
    rw [← UInt32.toNat_inj, hvalue, UInt32.toNat_ofNat'] at hsum
    exact hsum
  · intro h a ha
    have hvalue := (hcarries a).mp ha
    refine ⟨rfl, ?_⟩
    rw [← UInt32.toNat_inj, hvalue, UInt32.toNat_ofNat']
    exact h (hvalue ▸ a.toNat_lt)

end ModesAgree

/-- In either build, a request in real mode is served rightly unless the sum wraps around `n`
to a number of 32 bits, and a request in mock mode exactly if the build is the mock one
and the offsets vanish modulo `2 ^ 32`. -/
theorem modesAgree_iff (realPaillier : Bool) (k : DemoSizedKey) {w : TeeWorld} (hmp : w.mp = .exact)
    (hcrypto : w.crypto.Reliable) (metadata : StoragePrepInput)
    (packets : List (AcceptedPacket ⟨realPaillier, k.toPaillierKey⟩)) (real : Bool) :
    ModesAgree ⟨realPaillier, k.toPaillierKey⟩ w metadata packets real ↔
      (real = true → realPaillier = true → readingSum packets % k.n < 2 ^ 32 →
        readingSum packets % k.n = readingSum packets % 2 ^ 32) ∧
      (real = false → realPaillier = false ∧ 2 ^ 32 ∣ offsetSum packets) := by
  cases real with
  | false =>
      rw [modesAgree_mock_iff hcrypto]
      cases realPaillier with
      | false => simp [aggregateMock_eq_sum_iff]
      | true => simp
  | true =>
      cases realPaillier with
      | false => simpa using modesAgree_real_of_mock packets
      | true => simp [modesAgree_real_iff hmp hcrypto]

/-- The first recorded packet, as the real build accepts it. -/
theorem exists_demoAccepted : ∃ x : AcceptedPacket ⟨true, demoKey.toPaillierKey⟩,
    x.input.buffer = demoPacket₁.packet ∧ x.reading = 25000 := by
  have hreading : ¬ demoPacket₁.plaintext.readingScaled < 0 := by decide
  obtain ⟨_, h⟩ := demo_accepted demoPacket₁ hreading two_pos (by norm_num) demoKey_units.1
  exact ⟨{ accepted := h, decrypts := demoPacket₁.decryptedPlaintext, nonneg := hreading, .. }, rfl,
    rfl⟩

/-- Its aggregate in real mode is served rightly. -/
theorem modesAgree_iff_demo : ∃ x : AcceptedPacket ⟨true, demoKey.toPaillierKey⟩,
    x.input.buffer = demoPacket₁.packet ∧ x.reading = 25000 ∧
      ModesAgree ⟨true, demoKey.toPaillierKey⟩ (TA.drawing 2 demoTable.total)
        (demoRequest 0 1710000000999) [x] true := by
  obtain ⟨x, hpacket, hreading⟩ := exists_demoAccepted
  have hsum : readingSum [x] = 25000 := by
    rw [readingSum, List.map_singleton, hreading, List.sum_singleton]
  have hn : 25000 < demoKey.n := lt_trans (by norm_num) demoKey_n_gt
  refine ⟨x, hpacket, hreading,
    (modesAgree_iff true demoKey rfl GcmTable.total_reliable _ [x] true).mpr ⟨fun _ _ _ ↦ ?_, ?_⟩⟩
  · rw [hsum, Nat.mod_eq_of_lt hn]
    rfl
  · intro hmode
    cases hmode

/-- Its aggregate in mock mode is served too, and what is sealed is zero. -/
theorem not_modesAgree_demo : ∃ x : AcceptedPacket ⟨true, demoKey.toPaillierKey⟩,
    x.input.buffer = demoPacket₁.packet ∧ x.reading = 25000 ∧ ∃ input,
      storageRequest demoKey.toPaillierKey (demoRequest 0 1710000000999) [x.result] false =
        some input ∧
      (hostStorageRequest (TA.drawing 2 demoTable.total) input).Seals ⟨true, demoKey.toPaillierKey⟩
        (TA.storageQuery input 0) ∧
      ¬ ModesAgree ⟨true, demoKey.toPaillierKey⟩ (TA.drawing 2 demoTable.total)
        (demoRequest 0 1710000000999) [x] false := by
  obtain ⟨x, hpacket, hreading⟩ := exists_demoAccepted
  have hseals (input : StoragePrepInput)
      (hinput : storageRequest demoKey.toPaillierKey (demoRequest 0 1710000000999) [x.result]
        false = some input) : (hostStorageRequest (TA.drawing 2 demoTable.total) input).Seals
          ⟨true, demoKey.toPaillierKey⟩ (TA.storageQuery input 0) := by
    cases hinput
    exact (StorageRequest.seals_host_iff GcmTable.total_reliable).mpr
      ⟨0, (carriesAggregate_mock_iff rfl).mpr (aggregateMock_real [x]), rfl⟩
  refine ⟨x, hpacket, hreading, _, rfl, hseals _ rfl, fun hagree ↦ ?_⟩
  obtain ⟨hbuild, -⟩ := hagree _ rfl _ (hseals _ rfl)
  cases hbuild

end SecureIIoT
