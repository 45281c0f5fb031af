import Mathlib.Data.List.Perm.Basic
import SecureIIoT.DemoKey
import SecureIIoT.Host.Paillier
import SecureIIoT.TA.Paillier

/-!
# Aggregation of ciphertexts

What the TA encrypts, the host multiplies together and the TA decrypts is the sum
(`aggregate_decrypts_to_sum`), in whatever order the ciphertexts are folded.

The fold itself takes any byte string.  Over a run of additions on arbitrary strings,
the aggregate stays a number that can be a ciphertext as long as every string that is
not too long has a number coprime to `n`, and no longer (`validRun_iff`).
-/

namespace SecureIIoT

open ByteString

/-! ## End to end -/

/-- A string that some successful encryption of a reading leaves, whatever the library
and the random draws did. -/
def EncryptsTo (k : DemoSizedKey) (reading : UInt32)
    (ciphertext : Vector UInt8 paillierCiphertextMax) : Prop :=
  ∃ w out outMaxLen out',
    TA.paillierTaEncryptRealU32 ⟨true, k.toPaillierKey⟩ w reading out outMaxLen = (.ok (), out') ∧
      out'.ciphertext = ciphertext

theorem EncryptsTo.encodesMessage {k : DemoSizedKey} {reading : UInt32}
    {ciphertext : Vector UInt8 paillierCiphertextMax} (h : EncryptsTo k reading ciphertext) :
    Host.EncodesMessage k.toGeneratedKey reading.toNat ciphertext.toList := by
  obtain ⟨w, out, outMaxLen, out', hout, rfl⟩ := h
  obtain ⟨c, hc, hlt, hbytes, -⟩ := TA.paillierTaEncryptRealU32_ok hout
  refine ⟨Host.length_toList_le _, ?_⟩
  rw [hbytes, ofBE_toBE hlt]
  exact TA.encryptNumber_isCiphertext rfl hc

/-- With a unit drawn and no faults, there is such a string. -/
theorem encryptsTo_of_draw (k : DemoSizedKey) {w : TeeWorld} {r : ℕ} (hmp : w.mp = .exact)
    (hr : TA.generateCoprimeR w k.n = .ok r) (reading : UInt32) (out : TA.CiphertextOut) :
    EncryptsTo k reading
      (TA.paillierTaEncryptRealU32 ⟨true, k.toPaillierKey⟩ w reading out 128).2.ciphertext := by
  obtain ⟨out', hout⟩ := TA.paillierTaEncryptRealU32_of_draw k hmp hr reading out
  exact ⟨w, out, 128, out', hout, congrArg (·.2.ciphertext) hout.symm⟩

/-- A ciphertext is serialised to 128 bytes that stand for it. -/
theorem exists_serialised {k : DemoSizedKey} {m c : ℕ} (h : k.IsCiphertext m c) :
    ∃ bytes : Vector UInt8 paillierCiphertextMax,
      Host.paillierHostBnToFixedBytes c paillierCiphertextMax = some bytes.toList ∧
        ofBE bytes.toList = c := by
  have hlt : c < 256 ^ paillierCiphertextMax := h.lt.trans k.n2_lt
  refine ⟨ofList (toBE paillierCiphertextMax c) (by simp), ?_, ?_⟩
  · rw [Host.paillierHostBnToFixedBytes_of_lt (by decide) hlt, toList_ofList]
  · rw [toList_ofList, ofBE_toBE hlt]

/-- The TA decrypts them. -/
theorem decrypt_serialised {k : DemoSizedKey} {m c : ℕ} (h : k.IsCiphertext m c) :
    ∃ bytes : Vector UInt8 paillierCiphertextMax,
      Host.paillierHostBnToFixedBytes c paillierCiphertextMax = some bytes.toList ∧
      TA.paillierTaDecryptRealU32 ⟨true, k.toPaillierKey⟩ .exact bytes 128 =
        if m % k.n < 2 ^ 32 then .ok (UInt32.ofNat (m % k.n)) else .error .overflow := by
  obtain ⟨bytes, hbytes, hvalue⟩ := exists_serialised h
  rw [← hvalue] at h
  exact ⟨bytes, hbytes, TA.paillierTaDecryptRealU32_of_isCiphertext h⟩

/-- For a key with more than 32 and at most 512 bits: the encryptions of any readings,
folded in any order, are serialised, and decrypt to the sum of the readings if that
has 32 bits, and to `OVERFLOW` if it has more but is below `n`. -/
theorem aggregate_decrypts_to_sum (k : DemoSizedKey) (hn : 2 ^ 32 < k.n) {readings : List UInt32}
    {ciphertexts folded : List (Vector UInt8 paillierCiphertextMax)}
    (henc : List.Forall₂ (EncryptsTo k) readings ciphertexts) (horder : ciphertexts.Perm folded) :
    ∃ c, ∃ bytes : Vector UInt8 paillierCiphertextMax,
      Host.aggregateReal k.toPaillierKey Host.paillierHostInitAggregateReal
        (folded.map Vector.toList) = some c ∧
      Host.paillierHostBnToFixedBytes c paillierCiphertextMax = some bytes.toList ∧
      ((readings.map UInt32.toNat).sum < 2 ^ 32 → ∃ m : UInt32,
        TA.paillierTaDecryptRealU32 ⟨true, k.toPaillierKey⟩ .exact bytes 128 = .ok m ∧
          m.toNat = (readings.map UInt32.toNat).sum) ∧
      (2 ^ 32 ≤ (readings.map UInt32.toNat).sum → (readings.map UInt32.toNat).sum < k.n →
        TA.paillierTaDecryptRealU32 ⟨true, k.toPaillierKey⟩ .exact bytes 128 =
          .error .overflow) := by
  obtain ⟨ordered, hperm, hfolded⟩ : ∃ ordered, readings.Perm ordered ∧
      List.Forall₂ (EncryptsTo k) ordered folded := by
    have hcomp := List.forall₂_comp_perm_eq_perm_comp_forall₂ (r := EncryptsTo k)
    exact (congrFun₂ hcomp readings folded).mp ⟨ciphertexts, henc, horder⟩
  have hsum : (ordered.map UInt32.toNat).sum = (readings.map UInt32.toNat).sum :=
    (hperm.map _).sum_eq.symm
  have hmessages : List.Forall₂ (Host.EncodesMessage k.toGeneratedKey) (ordered.map UInt32.toNat)
      (folded.map Vector.toList) := by
    rw [List.forall₂_map_left_iff, List.forall₂_map_right_iff]
    exact hfolded.imp fun _ _ h ↦ h.encodesMessage
  obtain ⟨c, hfold, hc⟩ := Host.aggregateReal_isCiphertext hmessages k.isCiphertext_one
  rw [zero_add, hsum] at hc
  obtain ⟨bytes, hbytes, hdecrypt⟩ := decrypt_serialised hc
  refine ⟨c, bytes, hfold, hbytes, ?_, ?_⟩
  · intro hsmall
    rw [Nat.mod_eq_of_lt (hsmall.trans hn), if_pos hsmall] at hdecrypt
    exact ⟨_, hdecrypt, UInt32.toNat_ofNat_of_lt' hsmall⟩
  · intro hlarge hlt
    rwa [Nat.mod_eq_of_lt hlt, if_neg (not_lt.mpr hlarge)] at hdecrypt

/-- The encryption of a reading under the demo key with the draw `r`. -/
def demoCiphertext (r : ℕ) (reading : UInt32) : Vector UInt8 paillierCiphertextMax :=
  (TA.paillierTaEncryptRealU32 ⟨true, demoKey.toPaillierKey⟩ (TA.drawing r IdealGcm.empty.tee)
    reading ⟨.replicate _ 0, 0⟩ 128).2.ciphertext

theorem demoCiphertext_encryptsTo {r : ℕ} (hpos : 0 < r) (hlt : r < 2 ^ 32)
    (hcoprime : r.Coprime demoKey.n) (reading : UInt32) :
    EncryptsTo demoKey reading (demoCiphertext r reading) :=
  encryptsTo_of_draw demoKey rfl (TA.generateCoprimeR_drawing demoKey_n_gt hpos hlt hcoprime)
    reading
    _

/-- The three demo readings, the last one folded first. -/
theorem aggregate_decrypts_to_sum_demo :
    ∃ c, ∃ bytes : Vector UInt8 paillierCiphertextMax,
      Host.aggregateReal demoKey.toPaillierKey Host.paillierHostInitAggregateReal
        ([demoCiphertext 5 18000, demoCiphertext 2 25000, demoCiphertext 3 30000].map
          Vector.toList) = some c ∧
      Host.paillierHostBnToFixedBytes c paillierCiphertextMax = some bytes.toList ∧
      ∃ m : UInt32, TA.paillierTaDecryptRealU32 ⟨true, demoKey.toPaillierKey⟩ .exact bytes 128 =
        .ok m ∧ m.toNat = 73000 := by
  have henc : List.Forall₂ (EncryptsTo demoKey) [25000, 30000, 18000]
      [demoCiphertext 2 25000, demoCiphertext 3 30000, demoCiphertext 5 18000] :=
    .cons (demoCiphertext_encryptsTo two_pos (by norm_num) demoKey_units.1 _)
      (.cons (demoCiphertext_encryptsTo three_pos (by norm_num) demoKey_units.2.1 _)
        (.cons (demoCiphertext_encryptsTo (by norm_num) (by norm_num) demoKey_units.2.2 _) .nil))
  have horder : List.Perm [demoCiphertext 2 25000, demoCiphertext 3 30000, demoCiphertext 5 18000]
      [demoCiphertext 5 18000, demoCiphertext 2 25000, demoCiphertext 3 30000] :=
    (List.Perm.cons _ (.swap _ _ _)).trans (.swap _ _ _)
  obtain ⟨c, bytes, hfold, hbytes, hsmall, -⟩ :=
    aggregate_decrypts_to_sum demoKey demoKey_n_gt henc horder
  exact ⟨c, bytes, hfold, hbytes, hsmall (by decide)⟩

/-! ## Arbitrary strings -/

/-- One call of `paillier_host_add_ciphertext_bytes_real`: the aggregate it is given, its
return value, and the aggregate it leaves. -/
structure AddCall where
  before : ℕ
  added : Bool
  after : ℕ
deriving DecidableEq

/-- The calls of a run that adds one string after the other. -/
def addRun (key : PaillierKey) : (aggregate : ℕ) → List (List UInt8) → List AddCall
  | _, [] => []
  | aggregate, ciphertext :: ciphertexts =>
      let out := Host.paillierHostAddCiphertextBytesReal key aggregate ciphertext
      ⟨aggregate, out.1, out.2⟩ :: addRun key out.2 ciphertexts

/-- A number that can be a ciphertext. -/
def ValidAggregate (key : PaillierKey) (c : ℕ) : Prop := (0 < c ∧ c < key.n2) ∧ c.Coprime key.n

/-- A call that is refused changes nothing; one that is not leaves a number that can be a
ciphertext. -/
def AddCall.Valid (key : PaillierKey) (call : AddCall) : Prop :=
  (call.added = false ∧ call.after = call.before) ∨
    (call.added = true ∧ ValidAggregate key call.after)

/-- Every call of the run from the initial aggregate is valid. -/
def ValidRun (key : PaillierKey) (ciphertexts : List (List UInt8)) : Prop :=
  ∀ call ∈ addRun key Host.paillierHostInitAggregateReal ciphertexts, call.Valid key

section ValidRun

variable {k : GeneratedKey} {aggregate : ℕ}

theorem validAggregate_mod_iff {c : ℕ} :
    ValidAggregate k.toPaillierKey (c % k.n2) ↔ c.Coprime k.n := by
  constructor
  · rintro ⟨-, h⟩
    exact GeneratedKey.coprime_mod_n2_iff.mp h
  · intro h
    have hc := GeneratedKey.coprime_mod_n2_iff.mpr h
    refine ⟨⟨Nat.pos_of_ne_zero fun hzero ↦ ?_, Nat.mod_lt _ k.n2_pos⟩, hc⟩
    rw [hzero, Nat.coprime_zero_left] at hc
    exact k.one_lt_n.ne' hc

/-- From an aggregate that is a unit, a call is valid if its string is too long or a unit,
and then leaves a unit. -/
theorem addCall_valid_iff (haggregate : aggregate.Coprime k.n) (ciphertext : List UInt8) :
    let out := Host.paillierHostAddCiphertextBytesReal k.toPaillierKey aggregate ciphertext
    (AddCall.Valid k.toPaillierKey ⟨aggregate, out.1, out.2⟩ ↔
      (ciphertext.length ≤ Host.intMax → (ofBE ciphertext).Coprime k.n)) ∧
    (AddCall.Valid k.toPaillierKey ⟨aggregate, out.1, out.2⟩ → out.2.Coprime k.n) := by
  by_cases hlen : ciphertext.length ≤ Host.intMax
  · have hiff : AddCall.Valid k.toPaillierKey
        ⟨aggregate, true, aggregate * ofBE ciphertext % k.n2⟩ ↔
          (aggregate * ofBE ciphertext).Coprime k.n := by
      simp [AddCall.Valid, validAggregate_mod_iff]
    rw [Host.paillierHostAddCiphertextBytesReal_of_length hlen]
    refine ⟨?_, fun h ↦ GeneratedKey.coprime_mod_n2_iff.mpr (hiff.mp h)⟩
    rw [hiff, Nat.coprime_mul_iff_left]
    exact ⟨fun h _ ↦ h.2, fun h ↦ ⟨haggregate, h hlen⟩⟩
  · have hbn : Host.paillierHostFixedBytesToBn ciphertext = none := if_pos (not_le.mp hlen)
    rw [Host.paillierHostAddCiphertextBytesReal, hbn]
    refine ⟨iff_of_true (.inl ⟨rfl, rfl⟩) fun h ↦ absurd h hlen, fun _ ↦ haggregate⟩

/-- A run from a unit is valid exactly if every string in it is too long or a unit. -/
theorem addRun_valid_iff (haggregate : aggregate.Coprime k.n) (ciphertexts : List (List UInt8)) :
    (∀ call ∈ addRun k.toPaillierKey aggregate ciphertexts, call.Valid k.toPaillierKey) ↔
      ∀ ciphertext ∈ ciphertexts, ciphertext.length ≤ Host.intMax →
        (ofBE ciphertext).Coprime k.n := by
  induction ciphertexts generalizing aggregate with
  | nil => simp [addRun]
  | cons ciphertext ciphertexts ih =>
      obtain ⟨hvalid, hunit⟩ := addCall_valid_iff haggregate ciphertext
      rw [addRun, List.forall_mem_cons, List.forall_mem_cons, ← hvalid]
      constructor
      · rintro ⟨hcall, hrun⟩
        exact ⟨hcall, (ih (hunit hcall)).mp hrun⟩
      · rintro ⟨hcall, hrest⟩
        exact ⟨hcall, (ih (hunit hcall)).mpr hrest⟩

end ValidRun

/-- Over any run of additions from the initial aggregate, every call is valid exactly if
every string of at most `INT_MAX` bytes has a number coprime to `n`. -/
theorem validRun_iff (k : GeneratedKey) (ciphertexts : List (List UInt8)) :
    ValidRun k.toPaillierKey ciphertexts ↔
      ∀ ciphertext ∈ ciphertexts, ciphertext.length ≤ Host.intMax →
        (ofBE ciphertext).Coprime k.n :=
  addRun_valid_iff (Nat.coprime_one_left _) ciphertexts

/-- One string of zero bytes is added, and leaves zero. -/
theorem not_validRun_zero :
    addRun demoKey.toPaillierKey Host.paillierHostInitAggregateReal [List.replicate 128 0] =
        [⟨1, true, 0⟩] ∧
      ¬ ValidRun demoKey.toPaillierKey [List.replicate 128 0] := by
  have hrun : addRun demoKey.toPaillierKey Host.paillierHostInitAggregateReal
      [List.replicate 128 0] = [⟨1, true, 0⟩] := by decide +kernel
  refine ⟨hrun, fun hvalid ↦ ?_⟩
  rw [ValidRun, hrun] at hvalid
  rcases hvalid _ (List.mem_singleton_self _) with ⟨hadded, -⟩ | ⟨-, ⟨hpos, -⟩, -⟩
  · cases hadded
  · exact hpos.ne' rfl

end SecureIIoT
