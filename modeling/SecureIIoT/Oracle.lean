import SecureIIoT.DemoKey
import SecureIIoT.Host.Paillier
import SecureIIoT.RecordedGcm

/-!
# The storage command as an oracle

Outside the ciphertext and the tag of the cloud object, a call of the storage command shows
the return code of the decryption and nothing else (`visible_invoke`).  That code says
whether the message has 32 bits.

Normal World can shift the message of the ciphertext it holds by multiplying it with a
ciphertext of its own.  A sequence of such requests tells two aggregates apart exactly if
some shift takes one of them, and not the other, out of the 32 bits
(`observations_eq_iff`), and any two aggregates are told apart by one request
(`decryptCode_of_shift`).
-/

namespace SecureIIoT

open ByteString

/-! ## What a call shows -/

/-- The outcome of a call, with the ciphertext and the tag of the cloud object blanked. -/
def visible (out : TEEResult × MemRef StorageCloudObject) : TEEResult × MemRef StorageCloudObject :=
  (out.1, { out.2 with buffer := { out.2.buffer with
    ciphertext := .replicate _ 0
    tag := .replicate _ 0 } })

/-- The return code of the decryption that a request asks for. -/
def decryptCode (ta : TaBuild) (w : TeeWorld) (input : StoragePrepInput) : TEEResult :=
  (fun _ ↦ ()) <$> TA.storageAggregate ta w input

/-- What is visible of a call for the window and fog count, by the code of its decryption. -/
def visibleOf (windowId fogCount : UInt32) : TEEResult → TEEResult × MemRef StorageCloudObject
  | .error e => (.error e, ⟨{ StorageCloudObject.zero with status := 2 }, sizeofStorageCloudObject⟩)
  | .ok () => (.ok (), ⟨{ StorageCloudObject.zero with
      windowId := windowId
      nonce := TA.buildStorageNonce windowId fogCount
      ciphertextLen := 16 }, sizeofStorageCloudObject⟩)

/-- A call shows the code of the decryption. -/
theorem visible_invoke {ta : TaBuild} {w : TeeWorld} {input : StoragePrepInput}
    (hcrypto : w.crypto.Reliable) :
    visible (Host.secureIiotInvokeStoragePrep ta w input) =
      visibleOf input.windowId input.fogCount (decryptCode ta w input) := by
  rw [Host.secureIiotInvokeStoragePrep_eq, TA.prepareObject, decryptCode]
  cases TA.storageAggregate ta w input with
  | error e => rfl
  | ok a =>
      obtain ⟨ciphertext, tag, hseal, hlen⟩ :=
        TA.exists_aesGcmEncryptTa hcrypto (TA.length_storageQuery_le input a)
      rw [TA.length_storageQuery] at hlen
      dsimp only
      rw [hseal]
      dsimp only
      rw [hlen]
      rfl

theorem visibleOf_inj {windowId fogCount : UInt32} {code code' : TEEResult} :
    visibleOf windowId fogCount code = visibleOf windowId fogCount code' ↔ code = code' := by
  have hfst (code : TEEResult) : (visibleOf windowId fogCount code).1 = code := by
    rcases code with e | ⟨⟩
    · rfl
    · rfl
  refine ⟨fun h ↦ ?_, congrArg _⟩
  rw [← hfst code, h, hfst]

/-! ## Shifted ciphertexts -/

/-- A request in real mode that Normal World makes of the ciphertext it holds: the number it
multiplies it with, the other fields, and what the call meets. -/
structure MauledRequest where
  multiplier : ℕ
  metadata : StoragePrepInput
  real_mode : metadata.realPaillierEnabled ≠ 0
  world : TeeWorld

/-- The product modulo `n2`, as 128 bytes. -/
def MauledRequest.bytes (q : MauledRequest) (key : PaillierKey) (c : ℕ) :
    Vector UInt8 paillierCiphertextMax :=
  ofList (toBE _ (Host.paillierHostAddCiphertextsReal key c q.multiplier)) (length_toBE _ _)

def MauledRequest.input (q : MauledRequest) (key : PaillierKey) (c : ℕ) : StoragePrepInput :=
  { q.metadata with
    paillierAggregate := q.bytes key c
    paillierAggregateLen := 128 }

/-- What Normal World sees of a sequence of requests, with the ciphertext `c` in hand. -/
def observations (ta : TaBuild) (c : ℕ) (requests : List MauledRequest) :
    List (TEEResult × MemRef StorageCloudObject) :=
  requests.map fun q ↦ visible (Host.secureIiotInvokeStoragePrep ta q.world (q.input ta.key c))

section Mauled

variable {realPaillier : Bool} {k : DemoSizedKey} {q : MauledRequest} {m m₀ m₁ j c c₀ c₁ : ℕ}

/-- A request in real mode is decrypted as such. -/
theorem storageAggregate_mauled {ta : TaBuild} {key : PaillierKey} :
    TA.storageAggregate ta q.world (q.input key c) =
      TA.paillierTaDecryptRealU32 ta q.world.mp (q.bytes key c) 128 := by
  have hflag : (q.input key c).realPaillierEnabled = q.metadata.realPaillierEnabled := by
    rw [MauledRequest.input]
  rw [TA.storageAggregate, hflag, if_neg q.real_mode]
  rfl

/-- The mock build refuses it. -/
theorem decryptCode_mock :
    decryptCode ⟨false, k.toPaillierKey⟩ q.world (q.input k.toPaillierKey c) =
      .error .notImplemented := by
  have hrefused : TA.paillierTaDecryptRealU32 ⟨false, k.toPaillierKey⟩ q.world.mp
      (q.bytes k.toPaillierKey c) 128 = .error .notImplemented := by
    rw [TA.paillierTaDecryptRealU32, require_of_not Bool.false_ne_true, except_error_bind]
  rw [decryptCode, storageAggregate_mauled, hrefused]
  rfl

/-- The bytes stand for the product. -/
theorem ofBE_bytes : ofBE (q.bytes k.toPaillierKey c).toList =
    c * (q.multiplier % k.n2) % k.n2 := by
  have hlt : c * q.multiplier % k.n2 < 256 ^ paillierCiphertextMax :=
    (Nat.mod_lt _ k.n2_pos).trans k.n2_lt
  rw [MauledRequest.bytes, toList_ofList, Host.paillierHostAddCiphertextsReal, ofBE_toBE hlt,
    Nat.mul_mod_mod]

/-- A multiplier that is a ciphertext shifts the message; the code says whether the shifted
message has 32 bits. -/
theorem decryptCode_of_isCiphertext (hmp : q.world.mp = .exact) (hc : k.IsCiphertext m c)
    (hj : k.IsCiphertext j (q.multiplier % k.n2)) :
    decryptCode ⟨true, k.toPaillierKey⟩ q.world (q.input k.toPaillierKey c) =
      require ((m + j) % k.n < 2 ^ 32) .overflow := by
  have hproduct := hc.mul hj
  rw [← ofBE_bytes] at hproduct
  rw [decryptCode, storageAggregate_mauled, hmp,
    TA.paillierTaDecryptRealU32_of_isCiphertext hproduct, require]
  split
  · rfl
  · rfl

/-- A multiplier that is not a unit gives a number that the TA rejects. -/
theorem decryptCode_of_not_coprime (hmp : q.world.mp = .exact) (ht : ¬ q.multiplier.Coprime k.n) :
    decryptCode ⟨true, k.toPaillierKey⟩ q.world (q.input k.toPaillierKey c) =
      .error .badParameters := by
  have hproduct : ¬ (ofBE (q.bytes k.toPaillierKey c).toList).Coprime k.n := by
    rw [ofBE_bytes, GeneratedKey.coprime_mod_n2_iff, Nat.coprime_mul_iff_left]
    exact fun h ↦ ht (GeneratedKey.coprime_mod_n2_iff.mp h.2)
  rw [decryptCode, storageAggregate_mauled, hmp,
    TA.paillierTaDecryptRealU32_of_not_coprime hproduct]
  rfl

/-- One request shows the same of two ciphertexts exactly if, in the real build, no shift
that it makes takes one message and not the other out of the 32 bits. -/
theorem decryptCode_eq_iff (hmp : q.world.mp = .exact) (hc₀ : k.IsCiphertext m₀ c₀)
    (hc₁ : k.IsCiphertext m₁ c₁) :
    decryptCode ⟨realPaillier, k.toPaillierKey⟩ q.world (q.input k.toPaillierKey c₀) =
        decryptCode ⟨realPaillier, k.toPaillierKey⟩ q.world (q.input k.toPaillierKey c₁) ↔
      (realPaillier = true → ∀ j, k.IsCiphertext j (q.multiplier % k.n2) →
        ((m₀ + j) % k.n < 2 ^ 32 ↔ (m₁ + j) % k.n < 2 ^ 32)) := by
  cases realPaillier with
  | false => simp [decryptCode_mock]
  | true =>
      by_cases ht : q.multiplier.Coprime k.n
      · obtain ⟨j, -, hj⟩ := k.exists_isCiphertext (GeneratedKey.coprime_mod_n2_iff.mpr ht)
          (Nat.mod_lt _ k.n2_pos)
        have hcode (j') (hj' : k.IsCiphertext j' (q.multiplier % k.n2)) :
            decryptCode ⟨true, k.toPaillierKey⟩ q.world (q.input k.toPaillierKey c₀) =
                decryptCode ⟨true, k.toPaillierKey⟩ q.world (q.input k.toPaillierKey c₁) ↔
              ((m₀ + j') % k.n < 2 ^ 32 ↔ (m₁ + j') % k.n < 2 ^ 32) := by
          rw [decryptCode_of_isCiphertext hmp hc₀ hj', decryptCode_of_isCiphertext hmp hc₁ hj',
            require_inj]
        exact ⟨fun h _ j' hj' ↦ (hcode j' hj').mp h, fun h ↦ (hcode j hj).mpr (h rfl j hj)⟩
      · rw [decryptCode_of_not_coprime hmp ht, decryptCode_of_not_coprime hmp ht]
        refine iff_of_true rfl fun _ j hj ↦ absurd ?_ ht
        exact GeneratedKey.coprime_mod_n2_iff.mp hj.coprime

/-- The number `j * n + 1` is a ciphertext of `j`. -/
theorem isCiphertext_shift (k : GeneratedKey) (j : ℕ) :
    k.IsCiphertext j ((j * k.n + 1) % k.n2) := by
  have hpow := k.modulus.generator_pow_modEq j
  rw [← k.n_eq, ← k.g_eq, ← k.n2_eq] at hpow
  refine ⟨1, Nat.coprime_one_left _, ?_⟩
  rw [one_pow, mul_one]
  exact hpow.symm

/-- Under a key with more than 32 bits, any two aggregates are told apart by one request: it
shifts the larger one to `2 ^ 32`. -/
theorem decryptCode_of_shift (hn : 2 ^ 32 < k.n) (hmp : q.world.mp = .exact)
    (hc₀ : k.IsCiphertext m₀ c₀) (hc₁ : k.IsCiphertext m₁ c₁) (hlt : m₀ < m₁) (hsmall : m₁ ≤ 2 ^ 32)
    (hq : q.multiplier = (2 ^ 32 - m₁) * k.n + 1) :
    decryptCode ⟨true, k.toPaillierKey⟩ q.world (q.input k.toPaillierKey c₀) = .ok () ∧
      decryptCode ⟨true, k.toPaillierKey⟩ q.world (q.input k.toPaillierKey c₁) =
        .error .overflow := by
  have hj := isCiphertext_shift k.toGeneratedKey (2 ^ 32 - m₁)
  rw [← hq] at hj
  have hkept : m₀ + (2 ^ 32 - m₁) < 2 ^ 32 := by omega
  have hlost : m₁ + (2 ^ 32 - m₁) = 2 ^ 32 := Nat.add_sub_cancel' hsmall
  rw [decryptCode_of_isCiphertext hmp hc₀ hj, decryptCode_of_isCiphertext hmp hc₁ hj, hlost,
    Nat.mod_eq_of_lt hn, Nat.mod_eq_of_lt (hkept.trans hn)]
  exact ⟨require_of hkept _, require_of_not (lt_irrefl _) _⟩

/-- What Normal World sees, request by request. -/
theorem observations_eq_iff_decryptCode {ta : TaBuild} {requests : List MauledRequest}
    (hcrypto : ∀ q ∈ requests, q.world.crypto.Reliable) :
    observations ta c₀ requests = observations ta c₁ requests ↔
      ∀ q ∈ requests, decryptCode ta q.world (q.input ta.key c₀) =
        decryptCode ta q.world (q.input ta.key c₁) := by
  rw [observations, observations, List.map_inj_left]
  refine forall₂_congr fun q hq ↦ ?_
  rw [visible_invoke (hcrypto q hq), visible_invoke (hcrypto q hq)]
  exact visibleOf_inj

/-- A sequence of requests shows the same of the ciphertexts of two messages with the same
randomness exactly if, in the real build, no request of it shifts one of the messages, and
not the other, out of the 32 bits. -/
theorem observations_eq_iff (realPaillier : Bool) (k : DemoSizedKey) {r : ℕ} (hr : r.Coprime k.n)
    (m₀ m₁ : ℕ) {requests : List MauledRequest}
    (hworld : ∀ q ∈ requests, q.world.mp = .exact ∧ q.world.crypto.Reliable) :
    observations ⟨realPaillier, k.toPaillierKey⟩ (k.g ^ m₀ * r ^ k.n % k.n2) requests =
        observations ⟨realPaillier, k.toPaillierKey⟩ (k.g ^ m₁ * r ^ k.n % k.n2) requests ↔
      ∀ q ∈ requests, realPaillier = true → ∀ j, k.IsCiphertext j (q.multiplier % k.n2) →
        ((m₀ + j) % k.n < 2 ^ 32 ↔ (m₁ + j) % k.n < 2 ^ 32) := by
  rw [observations_eq_iff_decryptCode fun q hq ↦ (hworld q hq).2]
  exact forall₂_congr fun q hq ↦ decryptCode_eq_iff (hworld q hq).1 ⟨r, hr, rfl⟩ ⟨r, hr, rfl⟩

end Mauled

/-- A request of this kind for the first window, over the recorded AES-GCM. -/
def demoMauled (multiplier : ℕ) : MauledRequest where
  multiplier := multiplier
  metadata := { demoRequest 0 1710000000999 with realPaillierEnabled := 1 }
  real_mode := by decide
  world := TA.drawing 2 demoTable.total

/-- Sending on the ciphertexts of 0 and 1 as they are shows the same of both. -/
theorem observations_eq_iff_demo :
    observations ⟨true, demoKey.toPaillierKey⟩ (demoKey.g ^ 0 * 2 ^ demoKey.n % demoKey.n2)
        [demoMauled 1] =
      observations ⟨true, demoKey.toPaillierKey⟩ (demoKey.g ^ 1 * 2 ^ demoKey.n % demoKey.n2)
        [demoMauled 1] := by
  have hworld : ∀ q ∈ [demoMauled 1], q.world.mp = .exact ∧ q.world.crypto.Reliable := by
    intro q hq
    rw [List.mem_singleton.mp hq]
    exact ⟨rfl, GcmTable.total_reliable⟩
  refine (observations_eq_iff true demoKey demoKey_units.1 0 1 hworld).mpr ?_
  intro q hq _ j hj
  have hone : demoKey.IsCiphertext 0 ((demoMauled 1).multiplier % demoKey.n2) := by
    rw [demoMauled, Nat.mod_eq_of_lt demoKey.one_lt_n2]
    exact GeneratedKey.isCiphertext_one
  rw [List.mem_singleton.mp hq] at hj
  have hmod := hj.modEq hone
  have hzero : (0 + j) % demoKey.n = 0 % demoKey.n := hmod.add_left 0
  have hsucc : (1 + j) % demoKey.n = 1 % demoKey.n := hmod.add_left 1
  rw [hzero, hsucc, Nat.zero_mod, Nat.mod_eq_of_lt demoKey.one_lt_n]
  exact iff_of_true (by norm_num) (by norm_num)

/-- Shifted by `2 ^ 32 - 1`, the TA's own encryptions of 0 and 1 with the same draw are told
apart: one request is served, the other overflows. -/
theorem observations_ne_demo :
    ∃ c₀ c₁, TA.encryptNumber ⟨true, demoKey.toPaillierKey⟩ (TA.drawing 2 demoTable.total) 0 =
        .ok c₀ ∧
      TA.encryptNumber ⟨true, demoKey.toPaillierKey⟩ (TA.drawing 2 demoTable.total) 1 = .ok c₁ ∧
      observations ⟨true, demoKey.toPaillierKey⟩ c₀
          [demoMauled ((2 ^ 32 - 1) * TA.paillierNHex + 1)] ≠
        observations ⟨true, demoKey.toPaillierKey⟩ c₁
          [demoMauled ((2 ^ 32 - 1) * TA.paillierNHex + 1)] := by
  have hdraw : TA.generateCoprimeR (TA.drawing 2 demoTable.total) demoKey.n = .ok 2 :=
    TA.generateCoprimeR_drawing demoKey_n_gt two_pos (by norm_num) demoKey_units.1
  have henc (m : UInt32) : TA.encryptNumber ⟨true, demoKey.toPaillierKey⟩
      (TA.drawing 2 demoTable.total) m = .ok _ := TA.encryptNumber_of_draw rfl hdraw
  refine ⟨_, _, henc 0, henc 1, fun heq ↦ ?_⟩
  have hcode := (observations_eq_iff_decryptCode (by
    intro q hq
    rw [List.mem_singleton.mp hq]
    exact GcmTable.total_reliable)).mp heq _ (List.mem_singleton_self _)
  obtain ⟨hok, hoverflow⟩ := decryptCode_of_shift
    (q := demoMauled ((2 ^ 32 - 1) * TA.paillierNHex + 1)) demoKey_n_gt rfl
    (TA.encryptNumber_isCiphertext rfl (henc 0)) (TA.encryptNumber_isCiphertext rfl (henc 1))
    (by decide) (by decide) rfl
  rw [hok, hoverflow] at hcode
  cases hcode

end SecureIIoT
