import Mathlib.Data.Nat.Basic
import SecureIIoT.Abi
import SecureIIoT.Key
import SecureIIoT.Lib.Aead

/-!
# What the TA is built on

The TA stands on three things that the model takes as parameters: the TEE Internal API, the
random number generator, and LibTomMath, which is bundled with the TA.

* `LibTomMath` says of each fallible call of `ta/paillier_ta.c` how it ends.  Where a
  call succeeds its value is the exact one, so the call sites (`MpCall`) are all that a
  fault needs.  `LibTomMath.exact` has no faults.
* `TeeCrypto` is the result of each call of the AES-GCM helpers of
  `ta/hello_world_ta.c`.
* `TeeWorld` is what one invocation of the TA meets of all three.

Pointers handed to the TA's own functions are never null.
-/

namespace SecureIIoT

/-! ## Result codes -/

/-- The `TEE_Result` codes other than `TEE_SUCCESS`; `other` is any code of the TEE that
the TA only passes on. -/
inductive TEEError
  | generic
  | badParameters
  | badFormat
  | overflow
  | security
  | macInvalid
  | shortBuffer
  | notImplemented
  | other (code : UInt32)
deriving DecidableEq

/-- `TEE_Result`, with `TEE_SUCCESS` as `ok`. -/
abbrev TEEResult := Except TEEError Unit

/-- The guard of a function that returns `e` unless `p`. -/
def require (p : Prop) [Decidable p] (e : TEEError) : TEEResult :=
  if p then .ok () else .error e

variable {α β : Type}

theorem except_bind_eq_ok {ε : Type} {x : Except ε α} {f : α → Except ε β} {b : β} :
    (x >>= f) = .ok b ↔ ∃ a, x = .ok a ∧ f a = .ok b := by
  cases x with
  | error e => simp [bind, Except.bind]
  | ok a => simp [bind, Except.bind]

/-- A check or a call has nothing to return. -/
theorem result_bind_eq_ok {x : TEEResult} {f : Unit → Except TEEError β} {b : β} :
    (x >>= f) = .ok b ↔ x = .ok () ∧ f () = .ok b := by
  rw [except_bind_eq_ok]
  exact ⟨fun ⟨(), hx, hf⟩ ↦ ⟨hx, hf⟩, fun ⟨hx, hf⟩ ↦ ⟨(), hx, hf⟩⟩

@[simp] theorem except_ok_bind {ε : Type} (a : α) (f : α → Except ε β) :
    ((.ok a : Except ε α) >>= f) = f a := rfl

@[simp] theorem except_error_bind {ε : Type} (e : ε) (f : α → Except ε β) :
    ((.error e : Except ε α) >>= f) = .error e := rfl

@[simp] theorem require_of {p : Prop} [Decidable p] (h : p) (e : TEEError) :
    require p e = .ok () := if_pos h

@[simp] theorem require_of_not {p : Prop} [Decidable p] (h : ¬ p) (e : TEEError) :
    require p e = .error e := if_neg h

@[simp] theorem require_eq_ok {p : Prop} [Decidable p] {e : TEEError} {u : Unit} :
    require p e = .ok u ↔ p := by
  by_cases h : p
  · simp [h]
  · simp [h]

theorem require_inj {p p' : Prop} [Decidable p] [Decidable p'] {e : TEEError} :
    require p e = require p' e ↔ (p ↔ p') := by
  by_cases h : p
  · rw [require_of h, eq_comm, require_eq_ok]
    exact ⟨fun h' ↦ iff_of_true h h', fun hiff ↦ hiff.mp h⟩
  · by_cases h' : p'
    · rw [require_of_not h, require_of h']
      exact iff_of_false (fun herr ↦ nomatch herr) fun hiff ↦ h (hiff.mpr h')
    · rw [require_of_not h, require_of_not h']
      exact iff_of_true rfl (iff_of_false h h')

/-! ## Parameters of an invocation -/

/-- `TEE_PARAM_TYPES` -/
def teeParamTypes (t0 t1 t2 t3 : UInt32) : UInt32 :=
  t0 ||| t1 <<< 4 ||| t2 <<< 8 ||| t3 <<< 12

/-- `TEE_PARAM_TYPE_NONE` -/
def teeParamTypeNone : UInt32 := 0

/-- `TEE_PARAM_TYPE_MEMREF_INPUT` -/
def teeParamTypeMemrefInput : UInt32 := 5

/-- `TEE_PARAM_TYPE_MEMREF_OUTPUT` -/
def teeParamTypeMemrefOutput : UInt32 := 6

/-- The memory reference of a `TEE_Param` that the TA reads or writes as a record:
`buffer` is the record at its start, and is there if `size` reaches over it. -/
structure MemRef (α : Type) where
  buffer : α
  size : ℕ
deriving DecidableEq

/-! ## LibTomMath -/

/-- `mp_err` -/
inductive MpErr
  | okay
  | err
  | mem
  | val
  | iter
  | buf
  | ovf
deriving DecidableEq

/-- `mp_err_to_tee` -/
def mpErrToTee (e : MpErr) : TEEResult :=
  if e = .okay then .ok () else .error .generic

/-- The calls of `ta/paillier_ta.c` that return an `mp_err`.  Those in the loop of
`generate_coprime_r` carry the attempt they are made in. -/
inductive MpCall
  | initMulti
  | readRadixN
  | readRadixG
  | readRadixN2
  | readRadixLambda
  | readRadixMu
  | initGcd
  | fromUbinR (attempt : ℕ)
  | modR (attempt : ℕ)
  | gcdR (attempt : ℕ)
  | exptmodGm
  | exptmodRn
  | mulmodC
  | toUbinC
  | fromUbinC
  | exptmodU
  | subD
  | div
  | mulmodM
deriving DecidableEq

/-- How the fallible calls of one invocation end, and what a failing `mp_to_ubin` leaves
in its buffer. -/
structure LibTomMath where
  outcome : MpCall → MpErr
  toUbinLeft : Vector UInt8 paillierCiphertextMax → Vector UInt8 paillierCiphertextMax

namespace LibTomMath

/-- A library without faults. -/
def exact : LibTomMath where
  outcome := fun _ ↦ .okay
  toUbinLeft := id

/-- The result of a call, as the code turns it into a `TEE_Result`. -/
def call (mp : LibTomMath) (site : MpCall) : TEEResult :=
  mpErrToTee (mp.outcome site)

@[simp] theorem call_exact (site : MpCall) : exact.call site = .ok () := rfl

end LibTomMath

/-! ## The TEE's AES-GCM -/

/-- The calls that `aes_gcm_decrypt_ta`, `aes_gcm_encrypt_ta` and `provision_key` make.
The two final calls take the capacity of their output buffers and return what they
wrote there. -/
structure TeeCrypto where
  allocateTransientObject : TEEResult
  populateTransientObject : Vector UInt8 16 → TEEResult
  allocateOperation : TEEResult
  setOperationKey : TEEResult
  aeInit : TEEResult
  aeDecryptFinal (key : Vector UInt8 16) (nonce : Vector UInt8 12) (aad ciphertext : List UInt8)
    (tag : Vector UInt8 16) (capacity : ℕ) : Except TEEError (List UInt8)
  aeEncryptFinal (key : Vector UInt8 16) (nonce : Vector UInt8 12) (aad plaintext : List UInt8)
    (capacity tagCapacity : ℕ) : Except TEEError (List UInt8 × List UInt8)

/-- The inputs of one AES-128-GCM encryption. -/
abbrev GcmQuery := Aead.Query (Vector UInt8 16) (Vector UInt8 12) (List UInt8) (List UInt8)

/-- The calls over an AES-128-GCM, where none fails but for a buffer that is too short, an
encryption that is not made or a tag that does not verify. -/
def TeeCrypto.ofGcm (encrypt : GcmQuery → Option (List UInt8 × Vector UInt8 16))
    (decrypt : Vector UInt8 16 → Vector UInt8 12 → List UInt8 → List UInt8 → Vector UInt8 16 →
      Option (List UInt8)) : TeeCrypto where
  allocateTransientObject := .ok ()
  populateTransientObject := fun _ ↦ .ok ()
  allocateOperation := .ok ()
  setOperationKey := .ok ()
  aeInit := .ok ()
  aeDecryptFinal := fun key nonce aad ciphertext tag capacity ↦
    if capacity < ciphertext.length then .error .shortBuffer
    else match decrypt key nonce aad ciphertext tag with
      | none => .error .macInvalid
      | some plaintext => .ok plaintext
  aeEncryptFinal := fun key nonce aad plaintext capacity tagCapacity ↦
    if capacity < plaintext.length ∨ tagCapacity < 16 then .error .shortBuffer
    else match encrypt ⟨key, nonce, aad, plaintext⟩ with
      | none => .error .generic
      | some (ciphertext, tag) => .ok (ciphertext, tag.toList)

/-- No call of an encryption fails where the buffers are long enough, and a ciphertext is as
long as its message. -/
structure TeeCrypto.Reliable (crypto : TeeCrypto) : Prop where
  allocateTransientObject : crypto.allocateTransientObject = .ok ()
  populateTransientObject : ∀ key, crypto.populateTransientObject key = .ok ()
  allocateOperation : crypto.allocateOperation = .ok ()
  setOperationKey : crypto.setOperationKey = .ok ()
  aeInit : crypto.aeInit = .ok ()
  aeEncryptFinal : ∀ key nonce aad plaintext capacity tagCapacity, plaintext.length ≤ capacity →
    16 ≤ tagCapacity → ∃ ciphertext tag,
      crypto.aeEncryptFinal key nonce aad plaintext capacity tagCapacity = .ok (ciphertext, tag) ∧
        ciphertext.length = plaintext.length ∧ tag.length = 16

/-- What one invocation of the TA meets: the library, the draws of `TEE_GenerateRandom`
by attempt, and the cryptographic operations. -/
structure TeeWorld where
  mp : LibTomMath
  random : ℕ → Vector UInt8 64
  crypto : TeeCrypto

/-- A build of the TA: `SECURE_IIOT_ENABLE_REAL_PAILLIER_TA` and the key constants, which
the mock build leaves out. -/
structure TaBuild where
  realPaillier : Bool
  key : PaillierKey
deriving DecidableEq

/-! ## OpenSSL's AES-GCM -/

/-- The outcome of the host's `aes_gcm_encrypt` and `aes_gcm_decrypt`, which return 0 as
soon as one EVP call fails. -/
structure EvpCrypto where
  aesGcmEncrypt (key : Vector UInt8 16) (nonce : Vector UInt8 12) (aad plaintext : List UInt8) :
    Option (List UInt8 × Vector UInt8 16)
  aesGcmDecrypt (key : Vector UInt8 16) (nonce : Vector UInt8 12) (aad ciphertext : List UInt8)
    (tag : Vector UInt8 16) : Option (List UInt8)

/-! ## AES-128-GCM as an ideal AEAD -/

/-- AES-128-GCM as an ideal AEAD whose ciphertexts are as long as their messages. -/
structure IdealGcm extends
    Aead.Ideal (Vector UInt8 16) (Vector UInt8 12) (List UInt8) (List UInt8) (List UInt8)
      (Vector UInt8 16) where
  length_encrypt : ∀ x, (encrypt x).1.length = x.msg.length

namespace IdealGcm

/-- A ciphertext is as long as its message. -/
theorem length_of_encrypt {I : IdealGcm} {x : GcmQuery} {ciphertext : List UInt8}
    {tag : Vector UInt8 16} (h : I.encrypt x = (ciphertext, tag)) :
    ciphertext.length = x.msg.length := by
  rw [← I.length_encrypt x, h]

theorem length_of_produce {I : IdealGcm} {x : GcmQuery} {ciphertext : List UInt8}
    {tag : Vector UInt8 16} (h : I.produce x = some (ciphertext, tag)) :
    ciphertext.length = x.msg.length :=
  length_of_encrypt (Aead.Ideal.produce_eq_some_iff.mp h).2

/-- Nothing is ever encrypted. -/
def empty : IdealGcm where
  encrypt := fun x ↦ (x.msg, .replicate _ 0)
  log := []
  binding := by simp
  length_encrypt := fun _ ↦ rfl

variable (I : IdealGcm)

/-- The ideal AEAD behind the TEE's operations. -/
def tee : TeeCrypto :=
  .ofGcm I.produce I.decrypt

/-- The ideal AEAD behind the host's operations. -/
def evp : EvpCrypto where
  aesGcmEncrypt := fun key nonce aad plaintext ↦ I.produce ⟨key, nonce, aad, plaintext⟩
  aesGcmDecrypt := fun key nonce aad ciphertext tag ↦ I.decrypt key nonce aad ciphertext tag

end IdealGcm

end SecureIIoT
