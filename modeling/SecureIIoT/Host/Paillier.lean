import SecureIIoT.Abi
import SecureIIoT.Key
import SecureIIoT.Lib.ByteString
import SecureIIoT.Lib.Modexp

/-!
# Paillier on the host

The aggregation and the reference decryption of `host/paillier_host.c`.  A BIGNUM is a
number, and every BIGNUM operation is exact; `none` is a return value of 0.

Aggregating ciphertexts gives a ciphertext of the sum (`aggregateReal_isCiphertext`),
and the reference decryption gives its message back
(`paillierHostDecryptU32_of_isCiphertext`).
-/

namespace SecureIIoT

open ByteString Modexp

namespace Host

/-- `INT_MAX` -/
def intMax : ℕ := 2 ^ 31 - 1

/-! ## The mock path -/

def paillierHostInitAggregateMock : UInt32 := 0

def paillierHostAddCiphertextMock (aggregate fakeCiphertext : UInt32) : UInt32 :=
  aggregate + fakeCiphertext

/-- `paillier_host_combine_aggregates_mock`, the array and its `count` as a list. -/
def paillierHostCombineAggregatesMock (aggregates : List UInt32) : UInt32 :=
  aggregates.foldl (fun combined aggregate ↦ combined + aggregate) 0

/-! ## Numbers as byte strings -/

/-- `BN_bin2bn` takes an `int` length, so longer strings are refused. -/
def paillierHostFixedBytesToBn (bytes : List UInt8) : Option ℕ :=
  if intMax < bytes.length then none else some (ofBE bytes)

/-- The strings of the shared structures are not refused. -/
theorem length_toList_le (bytes : Vector UInt8 paillierCiphertextMax) :
    bytes.toList.length ≤ intMax := by
  rw [Vector.length_toList]
  decide

/-- `BN_bn2binpad` pads in front, and fails on a number that does not fit. -/
def paillierHostBnToFixedBytes (bn outLen : ℕ) : Option (List UInt8) :=
  if intMax < outLen then none
  else if outLen < byteLength bn then none
  else some (toBE outLen bn)

theorem paillierHostFixedBytesToBn_of_length {bytes : List UInt8} (h : bytes.length ≤ intMax) :
    paillierHostFixedBytesToBn bytes = some (ofBE bytes) :=
  if_neg (not_lt.mpr h)

theorem paillierHostBnToFixedBytes_of_lt {bn outLen : ℕ} (hlen : outLen ≤ intMax)
    (h : bn < 256 ^ outLen) : paillierHostBnToFixedBytes bn outLen = some (toBE outLen bn) := by
  rw [paillierHostBnToFixedBytes, if_neg (not_lt.mpr hlen),
    if_neg (not_lt.mpr (byteLength_le_iff.mpr h))]

/-- A number is refused if the length is, or if it does not fit. -/
theorem paillierHostBnToFixedBytes_eq_none_iff {bn outLen : ℕ} :
    paillierHostBnToFixedBytes bn outLen = none ↔ intMax < outLen ∨ 256 ^ outLen ≤ bn := by
  by_cases hlen : intMax < outLen
  · simp [paillierHostBnToFixedBytes, hlen]
  · by_cases hfits : bn < 256 ^ outLen
    · simp [paillierHostBnToFixedBytes_of_lt (not_lt.mp hlen) hfits, hlen, hfits]
    · have hlong : outLen < byteLength bn := not_le.mp (mt byteLength_le_iff.mp hfits)
      simp [paillierHostBnToFixedBytes, hlong, not_lt.mp hfits]

/-! ## Aggregation -/

def paillierHostInitAggregateReal : ℕ := 1

/-- `BN_mod_mul` -/
def paillierHostAddCiphertextsReal (key : PaillierKey) (c1 c2 : ℕ) : ℕ := c1 * c2 % key.n2

/-- The return value, as a truth value, and the aggregate it leaves. -/
def paillierHostAddCiphertextBytesReal (key : PaillierKey) (aggregate : ℕ)
    (ciphertext : List UInt8) : Bool × ℕ :=
  match paillierHostFixedBytesToBn ciphertext with
  | none => (false, aggregate)
  | some ci => (true, paillierHostAddCiphertextsReal key aggregate ci)

/-- The aggregation loop of the host programs, which give up at an add that fails. -/
def aggregateReal (key : PaillierKey) : (aggregate : ℕ) → List (List UInt8) → Option ℕ
  | aggregate, [] => some aggregate
  | aggregate, ciphertext :: ciphertexts =>
      match paillierHostAddCiphertextBytesReal key aggregate ciphertext with
      | (false, _) => none
      | (true, next) => aggregateReal key next ciphertexts

/-- Adding a string that is not too long multiplies its number in. -/
theorem paillierHostAddCiphertextBytesReal_of_length {key : PaillierKey} {aggregate : ℕ}
    {ciphertext : List UInt8} (h : ciphertext.length ≤ intMax) :
    paillierHostAddCiphertextBytesReal key aggregate ciphertext =
      (true, aggregate * ofBE ciphertext % key.n2) := by
  rw [paillierHostAddCiphertextBytesReal, paillierHostFixedBytesToBn_of_length h]
  rfl

/-- Folding strings that are not too long multiplies their numbers in. -/
theorem aggregateReal_of_length {key : PaillierKey} {aggregate : ℕ}
    {ciphertexts : List (List UInt8)}
    (haggregate : aggregate < key.n2) (h : ∀ ciphertext ∈ ciphertexts, ciphertext.length ≤ intMax) :
    aggregateReal key aggregate ciphertexts =
      some (aggregate * (ciphertexts.map ofBE).prod % key.n2) := by
  induction ciphertexts generalizing aggregate with
  | nil => rw [aggregateReal, List.map_nil, List.prod_nil, mul_one, Nat.mod_eq_of_lt haggregate]
  | cons ciphertext ciphertexts ih =>
      rw [List.forall_mem_cons] at h
      have hnext : aggregate * ofBE ciphertext % key.n2 < key.n2 :=
        Nat.mod_lt _ (Nat.zero_lt_of_lt haggregate)
      rw [aggregateReal, paillierHostAddCiphertextBytesReal_of_length h.1]
      dsimp only
      rw [ih hnext h.2, List.map_cons, List.prod_cons, Nat.mod_mul_mod, mul_assoc]

/-- A byte string for a message: its number is a ciphertext, and it is not too long. -/
def EncodesMessage (k : GeneratedKey) (m : ℕ) (ciphertext : List UInt8) : Prop :=
  ciphertext.length ≤ intMax ∧ k.IsCiphertext m (ofBE ciphertext)

/-- Aggregating ciphertexts adds their messages. -/
theorem aggregateReal_isCiphertext {k : GeneratedKey} {ms : List ℕ}
    {ciphertexts : List (List UInt8)} (h : List.Forall₂ (EncodesMessage k) ms ciphertexts)
    {m aggregate : ℕ} (haggregate : k.IsCiphertext m aggregate) :
    ∃ c, aggregateReal k.toPaillierKey aggregate ciphertexts = some c ∧
      k.IsCiphertext (m + ms.sum) c := by
  induction h generalizing m aggregate with
  | nil => exact ⟨aggregate, rfl, by simpa using haggregate⟩
  | cons hhead _ ih =>
      obtain ⟨hlen, hc⟩ := hhead
      obtain ⟨c, hfold, hsum⟩ := ih (haggregate.mul hc)
      refine ⟨c, ?_, ?_⟩
      · rw [aggregateReal, paillierHostAddCiphertextBytesReal_of_length hlen]
        exact hfold
      · rwa [List.sum_cons, ← add_assoc]

/-! ## Reference decryption -/

/-- `paillier_L_function`: `BN_div` truncates and its remainder is not asked for. -/
def paillierLFunction (u n : ℕ) : ℤ := ((u : ℤ) - 1).tdiv n

def paillierHostDecryptU32 (key : PaillierKey) (c : ℕ) : Option UInt32 :=
  let u := powMod c key.lambda key.n2
  let lValue := paillierLFunction u key.n
  let m := (lValue * key.mu % key.n).toNat
  if 32 < Nat.size m then none else some (UInt32.ofNat m)

theorem paillierLFunction_of_pos {u : ℕ} (n : ℕ) (hu : 0 < u) :
    paillierLFunction u n = ((u - 1) / n : ℕ) := by
  rw [paillierLFunction, ← Nat.cast_pred hu, ← Int.ofNat_tdiv]

/-- With a quotient at hand, the reference decryption multiplies by `mu` and checks the
size. -/
theorem paillierHostDecryptU32_eq {key : PaillierKey} {c l : ℕ}
    (hl : paillierLFunction (c ^ key.lambda % key.n2) key.n = l) :
    paillierHostDecryptU32 key c =
      if l * key.mu % key.n < 2 ^ 32 then some (UInt32.ofNat (l * key.mu % key.n)) else none := by
  have hm : ((l : ℤ) * key.mu % key.n).toNat = l * key.mu % key.n := by
    rw [← Nat.cast_mul, ← Int.natCast_mod, Int.toNat_natCast]
  simp only [paillierHostDecryptU32, powMod_eq, hl, hm]
  by_cases hlt : l * key.mu % key.n < 2 ^ 32
  · rw [if_pos hlt, if_neg (not_lt.mpr (Nat.size_le.mpr hlt))]
  · rw [if_neg hlt, if_pos (not_le.mp (mt Nat.size_le.mp hlt))]

/-- Only the residue of a number counts. -/
theorem paillierHostDecryptU32_mod (key : PaillierKey) (c : ℕ) :
    paillierHostDecryptU32 key (c % key.n2) = paillierHostDecryptU32 key c := by
  simp only [paillierHostDecryptU32, powMod_eq, ← Nat.pow_mod]

/-- A ciphertext is decrypted to its message modulo `n`, if that fits 32 bits. -/
theorem paillierHostDecryptU32_of_isCiphertext {k : GeneratedKey} {m c : ℕ}
    (h : k.IsCiphertext m c) :
    paillierHostDecryptU32 k.toPaillierKey c =
      if m % k.n < 2 ^ 32 then some (UInt32.ofNat (m % k.n)) else none := by
  have hl : paillierLFunction (c ^ k.lambda % k.n2) k.n = (m * k.lambda % k.n : ℕ) := by
    rw [h.pow_lambda, paillierLFunction_of_pos _ (Nat.succ_pos _), Nat.succ_sub_one,
      Nat.mul_div_cancel _ k.n_pos]
  rw [paillierHostDecryptU32_eq hl, k.mul_mu_mod]

end Host

end SecureIIoT
