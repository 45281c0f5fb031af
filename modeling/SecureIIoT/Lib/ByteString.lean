import Mathlib.Data.List.Induction
import Mathlib.Data.Nat.Size
import Mathlib.Tactic.Linarith
import Mathlib.Tactic.NormNum
import Mathlib.Tactic.Ring

/-!
# Byte strings and the numbers they stand for

Big-endian numerals of a given width, the least width a number needs, and the
little-endian encodings of 32- and 64-bit words, all over `List UInt8`.

A numeral of fixed width is a bijection with the numbers below `256 ^ width`:
`ofBE_toBE` and `toBE_ofBE` are the two round trips, and `toBE_add` says that a
wider numeral is the narrower one behind zero bytes.  The little-endian words are
injective (`le32_inj`, `le64_inj`), also at the head of a longer string
(`le32_append_inj`), which is how a record encoded as a run of words is taken
apart.

The last section is the three memory operations on a buffer of fixed size:
writing a string at an offset, moving a range that may overlap its destination,
and filling a range.
-/

namespace ByteString

/-! ## Big-endian numerals -/

/-- The number a byte string spells, most significant byte first. -/
def ofBE (bytes : List UInt8) : ℕ := bytes.foldl (fun acc b ↦ acc * 256 + b.toNat) 0

/-- The `width` low bytes of a number, most significant byte first.  Digits are
split off at the low end, and each goes in front of those already there. -/
def toBE : (width : ℕ) → ℕ → List UInt8
  | 0, _ => []
  | width + 1, v => toBE width (v / 256) ++ [UInt8.ofNat v]

/-- The number of bytes a number needs; zero needs none. -/
def byteLength (v : ℕ) : ℕ := (Nat.size v + 7) / 8

theorem foldl_be (bytes : List UInt8) (acc : ℕ) :
    bytes.foldl (fun acc b ↦ acc * 256 + b.toNat) acc =
      acc * 256 ^ bytes.length + ofBE bytes := by
  induction bytes generalizing acc with
  | nil => simp [ofBE]
  | cons b bs ih =>
      have h₀ : ofBE (b :: bs) = b.toNat * 256 ^ bs.length + ofBE bs := by
        rw [ofBE, List.foldl_cons, ih]
        simp
      rw [List.foldl_cons, ih, h₀, List.length_cons]
      ring

@[simp] theorem ofBE_nil : ofBE [] = 0 := rfl

@[simp] theorem ofBE_cons (b : UInt8) (bs : List UInt8) :
    ofBE (b :: bs) = b.toNat * 256 ^ bs.length + ofBE bs := by
  rw [ofBE, List.foldl_cons, foldl_be]
  simp

theorem ofBE_append (a b : List UInt8) :
    ofBE (a ++ b) = ofBE a * 256 ^ b.length + ofBE b := by
  rw [ofBE, List.foldl_append, foldl_be]
  rfl

/-- Leading zero bytes do not change the number. -/
theorem ofBE_replicate_append (k : ℕ) (bs : List UInt8) :
    ofBE (List.replicate k 0 ++ bs) = ofBE bs := by
  induction k with
  | zero => rfl
  | succ k ih => simpa [List.replicate_succ] using ih

@[simp] theorem length_toBE (width v : ℕ) : (toBE width v).length = width := by
  induction width generalizing v with
  | zero => rfl
  | succ width ih => simp [toBE, ih]

/-- Reading back a numeral gives the number modulo what the width can hold. -/
theorem ofBE_toBE_mod (width v : ℕ) : ofBE (toBE width v) = v % 256 ^ width := by
  induction width generalizing v with
  | zero => simp [toBE, Nat.mod_one]
  | succ width ih =>
      rw [toBE, ofBE_append, ih, pow_succ', Nat.mod_mul]
      simp
      ring

/-- A number that fits its width is read back. -/
theorem ofBE_toBE {width v : ℕ} (h : v < 256 ^ width) : ofBE (toBE width v) = v := by
  rw [ofBE_toBE_mod, Nat.mod_eq_of_lt h]

/-- A byte string is the numeral of its own number. -/
theorem toBE_ofBE (bytes : List UInt8) : toBE bytes.length (ofBE bytes) = bytes := by
  induction bytes using List.reverseRecOn with
  | nil => rfl
  | append_singleton bs b ih =>
      have hb : b.toNat < 256 := b.toNat_lt
      have hdiv : ofBE (bs ++ [b]) / 256 = ofBE bs := by
        rw [ofBE_append]
        simp
        omega
      have hlow : UInt8.ofNat (ofBE (bs ++ [b])) = b := by
        apply UInt8.toNat_inj.mp
        rw [ofBE_append]
        simp
      rw [List.length_append, List.length_singleton, toBE, hdiv, hlow, ih]

/-- A byte string spells a number below the power of its length. -/
theorem ofBE_lt (bytes : List UInt8) : ofBE bytes < 256 ^ bytes.length := by
  rw [← toBE_ofBE bytes, ofBE_toBE_mod, length_toBE]
  exact Nat.mod_lt _ (Nat.pow_pos (by norm_num))

/-- Byte strings of one length that spell the same number are equal. -/
theorem ofBE_inj {a b : List UInt8} (hlen : a.length = b.length) (h : ofBE a = ofBE b) :
    a = b := by
  rw [← toBE_ofBE a, ← toBE_ofBE b, hlen, h]

/-- Widening a numeral puts zero bytes in front of it. -/
theorem toBE_add {width v : ℕ} (k : ℕ) (h : v < 256 ^ width) :
    toBE (k + width) v = List.replicate k 0 ++ toBE width v := by
  apply ofBE_inj
  · simp
  · have hle : (256 : ℕ) ^ width ≤ 256 ^ (k + width) :=
      Nat.pow_le_pow_right (by norm_num) (by omega)
    rw [ofBE_replicate_append, ofBE_toBE h, ofBE_toBE (lt_of_lt_of_le h hle)]

/-! ## The length of a number -/

/-- A number that is not longer is less than twice as large. -/
theorem lt_two_mul_of_size_le {v w : ℕ} (hw : w ≠ 0) (h : Nat.size v ≤ Nat.size w) :
    v < 2 * w := by
  have hpos : 0 < Nat.size w := Nat.size_pos.mpr (Nat.pos_of_ne_zero hw)
  obtain ⟨k, hk⟩ := Nat.exists_eq_add_one_of_ne_zero hpos.ne'
  have hle : 2 ^ k ≤ w := Nat.lt_size.mp (hk ▸ Nat.lt_succ_self k)
  calc v < 2 ^ (k + 1) := Nat.size_le.mp (hk ▸ h)
    _ = 2 * 2 ^ k := pow_succ' 2 k
    _ ≤ 2 * w := Nat.mul_le_mul_left 2 hle

theorem byteLength_le_iff {v width : ℕ} : byteLength v ≤ width ↔ v < 256 ^ width := by
  have hbits : byteLength v ≤ width ↔ Nat.size v ≤ 8 * width := by
    unfold byteLength
    omega
  rw [hbits, Nat.size_le, pow_mul, show (2 : ℕ) ^ 8 = 256 from rfl]

/-- A number fits the bytes it needs. -/
theorem lt_pow_byteLength (v : ℕ) : v < 256 ^ byteLength v := byteLength_le_iff.mp le_rfl

/-! ## Little-endian words -/

/-- The four bytes of a 32-bit word, least significant first. -/
def le32 (v : UInt32) : List UInt8 :=
  [v.toUInt8, (v >>> 8).toUInt8, (v >>> 16).toUInt8, (v >>> 24).toUInt8]

/-- The eight bytes of a 64-bit word: the low half, then the high half. -/
def le64 (v : UInt64) : List UInt8 := le32 v.toUInt32 ++ le32 (v >>> 32).toUInt32

/-- The 32-bit word whose four bytes start at `offset`; bytes past the end are zero. -/
def word32 (bytes : List UInt8) (offset : ℕ) : UInt32 :=
  let b (i : ℕ) : ℕ := (bytes.getD (offset + i) 0).toNat
  UInt32.ofNat (b 0 + 256 * (b 1 + 256 * (b 2 + 256 * b 3)))

/-- The 64-bit word whose eight bytes start at `offset`. -/
def word64 (bytes : List UInt8) (offset : ℕ) : UInt64 :=
  UInt64.ofNat ((word32 bytes offset).toNat + 2 ^ 32 * (word32 bytes (offset + 4)).toNat)

@[simp] theorem length_le32 (v : UInt32) : (le32 v).length = 4 := rfl

@[simp] theorem length_le64 (v : UInt64) : (le64 v).length = 8 := rfl

/-- A word is read back wherever its bytes stand in a string. -/
theorem word32_le32 {v : UInt32} {a b : List UInt8} {offset : ℕ} (h : a.length = offset) :
    word32 (a ++ (le32 v ++ b)) offset = v := by
  subst h
  have hget (i : ℕ) : (a ++ (le32 v ++ b)).getD (a.length + i) 0 = (le32 v ++ b).getD i 0 := by
    simp [List.getD_eq_getElem?_getD, List.getElem?_append_right]
  have hv : v.toNat < 2 ^ 32 := v.toNat_lt
  apply UInt32.toNat_inj.mp
  simp only [word32, hget]
  simp only [le32, List.cons_append, List.getD_cons_zero, List.getD_cons_succ,
    UInt32.toNat_ofNat', UInt32.toNat_toUInt8, UInt32.toNat_shiftRight,
    Nat.shiftRight_eq_div_pow, UInt32.reduceToNat, Nat.reduceMod, Nat.reducePow]
  omega

theorem word64_le64 {v : UInt64} {a b : List UInt8} {offset : ℕ} (h : a.length = offset) :
    word64 (a ++ (le64 v ++ b)) offset = v := by
  have hlo : word32 (a ++ (le64 v ++ b)) offset = v.toUInt32 := by
    rw [le64, List.append_assoc]
    exact word32_le32 h
  have hhi : word32 (a ++ (le64 v ++ b)) (offset + 4) = (v >>> 32).toUInt32 := by
    rw [le64, List.append_assoc, ← List.append_assoc]
    exact word32_le32 (by simp [h])
  have hv : v.toNat < 2 ^ 64 := v.toNat_lt
  apply UInt64.toNat_inj.mp
  simp only [word64, hlo, hhi, UInt64.toNat_ofNat', UInt64.toNat_toUInt32,
    UInt64.toNat_shiftRight, Nat.shiftRight_eq_div_pow, UInt64.reduceToNat, Nat.reduceMod,
    Nat.reducePow]
  omega

/-- Behind a prefix, a word is read from the rest. -/
theorem word32_append_right (a b : List UInt8) (offset : ℕ) :
    word32 (a ++ b) (a.length + offset) = word32 b offset := by
  have hget (i : ℕ) : (a ++ b).getD (a.length + offset + i) 0 = b.getD (offset + i) 0 := by
    simp [List.getD_eq_getElem?_getD, List.getElem?_append_right, Nat.add_assoc]
  simp only [word32, hget]

theorem word32_le32_append (v : UInt32) (b : List UInt8) : word32 (le32 v ++ b) 0 = v :=
  word32_le32 (a := []) rfl

theorem word32_le32_append_add (v : UInt32) (b : List UInt8) (offset : ℕ) :
    word32 (le32 v ++ b) (offset + 4) = word32 b offset := by
  rw [Nat.add_comm]
  exact word32_append_right (le32 v) b offset

theorem le32_inj {v w : UInt32} (h : le32 v = le32 w) : v = w := by
  have hv := word32_le32 (v := v) (a := []) (b := []) rfl
  rw [h] at hv
  exact hv.symm.trans (word32_le32 (a := []) rfl)

theorem le64_inj {v w : UInt64} (h : le64 v = le64 w) : v = w := by
  have hv := word64_le64 (v := v) (a := []) (b := []) rfl
  rw [h] at hv
  exact hv.symm.trans (word64_le64 (a := []) rfl)

/-- A word at the head of a string and the rest of it are both determined. -/
theorem le32_append_inj {v w : UInt32} {a b : List UInt8} :
    le32 v ++ a = le32 w ++ b ↔ v = w ∧ a = b := by
  refine ⟨fun h ↦ ?_, fun h ↦ by rw [h.1, h.2]⟩
  obtain ⟨hw, hrest⟩ := List.append_inj h rfl
  exact ⟨le32_inj hw, hrest⟩

/-! ## Buffers of fixed size -/

variable {size : ℕ}

/-- Write a string at an offset; what does not fit is dropped. -/
def write (buf : Vector UInt8 size) (offset : ℕ) (bytes : List UInt8) : Vector UInt8 size :=
  Vector.ofFn fun i ↦
    if offset ≤ i ∧ i < offset + bytes.length then bytes.getD (i - offset) 0 else buf[i]

/-- Copy `len` bytes from `src` to `dst` as if through a second buffer, so the two
ranges may overlap. -/
def move (buf : Vector UInt8 size) (dst src len : ℕ) : Vector UInt8 size :=
  Vector.ofFn fun i ↦
    if dst ≤ i ∧ i < dst + len then buf.toList.getD (src + (i - dst)) 0 else buf[i]

/-- Set `len` bytes from `offset` on to one value. -/
def fill (buf : Vector UInt8 size) (offset : ℕ) (value : UInt8) (len : ℕ) :
    Vector UInt8 size :=
  Vector.ofFn fun i ↦ if offset ≤ i ∧ i < offset + len then value else buf[i]

/-- The buffer that holds a string of its own length. -/
def ofList (bytes : List UInt8) (h : bytes.length = size) : Vector UInt8 size :=
  ⟨bytes.toArray, by simpa using h⟩

@[simp] theorem toList_ofList {bytes : List UInt8} (h : bytes.length = size) :
    (ofList bytes h).toList = bytes := rfl

/-- The bytes of an array that starts at `offset`; bytes past the end are zero. -/
def bytesAt (bytes : List UInt8) (offset size : ℕ) : Vector UInt8 size :=
  Vector.ofFn fun i ↦ bytes.getD (offset + i) 0

theorem bytesAt_toList_append (v : Vector UInt8 size) (b : List UInt8) :
    bytesAt (v.toList ++ b) 0 size = v := by
  ext i hi
  simp [bytesAt, List.getD_eq_getElem?_getD, List.getElem?_append_left]

/-- Behind a prefix, an array is read from the rest. -/
theorem bytesAt_append_right (a b : List UInt8) (offset size : ℕ) :
    bytesAt (a ++ b) (a.length + offset) size = bytesAt b offset size := by
  ext i hi
  simp [bytesAt, List.getD_eq_getElem?_getD, List.getElem?_append_right, Nat.add_assoc]

theorem bytesAt_le32_append_add (v : UInt32) (b : List UInt8) (offset size : ℕ) :
    bytesAt (le32 v ++ b) (offset + 4) size = bytesAt b offset size := by
  rw [Nat.add_comm]
  exact bytesAt_append_right (le32 v) b offset size

theorem bytesAt_toList_append_add {n : ℕ} (v : Vector UInt8 n) (b : List UInt8) (offset size : ℕ) :
    bytesAt (v.toList ++ b) (offset + n) size = bytesAt b offset size := by
  have h := bytesAt_append_right v.toList b offset size
  rwa [Vector.length_toList, Nat.add_comm] at h

theorem word32_toList_append_add {n : ℕ} (v : Vector UInt8 n) (b : List UInt8) (offset : ℕ) :
    word32 (v.toList ++ b) (offset + n) = word32 b offset := by
  have h := word32_append_right v.toList b offset
  rwa [Vector.length_toList, Nat.add_comm] at h

/-- A string written at the front is what a read of its length sees. -/
theorem take_write_zero (buf : Vector UInt8 size) {bytes : List UInt8} {len : ℕ}
    (hlen : bytes.length = len) (h : len ≤ size) :
    (write buf 0 bytes).toList.take len = bytes := by
  subst hlen
  apply List.ext_getElem
  · simpa using h
  · intro i hi₁ hi₂
    simp [write, hi₂]

/-- Writing as many bytes as there are replaces them all. -/
theorem write_toList (buf v : Vector UInt8 size) : write buf 0 v.toList = v := by
  ext i hi
  simp [write]

/-- Moving bytes to where they are changes nothing. -/
theorem move_self (buf : Vector UInt8 size) (offset len : ℕ) :
    move buf offset offset len = buf := by
  ext i hi
  simp only [move, Vector.getElem_ofFn]
  split
  · next h =>
    have hback : offset + (i - offset) = i := by omega
    simp [hback, hi]
  · rfl

/-- Writing a string at the front, moving it to the back and clearing what it left
in front of it: the buffer then holds the string behind zero bytes. -/
theorem fill_move_write (buf : Vector UInt8 size) {bytes : List UInt8}
    (h : bytes.length ≤ size) :
    (fill (move (write buf 0 bytes) (size - bytes.length) 0 bytes.length) 0 0
      (size - bytes.length)).toList = List.replicate (size - bytes.length) 0 ++ bytes := by
  apply List.ext_getElem
  · simp
    omega
  · intro i hi₁ hi₂
    have hi : i < size := by simpa using hi₁
    by_cases hpad : i < size - bytes.length
    · simp [fill, hpad]
    · have hback : i - (size - bytes.length) < bytes.length := by omega
      have hsize : i - (size - bytes.length) < size := by omega
      simp [fill, move, write, List.getElem_append_right, hpad, hback, hsize,
        show size - bytes.length ≤ i by omega, show i < size - bytes.length + bytes.length by omega]
      intro hlt
      omega

end ByteString
