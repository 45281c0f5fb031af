import SecureIIoT.Host.Keygen
import SecureIIoT.Host.Stats

/-!
# `secure_iiot_paillier_bench`

`main` of `host/main_paillier_bench.c` from the parsed arguments on.  It generates a key,
encrypts a reading in every iteration, multiplies the ciphertexts together and decrypts the
product, which it does not print.

The random numbers, the clock and the calls of `calloc` are parameters; every BIGNUM
operation is exact.  A loop over random numbers that does not end within its draws is put
down as the failure of the call it is in.
-/

namespace SecureIIoT

namespace Host

/-- What `main` calls. -/
structure PaillierBenchEnv where
  /-- The three arrays are allocated. -/
  arrays : Bool
  primes : BnGeneratePrimeEx
  primeDraws : ℕ
  rand : (i : ℕ) → ℕ → ℕ
  unitDraws : ℕ
  keygenTimes : UInt64 × UInt64
  encryptTimes : (i : ℕ) → UInt64 × UInt64
  addTimes : (i : ℕ) → UInt64 × UInt64
  decryptTimes : UInt64 × UInt64
  /-- The array of a call of `compute_stats`, by the number of the call. -/
  sorted : (call : ℕ) → ℕ → Bool
  width : ℕ

/-- What is printed. -/
structure PaillierBenchReport where
  bits : UInt32
  ciphertextLen : ℕ
  iterations : UInt32
  keygenUs : UInt64
  encrypt : Stats
  add : Stats
  decryptUs : UInt64

/-- `end_us - start_us` -/
def elapsed (times : UInt64 × UInt64) : UInt64 :=
  times.2 - times.1

/-- `reading` -/
def paillierBenchReading (i : UInt32) : UInt32 :=
  25000 + i % 100

section Bench

variable (env : PaillierBenchEnv)

/-- The key pair of `paillier_host_keygen_demo`, which takes the size as an `int`. -/
def paillierBenchKey (bits : UInt32) : Except BenchFault PaillierKey :=
  match paillierHostKeygenDemo env.primes env.primeDraws ⟨0, 0, 0, 0, 0⟩ bits.toInt32.toInt with
  | none => .error (.errx "Paillier key generation failed")
  | some (ret, key) =>
    if ret = 0 then .error (.errx "Paillier key generation failed") else .ok key

/-- The loop that fills `ciphertexts`, for the iterations that are left. -/
def paillierBenchEncrypt (key : PaillierKey) : (i left : ℕ) → Except BenchFault (List ℕ)
  | _, 0 => .ok []
  | i, left + 1 =>
    match paillierHostEncryptU32 key (env.rand i) env.unitDraws
        (paillierBenchReading (UInt32.ofNat i)) with
    | none => .error (.errx "Paillier encryption failed")
    | some ciphertext => do
      let ciphertexts ← paillierBenchEncrypt key (i + 1) left
      return ciphertext :: ciphertexts

/-- `BN_dup` of the first ciphertext, and the loop over the others. -/
def paillierBenchAggregate (key : PaillierKey) : List ℕ → ℕ
  | [] => 0
  | first :: ciphertexts => ciphertexts.foldl (paillierHostAddCiphertextsReal key) first

/-- `iterations > 1 ? iterations - 1 : otherwise` -/
def additions (iterations otherwise : UInt32) : UInt32 :=
  if 1 < iterations then iterations - 1 else otherwise

/-- The latencies of the additions, in the cleared array they are written to. -/
def addLatencies (iterations : UInt32) : List UInt64 :=
  (List.range (additions iterations 1).toNat).map fun i ↦
    if 1 < iterations then elapsed (env.addTimes (i + 1)) else 0

/-- The decryption of the aggregate, whose message is not used. -/
def paillierBenchDecrypt (key : PaillierKey) (aggregate : ℕ) : Except BenchFault UInt32 :=
  match paillierHostDecryptU32 key aggregate with
  | none => .error (.errx "Paillier decryption failed")
  | some decrypted => .ok decrypted

def paillierBench (bits iterations : UInt32) : Except BenchFault PaillierBenchReport :=
  if env.arrays = false then .error (.errx "failed to allocate benchmark arrays")
  else do
    let key ← paillierBenchKey env bits
    let ciphertexts ← paillierBenchEncrypt env key 0 iterations.toNat
    let _ ← paillierBenchDecrypt key (paillierBenchAggregate key ciphertexts)
    let encrypt ← paillierBenchComputeStats (env.sorted 0) env.width
      ((List.range iterations.toNat).map fun i ↦ elapsed (env.encryptTimes i)) iterations
    let add ← paillierBenchComputeStats (env.sorted 1) env.width (addLatencies env iterations)
      (additions iterations 0)
    return {
      bits := bits
      ciphertextLen := ByteString.byteLength key.n2
      iterations := iterations
      keygenUs := elapsed env.keygenTimes
      encrypt := encrypt
      add := add
      decryptUs := elapsed env.decryptTimes }

end Bench

end Host

end SecureIIoT
