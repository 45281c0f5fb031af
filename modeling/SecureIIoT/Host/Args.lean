import SecureIIoT.Lib.Strtoul

/-!
# The arguments of the benchmarks

`parse_u32_arg` and `parse_args` of `host/main_full_crypto_bench.c` and of
`host/main_paillier_bench.c`, and `parse_iterations` of `host/main_bench.c`.  An error is
a call of `errx`, which ends the program with status 1.

The width of `unsigned long` is a parameter.  A pointer into a string is the rest of the
string, and what it points at is the first byte of that, or the terminator.
-/

namespace SecureIIoT

open Strtoul

namespace Host

/-- A string without its terminator. -/
structure CString where
  bytes : List UInt8
  noNul : ∀ b ∈ bytes, b ≠ 0
deriving DecidableEq

/-- What a pointer into a string points at. -/
def pointee (rest : List UInt8) : UInt8 :=
  rest.headD 0

/-- The calls of `errx` that end the parsing of arguments. -/
inductive ArgError
  /-- `"usage: %s ..."` -/
  | usage (arguments : String)
  /-- `"invalid %s: %s"` -/
  | invalid (name : String) (arg : CString)
  | unsupported (message : String)
deriving DecidableEq

/-- `parse_u32_arg`, the same in both programs. -/
def parseU32Arg (width : ℕ) (arg : CString) (name : String) : Except ArgError UInt32 :=
  let (value, end') := strtoul width arg.bytes
  -- `end` is never null, and `UINT32_MAX` is `2 ^ 32 - 1`.
  if pointee end' ≠ 0 ∨ value = 0 ∨ 2 ^ 32 - 1 < value then .error (.invalid name arg)
  else .ok (UInt32.ofNat value)

/-! ## `main_bench.c` -/

/-- `parse_iterations`, with what follows the name of the program. -/
def parseIterations (width : ℕ) : List CString → Except ArgError UInt32
  | [] => .ok 100
  | [arg] => parseU32Arg width arg "measured iteration count"
  | _ => .error (.usage "[measured_iterations]")

/-! ## `main_full_crypto_bench.c` -/

/-- `parse_args`: the iterations and the key size. -/
def fullCryptoParseArgs (width : ℕ) : List CString → Except ArgError (UInt32 × UInt32)
  | [] => .ok (30, 512)
  | [iterations] => do
    let iterations ← parseU32Arg width iterations "measured iteration count"
    return (iterations, 512)
  | [iterations, keyBits] => do
    let iterations ← parseU32Arg width iterations "measured iteration count"
    let keyBits ← parseU32Arg width keyBits "Paillier key size"
    if keyBits ≠ 512 ∧ keyBits ≠ 2048 then
      .error (.unsupported "supported Paillier key sizes are 512 and 2048")
    else return (iterations, keyBits)
  | _ => .error (.usage "[measured_iterations [512|2048]]")

/-! ## `main_paillier_bench.c` -/

/-- `parse_args`: the key size and the iterations. -/
def paillierBenchParseArgs (width : ℕ) : List CString → Except ArgError (UInt32 × UInt32)
  | [] => .ok (512, 100)
  | [bits, iterations] => do
    let bits ← parseU32Arg width bits "key size"
    let iterations ← parseU32Arg width iterations "iteration count"
    if bits < 32 then .error (.unsupported "key size must be at least 32 bits")
    else return (bits, iterations)
  | _ => .error (.usage "[key_bits iterations]")

end Host

end SecureIIoT
