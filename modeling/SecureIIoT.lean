import SecureIIoT.Abi
import SecureIIoT.DemoKey
import SecureIIoT.Lib.Aead
import SecureIIoT.Lib.Modexp
import SecureIIoT.Lib.Paillier
import SecureIIoT.Tee
import SecureIIoT.TA.Paillier
import SecureIIoT.TA.Commands
import SecureIIoT.Host.Common
import SecureIIoT.Host.Paillier
import SecureIIoT.Decryption
import SecureIIoT.Aggregation
import SecureIIoT.Fog
import SecureIIoT.RecordedGcm
import SecureIIoT.Storage
import SecureIIoT.Oracle
import SecureIIoT.Modes
import SecureIIoT.Host.Kmm
import SecureIIoT.SlotMap
import SecureIIoT.Delegation
import SecureIIoT.Integrity
import SecureIIoT.Verifier
import SecureIIoT.TA.Dispatch
import SecureIIoT.Failure
import SecureIIoT.Host.Keygen
import SecureIIoT.RoundTrip
import SecureIIoT.Accounting
import SecureIIoT.Arguments
import SecureIIoT.Encoding
import SecureIIoT.Grouping
import SecureIIoT.Lib.Sampling
import SecureIIoT.Randomiser
import SecureIIoT.Tamper
import SecureIIoT.BenchCounts
import SecureIIoT.BenchNonces
import SecureIIoT.Statistics
import SecureIIoT.System
import SecureIIoT.Host.Pipeline
import SecureIIoT.Pipeline
import SecureIIoT.Host.PaillierBench
import SecureIIoT.PaillierBench
import SecureIIoT.Lib.Radix
import SecureIIoT.Mp.Basic
import SecureIIoT.Mp.Add
import SecureIIoT.Mp.Mul
import SecureIIoT.Mp.Shift
import SecureIIoT.Mp.Div
import SecureIIoT.Lib.Montgomery
import SecureIIoT.Lib.Window
import SecureIIoT.Mp.Montgomery
import SecureIIoT.Mp.Reduce
import SecureIIoT.Mp.Barrett
import SecureIIoT.Mp.Exptmod
import SecureIIoT.Mp.Gcd
import SecureIIoT.Mp.Large
import SecureIIoT.Mp.Invmod
import SecureIIoT.Mp.Bytes
import SecureIIoT.Mp.ReadRadix
import SecureIIoT.Mp.Arithmetic
import SecureIIoT.TA.PaillierMp
