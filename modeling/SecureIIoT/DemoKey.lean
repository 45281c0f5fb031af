import SecureIIoT.Key
import SecureIIoT.Lib.Modexp
import Mathlib.Tactic.NormNum.Prime

/-!
# The fixed demo key

The hexadecimal constants of `ta/paillier_ta.c` and of `host/paillier_host.c`, each
transcribed from its own file, and the proof that they are what they are meant to
be: one key, generated from two distinct odd primes of 256 bits.  The primes are not
in the source; they follow from `n` and `lambda`, and Lucas's test shows that they
are primes, down a chain of the factors of `p - 1` and `q - 1`.
-/

namespace SecureIIoT

open Modexp

/-! ## The constants of the TA -/

namespace TA

def paillierNHex : ℕ :=
  0xd2007a47121b1ea33ba8c1cc20b9011fff3aff9c15c830773b1b55de7c21b20f7a42be8d4dfc2a4eebc351acdbeb5e6b69c4fa1e537e1c8cb26352ee3dd4a38d

def paillierGHex : ℕ :=
  0xd2007a47121b1ea33ba8c1cc20b9011fff3aff9c15c830773b1b55de7c21b20f7a42be8d4dfc2a4eebc351acdbeb5e6b69c4fa1e537e1c8cb26352ee3dd4a38e

def paillierN2Hex : ℕ :=
  0xac44c89cd41c4f40b3674489447e8f2d2450afbeac4bb3408f9b33554acf6f3d4bf5e1261b42598d1453d5613312c9da3a496683aac2559ff20c2650723d463204a8ed0c62eb260facea94541ffe827d6d14a706c91e87e5201bf79456f794697ba0e91aee73e572b979c064ecdd362158df90611e42bd71d22374bc7c04dba9

def paillierLambdaHex : ℕ :=
  0x34801e91c486c7a8ceea3073082e4047ffcebfe705720c1dcec6d5779f086c836a9d232f8da0b3f2060783d5ceacf5ecfe46401553f5d21d68087aea791755c8

def paillierMuHex : ℕ :=
  0x9f4b9e3df00eacdbb148539d636842e9013deabcd55523378d87ba50ef8c0c7046b80127fcccdfed10fc793aeeae5a307792fb03b14bbe139963287be0a392aa

/-- The key `read_fixed_private_key` reads. -/
def fixedKey : PaillierKey :=
  ⟨paillierNHex, paillierN2Hex, paillierGHex, paillierLambdaHex, paillierMuHex⟩

end TA

/-! ## The constants of the host -/

namespace Host

def paillierDemoNHex : ℕ :=
  0xd2007a47121b1ea33ba8c1cc20b9011fff3aff9c15c830773b1b55de7c21b20f7a42be8d4dfc2a4eebc351acdbeb5e6b69c4fa1e537e1c8cb26352ee3dd4a38d

def paillierDemoGHex : ℕ :=
  0xd2007a47121b1ea33ba8c1cc20b9011fff3aff9c15c830773b1b55de7c21b20f7a42be8d4dfc2a4eebc351acdbeb5e6b69c4fa1e537e1c8cb26352ee3dd4a38e

def paillierDemoN2Hex : ℕ :=
  0xac44c89cd41c4f40b3674489447e8f2d2450afbeac4bb3408f9b33554acf6f3d4bf5e1261b42598d1453d5613312c9da3a496683aac2559ff20c2650723d463204a8ed0c62eb260facea94541ffe827d6d14a706c91e87e5201bf79456f794697ba0e91aee73e572b979c064ecdd362158df90611e42bd71d22374bc7c04dba9

def paillierDemoLambdaHex : ℕ :=
  0x34801e91c486c7a8ceea3073082e4047ffcebfe705720c1dcec6d5779f086c836a9d232f8da0b3f2060783d5ceacf5ecfe46401553f5d21d68087aea791755c8

def paillierDemoMuHex : ℕ :=
  0x9f4b9e3df00eacdbb148539d636842e9013deabcd55523378d87ba50ef8c0c7046b80127fcccdfed10fc793aeeae5a307792fb03b14bbe139963287be0a392aa

/-- The key `paillier_host_init_fixed_demo_key` leaves in its argument. -/
def paillierHostInitFixedDemoKey : PaillierKey :=
  ⟨paillierDemoNHex, paillierDemoN2Hex, paillierDemoGHex, paillierDemoLambdaHex,
    paillierDemoMuHex⟩

end Host

/-- Both sides hold the same key. -/
theorem hostKey_eq : Host.paillierHostInitFixedDemoKey = TA.fixedKey := by decide +kernel

/-! ## The primes behind them -/

def demoP : ℕ := 106832557732555420822273913572228734248365871601171791250416140344140391189257

def demoQ : ℕ := 102952605425593321696258284932765760553574560037023211607158495116316866003301

/-- The small primes the chains start from. -/
def smallPrimes : List ℕ :=
  [2, 3, 5, 7, 11, 19, 23, 31, 41, 43, 47, 97, 239, 271, 281, 293, 431, 457, 463, 491, 929, 937,
   1217, 1543, 2281, 3733, 3803, 4013, 4091, 9203, 9679, 12109, 14879, 25969, 33013, 40063, 78139,
   293989, 984611, 5702387, 10466429]

theorem smallPrimes_prime : ∀ f ∈ smallPrimes, f.Prime := by
  simp only [smallPrimes, List.forall_mem_cons]
  norm_num

/-- Down from `demoP - 1`, the last entry. -/
def demoPChain : List (ℕ × ℕ × List ℕ) :=
  [(226339349, 2, [2, 2, 3803, 14879]),
   (1153964093, 2, [2, 2, 293, 984611]),
   (57822383, 5, [2, 41, 457, 1543]),
   (117684527677, 5, [2, 2, 3, 937, 10466429]),
   (8053152228937111, 6, [2, 3, 5, 2281, 117684527677]),
   (254408806351444477794661514601353719547777, 3, [2, 2, 2, 2, 2, 2, 2, 1217, 4091, 25969, 33013,
     57822383, 8053152228937111]),
   (24002453244033380702015135256579318024454568843, 2, [2, 7, 23, 293,
     254408806351444477794661514601353719547777]),
   (17240135864948338019214857606985805728339134261244578051474552190251, 2, [2, 5, 5, 5, 11,
     226339349, 1153964093, 24002453244033380702015135256579318024454568843]),
   (demoP, 3, [2, 2, 2, 23, 431, 78139,
     17240135864948338019214857606985805728339134261244578051474552190251])]

/-- Down from `demoQ - 1`, the last entry. -/
def demoQChain : List (ℕ × ℕ × List ℕ) :=
  [(219075859, 2, [2, 3, 3, 97, 271, 463]),
   (4453206465577, 10, [2, 2, 2, 3, 11, 491, 3733, 9203]),
   (40119364556203888393, 5, [2, 2, 2, 3, 31, 12109, 4453206465577]),
   (1559802165735199, 3, [2, 3, 7, 7, 7, 11, 43, 281, 5702387]),
   (321545639, 7, [2, 4013, 40063]),
   (2572365113, 3, [2, 2, 2, 321545639]),
   (142174444874682317, 2, [2, 2, 47, 293989, 2572365113]),
   (233929123557147206995301650368870098595289, 7, [2, 2, 2, 3, 19, 239, 9679, 1559802165735199,
     142174444874682317]),
   (demoQ, 2, [2, 2, 5, 5, 7, 7, 11, 929, 219075859, 40119364556203888393,
     233929123557147206995301650368870098595289])]

theorem demoChains : LucasChain smallPrimes demoPChain ∧ LucasChain smallPrimes demoQChain := by
  decide +kernel

theorem demoP_prime : demoP.Prime :=
  demoChains.1.prime smallPrimes_prime (demoP, _) (List.mem_of_getLast? rfl)

theorem demoQ_prime : demoQ.Prime :=
  demoChains.2.prime smallPrimes_prime (demoQ, _) (List.mem_of_getLast? rfl)

/-! ## The key they generate -/

def demoModulus : Paillier.Modulus where
  p := demoP
  q := demoQ
  p_prime := demoP_prime
  q_prime := demoQ_prime
  p_odd := by decide +kernel
  q_odd := by decide +kernel
  ne := by decide +kernel

theorem demoModulus_lam : demoModulus.lam = TA.paillierLambdaHex := by decide +kernel

/-- The fixed demo key, as a key that is known to be one. -/
def demoKey : DemoSizedKey where
  toPaillierKey := TA.fixedKey
  modulus := demoModulus
  n_eq := by decide +kernel
  n2_eq := by decide +kernel
  g_eq := by decide +kernel
  lambda_eq := demoModulus_lam.symm
  mu_inv := by
    have h : powMod TA.fixedKey.g TA.fixedKey.lambda TA.fixedKey.n2 =
        TA.fixedKey.lambda * TA.fixedKey.n + 1 := by decide +kernel
    rw [← powMod_eq, h]
    decide +kernel
  n_lt := by decide +kernel

theorem demoKey_toPaillierKey : demoKey.toPaillierKey = TA.fixedKey := rfl

theorem demoKey_n_gt : 2 ^ 32 < demoKey.n := by decide +kernel

/-- Some small units, to draw. -/
theorem demoKey_units : Nat.Coprime 2 demoKey.n ∧ Nat.Coprime 3 demoKey.n ∧
    Nat.Coprime 5 demoKey.n := by
  decide +kernel

end SecureIIoT
