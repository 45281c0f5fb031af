import Mathlib.Data.Nat.ChineseRemainder
import SecureIIoT.Bookkeeping.Bench
import SecureIIoT.Bookkeeping.FullCrypto

/-!
# Nonces of the benchmarks

No two packets of a run have the same nonce, however long the run (`bench_nonces_nodup`).
The sequence number wraps, and in the full benchmark so does the product it is computed
from; but the sensor tells the number of a packet modulo three, the sequence number tells it
modulo `2 ^ 32`, and a run creates at most `3 * 2 ^ 32` packets.  Unless a call
fails it creates three in every iteration, or one (`fullCryptoBench_length`,
`benchMain_length`).
-/

namespace SecureIIoT

open Host ByteString

theorem toList_secureIiotBuildDemoNonce (sensorId windowId sequence : UInt32) :
    (secureIiotBuildDemoNonce sensorId windowId sequence).toList =
      le32 sensorId ++ (le32 windowId ++ le32 sequence) :=
  toList_ofList rfl

theorem secureIiotBuildDemoNonce_eq_iff {sensorId windowId sequence sensorId' windowId'
    sequence' : UInt32} :
    secureIiotBuildDemoNonce sensorId windowId sequence =
        secureIiotBuildDemoNonce sensorId' windowId' sequence' ↔
      sensorId = sensorId' ∧ windowId = windowId' ∧ sequence = sequence' := by
  constructor
  · intro h
    have hbytes := congrArg Vector.toList h
    rw [toList_secureIiotBuildDemoNonce, toList_secureIiotBuildDemoNonce, le32_append_inj,
      le32_append_inj] at hbytes
    exact ⟨hbytes.1, hbytes.2.1, le32_inj hbytes.2.2⟩
  · rintro ⟨rfl, rfl, rfl⟩
    rfl

theorem ofNat_eq_iff {c c' : ℕ} : UInt32.ofNat c = UInt32.ofNat c' ↔ c ≡ c' [MOD 2 ^ 32] := by
  rw [← UInt32.toNat_inj, UInt32.toNat_ofNat', UInt32.toNat_ofNat']
  rfl

/-- A nonce tells the number of its packet modulo three and modulo `2 ^ 32`. -/
theorem benchNonce_eq_iff {c c' : ℕ} :
    benchNonce c = benchNonce c' ↔ c ≡ c' [MOD 3] ∧ c ≡ c' [MOD 2 ^ 32] := by
  have hsmall : ∀ c, c % 3 < 2 ^ 32 := fun c ↦ (Nat.mod_lt c three_pos).trans (by decide)
  rw [benchNonce, benchNonce, secureIiotBuildDemoNonce_eq_iff, UInt32.add_left_inj,
    UInt32.add_left_inj, ofNat_eq_iff, ofNat_eq_iff]
  constructor
  · rintro ⟨hsensor, -, hsequence⟩
    exact ⟨hsensor.eq_of_lt_of_lt (hsmall c) (hsmall c'), hsequence⟩
  · rintro ⟨hsensor, hsequence⟩
    exact ⟨by rw [hsensor], rfl, hsequence⟩

theorem benchNonce_inj {c c' : ℕ} (hc : c < 3 * 2 ^ 32) (hc' : c' < 3 * 2 ^ 32)
    (h : benchNonce c = benchNonce c') : c = c' := by
  have hcoprime : Nat.Coprime 3 (2 ^ 32) := by norm_num
  have hmod := (Nat.modEq_and_modEq_iff_modEq_mul hcoprime).mp (benchNonce_eq_iff.mp h)
  exact hmod.eq_of_lt_of_lt hc hc'

theorem Numbered.nodup {packets : List SecureSensorPacket} {c : ℕ} (h : Numbered packets c)
    (hc : c ≤ 3 * 2 ^ 32) : (packets.map (·.nonce)).Nodup := by
  rw [h]
  refine List.Nodup.map_on (fun x hx y hy hxy ↦ ?_) List.nodup_range
  rw [List.mem_range] at hx hy
  exact benchNonce_inj (hx.trans_le hc) (hy.trans_le hc) hxy

theorem Numbered.length_eq {packets : List SecureSensorPacket} {c : ℕ} (h : Numbered packets c) :
    packets.length = c := by
  have hlength := congrArg List.length h
  rwa [List.length_map, List.length_map, List.length_range] at hlength

/-! ## Whole runs -/

section Runs

variable {width : ℕ}

theorem fullCryptoBench_nodup {C A : Type} (mode : FullCryptoMode C A) (calloc : Calloc width)
    (m : UInt32) :
    ((finalState (fullCryptoBench mode calloc m) (fullCryptoStart m)).packets.map
      (·.nonce)).Nodup := by
  have hT : (fullCryptoWarmupIters + m).toNat < 2 ^ 32 := UInt32.toNat_lt _
  rcases fullCryptoBench_ended mode calloc m with
    ⟨-, c, n, j, j', hc, -, -, -, hs⟩ | ⟨T, rfl, r, hs⟩
  · exact hs.numbered.nodup (hc.trans (Nat.mul_le_mul_left 3 hT.le))
  · exact hs.numbered.nodup (Nat.mul_le_mul_left 3 hT.le)

theorem benchMain_nodup (calloc : Calloc width) (env : BenchEnv) (m : UInt32) :
    ((finalState (benchMain calloc env m) (benchStart m)).packets.map (·.nonce)).Nodup := by
  have hT : (warmupIters + m).toNat < 2 ^ 32 := UInt32.toNat_lt _
  have hmax : (warmupIters + m).toNat ≤ 3 * 2 ^ 32 := by omega
  rcases benchMain_ended calloc env m with ⟨-, c, n, hc, -, hs⟩ | ⟨q, p, -, -, hs, -⟩
  · exact hs.numbered.nodup (hc.trans hmax)
  · exact hs.numbered.nodup hmax

/-- A run that no call stops creates three packets in each iteration. -/
theorem fullCryptoBench_length {C A : Type} {mode : FullCryptoMode C A} (hreliable : Reliable mode)
    {calloc : Calloc width} {m : UInt32} (hcalloc : FullAllocated calloc m) :
    (finalState (fullCryptoBench mode calloc m) (fullCryptoStart m)).packets.length =
      3 * (fullCryptoWarmupIters + m).toNat := by
  rcases fullCryptoBench_ended mode calloc m with ⟨hfailed, -⟩ | ⟨T, rfl, r, hs⟩
  · exact absurd ⟨hreliable, hcalloc⟩ hfailed
  · exact hs.numbered.length_eq

/-- A run that no call stops creates a packet in each iteration. -/
theorem benchMain_length {env : BenchEnv} (hreliable : BenchReliable env) {calloc : Calloc width}
    {m : UInt32} (hcalloc : calloc.succeeds .fog m.toNat = true) :
    (finalState (benchMain calloc env m) (benchStart m)).packets.length =
      (warmupIters + m).toNat := by
  rcases benchMain_ended calloc env m with ⟨hfailed, -⟩ | ⟨q, p, -, -, hs, -⟩
  · exact absurd ⟨hreliable, hcalloc⟩ hfailed
  · exact hs.numbered.length_eq

/-- In every run of either benchmark, whatever its length and wherever it ends, the packets
that it has created have different nonces. -/
theorem bench_nonces_nodup (calloc : Calloc width) (m : UInt32) :
    (∀ env, ((finalState (fullCryptoMain calloc env m) (fullCryptoStart m)).packets.map
      (·.nonce)).Nodup) ∧
    (∀ env, ((finalState (runHostReference2048 calloc env m) (fullCryptoStart m)).packets.map
      (·.nonce)).Nodup) ∧
    ∀ env, ((finalState (benchMain calloc env m) (benchStart m)).packets.map
      (·.nonce)).Nodup :=
  ⟨fun env ↦ fullCryptoBench_nodup (liveMode env) calloc m,
    fun env ↦ fullCryptoBench_nodup (reference2048Mode env) calloc m,
    fun env ↦ benchMain_nodup calloc env m⟩

end Runs

end SecureIIoT
