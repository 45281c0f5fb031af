import SecureIIoT.Host.Bench

/-!
# Bookkeeping: arrays, packets and calls

What the invariants of both benchmarks are made of.  The packet number `c` of a run has the
nonce `benchNonce c`, and the sample number `n` of an array goes to the index `n`, wrapped
to 32 bits.  The triples at the end are those of the calls that both programs make.
-/

namespace SecureIIoT

open Host

/-! ## Arrays and nonces -/

/-- An array of a size after `n` writes. -/
structure Filled (array : LatencyArray) (size n : ℕ) : Prop where
  size_eq : array.size = size
  indices_eq : array.indices = (List.range n).map (· % 2 ^ 32)

theorem Filled.write {array : LatencyArray} {size n : ℕ} (h : Filled array size n)
    (latency : UInt64) : Filled (array.write (UInt32.ofNat n) latency) size (n + 1) where
  size_eq := h.size_eq
  indices_eq := by
    rw [LatencyArray.indices_write, h.indices_eq, List.range_succ, List.map_append,
      UInt32.toNat_ofNat']
    rfl

theorem filled_empty (size : ℕ) : Filled ⟨size, []⟩ size 0 :=
  ⟨rfl, rfl⟩

/-- The nonce of a packet, by its number in a run. -/
def benchNonce (c : ℕ) : Vector UInt8 12 :=
  secureIiotBuildDemoNonce (UInt32.ofNat (c % 3) + 1) 1 (UInt32.ofNat c + 1)

/-- The packets of a run are numbered from zero on. -/
def Numbered (packets : List SecureSensorPacket) (c : ℕ) : Prop :=
  packets.map (·.nonce) = (List.range c).map benchNonce

theorem nonce_of_created {evp : EvpCrypto} {reading : SensorPlaintext} {sequence : UInt32}
    {packet : SecureSensorPacket} (h : secureIiotCreatePacket evp reading sequence = some packet) :
    packet.nonce = secureIiotBuildDemoNonce reading.sensorId reading.windowId sequence := by
  unfold secureIiotCreatePacket at h
  dsimp only at h
  split at h
  · cases h
  · split at h
    · cases h
    · cases h
      rfl

theorem Numbered.concat {packets : List SecureSensorPacket} {c : ℕ} (h : Numbered packets c)
    {packet : SecureSensorPacket} (hnonce : packet.nonce = benchNonce c) :
    Numbered (packets ++ [packet]) (c + 1) := by
  rw [Numbered, List.map_append, h, List.range_succ, List.map_append, List.map_singleton,
    List.map_singleton, hnonce]

/-- The test for a measured iteration. -/
theorem le_ofNat_iff {w : UInt32} {k : ℕ} (hk : k < 2 ^ 32) :
    w ≤ UInt32.ofNat k ↔ w.toNat ≤ k := by
  rw [UInt32.le_iff_toNat_le, UInt32.toNat_ofNat_of_lt' hk]

/-! ## The calls of a benchmark -/

section Calls

variable {Vars R : Type} {P : BenchRun Vars → Prop} {E : BenchFault → BenchRun Vars → Prop}

theorem triple_setVars {f : Vars → Vars} {Q : Unit → BenchRun Vars → Prop}
    (h : ∀ s, P s → Q () { s with vars := f s.vars }) : Triple P (setVars f) Q E :=
  .modify h

theorem triple_createPacket {evp : EvpCrypto} {reading : SensorPlaintext} {sequence : UInt32}
    {Q : SecureSensorPacket → BenchRun Vars → Prop}
    (hok : ∀ packet s, packet.nonce =
      secureIiotBuildDemoNonce reading.sensorId reading.windowId sequence →
      P s → Q packet { s with packets := s.packets ++ [packet] })
    (herror : ∀ e s, secureIiotCreatePacket evp reading sequence = none → P s → E e s) :
    Triple P (createPacket evp reading sequence) Q E := by
  unfold createPacket
  rcases hcreate : secureIiotCreatePacket evp reading sequence with _ | packet
  · exact fun s hs ↦ herror _ s hcreate hs
  · exact fun s hs ↦ hok packet s (nonce_of_created hcreate) hs

theorem allocateLatencies_of_succeeds {succeeds : Bool} (h : succeeds = true) :
    allocateLatencies succeeds = .ok () :=
  if_pos h

/-- A call of `compute_stats` is recorded, whether it returns or not. -/
theorem triple_callComputeStats {computeStats : List UInt64 → UInt32 → Except BenchFault R}
    {array : Vars → LatencyArray} {count : UInt32} {Q : BenchRun Vars → Prop}
    (h : ∀ s, P s → Q { s with statsCalls := s.statsCalls ++ [(array s.vars, count)] }) :
    Triple P (callComputeStats computeStats array count) (fun _ ↦ Q) fun _ ↦ Q := by
  intro s hs
  have hrun : callComputeStats computeStats array count s =
      fromExcept (computeStats (array s.vars).words count)
        { s with statsCalls := s.statsCalls ++ [(array s.vars, count)] } := rfl
  rw [hrun]
  exact Triple.of_fromExcept (fun _ _ _ h ↦ h) (fun _ _ _ h ↦ h) _ (h s hs)

end Calls

end SecureIIoT
