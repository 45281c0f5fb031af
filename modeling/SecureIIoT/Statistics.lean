import Mathlib.Data.UInt
import SecureIIoT.Host.Stats

/-!
# What the benchmarks report

The three copies of `compute_stats` report the same about the same latencies, whatever
their order, and it is what the names say: extrema, the average rounded down, and
percentiles by nearest rank (`computeStats_isReport`).
-/

namespace SecureIIoT

open Host

/-! ## The loop -/

theorem foldl_step (latencies : List UInt64) (s : StatsLoop) :
    latencies.foldl StatsLoop.step s =
      { sum := s.sum + latencies.sum
        min := latencies.foldl min s.min
        max := latencies.foldl max s.max
        sorted := s.sorted ++ latencies } := by
  induction latencies generalizing s with
  | nil => simp
  | cons value latencies ih =>
    have hmin : (if value < s.min then value else s.min) = min s.min value := by
      rw [min_comm, min_def_lt]
    have hmax : (if s.max < value then value else s.max) = max s.max value :=
      (max_def_lt s.max value).symm
    simp [ih, StatsLoop.step, hmin, hmax, UInt64.add_assoc]

theorem foldl_sum_append (latencies : List UInt64) (sum : UInt64) (sorted : List UInt64) :
    latencies.foldl (fun (sum, sorted) latency ↦ (sum + latency, sorted ++ [latency]))
      (sum, sorted) = (sum + latencies.sum, sorted ++ latencies) := by
  induction latencies generalizing sum sorted with
  | nil => simp
  | cons latency latencies ih => simp [ih, UInt64.add_assoc]

/-- The sum wraps. -/
theorem toNat_sum (latencies : List UInt64) :
    latencies.sum.toNat = (latencies.map UInt64.toNat).sum % 2 ^ 64 := by
  induction latencies with
  | nil => rfl
  | cons latency latencies ih => simp [UInt64.toNat_add, ih]

/-! ## The copies agree -/

section Copies

variable {latencies : List UInt64} {count : UInt32}

theorem benchComputeStats_eq (calloc : ℕ → Bool) (width : ℕ)
    (hlength : latencies.length = count.toNat) :
    benchComputeStats calloc width latencies count =
      if calloc count.toNat then do
        let summary ← summarise width latencies latencies.sum count
        return { summary with
          min := latencies.foldl min 0xffffffffffffffff
          max := latencies.foldl max 0 }
      else .error (.errx "failed to allocate sorted latency array") := by
  rw [benchComputeStats, ← hlength, forLatencies_length, foldl_step]
  simp only [UInt64.zero_add, List.nil_append]
  rfl

/-- For the first copy, no count is no reason to stop before the allocation. -/
theorem paillierBenchComputeStats_eq (calloc : ℕ → Bool) (width : ℕ)
    (latencies : List UInt64) (hcount : count ≠ 0) :
    paillierBenchComputeStats calloc width latencies count =
      benchComputeStats calloc width latencies count := by
  rw [paillierBenchComputeStats, if_neg hcount, benchComputeStats]

theorem fullCryptoComputeStats_eq (calloc : ℕ → Bool) (width : ℕ)
    (hlength : latencies.length = count.toNat) :
    fullCryptoComputeStats calloc width latencies count =
      if calloc count.toNat then summarise width latencies latencies.sum count
      else .error (.errx "failed to allocate sorted latency array") := by
  rw [fullCryptoComputeStats, ← hlength, forLatencies_length, foldl_sum_append]
  simp only [UInt64.zero_add, List.nil_append]
  rfl

end Copies

/-! ## Order does not matter -/

section Order

variable {latencies latencies' : List UInt64} {count : UInt32}

theorem sum_eq_of_perm (h : latencies.Perm latencies') : latencies.sum = latencies'.sum := by
  rw [← UInt64.toNat_inj, toNat_sum, toNat_sum, (h.map _).sum_eq]

theorem summarise_eq_of_perm (width : ℕ) (sum : UInt64) (count : UInt32)
    (h : latencies.Perm latencies') :
    summarise width latencies sum count = summarise width latencies' sum count := by
  rw [summarise, summarise, qsort_eq_of_perm h]

/-- A copy reports the same about latencies in another order. -/
theorem benchComputeStats_eq_of_perm (calloc : ℕ → Bool) (width : ℕ)
    (hlength : latencies.length = count.toNat) (h : latencies.Perm latencies') :
    benchComputeStats calloc width latencies count =
      benchComputeStats calloc width latencies' count := by
  rw [benchComputeStats_eq calloc width hlength,
    benchComputeStats_eq calloc width (h.length_eq ▸ hlength), sum_eq_of_perm h,
    summarise_eq_of_perm width _ count h, h.foldl_eq, h.foldl_eq]

theorem fullCryptoComputeStats_eq_of_perm (calloc : ℕ → Bool) (width : ℕ)
    (hlength : latencies.length = count.toNat) (h : latencies.Perm latencies') :
    fullCryptoComputeStats calloc width latencies count =
      fullCryptoComputeStats calloc width latencies' count := by
  rw [fullCryptoComputeStats_eq calloc width hlength,
    fullCryptoComputeStats_eq calloc width (h.length_eq ▸ hlength), sum_eq_of_perm h,
    summarise_eq_of_perm width _ count h]

end Order

/-! ## What is reported -/

section Report

variable {latencies : List UInt64} {count : UInt32} {width : ℕ}

theorem ne_zero_of_toNat_pos (hcount : 0 < count.toNat) : count ≠ 0 := by
  rintro rfl
  exact Nat.lt_irrefl 0 hcount

theorem meanOf_sum (hlength : latencies.length = count.toNat) (hcount : 0 < count.toNat)
    (hsum : (latencies.map UInt64.toNat).sum < 2 ^ 64) :
    ∃ mean, meanOf latencies.sum count = .ok mean ∧
      mean.toNat = (latencies.map UInt64.toNat).sum / latencies.length := by
  refine ⟨latencies.sum / count.toUInt64, if_neg (ne_zero_of_toNat_pos hcount), ?_⟩
  rw [UInt64.toNat_div, toNat_sum, Nat.mod_eq_of_lt hsum, UInt32.toNat_toUInt64, hlength]

/-- A percentile of the sorted latencies is their nearest rank. -/
theorem percentile_qsort (width pct : ℕ) (hlength : latencies.length = count.toNat)
    (hcount : 0 < count.toNat) (hpos : 0 < pct) (hpct : pct ≤ 100)
    (hwidth : count.toNat * pct + 99 < 2 ^ width) :
    ∃ value, percentile width (qsort latencies compareU64) count.toNat pct = .ok value ∧
      IsRanked latencies (latencies.length * pct ⌈/⌉ 100) value := by
  have hsorted : (qsort latencies compareU64).length = count.toNat :=
    (perm_qsort latencies).length_eq.trans hlength
  obtain ⟨hindex, hread⟩ := percentile_eq width pct hcount hsorted
  refine ⟨_, hread, ?_⟩
  rw [hlength, ← percentileIndex_eq hcount hpos hpct hwidth]
  exact (isRanked_getElem (sortedLE_qsort latencies) _ hindex).perm (perm_qsort latencies)

/-- A value of the latencies with at least `⌈count * pct / 100⌉` of them up to it, and at
least `count - ⌈count * pct / 100⌉ + 1` from it on. -/
structure IsNearestRank (latencies : List UInt64) (pct : ℕ) (value : UInt64) : Prop where
  mem : value ∈ latencies
  below : latencies.length * pct ⌈/⌉ 100 ≤ latencies.countP (· ≤ value)
  above : latencies.length - latencies.length * pct ⌈/⌉ 100 + 1 ≤ latencies.countP (value ≤ ·)

/-- What the names of the reported values promise. -/
structure IsReport (latencies : List UInt64) (s : Stats) : Prop where
  isLeast_min : IsLeast {latency | latency ∈ latencies} s.min
  isGreatest_max : IsGreatest {latency | latency ∈ latencies} s.max
  mean_eq : s.mean.toNat = (latencies.map UInt64.toNat).sum / latencies.length
  min_le_mean : s.min ≤ s.mean
  mean_le_max : s.mean ≤ s.max
  p50_nearestRank : IsNearestRank latencies 50 s.p50
  p95_nearestRank : IsNearestRank latencies 95 s.p95
  min_le_p50 : s.min ≤ s.p50
  p50_le_p95 : s.p50 ≤ s.p95
  p95_le_max : s.p95 ≤ s.max

theorem isNearestRank_of_isRanked {pct : ℕ} {value : UInt64} (hpct : pct ≤ 100)
    (h : IsRanked latencies (latencies.length * pct ⌈/⌉ 100) value) :
    IsNearestRank latencies pct value := by
  have hrank : latencies.length * pct ⌈/⌉ 100 ≤ latencies.length := by
    rw [ceilDiv_le_iff_le_mul (by decide : 0 < 100), mul_comm 100]
    exact Nat.mul_le_mul_left _ hpct
  have habove := h.length_lt
  exact ⟨h.mem, h.le_countP, by omega⟩

/-- The first copy reports what the names promise: the percentiles are latencies, which lie
between the extrema, and the higher one has the higher rank. -/
theorem benchComputeStats_isReport {calloc : ℕ → Bool} (hlength : latencies.length = count.toNat)
    (hcount : 0 < count.toNat) (hcalloc : calloc count.toNat = true)
    (hsum : (latencies.map UInt64.toNat).sum < 2 ^ 64)
    (hwidth : 95 * count.toNat + 99 < 2 ^ width) :
    ∃ s, benchComputeStats calloc width latencies count = .ok s ∧
      fullCryptoComputeStats calloc width latencies count = .ok s.toSummary ∧
      IsReport latencies s := by
  obtain ⟨mean, hmean, hmeanNat⟩ := meanOf_sum hlength hcount hsum
  obtain ⟨p50, hp50, hrank50⟩ :=
    percentile_qsort width 50 hlength hcount (by decide) (by decide) (by omega)
  obtain ⟨p95, hp95, hrank95⟩ :=
    percentile_qsort width 95 hlength hcount (by decide) (by decide) (by omega)
  have hsummary : summarise width latencies latencies.sum count =
      .ok { mean := mean, p50 := p50, p95 := p95 } := by
    simp only [summarise, hmean, hp50, hp95]
    rfl
  have hne : latencies ≠ [] := by
    rintro rfl
    exact hcount.ne hlength
  have hmin := isLeast_foldl_min (a := 0xffffffffffffffff) hne fun x _ ↦
    UInt64.le_iff_toNat_le.mpr (Nat.le_of_lt_succ x.toNat_lt)
  have hmax := isGreatest_foldl_max (a := 0) hne fun x _ ↦ UInt64.zero_le
  refine ⟨⟨⟨mean, p50, p95⟩, latencies.foldl min 0xffffffffffffffff, latencies.foldl max 0⟩,
    ?_, ?_, ?_⟩
  · rw [benchComputeStats_eq calloc width hlength, if_pos hcalloc, hsummary]
    rfl
  · rw [fullCryptoComputeStats_eq calloc width hlength, if_pos hcalloc, hsummary]
  · exact {
      isLeast_min := hmin
      isGreatest_max := hmax
      mean_eq := hmeanNat
      min_le_mean := by
        rw [UInt64.le_iff_toNat_le, hmeanNat, ← List.length_map UInt64.toNat]
        refine le_average (by simpa using hne) ?_
        simpa [UInt64.le_iff_toNat_le] using fun x hx ↦ hmin.2 hx
      mean_le_max := by
        rw [UInt64.le_iff_toNat_le, hmeanNat, ← List.length_map UInt64.toNat]
        refine average_le ?_
        simpa [UInt64.le_iff_toNat_le] using fun x hx ↦ hmax.2 hx
      p50_nearestRank := isNearestRank_of_isRanked (by decide) hrank50
      p95_nearestRank := isNearestRank_of_isRanked (by decide) hrank95
      min_le_p50 := hmin.2 hrank50.mem
      p50_le_p95 := hrank50.mono hrank95
        ((gc_mul_ceilDiv (by decide : 0 < 100)).monotone_l (Nat.mul_le_mul_left _ (by decide)))
      p95_le_max := hmax.2 hrank95.mem }

end Report

/-- If it can allocate its copy of the latencies, `compute_stats` reports what the names
promise, whatever the order of the latencies and the same in all three programs. -/
theorem computeStats_isReport {calloc : ℕ → Bool} {width : ℕ} {latencies : List UInt64}
    {count : UInt32} (hlength : latencies.length = count.toNat) (hcount : 1 ≤ count.toNat)
    (hcalloc : calloc count.toNat = true) (hsum : (latencies.map UInt64.toNat).sum < 2 ^ 64)
    (hwidth : 95 * count.toNat + 99 < 2 ^ width) :
    ∃ s, IsReport latencies s ∧ ∀ latencies', latencies'.Perm latencies →
      benchComputeStats calloc width latencies' count = .ok s ∧
      paillierBenchComputeStats calloc width latencies' count = .ok s ∧
      fullCryptoComputeStats calloc width latencies' count = .ok s.toSummary := by
  obtain ⟨s, hbench, hfull, hreport⟩ :=
    benchComputeStats_isReport hlength hcount hcalloc hsum hwidth
  refine ⟨s, hreport, fun latencies' hperm ↦ ?_⟩
  have hlength' : latencies'.length = count.toNat := hperm.length_eq.trans hlength
  refine ⟨?_, ?_, ?_⟩
  · rw [benchComputeStats_eq_of_perm calloc width hlength' hperm, hbench]
  · rw [paillierBenchComputeStats_eq calloc width latencies' (ne_zero_of_toNat_pos hcount),
      benchComputeStats_eq_of_perm calloc width hlength' hperm, hbench]
  · rw [fullCryptoComputeStats_eq_of_perm calloc width hlength' hperm, hfull]

/-- Three latencies. -/
theorem computeStats_isReport_demo :
    ∃ s, IsReport [30, 10, 20] s ∧ ∀ latencies', latencies'.Perm [30, 10, 20] →
      benchComputeStats (fun _ ↦ true) 64 latencies' 3 = .ok s ∧
      paillierBenchComputeStats (fun _ ↦ true) 64 latencies' 3 = .ok s ∧
      fullCryptoComputeStats (fun _ ↦ true) 64 latencies' 3 = .ok s.toSummary :=
  computeStats_isReport rfl (by decide) rfl (by decide) (by decide)

end SecureIIoT
