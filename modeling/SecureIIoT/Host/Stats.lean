import SecureIIoT.Lib.Rank
import Mathlib.Algebra.Order.Floor.Div
import Mathlib.GroupTheory.GroupAction.Ring

/-!
# The statistics of the benchmarks

`compare_u64`, `percentile` and `compute_stats`, of which `host/main_bench.c`,
`host/main_full_crypto_bench.c` and `host/main_paillier_bench.c` each hold a copy.  The
first two functions are the same in all three.

An array is the list of its entries, and reading past its end is a fault.  What a call
of `calloc` does is a parameter, as is the width of `size_t`, which holds every
`uint32_t`.
-/

namespace SecureIIoT

instance instLinearOrderUInt64 : LinearOrder UInt64 where
  le_refl := UInt64.le_refl
  le_trans _ _ _ := UInt64.le_trans
  le_antisymm _ _ := UInt64.le_antisymm
  le_total := UInt64.le_total
  lt_iff_le_not_ge _ _ := Std.LawfulOrderLT.lt_iff _ _
  toDecidableLE := inferInstance
  toDecidableLT := inferInstance

namespace Host

/-- What keeps a benchmark from its end: a call of `errx`, or a step that C leaves
undefined. -/
inductive BenchFault
  | errx (message : String)
  | outOfBounds
  | divisionByZero
deriving DecidableEq

/-! ## Sorting -/

/-- `compare_u64` -/
def compareU64 (lhs rhs : UInt64) : ℤ :=
  if lhs < rhs then -1 else if rhs < lhs then 1 else 0

/-- `qsort`.  C leaves open where entries go that compare equal; here these are equal. -/
def qsort (entries : List UInt64) (compar : UInt64 → UInt64 → ℤ) : List UInt64 :=
  entries.mergeSort fun lhs rhs ↦ compar lhs rhs ≤ 0

theorem compareU64_nonpos_iff {lhs rhs : UInt64} : compareU64 lhs rhs ≤ 0 ↔ lhs ≤ rhs := by
  rw [compareU64]
  rcases lt_trichotomy lhs rhs with h | rfl | h
  · simp [h, h.le]
  · simp
  · simp [h, h.not_gt, h.not_ge]

theorem qsort_compareU64 (entries : List UInt64) :
    qsort entries compareU64 = entries.mergeSort (· ≤ ·) := by
  simp only [qsort, compareU64_nonpos_iff]

theorem perm_qsort (entries : List UInt64) : (qsort entries compareU64).Perm entries := by
  rw [qsort_compareU64]
  exact List.mergeSort_perm _ _

theorem sortedLE_qsort (entries : List UInt64) : (qsort entries compareU64).SortedLE := by
  rw [qsort_compareU64]
  exact List.sortedLE_mergeSort

/-- Sorting forgets the order of the entries. -/
theorem qsort_eq_of_perm {entries entries' : List UInt64} (h : entries.Perm entries') :
    qsort entries compareU64 = qsort entries' compareU64 :=
  List.Perm.eq_of_sortedLE (sortedLE_qsort _) (sortedLE_qsort _)
    ((perm_qsort _).trans (h.trans (perm_qsort _).symm))

/-! ## Percentiles -/

/-- The index that `percentile` reads at, if there are entries. -/
def percentileIndex (width count pct : ℕ) : ℕ :=
  let index := (count * pct % 2 ^ width + 99) % 2 ^ width / 100
  let index := if index = 0 then 1 else index
  let index := index - 1
  if count ≤ index then count - 1 else index

/-- `percentile` -/
def percentile (width : ℕ) (sorted : List UInt64) (count pct : ℕ) : Except BenchFault UInt64 :=
  if count = 0 then .ok 0
  else
    match sorted[percentileIndex width count pct]? with
    | some entry => .ok entry
    | none => .error .outOfBounds

/-- The correction at the end keeps the index inside, also when the product wraps. -/
theorem percentileIndex_lt {count : ℕ} (width pct : ℕ) (hcount : 0 < count) :
    percentileIndex width count pct < count := by
  dsimp only [percentileIndex]
  split_ifs
  all_goals omega

/-- Without a wrap the index is the nearest rank, counted from zero: the corrections at
both ends are not needed. -/
theorem percentileIndex_eq {width count pct : ℕ} (hcount : 0 < count) (hpos : 0 < pct)
    (hpct : pct ≤ 100) (hwidth : count * pct + 99 < 2 ^ width) :
    percentileIndex width count pct + 1 = count * pct ⌈/⌉ 100 := by
  have hlow : 1 ≤ count * pct := Nat.mul_pos hcount hpos
  have hhigh : count * pct ≤ count * 100 := Nat.mul_le_mul_left count hpct
  have hrank : count * pct ⌈/⌉ 100 = (count * pct + 99) / 100 := Nat.ceilDiv_eq_add_pred_div _ _
  rw [hrank, percentileIndex, Nat.mod_eq_of_lt (by omega : count * pct < 2 ^ width),
    Nat.mod_eq_of_lt hwidth]
  split_ifs
  all_goals omega

theorem percentile_eq {sorted : List UInt64} {count : ℕ} (width pct : ℕ) (hcount : 0 < count)
    (hlength : sorted.length = count) :
    ∃ h : percentileIndex width count pct < sorted.length,
      percentile width sorted count pct = .ok sorted[percentileIndex width count pct] := by
  have h : percentileIndex width count pct < sorted.length := by
    rw [hlength]
    exact percentileIndex_lt width pct hcount
  refine ⟨h, ?_⟩
  rw [percentile, if_neg hcount.ne', List.getElem?_eq_getElem h]

/-! ## The loop over the latencies -/

section Loop

variable {σ : Type} (step : σ → UInt64 → σ)

/-- `for (i = 0; i < count; i++)`, with a read of `latencies[i]` in each turn. -/
def forLatencies : (count : ℕ) → List UInt64 → σ → Except BenchFault σ
  | 0, _, s => .ok s
  | _ + 1, [], _ => .error .outOfBounds
  | count + 1, latency :: latencies, s => forLatencies count latencies (step s latency)

theorem forLatencies_length (latencies : List UInt64) (s : σ) :
    forLatencies step latencies.length latencies s = .ok (latencies.foldl step s) := by
  induction latencies generalizing s with
  | nil => rfl
  | cons latency latencies ih => exact ih (step s latency)

end Loop

/-! ## The copies of `compute_stats` -/

/-- What every copy reports. -/
structure Summary where
  mean : UInt64
  p50 : UInt64
  p95 : UInt64
deriving DecidableEq

/-- What the copies with extrema report. -/
structure Stats extends Summary where
  min : UInt64
  max : UInt64
deriving DecidableEq

/-- `sum / count` -/
def meanOf (sum : UInt64) (count : UInt32) : Except BenchFault UInt64 :=
  if count = 0 then .error .divisionByZero else .ok (sum / count.toUInt64)

/-- What follows the loop in every copy. -/
def summarise (width : ℕ) (sorted : List UInt64) (sum : UInt64) (count : UInt32) :
    Except BenchFault Summary := do
  let sorted := qsort sorted compareU64
  let mean ← meanOf sum count
  let p50 ← percentile width sorted count.toNat 50
  let p95 ← percentile width sorted count.toNat 95
  return { mean := mean, p50 := p50, p95 := p95 }

/-- The variables of the loop of `main_bench.c`. -/
structure StatsLoop where
  sum : UInt64
  min : UInt64
  max : UInt64
  sorted : List UInt64

/-- One turn of that loop. -/
def StatsLoop.step (s : StatsLoop) (value : UInt64) : StatsLoop where
  sum := s.sum + value
  min := if value < s.min then value else s.min
  max := if s.max < value then value else s.max
  sorted := s.sorted ++ [value]

/-- `compute_stats` of `main_bench.c`, with what `calloc` does for a number of entries. -/
def benchComputeStats (calloc : ℕ → Bool) (width : ℕ) (latencies : List UInt64)
    (count : UInt32) : Except BenchFault Stats :=
  if calloc count.toNat then do
    -- The minimum starts at `UINT64_MAX`.
    let s ← forLatencies StatsLoop.step count.toNat latencies
      { sum := 0, min := 0xffffffffffffffff, max := 0, sorted := [] }
    let summary ← summarise width s.sorted s.sum count
    return { summary with min := s.min, max := s.max }
  else .error (.errx "failed to allocate sorted latency array")

/-- `compute_stats` of `main_full_crypto_bench.c`, which has no extrema. -/
def fullCryptoComputeStats (calloc : ℕ → Bool) (width : ℕ) (latencies : List UInt64)
    (count : UInt32) : Except BenchFault Summary :=
  if calloc count.toNat then do
    let (sum, sorted) ← forLatencies
      (fun (sum, sorted) latency ↦ (sum + latency, sorted ++ [latency])) count.toNat latencies
      (0, [])
    summarise width sorted sum count
  else .error (.errx "failed to allocate sorted latency array")

/-- `compute_stats` of `main_paillier_bench.c`, which looks at the count first. -/
def paillierBenchComputeStats (calloc : ℕ → Bool) (width : ℕ) (latencies : List UInt64)
    (count : UInt32) : Except BenchFault Stats :=
  if count = 0 then .ok { mean := 0, min := 0, max := 0, p50 := 0, p95 := 0 }
  else if calloc count.toNat then do
    let s ← forLatencies StatsLoop.step count.toNat latencies
      { sum := 0, min := 0xffffffffffffffff, max := 0, sorted := [] }
    let summary ← summarise width s.sorted s.sum count
    return { summary with min := s.min, max := s.max }
  else .error (.errx "failed to allocate sorted latency array")

end Host

end SecureIIoT
