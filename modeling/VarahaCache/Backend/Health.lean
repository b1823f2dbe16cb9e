import VarahaCache.Lib.Circular

/-!
# Health probes

`HealthProbe` of `rv-backend`: the last results of probing a backend, and
whether enough of them are good. The results are bits in a circular bitmap,
whose next place is found by counting all results there ever were in a `u64`.
-/

namespace VarahaCache.Backend

open List

inductive ProbeStatus
  | healthy | sick | unknown
deriving DecidableEq

/-- The state of a probe, and the numbers that decide about health. -/
structure HealthProbe where
  threshold : UInt32
  window : UInt32
  isHealthy : Bool
  goodCount : UInt64
  totalCount : UInt64
  bitmap : List Bool

namespace HealthProbe

def new (threshold window : UInt32) : HealthProbe :=
  ⟨threshold, window, false, 0, 0, replicate window.toNat false⟩

def isGood (status : ProbeStatus) : Bool := status = .healthy

/-- `record_result`; counters wrap around. -/
def recordResult (probe : HealthProbe) (status : ProbeStatus) : HealthProbe :=
  let totalCount := probe.totalCount + 1
  let goodCount := if isGood status then probe.goodCount + 1 else probe.goodCount
  let idx := (totalCount - 1).toNat % probe.window.toNat
  let bitmap := probe.bitmap.set idx (isGood status)
  let healthyInWindow := UInt32.ofNat (bitmap.count true)
  { probe with
    totalCount := totalCount
    goodCount := goodCount
    bitmap := bitmap
    isHealthy := probe.threshold ≤ healthyInWindow }

def after (threshold window : UInt32) (results : List ProbeStatus) : HealthProbe :=
  results.foldl recordResult (new threshold window)

variable {threshold window : UInt32} {results : List ProbeStatus}

theorem after_concat (status : ProbeStatus) :
    after threshold window (results ++ [status]) =
      (after threshold window results).recordResult status := by
  rw [after, after, foldl_append]
  rfl

/-- What a probe remembers: its numbers, how many results there were, and the
last of them. -/
structure Remembers (threshold window : UInt32) (results : List ProbeStatus)
    (probe : HealthProbe) : Prop where
  threshold_eq : probe.threshold = threshold
  window_eq : probe.window = window
  total : probe.totalCount = UInt64.ofNat results.length
  bitmap : Lib.Circular window.toNat false (results.map isGood) probe.bitmap

theorem remembers_new : Remembers threshold window [] (new threshold window) where
  threshold_eq := rfl
  window_eq := rfl
  total := rfl
  bitmap := Lib.circular_nil _ _

variable {probe : HealthProbe} {n : ℕ}

theorem Remembers.recordResult (h : Remembers threshold window results probe)
    (hwindow : 1 ≤ window.toNat) (hlength : results.length < 2 ^ 64) (status : ProbeStatus) :
    Remembers threshold window (results ++ [status]) (probe.recordResult status) where
  threshold_eq := h.threshold_eq
  window_eq := h.window_eq
  total := by
    rw [length_append, length_singleton, UInt64.ofNat_add]
    exact congrArg (· + 1) h.total
  bitmap := by
    have hidx : (probe.totalCount + 1 - 1).toNat % probe.window.toNat =
        (results.map isGood).length % window.toNat := by
      rw [add_sub_cancel_right, h.total, UInt64.toNat_ofNat_of_lt' hlength, h.window_eq, length_map]
    rw [map_append, HealthProbe.recordResult, hidx]
    exact h.bitmap.write hwindow (isGood status)

theorem remembers_after (hwindow : 1 ≤ window.toNat) (hlength : results.length ≤ 2 ^ 64) :
    Remembers threshold window results (after threshold window results) := by
  induction results using reverseRecOn with
  | nil => exact remembers_new
  | append_singleton results status ih =>
    rw [length_append, length_singleton] at hlength
    rw [after_concat]
    exact (ih (by omega)).recordResult hwindow (by omega) status

def lastResults (window : UInt32) (results : List ProbeStatus) : List ProbeStatus :=
  results.drop (results.length - min window.toNat results.length)

theorem count_map_isGood (results : List ProbeStatus) :
    (results.map isGood).count true = results.count .healthy := by
  rw [count_eq_countP, countP_map, count_eq_countP]
  refine countP_congr fun status _ => ?_
  cases status <;> decide

/-- The bits set are the good results among the last ones; other places are
not set. -/
theorem Remembers.count_bitmap (h : Remembers threshold window results probe) :
    probe.bitmap.count true = (lastResults window results).count .healthy := by
  have hlast : results.length - window.toNat =
      results.length - min window.toNat results.length := by omega
  rw [h.bitmap.perm.count_eq, count_append, count_replicate, length_map, hlast,
    ← map_drop, count_map_isGood]
  rfl

theorem Remembers.count_lt (h : Remembers threshold window results probe) :
    probe.bitmap.count true < UInt32.size := by
  calc probe.bitmap.count true ≤ probe.bitmap.length := count_le_length
    _ = window.toNat := h.bitmap.length
    _ < UInt32.size := window.toNat_lt

/-- **Health is a vote over a sliding window.** -/
theorem isHealthy_iff_vote (threshold window : UInt32) (results : List ProbeStatus)
    (hwindow : 1 ≤ window) (hresults : results ≠ []) (hlength : results.length < 2 ^ 64) :
    (after threshold window results).isHealthy ↔
      threshold.toNat ≤ (lastResults window results).count .healthy := by
  have hall : Remembers threshold window results (after threshold window results) :=
    remembers_after (UInt32.le_iff_toNat_le.mp hwindow) hlength.le
  have hcount := hall.count_bitmap
  have hlt := hall.count_lt
  obtain ⟨earlier, status, rfl⟩ := eq_nil_or_concat' results |>.resolve_left hresults
  have hthreshold := hall.threshold_eq
  rw [after_concat] at hcount hlt hthreshold ⊢
  -- the verdict is about the bitmap that the last result is already in
  have hverdict : ((after threshold window earlier).recordResult status).isHealthy =
      decide (((after threshold window earlier).recordResult status).threshold ≤
        UInt32.ofNat (((after threshold window earlier).recordResult status).bitmap.count true)) :=
    rfl
  rw [hverdict, decide_eq_true_iff, hthreshold, UInt32.le_iff_toNat_le,
    UInt32.toNat_ofNat_of_lt' hlt, hcount]

theorem isHealthy_iff_vote_three_of_five :
    (after 3 5 [.healthy, .sick, .healthy, .unknown, .healthy, .healthy]).isHealthy ↔
      (3 : UInt32).toNat ≤ (lastResults 5
        [.healthy, .sick, .healthy, .unknown, .healthy, .healthy]).count .healthy :=
  isHealthy_iff_vote 3 5 _ (by decide) (by simp) (by decide)

theorem bitmap_after_replicate_sick (hwindow : 1 ≤ window.toNat) (hn : n ≤ 2 ^ 64) :
    (after threshold window (replicate n .sick)).bitmap = replicate window.toNat false := by
  have h : Remembers threshold window (replicate n .sick) _ :=
    remembers_after hwindow (by rw [length_replicate]; exact hn)
  refine eq_replicate_iff.mpr ⟨h.bitmap.length, fun bit hbit => ?_⟩
  have hmem := h.bitmap.perm.mem_iff.mp hbit
  rcases mem_append.mp hmem with hold | hblank
  · have hsick := mem_of_mem_drop hold
    rw [map_replicate] at hsick
    exact eq_of_mem_replicate hsick
  · exact eq_of_mem_replicate hblank

def goodAtLast (n : ℕ) : List ProbeStatus := replicate n .sick ++ [.healthy] ++ [.healthy]

/-- Where the counter wraps around, a window whose size does not divide `2 ^
64` writes one place twice in a row. -/
theorem isHealthy_at_wrap (hn : n + 1 = 2 ^ 64) : (after 2 3 (goodAtLast n)).isHealthy = false := by
  have h : Remembers 2 3 (replicate n .sick) (after 2 3 (replicate n .sick)) :=
    remembers_after (by decide) (by rw [length_replicate]; omega)
  have hbitmap : (after 2 3 (replicate n .sick)).bitmap = replicate 3 false :=
    bitmap_after_replicate_sick (by decide) (by omega)
  have htotal : (after 2 3 (replicate n .sick)).totalCount = 18446744073709551615 := by
    rw [h.total, length_replicate, show n = 18446744073709551615 by omega]
    rfl
  rw [goodAtLast, after_concat, after_concat, recordResult, recordResult, hbitmap, htotal,
    h.threshold_eq, h.window_eq]
  dsimp only
  exact decide_eq_false (by decide)

/-- The two good results at the wrap are counted once. -/
theorem not_isHealthy_iff_vote_at_wrap :
    ∃ n : ℕ, n + 1 = 2 ^ 64 ∧
      ¬ ((after 2 3 (goodAtLast n)).isHealthy ↔
        (2 : UInt32).toNat ≤ (lastResults 3 (goodAtLast n)).count .healthy) := by
  obtain ⟨n, hn⟩ : ∃ n : ℕ, n + 1 = 2 ^ 64 := ⟨18446744073709551615, by norm_num⟩
  refine ⟨n, hn, ?_⟩
  have hcount : 2 ≤ (lastResults 3 (goodAtLast n)).count .healthy := by
    rw [goodAtLast, lastResults, append_assoc, drop_append_of_le_length (by simp), count_append]
    exact Nat.le_add_left 2 _
  rw [isHealthy_at_wrap hn]
  exact fun h => Bool.false_ne_true (h.mpr hcount)

end HealthProbe

end VarahaCache.Backend
