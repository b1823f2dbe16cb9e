import VarahaCache.Cache.Footprint
import VarahaCache.Cache.Recency

/-!
# The engine evicts what was used least recently

What a cache under an object limit promises, said of the recorded calls alone:
a hit and an insertion make their digest the newest, every drop takes its
digests out, and an insertion evicts the oldest ones there are too many of.
-/

namespace VarahaCache

open Lib List

/-- The digest a call has made the newest. -/
def freshened : Op → Outcome → Option Digest
  | .lookup digest _, .answered (.hit _) => some digest
  | .lookup digest _, .answered (.grace _) => some digest
  | op, outcome => (stored op outcome).map Prod.fst

/-- The digests in the cache, oldest first, one recorded call later. -/
def recencyAfter (l : List Digest) (r : Call × Outcome) : List Digest :=
  (freshened r.1.op r.2).elim id (fun digest l => freshen l digest)
    (l.filter (· ∉ dropped r.1.op r.2))

/-- The tracker is this list and has given out `n` timestamps at most. -/
def ShardedLru.Orders (lru : ShardedLru) (l : List Digest) (n : ℕ) : Prop :=
  ∃ nodes, lru.Merges nodes ∧ nodes.map LruNode.digest = l ∧ lru.clock.toNat ≤ n

namespace ShardedLru.Orders

variable {lru : ShardedLru} {l : List Digest} {n : ℕ}

theorem tracks_iff (h : lru.Orders l n) (d : Digest) : lru.Tracks d ↔ d ∈ l := by
  obtain ⟨nodes, hm, rfl, _⟩ := h
  exact hm.tracks_iff

theorem nodup (h : lru.Orders l n) : l.Nodup := by
  obtain ⟨nodes, hm, rfl, _⟩ := h
  exact hm.nodup

theorem removeAll (h : lru.Orders l n) (drops : List Digest) :
    (drops.foldl ShardedLru.remove lru).Orders (l.filter (· ∉ drops)) n := by
  induction drops generalizing lru l with
  | nil => simpa using h
  | cons digest drops ih =>
    obtain ⟨nodes, hm, rfl, hclock⟩ := h
    have hrest := ih ⟨_, hm.remove digest, map_digest_filter nodes digest, hclock⟩
    rw [filter_filter] at hrest
    rw [foldl_cons]
    convert hrest using 3
    rw [← Bool.decide_and]
    exact decide_eq_decide.mpr (by rw [mem_cons, not_or, and_comm])

theorem insert (h : lru.Orders l n) (hn : n + 1 < 2 ^ 64) (digest : Digest) :
    (lru.insert digest).Orders (freshen l digest) (n + 1) := by
  obtain ⟨nodes, hm, rfl, hclock⟩ := h
  obtain ⟨nodes', hm', hstep, hclock'⟩ := hm.step (.insert digest) (by omega)
  exact ⟨nodes', hm', (congrArg Prod.snd hstep).symm, hclock'.trans (by omega)⟩

theorem later (h : lru.Orders l n) : lru.Orders l (n + 1) := by
  obtain ⟨nodes, hm, hl, hclock⟩ := h
  exact ⟨nodes, hm, hl, hclock.trans (Nat.le_succ n)⟩

end ShardedLru.Orders

namespace CacheEngine

variable {σ : Type} (stv : Stevedore σ) {e : CacheEngine σ} {l : List Digest} {n : ℕ}

/-- The loop takes the oldest digests, as many as leave room for one more. -/
theorem enforceCapacityLoop_oldest {fuel : ℕ} (h : e.lru.Orders l n) (hfuel : l.length < fuel) :
    (enforceCapacityLoop stv fuel e).1 = l.take (l.length + 1 - e.maxObjects) ∧
      (enforceCapacityLoop stv fuel e).2.lru.Orders (l.drop (l.length + 1 - e.maxObjects)) n := by
  induction fuel generalizing e l with
  | zero => omega
  | succ fuel ih =>
    obtain ⟨nodes, hm, rfl, hclock⟩ := h
    rw [enforceCapacityLoop, hm.len_eq, length_map]
    by_cases hcap : e.maxObjects ≤ nodes.length
    · rw [if_pos hcap]
      cases nodes with
      | nil =>
        have hnone : e.lru.evictOldest = (none, e.lru) := by
          simp [ShardedLru.evictOldest, hm.oldestShard_nil]
        rw [hnone]
        exact ⟨by simp, by simpa using ⟨[], hm, rfl, hclock⟩⟩
      | cons node nodes =>
        obtain ⟨hvictim, hrest, hsame⟩ := hm.evictOldest_cons
        have hev : e.lru.evictOldest = (some node.digest, e.lru.evictOldest.2) := by rw [← hvictim]
        have hlater := ih (e := evictVictim stv { e with lru := e.lru.evictOldest.2 } node.digest)
          (l := nodes.map LruNode.digest)
          (by rw [evictVictim_lru]; exact ⟨nodes, hrest, rfl, hsame ▸ hclock⟩)
          (by simpa using hfuel)
        have hmax : (evictVictim stv { e with lru := e.lru.evictOldest.2 } node.digest).maxObjects =
            e.maxObjects := by
          unfold evictVictim
          split <;> rfl
        have hcount : (node :: nodes).length + 1 - e.maxObjects =
            nodes.length + 1 - e.maxObjects + 1 := by
          rw [length_cons] at hcap ⊢
          omega
        rw [hmax, length_map] at hlater
        rw [hev, hcount]
        exact ⟨congrArg _ hlater.1, hlater.2⟩
    · rw [if_neg hcap, show nodes.length + 1 - e.maxObjects = 0 by omega]
      exact ⟨rfl, nodes, hm, rfl, hclock⟩

theorem enforceCapacity_oldest (h : e.lru.Orders l n) :
    (enforceCapacity stv e).1 = l.take (l.length + 1 - e.maxObjects) ∧
      (enforceCapacity stv e).2.lru.Orders (l.filter (· ∉ (enforceCapacity stv e).1)) n := by
  have hlen : l.length < e.lru.len + 1 := by
    obtain ⟨nodes, hm, rfl, _⟩ := h
    rw [hm.len_eq, length_map]
    exact Nat.lt_succ_self _
  obtain ⟨hvictims, horders⟩ := enforceCapacityLoop_oldest stv h hlen
  refine ⟨hvictims, ?_⟩
  -- in a list without repetitions, what is not among the first is the rest
  have hdrop : ∀ k, l.filter (· ∉ l.take k) = l.drop k := by
    intro k
    have hnodup := h.nodup
    rw [← take_append_drop k l] at hnodup
    have hapart := disjoint_of_nodup_append hnodup
    conv_lhs => rw [← take_append_drop k l, filter_append]
    rw [take_append_drop, filter_eq_nil_iff.mpr (by simp), nil_append, filter_eq_self]
    exact fun d hd => decide_eq_true fun htake => hapart htake hd
  rw [show (enforceCapacity stv e).1 = l.take (l.length + 1 - e.maxObjects) from hvictims, hdrop]
  exact horders

theorem recencyAfter_step (ht : e.Tracked) (h : e.lru.Orders l n) (hn : n + 1 < 2 ^ 64) (c : Call) :
    (e.step stv c).2.lru.Orders (recencyAfter l (c, (e.step stv c).1)) (n + 1) := by
  obtain ⟨time, op⟩ := c
  cases op with
  | insert digest body ttlInfo varyData =>
    have hroom := (enforceCapacity_oldest stv h).2
    simp only [step, insert]
    split
    · exact hroom.later
    split
    · exact hroom.later
    · exact hroom.insert hn digest
  | lookup digest requestHeaders =>
    simp only [step, lookup]
    cases hv : e.objects.lookup digest with
    | none =>
      -- a digest that is absent is not tracked, and dropping it changes nothing
      have hnot : digest ∉ l := by
        rw [← h.tracks_iff, ← ht]
        exact lookup_eq_none_iff.mp hv
      have hsame : l.filter (· ∉ [digest]) = l := by
        rw [filter_eq_self]
        exact fun d hd => decide_eq_true fun heq => hnot (mem_singleton.mp heq ▸ hd)
      have hmiss := h.later
      rw [← hsame] at hmiss
      exact hmiss
    | some variants =>
      have htracks : e.lru.Tracks digest := by
        rw [← ht]
        exact AList.lookup_isSome.mp (by simp [hv])
      have htouch := h.insert hn digest
      rw [← ShardedLru.touch_of_tracks htracks] at htouch
      dsimp only
      rcases scanVariants_cases time requestHeaders variants with ⟨oc, hs⟩ | ⟨oc, hs⟩ | hs
      · rw [hs]
        simpa [recencyAfter, freshened, dropped, lookupDrops] using htouch
      · rw [hs]
        simpa [recencyAfter, freshened, dropped, lookupDrops] using htouch
      · rw [hs]
        exact (h.removeAll [digest]).later
  | remove digest => exact (h.removeAll [digest]).later
  | purge digest => exact (h.removeAll [digest]).later
  | expireObjects =>
    have hlru : ∀ (objects : List ObjCore) (e : CacheEngine σ),
        (objects.foldl (expireOne stv) e).lru =
          (objects.map ObjCore.digest).foldl ShardedLru.remove e.lru := by
      intro objects e
      rw [foldl_map]
      exact (foldl_hom lru fun _ _ => rfl).symm
    simp only [step, expireObjects]
    rw [hlru]
    exact (h.removeAll _).later

/-- **The engine evicts what was used least recently.** After every history,
while the tracker's clock does not wrap, the digests in the map are those that
`recencyAfter` reads off the recorded calls, and an insertion evicts the
oldest of them, as many as leave room for one more under the limit. -/
theorem evicts_least_recent (stv : Stevedore σ) (storage : σ) (maxObjects : ℕ) (calls : List Call)
    (hfew : calls.length < 2 ^ 64) :
    let e := (run stv storage maxObjects calls).2
    let l := (run stv storage maxObjects calls).1.foldl recencyAfter []
    (∀ d, d ∈ e.objects ↔ d ∈ l) ∧ l.Nodup ∧
      ∀ time digest body ttlInfo vary,
        (e.insert stv time digest body ttlInfo vary).1.1 =
          l.take (l.length + 1 - maxObjects) := by
  have hrun : Inv (run stv storage maxObjects calls).2 ∧
      (run stv storage maxObjects calls).2.maxObjects = maxObjects ∧
      (run stv storage maxObjects calls).2.lru.Orders
        ((run stv storage maxObjects calls).1.foldl recencyAfter []) calls.length := by
    revert hfew
    refine record_induction (P := fun calls log (e : CacheEngine σ) => calls.length < 2 ^ 64 →
      Inv e ∧ e.maxObjects = maxObjects ∧ e.lru.Orders (log.foldl recencyAfter []) calls.length)
      (step stv) ?_ ?_ calls
    · intro _
      exact ⟨inv_new storage maxObjects, rfl, [], ShardedLru.merges_new, rfl, Nat.le_refl 0⟩
    intro calls log e c ih hfew
    rw [length_append, length_singleton] at hfew ⊢
    obtain ⟨hinv, hmax, horders⟩ := ih (by omega)
    refine ⟨hinv.call c, (step_maxObjects stv e c).trans hmax, ?_⟩
    rw [foldl_append]
    exact recencyAfter_step stv hinv.tracked horders hfew c
  obtain ⟨hinv, hmax, horders⟩ := hrun
  refine ⟨fun d => (hinv.tracked d).trans (horders.tracks_iff d), horders.nodup, ?_⟩
  intro time digest body ttlInfo vary
  rw [insert_victims, (enforceCapacity_oldest stv horders).1, hmax]

/-- Of two digests under a limit of two, the one not looked up goes. -/
theorem evicts_least_recent_touched :
    let calls : List Call := [⟨0, .insert digestZero [104] .default none⟩,
      ⟨1, .insert ⟨.replicate 32 1⟩ [105] .default none⟩, ⟨2, .lookup digestZero none⟩]
    calls.length < 2 ^ 64 ∧ ((run .unlimited () 2 calls).2.insert .unlimited 3 ⟨.replicate 32 2⟩
      [106] .default none).1.1 = [⟨.replicate 32 1⟩] := by
  refine ⟨by decide, ((evicts_least_recent .unlimited () 2 _ (by decide)).2.2 ..).trans ?_⟩
  decide +kernel

end CacheEngine

end VarahaCache
