import VarahaCache.Cache.Lru
import VarahaCache.Lib.Machine

/-!
# The shards are one recency list

What the LRU tracker is for: a list of digests from the least to the most
recently used. The shards of `ShardedLru` are parts of such a list, kept in
order by their timestamps, so that the oldest head over all shards is the
oldest digest.
-/

namespace VarahaCache

open List

inductive LruCall
  | insert (digest : Digest)
  | touch (digest : Digest)
  | remove (digest : Digest)
  | evictOldest

/-- A digest becomes the newest. -/
def freshen (l : List Digest) (digest : Digest) : List Digest := l.filter (· ≠ digest) ++ [digest]

/-- The calls on one list, oldest digest first. Only an eviction answers. -/
def recencyStep (l : List Digest) : LruCall → Option Digest × List Digest
  | .insert digest => (none, freshen l digest)
  | .touch digest => (none, if digest ∈ l then freshen l digest else l)
  | .remove digest => (none, l.filter (· ≠ digest))
  | .evictOldest => (l.head?, l.tail)

namespace ShardedLru

def step (l : ShardedLru) : LruCall → Option Digest × ShardedLru
  | .insert digest => (none, l.insert digest)
  | .touch digest => (none, l.touch digest)
  | .remove digest => (none, l.remove digest)
  | .evictOldest => l.evictOldest

/-- The shards are the parts of one list of nodes, whose timestamps increase
and have been given out. -/
structure Merges (l : ShardedLru) (nodes : List LruNode) : Prop where
  shard : ∀ i, (l.shards i).nodes = nodes.filter (lruShardIndex ·.digest = i)
  increasing : nodes.Pairwise fun m n => m.timestamp < n.timestamp
  past : ∀ n ∈ nodes, n.timestamp < l.clock
  nodup : (nodes.map LruNode.digest).Nodup

variable {l : ShardedLru} {nodes : List LruNode}

theorem merges_new : new.Merges [] where
  shard _ := rfl
  increasing := List.Pairwise.nil
  past := by simp
  nodup := nodup_nil

theorem Merges.tracks_iff (h : l.Merges nodes) {d : Digest} :
    l.Tracks d ↔ d ∈ nodes.map LruNode.digest := by
  simp only [Tracks, LruShard.digests, h.shard, mem_map, mem_filter, decide_eq_true_eq]
  constructor
  · rintro ⟨n, ⟨hmem, -⟩, rfl⟩
    exact ⟨n, hmem, rfl⟩
  · rintro ⟨n, hmem, rfl⟩
    exact ⟨n, ⟨hmem, rfl⟩, rfl⟩

theorem Merges.remove (h : l.Merges nodes) (digest : Digest) :
    (l.remove digest).Merges (nodes.filter (·.digest ≠ digest)) where
  shard i := by
    simp only [ShardedLru.remove, setShard]
    by_cases hi : i = lruShardIndex digest
    · subst hi
      rw [Function.update_self]
      simp only [LruShard.remove, h.shard, filter_filter]
      exact filter_congr fun n _ => Bool.and_comm ..
    rw [Function.update_of_ne hi, h.shard, filter_filter]
    refine filter_congr fun n _ => ?_
    by_cases hn : lruShardIndex n.digest = i
    · have hne : n.digest ≠ digest := fun heq => hi (hn.symm.trans (congrArg lruShardIndex heq))
      simp [hn, hne]
    · simp [hn]
  increasing := h.increasing.filter _
  past n hn := h.past n (mem_of_mem_filter hn)
  nodup := h.nodup.sublist (filter_sublist.map _)

theorem Merges.insert (h : l.Merges nodes) (digest : Digest) (hclock : l.clock < l.clock + 1) :
    (l.insert digest).Merges (nodes.filter (·.digest ≠ digest) ++ [⟨digest, l.clock⟩]) where
  shard i := by
    have hremove := (h.remove digest).shard i
    simp only [ShardedLru.remove, ShardedLru.insert, setShard] at hremove ⊢
    rw [filter_append, ← hremove]
    by_cases hi : i = lruShardIndex digest
    · subst hi
      simp [LruShard.insert]
    · simp [hi, Ne.symm hi]
  increasing := by
    rw [pairwise_append]
    refine ⟨h.increasing.filter _, by simp, ?_⟩
    intro m hm n hn
    rw [mem_singleton.mp hn]
    exact h.past m (mem_of_mem_filter hm)
  past n hn := by
    change n.timestamp < l.clock + 1
    rcases mem_append.mp hn with hn | hn
    · exact UInt64.lt_trans (h.past n (mem_of_mem_filter hn)) hclock
    · rw [mem_singleton.mp hn]
      exact hclock
  nodup := by
    rw [map_append, nodup_append]
    refine ⟨h.nodup.sublist (filter_sublist.map _), by simp, ?_⟩
    simp only [mem_map, mem_filter, map_cons, map_nil, mem_singleton, decide_eq_true_eq]
    rintro d ⟨n, ⟨-, hne⟩, rfl⟩ d' rfl
    exact hne

variable {digest : Digest} {n : LruNode}

theorem touch_of_tracks (h : l.Tracks digest) : l.touch digest = l.insert digest := by
  have hshard : (l.shards (lruShardIndex digest)).touch digest l.clock =
      (l.shards (lruShardIndex digest)).insert digest l.clock := if_pos h
  simp only [touch, ShardedLru.insert, hshard]

theorem shards_touch_of_not_tracks (h : ¬ l.Tracks digest) :
    (l.touch digest).shards = l.shards := by
  have hshard : (l.shards (lruShardIndex digest)).touch digest l.clock =
      l.shards (lruShardIndex digest) := if_neg h
  simp only [touch, setShard, hshard, Function.update_eq_self]

theorem Merges.touch_absent (h : l.Merges nodes) (hnot : ¬ l.Tracks digest)
    (hclock : l.clock < l.clock + 1) : (l.touch digest).Merges nodes where
  shard i := by rw [shards_touch_of_not_tracks hnot, h.shard]
  increasing := h.increasing
  past n hn := UInt64.lt_trans (h.past n hn) hclock
  nodup := h.nodup

/-! ## The oldest head -/

/-- The pass finds the shard with the oldest head: until it comes by, what is
remembered is younger; then it stays. -/
theorem foldl_scanShard {i₀ : Fin 64} {t₀ : UInt64} (hi : (l.shards i₀).headTimestamp = some t₀)
    (hleast : ∀ j t, j ≠ i₀ → (l.shards j).headTimestamp = some t → t₀ < t) (is : List (Fin 64))
    (acc : Option (Fin 64) × UInt64) (hacc : acc = (some i₀, t₀) ∨ i₀ ∈ is ∧ t₀ < acc.2) :
    is.foldl l.scanShard acc = (some i₀, t₀) := by
  induction is generalizing acc with
  | nil =>
    rcases hacc with rfl | ⟨hmem, -⟩
    · rfl
    · simp at hmem
  | cons j is ih =>
    refine ih _ ?_
    rw [scanShard]
    by_cases hj : j = i₀
    · subst hj
      rw [hi]
      rcases hacc with rfl | ⟨-, hlt⟩
      · simp
      · simp [hlt]
    cases hts : (l.shards j).headTimestamp with
    | none =>
      rcases hacc with rfl | ⟨hmem, hlt⟩
      · exact .inl rfl
      · exact .inr ⟨mem_of_ne_of_mem (Ne.symm hj) hmem, hlt⟩
    | some t =>
      have ht := hleast j t hj hts
      rcases hacc with rfl | ⟨hmem, hlt⟩
      · exact .inl (if_neg (UInt64.not_lt.mpr (UInt64.le_of_lt ht)))
      refine .inr ⟨mem_of_ne_of_mem (Ne.symm hj) hmem, ?_⟩
      dsimp only
      split
      · exact ht
      · exact hlt

theorem Merges.oldestShard_cons (h : l.Merges (n :: nodes)) :
    l.oldestShard = some (lruShardIndex n.digest) := by
  have hhead : (l.shards (lruShardIndex n.digest)).headTimestamp = some n.timestamp := by
    simp [LruShard.headTimestamp, h.shard]
  have hfirst := (pairwise_cons.mp h.increasing).1
  have hleast : ∀ j t, j ≠ lruShardIndex n.digest → (l.shards j).headTimestamp = some t →
      n.timestamp < t := by
    intro j t hj ht
    rw [LruShard.headTimestamp, h.shard, filter_cons_of_neg (by simpa using Ne.symm hj)] at ht
    obtain ⟨m, hm, rfl⟩ := Option.map_eq_some_iff.mp ht
    exact hfirst m (mem_of_mem_filter (mem_of_head? hm))
  -- a timestamp given out is below the clock, so it is not the largest
  have hmax : n.timestamp < 0xFFFFFFFFFFFFFFFF := by
    have hpast := UInt64.lt_iff_toNat_lt.mp (h.past n (mem_cons_self ..))
    have hbound := UInt64.toNat_lt l.clock
    rw [UInt64.lt_iff_toNat_lt]
    change n.timestamp.toNat < 18446744073709551615
    omega
  rw [oldestShard, foldl_scanShard hhead hleast _ _ (.inr ⟨mem_finRange _, hmax⟩)]

theorem Merges.oldestShard_nil (h : l.Merges []) : l.oldestShard = none := by
  have hscan : ∀ acc i, l.scanShard acc i = acc := by
    intro acc i
    simp [scanShard, LruShard.headTimestamp, h.shard]
  have hfold : ∀ (is : List (Fin 64)) acc, is.foldl l.scanShard acc = acc := by
    intro is acc
    induction is with
    | nil => rfl
    | cons i is ih => rw [foldl_cons, hscan, ih]
  rw [oldestShard, hfold]

theorem Merges.evictOldest_cons (h : l.Merges (n :: nodes)) :
    l.evictOldest.1 = some n.digest ∧ l.evictOldest.2.Merges nodes ∧
      l.evictOldest.2.clock = l.clock := by
  have hold := h.oldestShard_cons
  have hshard : (l.shards (lruShardIndex n.digest)).nodes =
      n :: nodes.filter (lruShardIndex ·.digest = lruShardIndex n.digest) := by
    rw [h.shard, filter_cons_of_pos (by simp)]
  simp only [evictOldest, hold]
  refine ⟨by simp [LruShard.popHead, hshard], ?_, rfl⟩
  constructor
  case shard =>
    intro i
    by_cases hi : i = lruShardIndex n.digest
    · subst hi
      simp [setShard, LruShard.popHead, hshard]
    · simp [setShard, hi, h.shard, Ne.symm hi]
  case increasing => exact (pairwise_cons.mp h.increasing).2
  case past => exact fun m hm => h.past m (mem_cons_of_mem n hm)
  case nodup => exact (nodup_cons.mp h.nodup).2

theorem Merges.len_eq (h : l.Merges nodes) : l.len = nodes.length := by
  have hsum : ∀ ns : List LruNode,
      ∑ i, (ns.filter (lruShardIndex ·.digest = i)).length = ns.length := by
    intro ns
    induction ns with
    | nil => simp
    | cons n ns ih =>
      have hone : ∀ i, ((n :: ns).filter (lruShardIndex ·.digest = i)).length =
          (ns.filter (lruShardIndex ·.digest = i)).length +
            if lruShardIndex n.digest = i then 1 else 0 := by
        intro i
        by_cases hi : lruShardIndex n.digest = i <;> simp [hi]
      simp [hone, Finset.sum_add_distrib, ih, Finset.sum_ite_eq, Finset.mem_univ]
  simp only [len, LruShard.len, h.shard, hsum]

theorem map_digest_filter (ns : List LruNode) (digest : Digest) :
    (ns.filter (·.digest ≠ digest)).map LruNode.digest =
      (ns.map LruNode.digest).filter (· ≠ digest) := by
  rw [filter_map]
  rfl

/-- One call on the shards is the call on the list, while the clock has a
timestamp left. -/
theorem Merges.step (h : l.Merges nodes) (call : LruCall) (hclock : l.clock.toNat + 1 < 2 ^ 64) :
    ∃ nodes', (l.step call).2.Merges nodes' ∧
      recencyStep (nodes.map LruNode.digest) call =
        ((l.step call).1, nodes'.map LruNode.digest) ∧
      (l.step call).2.clock.toNat ≤ l.clock.toNat + 1 := by
  have hnext : (l.clock + 1).toNat = l.clock.toNat + 1 := by
    rw [UInt64.toNat_add]
    exact Nat.mod_eq_of_lt hclock
  have hlt : l.clock < l.clock + 1 := by
    rw [UInt64.lt_iff_toNat_lt, hnext]
    exact Nat.lt_succ_self _
  have hfreshen : ∀ digest, freshen (nodes.map LruNode.digest) digest =
      (nodes.filter (fun n => n.digest ≠ digest) ++ [⟨digest, l.clock⟩] : List LruNode).map
        LruNode.digest := by
    intro digest
    rw [map_append, map_digest_filter]
    rfl
  cases call with
  | insert digest =>
    exact ⟨_, h.insert digest hlt, by rw [recencyStep, hfreshen]; rfl, hnext.le⟩
  | touch digest =>
    by_cases htracks : l.Tracks digest
    · have htouch : l.step (.touch digest) = (none, l.insert digest) := by
        rw [ShardedLru.step, touch_of_tracks htracks]
      rw [htouch]
      refine ⟨_, h.insert digest hlt, ?_, hnext.le⟩
      rw [recencyStep, if_pos (h.tracks_iff.mp htracks), hfreshen]
    · refine ⟨nodes, h.touch_absent htracks hlt, ?_, hnext.le⟩
      rw [recencyStep, if_neg (mt h.tracks_iff.mpr htracks)]
      rfl
  | remove digest =>
    refine ⟨_, h.remove digest, ?_, Nat.le_succ _⟩
    rw [recencyStep, map_digest_filter]
    rfl
  | evictOldest =>
    cases nodes with
    | nil =>
      have hnone : l.step .evictOldest = (none, l) := by
        simp [ShardedLru.step, evictOldest, h.oldestShard_nil]
      rw [hnone]
      exact ⟨[], h, rfl, Nat.le_succ _⟩
    | cons n nodes =>
      obtain ⟨hanswer, hrest, hsame⟩ := h.evictOldest_cons
      refine ⟨nodes, hrest, ?_, ?_⟩
      · rw [recencyStep, ShardedLru.step, hanswer]
        rfl
      · rw [ShardedLru.step, hsame]
        exact Nat.le_succ _

end ShardedLru

end VarahaCache
