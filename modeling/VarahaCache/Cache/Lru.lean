import VarahaCache.Types

/-!
# The sharded LRU tracker

`ShardedLru` of `rv-cache`: 64 shards by the first byte of the digest, each a
list of digests from oldest to newest with the timestamp of the last insert or
touch. That the digests of a shard differ is a field of it; that every digest
lives in its own shard is a field of the tracker. What the engine needs is
`Tracks`, which digests are in.
-/

namespace VarahaCache

open Function List

structure LruNode where
  digest : Digest
  timestamp : UInt64

/-- One shard, oldest node first. -/
structure LruShard where
  nodes : List LruNode
  nodup : (nodes.map LruNode.digest).Nodup

namespace LruShard

def new : LruShard := ⟨[], nodup_nil⟩

def digests (s : LruShard) : List Digest := s.nodes.map LruNode.digest

def headTimestamp (s : LruShard) : Option UInt64 := s.nodes.head?.map LruNode.timestamp

/-- Drop a digest's node; a shard without it is left as it is. -/
def remove (s : LruShard) (digest : Digest) : LruShard where
  nodes := s.nodes.filter (·.digest ≠ digest)
  nodup := s.nodup.sublist (filter_sublist.map _)

variable {digest d : Digest} {s : LruShard} {ts : UInt64}

@[simp] theorem mem_digests_remove :
    d ∈ (s.remove digest).digests ↔ d ≠ digest ∧ d ∈ s.digests := by
  simp only [digests, remove, mem_map, mem_filter, decide_eq_true_eq]
  constructor
  · intro h
    obtain ⟨n, ⟨hn, hne⟩, rfl⟩ := h
    exact ⟨hne, n, hn, rfl⟩
  intro h
  obtain ⟨hne, n, hn, rfl⟩ := h
  exact ⟨n, ⟨hn, hne⟩, rfl⟩

def insert (s : LruShard) (digest : Digest) (timestamp : UInt64) : LruShard where
  nodes := (s.remove digest).nodes ++ [⟨digest, timestamp⟩]
  nodup := by
    have hnot : digest ∉ (s.remove digest).digests := by simp
    rw [map_append, nodup_append]
    refine ⟨(s.remove digest).nodup, by simp, ?_⟩
    intro a ha b hb heq
    simp only [map_cons, map_nil, mem_singleton] at hb
    subst hb heq
    exact hnot ha

@[simp] theorem mem_digests_insert :
    d ∈ (s.insert digest ts).digests ↔ d = digest ∨ d ∈ s.digests := by
  have h : (s.insert digest ts).digests = (s.remove digest).digests ++ [digest] := by
    simp [digests, insert]
  rw [h, mem_append, mem_digests_remove, mem_singleton]
  by_cases hd : d = digest <;> simp [hd]

def touch (s : LruShard) (digest : Digest) (timestamp : UInt64) : LruShard :=
  if digest ∈ s.digests then s.insert digest timestamp else s

@[simp] theorem mem_digests_touch :
    d ∈ (s.touch digest ts).digests ↔ d ∈ s.digests := by
  rw [touch]
  split
  · rename_i hin
    rw [mem_digests_insert]
    constructor
    · intro hmem
      rcases hmem with rfl | h
      · exact hin
      · exact h
    · exact .inr
  · rfl

def popHead (s : LruShard) : Option Digest × LruShard := (s.nodes.head?.map LruNode.digest,
    ⟨s.nodes.tail, s.nodup.sublist ((tail_sublist _).map _)⟩)

def len (s : LruShard) : Nat := s.nodes.length

end LruShard

def lruShardIndex (d : Digest) : Fin 64 := ⟨d.bytes[0].toNat % 64, Nat.mod_lt _ (by decide)⟩

structure ShardedLru where
  shards : Fin 64 → LruShard
  clock : UInt64
  homed : ∀ i, ∀ d ∈ (shards i).digests, lruShardIndex d = i

namespace ShardedLru

def new : ShardedLru where
  shards := fun _ => .new
  clock := 0
  homed := by intro i d hd; simp [LruShard.digests, LruShard.new] at hd

def Tracks (l : ShardedLru) (d : Digest) : Prop := d ∈ (l.shards (lruShardIndex d)).digests

instance (l : ShardedLru) (d : Digest) : Decidable (l.Tracks d) :=
  inferInstanceAs (Decidable (d ∈ (l.shards (lruShardIndex d)).digests))

open LruShard

theorem not_tracks_new (d : Digest) : ¬ new.Tracks d := by
  simp [Tracks, new, digests, LruShard.new]

variable {l : ShardedLru} {digest d : Digest} {i : Fin 64} {s : LruShard} {c : UInt64}

theorem mem_shard_iff {d : Digest} :
    d ∈ (l.shards i).digests ↔ i = lruShardIndex d ∧ l.Tracks d := by
  constructor
  · intro h
    obtain rfl := l.homed i d h
    exact ⟨rfl, h⟩
  intro hmem
  obtain ⟨rfl, h⟩ := hmem
  exact h

/-- Replace one shard by one whose digests belong there. -/
def setShard (l : ShardedLru) (i : Fin 64) (s : LruShard) (clock : UInt64)
    (h : ∀ d ∈ s.digests, lruShardIndex d = i) : ShardedLru where
  shards := update l.shards i s
  clock := clock
  homed := by
    intro j d hd
    by_cases hj : j = i
    · subst hj
      rw [update_self] at hd
      exact h d hd
    · rw [update_of_ne hj] at hd
      exact l.homed j d hd

theorem tracks_setShard (h : ∀ d ∈ s.digests, lruShardIndex d = i) (d : Digest) :
    (l.setShard i s c h).Tracks d ↔
      if lruShardIndex d = i then d ∈ s.digests else l.Tracks d := by
  by_cases hi : lruShardIndex d = i
  · subst hi
    simp [Tracks, setShard]
  · simp [Tracks, setShard, hi]

/-- Record an insertion: the digest becomes the newest. -/
def insert (l : ShardedLru) (digest : Digest) : ShardedLru :=
  l.setShard (lruShardIndex digest) ((l.shards (lruShardIndex digest)).insert digest l.clock)
    (l.clock + 1) (by
      intro d hd
      rcases LruShard.mem_digests_insert.mp hd with rfl | hd
      · rfl
      · exact l.homed _ d hd)

theorem tracks_insert : (l.insert digest).Tracks d ↔ d = digest ∨ l.Tracks d := by
  rw [insert, tracks_setShard]
  split
  · rename_i hi
    rw [mem_digests_insert, mem_shard_iff, hi]
    simp
  rename_i hi
  have hne : d ≠ digest := fun h => hi (h ▸ rfl)
  simp [hne]

/-- Record a hit: a present digest becomes the newest. -/
def touch (l : ShardedLru) (digest : Digest) : ShardedLru :=
  l.setShard (lruShardIndex digest) ((l.shards (lruShardIndex digest)).touch digest l.clock)
    (l.clock + 1) (by
      intro d hd
      exact l.homed _ d (LruShard.mem_digests_touch.mp hd))

theorem tracks_touch : (l.touch digest).Tracks d ↔ l.Tracks d := by
  rw [touch, tracks_setShard]
  split
  · rename_i hi
    rw [mem_digests_touch, mem_shard_iff, hi]
    simp
  · rfl

def remove (l : ShardedLru) (digest : Digest) : ShardedLru :=
  l.setShard (lruShardIndex digest) ((l.shards (lruShardIndex digest)).remove digest) l.clock (by
      intro d hd
      exact l.homed _ d (LruShard.mem_digests_remove.mp hd).2)

theorem tracks_remove : (l.remove digest).Tracks d ↔ d ≠ digest ∧ l.Tracks d := by
  rw [remove, tracks_setShard]
  split
  · rename_i hi
    rw [mem_digests_remove, mem_shard_iff, hi]
    simp
  rename_i hi
  have hne : d ≠ digest := fun h => hi (h ▸ rfl)
  simp [hne]

/-! ## Eviction -/

/-- One shard of the first pass: remember the oldest head seen so far. -/
def scanShard (l : ShardedLru) (acc : Option (Fin 64) × UInt64) (i : Fin 64) :
    Option (Fin 64) × UInt64 :=
  match (l.shards i).headTimestamp with
  | some ts => if ts < acc.2 then (some i, ts) else acc
  | none => acc

/-- The first pass over all shards: the one with the oldest head. -/
def oldestShard (l : ShardedLru) : Option (Fin 64) :=
  ((finRange 64).foldl l.scanShard (none, 0xFFFFFFFFFFFFFFFF)).1

theorem homed_popHead (l : ShardedLru) (i : Fin 64) :
    ∀ d ∈ (l.shards i).popHead.2.digests, lruShardIndex d = i := by
  intro d hd
  exact l.homed i d (((tail_sublist (l.shards i).nodes).map _).mem hd)

def evictOldest (l : ShardedLru) : Option Digest × ShardedLru :=
  match l.oldestShard with
  | none => (none, l)
  | some i =>
    ((l.shards i).popHead.1, l.setShard i (l.shards i).popHead.2 l.clock (l.homed_popHead i))

def len (l : ShardedLru) : Nat := ∑ i, (l.shards i).len

theorem len_setShard (l : ShardedLru) (h : ∀ d ∈ s.digests, lruShardIndex d = i) :
    (l.setShard i s c h).len + (l.shards i).len = l.len + s.len := by
  have hnew := Finset.add_sum_erase Finset.univ
    (fun j => (update l.shards i s j).len) (Finset.mem_univ i)
  have hold := Finset.add_sum_erase Finset.univ (fun j => (l.shards j).len) (Finset.mem_univ i)
  have hrest : ∑ j ∈ Finset.univ.erase i, (update l.shards i s j).len =
      ∑ j ∈ Finset.univ.erase i, (l.shards j).len := by
    refine Finset.sum_congr rfl ?_
    intro j hj
    rw [update_of_ne (Finset.ne_of_mem_erase hj)]
  simp only [update_self] at hnew
  show ∑ j, (update l.shards i s j).len + _ = ∑ j, (l.shards j).len + _
  omega

theorem oldestShard_nonempty (h : l.oldestShard = some i) :
    ∃ n rest, (l.shards i).nodes = n :: rest := by
  -- a shard is only remembered after its head was read
  have hacc : ∀ (is : List (Fin 64)) (acc : Option (Fin 64) × UInt64),
      (∀ j, acc.1 = some j → (l.shards j).headTimestamp ≠ none) →
      ∀ j, (is.foldl l.scanShard acc).1 = some j → (l.shards j).headTimestamp ≠ none := by
    intro is
    induction is with
    | nil => intro acc hacc; exact hacc
    | cons k is ih =>
      intro acc hacc
      refine ih _ ?_
      intro j hj
      rw [scanShard] at hj
      split at hj
      · rename_i ts hts
        split at hj
        · cases hj
          simp [hts]
        · exact hacc j hj
      · exact hacc j hj
  have hne := hacc _ (none, 0xFFFFFFFFFFFFFFFF) (by simp) i h
  cases hn : (l.shards i).nodes with
  | nil => simp [headTimestamp, hn] at hne
  | cons n rest => exact ⟨n, rest, rfl⟩

theorem evictOldest_cases (l : ShardedLru) :
    l.evictOldest = (none, l) ∨
      ∃ d, l.evictOldest.1 = some d ∧ l.Tracks d ∧ l.evictOldest.2.len + 1 = l.len ∧
        ∀ x, l.evictOldest.2.Tracks x ↔ x ≠ d ∧ l.Tracks x := by
  cases ho : l.oldestShard with
  | none => exact .inl (by simp [evictOldest, ho])
  | some i =>
    obtain ⟨n, rest, hn⟩ := oldestShard_nonempty ho
    have hnd := (l.shards i).nodup
    simp only [hn, map_cons, nodup_cons] at hnd
    have hmem : n.digest ∈ (l.shards i).digests := by simp [digests, hn]
    have hhome := l.homed i n.digest hmem
    right
    refine ⟨n.digest, by simp [evictOldest, ho, popHead, hn],
      (mem_shard_iff.mp hmem).2, ?_, ?_⟩
    · have hlen : (l.shards i).len = rest.length + 1 := by simp [LruShard.len, hn]
      have hpop : (l.shards i).popHead.2.len = rest.length := by
        simp [LruShard.len, popHead, hn]
      simp only [evictOldest, ho]
      have hset := len_setShard l (c := l.clock) (l.homed_popHead i)
      omega
    intro x
    simp only [evictOldest, ho]
    rw [tracks_setShard]
    have hpop : (l.shards i).popHead.2.digests = rest.map LruNode.digest := by
      simp [digests, popHead, hn]
    have hall : (l.shards i).digests = n.digest :: rest.map LruNode.digest := by
      simp [digests, hn]
    split
    · rename_i hx
      have htr : l.Tracks x ↔ x ∈ (l.shards i).digests := by rw [mem_shard_iff]; simp [hx]
      rw [htr, hpop, hall, mem_cons]
      constructor
      · intro h
        exact ⟨fun he => hnd.1 (he ▸ h), .inr h⟩
      intro hmem
      rcases hmem with ⟨hne, rfl | h⟩
      · exact absurd rfl hne
      · exact h
    · rename_i hx
      have hne : x ≠ n.digest := fun he => hx (he ▸ hhome)
      simp [hne]

end ShardedLru

end VarahaCache
