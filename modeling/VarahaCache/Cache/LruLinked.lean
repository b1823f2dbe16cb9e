import VarahaCache.Cache.Recency
import VarahaCache.Lib.LinkedList

/-!
# The tracker as it stands in memory

`lru.rs` with its raw pointers: a shard is a hash map from digests to the
addresses of nodes, and the two ends of a doubly linked list through them.
Following a pointer to something not allocated has no result; the tracker
always has one, and behaves as the list model of `VarahaCache.Cache.Lru`.
-/

namespace VarahaCache.Linked

open LinkedList Function List Lib

/-- The memory of the nodes: digest and timestamp, and two pointers. -/
abbrev Memory := Heap (Node LruNode)

structure LruShard where
  map : AList fun _ : Digest => ℕ
  ends : Ends

namespace LruShard

def new : LruShard := ⟨∅, ⟨none, none⟩⟩

def unlink (s : LruShard) (node : ℕ) (m : Memory) : Option (LruShard × Memory) :=
  (LinkedList.unlink s.ends node m).map fun r => ({ s with ends := r.1 }, r.2)

def pushTail (s : LruShard) (node : ℕ) (m : Memory) : Option (LruShard × Memory) :=
  (LinkedList.pushTail s.ends node m).map fun r => ({ s with ends := r.1 }, r.2)

def headTimestamp (s : LruShard) (m : Memory) : Option (Option UInt64) :=
  match s.ends.head with
  | none => some none
  | some head => (m.cells head).map fun n => some n.data.timestamp

def popHead (s : LruShard) (m : Memory) : Option (Option Digest × LruShard × Memory) :=
  match s.ends.head with
  | none => some (none, s, m)
  | some node => do
    let n ← m.cells node
    let digest := n.data.digest
    let (s, m) ← s.unlink node m
    let m ← m.free node
    return (some digest, { s with map := s.map.erase digest }, m)

/-- A node that is there: a new timestamp, and to the tail. -/
def renew (s : LruShard) (node : ℕ) (timestamp : UInt64) (m : Memory) :
    Option (LruShard × Memory) := do
  let m ← m.modify node fun n => { n with data := { n.data with timestamp := timestamp } }
  let (s, m) ← s.unlink node m
  s.pushTail node m

def insert (alloc : Heap.Allocator (Node LruNode)) (s : LruShard) (digest : Digest)
    (timestamp : UInt64) (m : Memory) : Option (LruShard × Memory) :=
  match s.map.lookup digest with
  | some node => s.renew node timestamp m
  | none => do
    let node := alloc.place m
    let m := m.store node ⟨⟨digest, timestamp⟩, none, none⟩
    let (s, m) ← s.pushTail node m
    return ({ s with map := s.map.insert digest node }, m)

def touch (s : LruShard) (digest : Digest) (timestamp : UInt64) (m : Memory) :
    Option (Bool × LruShard × Memory) :=
  match s.map.lookup digest with
  | some node => (s.renew node timestamp m).map fun r => (true, r)
  | none => some (false, s, m)

def remove (s : LruShard) (digest : Digest) (m : Memory) : Option (Bool × LruShard × Memory) :=
  match s.map.lookup digest with
  | some node => do
    let (s, m) ← { s with map := s.map.erase digest : LruShard }.unlink node m
    let m ← m.free node
    return (true, s, m)
  | none => some (false, s, m)

def len (s : LruShard) : ℕ := s.map.keys.length

end LruShard

structure ShardedLru where
  shards : Fin 64 → LruShard
  clock : UInt64
  memory : Memory

namespace ShardedLru

def new : ShardedLru := ⟨fun _ => .new, 0, .empty⟩

/-- What an operation left of a shard and of the memory. -/
def setShard (l : ShardedLru) (i : Fin 64) (clock : UInt64) (r : LruShard × Memory) : ShardedLru :=
  ⟨update l.shards i r.1, clock, r.2⟩

def insert (alloc : Heap.Allocator (Node LruNode)) (l : ShardedLru) (digest : Digest) :
    Option ShardedLru :=
  let idx := lruShardIndex digest
  ((l.shards idx).insert alloc digest l.clock l.memory).map (l.setShard idx (l.clock + 1))

def touch (l : ShardedLru) (digest : Digest) : Option ShardedLru :=
  let idx := lruShardIndex digest
  ((l.shards idx).touch digest l.clock l.memory).map fun r => l.setShard idx (l.clock + 1) r.2

def remove (l : ShardedLru) (digest : Digest) : Option ShardedLru :=
  let idx := lruShardIndex digest
  ((l.shards idx).remove digest l.memory).map fun r => l.setShard idx l.clock r.2

def scanShard (l : ShardedLru) (acc : Option (Fin 64) × UInt64) (i : Fin 64) :
    Option (Option (Fin 64) × UInt64) := do
  match ← (l.shards i).headTimestamp l.memory with
  | some ts => return if ts < acc.2 then (some i, ts) else acc
  | none => return acc

def evictOldest (l : ShardedLru) : Option (Option Digest × ShardedLru) := do
  let (oldestShard, _) ← (finRange 64).foldlM l.scanShard (none, 0xFFFFFFFFFFFFFFFF)
  match oldestShard with
  | some idx => do
    let (digest, r) ← (l.shards idx).popHead l.memory
    return (digest, l.setShard idx l.clock r)
  | none => return (none, l)

def len (l : ShardedLru) : ℕ := ∑ i, (l.shards i).len

def step (alloc : Heap.Allocator (Node LruNode)) (l : ShardedLru) :
    LruCall → Option (Option Digest × ShardedLru)
  | .insert digest => (l.insert alloc digest).map fun l => (none, l)
  | .touch digest => (l.touch digest).map fun l => (none, l)
  | .remove digest => (l.remove digest).map fun l => (none, l)
  | .evictOldest => l.evictOldest

/-- Calls one after another, with what each of them answered. -/
def run (alloc : Heap.Allocator (Node LruNode)) (l : ShardedLru) :
    List LruCall → Option (List (LruCall × Option Digest) × ShardedLru)
  | [] => some ([], l)
  | call :: calls => do
    let (answer, l) ← l.step alloc call
    let (log, l) ← l.run alloc calls
    return ((call, answer) :: log, l)

end ShardedLru

/-! ## A shard and its list -/

/-- A shard's nodes are linked in memory, and the map knows each by its
digest. -/
structure LruShard.Holds (s : LruShard) (m : Memory) (l : List (ℕ × LruNode)) : Prop where
  rep : Rep s.ends m l
  lookup : ∀ d a, s.map.lookup d = some a ↔ ∃ n, (a, n) ∈ l ∧ n.digest = d
  nodup : (l.map (·.2.digest)).Nodup

/-- What a shard's operation leaves alone, and the addresses it may take into
use. -/
structure Frame (m : Memory) (l : List (ℕ × LruNode)) (m' : Memory) (l' : List (ℕ × LruNode)) :
    Prop where
  same : ∀ b, b ∉ addresses l → b ∉ addresses l' → m'.cells b = m.cells b
  fresh : ∀ b ∈ addresses l', b ∈ addresses l ∨ m.cells b = none

theorem Frame.refl (m : Memory) (l : List (ℕ × LruNode)) : Frame m l m l :=
  ⟨fun _ _ _ => rfl, fun _ hb => .inl hb⟩

namespace LruShard

variable {s : LruShard} {m : Memory} {l l₁ l₂ : List (ℕ × LruNode)} {a : ℕ} {n : LruNode}

theorem holds_new (m : Memory) : new.Holds m [] where
  rep := ⟨trivial, rfl, rfl, nodup_nil⟩
  lookup d a := by simp [new]
  nodup := nodup_nil

variable {d : Digest}

theorem Holds.exists_split (h : s.Holds m l) (hlookup : s.map.lookup d = some a) :
    ∃ l₁ n l₂, l = l₁ ++ (a, n) :: l₂ ∧ n.digest = d := by
  obtain ⟨n, hmem, hdigest⟩ := (h.lookup d a).mp hlookup
  obtain ⟨l₁, l₂, rfl⟩ := append_of_mem hmem
  exact ⟨l₁, n, l₂, rfl, hdigest⟩

theorem Holds.ne_digest (h : s.Holds m (l₁ ++ (a, n) :: l₂)) {b : ℕ} {k : LruNode}
    (hmem : (b, k) ∈ l₁ ++ l₂) : k.digest ≠ n.digest := by
  have hnd := h.nodup
  rw [map_append, map_cons, nodup_append, nodup_cons] at hnd
  rcases mem_append.mp hmem with hmem | hmem
  · exact hnd.2.2 _ (mem_map_of_mem hmem) _ (mem_cons_self ..)
  · intro heq
    exact hnd.2.1.1 (heq ▸ mem_map_of_mem hmem)

theorem Holds.filter_eq (h : s.Holds m (l₁ ++ (a, n) :: l₂)) :
    ((l₁ ++ (a, n) :: l₂).map Prod.snd).filter (·.digest ≠ n.digest) = (l₁ ++ l₂).map Prod.snd := by
  have hkeep : ∀ l' : List (ℕ × LruNode), (∀ p ∈ l', p ∈ l₁ ++ l₂) →
      (l'.map Prod.snd).filter (·.digest ≠ n.digest) = l'.map Prod.snd := by
    intro l' hsub
    rw [filter_eq_self]
    simp only [mem_map, decide_eq_true_eq]
    rintro k ⟨⟨b, k⟩, hmem, rfl⟩
    exact h.ne_digest (hsub _ hmem)
  rw [map_append, map_cons, filter_append,
    filter_cons_of_neg (by simp), hkeep l₁ fun p hp => mem_append_left _ hp,
    hkeep l₂ fun p hp => mem_append_right _ hp, map_append]

theorem Holds.renew (h : s.Holds m (l₁ ++ (a, n) :: l₂)) (ts : UInt64) :
    ∃ s' m', s.renew a ts m = some (s', m') ∧
      s'.Holds m' (l₁ ++ l₂ ++ [(a, { n with timestamp := ts })]) ∧
      Frame m (l₁ ++ (a, n) :: l₂) m' (l₁ ++ l₂ ++ [(a, { n with timestamp := ts })]) := by
  obtain ⟨ha₁, ha₂⟩ := h.rep.notMem_addresses
  obtain ⟨m₁, hmodify, hrep₁, hframe₁⟩ := h.rep.setData fun k => { k with timestamp := ts }
  obtain ⟨ends₂, m₂, hunlink, hrep₂, hcell, -, hframe₂⟩ := hrep₁.unlink
  obtain ⟨ends₃, m₃, hpush, hrep₃, hframe₃⟩ := hrep₂.pushTail (by simp [ha₁, ha₂]) hcell
  refine ⟨⟨s.map, ends₃⟩, m₃, ?_, ⟨hrep₃, fun d b => ?_, ?_⟩, ⟨fun b hb hb' => ?_, fun b hb => ?_⟩⟩
  · simp [LruShard.renew, hmodify, unlink, hunlink, pushTail, hpush]
  · rw [h.lookup]
    simp only [mem_append, mem_cons, Prod.mk.injEq, not_mem_nil, or_false]
    constructor
    · rintro ⟨k, hmem | ⟨rfl, rfl⟩ | hmem, hdigest⟩
      · exact ⟨k, .inl (.inl hmem), hdigest⟩
      · exact ⟨_, .inr ⟨rfl, rfl⟩, hdigest⟩
      · exact ⟨k, .inl (.inr hmem), hdigest⟩
    rintro ⟨k, (hmem | hmem) | ⟨rfl, rfl⟩, hdigest⟩
    · exact ⟨k, .inl hmem, hdigest⟩
    · exact ⟨k, .inr (.inr hmem), hdigest⟩
    · exact ⟨n, .inr (.inl ⟨rfl, rfl⟩), hdigest⟩
  · have hperm : ((l₁ ++ l₂ ++ [(a, { n with timestamp := ts })]).map
        fun p : ℕ × LruNode => p.2.digest).Perm
        ((l₁ ++ (a, n) :: l₂).map fun p : ℕ × LruNode => p.2.digest) := by
      simp only [map_append, map_cons, map_nil]
      exact (perm_append_singleton _ _).trans perm_middle.symm
    exact hperm.nodup_iff.mpr h.nodup
  · rw [mem_addresses_append, mem_addresses_cons, not_or, not_or] at hb
    rw [hframe₃ b hb', hframe₂ b (by simp [hb]), hframe₁ b hb.2.1]
  · refine .inl ?_
    simp only [mem_addresses_append, mem_addresses_cons, addresses_nil, not_mem_nil,
      or_false] at hb ⊢
    tauto

theorem Holds.discard (h : s.Holds m (l₁ ++ (a, n) :: l₂)) :
    ∃ ends m₁ m₂, LinkedList.unlink s.ends a m = some (ends, m₁) ∧ m₁.free a = some m₂ ∧
      Holds ⟨s.map.erase n.digest, ends⟩ m₂ (l₁ ++ l₂) ∧
      Frame m (l₁ ++ (a, n) :: l₂) m₂ (l₁ ++ l₂) := by
  obtain ⟨ha₁, ha₂⟩ := h.rep.notMem_addresses
  obtain ⟨ends, m₁, hunlink, hrep, hcell, -, hframe₁⟩ := h.rep.unlink
  obtain ⟨m₂, hfree, hframe₂⟩ := Heap.exists_free hcell
  have hne : ∀ b ∈ addresses (l₁ ++ l₂), b ≠ a := by
    rintro b hb rfl
    exact (mem_addresses_append.mp hb).elim ha₁ ha₂
  refine ⟨ends, m₁, m₂, hunlink, hfree, ⟨?_, fun d b => ?_, ?_⟩, ⟨fun b hb _ => ?_, fun b hb => ?_⟩⟩
  · exact hrep.congr fun b hb => hframe₂ b (hne b hb)
  · by_cases hd : d = n.digest
    · subst hd
      simp only [AList.lookup_erase]
      refine iff_of_false (by simp) ?_
      rintro ⟨k, hmem, hdigest⟩
      exact h.ne_digest hmem hdigest
    rw [AList.lookup_erase_ne hd, h.lookup]
    simp only [mem_append, mem_cons, Prod.mk.injEq]
    constructor
    · rintro ⟨k, hmem | ⟨rfl, rfl⟩ | hmem, hdigest⟩
      · exact ⟨k, .inl hmem, hdigest⟩
      · exact absurd hdigest.symm hd
      · exact ⟨k, .inr hmem, hdigest⟩
    · rintro ⟨k, hmem | hmem, hdigest⟩
      · exact ⟨k, .inl hmem, hdigest⟩
      · exact ⟨k, .inr (.inr hmem), hdigest⟩
  · exact h.nodup.sublist (((sublist_cons_self ..).append_left _).map _)
  · rw [mem_addresses_append, mem_addresses_cons, not_or, not_or] at hb
    rw [hframe₂ b hb.2.1, hframe₁ b (by simp [hb])]
  · refine .inl ?_
    simp only [mem_addresses_append, mem_addresses_cons] at hb ⊢
    tauto

theorem Holds.insert_new (h : s.Holds m l) (hlookup : s.map.lookup d = none)
    (alloc : Heap.Allocator (Node LruNode)) (ts : UInt64) :
    ∃ s' m', s.insert alloc d ts m = some (s', m') ∧
      s'.Holds m' (l ++ [(alloc.place m, ⟨d, ts⟩)]) ∧
      Frame m l m' (l ++ [(alloc.place m, ⟨d, ts⟩)]) := by
  have hfresh := alloc.fresh m
  have ha : alloc.place m ∉ addresses l := fun hmem => h.rep.chain.cells_ne_none hmem hfresh
  have hcell : (m.store (alloc.place m) ⟨⟨d, ts⟩, none, none⟩).cells (alloc.place m) =
      some ⟨⟨d, ts⟩, none, none⟩ := update_self ..
  have hstore : ∀ b, b ≠ alloc.place m →
      (m.store (alloc.place m) ⟨⟨d, ts⟩, none, none⟩).cells b = m.cells b :=
    fun b hb => update_of_ne hb _ _
  have hrep : Rep s.ends (m.store (alloc.place m) ⟨⟨d, ts⟩, none, none⟩) l :=
    h.rep.congr fun b hb => hstore b (ne_of_mem_of_not_mem hb ha)
  obtain ⟨ends, m', hpush, hrep', hframe⟩ := hrep.pushTail ha hcell
  have hnone : ∀ p ∈ l, p.2.digest ≠ d := by
    rintro ⟨b, k⟩ hmem hdigest
    have := (h.lookup d b).mpr ⟨k, hmem, hdigest⟩
    rw [hlookup] at this
    cases this
  refine ⟨⟨s.map.insert d (alloc.place m), ends⟩, m', ?_, ⟨hrep', fun d' b => ?_, ?_⟩,
    ⟨fun b _ hb' => ?_, fun b hb => ?_⟩⟩
  · simp [LruShard.insert, hlookup, pushTail, hpush]
  · simp only [mem_append, mem_singleton, Prod.mk.injEq]
    by_cases hd : d' = d
    · subst hd
      simp only [AList.lookup_insert, Option.some.injEq]
      constructor
      · rintro rfl
        exact ⟨_, .inr ⟨rfl, rfl⟩, rfl⟩
      rintro ⟨k, hmem | ⟨rfl, -⟩, hdigest⟩
      · exact absurd hdigest (hnone _ hmem)
      · rfl
    · rw [AList.lookup_insert_ne hd, h.lookup]
      constructor
      · rintro ⟨k, hmem, hdigest⟩
        exact ⟨k, .inl hmem, hdigest⟩
      rintro ⟨k, hmem | ⟨-, rfl⟩, hdigest⟩
      · exact ⟨k, hmem, hdigest⟩
      · exact absurd hdigest.symm hd
  · rw [map_append, nodup_append]
    refine ⟨h.nodup, by simp, ?_⟩
    simp only [mem_map, map_cons, map_nil, mem_singleton]
    rintro d' ⟨p, hmem, rfl⟩ _ rfl
    exact hnone p hmem
  · rw [hframe b hb', hstore b]
    rintro rfl
    simp at hb'
  · rcases mem_addresses_append.mp hb with hb | hb
    · exact .inl hb
    · simp only [mem_addresses_cons, addresses_nil, not_mem_nil, or_false] at hb
      exact .inr (hb ▸ hfresh)

/-! ### The operations are those of the list model -/

/-- What an operation left of a shard and of the memory, with these nodes. -/
def Leaves (m : Memory) (l : List (ℕ × LruNode)) (r : LruShard × Memory) (nodes : List LruNode) :
    Prop :=
  ∃ l', r.1.Holds r.2 l' ∧ Frame m l r.2 l' ∧ l'.map Prod.snd = nodes

variable {S : VarahaCache.LruShard}

theorem nodes_remove (S : VarahaCache.LruShard) (d : Digest) :
    (S.remove d).nodes = S.nodes.filter (·.digest ≠ d) := rfl

theorem nodes_insert (S : VarahaCache.LruShard) (d : Digest) (ts : UInt64) :
    (S.insert d ts).nodes = S.nodes.filter (·.digest ≠ d) ++ [⟨d, ts⟩] := rfl

theorem filter_of_absent (h : d ∉ S.digests) : S.nodes.filter (·.digest ≠ d) = S.nodes := by
  rw [filter_eq_self]
  intro k hk
  simp only [decide_eq_true_eq]
  rintro rfl
  exact h (mem_map_of_mem hk)

theorem Holds.mem_digests (h : s.Holds m l) (hnodes : l.map Prod.snd = S.nodes) :
    d ∈ S.digests ↔ ∃ a, s.map.lookup d = some a := by
  simp only [VarahaCache.LruShard.digests, ← hnodes, mem_map, h.lookup]
  constructor
  · rintro ⟨k, ⟨⟨a, k⟩, hmem, rfl⟩, rfl⟩
    exact ⟨a, k, hmem, rfl⟩
  · rintro ⟨a, k, hmem, rfl⟩
    exact ⟨k, ⟨(a, k), hmem, rfl⟩, rfl⟩

theorem Holds.renew_eq_insert (h : s.Holds m l) (hnodes : l.map Prod.snd = S.nodes)
    (hlookup : s.map.lookup d = some a) (ts : UInt64) :
    ∃ r, s.renew a ts m = some r ∧ Leaves m l r (S.insert d ts).nodes := by
  obtain ⟨l₁, n, l₂, rfl, rfl⟩ := h.exists_split hlookup
  obtain ⟨s', m', hrenew, hholds, hframe⟩ := h.renew ts
  refine ⟨_, hrenew, _, hholds, hframe, ?_⟩
  rw [nodes_insert, ← hnodes, h.filter_eq, map_append]
  rfl

theorem Holds.insert (h : s.Holds m l) (hnodes : l.map Prod.snd = S.nodes)
    (alloc : Heap.Allocator (Node LruNode)) (d : Digest) (ts : UInt64) :
    ∃ r, s.insert alloc d ts m = some r ∧ Leaves m l r (S.insert d ts).nodes := by
  cases hlookup : s.map.lookup d with
  | some a =>
    obtain ⟨r, hrenew, hleaves⟩ := h.renew_eq_insert hnodes hlookup ts
    exact ⟨r, by simp [LruShard.insert, hlookup, hrenew], hleaves⟩
  | none =>
    obtain ⟨s', m', hinsert, hholds, hframe⟩ := h.insert_new hlookup alloc ts
    refine ⟨_, hinsert, _, hholds, hframe, ?_⟩
    have hnone : d ∉ S.digests := by simp [h.mem_digests hnodes, hlookup]
    rw [nodes_insert, filter_of_absent hnone, map_append, hnodes]
    rfl

theorem Holds.touch (h : s.Holds m l) (hnodes : l.map Prod.snd = S.nodes) (d : Digest)
    (ts : UInt64) :
    ∃ found r, s.touch d ts m = some (found, r) ∧ Leaves m l r (S.touch d ts).nodes := by
  cases hlookup : s.map.lookup d with
  | some a =>
    obtain ⟨r, hrenew, hleaves⟩ := h.renew_eq_insert hnodes hlookup ts
    have hmem : d ∈ S.digests := (h.mem_digests hnodes).mpr ⟨a, hlookup⟩
    refine ⟨true, r, by simp [LruShard.touch, hlookup, hrenew], ?_⟩
    rwa [VarahaCache.LruShard.touch, if_pos hmem]
  | none =>
    have hnot : d ∉ S.digests := by simp [h.mem_digests hnodes, hlookup]
    refine ⟨false, (s, m), by simp [LruShard.touch, hlookup], l, h, .refl m l, ?_⟩
    rw [VarahaCache.LruShard.touch, if_neg hnot, hnodes]

theorem Holds.remove (h : s.Holds m l) (hnodes : l.map Prod.snd = S.nodes) (d : Digest) :
    ∃ found r, s.remove d m = some (found, r) ∧ Leaves m l r (S.remove d).nodes := by
  cases hlookup : s.map.lookup d with
  | some a =>
    obtain ⟨l₁, n, l₂, rfl, rfl⟩ := h.exists_split hlookup
    obtain ⟨ends, m₁, m₂, hunlink, hfree, hholds, hframe⟩ := h.discard
    refine ⟨true, (_, m₂), ?_, _, hholds, hframe, ?_⟩
    · simp [LruShard.remove, hlookup, unlink, hunlink, hfree]
    · rw [nodes_remove, ← hnodes, h.filter_eq]
  | none =>
    refine ⟨false, (s, m), by simp [LruShard.remove, hlookup], l, h, .refl m l, ?_⟩
    have hnone : d ∉ S.digests := by simp [h.mem_digests hnodes, hlookup]
    rw [nodes_remove, filter_of_absent hnone, hnodes]

theorem Holds.popHead (h : s.Holds m l) (hnodes : l.map Prod.snd = S.nodes) :
    ∃ r, s.popHead m = some (S.popHead.1, r) ∧ Leaves m l r S.popHead.2.nodes := by
  cases l with
  | nil =>
    refine ⟨(s, m), ?_, [], h, .refl m [], ?_⟩
    · simp [LruShard.popHead, h.rep.head, VarahaCache.LruShard.popHead, ← hnodes]
    · simp [VarahaCache.LruShard.popHead, ← hnodes]
  | cons p l =>
    obtain ⟨a, n⟩ := p
    have hfirst : s.Holds m ([] ++ (a, n) :: l) := h
    obtain ⟨ends, m₁, m₂, hunlink, hfree, hholds, hframe⟩ := hfirst.discard
    have hcell := h.rep.chain.1
    refine ⟨(_, m₂), ?_, l, hholds, hframe, ?_⟩
    · simp [LruShard.popHead, h.rep.head, hcell, unlink, hunlink, hfree,
        VarahaCache.LruShard.popHead, ← hnodes]
    · simp [VarahaCache.LruShard.popHead, ← hnodes]

theorem Holds.headTimestamp (h : s.Holds m l) (hnodes : l.map Prod.snd = S.nodes) :
    s.headTimestamp m = some S.headTimestamp := by
  cases l with
  | nil => simp [LruShard.headTimestamp, h.rep.head, VarahaCache.LruShard.headTimestamp, ← hnodes]
  | cons p l =>
    obtain ⟨a, n⟩ := p
    simp [LruShard.headTimestamp, h.rep.head, h.rep.chain.1,
      VarahaCache.LruShard.headTimestamp, ← hnodes]

theorem Holds.len (h : s.Holds m l) (hnodes : l.map Prod.snd = S.nodes) : s.len = S.len := by
  have hperm : s.map.keys.Perm (l.map fun p => p.2.digest) := by
    refine (perm_ext_iff_of_nodup s.map.keys_nodup h.nodup).mpr fun d => ?_
    rw [← AList.mem_keys, ← AList.lookup_isSome, Option.isSome_iff_exists]
    simp only [h.lookup, mem_map]
    constructor
    · rintro ⟨a, k, hmem, rfl⟩
      exact ⟨(a, k), hmem, rfl⟩
    · rintro ⟨⟨a, k⟩, hmem, rfl⟩
      exact ⟨a, k, hmem, rfl⟩
  rw [LruShard.len, hperm.length_eq, VarahaCache.LruShard.len, ← hnodes, length_map, length_map]

end LruShard

/-! ## All shards -/

namespace ShardedLru

/-- The shards hold the lists of the list model, and share no address. -/
structure Represents (l : ShardedLru) (lists : Fin 64 → List (ℕ × LruNode))
    (L : VarahaCache.ShardedLru) : Prop where
  clock : l.clock = L.clock
  holds : ∀ i, (l.shards i).Holds l.memory (lists i)
  nodes : ∀ i, (lists i).map Prod.snd = (L.shards i).nodes
  disjoint : ∀ i j, i ≠ j → ∀ b ∈ addresses (lists i), b ∉ addresses (lists j)

variable {l : ShardedLru} {lists : Fin 64 → List (ℕ × LruNode)} {L : VarahaCache.ShardedLru}

theorem represents_new : new.Represents (fun _ => []) .new where
  clock := rfl
  holds _ := LruShard.holds_new _
  nodes _ := rfl
  disjoint _ _ _ := by simp

theorem Represents.setShard (h : l.Represents lists L) {i : Fin 64} {r : LruShard × Memory}
    {S : VarahaCache.LruShard} (hleaves : LruShard.Leaves l.memory (lists i) r S.nodes)
    {L' : VarahaCache.ShardedLru} (hshards : L'.shards = update L.shards i S) {clock : UInt64}
    (hclock : clock = L'.clock) : ∃ lists', (l.setShard i clock r).Represents lists' L' := by
  obtain ⟨list, hholds, hframe, hnodes⟩ := hleaves
  have hother : ∀ j, j ≠ i → ∀ b ∈ addresses (lists j), b ∉ addresses list := by
    intro j hj b hb hnew
    rcases hframe.fresh b hnew with hold | hnone
    · exact h.disjoint j i hj b hb hold
    · exact (h.holds j).rep.chain.cells_ne_none hb hnone
  refine ⟨update lists i list, ?_⟩
  constructor
  case clock => exact hclock
  case holds =>
    intro j
    by_cases hj : j = i
    · subst hj
      simpa [ShardedLru.setShard] using hholds
    have hsame : ∀ b ∈ addresses (lists j), r.2.cells b = l.memory.cells b := fun b hb =>
      hframe.same b (h.disjoint j i hj b hb) (hother j hj b hb)
    have hold := h.holds j
    simpa [ShardedLru.setShard, hj] using
      (⟨hold.rep.congr hsame, hold.lookup, hold.nodup⟩ : (l.shards j).Holds r.2 (lists j))
  case nodes =>
    intro j
    by_cases hj : j = i
    · subst hj
      simpa [hshards] using hnodes
    · simpa [hshards, hj] using h.nodes j
  case disjoint =>
    intro j k hjk b hb
    by_cases hj : j = i
    · subst hj
      rw [update_self] at hb
      rw [update_of_ne (Ne.symm hjk)]
      exact fun hb' => hother k (Ne.symm hjk) b hb' hb
    rw [update_of_ne hj] at hb
    by_cases hk : k = i
    · subst hk
      rw [update_self]
      exact hother j hj b hb
    · rw [update_of_ne hk]
      exact h.disjoint j k hjk b hb

theorem Represents.scanShard (h : l.Represents lists L) (acc : Option (Fin 64) × UInt64)
    (i : Fin 64) : l.scanShard acc i = some (L.scanShard acc i) := by
  rw [ShardedLru.scanShard, (h.holds i).headTimestamp (h.nodes i), VarahaCache.ShardedLru.scanShard]
  cases (L.shards i).headTimestamp <;> rfl

theorem Represents.foldlM_scanShard (h : l.Represents lists L) (is : List (Fin 64))
    (acc : Option (Fin 64) × UInt64) :
    is.foldlM l.scanShard acc = some (is.foldl L.scanShard acc) := by
  induction is generalizing acc with
  | nil => rfl
  | cons i is ih =>
    rw [foldlM_cons, h.scanShard]
    exact ih _

/-- The pointers behave as the lists: a call has a result, and it is the
list model's. -/
theorem Represents.step (h : l.Represents lists L) (alloc : Heap.Allocator (Node LruNode))
    (call : LruCall) :
    ∃ l', l.step alloc call = some ((L.step call).1, l') ∧
      ∃ lists', l'.Represents lists' (L.step call).2 := by
  cases call with
  | insert d =>
    obtain ⟨r, hinsert, hleaves⟩ := (h.holds (lruShardIndex d)).insert (h.nodes _) alloc d l.clock
    refine ⟨l.setShard (lruShardIndex d) (l.clock + 1) r, ?_, ?_⟩
    · simp [ShardedLru.step, ShardedLru.insert, hinsert, VarahaCache.ShardedLru.step]
    · rw [h.clock] at hleaves ⊢
      exact h.setShard hleaves rfl rfl
  | touch d =>
    obtain ⟨found, r, htouch, hleaves⟩ := (h.holds (lruShardIndex d)).touch (h.nodes _) d l.clock
    refine ⟨l.setShard (lruShardIndex d) (l.clock + 1) r, ?_, ?_⟩
    · simp [ShardedLru.step, ShardedLru.touch, htouch, VarahaCache.ShardedLru.step]
    · rw [h.clock] at hleaves ⊢
      exact h.setShard hleaves rfl rfl
  | remove d =>
    obtain ⟨found, r, hremove, hleaves⟩ := (h.holds (lruShardIndex d)).remove (h.nodes _) d
    refine ⟨l.setShard (lruShardIndex d) l.clock r, ?_, h.setShard hleaves rfl h.clock⟩
    simp [ShardedLru.step, ShardedLru.remove, hremove, VarahaCache.ShardedLru.step]
  | evictOldest =>
    have hscan := h.foldlM_scanShard (finRange 64) (none, 0xFFFFFFFFFFFFFFFF)
    rw [VarahaCache.ShardedLru.step, VarahaCache.ShardedLru.evictOldest]
    cases hoccupied : L.oldestShard with
    | none =>
      have hnone : ((finRange 64).foldl L.scanShard (none, 0xFFFFFFFFFFFFFFFF)).1 = none :=
        hoccupied
      exact ⟨l, by simp [ShardedLru.step, ShardedLru.evictOldest, hscan, hnone], lists, h⟩
    | some i =>
      obtain ⟨r, hpop, hleaves⟩ := (h.holds i).popHead (h.nodes i)
      have hfirst : ((finRange 64).foldl L.scanShard (none, 0xFFFFFFFFFFFFFFFF)).1 = some i :=
        hoccupied
      refine ⟨l.setShard i l.clock r, ?_, h.setShard hleaves rfl h.clock⟩
      simp [ShardedLru.step, ShardedLru.evictOldest, hscan, hfirst, hpop]

theorem Represents.len (h : l.Represents lists L) : l.len = L.len := by
  simp only [ShardedLru.len, VarahaCache.ShardedLru.len]
  exact Finset.sum_congr rfl fun i _ => (h.holds i).len (h.nodes i)

end ShardedLru

/-! ## The shape of a shard -/

/-- What can be reached from a pointer by following `next`. -/
inductive Reaches (m : Memory) : Option ℕ → ℕ → Prop
  | here (a : ℕ) : Reaches m (some a) a
  | next {a b : ℕ} {n : Node LruNode} (hcell : m.cells a = some n) (hrest : Reaches m n.next b) :
      Reaches m (some a) b

/-- The keys of the map are the digests reachable from the head, every link is
answered by the reverse link, the ends are ends, and the timestamps increase
from head to tail. -/
structure LruShard.WellLinked (s : LruShard) (m : Memory) : Prop where
  keys : ∀ d, d ∈ s.map ↔ ∃ a n, Reaches m s.ends.head a ∧ m.cells a = some n ∧ n.data.digest = d
  first : ∀ a, s.ends.head = some a → ∃ n, m.cells a = some n ∧ n.prev = none
  reverse : ∀ a n b, Reaches m s.ends.head a → m.cells a = some n → n.next = some b →
    ∃ k, m.cells b = some k ∧ k.prev = some a ∧ n.data.timestamp < k.data.timestamp
  last : ∀ a n, Reaches m s.ends.head a → m.cells a = some n →
    (n.next = none ↔ s.ends.tail = some a)

variable {l : List (ℕ × LruNode)}

theorem reaches_iff {m : Memory} {before : Option ℕ}
    (h : Chain m.cells before l none) {a : ℕ} : Reaches m (first l none) a ↔ a ∈ addresses l := by
  induction l generalizing before with
  | nil =>
    simp only [first_nil, addresses_nil, not_mem_nil, iff_false]
    rintro ⟨⟩
  | cons p l ih =>
    obtain ⟨b, n⟩ := p
    obtain ⟨hcell, hrest⟩ := h
    rw [first_cons, mem_addresses_cons, ← ih hrest]
    constructor
    · intro hreach
      cases hreach with
      | here => exact .inl rfl
      | next hcell' hreach =>
        rw [hcell, Option.some.injEq] at hcell'
        subst hcell'
        exact .inr hreach
    · rintro (rfl | hreach)
      · exact .here a
      · exact .next hcell hreach

theorem LruShard.Holds.wellLinked {s : LruShard} {m : Memory}
    (h : s.Holds m l) (hincreasing : (l.map Prod.snd).Pairwise fun n k => n.timestamp < k.timestamp) :
    s.WellLinked m := by
  have hreach : ∀ a, Reaches m s.ends.head a ↔ a ∈ addresses l := by
    intro a
    rw [h.rep.head]
    exact reaches_iff h.rep.chain
  -- the cell of a node, with its neighbours in the list
  have hsplit : ∀ a n, Reaches m s.ends.head a → m.cells a = some n →
      ∃ l₁ l₂, l = l₁ ++ (a, n.data) :: l₂ ∧ n.prev = LinkedList.last none l₁ ∧
        n.next = LinkedList.first l₂ none := by
    intro a n hreached hcell
    obtain ⟨⟨a, k⟩, hmem, rfl⟩ := mem_map.mp ((hreach a).mp hreached)
    obtain ⟨l₁, l₂, rfl⟩ := append_of_mem hmem
    have hcell' := (chain_append.mp h.rep.chain).2.1
    rw [hcell, Option.some.injEq] at hcell'
    subst hcell'
    exact ⟨l₁, l₂, rfl, rfl, rfl⟩
  constructor
  case keys =>
    intro d
    rw [← AList.lookup_isSome, Option.isSome_iff_exists]
    constructor
    · rintro ⟨a, hlookup⟩
      obtain ⟨k, hmem, rfl⟩ := (h.lookup d a).mp hlookup
      obtain ⟨n, hcell, rfl⟩ := h.rep.chain.exists_cell hmem
      exact ⟨a, n, (hreach a).mpr (mem_map_of_mem hmem), hcell, rfl⟩
    · rintro ⟨a, n, hreached, hcell, rfl⟩
      obtain ⟨l₁, l₂, rfl, -, -⟩ := hsplit a n hreached hcell
      exact ⟨a, (h.lookup _ a).mpr ⟨n.data, by simp, rfl⟩⟩
  case first =>
    intro a hhead
    rw [h.rep.head] at hhead
    cases l with
    | nil => simp at hhead
    | cons p l =>
      obtain ⟨b, k⟩ := p
      rw [first_cons, Option.some.injEq] at hhead
      subst hhead
      exact ⟨_, h.rep.chain.1, rfl⟩
  case reverse =>
    intro a n b hreached hcell hnext
    obtain ⟨l₁, l₂, rfl, -, hfirst⟩ := hsplit a n hreached hcell
    rw [hfirst] at hnext
    cases l₂ with
    | nil => simp at hnext
    | cons p l₂ =>
      obtain ⟨c, k⟩ := p
      rw [first_cons, Option.some.injEq] at hnext
      subst hnext
      refine ⟨_, (chain_append.mp h.rep.chain).2.2.1, rfl, ?_⟩
      rw [map_append, map_cons, map_cons, pairwise_append] at hincreasing
      exact (pairwise_cons.mp hincreasing.2.1).1 k (mem_cons_self ..)
  case last =>
    intro a n hreached hcell
    obtain ⟨l₁, l₂, rfl, -, hfirst⟩ := hsplit a n hreached hcell
    rw [hfirst, h.rep.tail, last_append, last_cons]
    rcases eq_nil_or_concat l₂ with rfl | ⟨l, ⟨c, k⟩, rfl⟩
    · simp
    rw [concat_eq_append, last_concat]
    have hne : c ≠ a := by
      rintro rfl
      exact h.rep.notMem_addresses.2 (by simp [addresses])
    refine iff_of_false ?_ (by simpa using hne)
    rw [first_append, first_cons]
    cases l <;> simp [LinkedList.first]

/-! ## The tracker is one recency list -/

namespace ShardedLru

def Parts (l : ShardedLru) (nodes : List LruNode) : Prop :=
  ∀ i, ∃ list, (l.shards i).Holds l.memory list ∧
    list.map Prod.snd = nodes.filter (lruShardIndex ·.digest = i)

theorem Represents.run (alloc : Heap.Allocator (Node LruNode)) {l : ShardedLru}
    {lists : Fin 64 → List (ℕ × LruNode)} {L : VarahaCache.ShardedLru} (h : l.Represents lists L)
    {nodes : List LruNode} (hmerges : L.Merges nodes) {calls : List LruCall}
    (hcalls : L.clock.toNat + calls.length < 2 ^ 64) :
    ∃ l' lists' L' nodes', l'.Represents lists' L' ∧ L'.Merges nodes' ∧
      l.run alloc calls =
        some ((record recencyStep (nodes.map LruNode.digest) calls).1, l') ∧
      (record recencyStep (nodes.map LruNode.digest) calls).2 = nodes'.map LruNode.digest := by
  induction calls generalizing l lists L nodes with
  | nil => exact ⟨l, lists, L, nodes, h, hmerges, rfl, rfl⟩
  | cons call calls ih =>
    rw [length_cons] at hcalls
    obtain ⟨l₁, hstep, lists₁, h₁⟩ := h.step alloc call
    obtain ⟨nodes₁, hmerges₁, hrecency, hclock⟩ := hmerges.step call (by omega)
    obtain ⟨l', lists', L', nodes', h', hmerges', hrun, hlist⟩ := ih h₁ hmerges₁ (by omega)
    refine ⟨l', lists', L', nodes', h', hmerges', ?_, ?_⟩
    · simp [ShardedLru.run, hstep, hrun, record, hrecency]
    · rw [record, hrecency]
      exact hlist

/-- **The sharded tracker is one recency list.** After fewer than `2 ^ 64`
calls, with any allocator, every pointer followed was valid; the calls were
answered as by one list of digests, oldest first and without duplicates; the
shards are its parts, in the order of the timestamps, each well linked. -/
theorem run_eq_recency (alloc : Heap.Allocator (Node LruNode)) (calls : List LruCall)
    (hcalls : calls.length < 2 ^ 64) :
    ∃ l nodes, run alloc new calls = some ((record recencyStep [] calls).1, l) ∧
      (record recencyStep [] calls).2 = nodes.map LruNode.digest ∧
      (nodes.map LruNode.digest).Nodup ∧ l.len = nodes.length ∧
      (nodes.Pairwise fun m n => m.timestamp < n.timestamp) ∧ l.Parts nodes ∧
      ∀ i, (l.shards i).WellLinked l.memory := by
  have hstart : (VarahaCache.ShardedLru.new).clock.toNat + calls.length < 2 ^ 64 := by
    simpa [VarahaCache.ShardedLru.new] using hcalls
  obtain ⟨l, lists, L, nodes, h, hmerges, hrun, hlist⟩ :=
    represents_new.run alloc VarahaCache.ShardedLru.merges_new hstart
  have hparts : ∀ i, (lists i).map Prod.snd = nodes.filter (lruShardIndex ·.digest = i) := by
    intro i
    rw [h.nodes, hmerges.shard]
  refine ⟨l, nodes, hrun, hlist, hmerges.nodup, ?_, hmerges.increasing, ?_, ?_⟩
  · rw [h.len, hmerges.len_eq]
  · exact fun i => ⟨lists i, h.holds i, hparts i⟩
  · intro i
    refine (h.holds i).wellLinked ?_
    rw [hparts]
    exact hmerges.increasing.filter _

/-- Two digests of different shards; the first is touched after the second was
inserted. -/
def touchedCalls : List LruCall :=
  [.insert ⟨.replicate 32 1⟩, .insert ⟨.replicate 32 2⟩,
    .touch ⟨.replicate 32 1⟩, .evictOldest]

theorem run_eq_recency_touched :
    ∃ (l : ShardedLru) (nodes : List LruNode), run Heap.bump new touchedCalls =
        some ((record recencyStep [] touchedCalls).1, l) ∧
      [⟨.replicate 32 1⟩] = nodes.map LruNode.digest ∧ l.len = nodes.length := by
  obtain ⟨l, nodes, hrun, hlist, -, hlen, -⟩ := run_eq_recency Heap.bump touchedCalls (by decide)
  exact ⟨l, nodes, hrun, hlist, hlen⟩

end ShardedLru

end VarahaCache.Linked
