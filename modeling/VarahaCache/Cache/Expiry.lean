import VarahaCache.Lib.PriorityQueue
import VarahaCache.Storage.ObjCore

/-!
# The expiry queue

`ExpiryManager` of `rv-cache`: 16 heaps by the first byte of the digest,
earliest deadline first. An entry keeps the object it was made for; taking
an object out of the cache does NOT take its entry out of the queue.
-/

namespace VarahaCache

open Lib

structure ExpiryEntry where
  when : VtimReal
  objcore : ObjCore

/-- A heap of one shard, in the order its entries come out. -/
abbrev ExpiryHeap := PriorityQueue ExpiryEntry ExpiryEntry.when

def expiryShardIndex (d : Digest) : Fin 16 := ⟨(d.bytes.get 0).toNat % 16, Nat.mod_lt _ (by decide)⟩

structure ExpiryManager where
  shards : Fin 16 → ExpiryHeap

namespace ExpiryManager

def new : ExpiryManager := ⟨fun _ => .empty⟩

def Queued (m : ExpiryManager) (x : ExpiryEntry) : Prop := ∃ i, x ∈ (m.shards i).entries

/-- Schedule an object for `t_origin + ttl + grace + keep`. -/
def insert (m : ExpiryManager) (oc : ObjCore) : ExpiryManager :=
  ⟨Function.update m.shards (expiryShardIndex oc.digest)
    ((m.shards (expiryShardIndex oc.digest)).push ⟨oc.deadline, oc⟩)⟩

def insertAt (m : ExpiryManager) (oc : ObjCore) (when : VtimReal) : ExpiryManager :=
  ⟨Function.update m.shards (expiryShardIndex oc.digest)
    ((m.shards (expiryShardIndex oc.digest)).push ⟨when, oc⟩)⟩

/-- The body of the loop of `peek_when`: one more shard. -/
def peekShard (earliest : Option VtimReal) (heap : ExpiryHeap) : Option VtimReal :=
  match heap.peek with
  | none => earliest
  | some entry =>
    match earliest with
    | some current => if current ≤ entry.when then earliest else some entry.when
    | none => some entry.when

def peekWhen (m : ExpiryManager) : Option VtimReal :=
  (List.finRange 16).foldl (fun earliest i => peekShard earliest (m.shards i)) none

def len (m : ExpiryManager) : ℕ := ((List.finRange 16).map fun i => (m.shards i).entries.length).sum

variable {m : ExpiryManager} {oc : ObjCore} {x : ExpiryEntry} {now : VtimReal}

theorem queued_insert :
    (m.insert oc).Queued x ↔ x = ⟨oc.deadline, oc⟩ ∨ m.Queued x := by
  have hshard : ∀ i, x ∈ ((m.insert oc).shards i).entries ↔
      (i = expiryShardIndex oc.digest ∧ x = ⟨oc.deadline, oc⟩) ∨ x ∈ (m.shards i).entries := by
    intro i
    by_cases hi : i = expiryShardIndex oc.digest
    · subst hi
      simp [insert]
    · simp [insert, hi]
  constructor
  · intro h
    obtain ⟨i, hi⟩ := h
    rcases (hshard i).mp hi with ⟨_, hx⟩ | hx
    · exact .inl hx
    · exact .inr ⟨i, hx⟩
  · intro h
    rcases h with hx | ⟨i, hi⟩
    · exact ⟨_, (hshard _).mpr (.inl ⟨rfl, hx⟩)⟩
    · exact ⟨i, (hshard i).mpr (.inr hi)⟩

/-- Pop everything due at `now`, one shard after another. -/
def expire (m : ExpiryManager) (now : VtimReal) : List ObjCore × ExpiryManager :=
  ((List.finRange 16).flatMap fun i => ((m.shards i).drain now).1.map ExpiryEntry.objcore,
    ⟨fun i => ((m.shards i).drain now).2⟩)

theorem mem_expire :
    oc ∈ (m.expire now).1 ↔ ∃ x, m.Queued x ∧ x.when ≤ now ∧ x.objcore = oc := by
  simp only [expire, List.mem_flatMap, List.mem_finRange, true_and, List.mem_map,
    PriorityQueue.mem_drain_fst]
  constructor
  · intro h
    obtain ⟨i, x, ⟨hx, hdue⟩, rfl⟩ := h
    exact ⟨x, ⟨i, hx⟩, hdue, rfl⟩
  intro h
  obtain ⟨x, ⟨i, hx⟩, hdue, rfl⟩ := h
  exact ⟨i, x, ⟨hx, hdue⟩, rfl⟩

theorem queued_expire :
    (m.expire now).2.Queued x ↔ m.Queued x ∧ now < x.when := by
  simp only [expire, Queued, PriorityQueue.mem_drain_snd]
  constructor
  · intro h
    obtain ⟨i, hx, hlt⟩ := h
    exact ⟨⟨i, hx⟩, hlt⟩
  intro h
  obtain ⟨⟨i, hx⟩, hlt⟩ := h
  exact ⟨i, hx, hlt⟩

end ExpiryManager

end VarahaCache
