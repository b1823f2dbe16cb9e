import Mathlib

/-!
# Priority queues

A priority queue over any linear order of keys, smallest key first. The queue
IS its list in priority order, which is a field. Which of several entries with
one key comes out first is left to the insertion rule.
-/

namespace VarahaCache.Lib

variable {α κ : Type*} [LinearOrder κ] {key : α → κ}

/-- Entries in non-decreasing order of their keys. -/
structure PriorityQueue (α : Type*) {κ : Type*} [LinearOrder κ] (key : α → κ) where
  entries : List α
  sorted : entries.Pairwise (fun a b => key a ≤ key b)

namespace PriorityQueue

def empty : PriorityQueue α key := ⟨[], .nil⟩

/-- Insert an entry in front of the first one that does not come earlier. -/
def push (q : PriorityQueue α key) (a : α) : PriorityQueue α key where
  entries := q.entries.orderedInsert (fun a b => key a ≤ key b) a
  sorted := by
    have : Std.Total (fun a b : α => key a ≤ key b) := ⟨fun a b => le_total (key a) (key b)⟩
    have : IsTrans α (fun a b : α => key a ≤ key b) := ⟨fun _ _ _ => le_trans⟩
    exact q.sorted.orderedInsert a _

theorem push_perm (q : PriorityQueue α key) (a : α) : (q.push a).entries.Perm (a :: q.entries) :=
  List.perm_orderedInsert _ a _

variable {q : PriorityQueue α key} {s t : Set κ} {a : α} {e : Option κ} {limit : κ}

@[simp] theorem mem_push {b : α} : b ∈ (q.push a).entries ↔ b = a ∨ b ∈ q.entries := by
  rw [(q.push_perm a).mem_iff, List.mem_cons]

def peek (q : PriorityQueue α key) : Option α := q.entries.head?

/-- The smallest of these keys, or none if there are none. -/
def Earliest (keys : Set κ) : Option κ → Prop
  | none => keys = ∅
  | some k => IsLeast keys k

theorem earliest_peek (q : PriorityQueue α key) :
    Earliest { k | ∃ a ∈ q.entries, key a = k } (q.peek.map key) := by
  obtain ⟨entries, hsorted⟩ := q
  cases entries with
  | nil => exact Set.eq_empty_of_forall_notMem fun _ ⟨_, ha, _⟩ => nomatch ha
  | cons a rest =>
    refine ⟨⟨a, List.mem_cons_self, rfl⟩, ?_⟩
    rintro k ⟨b, hb, rfl⟩
    rcases List.mem_cons.mp hb with rfl | hrest
    · exact le_rfl
    · exact (List.pairwise_cons.mp hsorted).1 b hrest

theorem Earliest.union_of_none (hs : Earliest s e) (ht : Earliest t none) : Earliest (s ∪ t) e := by
  rw [show t = ∅ from ht, Set.union_empty]
  exact hs

theorem Earliest.none_union (hs : Earliest s none) (ht : Earliest t e) : Earliest (s ∪ t) e := by
  rw [show s = ∅ from hs, Set.empty_union]
  exact ht

theorem Earliest.union_left {k l : κ} (hs : Earliest s (some k))
    (ht : Earliest t (some l)) (h : k ≤ l) : Earliest (s ∪ t) (some k) :=
  ⟨.inl hs.1, fun _ hm => hm.elim (fun hm => hs.2 hm) fun hm => h.trans (ht.2 hm)⟩

theorem Earliest.union_right {k l : κ} (hs : Earliest s (some k))
    (ht : Earliest t (some l)) (h : l ≤ k) : Earliest (s ∪ t) (some l) :=
  Set.union_comm s t ▸ ht.union_left hs h

/-- The peek-compare-pop loop: until the earliest entry is past `limit`. -/
def drainList (key : α → κ) (limit : κ) : List α → List α × List α
  | [] => ([], [])
  | a :: rest =>
    if limit < key a then ([], a :: rest)
    else (a :: (drainList key limit rest).1, (drainList key limit rest).2)

theorem drainList_eq_filter (limit : κ) {l : List α} (h : l.Pairwise (fun a b => key a ≤ key b)) :
    drainList key limit l =
      (l.filter (fun a => key a ≤ limit), l.filter (fun a => limit < key a)) := by
  induction l with
  | nil => rfl
  | cons a rest ih =>
    obtain ⟨ha, hrest⟩ := List.pairwise_cons.mp h
    by_cases hlt : limit < key a
    · -- everything behind `a` is past the limit as well
      have hall : ∀ b ∈ rest, limit < key b := fun b hb => lt_of_lt_of_le hlt (ha b hb)
      have hnone : rest.filter (fun b => key b ≤ limit) = [] := by
        simpa [List.filter_eq_nil_iff] using hall
      have hself : rest.filter (fun b => limit < key b) = rest := by
        simpa [List.filter_eq_self] using hall
      simp [drainList, hlt, hnone, hself]
    · simp [drainList, hlt, ih hrest, not_lt.mp hlt]

/-- Drain the queue up to and including `limit`. -/
def drain (q : PriorityQueue α key) (limit : κ) : List α × PriorityQueue α key :=
  ((drainList key limit q.entries).1,
    { entries := (drainList key limit q.entries).2
      sorted := by
        rw [drainList_eq_filter limit q.sorted]
        exact q.sorted.filter _ })

theorem drain_fst (q : PriorityQueue α key) (limit : κ) :
    (q.drain limit).1 = q.entries.filter (fun a => key a ≤ limit) :=
  congrArg Prod.fst (drainList_eq_filter limit q.sorted)

theorem drain_snd (q : PriorityQueue α key) (limit : κ) :
    (q.drain limit).2.entries = q.entries.filter (fun a => limit < key a) :=
  congrArg Prod.snd (drainList_eq_filter limit q.sorted)

@[simp] theorem mem_drain_fst :
    a ∈ (q.drain limit).1 ↔ a ∈ q.entries ∧ key a ≤ limit := by
  simp [drain_fst]

@[simp] theorem mem_drain_snd :
    a ∈ (q.drain limit).2.entries ↔ a ∈ q.entries ∧ limit < key a := by
  simp [drain_snd]

end PriorityQueue

end VarahaCache.Lib
