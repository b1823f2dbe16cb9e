import VarahaCache.Lib.LinkedList

/-!
# The index-linked list

`Lru` of `rv-storage`: a doubly linked list through the indices of a vector of
entries, whose freed slots are used again. After any calls it stands for a
sequence of pairs of index and key, newest first.
-/

namespace VarahaCache

open LinkedList List

structure LruSlot where
  key : UInt64
  active : Bool

/-- The list. An entry is a node; `entries.bound` is the length of the vector,
and an access outside it has no result. The free list has its last element
first. -/
structure Lru where
  entries : Heap (Node LruSlot)
  ends : Ends
  len : ℕ
  freeList : List ℕ

namespace Lru

def new : Lru := ⟨.empty, ⟨none, none⟩, 0, []⟩

/-- The slot an insertion takes: a freed one, or one behind the others. -/
def takeSlot (s : Lru) (entry : Node LruSlot) : Option (ℕ × Lru) :=
  match s.freeList with
  | freeIdx :: freeList => do
    let entries ← s.entries.modify freeIdx fun _ => entry
    return (freeIdx, { s with entries := entries, freeList := freeList })
  | [] => some (s.entries.bound, { s with entries := s.entries.store s.entries.bound entry })

def insert (s : Lru) (key : UInt64) : Option (ℕ × Lru) := do
  let (idx, s) ← s.takeSlot ⟨⟨key, true⟩, none, s.ends.head⟩
  let (ends, entries) ← linkHead s.ends idx s.entries
  return (idx, { s with entries := entries, ends := ends, len := s.len + 1 })

/-- `idx < self.entries.len() && self.entries[idx].active`. -/
def isActive (s : Lru) (idx : ℕ) : Option Bool :=
  if s.entries.bound ≤ idx then some false else (s.entries.cells idx).map (·.data.active)

def touch (s : Lru) (idx : ℕ) : Option Lru := do
  if !(← s.isActive idx) then return s
  if s.ends.head = some idx then return s
  let (ends, entries) ← unlink s.ends idx s.entries
  let entries ← entries.modify idx fun n => { n with prev := none, next := ends.head }
  let (ends, entries) ← linkHead ends idx entries
  return { s with entries := entries, ends := ends }

def remove (s : Lru) (idx : ℕ) : Option (Option UInt64 × Lru) := do
  if !(← s.isActive idx) then return (none, s)
  let (ends, entries) ← unlink s.ends idx s.entries
  let entries ← entries.modify idx fun n => { n with data := { n.data with active := false } }
  let entry ← entries.cells idx
  return (some entry.data.key,
    { entries := entries, ends := ends, len := s.len - 1, freeList := idx :: s.freeList })

def evictOldest (s : Lru) : Option (Option UInt64 × Lru) :=
  match s.ends.tail with
  | none => some (none, s)
  | some tailIdx => s.remove tailIdx

inductive Call
  | insert (key : UInt64)
  | touch (idx : ℕ)
  | remove (idx : ℕ)
  | evictOldest

inductive Answer
  | index (idx : ℕ)
  | done
  | key (key : Option UInt64)

def step (s : Lru) : Call → Option (Answer × Lru)
  | .insert key => (s.insert key).map fun r => (.index r.1, r.2)
  | .touch idx => (s.touch idx).map fun s => (.done, s)
  | .remove idx => (s.remove idx).map fun r => (.key r.1, r.2)
  | .evictOldest => s.evictOldest.map fun r => (.key r.1, r.2)

def run (s : Lru) : List Call → Option (List Answer × Lru)
  | [] => some ([], s)
  | call :: calls => do
    let (answer, s) ← s.step call
    let (answers, s) ← run s calls
    return (answer :: answers, s)

/-! ## The sequence -/

/-- What a call does to the sequence. Which unused index an insertion is given
is left open. -/
def Does (l : List (ℕ × UInt64)) : Call → Answer → List (ℕ × UInt64) → Prop
  | .insert key, answer, l' =>
    ∃ idx, answer = .index idx ∧ idx ∉ addresses l ∧ l' = (idx, key) :: l
  | .touch idx, answer, l' => answer = .done ∧ l' = l.filter (·.1 = idx) ++ l.filter (·.1 ≠ idx)
  | .remove idx, answer, l' => answer = .key (l.lookup idx) ∧ l' = l.filter (·.1 ≠ idx)
  | .evictOldest, answer, l' => answer = .key (l.getLast?.map Prod.snd) ∧ l' = l.dropLast

def DoesAll : List (ℕ × UInt64) → List Call → List Answer → List (ℕ × UInt64) → Prop
  | l, [], [], l' => l' = l
  | l, call :: calls, answer :: answers, l' =>
    ∃ next, Does l call answer next ∧ DoesAll next calls answers l'
  | _, _, _, _ => False

/-- The entries of a sequence. -/
def linked (l : List (ℕ × UInt64)) : List (ℕ × LruSlot) := l.map fun p => (p.1, ⟨p.2, true⟩)

/-- A list stands for a sequence: it is linked both ways from end to end, and
every slot is in it or on the free list, once. -/
structure Represents (s : Lru) (l : List (ℕ × UInt64)) : Prop where
  rep : Rep s.ends s.entries (linked l)
  len : s.len = l.length
  slots : (addresses l ++ s.freeList).Perm (range s.entries.bound)
  inactive : ∀ i ∈ s.freeList, ∃ n, s.entries.cells i = some n ∧ n.data.active = false

variable {s : Lru} {l l₁ l₂ : List (ℕ × UInt64)} {idx : ℕ} {key : UInt64}

theorem addresses_linked (l : List (ℕ × UInt64)) : addresses (linked l) = addresses l := by
  simp [addresses, linked]

theorem linked_append : linked (l₁ ++ l₂) = linked l₁ ++ linked l₂ := map_append

theorem linked_middle :
    linked (l₁ ++ (idx, key) :: l₂) = linked l₁ ++ (idx, ⟨key, true⟩) :: linked l₂ := map_append

theorem represents_new : new.Represents [] :=
  ⟨⟨trivial, rfl, rfl, .nil⟩, rfl, .refl _, by simp [new]⟩

theorem Represents.notMem_freeList (h : s.Represents l) (hidx : idx ∈ addresses l) :
    idx ∉ s.freeList := by
  have hnodup := h.slots.nodup_iff.mpr nodup_range
  exact fun hfree => (nodup_append.mp hnodup).2.2 idx hidx idx hfree rfl

theorem Represents.mem_slots (h : s.Represents l) :
    idx ∈ addresses l ∨ idx ∈ s.freeList ↔ idx < s.entries.bound := by
  rw [← mem_append, h.slots.mem_iff, mem_range]

theorem Represents.isActive_eq (h : s.Represents l) (idx : ℕ) :
    s.isActive idx = some (decide (idx ∈ addresses l)) := by
  rw [isActive]
  by_cases hbound : s.entries.bound ≤ idx
  · have hidx : idx ∉ addresses l := fun hidx => by
      have := h.mem_slots.mp (.inl hidx)
      omega
    rw [if_pos hbound, decide_eq_false hidx]
  rw [if_neg hbound]
  rcases h.mem_slots.mpr (Nat.not_le.mp hbound) with hidx | hfree
  · obtain ⟨⟨idx, key⟩, hmem, rfl⟩ := mem_map.mp hidx
    obtain ⟨n, hn, hdata⟩ := h.rep.chain.exists_cell
      (mem_map.mpr ⟨_, hmem, rfl⟩ : (idx, ⟨key, true⟩) ∈ linked l)
    rw [hn, decide_eq_true hidx, Option.map_some, hdata]
  · obtain ⟨n, hn, hactive⟩ := h.inactive idx hfree
    rw [hn, Option.map_some, hactive,
      decide_eq_false fun hidx => h.notMem_freeList hidx hfree]

theorem filter_eq_of_notMem (h : idx ∉ addresses l) :
    l.filter (·.1 = idx) = [] ∧ l.filter (·.1 ≠ idx) = l ∧ l.lookup idx = none := by
  have hne : ∀ p ∈ l, p.1 ≠ idx := fun p hp heq => h (mem_map.mpr ⟨p, hp, heq⟩)
  refine ⟨filter_eq_nil_iff.mpr (by simpa using hne), filter_eq_self.mpr (by simpa using hne), ?_⟩
  exact lookup_eq_none_iff.mpr fun p hp => by simpa using (hne p hp).symm

theorem filter_eq_of_append (key : UInt64) (h₁ : idx ∉ addresses l₁) (h₂ : idx ∉ addresses l₂) :
    (l₁ ++ (idx, key) :: l₂).filter (·.1 = idx) = [(idx, key)] ∧
      (l₁ ++ (idx, key) :: l₂).filter (·.1 ≠ idx) = l₁ ++ l₂ ∧
      (l₁ ++ (idx, key) :: l₂).lookup idx = some key := by
  obtain ⟨hsame₁, hother₁, hlookup₁⟩ := filter_eq_of_notMem h₁
  obtain ⟨hsame₂, hother₂, -⟩ := filter_eq_of_notMem h₂
  refine ⟨?_, ?_, ?_⟩
  · rw [filter_append, hsame₁, filter_cons_of_pos (by simp), hsame₂, nil_append]
  · rw [filter_append, hother₁, filter_cons_of_neg (by simp), hother₂]
  · rw [lookup_append, hlookup₁]
    simp

theorem Represents.notMem (h : s.Represents (l₁ ++ (idx, key) :: l₂)) :
    idx ∉ addresses l₁ ∧ idx ∉ addresses l₂ := by
  have hrep := h.rep
  rw [linked_middle] at hrep
  obtain ⟨h₁, h₂⟩ := hrep.notMem_addresses
  rw [addresses_linked] at h₁ h₂
  exact ⟨h₁, h₂⟩

theorem Represents.notMem_rest (h : s.Represents (l₁ ++ (idx, key) :: l₂)) :
    idx ∉ addresses (l₁ ++ l₂) := by
  rw [mem_addresses_append, not_or]
  exact h.notMem

theorem Represents.slots_front (h : s.Represents (l₁ ++ (idx, key) :: l₂)) :
    (idx :: (addresses (l₁ ++ l₂) ++ s.freeList)).Perm (range s.entries.bound) := by
  refine .trans ?_ h.slots
  rw [← cons_append, addresses, addresses, map_append, map_append, map_cons]
  exact perm_middle.symm.append_right s.freeList

/-! ## The calls -/

theorem Represents.takeSlot (h : s.Represents l) (entry : Node LruSlot) :
    ∃ idx t, s.takeSlot entry = some (idx, t) ∧ idx ∉ addresses l ∧ t.ends = s.ends ∧
      t.len = s.len ∧ t.entries.cells idx = some entry ∧
      (∀ b, b ≠ idx → t.entries.cells b = s.entries.cells b) ∧
      (idx :: (addresses l ++ t.freeList)).Perm (range t.entries.bound) ∧
      ∀ i ∈ t.freeList, i ≠ idx ∧ i ∈ s.freeList := by
  rw [Lru.takeSlot]
  cases hfree : s.freeList with
  | nil =>
    have hidx : s.entries.bound ∉ addresses l := fun hidx =>
      absurd (h.mem_slots.mp (.inl hidx)) (Nat.lt_irrefl _)
    have hslots := h.slots
    refine ⟨_, _, rfl, hidx, rfl, rfl, Function.update_self .., fun b hb =>
      Function.update_of_ne hb .., ?_, by simp⟩
    rw [hfree, append_nil] at hslots
    simp only [append_nil, Heap.store, Nat.max_eq_right (Nat.le_succ _), range_succ]
    exact (hslots.cons _).trans (perm_append_singleton ..).symm
  | cons freeIdx freeList =>
    have hmem : freeIdx ∈ s.freeList := by simp [hfree]
    obtain ⟨n, hn, -⟩ := h.inactive freeIdx hmem
    have hslots := h.slots
    rw [hfree] at hslots
    have hnodup := (nodup_append.mp (hslots.nodup_iff.mpr nodup_range)).2.1
    refine ⟨freeIdx,
      { s with entries := s.entries.update freeIdx fun _ => entry, freeList := freeList },
      by simp [Heap.modify_eq hn], fun hidx => h.notMem_freeList hidx hmem, rfl, rfl,
      Heap.cells_update_self hn _, fun b hb => Heap.cells_update_of_ne hb _,
      perm_middle.symm.trans hslots, fun i hi => ⟨?_, mem_cons_of_mem _ hi⟩⟩
    rintro rfl
    exact (nodup_cons.mp hnodup).1 hi

theorem Represents.insert (h : s.Represents l) (key : UInt64) :
    ∃ idx t, s.insert key = some (idx, t) ∧ idx ∉ addresses l ∧
      t.Represents ((idx, key) :: l) := by
  obtain ⟨idx, t, htake, hidx, hends, hlen, hcell, hsame, hslots, hfree⟩ :=
    h.takeSlot ⟨⟨key, true⟩, none, s.ends.head⟩
  have haddr : idx ∉ addresses (linked l) := by rwa [addresses_linked]
  have hrep : Rep t.ends t.entries (linked l) :=
    hends ▸ h.rep.congr fun b hb => hsame b (ne_of_mem_of_not_mem hb haddr)
  rw [← hends] at hcell
  obtain ⟨ends, entries, hlink, hrep', hbound, hframe⟩ := hrep.linkHead haddr hcell
  refine ⟨idx, { t with entries := entries, ends := ends, len := t.len + 1 },
    by simp [Lru.insert, htake, hlink], hidx, hrep', ?_, ?_, fun i hi => ?_⟩
  · rw [hlen, h.len]
    rfl
  · rw [hbound]
    exact hslots
  · obtain ⟨hne, hold⟩ := hfree i hi
    have hout : i ∉ addresses (linked l) := fun hmem =>
      h.notMem_freeList (addresses_linked l ▸ hmem) hold
    rw [hframe i hout, hsame i hne]
    exact h.inactive i hold

theorem Represents.unlink (h : s.Represents (l₁ ++ (idx, key) :: l₂)) :
    ∃ ends entries, LinkedList.unlink s.ends idx s.entries = some (ends, entries) ∧
      ∀ f, ∃ entries', entries.modify idx f = some entries' ∧
        Rep ends entries' (linked (l₁ ++ l₂)) ∧ entries'.bound = s.entries.bound ∧
        entries'.cells idx = some (f ⟨⟨key, true⟩, none, none⟩) ∧
        ∀ i ∈ s.freeList, entries'.cells i = s.entries.cells i := by
  have hrep := h.rep
  rw [linked_middle] at hrep
  obtain ⟨ends, entries, hunlink, hrep', hcell, hbound, hframe⟩ := hrep.unlink
  refine ⟨ends, entries, hunlink, fun f => ⟨_, Heap.modify_eq hcell f, ?_, hbound,
    Heap.cells_update_self hcell f, fun i hi => ?_⟩⟩
  · rw [← linked_append] at hrep'
    refine hrep'.congr fun b hb => Heap.cells_update_of_ne ?_ f
    rw [addresses_linked] at hb
    exact ne_of_mem_of_not_mem hb h.notMem_rest
  have hout : i ∉ addresses (l₁ ++ (idx, key) :: l₂) := fun hmem => h.notMem_freeList hmem hi
  have hne : i ≠ idx := by
    rintro rfl
    simp at hout
  rw [Heap.cells_update_of_ne hne, hframe i]
  rwa [← addresses_linked, linked_middle] at hout

theorem Represents.touch (h : s.Represents l) (idx : ℕ) :
    ∃ t, s.touch idx = some t ∧
      t.Represents (l.filter (·.1 = idx) ++ l.filter (·.1 ≠ idx)) := by
  by_cases hidx : idx ∈ addresses l
  · obtain ⟨⟨idx, key⟩, hmem, rfl⟩ := mem_map.mp hidx
    obtain ⟨l₁, l₂, rfl⟩ := append_of_mem hmem
    obtain ⟨h₁, h₂⟩ := h.notMem
    obtain ⟨hsame, hother, -⟩ := filter_eq_of_append key h₁ h₂
    rw [hsame, hother]
    by_cases hhead : s.ends.head = some idx
    · -- it is in front already
      have hfront : l₁ = [] := by
        rw [h.rep.head] at hhead
        cases l₁ with
        | nil => rfl
        | cons p l₁ =>
          have hp : p.1 = idx := Option.some.inj hhead
          exact absurd (hp ▸ mem_cons_self) h₁
      subst hfront
      exact ⟨s, by simp [Lru.touch, h.isActive_eq, hhead], h⟩
    obtain ⟨ends, entries, hunlink, hmodify⟩ := h.unlink
    obtain ⟨entries₁, hentries₁, hrep, hbound, hcell, hfree⟩ :=
      hmodify fun n => { n with prev := none, next := ends.head }
    have haddr : idx ∉ addresses (linked (l₁ ++ l₂)) := by
      rw [addresses_linked]
      exact h.notMem_rest
    obtain ⟨ends', entries', hlink, hrep', hbound', hframe⟩ := hrep.linkHead haddr hcell
    refine ⟨{ s with entries := entries', ends := ends' }, ?_, hrep', ?_, ?_, fun i hi => ?_⟩
    · simp [Lru.touch, h.isActive_eq, hhead, hunlink, hentries₁, hlink]
    · rw [h.len]
      exact perm_middle.length_eq
    · rw [hbound', hbound]
      exact h.slots_front
    · have hlinked : i ∉ addresses (linked (l₁ ++ l₂)) := by
        rw [addresses_linked]
        exact fun hmem => h.notMem_freeList ((perm_middle.map _).mem_iff.mpr (.tail _ hmem)) hi
      rw [hframe i hlinked, hfree i hi]
      exact h.inactive i hi
  · obtain ⟨hsame, hother, -⟩ := filter_eq_of_notMem hidx
    rw [hsame, hother]
    exact ⟨s, by simp [Lru.touch, h.isActive_eq, hidx], h⟩

theorem Represents.remove (h : s.Represents l) (idx : ℕ) :
    ∃ t, s.remove idx = some (l.lookup idx, t) ∧ t.Represents (l.filter (·.1 ≠ idx)) := by
  by_cases hidx : idx ∈ addresses l
  · obtain ⟨⟨idx, key⟩, hmem, rfl⟩ := mem_map.mp hidx
    obtain ⟨l₁, l₂, rfl⟩ := append_of_mem hmem
    obtain ⟨h₁, h₂⟩ := h.notMem
    obtain ⟨-, hother, hlookup⟩ := filter_eq_of_append key h₁ h₂
    rw [hlookup, hother]
    obtain ⟨ends, entries, hunlink, hmodify⟩ := h.unlink
    obtain ⟨entries', hentries', hrep, hbound, hcell, hfree⟩ :=
      hmodify fun n => { n with data := { n.data with active := false } }
    refine ⟨⟨entries', ends, s.len - 1, idx :: s.freeList⟩, ?_, hrep, ?_, ?_, ?_⟩
    · simp [Lru.remove, h.isActive_eq, hunlink, hentries', hcell]
    · simp [h.len]
    · rw [hbound]
      exact perm_middle.trans h.slots_front
    · rw [forall_mem_cons]
      exact ⟨⟨_, hcell, rfl⟩, fun i hi => hfree i hi ▸ h.inactive i hi⟩
  · obtain ⟨-, hother, hlookup⟩ := filter_eq_of_notMem hidx
    rw [hlookup, hother]
    exact ⟨s, by simp [Lru.remove, h.isActive_eq, hidx], h⟩

theorem Represents.evictOldest (h : s.Represents l) :
    ∃ t, s.evictOldest = some (l.getLast?.map Prod.snd, t) ∧ t.Represents l.dropLast := by
  rw [Lru.evictOldest, h.rep.tail]
  rcases eq_nil_or_concat l with rfl | ⟨l, ⟨idx, key⟩, rfl⟩
  · exact ⟨s, rfl, h⟩
  rw [concat_eq_append] at h ⊢
  obtain ⟨-, hother, hlookup⟩ := filter_eq_of_append key h.notMem.1 h.notMem.2
  obtain ⟨t, hremove, ht⟩ := h.remove idx
  rw [hother, append_nil] at ht
  have htail : last none (linked (l ++ [(idx, key)])) = some idx := by
    rw [linked_middle]
    exact last_concat
  rw [htail, getLast?_concat, dropLast_concat]
  rw [hlookup] at hremove
  exact ⟨t, hremove, ht⟩

theorem Represents.step (h : s.Represents l) (call : Call) :
    ∃ answer t l', s.step call = some (answer, t) ∧ Does l call answer l' ∧ t.Represents l' := by
  cases call with
  | insert key =>
    obtain ⟨idx, t, hinsert, hidx, ht⟩ := h.insert key
    exact ⟨_, t, _, congrArg (Option.map _) hinsert, ⟨idx, rfl, hidx, rfl⟩, ht⟩
  | touch idx =>
    obtain ⟨t, htouch, ht⟩ := h.touch idx
    exact ⟨_, t, _, congrArg (Option.map _) htouch, ⟨rfl, rfl⟩, ht⟩
  | remove idx =>
    obtain ⟨t, hremove, ht⟩ := h.remove idx
    exact ⟨_, t, _, congrArg (Option.map _) hremove, ⟨rfl, rfl⟩, ht⟩
  | evictOldest =>
    obtain ⟨t, hevict, ht⟩ := h.evictOldest
    exact ⟨_, t, _, congrArg (Option.map _) hevict, ⟨rfl, rfl⟩, ht⟩

theorem Represents.run (h : s.Represents l) (calls : List Call) :
    ∃ answers t l', s.run calls = some (answers, t) ∧ DoesAll l calls answers l' ∧
      t.Represents l' := by
  induction calls generalizing s l with
  | nil => exact ⟨[], s, l, rfl, rfl, h⟩
  | cons call calls ih =>
    obtain ⟨answer, t, next, hstep, hdoes, ht⟩ := h.step call
    obtain ⟨answers, u, l', hrun, hall, hu⟩ := ih ht
    exact ⟨answer :: answers, u, l', by simp [Lru.run, hstep, hrun], ⟨next, hdoes, hall⟩, hu⟩

/-- **The index-linked list is a list.** After any calls, with any keys and
any indices, it stands for the sequence those calls make; no call goes
outside the vector. -/
theorem run_represents (calls : List Call) :
    ∃ answers s l, new.run calls = some (answers, s) ∧ DoesAll [] calls answers l ∧
      s.Represents l :=
  represents_new.run calls

end Lru

end VarahaCache
