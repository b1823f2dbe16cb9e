import Mathlib

/-!
# Doubly linked lists in memory

Memory is a partial map from addresses to cells; an access to an address that
is not allocated gives no result. `Chain` says that the cells of a list of
addresses point to one another, both ways; it is framed by `Chain.congr` and
cut by `chain_append`. Each operation has one specification.
-/

namespace VarahaCache.LinkedList

open List

/-! ## Memory -/

/-- Memory with cells in `β`. Addresses from `bound` on have never been
used. -/
structure Heap (β : Type) where
  cells : ℕ → Option β
  bound : ℕ
  unused : ∀ a, bound ≤ a → cells a = none

namespace Heap

variable {β : Type}

def empty : Heap β := ⟨fun _ => none, 0, fun _ _ => rfl⟩

/-- Change what is at an address, if something is. -/
def update (m : Heap β) (a : ℕ) (f : β → β) : Heap β where
  cells := Function.update m.cells a ((m.cells a).map f)
  bound := m.bound
  unused := by
    intro b hb
    by_cases hab : b = a
    · subst hab
      simp [m.unused b hb]
    · rw [Function.update_of_ne hab, m.unused b hb]

/-- Write through a pointer. -/
def modify (m : Heap β) (a : ℕ) (f : β → β) : Option (Heap β) :=
  if (m.cells a).isSome then some (m.update a f) else none

def free (m : Heap β) (a : ℕ) : Option (Heap β) :=
  if (m.cells a).isSome then
    some
      { cells := Function.update m.cells a none
        bound := m.bound
        unused := by
          intro b hb
          by_cases hab : b = a
          · simp [hab]
          · rw [Function.update_of_ne hab, m.unused b hb] }
  else none

/-- Take an address into use. -/
def store (m : Heap β) (a : ℕ) (x : β) : Heap β where
  cells := Function.update m.cells a (some x)
  bound := max m.bound (a + 1)
  unused := by
    intro b hb
    have hab : b ≠ a := by omega
    rw [Function.update_of_ne hab, m.unused b (by omega)]

/-- An allocator: it hands out addresses that are not in use. -/
structure Allocator (β : Type) where
  place : Heap β → ℕ
  fresh : ∀ m : Heap β, m.cells (place m) = none

/-- The allocator that never uses an address twice. -/
def bump : Allocator β := ⟨bound, fun m => m.unused _ (Nat.le_refl _)⟩

variable {m : Heap β} {a : ℕ} {x : β}

theorem modify_eq (h : m.cells a = some x) (f : β → β) : m.modify a f = some (m.update a f) := by
  simp [modify, h]

theorem cells_update_self (h : m.cells a = some x) (f : β → β) :
    (m.update a f).cells a = some (f x) := by
  simp [update, h]

theorem cells_update_of_ne {b : ℕ} (h : b ≠ a) (f : β → β) :
    (m.update a f).cells b = m.cells b := by
  simp [update, h]

theorem exists_free (h : m.cells a = some x) :
    ∃ m' : Heap β, m.free a = some m' ∧ ∀ b, b ≠ a → m'.cells b = m.cells b := by
  rw [free, if_pos (by simp [h])]
  exact ⟨_, rfl, fun b hb => Function.update_of_ne hb _ _⟩

end Heap

/-! ## Lists -/

variable {α : Type}

structure Node (α : Type) where
  data : α
  prev : Option ℕ
  next : Option ℕ

structure Ends where
  head : Option ℕ
  tail : Option ℕ

/-- Let the node before a place, or the head, point to `target`. -/
def setNext (ends : Ends) (before target : Option ℕ) (m : Heap (Node α)) :
    Option (Ends × Heap (Node α)) :=
  match before with
  | none => some ({ ends with head := target }, m)
  | some p => (m.modify p fun n => { n with next := target }).map fun m => (ends, m)

/-- Let the node after a place, or the tail, point back to `target`. -/
def setPrev (ends : Ends) (after target : Option ℕ) (m : Heap (Node α)) :
    Option (Ends × Heap (Node α)) :=
  match after with
  | none => some ({ ends with tail := target }, m)
  | some p => (m.modify p fun n => { n with prev := target }).map fun m => (ends, m)

/-- Take a node out of the list it is in. -/
def unlink (ends : Ends) (node : ℕ) (m : Heap (Node α)) : Option (Ends × Heap (Node α)) := do
  let n ← m.cells node
  let (ends, m) ← setNext ends n.prev n.next m
  let (ends, m) ← setPrev ends n.next n.prev m
  let m ← m.modify node fun n => { n with prev := none, next := none }
  return (ends, m)

/-- Put a node at the end of a list. -/
def pushTail (ends : Ends) (node : ℕ) (m : Heap (Node α)) : Option (Ends × Heap (Node α)) := do
  let m ← m.modify node fun n => { n with prev := ends.tail, next := none }
  let (ends, m) ← setNext ends ends.tail (some node) m
  return ({ ends with tail := some node }, m)

/-- Let a node that points to the head be the new head. -/
def linkHead (ends : Ends) (node : ℕ) (m : Heap (Node α)) : Option (Ends × Heap (Node α)) := do
  let m ← match ends.head with
    | some oldHead => m.modify oldHead fun n => { n with prev := some node }
    | none => some m
  return (⟨some node, ends.tail.or (some node)⟩, m)

/-! ## Chains -/

/-- The first address of a list, or what comes after it. -/
def first (l : List (ℕ × α)) (after : Option ℕ) : Option ℕ := (l.head?.map Prod.fst).or after

/-- The last address of a list, or what comes before it. -/
def last (before : Option ℕ) (l : List (ℕ × α)) : Option ℕ := (l.getLast?.map Prod.fst).or before

/-- The cells of a list, each pointing to the next and back to the one
before. -/
def Chain (cells : ℕ → Option (Node α)) : Option ℕ → List (ℕ × α) → Option ℕ → Prop
  | _, [], _ => True
  | before, (a, x) :: l, after =>
    cells a = some ⟨x, before, first l after⟩ ∧ Chain cells (some a) l after

def addresses (l : List (ℕ × α)) : List ℕ := l.map Prod.fst

/-- A list as it stands in memory. -/
structure Rep (ends : Ends) (m : Heap (Node α)) (l : List (ℕ × α)) : Prop where
  chain : Chain m.cells none l none
  head : ends.head = first l none
  tail : ends.tail = last none l
  nodup : (addresses l).Nodup

variable {cells cells' : ℕ → Option (Node α)} {before after : Option ℕ} {l l₁ l₂ : List (ℕ × α)}
  {a : ℕ} {x : α} {m : Heap (Node α)} {ends : Ends}

@[simp] theorem first_nil : first ([] : List (ℕ × α)) after = after := by simp [first]

@[simp] theorem first_cons : first ((a, x) :: l) after = some a := by simp [first]

@[simp] theorem last_nil : last before ([] : List (ℕ × α)) = before := by simp [last]

@[simp] theorem last_concat : last before (l ++ [(a, x)]) = some a := by simp [last]

theorem first_append : first (l₁ ++ l₂) after = first l₁ (first l₂ after) := by
  cases l₁ <;> simp [first]

theorem last_append : last before (l₁ ++ l₂) = last (last before l₁) l₂ := by
  rcases eq_nil_or_concat l₂ with rfl | ⟨l, ⟨a, x⟩, rfl⟩
  · simp
  · rw [concat_eq_append, ← append_assoc, last_concat, last_concat]

theorem last_cons : last before ((a, x) :: l) = last (some a) l := by
  have hone : last before [(a, x)] = some a := by simp [last]
  rw [← singleton_append, last_append, hone]

@[simp] theorem mem_addresses_append :
    a ∈ addresses (l₁ ++ l₂) ↔ a ∈ addresses l₁ ∨ a ∈ addresses l₂ := by
  simp [addresses]

@[simp] theorem mem_addresses_cons {b : ℕ} :
    b ∈ addresses ((a, x) :: l) ↔ b = a ∨ b ∈ addresses l := by
  simp [addresses, eq_comm]

@[simp] theorem addresses_nil : addresses ([] : List (ℕ × α)) = [] := rfl

/-- The frame rule: a chain is read off its own cells only. -/
theorem Chain.congr (h : Chain cells before l after)
    (hsame : ∀ b ∈ addresses l, cells' b = cells b) : Chain cells' before l after := by
  induction l generalizing before with
  | nil => trivial
  | cons p l ih =>
    obtain ⟨a, x⟩ := p
    obtain ⟨hcell, hrest⟩ := h
    refine ⟨?_, ih hrest fun b hb => hsame b (mem_addresses_cons.mpr (.inr hb))⟩
    rw [hsame a (mem_addresses_cons.mpr (.inl rfl)), hcell]

theorem chain_append : Chain cells before (l₁ ++ l₂) after ↔
    Chain cells before l₁ (first l₂ after) ∧ Chain cells (last before l₁) l₂ after := by
  induction l₁ generalizing before with
  | nil => simp [Chain]
  | cons p l₁ ih =>
    obtain ⟨a, x⟩ := p
    rw [cons_append, Chain, Chain, ih, first_append, last_cons, and_assoc]

theorem Chain.exists_cell (h : Chain cells before l after) (hmem : (a, x) ∈ l) :
    ∃ n, cells a = some n ∧ n.data = x := by
  obtain ⟨l₁, l₂, rfl⟩ := append_of_mem hmem
  exact ⟨_, (chain_append.mp h).2.1, rfl⟩

theorem Chain.update (h : Chain m.cells before l after) (ha : a ∉ addresses l)
    (f : Node α → Node α) : Chain (m.update a f).cells before l after :=
  h.congr fun _ hb => Heap.cells_update_of_ne (ne_of_mem_of_not_mem hb ha) f

theorem Chain.cells_ne_none (h : Chain cells before l after) (ha : a ∈ addresses l) :
    cells a ≠ none := by
  obtain ⟨⟨a, x⟩, hmem, rfl⟩ := mem_map.mp ha
  obtain ⟨n, hn, -⟩ := h.exists_cell hmem
  simp [hn]

theorem Rep.congr {m' : Heap (Node α)} (h : Rep ends m l)
    (hsame : ∀ b ∈ addresses l, m'.cells b = m.cells b) : Rep ends m' l :=
  ⟨h.chain.congr hsame, h.head, h.tail, h.nodup⟩

theorem Rep.notMem_addresses
    (h : Rep ends m (l₁ ++ (a, x) :: l₂)) : a ∉ addresses l₁ ∧ a ∉ addresses l₂ := by
  have hnodup := h.nodup
  rw [addresses, map_append, map_cons, nodup_append, nodup_cons] at hnodup
  exact ⟨fun hmem => hnodup.2.2 a hmem a (mem_cons_self ..) rfl, hnodup.2.1.1⟩

/-! ## Specifications -/

section Specs

variable {m m' : Heap (Node α)} {ends ends' : Ends}

theorem setNext_spec (h : Chain m.cells none l after) (hhead : ends.head = first l after)
    (hnodup : (addresses l).Nodup) (target : Option ℕ) :
    ∃ ends' m', setNext ends (last none l) target m = some (ends', m') ∧
      Chain m'.cells none l target ∧ ends'.head = first l target ∧ ends'.tail = ends.tail ∧
      m'.bound = m.bound ∧ ∀ b, b ∉ addresses l → m'.cells b = m.cells b := by
  rcases eq_nil_or_concat l with rfl | ⟨l, ⟨p, y⟩, rfl⟩
  · exact ⟨{ ends with head := target }, m, rfl, trivial, rfl, rfl, rfl, fun _ _ => rfl⟩
  rw [concat_eq_append] at h hhead hnodup ⊢
  obtain ⟨hfront, hcell, -⟩ := chain_append.mp h
  have hp : p ∉ addresses l := by
    intro hmem
    rw [addresses, map_append, nodup_append] at hnodup
    exact hnodup.2.2 p hmem p (by simp) rfl
  refine ⟨ends, m.update p fun n => { n with next := target }, ?_, ?_, ?_, rfl, rfl, ?_⟩
  · simp [setNext, Heap.modify_eq hcell]
  · refine chain_append.mpr ⟨hfront.update hp _, ?_, trivial⟩
    rw [Heap.cells_update_self hcell]
    rfl
  · rw [hhead, first_append, first_append, first_cons, first_cons]
  · intro b hb
    refine Heap.cells_update_of_ne (fun hbp => hb ?_) _
    simp [hbp]

theorem setPrev_spec (h : Chain m.cells before l none) (htail : ends.tail = last before l)
    (hnodup : (addresses l).Nodup) (target : Option ℕ) :
    ∃ ends' m', setPrev ends (first l none) target m = some (ends', m') ∧
      Chain m'.cells target l none ∧ ends'.tail = last target l ∧ ends'.head = ends.head ∧
      m'.bound = m.bound ∧ ∀ b, b ∉ addresses l → m'.cells b = m.cells b := by
  cases l with
  | nil => exact ⟨{ ends with tail := target }, m, rfl, trivial, rfl, rfl, rfl, fun _ _ => rfl⟩
  | cons p l =>
    obtain ⟨p, y⟩ := p
    obtain ⟨hcell, hback⟩ := h
    have hp : p ∉ addresses l := (nodup_cons.mp hnodup).1
    refine ⟨ends, m.update p fun n => { n with prev := target }, ?_, ⟨?_, hback.update hp _⟩, ?_,
      rfl, rfl, ?_⟩
    · simp [setPrev, Heap.modify_eq hcell]
    · rw [Heap.cells_update_self hcell]
    · rw [htail, last_cons, last_cons]
    · intro b hb
      refine Heap.cells_update_of_ne (fun hbp => hb ?_) _
      simp [hbp]

/-- Unlinking takes a node out of the list and leaves it in memory, with
no neighbours. -/
theorem Rep.unlink (h : Rep ends m (l₁ ++ (a, x) :: l₂)) :
    ∃ ends' m', LinkedList.unlink ends a m = some (ends', m') ∧ Rep ends' m' (l₁ ++ l₂) ∧
      m'.cells a = some ⟨x, none, none⟩ ∧ m'.bound = m.bound ∧
      ∀ b, b ∉ addresses (l₁ ++ (a, x) :: l₂) → m'.cells b = m.cells b := by
  obtain ⟨ha₁, ha₂⟩ := h.notMem_addresses
  obtain ⟨hchain, hhead, htail, hnodup⟩ := h
  obtain ⟨hfront, hcell, hback⟩ := chain_append.mp hchain
  rw [addresses, map_append, map_cons] at hnodup
  obtain ⟨hnd₁, hnd₂, hdisj⟩ := nodup_append.mp hnodup
  replace hnd₂ := (nodup_cons.mp hnd₂).2
  have h₂₁ : ∀ b ∈ addresses l₂, b ∉ addresses l₁ := fun b hb hmem =>
    hdisj b hmem b (mem_cons_of_mem _ hb) rfl
  rw [first_append, first_cons] at hhead
  rw [last_append, last_cons] at htail
  -- the node before the place, then the node after it, then the node itself
  obtain ⟨ends₁, m₁, hnext, hfront₁, hhead₁, htail₁, hbound₁, hframe₁⟩ :=
    setNext_spec hfront (hhead.trans (by rw [first_cons])) hnd₁ (first l₂ none)
  have hback₁ : Chain m₁.cells (some a) l₂ none := hback.congr fun b hb => hframe₁ b (h₂₁ b hb)
  obtain ⟨ends₂, m₂, hprev, hback₂, htail₂, hhead₂, hbound₂, hframe₂⟩ :=
    setPrev_spec hback₁ (htail₁.trans htail) hnd₂ (last none l₁)
  have hcell₂ : m₂.cells a = some ⟨x, last none l₁, first l₂ none⟩ := by
    rw [hframe₂ a ha₂, hframe₁ a ha₁, hcell]
  refine ⟨ends₂, m₂.update a fun n => { n with prev := none, next := none }, ?_, ?_, ?_,
    hbound₂.trans hbound₁, ?_⟩
  · simp [LinkedList.unlink, hcell, hnext, hprev, Heap.modify_eq hcell₂]
  · constructor
    · have hfront₂ := hfront₁.congr fun b hb => hframe₂ b fun hb₂ => h₂₁ b hb₂ hb
      exact chain_append.mpr ⟨hfront₂.update ha₁ _, hback₂.update ha₂ _⟩
    · rw [hhead₂, hhead₁, first_append]
    · rw [htail₂, last_append]
    · rw [addresses, map_append, nodup_append]
      exact ⟨hnd₁, hnd₂, fun b hb c hc => hdisj b hb c (mem_cons_of_mem _ hc)⟩
  · rw [Heap.cells_update_self hcell₂]
  · intro b hb
    rw [mem_addresses_append, mem_addresses_cons, not_or, not_or] at hb
    rw [Heap.cells_update_of_ne hb.2.1, hframe₂ b hb.2.2, hframe₁ b hb.1]

/-- Pushing puts a node outside the list at its end. -/
theorem Rep.pushTail (h : Rep ends m l) (ha : a ∉ addresses l) {n : Node α}
    (hcell : m.cells a = some n) :
    ∃ ends' m', LinkedList.pushTail ends a m = some (ends', m') ∧
      Rep ends' m' (l ++ [(a, n.data)]) ∧
      ∀ b, b ∉ addresses (l ++ [(a, n.data)]) → m'.cells b = m.cells b := by
  obtain ⟨hchain, hhead, htail, hnodup⟩ := h
  have hcell₁ := Heap.cells_update_self hcell fun n => { n with prev := ends.tail, next := none }
  obtain ⟨ends₂, m₂, hnext, hchain₂, hhead₂, -, -, hframe₂⟩ :=
    setNext_spec (hchain.update ha fun n => { n with prev := ends.tail, next := none }) hhead
      hnodup (some a)
  rw [← htail] at hnext
  refine ⟨{ ends₂ with tail := some a }, m₂, ?_, ?_, ?_⟩
  · simp [LinkedList.pushTail, Heap.modify_eq hcell, hnext]
  · constructor
    · refine chain_append.mpr ⟨hchain₂, ?_, trivial⟩
      rw [hframe₂ a ha, hcell₁, htail]
      rfl
    · rw [hhead₂, first_append, first_cons]
    · rw [last_concat]
    · rw [addresses, map_append, nodup_append]
      refine ⟨hnodup, by simp, ?_⟩
      simp only [map_cons, map_nil, mem_singleton, forall_eq]
      exact fun b hb => ne_of_mem_of_not_mem hb ha
  · intro b hb
    rw [mem_addresses_append, mem_addresses_cons, not_or, not_or] at hb
    rw [hframe₂ b hb.1, Heap.cells_update_of_ne hb.2.1]

/-- Linking puts a node outside the list, which points to it, in front. -/
theorem Rep.linkHead (h : Rep ends m l) (ha : a ∉ addresses l)
    (hcell : m.cells a = some ⟨x, none, ends.head⟩) :
    ∃ ends' m', LinkedList.linkHead ends a m = some (ends', m') ∧ Rep ends' m' ((a, x) :: l) ∧
      m'.bound = m.bound ∧ ∀ b, b ∉ addresses l → m'.cells b = m.cells b := by
  obtain ⟨hchain, hhead, htail, hnodup⟩ := h
  have hnodup' : (addresses ((a, x) :: l)).Nodup := nodup_cons.mpr ⟨ha, hnodup⟩
  rw [hhead] at hcell
  obtain ⟨ends', m', hprev, hchain', htail', -, hbound, hframe⟩ :=
    setPrev_spec hchain htail hnodup (some a)
  have hends : ends.tail.or (some a) = last (some a) l := by
    rw [htail, last, last]
    cases l.getLast? <;> rfl
  refine ⟨⟨some a, ends.tail.or (some a)⟩, m', ?_, ⟨⟨?_, hchain'⟩, first_cons.symm, ?_, hnodup'⟩,
    hbound, hframe⟩
  · rw [LinkedList.linkHead, hhead]
    cases l with
    | nil =>
      cases hprev
      rfl
    | cons p l =>
      obtain ⟨m₁, hm₁, heq⟩ := Option.map_eq_some_iff.mp hprev
      cases heq
      rw [first_cons]
      simp [hm₁]
  · rw [hframe a ha, hcell]
  · rw [last_cons]
    exact hends

theorem Rep.setData (h : Rep ends m (l₁ ++ (a, x) :: l₂)) (f : α → α) :
    ∃ m', (m.modify a fun n => { n with data := f n.data }) = some m' ∧
      Rep ends m' (l₁ ++ (a, f x) :: l₂) ∧ ∀ b, b ≠ a → m'.cells b = m.cells b := by
  obtain ⟨ha₁, ha₂⟩ := h.notMem_addresses
  obtain ⟨hchain, hhead, htail, hnodup⟩ := h
  obtain ⟨hfront, hcell, hback⟩ := chain_append.mp hchain
  have haddr : addresses (l₁ ++ (a, f x) :: l₂) = addresses (l₁ ++ (a, x) :: l₂) := by
    simp [addresses]
  refine ⟨_, Heap.modify_eq hcell _, ?_, fun b hb => Heap.cells_update_of_ne hb _⟩
  constructor
  · refine chain_append.mpr ⟨?_, ?_, ?_⟩
    · rw [first_cons] at hfront ⊢
      exact hfront.update ha₁ _
    · rw [Heap.cells_update_self hcell]
    · exact hback.update ha₂ _
  · rw [hhead, first_append, first_append, first_cons, first_cons]
  · rw [htail, last_append, last_append, last_cons, last_cons]
  · rw [haddr]
    exact hnodup

end Specs

end VarahaCache.LinkedList
