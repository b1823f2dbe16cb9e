import VarahaCache.Lib.KeyedSum

/-!
# Keyed queues

An association list that has a queue for each key; a key without a binding has
an empty queue. `weigh` sums a weight over the elements of all queues. A list
whose elements have keys is spread over the queues when each queue has, in
order, the elements with its key.
-/

namespace VarahaCache.Lib

open List

variable {K V : Type*}

abbrev Queues (K V : Type*) := AList fun _ : K => List V

/-- The sum of a weight over the elements of all queues. -/
def weigh (w : V → ℕ) (m : Queues K V) : ℕ := total (fun _ q => (q.map w).sum) m

def size (m : Queues K V) : ℕ := total (fun _ q => q.length) m

def elements (m : Queues K V) : List V := m.entries.flatMap fun e => e.2

theorem weigh_eq_sum_elements (w : V → ℕ) (m : Queues K V) :
    weigh w m = ((elements m).map w).sum := by
  rw [weigh, total, elements, map_flatMap, flatMap_def, sum_flatten, map_map]
  rfl

theorem size_eq_weigh (m : Queues K V) : size m = weigh (fun _ => 1) m := by
  simp [size, weigh]

variable [DecidableEq K]

def queue (m : Queues K V) (k : K) : List V := (m.lookup k).getD []

variable {m : Queues K V} {k k' : K} {q : List V} {b : Bool}

theorem queue_of_lookup (h : m.lookup k = some q) : queue m k = q := by
  rw [queue, h]
  rfl

theorem queue_of_lookup_none (h : m.lookup k = none) : queue m k = [] := by
  rw [queue, h]
  rfl

theorem lookup_of_queue_ne_nil (h : queue m k ≠ []) : m.lookup k = some (queue m k) := by
  rw [queue] at h ⊢
  cases hlookup : m.lookup k with
  | none =>
    rw [hlookup] at h
    exact absurd rfl h
  | some q => rfl

@[simp] theorem queue_insert_self : queue (m.insert k q) k = q := by
  rw [queue, AList.lookup_insert]
  rfl

theorem queue_insert_of_ne (h : k' ≠ k) : queue (m.insert k q) k' = queue m k' := by
  rw [queue, queue, AList.lookup_insert_ne h]

@[simp] theorem queue_erase_self : queue (m.erase k) k = [] := by
  rw [queue, AList.lookup_erase]
  rfl

theorem queue_erase_of_ne (h : k' ≠ k) : queue (m.erase k) k' = queue m k' := by
  rw [queue, queue, AList.lookup_erase_ne h]

theorem queue_erase_of_queue_eq_nil (h : queue m k = []) : queue (m.erase k) k' = queue m k' := by
  by_cases hk : k' = k
  · rw [hk, queue_erase_self, h]
  · exact queue_erase_of_ne hk

theorem weigh_erase (w : V → ℕ) (m : Queues K V) (k : K) :
    weigh w (m.erase k) + ((queue m k).map w).sum = weigh w m := by
  have hweight : weight (fun _ q => (q.map w).sum) m k = ((queue m k).map w).sum := by
    rw [weight, queue]
    cases m.lookup k <;> rfl
  rw [← hweight]
  exact total_erase _ m k

theorem weigh_insert (w : V → ℕ) (m : Queues K V) (k : K) (q : List V) :
    weigh w (m.insert k q) + ((queue m k).map w).sum = weigh w m + (q.map w).sum := by
  rw [← weigh_erase w m k, weigh, total_insert, ← weigh]
  omega

theorem size_erase (m : Queues K V) (k : K) : size (m.erase k) + (queue m k).length = size m := by
  simpa [size_eq_weigh] using weigh_erase (fun _ => 1) m k

theorem size_insert (m : Queues K V) (k : K) (q : List V) :
    size (m.insert k q) + (queue m k).length = size m + q.length := by
  simpa [size_eq_weigh] using weigh_insert (fun _ => 1) m k q

theorem queue_ite_erase (h : b = (queue m k).isEmpty) (k' : K) :
    queue (if b then m.erase k else m) k' = queue m k' := by
  cases b with
  | false => rfl
  | true => exact queue_erase_of_queue_eq_nil (isEmpty_iff.mp h.symm)

theorem size_ite_erase (h : b = (queue m k).isEmpty) :
    size (if b then m.erase k else m) = size m := by
  cases b with
  | false => rfl
  | true =>
    have herase := size_erase m k
    rw [isEmpty_iff.mp h.symm] at herase
    exact herase

/-- Each queue has the elements with its key, in order. -/
def Spread (key : V → K) (l : List V) (m : Queues K V) : Prop :=
  ∀ k, queue m k = l.filter fun v => key v = k

variable {key : V → K} {l : List V}

theorem sum_indicator {α : Type*} [DecidableEq α] (a : α) (l : List α) :
    (l.map fun b => if b = a then 1 else 0).sum = l.count a := by
  induction l with
  | nil => rfl
  | cons b l ih =>
    rw [map_cons, sum_cons, ih, count_cons, Nat.add_comm]
    simp only [beq_iff_eq]

/-- Counting by keys counts everything, if every key is asked for once. -/
theorem sum_length_filter {keys : List K} (hnodup : keys.Nodup) (h : ∀ v ∈ l, key v ∈ keys) :
    (keys.map fun k => (l.filter fun v => key v = k).length).sum = l.length := by
  induction l with
  | nil => simp
  | cons v l ih =>
    have hcons : (fun k => ((v :: l).filter fun v => key v = k).length) =
        fun k => (if k = key v then 1 else 0) + (l.filter fun v => key v = k).length := by
      funext k
      by_cases hk : k = key v
      · simp [hk, Nat.add_comm]
      · simp [hk, Ne.symm hk]
    rw [hcons, sum_map_add, sum_indicator, count_eq_one_of_mem hnodup (h v mem_cons_self),
      ih fun v hv => h v (mem_cons_of_mem _ hv), length_cons, Nat.add_comm]

theorem Spread.size_eq (h : Spread key l m) : size m = l.length := by
  have hkeys : ∀ v ∈ l, key v ∈ m.keys := by
    intro v hv
    have hmem : v ∈ queue m (key v) := by
      rw [h]
      exact mem_filter.mpr ⟨hv, decide_eq_true rfl⟩
    by_contra hnot
    rw [queue_of_lookup_none (AList.lookup_eq_none.mpr hnot)] at hmem
    cases hmem
  rw [← sum_length_filter m.keys_nodup hkeys, size, total, AList.keys, keys, map_map]
  refine congrArg sum (map_congr_left fun e he => ?_)
  rw [Function.comp_apply, ← h, queue_of_lookup (AList.mem_lookup_iff.mpr he)]

/-! ## Taking elements out of a list that is spread -/

theorem filter_eraseP_self (p : V → Bool) (l : List V) :
    (l.eraseP p).filter p = (l.filter p).tail := by
  induction l with
  | nil => rfl
  | cons v l ih =>
    cases hv : p v with
    | true => simp [hv]
    | false => simp [hv, ih]

theorem filter_eraseP_of_disjoint {p p' : V → Bool} (h : ∀ v, p v → p' v = false) (l : List V) :
    (l.eraseP p).filter p' = l.filter p' := by
  induction l with
  | nil => rfl
  | cons v l ih =>
    cases hv : p v with
    | true => simp [hv, h v hv]
    | false => simp [hv, filter_cons, ih]

/-- The list without its last element that meets a condition. -/
def eraseLastP (p : V → Bool) (l : List V) : List V := (l.reverse.eraseP p).reverse

theorem eraseLastP_sublist (p : V → Bool) (l : List V) : (eraseLastP p l).Sublist l :=
  reverse_sublist.mp (by rw [eraseLastP, reverse_reverse]; exact eraseP_sublist)

theorem spread_nil : Spread key [] (∅ : Queues K V) := fun _ => rfl

theorem Spread.concat (h : Spread key l m) (v : V) :
    Spread key (l ++ [v]) (m.insert (key v) (queue m (key v) ++ [v])) := by
  intro k
  by_cases hk : k = key v
  · subst hk
    rw [queue_insert_self, h, filter_append]
    simp
  · rw [queue_insert_of_ne hk, h, filter_append]
    simp [Ne.symm hk]

variable {m' : Queues K V}

theorem Spread.filter (h : Spread key l m) {p : V → Bool}
    (hqueue : ∀ k, queue m' k = (queue m k).filter p) : Spread key (l.filter p) m' := by
  intro k
  rw [hqueue, h, filter_filter, filter_filter]
  exact filter_congr fun v _ => Bool.and_comm ..

theorem Spread.filterAt (h : Spread key l m) {p : V → Prop} [DecidablePred p]
    (hself : queue m' k = (queue m k).filter p) (hother : ∀ k', k' ≠ k → queue m' k' = queue m k') :
    Spread key (l.filter fun v => key v ≠ k ∨ p v) m' := by
  refine h.filter fun k' => ?_
  by_cases hk : k' = k
  · subst hk
    rw [hself, h, filter_filter, filter_filter]
    refine filter_congr fun v _ => ?_
    by_cases hv : key v = k' <;> simp [hv]
  rw [hother k' hk, h, filter_filter]
  refine filter_congr fun v _ => ?_
  by_cases hv : key v = k'
  · simp [hv, hk]
  · simp [hv]

theorem Spread.eraseFirst (h : Spread key l m)
    (hself : queue m' k = (queue m k).tail) (hother : ∀ k', k' ≠ k → queue m' k' = queue m k') :
    Spread key (l.eraseP fun v => key v = k) m' := by
  intro k'
  by_cases hk : k' = k
  · subst hk
    rw [hself, h, filter_eraseP_self]
  rw [hother k' hk, h, filter_eraseP_of_disjoint]
  intro v hv
  rw [of_decide_eq_true hv]
  exact decide_eq_false (Ne.symm hk)

theorem Spread.eraseLast (h : Spread key l m) (hself : queue m' k = (queue m k).dropLast)
    (hother : ∀ k', k' ≠ k → queue m' k' = queue m k') :
    Spread key (eraseLastP (fun v => key v = k) l) m' := by
  intro k'
  rw [eraseLastP, filter_reverse]
  by_cases hk : k' = k
  · subst hk
    rw [hself, h, filter_eraseP_self, filter_reverse, tail_reverse, reverse_reverse]
  rw [hother k' hk, h, filter_eraseP_of_disjoint, filter_reverse, reverse_reverse]
  intro v hv
  rw [of_decide_eq_true hv]
  exact decide_eq_false (Ne.symm hk)

end VarahaCache.Lib
