import Mathlib

/-!
# Sums over keyed stores

The sum of a weight over the bindings of an association list, and how it
changes when a key is erased or bound; and the same for a function on a finite
type that changes in one place.
-/

namespace VarahaCache.Lib

variable {K V : Type*}

/-- The sum of the weights of all bindings. -/
def total (f : K → V → ℕ) (m : AList fun _ : K => V) : ℕ := (m.entries.map fun e => f e.1 e.2).sum

variable {f g : K → V → ℕ} {m : AList fun _ : K => V}

variable [DecidableEq K]

/-- What a key weighs: nothing if it is not bound. -/
def weight (f : K → V → ℕ) (m : AList fun _ : K => V) (k : K) : ℕ := (m.lookup k).elim 0 (f k)

theorem weight_of_lookup {k : K} {v : V} (h : m.lookup k = some v) : weight f m k = f k v := by
  rw [weight, h]
  rfl

theorem weight_of_notMem {k : K} (h : k ∉ m) : weight f m k = 0 := by
  rw [weight, AList.lookup_eq_none.mpr h]
  rfl

theorem total_erase (f : K → V → ℕ) (m : AList fun _ : K => V) (k : K) :
    total f (m.erase k) + weight f m k = total f m := by
  have hlist : ∀ l : List (Sigma fun _ : K => V),
      ((l.kerase k).map fun e => f e.1 e.2).sum + (l.dlookup k).elim 0 (f k) =
        (l.map fun e => f e.1 e.2).sum := by
    intro l
    induction l with
    | nil => rfl
    | cons e l ih =>
      obtain ⟨k', v⟩ := e
      by_cases hk : k = k'
      · subst hk
        have hhead : List.kerase k (⟨k, v⟩ :: l) = l := List.kerase_cons_eq rfl
        rw [hhead, List.dlookup_cons_eq]
        simp [Nat.add_comm]
      · rw [List.kerase_cons_ne hk, List.dlookup_cons_ne _ _ hk]
        simp only [List.map_cons, List.sum_cons]
        omega
  exact hlist m.entries

theorem total_insert (f : K → V → ℕ) (m : AList fun _ : K => V) (k : K) (v : V) :
    total f (m.insert k v) = f k v + total f (m.erase k) := by
  rw [total, AList.entries_insert]
  simp [total, AList.erase]

theorem weight_le_total (k : K) : weight f m k ≤ total f m := by
  rw [← total_erase f m k]
  exact Nat.le_add_left ..

theorem total_congr (h : ∀ k v, m.lookup k = some v → f k v = g k v) : total f m = total g m := by
  refine congrArg List.sum (List.map_congr_left fun e he => ?_)
  exact h e.1 e.2 (AList.mem_lookup_iff.mpr he)

theorem sum_update {T P : Type*} [Fintype T] [DecidableEq T] (f : P → ℕ) (g : T → P) (t : T)
    (p : P) : (∑ i, f (Function.update g t p i)) + f (g t) = (∑ i, f (g i)) + f p := by
  have hmem := Finset.mem_univ t
  rw [← Finset.add_sum_erase _ _ hmem, ← Finset.add_sum_erase _ (fun i => f (g i)) hmem,
    Function.update_self]
  have hrest : ∑ i ∈ Finset.univ.erase t, f (Function.update g t p i) =
      ∑ i ∈ Finset.univ.erase t, f (g i) :=
    Finset.sum_congr rfl fun i hi => by rw [Function.update_of_ne (Finset.ne_of_mem_erase hi)]
  rw [hrest]
  omega

end VarahaCache.Lib
