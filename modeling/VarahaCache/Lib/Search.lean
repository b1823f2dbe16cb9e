import Mathlib.Data.List.Basic

/-!
# The first occurrence of a pattern in a list
-/

namespace VarahaCache.Lib.Search

open List

variable {α : Type*} {pat l a name : List α} {c : α} {i j : ℕ}

/-- The pattern occurs at a position; an empty pattern occurs nowhere. -/
def At (pat l : List α) (i : ℕ) : Prop := pat ≠ [] ∧ pat <+: l.drop i

instance [DecidableEq α] : Decidable (At pat l i) := inferInstanceAs (Decidable (_ ∧ _))

def find [DecidableEq α] (pat l : List α) : Option ℕ :=
  (range l.length).find? fun i => decide (At pat l i)

theorem at_drop : At pat (l.drop j) i ↔ At pat l (j + i) := by
  rw [At, At, drop_drop]

theorem At.end_le (h : At pat l i) : i + pat.length ≤ l.length := by
  have hle := h.2.length_le
  have hpos := length_pos_iff.mpr h.1
  rw [length_drop] at hle
  omega

theorem At.lt (h : At pat l i) : i < l.length := by
  have hle := h.end_le
  have hpos := length_pos_iff.mpr h.1
  omega

theorem At.append (h : At pat a i) (b : List α) : At pat (a ++ b) i :=
  ⟨h.1, drop_append ▸ h.2.trans (prefix_append _ _)⟩

theorem At.of_append {b : List α} (h : At pat (a ++ b) i) (hle : i + pat.length ≤ a.length) :
    At pat a i := by
  refine ⟨h.1, prefix_of_prefix_length_le h.2 ?_ ?_⟩
  · rw [drop_append]
    exact prefix_append _ _
  · rw [length_drop]
    omega

section Find

variable [DecidableEq α]

theorem find_eq_some : find pat l = some i ↔ At pat l i ∧ ∀ j < i, ¬ At pat l j := by
  simp only [find, find?_range_eq_some, decide_eq_true_eq, mem_range,
    Bool.not_eq_true', decide_eq_false_iff_not]
  exact ⟨fun h => ⟨h.1, h.2.2⟩, fun h => ⟨h.1, h.1.lt, h.2⟩⟩

theorem find_eq_none : find pat l = none ↔ ∀ i, ¬ At pat l i := by
  simp only [find, find?_eq_none, mem_range, decide_eq_true_eq]
  exact ⟨fun h i hi => h i hi.lt hi, fun h i _ => h i⟩

/-- What stands behind the first occurrence does not matter. -/
theorem find_append (h : find pat a = some i) (b : List α) : find pat (a ++ b) = some i := by
  obtain ⟨hhere, hfirst⟩ := find_eq_some.mp h
  refine find_eq_some.mpr ⟨hhere.append b, fun j hj hat => hfirst j hj (hat.of_append ?_)⟩
  have hend := hhere.end_le
  omega

theorem find_take (h : find pat l = some i) : find pat (l.take (i + pat.length)) = some i := by
  obtain ⟨hhere, hfirst⟩ := find_eq_some.mp h
  have hl := take_append_drop (i + pat.length) l
  refine find_eq_some.mpr ⟨At.of_append (hl.symm ▸ hhere) ?_, fun j hj hat => hfirst j hj ?_⟩
  · rw [length_take]
    exact Nat.le_min.mpr ⟨Nat.le_refl _, hhere.end_le⟩
  · exact hl ▸ hat.append _

/-- A beginning without one of the pattern's letters ends before the pattern does. -/
theorem isPrefix_take (h : find pat l = some i) (hname : name <+: l) (hpat : c ∈ pat)
    (hc : c ∉ name) : name <+: l.take (i + pat.length) := by
  have htake := take_prefix (i + pat.length) l
  rcases prefix_or_prefix_of_prefix hname htake with h' | h'
  · exact h'
  · obtain ⟨hhere, -⟩ := find_eq_some.mp (find_take h)
    exact absurd (h'.subset (mem_of_mem_drop (hhere.2.subset hpat))) hc

end Find

end VarahaCache.Lib.Search
