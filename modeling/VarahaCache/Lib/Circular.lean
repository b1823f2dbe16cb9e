import Mathlib

/-!
# Circular stores

Slots that are written round and round: value `n` goes into slot `n %
capacity`. `Circular` says what the slots hold after a history of writes. A
number not yet overwritten reads as its value, and all slots together are the
last values of the history, in some order, with the blanks that are left.
-/

namespace VarahaCache.Lib

open List

variable {α : Type*}

/-- The slots after a history of writes. -/
structure Circular (capacity : ℕ) (blank : α) (history slots : List α) : Prop where
  length : slots.length = capacity
  written : ∀ n v, history[n]? = some v → history.length ≤ n + capacity →
    slots[n % capacity]? = some v
  unwritten : ∀ i, history.length ≤ i → i < capacity → slots[i]? = some blank

variable {capacity : ℕ} {blank : α} {history slots : List α}

theorem circular_nil (capacity : ℕ) (blank : α) :
    Circular capacity blank [] (replicate capacity blank) where
  length := length_replicate
  written _ _ hv := by cases hv
  unwritten i _ hi := by rw [getElem?_replicate, if_pos hi]

theorem mod_ne_of_lt {m n : ℕ} (hlt : m < n) (hround : n < m + capacity) :
    m % capacity ≠ n % capacity := by
  intro heq
  have hdvd : capacity ∣ n - m := (Nat.modEq_iff_dvd' hlt.le).mp heq
  have hle := Nat.le_of_dvd (by omega) hdvd
  omega

theorem Circular.write (h : Circular capacity blank history slots) (hcap : 0 < capacity) (v : α) :
    Circular capacity blank (history ++ [v]) (slots.set (history.length % capacity) v) where
  length := by rw [length_set, h.length]
  written n w hw hround := by
    rw [length_append, length_singleton] at hround
    rcases Nat.lt_trichotomy n history.length with hlt | rfl | hgt
    · -- an older value that is still there stands in another slot
      rw [getElem?_append_left hlt] at hw
      rw [getElem?_set_ne (mod_ne_of_lt hlt (by omega)).symm]
      exact h.written n w hw (by omega)
    · rw [getElem?_concat_length, Option.some.injEq] at hw
      subst hw
      rw [getElem?_set_self]
      rw [h.length]
      exact Nat.mod_lt _ hcap
    · rw [getElem?_eq_none (by simpa using hgt)] at hw
      cases hw
  unwritten i hi hlt := by
    rw [length_append, length_singleton] at hi
    rw [getElem?_set_ne (by rw [Nat.mod_eq_of_lt (by omega)]; omega)]
    exact h.unwritten i (by omega) hlt

/-- Once every slot is written, the slots from the next one on are the last
values. -/
theorem Circular.rotate_eq (h : Circular capacity blank history slots)
    (hfull : capacity ≤ history.length) :
    slots.rotate history.length = history.drop (history.length - capacity) := by
  refine ext_getElem? fun i => ?_
  rcases lt_or_ge i capacity with hi | hi
  · have hn : history.length - capacity + i < history.length := by omega
    have hslot := h.written _ _ (getElem?_eq_getElem hn) (by omega)
    have hindex : (history.length - capacity + i) % capacity = (i + history.length) % capacity := by
      rw [← Nat.add_mod_right, show history.length - capacity + i + capacity =
        i + history.length by omega]
    rw [getElem?_rotate (by rw [h.length]; exact hi), h.length, ← hindex, hslot, getElem?_drop,
      getElem?_eq_getElem hn]
  · rw [getElem?_eq_none (by rw [length_rotate, h.length]; exact hi),
      getElem?_eq_none (by rw [length_drop]; omega)]

theorem Circular.eq_append (h : Circular capacity blank history slots)
    (hroom : history.length ≤ capacity) :
    slots = history ++ replicate (capacity - history.length) blank := by
  refine ext_getElem? fun i => ?_
  rcases lt_or_ge i history.length with hi | hi
  · have hslot := h.written _ _ (getElem?_eq_getElem hi) (by omega)
    rw [Nat.mod_eq_of_lt (by omega)] at hslot
    rw [hslot, getElem?_append_left hi, getElem?_eq_getElem hi]
  rw [getElem?_append_right hi, getElem?_replicate]
  split
  · exact h.unwritten i hi (by omega)
  · exact getElem?_eq_none (by rw [h.length]; omega)

/-- The slots are the last values of the history, and blanks. -/
theorem Circular.perm (h : Circular capacity blank history slots) :
    slots.Perm (history.drop (history.length - capacity) ++
      replicate (capacity - history.length) blank) := by
  rcases le_total capacity history.length with hfull | hroom
  · rw [← h.rotate_eq hfull, Nat.sub_eq_zero_of_le hfull, replicate_zero, append_nil]
    exact (rotate_perm slots _).symm
  · rw [Nat.sub_eq_zero_of_le hroom, drop_zero, ← h.eq_append hroom]

end VarahaCache.Lib
