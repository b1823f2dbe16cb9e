import Mathlib

/-!
# Closed intervals of positions

Slices of a list by first and last position, and lists of intervals that
tile a stretch of positions without gap or overlap.
-/

namespace VarahaCache.Intervals

variable {α : Type} {l : List α}

/-- The elements at the positions `first` to `last`, both included. -/
def slice (l : List α) (first last : ℕ) : List α := (l.drop first).take (last + 1 - first)

theorem length_slice {first last : ℕ} (hlast : last < l.length) :
    (slice l first last).length = last + 1 - first := by
  rw [slice, List.length_take, List.length_drop]
  omega

/-- Consecutive intervals from `start` up to `stop`, excluded. -/
inductive Tiles (stop : ℕ) : ℕ → List (ℕ × ℕ) → Prop
  | done : Tiles stop stop []
  | cons {first last : ℕ} {rest : List (ℕ × ℕ)} (hle : first ≤ last)
      (hrest : Tiles stop (last + 1) rest) : Tiles stop first ((first, last) :: rest)

variable {tiles : List (ℕ × ℕ)} {start : ℕ}

theorem Tiles.le {stop : ℕ} (h : Tiles stop start tiles) : start ≤ stop := by
  induction h with
  | done => exact Nat.le_refl _
  | cons hle _ ih => omega

theorem Tiles.bounds {stop : ℕ} (h : Tiles stop start tiles) :
    ∀ tile ∈ tiles, tile.1 ≤ tile.2 ∧ tile.2 < stop := by
  induction h with
  | done => simp
  | cons hle hrest ih =>
    refine List.forall_mem_cons.mpr ⟨⟨hle, ?_⟩, ih⟩
    have := hrest.le
    omega

theorem Tiles.flatMap_slice (h : Tiles l.length start tiles) :
    tiles.flatMap (fun tile => slice l tile.1 tile.2) = l.drop start := by
  induction h with
  | done => simp
  | @cons first last rest hle hrest ih =>
    have hsplit : last + 1 = first + (last + 1 - first) := by omega
    calc (((first, last) :: rest).flatMap fun tile => slice l tile.1 tile.2)
        = slice l first last ++ rest.flatMap (fun tile => slice l tile.1 tile.2) := rfl
      _ = (l.drop first).take (last + 1 - first) ++ l.drop (last + 1) := by rw [ih, slice]
      _ = (l.drop first).take (last + 1 - first) ++
            (l.drop first).drop (last + 1 - first) := by rw [List.drop_drop, ← hsplit]
      _ = l.drop first := List.take_append_drop _ _

end VarahaCache.Intervals
