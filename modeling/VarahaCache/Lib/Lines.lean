import Mathlib

/-!
# Lines in a stream

Reading a stream up to a separator, and heads made of lines: every line ends
with two marks, and an empty line ends the head. What is written that way
reads back as the lines it was written from, whatever follows.
-/

namespace VarahaCache.Lib

variable {α : Type*} [DecidableEq α]

/-! ## Up to a separator -/

/-- Everything up to and with the first separator, or all there is. -/
def readUntil (sep : α) : List α → List α × List α
  | [] => ([], [])
  | a :: rest =>
    if a = sep then ([a], rest)
    else (a :: (readUntil sep rest).1, (readUntil sep rest).2)

theorem readUntil_append_cons {sep : α} {l : List α} (h : sep ∉ l) (rest : List α) :
    readUntil sep (l ++ sep :: rest) = (l ++ [sep], rest) := by
  induction l with
  | nil => simp [readUntil]
  | cons a l ih =>
    rw [List.mem_cons, not_or] at h
    simp [readUntil, Ne.symm h.1, ih h.2]

variable (sep : α) (l : List α)

theorem readUntil_append : (readUntil sep l).1 ++ (readUntil sep l).2 = l := by
  induction l with
  | nil => rfl
  | cons a l ih =>
    unfold readUntil
    split
    · rfl
    · simp [ih]

theorem readUntil_fst :
    ∃ line, sep ∉ line ∧ ((readUntil sep l).1 = line ∨ (readUntil sep l).1 = line ++ [sep]) := by
  induction l with
  | nil => exact ⟨[], by simp, .inl rfl⟩
  | cons a l ih =>
    obtain ⟨line, hline, hread⟩ := ih
    by_cases ha : a = sep
    · exact ⟨[], by simp, .inr (by simp [readUntil, ha])⟩
    · refine ⟨a :: line, by simp [Ne.symm ha, hline], ?_⟩
      simpa [readUntil, ha] using hread

theorem length_readUntil :
    (readUntil sep l).1.length + (readUntil sep l).2.length = l.length := by
  rw [← List.length_append, readUntil_append]

/-! ## Heads -/

section Heads

variable (cr lf : α)

/-- One line up to its marks; `none` if it does not end with them. -/
def readMarked (l : List α) : Option (List α × List α) :=
  let r := readUntil lf l
  if [cr, lf] <:+ r.1 then some (r.1.take (r.1.length - 2), r.2) else none

theorem readMarked_length {l line rest : List α} (h : readMarked cr lf l = some (line, rest)) :
    rest.length < l.length := by
  have hlen := length_readUntil lf l
  unfold readMarked at h
  dsimp only at h
  split at h
  · rename_i hsuffix
    have htwo := hsuffix.length_le
    cases h
    simp only [List.length_cons, List.length_nil] at htwo
    omega
  · cases h

/-- The lines up to the first empty one, and what follows it. -/
def readHead (l : List α) : Option (List (List α) × List α) :=
  match _h : readMarked cr lf l with
  | none => none
  | some ([], rest) => some ([], rest)
  | some (line, rest) => (readHead rest).map fun r => (line :: r.1, r.2)
termination_by l.length
decreasing_by exact readMarked_length cr lf _h

variable {cr lf}

theorem readMarked_append {line : List α} (hline : lf ∉ line) (hne : cr ≠ lf) (rest : List α) :
    readMarked cr lf (line ++ cr :: lf :: rest) = some (line, rest) := by
  have hmem : lf ∉ line ++ [cr] := by simp [hline, hne.symm]
  have hread := readUntil_append_cons hmem rest
  rw [List.append_assoc, List.singleton_append] at hread
  rw [readMarked, hread, List.append_assoc]
  simp

theorem readHead_append {lines : List (List α)} (hne : cr ≠ lf)
    (hlines : ∀ line ∈ lines, line ≠ [] ∧ lf ∉ line) (rest : List α) :
    readHead cr lf (lines.flatMap (· ++ [cr, lf]) ++ cr :: lf :: rest) = some (lines, rest) := by
  induction lines with
  | nil =>
    have hread : readMarked cr lf ([] ++ cr :: lf :: rest) = some ([], rest) :=
      readMarked_append (by simp) hne rest
    unfold readHead
    simp only [List.nil_append] at hread ⊢
    split
    all_goals simp_all
  | cons line lines ih =>
    obtain ⟨⟨hfirst, hlf⟩, hrest⟩ := List.forall_mem_cons.mp hlines
    have hread := readMarked_append hlf hne (lines.flatMap (· ++ [cr, lf]) ++ cr :: lf :: rest)
    have hcons : (line :: lines).flatMap (· ++ [cr, lf]) ++ cr :: lf :: rest =
        line ++ cr :: lf :: (lines.flatMap (· ++ [cr, lf]) ++ cr :: lf :: rest) := by simp
    rw [hcons, readHead]
    split
    all_goals simp_all

end Heads

end VarahaCache.Lib
