import Mathlib

/-!
# Machines: recorded runs, terminating loops, rounds

Three small kits, over arbitrary types. `record` runs a machine that answers
one labelled input at a time and keeps the log; `record_induction` is its
invariant rule, `guarded_induction` the one for runs whose steps all meet a
condition. The loop kit: a ranking that falls at every step before the end
gives termination AND the bound. The last kit cuts a sequence of steps into
rounds.
-/

namespace VarahaCache.Lib

section Record

variable {S L O : Type*} (step : S → L → O × S)

/-- Run the inputs one after another; the log pairs each with its answer. -/
def record : S → List L → List (L × O) × S
  | s, [] => ([], s)
  | s, l :: ls =>
    ((l, (step s l).1) :: (record (step s l).2 ls).1, (record (step s l).2 ls).2)

theorem record_append (s : S) (ls ms : List L) :
    record step s (ls ++ ms) = ((record step s ls).1 ++ (record step (record step s ls).2 ms).1,
        (record step (record step s ls).2 ms).2) := by
  induction ls generalizing s with
  | nil => simp [record]
  | cons l ls ih => simp [record, ih]

theorem record_concat (s : S) (ls : List L) (l : L) :
    record step s (ls ++ [l]) = ((record step s ls).1 ++ [(l, (step (record step s ls).2 l).1)],
        (step (record step s ls).2 l).2) := by
  rw [record_append]
  rfl

/-- The invariant rule: what holds of the empty log and is kept by one
more step holds after every run. -/
theorem record_induction {P : List L → List (L × O) → S → Prop} {s₀ : S} (init : P [] [] s₀)
    (next : ∀ ls log s l, P ls log s →
      P (ls ++ [l]) (log ++ [(l, (step s l).1)]) (step s l).2) (ls : List L) :
    P ls (record step s₀ ls).1 (record step s₀ ls).2 := by
  induction ls using List.reverseRecOn with
  | nil => exact init
  | append_singleton ls l ih =>
    rw [record_concat]
    exact next ls _ _ l ih

/-- Every input meets a condition on the state it comes to. -/
def Guarded (ok : S → L → Prop) : S → List L → Prop
  | _, [] => True
  | s, l :: ls => ok s l ∧ Guarded ok (step s l).2 ls

instance Guarded.decidable (ok : S → L → Prop) [∀ s l, Decidable (ok s l)] :
    ∀ (s : S) (ls : List L), Decidable (Guarded step ok s ls)
  | _, [] => .isTrue trivial
  | s, l :: ls =>
    haveI := Guarded.decidable ok (step s l).2 ls
    inferInstanceAs (Decidable (ok s l ∧ Guarded step ok (step s l).2 ls))

variable {ls : List L} {ok : S → L → Prop} {s : S} {P : S → Prop}

theorem guarded_induction (next : ∀ s l, P s → ok s l → P (step s l).2) (init : P s)
    (h : Guarded step ok s ls) : P (record step s ls).2 := by
  induction ls generalizing s with
  | nil => exact init
  | cons l ls ih => exact ih (next s l init h.1) h.2

/-- A condition that follows from another in the states of runs that meet
that. -/
theorem guarded_of_guarded {ok' : S → L → Prop}
    (imp : ∀ s l, P s → ok s l → ok' s l) (next : ∀ s l, P s → ok s l → P (step s l).2)
    (init : P s) (h : Guarded step ok s ls) : Guarded step ok' s ls := by
  induction ls generalizing s with
  | nil => exact trivial
  | cons l ls ih => exact ⟨imp s l init h.1, ih (next s l init h.1) h.2⟩

/-- Two conditions that are one in the states of runs that meet the second. -/
theorem guarded_iff_guarded {ok' : S → L → Prop}
    (same : ∀ s l, P s → (ok s l ↔ ok' s l)) (next : ∀ s l, P s → ok' s l → P (step s l).2)
    (init : P s) : Guarded step ok s ls ↔ Guarded step ok' s ls := by
  induction ls generalizing s with
  | nil => exact Iff.rfl
  | cons l ls ih =>
    constructor
    · intro h
      have hl := (same s l init).mp h.1
      exact ⟨hl, (ih (next s l init hl)).mp h.2⟩
    · intro h
      exact ⟨(same s l init).mpr h.1, (ih (next s l init h.1)).mpr h.2⟩

theorem guarded_concat_iff {l : L} :
    Guarded step ok s (ls ++ [l]) ↔ Guarded step ok s ls ∧ ok (record step s ls).2 l := by
  induction ls generalizing s with
  | nil => exact and_comm
  | cons m ls ih =>
    rw [List.cons_append, Guarded, Guarded, ih, and_assoc]
    rfl

theorem record_replicate {f : ℕ → S} {l : L} (hstep : ∀ n, (step (f n) l).2 = f (n + 1)) (n k : ℕ) :
    (record step (f n) (List.replicate k l)).2 = f (n + k) := by
  induction k generalizing n with
  | zero => rfl
  | succ k ih =>
    rw [List.replicate_succ, record, hstep, ih (n + 1), Nat.add_right_comm, Nat.add_assoc]

end Record

section Loop

variable {S : Type*} {step : S → S} {done : S → Prop}

/-- A ranking that falls at every unfinished step bounds the steps to the end.
-/
theorem exists_iterate_done (step : S → S) (done inv : S → Prop) (rank : S → Nat)
    (keep : ∀ s, inv s → inv (step s)) (fall : ∀ s, inv s → ¬ done s → rank (step s) < rank s) :
    ∀ s, inv s → ∃ n, n ≤ rank s ∧ done (step^[n] s) := by
  intro s
  induction hr : rank s using Nat.strongRecOn generalizing s with
  | ind r ih =>
    intro hs
    by_cases hd : done s
    · exact ⟨0, Nat.zero_le _, hd⟩
    have hlt : rank (step s) < r := hr ▸ fall s hs hd
    obtain ⟨n, hn, hdone⟩ := ih _ hlt (step s) rfl (keep s hs)
    exact ⟨n + 1, by omega, by rwa [Function.iterate_succ_apply]⟩

theorem iterate_of_done (fixed : ∀ s, done s → step s = s) {s : S} {n m : Nat}
    (hd : done (step^[n] s)) (hnm : n ≤ m) : step^[m] s = step^[n] s := by
  obtain ⟨k, rfl⟩ := Nat.exists_eq_add_of_le hnm
  rw [Nat.add_comm, Function.iterate_add_apply]
  exact Function.iterate_fixed (fixed _ hd) k

end Loop

section Rounds

variable {starts : ℕ → Prop} {m k n : ℕ}

/-- No start after step `m`, up to and including `n`. -/
def SameRound (starts : ℕ → Prop) (m n : ℕ) : Prop := m ≤ n ∧ ∀ k, m < k → k ≤ n → ¬ starts k

theorem SameRound.refl (n : ℕ) : SameRound starts n n :=
  ⟨le_rfl, fun _ h₁ h₂ => absurd h₁ (not_lt.mpr h₂)⟩

theorem SameRound.succ (h : SameRound starts m n) (hn : ¬ starts (n + 1)) :
    SameRound starts m (n + 1) := by
  refine ⟨Nat.le_succ_of_le h.1, fun k hk hle => ?_⟩
  rcases Nat.of_le_succ hle with hle | rfl
  · exact h.2 k hk hle
  · exact hn

theorem SameRound.of_le (h : SameRound starts m n) (hm : m ≤ k) (hk : k ≤ n) :
    SameRound starts m k :=
  ⟨hm, fun i hi hle => h.2 i hi (hle.trans hk)⟩

end Rounds

end VarahaCache.Lib
