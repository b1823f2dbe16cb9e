import Mathlib

/-!
# Procedures that call each other

A piece of program is a tree: it returns, or it calls a procedure in some
state and goes on with what that returns. The bodies of procedures are such
trees.

- A procedure returns EXACTLY when no chain of calls inside calls goes on for
  ever (`returns_iff_acc`).
- `Sat` has the rules of pre- and postconditions, and `exec_sat` the one for
  procedures that may call each other.
-/

namespace VarahaCache.Lib

open Option

inductive Calls (N σ R : Type)
  | ret (r : R)
  | call (n : N) (s : σ) (k : R → Calls N σ R)

namespace Calls

variable {N σ R : Type}

def bind : Calls N σ R → (R → Calls N σ R) → Calls N σ R
  | .ret r, f => f r
  | .call n s k, f => .call n s fun r => (k r).bind f

/-- Run with an answer to each call; a call that is not answered stops it. -/
def runWith (answer : N → σ → Option R) : Calls N σ R → Option R
  | .ret r => some r
  | .call n s k => (answer n s).bind fun r => (k r).runWith answer

/-- Run a procedure, with calls nested less than `depth` deep. -/
def exec (body : N → σ → Calls N σ R) : ℕ → N → σ → Option R
  | 0, _, _ => none
  | depth + 1, n, s => (body n s).runWith (exec body depth)

variable {body : N → σ → Calls N σ R} {answer answer' : N → σ → Option R} {t : Calls N σ R}
  {n n' : N} {s s' : σ} {r r' : R} {d e : ℕ}

/-! ## Depth -/

theorem runWith_mono (hanswer : ∀ n s r, answer n s = some r → answer' n s = some r)
    (h : t.runWith answer = some r) : t.runWith answer' = some r := by
  induction t with
  | ret _ => exact h
  | call n s k ih =>
    obtain ⟨first, hfirst, hrest⟩ := bind_eq_some_iff.mp h
    exact bind_eq_some_iff.mpr ⟨first, hanswer n s first hfirst, ih first hrest⟩

theorem exec_succ (h : exec body d n s = some r) : exec body (d + 1) n s = some r := by
  induction d generalizing n s r with
  | zero => cases h
  | succ d ih => exact runWith_mono (fun _ _ _ => ih) h

theorem exec_mono (h : exec body d n s = some r) (hle : d ≤ e) : exec body e n s = some r := by
  induction hle with
  | refl => exact h
  | step _ ih => exact exec_succ ih

def Returns (body : N → σ → Calls N σ R) (n : N) (s : σ) (r : R) : Prop :=
  ∃ depth, exec body depth n s = some r

theorem Returns.unique (h : Returns body n s r) (h' : Returns body n s r') : r = r' := by
  obtain ⟨d, hd⟩ := h
  obtain ⟨e, he⟩ := h'
  have hmax := exec_mono hd (Nat.le_max_left d e)
  rw [exec_mono he (Nat.le_max_right d e)] at hmax
  exact (some.inj hmax).symm

/-! ## Chains of calls -/

/-- Running the tree, this call is made: the calls before it have returned. -/
inductive Reaches (body : N → σ → Calls N σ R) : Calls N σ R → N → σ → Prop
  | here {n : N} {s : σ} {k : R → Calls N σ R} : Reaches body (.call n s k) n s
  | later {n n' : N} {s s' : σ} {k : R → Calls N σ R} {r : R} (h : Returns body n s r)
      (hr : Reaches body (k r) n' s') : Reaches body (.call n s k) n' s'

/-- The first call is made inside the second. -/
def Nests (body : N → σ → Calls N σ R) (inner outer : N × σ) : Prop :=
  Reaches body (body outer.1 outer.2) inner.1 inner.2

/-- The calls of a run that returned have returned, and nested less deep. -/
theorem Reaches.exec_eq_some (hreaches : Reaches body t n' s')
    (h : t.runWith (exec body d) = some r) : ∃ r', exec body d n' s' = some r' := by
  induction hreaches with
  | here =>
    obtain ⟨first, hfirst, _⟩ := bind_eq_some_iff.mp h
    exact ⟨first, hfirst⟩
  | later hreturns _ ih =>
    obtain ⟨first, hfirst, hrest⟩ := bind_eq_some_iff.mp h
    obtain rfl := hreturns.unique ⟨d, hfirst⟩
    exact ih hrest

theorem acc_of_exec (h : exec body d n s = some r) : Acc (Nests body) (n, s) := by
  induction d generalizing n s r with
  | zero => cases h
  | succ d ih =>
    refine Acc.intro _ ?_
    rintro ⟨n', s'⟩ hnests
    obtain ⟨r', hr'⟩ := Reaches.exec_eq_some hnests h
    exact ih hr'

theorem exists_runWith (h : ∀ n s, Reaches body t n s → ∃ r, Returns body n s r) :
    ∃ d r, t.runWith (exec body d) = some r := by
  induction t with
  | ret r => exact ⟨0, r, rfl⟩
  | call n s k ih =>
    obtain ⟨first, hfirst⟩ := h n s .here
    obtain ⟨d, r, hrest⟩ := ih first fun _ _ hreaches => h _ _ (.later hfirst hreaches)
    obtain ⟨e, hexec⟩ := hfirst
    refine ⟨max d e, r, bind_eq_some_iff.mpr ⟨first, ?_, ?_⟩⟩
    · exact exec_mono hexec (Nat.le_max_right d e)
    · exact runWith_mono (fun _ _ _ hd => exec_mono hd (Nat.le_max_left d e)) hrest

/-- A procedure returns EXACTLY when no chain of calls, each made inside
the one before, goes on for ever. -/
theorem returns_iff_acc : (∃ r, Returns body n s r) ↔ Acc (Nests body) (n, s) := by
  constructor
  · rintro ⟨r, d, hexec⟩
    exact acc_of_exec hexec
  intro hacc
  suffices h : ∀ a, Acc (Nests body) a → ∃ r, Returns body a.1 a.2 r from h _ hacc
  intro a ha
  induction ha with
  | intro a _ ih =>
    obtain ⟨d, r, hrun⟩ := exists_runWith fun n s hreaches => ih (n, s) hreaches
    exact ⟨r, d + 1, hrun⟩

theorem returns_iff_no_chain : (∃ r, Returns body n s r) ↔
    ¬ ∃ chain : ℕ → N × σ, chain 0 = (n, s) ∧ ∀ i, Nests body (chain (i + 1)) (chain i) := by
  rw [returns_iff_acc, ← not_iff_not, not_acc_iff_exists_descending_chain, not_not]

/-! ## Pre- and postconditions -/

/-- Every call in the tree meets its precondition, and if calls keep their
postconditions, what is returned passes. -/
inductive Sat (P : N → σ → Prop) (Q : N → σ → R → Prop) (post : R → Prop) : Calls N σ R → Prop
  | ret {r : R} (h : post r) : Sat P Q post (.ret r)
  | call {n : N} {s : σ} {k : R → Calls N σ R} (h : P n s)
      (hk : ∀ r, Q n s r → Sat P Q post (k r)) : Sat P Q post (.call n s k)

variable {P : N → σ → Prop} {Q : N → σ → R → Prop} {post mid : R → Prop}

theorem Sat.bind {f : R → Calls N σ R} (h : Sat P Q mid t)
    (hf : ∀ r, mid r → Sat P Q post (f r)) : Sat P Q post (t.bind f) := by
  induction h with
  | ret h => exact hf _ h
  | call h _ ih => exact .call h ih

theorem Sat.runWith (h : Sat P Q post t) (hanswer : ∀ n s r, P n s → answer n s = some r → Q n s r)
    (hrun : t.runWith answer = some r) : post r := by
  induction h with
  | ret h => exact some.inj hrun ▸ h
  | call h _ ih =>
    obtain ⟨first, hfirst, hrest⟩ := bind_eq_some_iff.mp hrun
    exact ih first (hanswer _ _ first h hfirst) hrest

/-- The rule for procedures: bodies that keep their conditions, given that
the calls do, keep them. -/
theorem exec_sat (hbody : ∀ n s, P n s → Sat P Q (Q n s) (body n s)) (hP : P n s)
    (h : exec body d n s = some r) : Q n s r := by
  induction d generalizing n s r with
  | zero => cases h
  | succ d ih => exact (hbody n s hP).runWith (fun _ _ _ => ih) h

theorem Sat.exists_runWith (h : Sat P Q post t) (hQ : ∀ n s r, Q n s r)
    (hanswer : ∀ n s, P n s → ∃ r, answer n s = some r) : ∃ r, t.runWith answer = some r := by
  induction h with
  | ret => exact ⟨_, rfl⟩
  | call h _ ih =>
    obtain ⟨first, hfirst⟩ := hanswer _ _ h
    obtain ⟨r, hrest⟩ := ih first (hQ _ _ _)
    exact ⟨r, bind_eq_some_iff.mpr ⟨first, hfirst, hrest⟩⟩

/-- Procedures that call only procedures of lower rank return. -/
theorem exec_of_rank (rank : N → ℕ) (hQ : ∀ n s r, Q n s r)
    (hrank : ∀ n s, ∃ post, Sat (fun n' _ => rank n' < rank n) Q post (body n s))
    (hd : rank n < d) : ∃ r, exec body d n s = some r := by
  induction d generalizing n s with
  | zero => omega
  | succ d ih =>
    obtain ⟨post, hsat⟩ := hrank n s
    exact hsat.exists_runWith hQ fun n' s' hlt => ih (by omega)

end Calls

end VarahaCache.Lib
