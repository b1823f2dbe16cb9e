import Mathlib

/-!
# Crit-bit trees

Binary tries that branch at the first bit in which the keys below a node
differ. Keys are read through `bit`, values carry their key. Under the
invariant `WF` a walk finds a stored key, and `insert` and `erase` change one
key and nothing else.
-/

namespace VarahaCache.CritBit

open List

inductive Tree (α : Type)
  | leaf (a : α)
  | node (pos : ℕ) (left right : Tree α)
deriving DecidableEq

namespace Tree

variable {K α : Type}

/-- The stored values, from left to right. -/
def leaves : Tree α → List α
  | leaf a => [a]
  | node _ left right => left.leaves ++ right.leaves

section

variable (bit : K → ℕ → Bool)

def walk (k : K) : Tree α → α
  | leaf a => a
  | node pos left right => if bit k pos = false then left.walk k else right.walk k

/-- Splice in a leaf at the bit `crit`: above the first node that branches
later, or at a leaf. -/
def insert (new : α) (crit : ℕ) (k : K) : Tree α → Tree α
  | node pos left right =>
    if crit < pos then
      if bit k crit = false then node crit (leaf new) (node pos left right)
      else node crit (node pos left right) (leaf new)
    else if bit k pos = false then node pos (left.insert new crit k) right
    else node pos left (right.insert new crit k)
  | leaf a =>
    if bit k crit = false then node crit (leaf new) (leaf a)
    else node crit (leaf a) (leaf new)

variable [DecidableEq K] (key : α → K)

/-- Take out a key, with the value removed. The other side of a node that
loses a leaf takes its place; a side is never lost without a value
(`erase_ne`). -/
def erase (k : K) : Tree α → Option (Tree α) × Option α
  | leaf a => if key a = k then (none, some a) else (some (leaf a), none)
  | node pos left right =>
    if bit k pos = false then
      match left.erase k with
      | (some left, removed) => (some (node pos left right), removed)
      | (none, some a) => (some right, some a)
      | (none, none) => (none, none)
    else
      match right.erase k with
      | (some right, removed) => (some (node pos left right), removed)
      | (none, some a) => (some left, some a)
      | (none, none) => (none, none)

/-- The value stored under a key, as a walk finds it. -/
def find (k : K) (t : Tree α) : Option α :=
  if key (t.walk bit k) = k then some (t.walk bit k) else none

end

/-! ## The invariant -/

/-- The keys below a node agree before its bit and are on the side it says. -/
inductive WF (bit : K → ℕ → Bool) (key : α → K) : Tree α → Prop
  | leaf (a : α) : WF bit key (leaf a)
  | node {pos : ℕ} {left right : Tree α} (hleft : WF bit key left) (hright : WF bit key right)
      (hzero : ∀ a ∈ left.leaves, bit (key a) pos = false)
      (hone : ∀ a ∈ right.leaves, bit (key a) pos = true)
      (hagree : ∀ a ∈ left.leaves ++ right.leaves, ∀ b ∈ left.leaves ++ right.leaves,
        ∀ q < pos, bit (key a) q = bit (key b) q) : WF bit key (node pos left right)

/-- Positions increase strictly on every way down, from `lo` on. -/
def Ascending : ℕ → Tree α → Prop
  | _, leaf _ => True
  | lo, node pos left right => lo ≤ pos ∧ left.Ascending (pos + 1) ∧ right.Ascending (pos + 1)

/-- Every leaf below a node has the bit of its side. -/
def Sided (bit : K → ℕ → Bool) (key : α → K) : Tree α → Prop
  | leaf _ => True
  | node pos left right =>
    (∀ a ∈ left.leaves, bit (key a) pos = false) ∧ (∀ a ∈ right.leaves, bit (key a) pos = true) ∧
      left.Sided bit key ∧ right.Sided bit key

variable {bit : K → ℕ → Bool} {key : α → K} {t : Tree α} {a new : α} {crit : ℕ}

theorem leaves_ne_nil (t : Tree α) : t.leaves ≠ [] := by
  induction t with
  | leaf a => simp [leaves]
  | node pos left right ihl _ => simp [leaves, ihl]

theorem WF.sided (h : WF bit key t) : t.Sided bit key := by
  induction h with
  | leaf a => trivial
  | node _ _ hzero hone _ ihl ihr => exact ⟨hzero, hone, ihl, ihr⟩

theorem WF.le_pos {pos lo : ℕ} {left right : Tree α} (h : WF bit key (Tree.node pos left right))
    (hagree : ∀ a ∈ left.leaves ++ right.leaves, ∀ b ∈ left.leaves ++ right.leaves,
      ∀ q < lo, bit (key a) q = bit (key b) q) : lo ≤ pos := by
  cases h with
  | node _ _ hzero hone _ =>
    by_contra hlt
    obtain ⟨a, ha⟩ := exists_mem_of_ne_nil _ left.leaves_ne_nil
    obtain ⟨b, hb⟩ := exists_mem_of_ne_nil _ right.leaves_ne_nil
    have hsame := hagree a (mem_append_left _ ha) b (mem_append_right _ hb) pos (Nat.not_le.mp hlt)
    rw [hzero a ha, hone b hb] at hsame
    cases hsame

theorem WF.ascending_of_agree (h : WF bit key t) {lo : ℕ}
    (hagree : ∀ a ∈ t.leaves, ∀ b ∈ t.leaves, ∀ q < lo, bit (key a) q = bit (key b) q) :
    t.Ascending lo := by
  induction h generalizing lo with
  | leaf a => trivial
  | @node pos left right hleft hright hzero hone hbefore ihl ihr =>
    refine ⟨(WF.node hleft hright hzero hone hbefore).le_pos hagree, ihl ?_, ihr ?_⟩
    · intro a ha b hb q hq
      rcases Nat.lt_or_eq_of_le (Nat.le_of_lt_succ hq) with hq | rfl
      · exact hbefore a (mem_append_left _ ha) b (mem_append_left _ hb) q hq
      · rw [hzero a ha, hzero b hb]
    intro a ha b hb q hq
    rcases Nat.lt_or_eq_of_le (Nat.le_of_lt_succ hq) with hq | rfl
    · exact hbefore a (mem_append_right _ ha) b (mem_append_right _ hb) q hq
    · rw [hone a ha, hone b hb]

theorem WF.ascending (h : WF bit key t) : t.Ascending 0 :=
  h.ascending_of_agree fun _ _ _ _ q hq => absurd hq (Nat.not_lt_zero q)

/-! ## Walks -/

theorem walk_mem (k : K) (t : Tree α) : t.walk bit k ∈ t.leaves := by
  induction t with
  | leaf a => simp [walk, leaves]
  | node pos left right ihl ihr =>
    rw [walk, leaves, mem_append]
    split
    · exact .inl ihl
    · exact .inr ihr

theorem WF.walk_key (h : WF bit key t) (ha : a ∈ t.leaves) : t.walk bit (key a) = a := by
  induction h with
  | leaf b => exact (mem_singleton.mp ha).symm
  | node _ _ hzero hone _ ihl ihr =>
    rw [walk]
    rcases mem_append.mp ha with ha | ha
    · rw [if_pos (hzero a ha), ihl ha]
    · rw [if_neg (by rw [hone a ha]; decide), ihr ha]

/-! ## Inserting -/

theorem mem_leaves_insert (new : α) (crit : ℕ) (k : K) (t : Tree α) :
    a ∈ (t.insert bit new crit k).leaves ↔ a = new ∨ a ∈ t.leaves := by
  induction t with
  | leaf b =>
    rw [insert]
    split <;> simp [leaves, or_comm]
  | node pos left right ihl ihr =>
    rw [insert]
    split
    · split
      · simp [leaves]
      · simp only [leaves, mem_append, mem_singleton]
        exact or_comm
    split
    · simp only [leaves, mem_append, ihl]
      exact or_assoc
    · simp only [leaves, mem_append, ihr]
      exact or_left_comm

theorem agree_with_new {l : List α} {n : ℕ}
    (hkeep : ∀ a ∈ l, ∀ q < n, bit (key a) q = bit (key new) q) :
    ∀ a, a = new ∨ a ∈ l → ∀ b, b = new ∨ b ∈ l → ∀ q < n, bit (key a) q = bit (key b) q := by
  have hnew : ∀ a, a = new ∨ a ∈ l → ∀ q < n, bit (key a) q = bit (key new) q := by
    rintro a (rfl | ha) q hq
    · rfl
    · exact hkeep a ha q hq
  intro a ha b hb q hq
  rw [hnew a ha q hq, hnew b hb q hq]

/-- A new leaf beside a tree all of whose keys differ from it at `crit`
first. -/
theorem WF.join (h : WF bit key t) (hdiff : ∀ a ∈ t.leaves, bit (key a) crit = !bit (key new) crit)
    (hbefore : ∀ a ∈ t.leaves, ∀ q < crit, bit (key a) q = bit (key new) q) :
    WF bit key (if bit (key new) crit = false then Tree.node crit (Tree.leaf new) t
      else Tree.node crit t (Tree.leaf new)) := by
  have hagree := agree_with_new hbefore
  split
  · rename_i hzero
    refine .node (.leaf new) h ?_ ?_ ?_
    · intro a ha
      rw [mem_singleton.mp ha, hzero]
    · intro a ha
      rw [hdiff a ha, hzero, Bool.not_false]
    · intro a ha b hb
      exact hagree a (by simpa [leaves] using ha) b (by simpa [leaves] using hb)
  rename_i hone
  rw [Bool.not_eq_false] at hone
  refine .node h (.leaf new) ?_ ?_ ?_
  · intro a ha
    rw [hdiff a ha, hone, Bool.not_true]
  · intro a ha
    rw [mem_singleton.mp ha, hone]
  · intro a ha b hb
    exact hagree a (by simpa [leaves, or_comm] using ha) b (by simpa [leaves, or_comm] using hb)

/-- Inserting at the first bit in which the new key differs from the leaf
its walk ends in keeps the invariant. -/
theorem WF.insert (h : WF bit key t)
    (hdiff : bit (key (t.walk bit (key new))) crit = !bit (key new) crit)
    (hbefore : ∀ q < crit, bit (key (t.walk bit (key new))) q = bit (key new) q) :
    WF bit key (t.insert bit new crit (key new)) := by
  induction h with
  | leaf a =>
    have hleaf : WF bit key (Tree.leaf a) := .leaf a
    exact hleaf.join (by simpa [leaves, walk] using hdiff) (by simpa [leaves, walk] using hbefore)
  | @node pos left right hleft hright hzero hone hagree ihl ihr =>
    have hmem : (Tree.node pos left right).walk bit (key new) ∈ left.leaves ++ right.leaves :=
      walk_mem (key new) (Tree.node pos left right)
    rw [Tree.insert]
    split
    · -- all keys below agree with the leaf found before `pos`, at `crit` too
      rename_i hlt
      refine (WF.node hleft hright hzero hone hagree).join ?_ ?_
      · intro a ha
        rw [hagree a ha _ hmem crit hlt, hdiff]
      · intro a ha q hq
        rw [hagree a ha _ hmem q (hq.trans hlt), hbefore q hq]
    rename_i hge
    -- the leaf found is on the new key's side of this node
    have hside : bit (key ((Tree.node pos left right).walk bit (key new))) pos =
        bit (key new) pos := by
      rw [walk]
      split
      · rename_i hbit
        rw [hzero _ (walk_mem (key new) left), hbit]
      · rename_i hbit
        rw [hone _ (walk_mem (key new) right), Bool.not_eq_false _ |>.mp hbit]
    have hlt : pos < crit := by
      refine lt_of_le_of_ne (Nat.not_lt.mp hge) ?_
      rintro rfl
      rw [hside] at hdiff
      exact (Bool.eq_not_self _).mp hdiff
    have hkeep : ∀ a ∈ left.leaves ++ right.leaves, ∀ q < pos,
        bit (key a) q = bit (key new) q := by
      intro a ha q hq
      rw [hagree a ha _ hmem q hq, hbefore q (hq.trans hlt)]
    have hall := agree_with_new hkeep
    split
    · rename_i hbit
      rw [walk, if_pos hbit] at hdiff
      refine .node (ihl hdiff fun q hq => ?_) hright ?_ hone ?_
      · have hq := hbefore q hq
        rwa [walk, if_pos hbit] at hq
      · intro a ha
        rcases (mem_leaves_insert new crit (key new) left).mp ha with rfl | ha
        · exact hbit
        · exact hzero a ha
      · intro a ha b hb
        refine hall a ?_ b ?_
        · simpa [mem_leaves_insert, or_assoc] using ha
        · simpa [mem_leaves_insert, or_assoc] using hb
    rename_i hbit
    rw [walk, if_neg hbit] at hdiff
    refine .node hleft (ihr hdiff fun q hq => ?_) hzero ?_ ?_
    · have hq := hbefore q hq
      rwa [walk, if_neg hbit] at hq
    · intro a ha
      rcases (mem_leaves_insert new crit (key new) right).mp ha with rfl | ha
      · exact Bool.not_eq_false _ |>.mp hbit
      · exact hone a ha
    · intro a ha b hb
      refine hall a ?_ b ?_
      · simpa [mem_leaves_insert, or_left_comm] using ha
      · simpa [mem_leaves_insert, or_left_comm] using hb

/-! ## Finding and erasing -/

variable [DecidableEq K]

theorem WF.find_eq_some (h : WF bit key t) {k : K} :
    t.find bit key k = some a ↔ a ∈ t.leaves ∧ key a = k := by
  unfold find
  constructor
  · intro hfind
    split at hfind
    · rename_i hkey
      cases hfind
      exact ⟨walk_mem k t, hkey⟩
    · cases hfind
  · rintro ⟨ha, rfl⟩
    rw [h.walk_key ha, if_pos rfl]

def stored (t : Option (Tree α)) : List α := t.elim [] leaves

theorem find_node (pos : ℕ) (left right : Tree α) (k : K) :
    (node pos left right).find bit key k =
      if bit k pos = false then left.find bit key k else right.find bit key k := by
  unfold find
  rw [walk]
  split <;> rfl

theorem erase_ne (t : Tree α) (k : K) : t.erase bit key k ≠ (none, none) := by
  induction t with
  | leaf a =>
    rw [erase]
    split <;> simp
  | node pos left right ihl ihr =>
    rw [erase]
    split
    · split <;> simp_all
    · split <;> simp_all

omit [DecidableEq K] in
theorem WF.shrink {pos : ℕ} {left right left' right' : Tree α}
    (h : WF bit key (Tree.node pos left right)) (hleft : WF bit key left')
    (hright : WF bit key right') (hsubl : ∀ a ∈ left'.leaves, a ∈ left.leaves)
    (hsubr : ∀ a ∈ right'.leaves, a ∈ right.leaves) : WF bit key (Tree.node pos left' right') := by
  cases h with
  | node _ _ hzero hone hagree =>
    have hsub : ∀ a ∈ left'.leaves ++ right'.leaves, a ∈ left.leaves ++ right.leaves := by
      intro a ha
      exact mem_append.mpr ((mem_append.mp ha).imp (hsubl a) (hsubr a))
    exact .node hleft hright (fun a ha => hzero a (hsubl a ha)) (fun a ha => hone a (hsubr a ha))
      fun a ha b hb => hagree a (hsub a ha) b (hsub b hb)

/-- Erasing takes out the value of a key and nothing else, and keeps the
invariant. -/
theorem WF.erase (h : WF bit key t) (k : K) :
    (t.erase bit key k).2 = t.find bit key k ∧
      (∀ t', (t.erase bit key k).1 = some t' → WF bit key t') ∧
      ∀ a, a ∈ stored (t.erase bit key k).1 ↔ a ∈ t.leaves ∧ key a ≠ k := by
  induction h with
  | leaf a =>
    rw [Tree.erase, find, walk]
    by_cases hkey : key a = k
    · simp [hkey, stored, leaves]
    · simp [hkey, stored, leaves, WF.leaf]
  | @node pos left right hleft hright hzero hone hagree ihl ihr =>
    have hnode := WF.node hleft hright hzero hone hagree
    rw [Tree.erase, find_node]
    by_cases hbit : bit k pos = false
    · -- the key is not on the right
      have hother : ∀ a ∈ right.leaves, key a ≠ k := by
        rintro a ha rfl
        rw [hone a ha] at hbit
        cases hbit
      rw [if_pos hbit, if_pos hbit]
      obtain ⟨hremoved, hwf, hstored⟩ := ihl
      rcases herase : left.erase bit key k with ⟨_ | left', removed⟩
      · cases removed with
        | none => exact absurd herase (left.erase_ne k)
        | some a =>
          rw [herase] at hremoved hstored
          refine ⟨hremoved, by rintro t' ⟨⟩; exact hright, fun b => ?_⟩
          rw [leaves, mem_append, or_and_right, ← hstored, and_iff_left_of_imp (hother b)]
          exact (or_iff_right not_mem_nil).symm
      rw [herase] at hremoved hstored hwf
      have hsub : ∀ a ∈ left'.leaves, a ∈ left.leaves := fun a ha => ((hstored a).mp ha).1
      refine ⟨hremoved, ?_, fun a => ?_⟩
      · rintro t' ⟨⟩
        exact hnode.shrink (hwf _ rfl) hright hsub fun a ha => ha
      · rw [leaves, mem_append, or_and_right, ← hstored, and_iff_left_of_imp (hother a)]
        exact mem_append
    · -- the key is not on the left
      have hother : ∀ a ∈ left.leaves, key a ≠ k := by
        rintro a ha rfl
        exact hbit (hzero a ha)
      rw [if_neg hbit, if_neg hbit]
      obtain ⟨hremoved, hwf, hstored⟩ := ihr
      rcases herase : right.erase bit key k with ⟨_ | right', removed⟩
      · cases removed with
        | none => exact absurd herase (right.erase_ne k)
        | some a =>
          rw [herase] at hremoved hstored
          refine ⟨hremoved, by rintro t' ⟨⟩; exact hleft, fun b => ?_⟩
          rw [leaves, mem_append, or_and_right, ← hstored, and_iff_left_of_imp (hother b)]
          exact (or_iff_left not_mem_nil).symm
      rw [herase] at hremoved hstored hwf
      have hsub : ∀ a ∈ right'.leaves, a ∈ right.leaves := fun a ha => ((hstored a).mp ha).1
      refine ⟨hremoved, ?_, fun a => ?_⟩
      · rintro t' ⟨⟩
        exact hnode.shrink hleft (hwf _ rfl) (fun a ha => ha) hsub
      · rw [leaves, mem_append, or_and_right, ← hstored, and_iff_left_of_imp (hother a)]
        exact mem_append

end Tree

end VarahaCache.CritBit
