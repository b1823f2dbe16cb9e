import Mathlib

/-!
# Blocks of bytes

A memory of bytes with reads, writes and moves of whole blocks, and blocks
that lie apart from one another. A move may overlap: it is what a copy
through a buffer gives.
-/

namespace VarahaCache.Blocks

variable {β : Type}

/-! ## Memory -/

/-- The bytes from `start` on, `len` of them. -/
def read (m : ℕ → β) (start len : ℕ) : List β := (List.range len).map fun k => m (start + k)

def write (m : ℕ → β) (start : ℕ) (bytes : List β) : ℕ → β := fun a =>
  if a < start then m a else (bytes[a - start]?).getD (m a)

/-- Copy `len` bytes, as if through a buffer. -/
def move (m : ℕ → β) (src dst len : ℕ) : ℕ → β := write m dst (read m src len)

variable {m m' : ℕ → β} {start len : ℕ} {bytes : List β}

@[simp] theorem length_read : (read m start len).length = len := by simp [read]

theorem read_congr (h : ∀ a, start ≤ a → a < start + len → m' a = m a) :
    read m' start len = read m start len := by
  refine List.map_congr_left fun k hk => ?_
  rw [List.mem_range] at hk
  exact h (start + k) (by omega) (by omega)

theorem read_append (m : ℕ → β) (start n len : ℕ) :
    read m start (n + len) = read m start n ++ read m (start + n) len := by
  rw [read, read, read, List.range_add, List.map_append, List.map_map]
  simp only [Function.comp_def, Nat.add_assoc]

theorem write_of_outside {a : ℕ} (h : a < start ∨ start + bytes.length ≤ a) :
    write m start bytes a = m a := by
  rw [write]
  split
  · rfl
  · rw [List.getElem?_eq_none (by omega)]
    rfl

theorem read_write_of_apart {place : ℕ} (h : start + len ≤ place ∨ place + bytes.length ≤ start) :
    read (write m place bytes) start len = read m start len := by
  refine read_congr fun a hlow hhigh => ?_
  exact write_of_outside (by omega)

theorem read_write_self : read (write m start bytes) start bytes.length = bytes := by
  refine List.ext_getElem? fun k => ?_
  by_cases hk : k < bytes.length
  · simp [read, write, hk]
  · rw [List.getElem?_eq_none (by simpa using hk), List.getElem?_eq_none (by omega)]

theorem read_move_self (src dst : ℕ) : read (move m src dst len) dst len = read m src len := by
  have h : read (move m src dst len) dst (read m src len).length = read m src len := read_write_self
  rwa [length_read] at h

theorem read_move_of_apart {src dst n : ℕ} (h : start + len ≤ dst ∨ dst + n ≤ start) :
    read (move m src dst n) start len = read m start len :=
  read_write_of_apart (by simpa using h)

/-! ## Blocks apart -/

section Apart

variable {α : Type} (start len : α → ℕ)

/-- One ends before the other starts. -/
def Apart (a b : α) : Prop := start a + len a ≤ start b ∨ start b + len b ≤ start a

variable {start len}

theorem Apart.symm {a b : α} (h : Apart start len a b) : Apart start len b a := h.elim .inr .inl

def cover (start len : α → ℕ) : List α → Finset ℕ
  | [] => ∅
  | a :: l => Finset.Ico (start a) (start a + len a) ∪ cover start len l

variable {l : List α}

theorem mem_cover {x : ℕ} : x ∈ cover start len l ↔ ∃ a ∈ l, start a ≤ x ∧ x < start a + len a := by
  induction l with
  | nil => simp [cover]
  | cons a l ih => simp [cover, ih]

theorem card_cover (h : l.Pairwise (Apart start len)) :
    (cover start len l).card = (l.map len).sum := by
  induction l with
  | nil => rfl
  | cons a l ih =>
    obtain ⟨hfirst, hrest⟩ := List.pairwise_cons.mp h
    have hdisj : Disjoint (Finset.Ico (start a) (start a + len a)) (cover start len l) := by
      rw [Finset.disjoint_left]
      intro x hx hmem
      obtain ⟨b, hb, hlow, hhigh⟩ := mem_cover.mp hmem
      rw [Finset.mem_Ico] at hx
      rcases hfirst b hb with hab | hba <;> omega
    rw [cover, Finset.card_union_of_disjoint hdisj, ih hrest, Nat.card_Ico, List.map_cons,
      List.sum_cons, Nat.add_sub_cancel_left]

theorem sum_len_le {low high : ℕ} (h : l.Pairwise (Apart start len))
    (hinside : ∀ a ∈ l, low ≤ start a ∧ start a + len a ≤ high) : (l.map len).sum ≤ high - low := by
  rw [← card_cover h, ← Nat.card_Ico]
  refine Finset.card_le_card fun x hx => ?_
  obtain ⟨a, ha, hlow, hhigh⟩ := mem_cover.mp hx
  have := hinside a ha
  rw [Finset.mem_Ico]
  omega

theorem le_start_of_ordered (hsorted : l.Pairwise fun a b => start a ≤ start b)
    (hapart : l.Pairwise (Apart start len)) (hpos : ∀ a ∈ l, 0 < len a) :
    l.Pairwise fun a b => start a + len a ≤ start b := by
  refine List.Pairwise.imp_of_mem ?_ (hsorted.and hapart)
  rintro a b ha hb ⟨hle, hab | hba⟩
  · exact hab
  · have := hpos b hb
    omega

end Apart

end VarahaCache.Blocks
