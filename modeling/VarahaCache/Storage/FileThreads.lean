import VarahaCache.Storage.File

/-!
# Concurrent allocation in the file store

`bump_alloc` of `FileStevedore` run by any number of threads. A call loads the
bump pointer and then tries to exchange it until that succeeds or the file is
full; the other threads take their steps in between.
-/

namespace VarahaCache.FileStevedore

open Function Blocks

/-- What a call may ask for: rounding it up to the alignment does not wrap. -/
abbrev BumpLen := { len : ℕ // len ≤ 2 ^ 64 - 1 - 7 }

/-- A call in progress, with the bump pointer as it last saw it. -/
structure BumpCall where
  len : BumpLen
  current : ℕ

/-- The store, the call of each thread, and the regions returned so far,
newest first. -/
structure BumpThreads where
  store : FileStevedore
  calls : ℕ → Option BumpCall
  returned : List ByteRange

inductive BumpStep
  | load (thread : ℕ) (len : BumpLen)
  | exchange (thread : ℕ) (spurious : Bool)

namespace BumpThreads

def new (size : ℕ) : BumpThreads := ⟨⟨size, fun _ => 0, 0, fun _ => none⟩, fun _ => none, []⟩

/-- One round of the loop: what the call saw is increased as `bumpAlloc` does,
and exchanged if it is still there; `compare_exchange_weak` may fail all the
same. -/
def exchange (s : BumpThreads) (thread : ℕ) (call : BumpCall) (spurious : Bool) : BumpThreads :=
  match { s.store with bump := call.current }.bumpAlloc call.len with
  | none => { s with calls := update s.calls thread none }
  | some (offset, store) =>
    if s.store.bump = call.current ∧ spurious = false then
      ⟨store, update s.calls thread none, ⟨offset, call.len⟩ :: s.returned⟩
    else { s with calls := update s.calls thread (some { call with current := s.store.bump }) }

def step (s : BumpThreads) : BumpStep → BumpThreads
  | .load thread len =>
    match s.calls thread with
    | none => { s with calls := update s.calls thread (some ⟨len, s.store.bump⟩) }
    | some _ => s
  | .exchange thread spurious =>
    match s.calls thread with
    | none => s
    | some call => s.exchange thread call spurious

def run (size : ℕ) (steps : List BumpStep) : BumpThreads := steps.foldl step (new size)

end BumpThreads

/-- The regions returned lie in the used part of the file, on multiples of
eight, and no two of them meet. -/
structure BumpThreads.Inv (s : BumpThreads) : Prop where
  bump : s.store.bump ≤ s.store.size
  aligned : 8 ∣ s.store.bump
  inside : ∀ r ∈ s.returned, 8 ∣ r.start ∧ r.start + r.len ≤ s.store.bump
  apart : s.returned.Pairwise (Apart ByteRange.start ByteRange.len)

theorem bumpAlloc_spec {s t : FileStevedore} {offset : ℕ} (len : BumpLen)
    (h : s.bumpAlloc len = some (offset, t)) :
    offset = s.bump ∧ t.size = s.size ∧ t.bump ≤ s.size ∧ s.bump + len ≤ t.bump ∧
      (8 ∣ s.bump → 8 ∣ t.bump) := by
  have hlen : (len : ℕ) + 7 < 2 ^ 64 := by
    have := len.property
    omega
  rw [bumpAlloc, alignUp_eq hlen] at h
  simp only [Option.ite_none_left_eq_some, Option.some.injEq, Prod.mk.injEq] at h
  obtain ⟨-, hfits, rfl, rfl⟩ := h
  refine ⟨rfl, rfl, Nat.not_lt.mp hfits, ?_, fun h => Nat.dvd_add h (Nat.dvd_mul_left ..)⟩
  dsimp only
  omega

namespace BumpThreads

variable {s : BumpThreads}

/-- What a step does to what the threads share: nothing, or a region is cut
off the unused part. A stale value is never written. -/
theorem step_cases (s : BumpThreads) (e : BumpStep) :
    ((s.step e).store = s.store ∧ (s.step e).returned = s.returned) ∨
      ∃ len : BumpLen, s.store.bumpAlloc len = some (s.store.bump, (s.step e).store) ∧
        (s.step e).returned = ⟨s.store.bump, len⟩ :: s.returned := by
  cases e with
  | load thread len =>
    left
    rw [step]
    split <;> exact ⟨rfl, rfl⟩
  | exchange thread spurious =>
    rw [step]
    cases hcall : s.calls thread with
    | none => exact .inl ⟨rfl, rfl⟩
    | some call =>
      dsimp only
      rw [exchange]
      cases halloc : { s.store with bump := call.current }.bumpAlloc call.len with
      | none => exact .inl ⟨rfl, rfl⟩
      | some r =>
        obtain ⟨offset, store⟩ := r
        dsimp only
        split
        · rename_i hsame
          have hoffset := (bumpAlloc_spec call.len halloc).1
          subst hoffset
          rw [← hsame.1] at halloc ⊢
          exact .inr ⟨call.len, halloc, rfl⟩
        · exact .inl ⟨rfl, rfl⟩

theorem Inv.step (h : s.Inv) (e : BumpStep) :
    (s.step e).Inv ∧ (s.step e).store.size = s.store.size ∧
      s.store.bump ≤ (s.step e).store.bump := by
  rcases s.step_cases e with ⟨hstore, hreturned⟩ | ⟨len, halloc, hreturned⟩
  · refine ⟨⟨?_, ?_, ?_, ?_⟩, by rw [hstore], by rw [hstore]⟩
    · rw [hstore]; exact h.bump
    · rw [hstore]; exact h.aligned
    · rw [hstore, hreturned]; exact h.inside
    · rw [hreturned]; exact h.apart
  obtain ⟨-, hsize, hbump, hend, haligned⟩ := bumpAlloc_spec len halloc
  refine ⟨⟨hsize ▸ hbump, haligned h.aligned, ?_, ?_⟩, hsize, by omega⟩
  · rw [hreturned, List.forall_mem_cons]
    exact ⟨⟨h.aligned, hend⟩, fun r hr => ⟨(h.inside r hr).1, by have := (h.inside r hr).2; omega⟩⟩
  -- the others end where this one starts, or before
  rw [hreturned, List.pairwise_cons]
  exact ⟨fun r hr => .inr (h.inside r hr).2, h.apart⟩

theorem Inv.run (h : s.Inv) (steps : List BumpStep) :
    (steps.foldl BumpThreads.step s).Inv ∧
      (steps.foldl BumpThreads.step s).store.size = s.store.size ∧
      s.store.bump ≤ (steps.foldl BumpThreads.step s).store.bump := by
  induction steps generalizing s with
  | nil => exact ⟨h, rfl, Nat.le_refl _⟩
  | cons e steps ih =>
    obtain ⟨hinv, hsize, hbump⟩ := h.step e
    obtain ⟨hinv', hsize', hbump'⟩ := ih hinv
    exact ⟨hinv', hsize'.trans hsize, hbump.trans hbump'⟩

theorem inv_new (size : ℕ) : (new size).Inv :=
  ⟨Nat.zero_le _, Nat.dvd_zero _, by simp [new], .nil⟩

/-- **Allocations are disjoint under every interleaving**: whatever the
threads do and whatever exchange fails, no two regions returned meet, each
starts on a multiple of eight and ends inside the file, and the bump pointer
neither falls nor passes the end. -/
theorem bump_regions_disjoint (size : ℕ) (steps later : List BumpStep) :
    (run size steps).returned.Pairwise (Apart ByteRange.start ByteRange.len) ∧
      (∀ r ∈ (run size steps).returned, 8 ∣ r.start ∧ r.start + r.len ≤ size) ∧
      (run size steps).store.bump ≤ size ∧
      (run size steps).store.bump ≤ (run size (steps ++ later)).store.bump := by
  obtain ⟨hinv, hsize, -⟩ := (inv_new size).run steps
  have hbump : (run size steps).store.bump ≤ size := hinv.bump.trans_eq hsize
  refine ⟨hinv.apart, fun r hr => ?_, hbump, ?_⟩
  · obtain ⟨haligned, hend⟩ := hinv.inside r hr
    exact ⟨haligned, hend.trans hbump⟩
  · rw [run, run, List.foldl_append]
    exact (hinv.run later).2.2

end BumpThreads

end VarahaCache.FileStevedore
