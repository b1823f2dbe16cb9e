import VarahaCache.Lib.Machine
import VarahaCache.Lib.Words

/-!
# The round-robin director under concurrency

`RoundRobinDirector` of `rv-backend`. A call of `resolve` looks at as many
places as there are backends, each from a counter that all calls share. A scan
nobody disturbs comes to every backend; another may come to one sick backend
again and again.
-/

namespace VarahaCache.Backend

open Lib Words Function

inductive RoundRobinStep (T : Type*)
  | resolve (t : T)
  | draw (t : T)
deriving DecidableEq

/-- The shared counter, and how many places each thread's call may still look
at. -/
structure RoundRobinThreads (T : Type*) where
  /-- A `usize`. -/
  next : ℕ
  remaining : T → ℕ

namespace RoundRobinThreads

variable {T B : Type*}

/-- A new director; nobody is in a call. -/
def new : RoundRobinThreads T := ⟨0, fun _ => 0⟩

def healthy (isHealthy : B → Bool) (backends : List B) : Bool := backends.any isHealthy

section Step

variable [DecidableEq T] (isHealthy : B → Bool) (backends : List B)

/-- One step of a thread, with what its call returns if it is the last. -/
def step (s : RoundRobinThreads T) : RoundRobinStep T → Option (Option B) × RoundRobinThreads T
  | .resolve t =>
    if s.remaining t ≠ 0 then (none, s)
    else if backends.isEmpty then (some none, s)
    else (none, { s with remaining := update s.remaining t backends.length })
  | .draw t =>
    if s.remaining t = 0 then (none, s)
    else
      let next := wrappingAdd 64 s.next 1
      match backends[s.next % backends.length]? with
      | none => (none, s)
      | some backend =>
        if isHealthy backend then
          (some (some backend), ⟨next, update s.remaining t 0⟩)
        else
          (if s.remaining t = 1 then some none else none,
            ⟨next, update s.remaining t (s.remaining t - 1)⟩)

end Step

def belowWrap (s : RoundRobinThreads T) : RoundRobinStep T → Prop
  | .resolve _ => True
  | .draw _ => s.next + 1 < 2 ^ 64

/-- No other call is in the middle of its scan. -/
def StepOk (backends : List B) (s : RoundRobinThreads T) : RoundRobinStep T → Prop
  | .resolve _ => True
  | .draw t => ∀ t', t' ≠ t → s.remaining t' = 0 ∨ s.remaining t' = backends.length

instance belowWrap.decidable (s : RoundRobinThreads T) : ∀ l, Decidable (belowWrap s l)
  | .resolve _ => inferInstanceAs (Decidable True)
  | .draw _ => inferInstanceAs (Decidable (s.next + 1 < 2 ^ 64))

instance StepOk.decidable [Fintype T] [DecidableEq T] (backends : List B)
    (s : RoundRobinThreads T) : ∀ l, Decidable (StepOk backends s l)
  | .resolve _ => inferInstanceAs (Decidable True)
  | .draw t => inferInstanceAs (Decidable
      (∀ t', t' ≠ t → s.remaining t' = 0 ∨ s.remaining t' = backends.length))

/-! ## One scan -/

theorem exists_mod_eq {n i : ℕ} (hi : i < n) (m : ℕ) : ∃ p, m ≤ p ∧ p < m + n ∧ p % n = i := by
  have hm := Nat.div_add_mod m n
  have hlt := Nat.mod_lt m (Nat.zero_lt_of_lt hi)
  have hmod : ∀ q, (n * q + i) % n = i := fun q => by rw [Nat.mul_add_mod, Nat.mod_eq_of_lt hi]
  rcases le_or_gt (m % n) i with hle | hgt
  · exact ⟨n * (m / n) + i, by omega, by omega, hmod _⟩
  · refine ⟨n * (m / n + 1) + i, ?_, ?_, hmod _⟩ <;> rw [Nat.mul_succ] <;> omega

def SickAt (isHealthy : B → Bool) (backends : List B) (p : ℕ) : Prop :=
  ∀ backend, backends[p % backends.length]? = some backend → isHealthy backend = false

variable {isHealthy : B → Bool} {backends : List B} {remaining next : ℕ}

theorem healthy_eq_false_of_window {m : ℕ}
    (h : ∀ p, m ≤ p → p < m + backends.length → SickAt isHealthy backends p) :
    healthy isHealthy backends = false := by
  rw [healthy, List.any_eq_false]
  intro backend hmem
  obtain ⟨i, hi, heq⟩ := List.getElem_of_mem hmem
  obtain ⟨p, hle, hlt, hp⟩ := exists_mod_eq hi m
  rw [Bool.not_eq_true]
  refine h p hle hlt backend ?_
  rw [hp, List.getElem?_eq_getElem hi, heq]

/-- A call that still looks has drawn the places before `next`, in a row, all
sick. -/
def Scan (isHealthy : B → Bool) (backends : List B) (next remaining : ℕ) : Prop :=
  remaining ≤ backends.length ∧ (remaining ≠ 0 →
    backends.length - remaining ≤ next ∧
    ∀ p, next - (backends.length - remaining) ≤ p → p < next → SickAt isHealthy backends p)

def Scanned (isHealthy : B → Bool) (backends : List B) (s : RoundRobinThreads T) : Prop :=
  ∀ t, Scan isHealthy backends s.next (s.remaining t)

theorem scan_zero (next : ℕ) : Scan isHealthy backends next 0 :=
  ⟨Nat.zero_le _, fun h => absurd rfl h⟩

theorem scan_length (next : ℕ) : Scan isHealthy backends next backends.length := by
  refine ⟨le_rfl, fun _ => ⟨by omega, fun p hle hlt => ?_⟩⟩
  omega

theorem scan_of_fresh (h : remaining = 0 ∨ remaining = backends.length)
    (next : ℕ) : Scan isHealthy backends next remaining := by
  rcases h with rfl | rfl
  · exact scan_zero next
  · exact scan_length next

theorem Scan.sick (h : Scan isHealthy backends next (remaining + 1))
    (hsick : SickAt isHealthy backends next) : Scan isHealthy backends (next + 1) remaining := by
  obtain ⟨hle, hscan⟩ := h
  obtain ⟨hdrawn, hbefore⟩ := hscan (Nat.succ_ne_zero _)
  refine ⟨by omega, fun hremaining => ⟨by omega, fun p hp hlt => ?_⟩⟩
  rcases Nat.lt_succ_iff_lt_or_eq.mp hlt with hlt | rfl
  · exact hbefore p (by omega) hlt
  · exact hsick

theorem Scan.exhausted (h : Scan isHealthy backends next 1)
    (hsick : SickAt isHealthy backends next) : healthy isHealthy backends = false := by
  obtain ⟨hle, hscan⟩ := h
  obtain ⟨hdrawn, hbefore⟩ := hscan one_ne_zero
  refine healthy_eq_false_of_window (m := next - (backends.length - 1)) fun p hp hlt => ?_
  rcases Nat.lt_succ_iff_lt_or_eq.mp (show p < next + 1 by omega) with hlt | rfl
  · exact hbefore p hp hlt
  · exact hsick

variable [DecidableEq T] {s : RoundRobinThreads T}

theorem scanned_update {t : T} (hself : Scan isHealthy backends next remaining)
    (hother : ∀ t', t' ≠ t → Scan isHealthy backends next (s.remaining t')) :
    Scanned isHealthy backends ⟨next, update s.remaining t remaining⟩ := by
  intro t'
  show Scan isHealthy backends next (update s.remaining t remaining t')
  by_cases ht : t' = t
  · subst ht
    rw [update_self]
    exact hself
  · rw [update_of_ne ht]
    exact hother t' ht

theorem Scanned.resolve (h : Scanned isHealthy backends s) (hne : backends ≠ []) (t : T) :
    Scanned isHealthy backends (step isHealthy backends s (.resolve t)).2 ∧
      (step isHealthy backends s (.resolve t)).1 = none := by
  rw [step]
  split
  · exact ⟨h, rfl⟩
  · rw [if_neg (by simpa using hne)]
    exact ⟨scanned_update (scan_length _) fun t' _ => h t', rfl⟩

theorem Scanned.draw (h : Scanned isHealthy backends s) (hne : backends ≠ []) {t : T}
    (hwrap : s.next + 1 < 2 ^ 64)
    (hok : ∀ t', t' ≠ t → s.remaining t' = 0 ∨ s.remaining t' = backends.length) :
    Scanned isHealthy backends (step isHealthy backends s (.draw t)).2 ∧
      ∀ answer, (step isHealthy backends s (.draw t)).1 = some answer →
        (answer.isSome ↔ healthy isHealthy backends) := by
  have hlen : s.next % backends.length < backends.length :=
    Nat.mod_lt _ (List.length_pos_iff.mpr hne)
  have hscan := h t
  have hother : ∀ t', t' ≠ t → Scan isHealthy backends (s.next + 1) (s.remaining t') :=
    fun t' ht => scan_of_fresh (hok t' ht) _
  rw [step]
  cases hremaining : s.remaining t with
  | zero => exact ⟨h, fun answer hanswer => by cases hanswer⟩
  | succ remaining =>
    rw [hremaining] at hscan
    rw [if_neg (Nat.succ_ne_zero _), wrappingAdd_of_lt hwrap, List.getElem?_eq_getElem hlen]
    cases hhealth : isHealthy backends[s.next % backends.length] with
    | true =>
      simp only [hhealth, if_true]
      refine ⟨scanned_update (scan_zero _) hother, fun answer hanswer => ?_⟩
      cases hanswer
      have hany : healthy isHealthy backends = true :=
        List.any_eq_true.mpr ⟨_, List.getElem_mem hlen, hhealth⟩
      rw [hany]
      exact iff_of_true rfl rfl
    | false =>
      have hsick : SickAt isHealthy backends s.next := by
        intro backend hbackend
        rw [List.getElem?_eq_getElem hlen] at hbackend
        cases hbackend
        exact hhealth
      simp only [hhealth, Bool.false_eq_true, if_false]
      refine ⟨scanned_update (hscan.sick hsick) hother, fun answer hanswer => ?_⟩
      split at hanswer
      · next hlast =>
          cases hanswer
          have hone : remaining = 0 := by omega
          subst hone
          rw [hscan.exhausted hsick]
          exact iff_of_false Bool.false_ne_true Bool.false_ne_true
      · cases hanswer

theorem Scanned.step (h : Scanned isHealthy backends s) (hne : backends ≠ [])
    {l : RoundRobinStep T} (hwrap : belowWrap s l) (hok : StepOk backends s l) :
    Scanned isHealthy backends (step isHealthy backends s l).2 ∧
      ∀ answer, (RoundRobinThreads.step isHealthy backends s l).1 = some answer →
        (answer.isSome ↔ healthy isHealthy backends) := by
  cases l with
  | resolve t =>
    obtain ⟨hscanned, hanswer⟩ := h.resolve hne t
    refine ⟨hscanned, fun answer heq => ?_⟩
    rw [hanswer] at heq
    cases heq
  | draw t => exact h.draw hne hwrap hok

theorem scanned_of_guarded (hne : backends ≠ []) {ls : List (RoundRobinStep T)}
    (h : Guarded (RoundRobinThreads.step isHealthy backends)
      (fun s l => belowWrap s l ∧ StepOk backends s l) new ls) :
    Scanned isHealthy backends (record (RoundRobinThreads.step isHealthy backends) new ls).2 ∧
      ∀ entry ∈ (record (RoundRobinThreads.step isHealthy backends) new ls).1,
        ∀ answer, entry.2 = some answer → (answer.isSome ↔ healthy isHealthy backends) := by
  induction ls using List.reverseRecOn with
  | nil => exact ⟨fun _ => scan_zero _, fun entry hentry => nomatch hentry⟩
  | append_singleton ls l ih =>
    obtain ⟨hbefore, hwrap, hok⟩ := (guarded_concat_iff _).mp h
    obtain ⟨hscanned, hanswers⟩ := ih hbefore
    obtain ⟨hnext, hanswer⟩ := hscanned.step hne hwrap hok
    rw [record_concat]
    refine ⟨hnext, fun entry hentry => ?_⟩
    rcases List.mem_append.mp hentry with hold | hnew
    · exact hanswers entry hold
    · rw [List.mem_singleton.mp hnew]
      exact hanswer

def oneAfterAnother : List (RoundRobinStep Bool) :=
  [.resolve true, .draw true, .draw true, .resolve false, .draw false, .draw false]

/-- Two calls that draw in turn, from one healthy backend and one sick. -/
def inTurn : List (RoundRobinStep Bool) :=
  [.resolve true, .resolve false, .draw false, .draw true, .resolve false, .draw false, .draw true]

end RoundRobinThreads

end VarahaCache.Backend
