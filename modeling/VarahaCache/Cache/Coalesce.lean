import VarahaCache.Types
import VarahaCache.Lib.Machine

/-!
# Request coalescing

`CoalesceManager` of `rv-cache`, used by any number of requests at once.
`check` is two steps, the fast path and the entry it asks for when that
missed; `complete` and `cancel` are one each, the removal of the entry.

A request above the waiter limit is told to fetch as well, and its `complete`
or `cancel`, keyed by the digest alone, ends a flight that is not its own.
-/

namespace VarahaCache

open Function Vector

inductive CoalesceResult
  | ready
  | failed (description : String)
deriving DecidableEq

inductive CoalesceDecision
  | fetch | wait
deriving DecidableEq

/-- A result that reached a waiting request: which one, whose entry it waited
on, and who sent it. -/
structure Notice (R : Type) where
  waiter : R
  owner : R
  sender : R
  result : CoalesceResult
deriving DecidableEq

/-- An entry in flight. The receivers are the requests that subscribed;
`owner` is the request that made it, which the program does not keep. -/
structure CoalesceEntry (R : Type) where
  owner : R
  waiterCount : ℕ
  receivers : List R
deriving DecidableEq

structure CoalesceManager (R : Type) where
  inflight : Digest → Option (CoalesceEntry R)
  maxWaiters : ℕ

namespace CoalesceManager

variable {R : Type}

def withConfig (maxWaiters : ℕ) : CoalesceManager R := ⟨fun _ => none, maxWaiters⟩

def setEntry (m : CoalesceManager R) (digest : Digest) (entry : Option (CoalesceEntry R)) :
    CoalesceManager R :=
  { m with inflight := update m.inflight digest entry }

/-- Subscribe to an entry, unless too many wait on it already. -/
def subscribe (m : CoalesceManager R) (r : R) (digest : Digest) (entry : CoalesceEntry R) :
    CoalesceDecision × CoalesceManager R :=
  if m.maxWaiters ≤ entry.waiterCount then (.fetch, m)
  else (.wait, m.setEntry digest (some { entry with
    waiterCount := entry.waiterCount + 1
    receivers := entry.receivers ++ [r] }))

/-- The fast path of `check`; none when the digest is not in flight. -/
def fastPath (m : CoalesceManager R) (r : R) (digest : Digest) :
    Option (CoalesceDecision × CoalesceManager R) :=
  (m.inflight digest).map (m.subscribe r digest)

/-- The slow path of `check`: the map may have an entry by now. -/
def slowPath (m : CoalesceManager R) (r : R) (digest : Digest) :
    CoalesceDecision × CoalesceManager R :=
  match m.inflight digest with
  | some entry => m.subscribe r digest entry
  | none => (.fetch, m.setEntry digest (some ⟨r, 0, []⟩))

def complete (m : CoalesceManager R) (sender : R) (digest : Digest) (result : CoalesceResult) :
    List (Notice R) × CoalesceManager R :=
  match m.inflight digest with
  | some entry =>
    (entry.receivers.map fun waiter => ⟨waiter, entry.owner, sender, result⟩,
      m.setEntry digest none)
  | none => ([], m)

def cancel (m : CoalesceManager R) (digest : Digest) : CoalesceManager R := m.setEntry digest none

end CoalesceManager

/-! ## Requests -/

/-- Where a request is. One that is fetching made the entry or was above the
limit. -/
inductive RequestPhase
  | idle
  /-- The fast path missed. -/
  | entering (digest : Digest)
  | fetching (digest : Digest) (made : Bool)
  | waiting (digest : Digest)
  | done
deriving DecidableEq

/-- What a request does next. -/
inductive RequestStep
  | check (digest : Digest)
  | enter
  | complete (result : CoalesceResult)
  | cancel

/-- The manager, where each request is, and the results delivered. -/
structure Requests (R : Type) where
  manager : CoalesceManager R
  phase : R → RequestPhase
  notices : List (Notice R)

namespace Requests

variable {R : Type} {s : Requests R}

def start (maxWaiters : ℕ) : Requests R := ⟨.withConfig maxWaiters, fun _ => .idle, []⟩

/-- What a decision of `check` makes of a request. -/
def decided (digest : Digest) (made : Bool) : CoalesceDecision → RequestPhase
  | .fetch => .fetching digest made
  | .wait => .waiting digest

/-- One step of one request, with the decision if there is one. A step that is
not the request's next does nothing. -/
def step [DecidableEq R] (s : Requests R) : R × RequestStep → Option CoalesceDecision × Requests R
  | (r, .check digest) =>
    if s.phase r = .idle then
      match s.manager.fastPath r digest with
      | some (decision, manager) =>
        (some decision, { s with
          manager := manager
          phase := update s.phase r (decided digest false decision) })
      | none => (none, { s with phase := update s.phase r (.entering digest) })
    else (none, s)
  | (r, .enter) =>
    match s.phase r with
    | .entering digest =>
      let made := (s.manager.inflight digest).isNone
      let (decision, manager) := s.manager.slowPath r digest
      (some decision, { s with
        manager := manager
        phase := update s.phase r (decided digest made decision) })
    | _ => (none, s)
  | (r, .complete result) =>
    match s.phase r with
    | .fetching digest _ =>
      let (notices, manager) := s.manager.complete r digest result
      (none, ⟨manager, update s.phase r .done, s.notices ++ notices⟩)
    | _ => (none, s)
  | (r, .cancel) =>
    match s.phase r with
    | .fetching digest _ =>
      (none, { s with
        manager := s.manager.cancel digest
        phase := update s.phase r .done })
    | _ => (none, s)

/-- The request made an entry and has neither completed nor cancelled. -/
def Owns (s : Requests R) (r : R) (digest : Digest) : Prop := s.phase r = .fetching digest true

/-- **Single flight and ownership**: every result came from the request that
made the entry waited on, and no two requests at once have made an entry for
one digest. -/
structure Coalesced (s : Requests R) : Prop where
  notified : ∀ n ∈ s.notices, n.sender = n.owner
  single : ∀ r r' digest, s.Owns r digest → s.Owns r' digest → r = r'

/-- Who completes or cancels made the entry in flight, or finds none. -/
def StepOk (s : Requests R) : R × RequestStep → Prop
  | (r, .complete _) | (r, .cancel) => ∀ digest made entry, s.phase r = .fetching digest made →
      s.manager.inflight digest = some entry → entry.owner = r
  | _ => True

/-! ## The invariant -/

/-- The entries in flight belong to the requests that made one. -/
structure Inv (s : Requests R) : Prop where
  notified : ∀ n ∈ s.notices, n.sender = n.owner
  owns : ∀ r digest, s.Owns r digest ↔ (s.manager.inflight digest).map CoalesceEntry.owner = some r

theorem inv_start (maxWaiters : ℕ) : Inv (start maxWaiters : Requests R) where
  notified := by simp [start]
  owns := by simp [start, Owns, CoalesceManager.withConfig]

theorem Inv.coalesced (h : Inv s) : Coalesced s where
  notified := h.notified
  single := by
    intro r r' digest hr hr'
    rw [h.owns] at hr hr'
    exact Option.some_injective _ (hr.symm.trans hr')

theorem subscribe_owner {r : R} {m : CoalesceManager R} {digest : Digest} {entry : CoalesceEntry R}
    (hentry : m.inflight digest = some entry) (d : Digest) :
    (((m.subscribe r digest entry).2).inflight d).map CoalesceEntry.owner =
      (m.inflight d).map CoalesceEntry.owner := by
  unfold CoalesceManager.subscribe
  split
  · rfl
  by_cases hd : d = digest
  · subst hd
    simp [CoalesceManager.setEntry, hentry]
  · simp [CoalesceManager.setEntry, hd]

theorem decided_false_ne (digest : Digest) (decision : CoalesceDecision) (d : Digest) :
    decided digest false decision ≠ .fetching d true := by
  cases decision <;> simp [decided]

section Steps

variable [DecidableEq R] {s : Requests R} {r : R} {digest : Digest}

/-- A request without an entry moves on without making one; the entries keep
their owners. -/
theorem Inv.moves (h : Inv s) {manager : CoalesceManager R} {phase : RequestPhase}
    (howner : ∀ digest, (manager.inflight digest).map CoalesceEntry.owner =
      (s.manager.inflight digest).map CoalesceEntry.owner)
    (hbefore : ∀ digest, ¬ s.Owns r digest) (hafter : ∀ digest, phase ≠ .fetching digest true) :
    Inv { s with manager := manager, phase := update s.phase r phase } where
  notified := h.notified
  owns := by
    intro r' digest
    show update s.phase r phase r' = .fetching digest true ↔ _
    rw [howner, ← h.owns]
    by_cases hr : r' = r
    · subst hr
      rw [update_self]
      exact iff_of_false (hafter digest) (hbefore digest)
    · rw [update_of_ne hr]
      rfl

theorem Inv.check (h : Inv s) (digest : Digest) : Inv (s.step (r, .check digest)).2 := by
  dsimp only [step]
  by_cases hidle : s.phase r = .idle
  · rw [if_pos hidle]
    have hbefore : ∀ d, ¬ s.Owns r d := by simp [Owns, hidle]
    unfold CoalesceManager.fastPath
    cases hentry : s.manager.inflight digest with
    | some entry =>
      exact h.moves (subscribe_owner hentry) hbefore (decided_false_ne digest _)
    | none => exact h.moves (fun _ => rfl) hbefore (by simp)
  · rw [if_neg hidle]
    exact h

theorem Inv.makes (h : Inv s) (hbefore : ∀ d, ¬ s.Owns r d)
    (hnone : s.manager.inflight digest = none) :
    Inv { s with
      manager := s.manager.setEntry digest (some ⟨r, 0, []⟩)
      phase := update s.phase r (.fetching digest true) } where
  notified := h.notified
  owns := by
    intro r' d
    show update s.phase r (.fetching digest true) r' = .fetching d true ↔
      (update s.manager.inflight digest (some ⟨r, 0, []⟩) d).map CoalesceEntry.owner = some r'
    have hold := h.owns r' d
    by_cases hr : r' = r
    · subst hr
      rw [update_self]
      by_cases hd : d = digest
      · subst hd
        simp
      · rw [update_of_ne hd, ← hold]
        exact iff_of_false (by simpa using Ne.symm hd) (hbefore d)
    rw [update_of_ne hr]
    by_cases hd : d = digest
    · subst hd
      -- nobody else owns a digest that was not in flight
      rw [update_self]
      refine iff_of_false ?_ (by simpa using Ne.symm hr)
      intro howns
      have hflight := hold.mp howns
      rw [hnone] at hflight
      cases hflight
    · rw [update_of_ne hd]
      exact hold

theorem Inv.enter (h : Inv s) : Inv (s.step (r, .enter)).2 := by
  dsimp only [step]
  cases hphase : s.phase r with
  | entering digest =>
    dsimp only
    have hbefore : ∀ d, ¬ s.Owns r d := by simp [Owns, hphase]
    unfold CoalesceManager.slowPath
    cases hentry : s.manager.inflight digest with
    | some entry =>
      exact h.moves (subscribe_owner hentry) hbefore (decided_false_ne digest _)
    | none => exact h.makes hbefore hentry
  | idle | fetching | waiting | done => exact h

theorem Inv.ends (h : Inv s) {made : Bool} (hphase : s.phase r = .fetching digest made)
    (hok : ∀ entry, s.manager.inflight digest = some entry → entry.owner = r)
    (notices : List (Notice R)) (hnotices : ∀ n ∈ notices, n.sender = n.owner) :
    Inv ⟨s.manager.setEntry digest none, update s.phase r .done, s.notices ++ notices⟩ where
  notified := by
    intro n hn
    rcases List.mem_append.mp hn with hn | hn
    · exact h.notified n hn
    · exact hnotices n hn
  owns := by
    intro r' d
    show update s.phase r .done r' = .fetching d true ↔
      (update s.manager.inflight digest none d).map CoalesceEntry.owner = some r'
    have hold := h.owns r' d
    by_cases hr : r' = r
    · subst hr
      rw [update_self]
      refine iff_of_false (by simp) ?_
      by_cases hd : d = digest
      · subst hd
        simp
      · rw [update_of_ne hd, ← hold, Owns, hphase]
        simp [Ne.symm hd]
    rw [update_of_ne hr]
    by_cases hd : d = digest
    · subst hd
      rw [update_self]
      refine iff_of_false ?_ (by simp)
      intro howns
      obtain ⟨entry, hentry, howner⟩ := Option.map_eq_some_iff.mp (hold.mp howns)
      exact hr (howner.symm.trans (hok entry hentry))
    · rw [update_of_ne hd]
      exact hold

theorem Inv.complete (h : Inv s) {result : CoalesceResult} (hok : StepOk s (r, .complete result)) :
    Inv (s.step (r, .complete result)).2 := by
  dsimp only [step]
  cases hphase : s.phase r with
  | fetching digest made =>
    dsimp only
    have howner : ∀ entry, s.manager.inflight digest = some entry → entry.owner = r :=
      fun entry => hok digest made entry hphase
    unfold CoalesceManager.complete
    cases hentry : s.manager.inflight digest with
    | some entry =>
      refine h.ends hphase howner _ ?_
      intro n hn
      obtain ⟨waiter, _, rfl⟩ := List.mem_map.mp hn
      exact (howner entry hentry).symm
    | none =>
      have hsame : s.manager = s.manager.setEntry digest none := by
        rw [CoalesceManager.setEntry, ← hentry, update_eq_self]
      have hends := h.ends hphase howner [] (by simp)
      rw [← hsame] at hends
      exact hends
  | idle | entering | waiting | done => exact h

theorem Inv.cancel (h : Inv s) (hok : StepOk s (r, .cancel)) : Inv (s.step (r, .cancel)).2 := by
  dsimp only [step]
  cases hphase : s.phase r with
  | fetching digest made =>
    have hends := h.ends hphase (fun entry => hok digest made entry hphase) [] (by simp)
    rw [List.append_nil] at hends
    exact hends
  | idle | entering | waiting | done => exact h

end Steps

theorem Inv.step [DecidableEq R] (h : Inv s) (l : R × RequestStep) (hok : StepOk s l) :
    Inv (s.step l).2 := by
  obtain ⟨r, act⟩ := l
  cases act with
  | check digest => exact h.check digest
  | enter => exact h.enter
  | complete result => exact h.complete hok
  | cancel => exact h.cancel hok

/-- **Single flight**, for any requests, any limit and any interleaving: while
only the request that made an entry completes or cancels it, every waiting
request hears from that one alone, and no second entry for a digest is made
before that. -/
theorem coalesced_of_stepOk [DecidableEq R] (maxWaiters : ℕ) (labels : List (R × RequestStep))
    (hok : Lib.Guarded step StepOk (start maxWaiters) labels) :
    Coalesced (Lib.record step (start maxWaiters : Requests R) labels).2 :=
  (Lib.guarded_induction step (P := Inv) (fun _ l h => h.step l) (inv_start maxWaiters)
    hok).coalesced

/-- Request 0 fetches, request 1 waits; request 2 is above the limit, and
completes after request 0. -/
def inOrder : List (Fin 3 × RequestStep) :=
  [(0, .check ⟨replicate 32 0⟩), (0, .enter), (1, .check ⟨replicate 32 0⟩),
    (2, .check ⟨replicate 32 0⟩), (0, .complete .ready), (2, .complete .ready)]

theorem coalesced_of_stepOk_inOrder :
    (Lib.record step (start 1) inOrder).2.notices = [⟨1, 0, 0, .ready⟩] ∧
      Coalesced (Lib.record step (start 1) inOrder).2 := by
  refine ⟨by decide +kernel, coalesced_of_stepOk 1 inOrder
    ⟨trivial, trivial, trivial, trivial, ?_, ?_, trivial⟩⟩
  · intro digest made entry hphase hentry
    cases (show RequestPhase.fetching ⟨replicate 32 0⟩ true = .fetching digest made from hphase)
    cases (show some ⟨0, 1, [1]⟩ = some entry from hentry)
    rfl
  · intro digest made entry hphase hentry
    cases (show RequestPhase.fetching ⟨replicate 32 0⟩ false = .fetching digest made from hphase)
    cases (show none = some entry from hentry)

/-- The request above the limit completes first: request 1 hears from it, and
request 3 makes a second entry while request 0 still fetches. -/
theorem not_coalesced_overflow : let labels : List (Fin 4 × RequestStep) :=
      [(0, .check ⟨replicate 32 0⟩), (0, .enter), (1, .check ⟨replicate 32 0⟩),
        (2, .check ⟨replicate 32 0⟩), (2, .complete (.failed "timeout")),
        (3, .check ⟨replicate 32 0⟩), (3, .enter)]
    let s := (Lib.record step (start 1) labels).2
    s.notices = [⟨1, 0, 2, .failed "timeout"⟩] ∧ s.Owns 0 ⟨replicate 32 0⟩ ∧
      s.Owns 3 ⟨replicate 32 0⟩ ∧ ¬ Coalesced s := by
  intro labels s
  have hnotices : s.notices = [⟨1, 0, 2, .failed "timeout"⟩] := by decide +kernel
  refine ⟨hnotices, by unfold Owns; decide +kernel, by unfold Owns; decide +kernel, ?_⟩
  intro h
  have hwrong := h.notified ⟨1, 0, 2, .failed "timeout"⟩ (by simp [hnotices])
  revert hwrong
  decide

end Requests

end VarahaCache
