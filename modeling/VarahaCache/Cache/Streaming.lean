import VarahaCache.Lib.Machine

/-!
# Streaming bodies

`StreamingBody` of `rv-cache`, with one producer and any number of readers. A
section under the lock on the chunks is entered, reads the completion flag
where the source does, and is left: three steps.

The flag is set behind the last chunk, so a reader that has seen it set has
all chunks before it. A reader that waits looks for data first and asks to be
notified afterwards; a notification in between wakes nobody.
-/

namespace VarahaCache

open Function Lib

/-- The buffer, without the channel of its notifications. -/
structure StreamingBody where
  chunks : List (List UInt8)
  complete : Bool
  totalSize : ℕ

namespace StreamingBody

def new : StreamingBody := ⟨[], false, 0⟩

/-- The loop of `read_from` over the chunks. -/
def scan (offset : ℕ) : List (List UInt8) → ℕ → List UInt8
  | [], _ => []
  | chunk :: rest, currentOffset =>
    let chunkEnd := currentOffset + chunk.length
    if chunkEnd ≤ offset then scan offset rest chunkEnd
    else chunk.drop (offset - currentOffset) ++ scan offset rest chunkEnd

def readFrom (body : StreamingBody) (offset : ℕ) : List UInt8 := scan offset body.chunks 0

/-- The scan drops what lies before the offset, however the chunks are cut. -/
theorem scan_eq (offset : ℕ) (chunks : List (List UInt8)) (currentOffset : ℕ) :
    scan offset chunks currentOffset = chunks.flatten.drop (offset - currentOffset) := by
  induction chunks generalizing currentOffset with
  | nil => rw [scan, List.flatten_nil, List.drop_nil]
  | cons chunk rest ih =>
    rw [scan, List.flatten_cons, List.drop_append, ih, Nat.sub_add_eq]
    split
    · rename_i hbefore
      have hchunk : chunk.drop (offset - currentOffset) = [] := List.drop_eq_nil_of_le (by omega)
      rw [hchunk, List.nil_append]
    · rfl

theorem readFrom_eq (body : StreamingBody) (offset : ℕ) :
    body.readFrom offset = body.chunks.flatten.drop offset := scan_eq offset body.chunks 0

end StreamingBody

/-! ## Threads -/

/-- Between two calls, behind the push of `append`, behind its addition,
behind the store of `mark_complete`, or done. -/
inductive ProducerPhase
  | idle
  | adding (length : ℕ)
  | notifying
  | announcing
  | finished
deriving DecidableEq

/-- `read_from` at the reader's own offset, to collect the body, or
`wait_for_data` at any. -/
inductive ReadCall
  | readFrom
  | waitForData (offset : ℕ)
deriving DecidableEq

inductive ReaderPhase
  | idle
  /-- About to take the lock. -/
  | entering (call : ReadCall)
  /-- Under the lock, about to read the flag. -/
  | locked (call : ReadCall)
  /-- Under the lock, about to scan the chunks. -/
  | loaded (call : ReadCall) (complete : Bool)
  /-- `wait_for_data` found nothing, and has not asked to be notified yet. -/
  | unregistered (offset : ℕ)
  /-- The future of `notified` is there, and is awaited. -/
  | waiting (offset : ℕ)
  /-- Empty data with the flag set ended the loop. -/
  | stopped
deriving DecidableEq

/-- The producer begins a call or takes its next step; so does a reader. -/
inductive StreamStep (R : Type)
  | append (data : List UInt8)
  | markComplete
  | produce
  | read (r : R) (call : ReadCall)
  | next (r : R)

/-- The buffer, who holds the lock, where everybody is, and what was
collected. -/
structure StreamThreads (R : Type) where
  body : StreamingBody
  lock : Option R
  producer : ProducerPhase
  phase : R → ReaderPhase
  collected : R → List UInt8

namespace StreamThreads

variable {R : Type}

def start : StreamThreads R := ⟨.new, none, .idle, fun _ => .idle, fun _ => []⟩

/-- `notify_waiters`: who waits goes on with the loop. -/
def woken : ReaderPhase → ReaderPhase
  | .waiting offset => .entering (.waitForData offset)
  | phase => phase

def produce (s : StreamThreads R) : StreamThreads R :=
  match s.producer with
  | .adding length =>
    { s with
      body := { s.body with totalSize := s.body.totalSize + length }
      producer := .notifying }
  | .notifying => { s with phase := woken ∘ s.phase, producer := .idle }
  | .announcing => { s with phase := woken ∘ s.phase, producer := .finished }
  | _ => s

variable [DecidableEq R]

def moved (s : StreamThreads R) (r : R) (phase : ReaderPhase) : StreamThreads R :=
  { s with phase := update s.phase r phase }

/-- The scan of a reader and the end of its section, with the flag it read. -/
def scanned (s : StreamThreads R) (r : R) (complete : Bool) :
    ReadCall → Option (List UInt8 × Bool) × StreamThreads R
  | .readFrom =>
    let data := s.body.readFrom (s.collected r).length
    let s := { s with lock := none }
    if data = [] ∧ complete = true then (some (data, complete), s.moved r .stopped)
    else
      (some (data, complete), { s.moved r .idle with
        collected := update s.collected r (s.collected r ++ data) })
  | .waitForData offset =>
    let data := s.body.readFrom offset
    let s := { s with lock := none }
    if data ≠ [] ∨ complete = true then (some (data, complete), s.moved r .idle)
    else (none, s.moved r (.unregistered offset))

/-- The next step of a reader, with what its call returns if it ends. -/
def proceed (s : StreamThreads R) (r : R) : Option (List UInt8 × Bool) × StreamThreads R :=
  match s.phase r with
  | .entering call =>
    if s.lock = none then (none, { s.moved r (.locked call) with lock := some r }) else (none, s)
  | .locked call => (none, s.moved r (.loaded call s.body.complete))
  | .loaded call complete => s.scanned r complete call
  | .unregistered offset => (none, s.moved r (.waiting offset))
  | _ => (none, s)

/-- One step. One that is not its thread's next, or has to wait for the lock,
does nothing. -/
def step (s : StreamThreads R) : StreamStep R → Option (List UInt8 × Bool) × StreamThreads R
  | .append data =>
    if s.producer = .idle ∧ s.lock = none then
      (none, { s with
        body := { s.body with chunks := s.body.chunks ++ [data] }
        producer := .adding data.length })
    else (none, s)
  | .markComplete =>
    if s.producer = .idle then
      (none, { s with body := { s.body with complete := true }, producer := .announcing })
    else (none, s)
  | .produce => (none, s.produce)
  | .read r call => if s.phase r = .idle then (none, s.moved r (.entering call)) else (none, s)
  | .next r => s.proceed r

/-! ## What is collected -/

/-- **Readers see the exact body**: a reader has collected a beginning of what
was appended, and all of a complete body once it has stopped. -/
structure Exact (s : StreamThreads R) : Prop where
  collected : ∀ r, s.collected r <+: s.body.chunks.flatten
  stopped : ∀ r, s.phase r = .stopped →
    s.body.complete = true ∧ s.collected r = s.body.chunks.flatten

/-- The flag is set behind the last chunk, and seen set only when it was. -/
structure Inv (s : StreamThreads R) : Prop extends Exact s where
  last : s.body.complete = true → s.producer = .announcing ∨ s.producer = .finished
  seen : ∀ r call, s.phase r = .loaded call true → s.body.complete = true

omit [DecidableEq R] in
theorem inv_start : Inv (start : StreamThreads R) where
  collected := fun _ => List.nil_prefix
  stopped := fun _ h => by cases h
  last := fun h => by cases h
  seen := fun _ _ h => by cases h

variable {s : StreamThreads R} {r : R} {phase : ReaderPhase}

theorem Inv.moved (h : Inv s) (lock : Option R)
    (hstopped : phase = .stopped → s.body.complete = true ∧ s.collected r = s.body.chunks.flatten)
    (hseen : ∀ call, phase = .loaded call true → s.body.complete = true) :
    Inv { s.moved r phase with lock := lock } where
  collected := h.collected
  stopped := by
    intro r' hphase
    by_cases hr : r' = r
    · subst hr
      exact hstopped (by simpa [StreamThreads.moved] using hphase)
    · exact h.stopped r' (by simpa [StreamThreads.moved, hr] using hphase)
  last := h.last
  seen := by
    intro r' call hphase
    by_cases hr : r' = r
    · subst hr
      exact hseen call (by simpa [StreamThreads.moved] using hphase)
    · exact h.seen r' call (by simpa [StreamThreads.moved, hr] using hphase)

theorem Inv.collect (h : Inv s) (r : R) (hphase : s.phase r ≠ .stopped) :
    Inv { s with
      collected := update s.collected r
        (s.collected r ++ s.body.readFrom (s.collected r).length) } where
  collected := by
    intro r'
    dsimp only
    by_cases hr : r' = r
    · subst hr
      rw [update_self, StreamingBody.readFrom_eq]
      obtain ⟨rest, hrest⟩ := h.collected r'
      rw [← hrest, List.drop_left]
    · rw [update_of_ne hr]
      exact h.collected r'
  stopped := by
    intro r' hstopped
    have hr : r' ≠ r := by
      rintro rfl
      exact hphase hstopped
    dsimp only
    rw [update_of_ne hr]
    exact h.stopped r' hstopped
  last := h.last
  seen := h.seen

/-- The scan under the lock: where a reader that saw the flag finds nothing,
the body ends. -/
theorem Inv.scanned (h : Inv s) {call : ReadCall} {complete : Bool}
    (hphase : s.phase r = .loaded call complete) : Inv (s.scanned r complete call).2 := by
  cases call with
  | readFrom =>
    rw [StreamThreads.scanned]
    split
    · rename_i hend
      obtain ⟨hdata, rfl⟩ := hend
      refine h.moved none (fun _ => ⟨h.seen r _ hphase, ?_⟩) (fun _ heq => by cases heq)
      obtain ⟨rest, hrest⟩ := h.collected r
      rw [StreamingBody.readFrom_eq, ← hrest, List.drop_left] at hdata
      rw [← hrest, hdata, List.append_nil]
    · have hidle : Inv { s.moved r .idle with lock := none } :=
        h.moved none (fun heq => by cases heq) (fun _ heq => by cases heq)
      exact hidle.collect r (by simp [StreamThreads.moved])
  | waitForData offset =>
    rw [StreamThreads.scanned]
    split <;> exact h.moved none (fun heq => by cases heq) (fun _ heq => by cases heq)

theorem Inv.proceed (h : Inv s) (r : R) : Inv (s.proceed r).2 := by
  unfold StreamThreads.proceed
  split
  · split
    · exact h.moved (some r) (fun heq => by cases heq) (fun _ heq => by cases heq)
    · exact h
  · refine h.moved s.lock (fun heq => by cases heq) ?_
    intro call heq
    injection heq
  · rename_i hphase
    exact h.scanned hphase
  · exact h.moved s.lock (fun heq => by cases heq) (fun _ heq => by cases heq)
  · exact h

omit [DecidableEq R] in
theorem woken_eq_iff {target : ReaderPhase} (htarget : ∀ call, target ≠ .entering call)
    (hwaiting : ∀ offset, target ≠ .waiting offset) : woken phase = target ↔ phase = target := by
  unfold woken
  split
  · rename_i offset
    exact iff_of_false (htarget _).symm (hwaiting offset).symm
  · rfl

omit [DecidableEq R] in
theorem Inv.wake (h : Inv s) {producer : ProducerPhase}
    (hlast : s.body.complete = true → producer = .announcing ∨ producer = .finished) :
    Inv { s with phase := woken ∘ s.phase, producer := producer } where
  collected := h.collected
  stopped := by
    intro r hphase
    exact h.stopped r ((woken_eq_iff (by simp) (by simp)).mp hphase)
  last := hlast
  seen := by
    intro r call hphase
    exact h.seen r call ((woken_eq_iff (by simp) (by simp)).mp hphase)

omit [DecidableEq R] in
theorem Inv.produce (h : Inv s) : Inv s.produce := by
  have hnot : s.producer ≠ .announcing → s.producer ≠ .finished → s.body.complete = true → False :=
    fun h₁ h₂ hcomplete => (h.last hcomplete).elim h₁ h₂
  unfold StreamThreads.produce
  split
  · rename_i length hphase
    refine ⟨⟨h.collected, h.stopped⟩, fun hcomplete => ?_, h.seen⟩
    exact (hnot (by simp [hphase]) (by simp [hphase]) hcomplete).elim
  · rename_i hphase
    exact h.wake fun hcomplete =>
      (hnot (by simp [hphase]) (by simp [hphase]) hcomplete).elim
  · exact h.wake fun _ => .inr rfl
  · exact h

theorem Inv.step (h : Inv s) (l : StreamStep R) : Inv (s.step l).2 := by
  cases l with
  | append data =>
    rw [StreamThreads.step]
    split
    · rename_i hidle
      -- the body is not complete: the producer is between two calls
      have hopen : s.body.complete = true → False := by
        intro hcomplete
        rcases h.last hcomplete with hphase | hphase <;> rw [hidle.1] at hphase <;> cases hphase
      refine ⟨⟨fun r => ?_, fun r hphase => ?_⟩, fun hcomplete => (hopen hcomplete).elim, h.seen⟩
      · refine (h.collected r).trans ?_
        rw [List.flatten_append]
        exact List.prefix_append _ _
      · exact (hopen (h.stopped r hphase).1).elim
    · exact h
  | markComplete =>
    rw [StreamThreads.step]
    split
    · refine ⟨⟨h.collected, fun r hphase => ⟨rfl, (h.stopped r hphase).2⟩⟩, fun _ => .inl rfl, ?_⟩
      exact fun _ _ _ => rfl
    · exact h
  | produce => exact h.produce
  | read r call =>
    rw [StreamThreads.step]
    split
    · exact h.moved s.lock (fun heq => by cases heq) (fun _ heq => by cases heq)
    · exact h
  | next r => exact h.proceed r

/-- **Streaming readers see the exact body**, for any readers and in any
interleaving with the producer. -/
theorem exact_of_run (labels : List (StreamStep R)) :
    Exact (record step (start : StreamThreads R) labels).2 := by
  have hinv : Inv (record step (start : StreamThreads R) labels).2 :=
    record_induction step (P := fun _ _ s => Inv s) inv_start (fun _ _ _ l h => h.step l) labels
  exact hinv.toExact

/-! ## Who waits -/

/-- **No lost wake-up**: nobody waits once the producer is done. -/
def NobodyLost (s : StreamThreads R) : Prop :=
  ∀ r offset, s.phase r = .waiting offset → s.producer ≠ .finished

/-- A reader asks to be notified while the last notification is still to
come. -/
def StepOk (s : StreamThreads R) : StreamStep R → Prop
  | .next r => ∀ offset, s.phase r = .unregistered offset → s.producer ≠ .finished
  | _ => True

theorem NobodyLost.moved (h : NobodyLost s) {t : StreamThreads R}
    (hphase : ∀ offset, phase ≠ .waiting offset) (ht : t.phase = update s.phase r phase)
    (hproducer : t.producer = s.producer) : NobodyLost t := by
  intro r' offset hwaiting
  rw [ht] at hwaiting
  rw [hproducer]
  by_cases hr : r' = r
  · subst hr
    rw [update_self] at hwaiting
    exact (hphase offset hwaiting).elim
  · rw [update_of_ne hr] at hwaiting
    exact h r' offset hwaiting

omit [DecidableEq R] in
theorem nobodyLost_woken (t : StreamThreads R) (phase : R → ReaderPhase)
    (ht : t.phase = woken ∘ phase) : NobodyLost t := by
  intro r offset hwaiting
  rw [ht, comp_apply] at hwaiting
  unfold woken at hwaiting
  split at hwaiting
  · cases hwaiting
  · rename_i hnot
    exact (hnot offset hwaiting).elim

theorem NobodyLost.scanned (h : NobodyLost s) (complete : Bool) (call : ReadCall) :
    NobodyLost (s.scanned r complete call).2 := by
  cases call with
  | readFrom | waitForData offset =>
    rw [StreamThreads.scanned]
    split <;> exact h.moved (by simp) rfl rfl

omit [DecidableEq R] in
theorem NobodyLost.produce (h : NobodyLost s) : NobodyLost s.produce := by
  unfold StreamThreads.produce
  split
  · exact fun _ _ _ hdone => by cases hdone
  · exact nobodyLost_woken _ s.phase rfl
  · exact nobodyLost_woken _ s.phase rfl
  · exact h

theorem NobodyLost.proceed_iff (h : NobodyLost s) (r : R) :
    NobodyLost (s.proceed r).2 ↔
      ∀ offset, s.phase r = .unregistered offset → s.producer ≠ .finished := by
  unfold StreamThreads.proceed
  split
  · rename_i hphase
    refine iff_of_true ?_ (by simp [hphase])
    split
    · exact h.moved (by simp) rfl rfl
    · exact h
  · rename_i hphase
    exact iff_of_true (h.moved (by simp) rfl rfl) (by simp [hphase])
  · rename_i call complete hphase
    exact iff_of_true (h.scanned complete call) (by simp [hphase])
  · rename_i offset hphase
    constructor
    · intro hlost _ _
      exact hlost r offset (by simp [StreamThreads.moved])
    intro hopen r' offset' hwaiting
    by_cases hr : r' = r
    · exact hopen offset hphase
    · exact h r' offset' (by simpa [StreamThreads.moved, hr] using hwaiting)
  · rename_i hnot
    exact iff_of_true h fun offset hphase => (hnot offset hphase).elim

theorem NobodyLost.step_iff (h : NobodyLost s) (l : StreamStep R) :
    NobodyLost (s.step l).2 ↔ StepOk s l := by
  cases l with
  | append data | markComplete =>
    refine iff_of_true ?_ trivial
    rw [StreamThreads.step]
    split
    · exact fun _ _ _ hdone => by cases hdone
    · exact h
  | produce => exact iff_of_true h.produce trivial
  | read r call =>
    refine iff_of_true ?_ trivial
    rw [StreamThreads.step]
    split
    · exact h.moved (by simp) rfl rfl
    · exact h
  | next r => exact h.proceed_iff r

/-- **When no wake-up is lost**, over any run: after every step nobody waits
with the producer done EXACTLY when every reader that found nothing asks to be
notified before the last notification. -/
theorem nobodyLost_iff_stepOk (labels : List (StreamStep R)) :
    Guarded step (fun s l => NobodyLost (s.step l).2) (start : StreamThreads R) labels ↔
      Guarded step StepOk (start : StreamThreads R) labels :=
  guarded_iff_guarded step (P := NobodyLost) (fun _ l h => h.step_iff l)
    (fun _ l h hok => (h.step_iff l).mpr hok) (fun _ _ h => by cases h)

/-- The flag is stored and announced between a reader's look and its
registration: it waits for ever. -/
theorem not_nobodyLost_between : let labels : List (StreamStep Unit) :=
      [.read () (.waitForData 0), .next (), .next (), .next (), .markComplete, .produce, .next ()]
    let s := (record step (start : StreamThreads Unit) labels).2
    (s.phase () = .waiting 0 ∧ s.producer = .finished) ∧
      ¬ Guarded step (fun s l => NobodyLost (s.step l).2) (start : StreamThreads Unit) labels := by
  intro labels s
  refine ⟨by decide +kernel, ?_⟩
  intro h
  have hlast := h.2.2.2.2.2.2.1 () 0 (by decide +kernel)
  exact hlast (by decide +kernel)

end StreamThreads

end VarahaCache
