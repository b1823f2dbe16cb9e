import VarahaCache.Lib.Machine

/-!
# The locks of the manager

`VclManager` has a mutex for its programs and one for the active name. Every
method is a script of acquisitions and releases. `use_program` takes the
programs first, `active_interpreter` the name, so the two can wait for each
other.
-/

namespace VarahaCache.Admin

open Function

inductive Mutex
  | programs | activeName
deriving DecidableEq

inductive LockAct
  | lock (m : Mutex)
  | unlock (m : Mutex)
deriving DecidableEq

inductive Method
  | load | useProgram | list | discard | activeInterpreter | activeName
deriving DecidableEq

/-- Behind the first acquisition of `use_program`: it waits for the name. -/
def usingPrograms : List LockAct := [.lock .activeName, .unlock .activeName, .unlock .programs]

/-- Behind the first acquisition of `active_interpreter`: it waits for the
programs. -/
def usingName : List LockAct := [.lock .programs, .unlock .programs, .unlock .activeName]

/-- The acquisitions and releases of a method. A guard is released at the end
of its scope, the later one first, whichever way the method returns. A `load`
that is not accepted returns before any of them. -/
def Method.script : Method → List LockAct
  | .load | .list | .discard => [.lock .programs, .unlock .programs]
  | .useProgram => .lock .programs :: usingPrograms
  | .activeInterpreter => .lock .activeName :: usingName
  | .activeName => [.lock .activeName, .unlock .activeName]

inductive LockStep (T : Type)
  | call (t : T) (method : Method)
  | next (t : T)

/-- Who holds each mutex, and what each thread has still to do. -/
structure LockThreads (T : Type) where
  owner : Mutex → Option T
  todo : T → List LockAct

namespace LockThreads

variable {T : Type}

def start : LockThreads T := ⟨fun _ => none, fun _ => []⟩

variable [DecidableEq T]

/-- One step, and whether it was taken: a held mutex is waited for. -/
def step (s : LockThreads T) : LockStep T → Bool × LockThreads T
  | .call t method =>
    if s.todo t = [] then (true, { s with todo := update s.todo t method.script })
    else (false, s)
  | .next t =>
    match s.todo t with
    | [] => (false, s)
    | .lock m :: rest =>
      if s.owner m = none then
        (true, ⟨update s.owner m (some t), update s.todo t rest⟩)
      else (false, s)
    | .unlock m :: rest =>
      (true, ⟨update s.owner m none, update s.todo t rest⟩)

/-- The thread is about to acquire a mutex. -/
def Waits (s : LockThreads T) (t : T) (m : Mutex) : Prop := (s.todo t).head? = some (.lock m)

/-- Some threads each wait for a mutex that another of them holds. -/
def Deadlocked (s : LockThreads T) : Prop :=
  ∃ threads : Set T, threads.Nonempty ∧
    ∀ t ∈ threads, ∃ m, s.Waits t m ∧ ∃ u ∈ threads, u ≠ t ∧ s.owner m = some u

/-- `use_program` or `active_interpreter` does not begin while the other is
between its two acquisitions. -/
def StepOk (s : LockThreads T) : LockStep T → Prop
  | .next t =>
    (s.todo t = Method.useProgram.script → s.owner .programs = none →
      ∀ u, s.todo u ≠ usingName) ∧
    (s.todo t = Method.activeInterpreter.script → s.owner .activeName = none →
      ∀ u, s.todo u ≠ usingPrograms)
  | .call _ _ => True

/-! ## What a thread holds -/

/-- What a thread that has this still to do holds. -/
def Holding (todo : List LockAct) (m : Mutex) : Prop := .unlock m ∈ todo ∧ .lock m ∉ todo

instance (todo : List LockAct) (m : Mutex) : Decidable (Holding todo m) :=
  inferInstanceAs (Decidable (_ ∧ _))

def places : List (List LockAct) := [[], [.lock .programs, .unlock .programs], [.unlock .programs],
    [.lock .activeName, .unlock .activeName], [.unlock .activeName],
    .lock .programs :: usingPrograms, usingPrograms, [.unlock .activeName, .unlock .programs],
    .lock .activeName :: usingName, usingName, [.unlock .programs, .unlock .activeName]]

/-- Everybody is somewhere in a script, and holds what they are to release. -/
structure Tracked (s : LockThreads T) : Prop where
  place : ∀ t, s.todo t ∈ places
  owner : ∀ m t, s.owner m = some t ↔ Holding (s.todo t) m

instance {P : Mutex → Prop} [DecidablePred P] : Decidable (∀ m, P m) :=
  decidable_of_iff (P .programs ∧ P .activeName)
    ⟨fun h m => by cases m; exacts [h.1, h.2], fun h => ⟨h _, h _⟩⟩

theorem script_mem_places (method : Method) : method.script ∈ places := by
  cases method
  all_goals decide

theorem not_holding_script (method : Method) (m : Mutex) : ¬ Holding method.script m := by
  cases method
  all_goals cases m
  all_goals decide

variable {rest : List LockAct} {m : Mutex}

theorem lock_place (h : .lock m :: rest ∈ places) :
    rest ∈ places ∧ ∀ other, Holding rest other ↔ other = m ∨ Holding (.lock m :: rest) other := by
  have hall : ∀ todo ∈ places, ∀ m, todo.head? = some (.lock m) →
      todo.tail ∈ places ∧ ∀ other, (Holding todo.tail other ↔ other = m ∨ Holding todo other) := by
    decide
  exact hall _ h m rfl

theorem unlock_place (h : .unlock m :: rest ∈ places) :
    rest ∈ places ∧ Holding (.unlock m :: rest) m ∧
      ∀ other, Holding rest other ↔ other ≠ m ∧ Holding (.unlock m :: rest) other := by
  have hall : ∀ todo ∈ places, ∀ m, todo.head? = some (.unlock m) →
      todo.tail ∈ places ∧ Holding todo m ∧
        ∀ other, (Holding todo.tail other ↔ other ≠ m ∧ Holding todo other) := by
    decide
  exact hall _ h m rfl

theorem waiting_place {todo : List LockAct} {m held : Mutex} (h : todo ∈ places)
    (hwaits : todo.head? = some (.lock m)) (hheld : Holding todo held) :
    todo = usingPrograms ∧ m = .activeName ∧ held = .programs ∨
      todo = usingName ∧ m = .programs ∧ held = .activeName := by
  have hall : ∀ todo ∈ places, ∀ m held, todo.head? = some (.lock m) → Holding todo held →
      todo = usingPrograms ∧ m = .activeName ∧ held = .programs ∨
        todo = usingName ∧ m = .programs ∧ held = .activeName := by
    decide
  exact hall todo h m held hwaits hheld

theorem lock_using (h : .lock m :: rest ∈ places) :
    (rest = usingPrograms → .lock m :: rest = Method.useProgram.script) ∧
      (rest = usingName → .lock m :: rest = Method.activeInterpreter.script) := by
  have hall : ∀ todo ∈ places, ∀ m, todo.head? = some (.lock m) →
      (todo.tail = usingPrograms → todo = Method.useProgram.script) ∧
        (todo.tail = usingName → todo = Method.activeInterpreter.script) := by
    decide
  exact hall _ h m rfl

theorem unlock_using (h : .unlock m :: rest ∈ places) :
    rest ≠ usingPrograms ∧ rest ≠ usingName := by
  have hall : ∀ todo ∈ places, ∀ m, todo.head? = some (.unlock m) →
      todo.tail ≠ usingPrograms ∧ todo.tail ≠ usingName := by
    decide
  exact hall _ h m rfl

theorem script_using (method : Method) :
    method.script ≠ usingPrograms ∧ method.script ≠ usingName := by
  cases method
  all_goals decide

/-! ## Runs -/

variable {s : LockThreads T} {t : T} {owner : Mutex → Option T}

theorem Tracked.advance (h : s.Tracked) {holder : Option T} (hrest : rest ∈ places)
    (hother : ∀ other, other ≠ m → (Holding rest other ↔ Holding (s.todo t) other))
    (hself : holder = some t ↔ Holding rest m)
    (hothers : ∀ u, u ≠ t → (holder = some u ↔ Holding (s.todo u) m)) :
    Tracked ⟨update s.owner m holder, update s.todo t rest⟩ := by
  constructor
  · intro u
    rcases eq_or_ne u t with rfl | hu
    · simpa using hrest
    · simpa [hu] using h.place u
  intro other u
  rcases eq_or_ne other m with rfl | hm
  · rcases eq_or_ne u t with rfl | hu
    · simpa using hself
    · simpa [hu] using hothers u hu
  rcases eq_or_ne u t with rfl | hu
  · simpa [hm, hother other hm] using h.owner other u
  · simpa [hm, hu] using h.owner other u

theorem Tracked.call (h : s.Tracked) (hidle : s.todo t = []) (method : Method) :
    Tracked { s with todo := update s.todo t method.script } := by
  have hnone : ∀ m, ¬ Holding (s.todo t) m := by
    intro m
    rw [hidle]
    simp [Holding]
  constructor
  · intro u
    rcases eq_or_ne u t with rfl | hu
    · simpa using script_mem_places method
    · simpa [hu] using h.place u
  intro m u
  rcases eq_or_ne u t with rfl | hu
  · have howner := (h.owner m u).trans (iff_of_false (hnone m) (not_holding_script method m))
    simpa using howner
  · simpa [hu] using h.owner m u

theorem Tracked.step (h : s.Tracked) (l : LockStep T) : (s.step l).2.Tracked := by
  cases l with
  | call t method =>
    rw [LockThreads.step]
    split
    · rename_i hidle
      exact h.call hidle method
    · exact h
  | next t =>
    rw [LockThreads.step]
    split
    · exact h
    · rename_i m rest htodo
      split
      · rename_i hfree
        obtain ⟨hrest, hholding⟩ := lock_place (htodo ▸ h.place t)
        refine h.advance hrest (fun other hne => ?_) ?_ fun u hu => ?_
        · rw [hholding, htodo]
          exact or_iff_right hne
        · exact iff_of_true rfl ((hholding m).mpr (.inl rfl))
        · rw [← h.owner, hfree]
          simp [hu.symm]
      · exact h
    · rename_i m rest htodo
      obtain ⟨hrest, hself, hholding⟩ := unlock_place (htodo ▸ h.place t)
      refine h.advance hrest (fun other hne => ?_) ?_ fun u hu => ?_
      · rw [hholding, htodo]
        exact and_iff_right hne
      · exact iff_of_false (by simp) fun hheld => ((hholding m).mp hheld).1 rfl
      · have howner : s.owner m = some t := (h.owner m t).mpr (htodo ▸ hself)
        rw [← h.owner, howner]
        simp [hu.symm]

/-- A call of `use_program` holds the programs and waits for the name, and one
of `active_interpreter` the other way round. -/
def Crossed (s : LockThreads T) : Prop := ∃ t u, s.todo t = usingPrograms ∧ s.todo u = usingName

omit [DecidableEq T] in
theorem Tracked.deadlocked_iff (h : s.Tracked) : s.Deadlocked ↔ s.Crossed := by
  constructor
  · rintro ⟨threads, ⟨t, ht⟩, hall⟩
    -- `t` waits for `u`, which waits for `v`: `u` and `v` both hold something
    obtain ⟨m, _, u, hu, _, hm⟩ := hall t ht
    obtain ⟨m', hwaits, v, hv, _, hm'⟩ := hall u hu
    obtain ⟨m'', hwaits', _⟩ := hall v hv
    rcases waiting_place (h.place u) hwaits ((h.owner m u).mp hm) with ⟨hplace, rfl, _⟩ |
      ⟨hplace, rfl, _⟩
    · rcases waiting_place (h.place v) hwaits' ((h.owner _ v).mp hm') with ⟨_, _, heq⟩ | ⟨hother, _⟩
      · cases heq
      · exact ⟨u, v, hplace, hother⟩
    rcases waiting_place (h.place v) hwaits' ((h.owner _ v).mp hm') with ⟨hother, _⟩ | ⟨_, _, heq⟩
    · exact ⟨v, u, hother, hplace⟩
    · cases heq
  · rintro ⟨t, u, ht, hu⟩
    have hne : u ≠ t := by
      rintro rfl
      cases ht.symm.trans hu
    have hprograms : s.owner .programs = some t := (h.owner _ t).mpr (ht ▸ by decide)
    have hname : s.owner .activeName = some u := (h.owner _ u).mpr (hu ▸ by decide)
    refine ⟨{t, u}, ⟨t, .inl rfl⟩, ?_⟩
    rintro v (rfl | rfl)
    · exact ⟨.activeName, by rw [Waits, ht]; rfl, u, .inr rfl, hne, hname⟩
    · exact ⟨.programs, by rw [Waits, hu]; rfl, t, .inl rfl, hne.symm, hprograms⟩

theorem crossed_update (hs : ¬ s.Crossed) :
    Crossed ⟨owner, update s.todo t rest⟩ ↔
      rest = usingPrograms ∧ (∃ u, u ≠ t ∧ s.todo u = usingName) ∨
        rest = usingName ∧ ∃ u, u ≠ t ∧ s.todo u = usingPrograms := by
  have htodo : ∀ u, u ≠ t → update s.todo t rest u = s.todo u :=
    fun u hu => update_of_ne hu rest s.todo
  constructor
  · rintro ⟨v, u, hv, hu⟩
    dsimp only at hv hu
    rcases eq_or_ne v t with rfl | hvt
    · rw [update_self] at hv
      have hne : u ≠ v := by
        rintro rfl
        rw [update_self, hv] at hu
        cases hu
      exact .inl ⟨hv, u, hne, (htodo u hne).symm.trans hu⟩
    · rcases eq_or_ne u t with rfl | hut
      · rw [update_self] at hu
        exact .inr ⟨hu, v, hvt, (htodo v hvt).symm.trans hv⟩
      · exact absurd ⟨v, u, (htodo v hvt).symm.trans hv, (htodo u hut).symm.trans hu⟩ hs
  · rintro (⟨rfl, u, hne, hu⟩ | ⟨rfl, u, hne, hu⟩)
    · exact ⟨t, u, update_self .., (htodo u hne).trans hu⟩
    · exact ⟨u, t, (htodo u hne).trans hu, update_self ..⟩

theorem not_crossed_update (hs : ¬ s.Crossed) (hrest : rest ≠ usingPrograms ∧ rest ≠ usingName) :
    ¬ Crossed ⟨owner, update s.todo t rest⟩ := by
  rw [crossed_update hs]
  rintro (⟨heq, _⟩ | ⟨heq, _⟩)
  · exact hrest.1 heq
  · exact hrest.2 heq

theorem Tracked.crossed_step_iff (h : s.Tracked) (hs : ¬ s.Crossed) (l : LockStep T) :
    ¬ (s.step l).2.Crossed ↔ s.StepOk l := by
  cases l with
  | call t method =>
    refine iff_of_true ?_ trivial
    rw [LockThreads.step]
    split
    · exact not_crossed_update hs (script_using method)
    · exact hs
  | next t =>
    rw [LockThreads.step, StepOk]
    split
    · rename_i htodo
      exact iff_of_true hs ⟨fun heq => by simp [htodo, Method.script] at heq,
        fun heq => by simp [htodo, Method.script] at heq⟩
    · rename_i m rest htodo
      have hplace : .lock m :: rest ∈ places := htodo ▸ h.place t
      split
      · rename_i hfree
        rw [crossed_update hs, htodo]
        constructor
        · intro hnot
          refine ⟨fun heq hprograms u hu => hnot (.inl ?_), fun heq hname u hu => hnot (.inr ?_)⟩
          · cases heq
            refine ⟨rfl, u, ?_, hu⟩
            rintro rfl
            cases htodo.symm.trans hu
          cases heq
          refine ⟨rfl, u, ?_, hu⟩
          rintro rfl
          cases htodo.symm.trans hu
        · rintro ⟨hprograms, hname⟩ (⟨heq, u, _, hu⟩ | ⟨heq, u, _, hu⟩)
          · have hscript := (lock_using hplace).1 heq
            cases hscript
            exact hprograms rfl hfree u hu
          have hscript := (lock_using hplace).2 heq
          cases hscript
          exact hname rfl hfree u hu
      · rename_i hheld
        -- the mutex is held, and the thread stays where it is
        refine iff_of_true hs ⟨fun heq hfree => ?_, fun heq hfree => ?_⟩
        all_goals
          rw [htodo] at heq
          cases heq
          exact absurd hfree hheld
    · rename_i m rest htodo
      -- a release is the first acquisition of nothing
      refine iff_of_true (not_crossed_update hs (unlock_using (htodo ▸ h.place t))) ?_
      exact ⟨fun heq => by simp [htodo, Method.script] at heq,
        fun heq => by simp [htodo, Method.script] at heq⟩

omit [DecidableEq T] in
theorem tracked_start : (start : LockThreads T).Tracked := by
  constructor
  · intro t
    exact List.mem_cons_self
  intro m t
  refine iff_of_false ?_ ?_
  · intro howner
    cases howner
  · rintro ⟨hunlock, _⟩
    exact List.not_mem_nil hunlock

omit [DecidableEq T] in
theorem not_crossed_start : ¬ (start : LockThreads T).Crossed := by
  rintro ⟨t, u, ht, hu⟩
  cases ht

/-- **No set of threads ever waits for one another**, EXACTLY when
`use_program` and `active_interpreter` do not overlap between their two
acquisitions. -/
theorem no_deadlock_iff_stepOk (labels : List (LockStep T)) :
    Lib.Guarded step (fun s l => ¬ (s.step l).2.Deadlocked) start labels ↔
      Lib.Guarded step StepOk start labels := by
  refine Lib.guarded_iff_guarded step (P := fun s => s.Tracked ∧ ¬ s.Crossed) ?_ ?_
    ⟨tracked_start, not_crossed_start⟩
  · intro s l hs
    rw [(hs.1.step l).deadlocked_iff]
    exact hs.1.crossed_step_iff hs.2 l
  · intro s l hs hok
    exact ⟨hs.1.step l, (hs.1.crossed_step_iff hs.2 l).mpr hok⟩

/-- **`vcl.use` and a lookup of the active interpreter** take one mutex each,
and neither gets the other. -/
theorem not_no_deadlock_crossed : let labels : List (LockStep Bool) :=
      [.call false .useProgram, .call true .activeInterpreter, .next false, .next true]
    let s := (Lib.record step (start : LockThreads Bool) labels).2
    s.Deadlocked ∧
      ¬ Lib.Guarded step (fun s l => ¬ (s.step l).2.Deadlocked) (start : LockThreads Bool)
        labels := by
  intro labels s
  have hdead : s.Deadlocked := by
    refine ⟨Set.univ, ⟨false, trivial⟩, ?_⟩
    rintro (_ | _) _
    · exact ⟨.activeName, rfl, true, trivial, by decide, rfl⟩
    · exact ⟨.programs, rfl, false, trivial, by decide, rfl⟩
  exact ⟨hdead, fun h => h.2.2.2.1 hdead⟩

end LockThreads

end VarahaCache.Admin
