import VarahaCache.Lib.Machine

/-!
# Loaded programs and the one in use

`VclManager` of `rv-admin`, and `vcl.use`, which activates a program under the
manager's locks and publishes its interpreter in a step of its own. One call
after another the manager keeps a single active program, the latest used; two
`vcl.use` at once can activate in one order and publish in the other.

Interpreters are of any type: every `load` makes a new one.
-/

namespace VarahaCache.Admin

open Function Lib

inductive VclProgramState
  | available | active | discarded
deriving DecidableEq

structure VclProgramEntry (I : Type) where
  interpreter : I
  state : VclProgramState
deriving DecidableEq

structure VclManager (I : Type) where
  programs : String → Option (VclProgramEntry I)
  activeName : Option String

namespace VclManager

variable {I : Type}

def new : VclManager I := ⟨fun _ => none, none⟩

/-- `load`, with what the source compiles to. -/
def load (m : VclManager I) (name : String) (compiled : Except String I) :
    Except String Unit × VclManager I :=
  match compiled with
  | .error message => (.error message, m)
  | .ok interpreter =>
    if (m.programs name).any (·.state = .active) then
      (.error ("VCL program '" ++ name ++
        "' is currently active; discard or use a different name"), m)
    else
      (.ok (), { m with
        programs := update m.programs name (some ⟨interpreter, .available⟩) })

/-- The programs with the active one made available. -/
def deactivated (m : VclManager I) : String → Option (VclProgramEntry I) :=
  match m.activeName with
  | none => m.programs
  | some prevName =>
    match m.programs prevName with
    | none => m.programs
    | some prev =>
      if prev.state = .active then
        update m.programs prevName (some { prev with state := .available })
      else m.programs

def useProgram (m : VclManager I) (name : String) : Except String I × VclManager I :=
  match m.programs name with
  | none => (.error ("VCL program '" ++ name ++ "' not found"), m)
  | some target =>
    if target.state = .discarded then
      (.error ("VCL program '" ++ name ++ "' has been discarded"), m)
    else
      (.ok target.interpreter,
        { programs := update m.deactivated name (some { target with state := .active })
          activeName := some name })

def discard (m : VclManager I) (name : String) : Except String Unit × VclManager I :=
  match m.programs name with
  | none => (.error ("VCL program '" ++ name ++ "' not found"), m)
  | some entry =>
    if entry.state = .active then
      (.error ("VCL program '" ++ name ++ "' is active and cannot be discarded"), m)
    else (.ok (), { m with programs := update m.programs name none })

def Active (m : VclManager I) (name : String) (interpreter : I) : Prop :=
  m.programs name = some ⟨interpreter, .active⟩

/-- The active program is the one with the active name. -/
structure WellFormed (m : VclManager I) : Prop where
  only : ∀ name interpreter, m.Active name interpreter → m.activeName = some name
  there : ∀ name, m.activeName = some name → ∃ interpreter, m.Active name interpreter

theorem wellFormed_new : (new : VclManager I).WellFormed :=
  ⟨fun _ _ h => (by cases h), fun _ h => (by cases h)⟩

variable {m : VclManager I} {name : String} {interpreter : I}

theorem active_update {entry : Option (VclProgramEntry I)}
    (hold : ∀ interpreter, ¬ m.Active name interpreter)
    (hnew : ∀ interpreter, entry ≠ some ⟨interpreter, .active⟩) {other : String} :
    Active { m with programs := update m.programs name entry } other interpreter ↔
      m.Active other interpreter := by
  unfold Active
  rcases eq_or_ne other name with rfl | hne
  · simp only [update_self]
    exact iff_of_false (hnew interpreter) (hold interpreter)
  · simp only [update_of_ne hne]

theorem active_load (m : VclManager I) (name : String) (compiled : Except String I) :
    (m.load name compiled).2.activeName = m.activeName ∧
      ∀ other interpreter, (m.load name compiled).2.Active other interpreter ↔
        m.Active other interpreter := by
  unfold load
  split
  · exact ⟨rfl, fun _ _ => Iff.rfl⟩
  split
  · exact ⟨rfl, fun _ _ => Iff.rfl⟩
  rename_i hactive
  refine ⟨rfl, fun other interpreter => active_update (fun old hold => hactive ?_) (by simp)⟩
  rw [hold]
  rfl

theorem active_discard (m : VclManager I) (name : String) :
    (m.discard name).2.activeName = m.activeName ∧
      ∀ other interpreter, (m.discard name).2.Active other interpreter ↔
        m.Active other interpreter := by
  unfold discard
  split
  · exact ⟨rfl, fun _ _ => Iff.rfl⟩
  rename_i entry hentry
  split
  · exact ⟨rfl, fun _ _ => Iff.rfl⟩
  rename_i hactive
  refine ⟨rfl, fun other interpreter => active_update (fun old hold => hactive ?_) (by simp)⟩
  rw [Active, hentry] at hold
  cases hold
  rfl

theorem not_active_deactivated (h : m.WellFormed) (name : String)
    (interpreter : I) : m.deactivated name ≠ some ⟨interpreter, .active⟩ := by
  unfold deactivated
  cases hname : m.activeName with
  | none =>
    intro hactive
    cases hname.symm.trans (h.only name interpreter hactive)
  | some prevName =>
    obtain ⟨prev, hprev⟩ := h.there prevName hname
    rw [Active] at hprev
    simp only [hprev, if_true]
    -- the one program that was active is not any more
    rcases eq_or_ne name prevName with rfl | hne
    · rw [update_self]
      simp
    rw [update_of_ne hne]
    intro hactive
    cases hname.symm.trans (h.only name interpreter hactive)
    exact hne rfl

theorem useProgram_cases (h : m.WellFormed) (name : String) :
    (∃ message, m.useProgram name = (.error message, m)) ∨
      ∃ interpreter after, m.useProgram name = (.ok interpreter, after) ∧
        after.WellFormed ∧ after.Active name interpreter := by
  unfold useProgram
  split
  · exact .inl ⟨_, rfl⟩
  rename_i target htarget
  split
  · exact .inl ⟨_, rfl⟩
  have hself : Active (⟨update m.deactivated name
      (some { target with state := .active }), some name⟩ : VclManager I) name
      target.interpreter := update_self ..
  refine .inr ⟨target.interpreter, _, rfl, ⟨fun other interpreter hactive => ?_, ?_⟩, hself⟩
  · rcases eq_or_ne other name with rfl | hne
    · rfl
    · have hold := (update_of_ne hne _ _).symm.trans hactive
      exact absurd hold (not_active_deactivated h other interpreter)
  · intro other hother
    cases hother
    exact ⟨_, hself⟩

/-! ## One call after another -/

/-- How `list` shows the program of a name. -/
def listed (m : VclManager I) (name : String) : Option VclProgramState :=
  (m.programs name).map VclProgramEntry.state

def activeInterpreter (m : VclManager I) : Option I :=
  (m.activeName.bind m.programs).map VclProgramEntry.interpreter

theorem listed_eq_active_iff :
    m.listed name = some .active ↔ ∃ interpreter, m.Active name interpreter := by
  rw [listed, Option.map_eq_some_iff]
  constructor
  · rintro ⟨⟨interpreter, state⟩, hentry, rfl⟩
    exact ⟨interpreter, hentry⟩
  · rintro ⟨interpreter, hactive⟩
    exact ⟨_, hactive, rfl⟩

theorem WellFormed.activeName_eq_iff (h : m.WellFormed) :
    m.activeName = some name ↔ m.listed name = some .active := by
  rw [listed_eq_active_iff]
  exact ⟨h.there name, fun ⟨interpreter, hactive⟩ => h.only name interpreter hactive⟩

theorem WellFormed.activeInterpreter_eq_iff (h : m.WellFormed) :
    m.activeInterpreter = some interpreter ↔ ∃ name, m.Active name interpreter := by
  rw [activeInterpreter]
  constructor
  · intro hactive
    obtain ⟨entry, hentry, rfl⟩ := Option.map_eq_some_iff.mp hactive
    obtain ⟨name, hname, hentry⟩ := Option.bind_eq_some_iff.mp hentry
    obtain ⟨interpreter, hthere⟩ := h.there name hname
    cases hentry.symm.trans hthere
    exact ⟨name, hthere⟩
  · rintro ⟨name, hactive⟩
    rw [h.only name interpreter hactive, Option.bind_some, hactive]
    rfl

theorem WellFormed.of_active_iff {m m' : VclManager I} (h : m.WellFormed)
    (hsame : m'.activeName = m.activeName ∧
      ∀ name interpreter, m'.Active name interpreter ↔ m.Active name interpreter) :
    m'.WellFormed ∧ m'.activeInterpreter = m.activeInterpreter := by
  obtain ⟨hname, hactive⟩ := hsame
  have hwell : m'.WellFormed := by
    refine ⟨fun name interpreter hon => ?_, fun name hon => ?_⟩
    · rw [hname]
      exact h.only name interpreter ((hactive name interpreter).mp hon)
    · obtain ⟨interpreter, hthere⟩ := h.there name (hname.symm.trans hon)
      exact ⟨interpreter, (hactive name interpreter).mpr hthere⟩
  refine ⟨hwell, Option.ext fun interpreter => ?_⟩
  rw [hwell.activeInterpreter_eq_iff, h.activeInterpreter_eq_iff]
  exact exists_congr fun name => hactive name interpreter

inductive Call (I : Type)
  | load (name : String) (compiled : Except String I)
  | useProgram (name : String)
  | discard (name : String)

def callStep (m : VclManager I) : Call I → Option I × VclManager I
  | .load name compiled => (none, (m.load name compiled).2)
  | .useProgram name => ((m.useProgram name).1.toOption, (m.useProgram name).2)
  | .discard name => (none, (m.discard name).2)

/-- What the latest successful `use_program` returned. -/
def latestUsed (log : List (Call I × Option I)) : Option I := log.reverse.findSome? Prod.snd

theorem latestUsed_concat (log : List (Call I × Option I)) (call : Call I) (used : Option I) :
    latestUsed (log ++ [(call, used)]) = used.or (latestUsed log) := by
  rw [latestUsed, List.reverse_append]
  cases used <;> rfl

theorem WellFormed.callStep (h : m.WellFormed) (call : Call I) :
    (m.callStep call).2.WellFormed ∧
      (m.callStep call).2.activeInterpreter = (m.callStep call).1.or m.activeInterpreter := by
  cases call with
  | load name compiled => exact h.of_active_iff (m.active_load name compiled)
  | discard name => exact h.of_active_iff (m.active_discard name)
  | useProgram name =>
    rcases useProgram_cases h name with ⟨message, hrefused⟩ |
      ⟨interpreter, after, hused, hwell, hactive⟩
    · rw [VclManager.callStep, hrefused]
      exact ⟨h, rfl⟩
    · rw [VclManager.callStep, hused]
      exact ⟨hwell, hwell.activeInterpreter_eq_iff.mpr ⟨name, hactive⟩⟩

theorem wellFormed_record (calls : List (Call I)) :
    (record callStep (new : VclManager I) calls).2.WellFormed ∧
      (record callStep (new : VclManager I) calls).2.activeInterpreter =
        latestUsed (record callStep (new : VclManager I) calls).1 := by
  induction calls using List.reverseRecOn with
  | nil => exact ⟨wellFormed_new, rfl⟩
  | append_singleton calls call ih =>
    obtain ⟨hwell, hlatest⟩ := ih
    obtain ⟨hnext, hactive⟩ := hwell.callStep call
    rw [record_concat, latestUsed_concat, ← hlatest]
    exact ⟨hnext, hactive⟩

/-- **The active program is unique and stable**: one name, listed as active,
and the interpreter that the latest successful `use_program` returned. -/
theorem active_unique_and_stable (calls : List (Call I)) :
    let m := (record callStep (new : VclManager I) calls).2
    (∀ name other, m.listed name = some .active → m.listed other = some .active → name = other) ∧
      (∀ name, m.activeName = some name ↔ m.listed name = some .active) ∧
      m.activeInterpreter = latestUsed (record callStep (new : VclManager I) calls).1 := by
  intro m
  obtain ⟨hwell, hlatest⟩ := wellFormed_record calls
  refine ⟨fun name other hname hother => ?_, fun name => hwell.activeName_eq_iff, hlatest⟩
  have hsame := (hwell.activeName_eq_iff.mpr hname).symm.trans (hwell.activeName_eq_iff.mpr hother)
  exact Option.some.inj hsame

end VclManager

/-! ## Commands of several connections -/

/-- A command, or the second step of `vcl.use`. -/
inductive VclCommand (T I : Type)
  | load (name : String) (compiled : Except String I)
  | discard (name : String)
  | use (t : T) (name : String)
  | publish (t : T)

/-- The manager, what requests use, what each connection is about to publish,
and whether some `vcl.use` has succeeded. -/
structure VclAdmin (T I : Type) where
  manager : VclManager I
  activeVcl : Option I
  publishing : T → Option I
  used : Bool

namespace VclAdmin

variable {T I : Type}

def start : VclAdmin T I := ⟨.new, none, fun _ => none, false⟩

variable [DecidableEq T]

/-- One step, and whether it was refused. -/
def step (s : VclAdmin T I) : VclCommand T I → Option String × VclAdmin T I
  | .load name compiled =>
    match s.manager.load name compiled with
    | (.ok (), manager) => (none, { s with manager := manager })
    | (.error message, manager) => (some message, { s with manager := manager })
  | .discard name =>
    match s.manager.discard name with
    | (.ok (), manager) => (none, { s with manager := manager })
    | (.error message, manager) => (some message, { s with manager := manager })
  | .use t name =>
    match s.publishing t with
    | some _ => (none, s)
    | none =>
      match s.manager.useProgram name with
      | (.error message, manager) => (some message, { s with manager := manager })
      | (.ok interpreter, manager) => (none,
          { s with
            manager := manager
            publishing := update s.publishing t (some interpreter)
            used := true })
  | .publish t =>
    match s.publishing t with
    | none => (none, s)
    | some interpreter => (none,
        { s with
          activeVcl := some interpreter
          publishing := update s.publishing t none })

def Idle (s : VclAdmin T I) : Prop := ∀ t, s.publishing t = none

/-- With no command in progress, after some successful `vcl.use`, requests use
the interpreter of the active program. -/
def Agree (s : VclAdmin T I) : Prop :=
  s.Idle → s.used = true →
    ∃ name interpreter, s.manager.Active name interpreter ∧ s.activeVcl = some interpreter

/-- What is published last is the interpreter of the program active then. -/
def StepOk (s : VclAdmin T I) : VclCommand T I → Prop
  | .publish t => ∀ interpreter, s.publishing t = some interpreter →
      (∀ u, u ≠ t → s.publishing u = none) → ∃ name, s.manager.Active name interpreter
  | _ => True

structure Consistent (s : VclAdmin T I) : Prop where
  manager : s.manager.WellFormed
  publishing : ∀ t interpreter, s.publishing t = some interpreter → s.used = true
  agree : s.Agree

variable {s : VclAdmin T I}

omit [DecidableEq T] in
theorem Consistent.withManager (h : s.Consistent) {manager : VclManager I}
    (hmanager : manager.activeName = s.manager.activeName ∧
      ∀ name interpreter, manager.Active name interpreter ↔ s.manager.Active name interpreter) :
    Consistent { s with manager := manager } := by
  refine ⟨(h.manager.of_active_iff hmanager).1, h.publishing, fun hidle hused => ?_⟩
  obtain ⟨name, interpreter, hon, hactiveVcl⟩ := h.agree hidle hused
  exact ⟨name, interpreter, (hmanager.2 name interpreter).mpr hon, hactiveVcl⟩

theorem step_load (s : VclAdmin T I) (name : String) (compiled : Except String I) :
    (s.step (.load name compiled)).2 = { s with manager := (s.manager.load name compiled).2 } := by
  rw [step]
  rcases s.manager.load name compiled with ⟨_ | _, manager⟩
  all_goals rfl

theorem step_discard (s : VclAdmin T I) (name : String) :
    (s.step (.discard name)).2 = { s with manager := (s.manager.discard name).2 } := by
  rw [step]
  rcases s.manager.discard name with ⟨_ | _, manager⟩
  all_goals rfl

theorem Consistent.use_cases (h : s.Consistent) (t : T) (name : String) :
    (s.step (.use t name)).2 = s ∨
      ((s.step (.use t name)).2.manager.WellFormed ∧ (s.step (.use t name)).2.used = true ∧
        ∃ interpreter, (s.step (.use t name)).2.publishing t = some interpreter) := by
  rw [step]
  split
  · exact .inl rfl
  rcases VclManager.useProgram_cases h.manager name with ⟨message, hrefused⟩ |
    ⟨interpreter, after, hused, hwell, _⟩
  · rw [hrefused]
    exact .inl rfl
  · rw [hused]
    exact .inr ⟨hwell, rfl, interpreter, update_self ..⟩

theorem Consistent.use (h : s.Consistent) (t : T) (name : String) :
    (s.step (.use t name)).2.Consistent := by
  rcases h.use_cases t name with hsame | ⟨hwell, hused, interpreter, hpublishing⟩
  · rw [hsame]
    exact h
  refine ⟨hwell, fun _ _ _ => hused, fun hidle => ?_⟩
  -- the command is in progress until it has published
  cases (hidle t).symm.trans hpublishing

/-- After a publication the two agree exactly when what was published last is
active. -/
theorem Consistent.agree_publish_iff (h : s.Consistent) (t : T) :
    (s.step (.publish t)).2.Agree ↔ s.StepOk (.publish t) := by
  rw [step]
  cases hpublishing : s.publishing t with
  | none =>
    refine iff_of_true h.agree fun interpreter hsome => ?_
    cases hpublishing.symm.trans hsome
  | some interpreter =>
    have hidle : Idle { s with
        activeVcl := some interpreter
        publishing := update s.publishing t none } ↔
        ∀ u, u ≠ t → s.publishing u = none := by
      constructor
      · intro hall u hu
        exact (update_of_ne hu _ _).symm.trans (hall u)
      intro hall u
      rcases eq_or_ne u t with rfl | hu
      · exact update_self ..
      · exact (update_of_ne hu _ _).trans (hall u hu)
    constructor
    · intro hagree other hother hall
      cases hpublishing.symm.trans hother
      obtain ⟨name, active, hactive, heq⟩ := hagree (hidle.mpr hall) (h.publishing t _ hpublishing)
      cases heq
      exact ⟨name, hactive⟩
    · intro hok hall _
      obtain ⟨name, hactive⟩ := hok interpreter hpublishing (hidle.mp hall)
      exact ⟨name, interpreter, hactive, rfl⟩

theorem Consistent.publish (h : s.Consistent) {t : T} (hok : s.StepOk (.publish t)) :
    (s.step (.publish t)).2.Consistent := by
  have hagree := (h.agree_publish_iff t).mpr hok
  rw [step] at hagree ⊢
  cases hpublishing : s.publishing t with
  | none => exact h
  | some interpreter =>
    rw [hpublishing] at hagree
    exact ⟨h.manager, fun _ _ _ => h.publishing t interpreter hpublishing, hagree⟩

theorem Consistent.step (h : s.Consistent) {l : VclCommand T I} (hok : s.StepOk l) :
    (s.step l).2.Consistent := by
  cases l with
  | load name compiled =>
    rw [step_load]
    exact h.withManager (s.manager.active_load name compiled)
  | discard name =>
    rw [step_discard]
    exact h.withManager (s.manager.active_discard name)
  | use t name => exact h.use t name
  | publish t => exact h.publish hok

theorem Consistent.agree_step_iff (h : s.Consistent) (l : VclCommand T I) :
    (s.step l).2.Agree ↔ s.StepOk l := by
  cases l with
  | publish t => exact h.agree_publish_iff t
  | load name compiled =>
    exact iff_of_true (h.step (l := .load name compiled) trivial).agree trivial
  | discard name => exact iff_of_true (h.step (l := .discard name) trivial).agree trivial
  | use t name => exact iff_of_true (h.use t name).agree trivial

omit [DecidableEq T] in
theorem consistent_start : (start : VclAdmin T I).Consistent :=
  ⟨VclManager.wellFormed_new, fun _ _ h => (by cases h), fun _ h => (by cases h)⟩

end VclAdmin

end VarahaCache.Admin
