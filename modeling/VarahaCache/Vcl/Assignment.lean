import VarahaCache.Vcl.Execution

/-!
# Reading back what was set

The variables that can be set are written by one table of names and read by
another. A header, a URL, a reason or a flag reads as what was set. The
durations of a backend response are set as local variables, and read as their
defaults.
-/

namespace VarahaCache.Vcl

open Text List

/-- The variables that can be set and read. -/
inductive Assignable
  | reqUrl | bereqUrl | berespReason | respReason
  | uncacheable | doGzip | doGunzip
  | ttl | grace | keep
  | header (m : Message) (name : String)
deriving DecidableEq

namespace Assignable

def target : Assignable → String
  | .reqUrl => "req.url"
  | .bereqUrl => "bereq.url"
  | .berespReason => "beresp.reason"
  | .respReason => "resp.reason"
  | .uncacheable => "beresp.uncacheable"
  | .doGzip => "beresp.do_gzip"
  | .doGunzip => "beresp.do_gunzip"
  | .ttl => "beresp.ttl"
  | .grace => "beresp.grace"
  | .keep => "beresp.keep"
  | .header m name => m.name ++ ".http." ++ name

def readings : Assignable → List Expr
  | .header m name => [.headerRef m.name name, .variable (header m name).target]
  | v => [.variable v.target]

/-- A value as one of the variable's type. -/
def convert (formats : Formats) (val : VclValue) : Assignable → VclValue
  | .uncacheable | .doGzip | .doGunzip => .bool val.toBool
  | .ttl | .grace | .keep => .duration val.toDurationSecs
  | _ => .string (val.toStringValue formats)

/-- The same variable: case does not matter in the names of headers. -/
def Same : Assignable → Assignable → Prop
  | .header m name, .header m' name' => m = m' ∧ eqIgnoreAsciiCase name name' = true
  | v, w => v = w

def store (formats : Formats) (val : VclValue) (ctx : VclContext) : Assignable → VclContext
  | .reqUrl => { ctx with req.url := val.toStringValue formats }
  | .bereqUrl => { ctx with bereq.url := val.toStringValue formats }
  | .berespReason => { ctx with beresp.reason := val.toStringValue formats }
  | .respReason => { ctx with resp.reason := val.toStringValue formats }
  | .uncacheable => { ctx with uncacheable := val.toBool }
  | .doGzip => { ctx with doGzip := val.toBool }
  | .doGunzip => { ctx with doGunzip := val.toBool }
  | .ttl => { ctx with
      localVars := insertVar "beresp.ttl" (.duration val.toDurationSecs) ctx.localVars }
  | .grace => { ctx with
      localVars := insertVar "beresp.grace" (.duration val.toDurationSecs) ctx.localVars }
  | .keep => { ctx with
      localVars := insertVar "beresp.keep" (.duration val.toDurationSecs) ctx.localVars }
  | .header m name => m.mapHeaders (·.set name (val.toStringValue formats)) ctx

def shown (ctx : VclContext) : Assignable → VclValue
  | .reqUrl => .string ctx.req.url
  | .bereqUrl => .string ctx.bereq.url
  | .berespReason => .string ctx.beresp.reason
  | .respReason => .string ctx.resp.reason
  | .uncacheable => .bool ctx.uncacheable
  | .doGzip => .bool ctx.doGzip
  | .doGunzip => .bool ctx.doGunzip
  | .ttl => .duration 120
  | .grace => .duration 10
  | .keep => .duration 0
  | .header m name => m.headerText ctx name

/-- A local variable with the name of a header, which is read in its place. -/
def hidden (ctx : VclContext) : Assignable → Option VclValue
  | .header m name => ctx.localVars.lookup (header m name).target
  | _ => none

end Assignable

/-! ## Names of headers -/

theorem stripPrefix_of_ne {start other : String} (h : ¬ start.toList <+: other.toList)
    (h' : ¬ other.toList <+: start.toList) (s : String) :
    stripPrefix start (other ++ s) = none := by
  refine stripPrefix_eq_none fun hstart => ?_
  have hother : other.toList <+: (other ++ s).toList := by
    rw [String.toList_append]
    exact prefix_append _ _
  rcases prefix_or_prefix_of_prefix hstart hother with hle | hle
  · exact h hle
  · exact h' hle

theorem headerTarget_target (m : Message) (name : String) :
    headerTarget (Assignable.header m name).target = some (m, name) := by
  have hne : ∀ m', m' ≠ m →
      stripPrefix (m'.name ++ ".http.") (m.name ++ ".http." ++ name) = none := by
    intro m' hm
    refine stripPrefix_of_ne ?_ ?_ name
    all_goals cases m
    all_goals cases m'
    all_goals first | decide | exact absurd rfl hm
  have heq := stripPrefix_append (m.name ++ ".http.") name
  rw [Assignable.target, headerTarget]
  cases m
  all_goals simp [Message.all, hne, heq]

theorem ofName?_header (m : Message) (name : String) :
    Variable.ofName? (Assignable.header m name).target = none := by
  rw [Option.eq_none_iff_forall_ne_some]
  intro v hv
  have happend : (Assignable.header m name).target.toList =
      (m.name ++ ".http.").toList ++ name.toList := String.toList_append
  have hstart := prefix_append (m.name ++ ".http.").toList name.toList
  rw [← happend] at hstart
  rcases Variable.name_of_ofName? hv with hname | ⟨hname, _⟩
  all_goals rw [hname] at hstart
  · revert hstart
    cases m
    all_goals cases v
    all_goals decide
  · revert hstart
    cases m
    all_goals decide

/-! ## Setting and reading -/

namespace Assignable

theorem setVariable_target (formats : Formats) (val : VclValue) (ctx : VclContext)
    (v : Assignable) : setVariable formats v.target val .assign ctx = v.store formats val ctx := by
  cases v
  case header m name =>
    rw [setVariable, ofName?_header, headerTarget_target]
    rfl
  all_goals rfl

theorem resolveVariable_target (now : ℚ) (ctx : VclContext) (v : Assignable) :
    resolveVariable v.target now ctx = (v.hidden ctx).getD (v.shown ctx) := by
  cases v
  case header m name =>
    rw [resolveVariable, ofName?_header, headerTarget_target, hidden]
    cases ctx.localVars.lookup (header m name).target
    all_goals rfl
  all_goals rfl

theorem lookup_insertVar_of_ne {name other : String} (h : name ≠ other) (val : VclValue)
    (vars : List (String × VclValue)) :
    (insertVar name val vars).lookup other = vars.lookup other := by
  have hremove : (removeVar name vars).lookup other = vars.lookup other := by
    induction vars with
    | nil => rfl
    | cons entry vars ih =>
      obtain ⟨key, old⟩ := entry
      by_cases hkey : key = name
      · subst hkey
        rw [removeVar, filter_cons_of_neg (by simp), lookup_cons, beq_false_of_ne h.symm]
        exact ih
      rw [removeVar, filter_cons_of_pos (by simpa using hkey), lookup_cons, lookup_cons]
      split
      · rfl
      · exact ih
  rw [insertVar, lookup_cons, hremove, beq_false_of_ne h.symm]

theorem hidden_store (formats : Formats) (val : VclValue) (ctx : VclContext) (v w : Assignable) :
    w.hidden (v.store formats val ctx) = w.hidden ctx := by
  cases w
  case header m name =>
    have hne : ∀ known : Variable, known.name ≠ (header m name).target := by
      intro known heq
      have hknown := known.ofName?_name
      rw [heq, ofName?_header] at hknown
      cases hknown
    cases v
    case ttl => exact lookup_insertVar_of_ne (hne .berespTtl) _ _
    case grace => exact lookup_insertVar_of_ne (hne .berespGrace) _ _
    case keep => exact lookup_insertVar_of_ne (hne .berespKeep) _ _
    case header other _ =>
      cases other
      all_goals rfl
    all_goals rfl
  all_goals rfl

theorem headerText_mapHeaders_set (m other : Message) (name header text : String)
    (ctx : VclContext) :
    other.headerText (m.mapHeaders (·.set name text) ctx) header =
      if m = other ∧ eqIgnoreAsciiCase name header = true then .string text
      else other.headerText ctx header := by
  by_cases hm : m = other
  · subst hm
    have hget : ∀ headers : HeaderMap, (headers.set name text).get header =
        if eqIgnoreAsciiCase name header = true then some text else headers.get header :=
      fun headers => headers.get_set name text header
    cases m
    all_goals
      simp only [Message.headerText, Message.mapHeaders, Message.get, HttpMessage.getHeader, hget,
        true_and]
      split
      all_goals rfl
  · rw [if_neg fun h => hm h.1]
    cases m
    all_goals cases other
    all_goals first | rfl | exact absurd rfl hm

theorem shown_store_of_ne {v w : Assignable} (h : ¬ v.Same w) (formats : Formats) (val : VclValue)
    (ctx : VclContext) : w.shown (v.store formats val ctx) = w.shown ctx := by
  cases v
  case header m name =>
    cases w
    case header other header =>
      exact (headerText_mapHeaders_set m other name header _ ctx).trans (if_neg h)
    all_goals cases m
    all_goals rfl
  all_goals cases w
  case reqUrl.reqUrl => exact absurd rfl h
  case bereqUrl.bereqUrl => exact absurd rfl h
  case berespReason.berespReason => exact absurd rfl h
  case respReason.respReason => exact absurd rfl h
  case uncacheable.uncacheable => exact absurd rfl h
  case doGzip.doGzip => exact absurd rfl h
  case doGunzip.doGunzip => exact absurd rfl h
  all_goals first | rfl | (rename_i m _; cases m <;> rfl)

/-- A duration is the default; a header is not hidden by a local variable with
another value. -/
def Kept (formats : Formats) (val : VclValue) (ctx : VclContext) : Assignable → Prop
  | .ttl => val.toDurationSecs = 120
  | .grace => val.toDurationSecs = 10
  | .keep => val.toDurationSecs = 0
  | .header m name => ∀ other, ctx.localVars.lookup (m.name ++ ".http." ++ name) = some other →
      other = .string (val.toStringValue formats)
  | _ => True

theorem shown_store_iff {formats : Formats} {val : VclValue} {ctx : VclContext} {v : Assignable} :
    v.shown (v.store formats val ctx) = v.convert formats val ∧
      (∀ other, v.hidden ctx = some other → other = v.convert formats val) ↔
    v.Kept formats val ctx := by
  cases v
  case ttl => simp [shown, convert, hidden, Kept, eq_comm]
  case grace => simp [shown, convert, hidden, Kept, eq_comm]
  case keep => simp [shown, convert, hidden, Kept, eq_comm]
  case header m name =>
    have hshown : (header m name).shown ((header m name).store formats val ctx) =
        .string (val.toStringValue formats) :=
      (headerText_mapHeaders_set m m name name _ ctx).trans
        (if_pos ⟨rfl, by simp [eqIgnoreAsciiCase]⟩)
    exact and_iff_right hshown
  all_goals simp [shown, store, convert, hidden, Kept]

end Assignable

namespace VclInterpreter

variable {interp : VclInterpreter} {v : Assignable} {s s' : State} {e : Expr} {val : VclValue}

theorem evalExpr_variable (interp : VclInterpreter) (v : Assignable) (s : State) :
    (interp.evalExpr (.variable v.target) s).1 = .ok ((v.hidden s.ctx).getD (v.shown s.ctx)) := by
  rw [evalExpr, ← v.resolveVariable_target (interp.now s.tick) s.ctx]
  rfl

theorem evalExpr_headerRef (interp : VclInterpreter) (m : Message) (name : String) (s : State) :
    (interp.evalExpr (.headerRef m.name name) s).1 =
      .ok ((Assignable.header m name).shown s.ctx) := by
  rw [evalExpr]
  cases m
  all_goals rfl

theorem evalExpr_congr {w : Assignable} (hshown : w.shown s'.ctx = w.shown s.ctx)
    (hhidden : w.hidden s'.ctx = w.hidden s.ctx) {reading : Expr} (h : reading ∈ w.readings) :
    (interp.evalExpr reading s').1 = (interp.evalExpr reading s).1 := by
  have hvariable : (interp.evalExpr (.variable w.target) s').1 =
      (interp.evalExpr (.variable w.target) s).1 := by
    rw [evalExpr_variable, evalExpr_variable, hshown, hhidden]
  cases w
  case header m name =>
    rcases mem_pair.mp h with rfl | rfl
    · rw [evalExpr_headerRef, evalExpr_headerRef, hshown]
    · exact hvariable
  all_goals
    rw [mem_singleton.mp h]
    exact hvariable

theorem reads_iff (interp : VclInterpreter) {x : VclValue} :
    (∀ reading ∈ v.readings, (interp.evalExpr reading s).1 = .ok x) ↔
      v.shown s.ctx = x ∧ ∀ other, v.hidden s.ctx = some other → other = x := by
  have hvariable : (interp.evalExpr (.variable v.target) s).1 = .ok x ↔
      (v.hidden s.ctx).getD (v.shown s.ctx) = x := by
    rw [evalExpr_variable, Except.ok.injEq]
  cases v
  case header m name =>
    rw [Assignable.readings, forall_mem_cons, forall_mem_singleton, hvariable,
      evalExpr_headerRef, Except.ok.injEq]
    refine and_congr_right fun hshown => ?_
    cases (Assignable.header m name).hidden s.ctx with
    | none => simp [hshown]
    | some other => simp
  all_goals
    rw [Assignable.readings, forall_mem_singleton, hvariable]
    · simp [Assignable.hidden]
    · simp

/-- **A variable reads back as what it was set to**, and every other as
before, EXACTLY when the value is kept: the durations of a backend response
are not, other than their defaults. -/
theorem reads_back_iff (interp : VclInterpreter) (v : Assignable)
    (heval : interp.evalExpr e s = (.ok val, s')) :
    (∃ after, interp.execStatement (.set v.target .assign e) s = .ret (.continue, after) ∧
      (∀ reading ∈ v.readings,
        (interp.evalExpr reading after).1 = .ok (v.convert interp.formats val)) ∧
      ∀ w, ¬ v.Same w → ∀ reading ∈ w.readings,
        (interp.evalExpr reading after).1 = (interp.evalExpr reading s).1) ↔
    v.Kept interp.formats val s.ctx := by
  have hctx : s'.ctx = s.ctx := by
    have hquiet := interp.quiet_evalExpr e s
    rwa [heval] at hquiet
  have hset : interp.execStatement (.set v.target .assign e) s =
      .ret (.continue, { s' with ctx := v.store interp.formats val s.ctx }) := by
    rw [execStatement, withValue, heval]
    dsimp only
    rw [v.setVariable_target, hctx]
  have hread := reads_iff interp (v := v) (x := v.convert interp.formats val)
    (s := { s' with ctx := v.store interp.formats val s.ctx })
  rw [v.hidden_store, Assignable.shown_store_iff] at hread
  constructor
  · rintro ⟨after, hafter, hreads, _⟩
    rw [hset] at hafter
    cases hafter
    exact hread.mp hreads
  · intro hkept
    refine ⟨_, hset, hread.mpr hkept, fun w hw reading hreading => ?_⟩
    exact evalExpr_congr (Assignable.shown_store_of_ne hw _ _ _) (v.hidden_store _ _ _ w) hreading

/-- A header is read back. -/
theorem reads_back_header : ∃ after, (bare ⟨none, [], [], [], [], []⟩).execStatement
        (.set "req.http.X" .assign (.stringLit "1")) blank = .ret (.continue, after) ∧
      ((bare ⟨none, [], [], [], [], []⟩).evalExpr (.headerRef "req" "X") after).1 =
        .ok (.string "1") := by
  obtain ⟨after, hset, hreads, _⟩ := (reads_back_iff (bare ⟨none, [], [], [], [], []⟩)
    (.header .req "X") (e := .stringLit "1") (s := blank) rfl).mpr (by intro other h; cases h)
  exact ⟨after, hset, hreads _ mem_cons_self⟩

/-- **Five minutes read as two.** -/
theorem not_reads_back_ttl : ∃ after, (bare ⟨none, [], [], [], [], []⟩).execStatement
        (.set "beresp.ttl" .assign (.durationLit 300)) blank = .ret (.continue, after) ∧
      ((bare ⟨none, [], [], [], [], []⟩).evalExpr (.variable "beresp.ttl") after).1 =
        .ok (.duration 120) := ⟨_, rfl, rfl⟩

end VclInterpreter

end VarahaCache.Vcl
