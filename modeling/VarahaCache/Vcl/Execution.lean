import VarahaCache.Vcl.Dispatch

/-!
# Running subroutines

What the statements of a subroutine and of those it calls can do, said once
for any observation of the context (`stays_execStatement`). So **VCL changes
only what it names**. A subroutine returns EXACTLY when no chain of calls goes
on for ever, and the parser accepts programs where one does.
-/

namespace VarahaCache.Vcl

open List Lib

/-! ## The statements of a program -/

mutual

def Statement.within : Statement → List Statement
  | .if condition body elseIfs elseBody =>
    .if condition body elseIfs elseBody ::
      (blockWithin body ++ (elseIfsWithin elseIfs ++ elseWithin elseBody))
  | statement => [statement]

def blockWithin : List Statement → List Statement
  | [] => []
  | statement :: rest => statement.within ++ blockWithin rest

def elseIfsWithin : List (Expr × List Statement) → List Statement
  | [] => []
  | (_, body) :: elseIfs => blockWithin body ++ elseIfsWithin elseIfs

def elseWithin : Option (List Statement) → List Statement
  | some body => blockWithin body
  | none => []

end

theorem Statement.mem_within (statement : Statement) : statement ∈ statement.within := by
  cases statement
  all_goals simp [Statement.within]

/-! ## Evaluation changes nothing -/

namespace Eval

variable {α β : Type}

/-- The context is left as it is. -/
def Quiet (p : Eval α) : Prop := ∀ s, (p s).2.ctx = s.ctx

theorem quiet_pure (a : α) : Quiet (pure a : Eval α) := fun _ => rfl

theorem quiet_ofExcept (r : Except String α) : Quiet (ofExcept r) := fun _ => rfl

theorem quiet_ask (f : ℕ → VclContext → Except String α) : Quiet (ask f) := fun _ => rfl

theorem quiet_read (f : VclContext → Except String α) : Quiet (read f) := fun _ => rfl

theorem Quiet.bind {p : Eval α} {f : α → Eval β} (hp : Quiet p) (hf : ∀ a, Quiet (f a)) :
    Quiet (p >>= f) := by
  intro s
  have hfirst := hp s
  rw [bind_apply]
  revert hfirst
  rcases p s with ⟨e | a, s'⟩
  · exact id
  · exact fun hfirst => (hf a s').trans hfirst

end Eval

namespace VclInterpreter

variable (interp : VclInterpreter)

theorem quiet_callBuiltin (name : String) (args : List VclValue) :
    (interp.callBuiltin name args).Quiet := by
  unfold callBuiltin
  split
  · exact Eval.quiet_ofExcept _
  · exact Eval.quiet_ofExcept _
  · exact Eval.quiet_pure _
  · exact Eval.quiet_pure _
  · exact Eval.quiet_pure _
  · split
    · exact Eval.quiet_ask _
    · exact Eval.quiet_pure _

mutual

theorem quiet_evalExpr : ∀ e, (interp.evalExpr e).Quiet
  | .stringLit _ | .intLit _ | .realLit _ | .durationLit _ | .boolLit _ | .regexLit _ => by
    rw [evalExpr]
    exact Eval.quiet_pure _
  | .ident _ | .headerRef _ _ => by
    rw [evalExpr]
    exact Eval.quiet_read _
  | .variable _ => by
    rw [evalExpr]
    exact Eval.quiet_ask _
  | .binaryOp left op right => by
    rw [evalExpr]
    exact (quiet_evalExpr left).bind fun _ => (quiet_evalExpr right).bind fun _ =>
      Eval.quiet_ofExcept _
  | .unaryOp _ operand => by
    rw [evalExpr]
    exact (quiet_evalExpr operand).bind fun _ => Eval.quiet_pure _
  | .functionCall name args => by
    rw [evalExpr]
    exact (quiet_evalArgs args).bind fun vals => interp.quiet_callBuiltin name vals
  | .methodCall object _ args => by
    rw [evalExpr]
    exact (quiet_evalExpr object).bind fun _ => (quiet_evalArgs args).bind fun _ =>
      Eval.quiet_pure _
  | .concat parts => by
    rw [evalExpr]
    exact (quiet_evalArgs parts).bind fun _ => Eval.quiet_pure _

theorem quiet_evalArgs : ∀ args, (interp.evalArgs args).Quiet
  | [] => by
    rw [evalArgs]
    exact Eval.quiet_pure _
  | arg :: args => by
    rw [evalArgs]
    exact (quiet_evalExpr arg).bind fun _ => (quiet_evalArgs args).bind fun _ =>
      Eval.quiet_pure _

end

/-! ## What statements leave as it is -/

end VclInterpreter

variable {α : Type}

/-- Observations that the synthetic response is no part of. -/
structure Blind (observe : VclContext → α) : Prop where
  synthBody : ∀ ctx body, observe { ctx with synthBody := body } = observe ctx
  synthStatus : ∀ ctx status, observe { ctx with synthStatus := status } = observe ctx

/-- The statement itself leaves an observation as it is, and calls only what
is allowed. -/
def Statement.Spares (formats : Formats) (observe : VclContext → α) (callable : String → Prop) :
    Statement → Prop
  | .set target operator _ => ∀ ctx val,
      observe (setVariable formats target val operator ctx) = observe ctx
  | .unset target => ∀ ctx, observe (unsetVariable target ctx) = observe ctx
  | .call name => callable name
  | _ => True

namespace VclInterpreter

variable {interp : VclInterpreter} {observe : VclContext → α} {callable : String → Prop}
  {a : α} {s : State}

/-- The tree makes allowed calls only, and the observation stays `a` if calls
leave it. -/
abbrev Stays (observe : VclContext → α) (callable : String → Prop) (a : α) (t : Run) : Prop :=
  Calls.Sat (fun name _ => callable name) (fun _ s r => observe r.2.ctx = observe s.ctx)
    (fun r => observe r.2.ctx = a) t

theorem stays_withValue {e : Expr} {f : VclValue → State → Run} (hs : observe s.ctx = a)
    (hf : ∀ val s', observe s'.ctx = a → Stays observe callable a (f val s')) :
    Stays observe callable a (interp.withValue e s f) := by
  have hquiet := interp.quiet_evalExpr e s
  unfold withValue
  split
  · rename_i val s' heval
    rw [heval] at hquiet
    exact hf val s' (by rw [hquiet, hs])
  rename_i message s' heval
  rw [heval] at hquiet
  exact .ret (by rw [hquiet, hs])

theorem observe_storeArg {store : VclValue → VclContext → VclContext}
    (hstore : ∀ val ctx, observe (store val ctx) = observe ctx) (arg : Option Expr) (s : State) :
    observe (interp.storeArg arg store s).ctx = observe s.ctx := by
  unfold storeArg
  split
  · rfl
  rename_i e
  have hquiet := interp.quiet_evalExpr e s
  split
  · rename_i val s' heval
    rw [heval] at hquiet
    rw [hstore, hquiet]
  rename_i message s' heval
  rw [heval] at hquiet
  rw [hquiet]

theorem observe_handleReturn (hblind : Blind observe) (action : Expr) (s : State) :
    observe (interp.handleReturn action s).2.ctx = observe s.ctx := by
  unfold handleReturn
  split
  · rfl
  · rfl
  · rw [observe_storeArg fun _ ctx => hblind.synthBody ctx _,
      observe_storeArg fun _ ctx => hblind.synthStatus ctx _]
  · rfl
  · rfl

mutual

theorem stays_execStatement (hblind : Blind observe) : ∀ (statement : Statement) (s : State),
    observe s.ctx = a →
    (∀ inner ∈ statement.within, inner.Spares interp.formats observe callable) →
    Stays observe callable a (interp.execStatement statement s)
  | .set target operator value, s, hs, h => by
    rw [execStatement]
    have hspares := h _ (Statement.mem_within _)
    exact stays_withValue hs fun val s' hs' => .ret ((hspares s'.ctx val).trans hs')
  | .unset target, s, hs, h => by
    rw [execStatement]
    exact .ret ((h _ (Statement.mem_within _) s.ctx).trans hs)
  | .call name, s, hs, h => by
    rw [execStatement]
    split
    · exact .call (h _ (Statement.mem_within _)) fun r hr => .ret (hr.trans hs)
    · exact .ret hs
  | .return action, s, hs, _ => by
    rw [execStatement]
    exact .ret ((observe_handleReturn hblind action s).trans hs)
  | .if condition body elseIfs elseBody, s, hs, h => by
    rw [execStatement]
    rw [Statement.within, forall_mem_cons] at h
    obtain ⟨hbody, hlater⟩ := forall_mem_append.mp h.2
    obtain ⟨helseIfs, helse⟩ := forall_mem_append.mp hlater
    refine stays_withValue hs fun val s' hs' => ?_
    split
    · exact stays_execBlock hblind body s' hs' hbody
    · exact stays_execElseIfs hblind elseIfs s' hs' helseIfs fun s' hs' =>
        stays_execElse hblind elseBody s' hs' helse
  | .synthetic e, s, hs, _ => by
    rw [execStatement]
    exact stays_withValue hs fun val s' hs' => .ret ((hblind.synthBody s'.ctx _).trans hs')
  | .ban e, s, hs, _ => by
    rw [execStatement]
    exact stays_withValue hs fun _ _ hs' => .ret hs'
  | .new _ _ _, s, hs, _ => by
    rw [execStatement]
    exact .ret hs
  | .exprStatement e, s, hs, _ => by
    rw [execStatement]
    exact stays_withValue hs fun _ _ hs' => .ret hs'

theorem stays_execBlock (hblind : Blind observe) : ∀ (block : List Statement) (s : State),
    observe s.ctx = a →
    (∀ inner ∈ blockWithin block, inner.Spares interp.formats observe callable) →
    Stays observe callable a (interp.execBlock block s)
  | [], s, hs, _ => by
    rw [execBlock]
    exact .ret hs
  | statement :: rest, s, hs, h => by
    rw [execBlock]
    rw [blockWithin] at h
    obtain ⟨hfirst, hrest⟩ := forall_mem_append.mp h
    refine (stays_execStatement hblind statement s hs hfirst).bind fun r hr => ?_
    split
    · exact stays_execBlock hblind rest r.2 hr hrest
    · exact .ret hr

theorem stays_execElseIfs (hblind : Blind observe) {otherwise : State → Run} :
    ∀ (elseIfs : List (Expr × List Statement)) (s : State), observe s.ctx = a →
    (∀ inner ∈ elseIfsWithin elseIfs, inner.Spares interp.formats observe callable) →
    (∀ s', observe s'.ctx = a → Stays observe callable a (otherwise s')) →
    Stays observe callable a (interp.execElseIfs elseIfs otherwise s)
  | [], s, hs, _, hotherwise => by
    rw [execElseIfs]
    exact hotherwise s hs
  | (condition, body) :: elseIfs, s, hs, h, hotherwise => by
    rw [execElseIfs]
    rw [elseIfsWithin] at h
    obtain ⟨hbody, hlater⟩ := forall_mem_append.mp h
    refine stays_withValue hs fun val s' hs' => ?_
    split
    · exact stays_execBlock hblind body s' hs' hbody
    · exact stays_execElseIfs hblind elseIfs s' hs' hlater hotherwise

theorem stays_execElse (hblind : Blind observe) :
    ∀ (elseBody : Option (List Statement)) (s : State), observe s.ctx = a →
    (∀ inner ∈ elseWithin elseBody, inner.Spares interp.formats observe callable) →
    Stays observe callable a (interp.execElse elseBody s)
  | some body, s, hs, h => by
    rw [execElse]
    rw [elseWithin] at h
    exact stays_execBlock hblind body s hs h
  | none, s, hs, _ => by
    rw [execElse]
    exact .ret hs

end

theorem stays_body (hblind : Blind observe) {name : String}
    (h : ∀ sub, interp.findSub name = some sub →
      ∀ statement ∈ blockWithin sub.body, statement.Spares interp.formats observe callable)
    (s : State) : Stays observe callable (observe s.ctx) (interp.body name s) := by
  unfold body
  split
  · rename_i sub hsub
    exact stays_execBlock hblind sub.body s rfl (h sub hsub)
  · exact .ret rfl

/-! ## What a program can run -/

/-- The subroutines that are reached from `start` through `call`. -/
inductive Reached (interp : VclInterpreter) (start : String) : String → Prop
  | start : Reached interp start start
  | call {name callee : String} {sub : SubDecl} (h : Reached interp start name)
      (hsub : interp.findSub name = some sub) (hcall : .call callee ∈ blockWithin sub.body) :
      Reached interp start callee

/-- A statement in `start` or in a subroutine reached from it. -/
def MayRun (interp : VclInterpreter) (start : String) (statement : Statement) : Prop :=
  ∃ name sub, interp.Reached start name ∧ interp.findSub name = some sub ∧
    statement ∈ blockWithin sub.body

theorem observe_execSubroutine (hblind : Blind observe) {start : String}
    (h : ∀ statement, interp.MayRun start statement →
      statement.Spares interp.formats observe (fun _ => True))
    {depth : ℕ} {r : VclExecResult × State}
    (hrun : interp.execSubroutine depth start s = some r) :
    observe r.2.ctx = observe s.ctx := by
  -- the calls of a reached subroutine are to reached ones, so the rule for procedures applies
  have hbody : ∀ name s, interp.Reached start name →
      Stays observe (interp.Reached start) (observe s.ctx) (interp.body name s) := by
    intro name s hname
    refine stays_body hblind (fun sub hsub statement hmem => ?_) s
    have hspares := h statement ⟨name, sub, hname, hsub, hmem⟩
    cases statement
    case call callee => exact .call hname hsub hmem
    all_goals exact hspares
  unfold execSubroutine at hrun
  split at hrun
  · obtain ⟨result, hexec, rfl⟩ := Option.map_eq_some_iff.mp hrun
    exact Calls.exec_sat hbody .start hexec
  · cases hrun
    rfl

end VclInterpreter

/-! ## Headers and URLs -/

def Statement.Targets (m : Message) (header : String) : Statement → Prop
  | .set target _ _ | .unset target => ∃ name, headerTarget target = some (m, name) ∧
      Text.eqIgnoreAsciiCase name header = true
  | _ => False

variable {formats : Formats} {m : Message} {header target : String} {statement : Statement}

theorem getAll_applyHeaderOp {name : String} (hne : Text.eqIgnoreAsciiCase name header = false)
    (val : VclValue) (op : SetOp) (headers : HeaderMap) :
    (applyHeaderOp formats name val op headers).getAll header = headers.getAll header := by
  cases op
  case subtract => rfl
  all_goals simp only [applyHeaderOp, HeaderMap.getAll_set, hne, Bool.false_eq_true, if_false]

theorem getAll_mapHeaders {m other : Message} {f : HeaderMap → HeaderMap}
    (h : m = other → ∀ headers, (f headers).getAll header = headers.getAll header)
    (ctx : VclContext) :
    (other.get (m.mapHeaders f ctx)).headers.getAll header =
      (other.get ctx).headers.getAll header := by
  -- only the message itself is touched
  by_cases heq : m = other
  · subst heq
    cases m
    all_goals exact h rfl _
  cases m
  all_goals cases other
  all_goals first | rfl | exact absurd rfl heq

theorem getAll_setVariable
    (h : ¬ ∃ name, headerTarget target = some (m, name) ∧
      Text.eqIgnoreAsciiCase name header = true) (val : VclValue) (op : SetOp) (ctx : VclContext) :
    (m.get (setVariable formats target val op ctx)).headers.getAll header =
      (m.get ctx).headers.getAll header := by
  unfold setVariable
  split
  case h_15 =>
    split
    · rename_i other name htarget
      refine getAll_mapHeaders (fun heq headers => getAll_applyHeaderOp ?_ val op headers) ctx
      subst heq
      exact Bool.eq_false_iff.mpr fun hname => h ⟨name, htarget, hname⟩
    · cases m
      all_goals rfl
  all_goals cases m
  all_goals rfl

theorem getAll_unsetVariable
    (h : ¬ ∃ name, headerTarget target = some (m, name) ∧
      Text.eqIgnoreAsciiCase name header = true) (ctx : VclContext) :
    (m.get (unsetVariable target ctx)).headers.getAll header =
      (m.get ctx).headers.getAll header := by
  unfold unsetVariable
  split
  · rename_i other name htarget
    refine getAll_mapHeaders (fun heq headers => headers.getAll_unset_of_ne ?_) ctx
    subst heq
    exact Bool.eq_false_iff.mpr fun hname => h ⟨name, htarget, hname⟩
  · cases m
    all_goals rfl

theorem Statement.spares_header (h : ¬ statement.Targets m header) :
    statement.Spares formats (fun ctx => (m.get ctx).headers.getAll header) (fun _ => True) := by
  cases statement
  case set target op value => exact fun ctx val => getAll_setVariable h val op ctx
  case unset target => exact fun ctx => getAll_unsetVariable h ctx
  all_goals trivial

theorem url_setVariable (h : target ≠ m.name ++ ".url") (val : VclValue) (op : SetOp)
    (ctx : VclContext) : (m.get (setVariable formats target val op ctx)).url = (m.get ctx).url := by
  unfold setVariable
  split
  case h_1 htarget =>
    cases m
    case req => exact absurd (Variable.eq_name_of_ofName? htarget (by decide)) h
    all_goals rfl
  case h_3 htarget =>
    cases m
    case bereq => exact absurd (Variable.eq_name_of_ofName? htarget (by decide)) h
    all_goals rfl
  case h_15 =>
    split
    · rename_i other name _
      cases m
      all_goals cases other
      all_goals rfl
    · cases m
      all_goals rfl
  all_goals cases m
  all_goals rfl

theorem url_unsetVariable (target : String) (m : Message) (ctx : VclContext) :
    (m.get (unsetVariable target ctx)).url = (m.get ctx).url := by
  unfold unsetVariable
  split
  · rename_i other name _
    cases m
    all_goals cases other
    all_goals rfl
  · cases m
    all_goals rfl

theorem Statement.spares_url (h : ∀ op value, statement ≠ .set (m.name ++ ".url") op value) :
    statement.Spares formats (fun ctx => (m.get ctx).url) (fun _ => True) := by
  cases statement
  case set target op value =>
    intro ctx val
    refine url_setVariable (fun htarget => ?_) val op ctx
    subst htarget
    exact h op value rfl
  case unset target => exact url_unsetVariable target m
  all_goals trivial

theorem Message.blind {β : Type} (m : Message) (f : HttpMessage → β) :
    Blind fun ctx => f (m.get ctx) := by
  constructor
  all_goals
    intro ctx _
    cases m
    all_goals rfl

namespace VclInterpreter

variable {interp : VclInterpreter} {start : String} {depth : ℕ} {result : VclExecResult}
  {s s' : State}

/-- **VCL changes only what it names.** A run that finishes, in whatever way,
leaves the values of a header as they are if no statement that may run sets or
unsets it, and the URLs if none sets them. -/
theorem changes_only_named (hrun : interp.execSubroutine depth start s = some (result, s')) :
    (∀ m header, (∀ statement, interp.MayRun start statement → ¬ statement.Targets m header) →
      (m.get s'.ctx).headers.getAll header = (m.get s.ctx).headers.getAll header) ∧
    ((∀ statement, interp.MayRun start statement →
        ∀ op value, statement ≠ .set "req.url" op value) → s'.ctx.req.url = s.ctx.req.url) ∧
    ((∀ statement, interp.MayRun start statement →
        ∀ op value, statement ≠ .set "bereq.url" op value) → s'.ctx.bereq.url = s.ctx.bereq.url) ∧
    ∀ e s, (interp.evalExpr e s).2.ctx = s.ctx := by
  refine ⟨fun m header h => ?_, fun h => ?_, fun h => ?_, interp.quiet_evalExpr⟩
  · exact observe_execSubroutine (m.blind fun msg => msg.headers.getAll header)
      (fun statement hruns => Statement.spares_header (h statement hruns)) hrun
  · exact observe_execSubroutine (Message.req.blind HttpMessage.url)
      (fun statement hruns => Statement.spares_url (m := .req) (h statement hruns)) hrun
  · exact observe_execSubroutine (Message.bereq.blind HttpMessage.url)
      (fun statement hruns => Statement.spares_url (m := .bereq) (h statement hruns)) hrun

theorem MayRun.mem {statement : Statement} (h : interp.MayRun start statement) :
    ∃ sub ∈ interp.program.subs, statement ∈ blockWithin sub.body := by
  obtain ⟨name, sub, _, hsub, hmem⟩ := h
  exact ⟨sub, mem_reverse.mp (mem_of_find?_eq_some hsub), hmem⟩

/-- A call in a branch, and a call that fails. -/
def delegating : VclProgram where
  version := none
  imports := []
  backends := []
  probes := []
  acls := []
  subs :=
    [⟨"a", [.if (.boolLit true) [.call "b"] [] none, .set "req.url" .assign (.stringLit "/b")]⟩,
      ⟨"b", [.set "req.http.X" .assign (.stringLit "1"), .call "c"]⟩]

/-- `X` is set before the error; `Y` and the URL of the backend request are
not. -/
theorem changes_only_named_delegating :
    ∃ s', (bare delegating).execSubroutine 2 "a" blank =
        some (.error "subroutine not found: c", s') ∧
      s'.ctx.req.headers.getAll "X" = ["1"] ∧
      s'.ctx.req.headers.getAll "Y" = blank.ctx.req.headers.getAll "Y" ∧
      s'.ctx.bereq.url = blank.ctx.bereq.url := by
  obtain ⟨s', hrun, hset⟩ : ∃ s', (bare delegating).execSubroutine 2 "a" blank =
      some (.error "subroutine not found: c", s') ∧ s'.ctx.req.headers.getAll "X" = ["1"] :=
    ⟨_, rfl, rfl⟩
  refine ⟨s', hrun, hset, ?_, ?_⟩
  · refine (changes_only_named hrun).1 .req "Y" fun statement hruns => ?_
    obtain ⟨sub, hsub, hmem⟩ := hruns.mem
    rcases mem_pair.mp hsub with rfl | rfl
    · simp only [blockWithin, Statement.within, elseIfsWithin, elseWithin, append_nil,
        cons_append, nil_append, mem_cons, not_mem_nil, or_false] at hmem
      rcases hmem with rfl | rfl | rfl
      · exact id
      · exact id
      · rintro ⟨name, htarget, _⟩
        have hnone : headerTarget "req.url" = none := by decide
        rw [hnone] at htarget
        cases htarget
    simp only [blockWithin, Statement.within, cons_append, nil_append, mem_cons,
      not_mem_nil, or_false] at hmem
    rcases hmem with rfl | rfl
    · rintro ⟨name, htarget, hname⟩
      have hsome : headerTarget "req.http.X" = some (.req, "X") := by decide
      rw [hsome] at htarget
      cases htarget
      exact absurd hname (by decide)
    · exact id
  · refine (changes_only_named hrun).2.2.1 fun statement hruns op value heq => ?_
    obtain ⟨sub, hsub, hmem⟩ := hruns.mem
    subst heq
    rcases mem_pair.mp hsub with rfl | rfl
    · simp [blockWithin, Statement.within, elseIfsWithin, elseWithin] at hmem
    · simp [blockWithin, Statement.within] at hmem

/-! ## Returning -/

def Finishes (interp : VclInterpreter) (name : String) (s : State) : Prop :=
  ∃ depth r, interp.execSubroutine depth name s = some r

theorem finishes_iff_returns {name : String} :
    interp.Finishes name s ↔ ∃ r, Calls.Returns interp.body name s r := by
  unfold Finishes execSubroutine Calls.Returns
  cases hsub : interp.findSub name with
  | none =>
    refine ⟨fun _ => ⟨(.error ("subroutine not found: " ++ name), s), 1, ?_⟩, fun _ => ⟨0, _, rfl⟩⟩
    rw [Calls.exec, body, hsub]
    rfl
  | some sub =>
    constructor
    · rintro ⟨depth, r, h⟩
      obtain ⟨r', hexec, _⟩ := Option.map_eq_some_iff.mp h
      exact ⟨r', depth, hexec⟩
    · rintro ⟨r, depth, hexec⟩
      exact ⟨depth, _, Option.map_eq_some_iff.mpr ⟨r, hexec, rfl⟩⟩

/-- **Without recursion every run returns.** When calls go down in some order
of the subroutines, each returns in every context, with calls nested no deeper
than its rank. -/
theorem returns_of_descending (rank : String → ℕ)
    (h : ∀ name sub, interp.findSub name = some sub →
      ∀ callee, .call callee ∈ blockWithin sub.body → rank callee < rank name)
    (name : String) (s : State) : ∃ r, interp.execSubroutine (rank name + 1) name s = some r := by
  -- nothing is observed here: it is the calls that matter
  have hstays : ∀ name s, Stays (fun _ => ()) (fun callee => rank callee < rank name) ()
      (interp.body name s) := by
    intro name s
    refine stays_body ⟨fun _ _ => rfl, fun _ _ => rfl⟩ (fun sub hsub statement hmem => ?_) s
    cases statement
    case call callee => exact h name sub hsub callee hmem
    case set => exact fun _ _ => rfl
    case unset => exact fun _ => rfl
    all_goals trivial
  unfold execSubroutine
  split
  · obtain ⟨r, hexec⟩ := Calls.exec_of_rank rank (fun _ _ _ => rfl)
      (fun name s => ⟨_, hstays name s⟩) (Nat.lt_succ_self (rank name))
    exact ⟨_, Option.map_eq_some_iff.mpr ⟨r, hexec, rfl⟩⟩
  · exact ⟨_, rfl⟩

theorem returns_of_descending_delegating :
    ∃ r, (bare delegating).execSubroutine 3 "a" blank = some r := by
  refine returns_of_descending
    (fun name => if name = "a" then 2 else if name = "b" then 1 else 0) ?_ "a" blank
  intro name sub hsub callee hcall
  have hname : sub.name = name := by simpa using find?_some hsub
  rcases mem_pair.mp (mem_reverse.mp (mem_of_find?_eq_some hsub)) with rfl | rfl
  all_goals
    subst hname
    simp [blockWithin, Statement.within, elseIfsWithin, elseWithin] at hcall
    subst hcall
    decide

def looping : VclProgram := ⟨none, [], [], [], [], [⟨"vcl_recv", [.call "vcl_recv"]⟩]⟩

theorem accepted_looping : accepted "sub vcl_recv \x7b call vcl_recv; \x7d" = some looping := by
  have htokens : Lexer.tokenize "sub vcl_recv \x7b call vcl_recv; \x7d" = .ok
      [⟨.sub, ⟨1, 1⟩⟩, ⟨.ident "vcl_recv", ⟨1, 5⟩⟩, ⟨.lBrace, ⟨1, 14⟩⟩, ⟨.call, ⟨1, 16⟩⟩,
        ⟨.ident "vcl_recv", ⟨1, 21⟩⟩, ⟨.semicolon, ⟨1, 29⟩⟩, ⟨.rBrace, ⟨1, 31⟩⟩,
        ⟨.eof, ⟨1, 32⟩⟩] := by
    decide +kernel
  have hparsed : looping.Parsed := by
    refine ⟨forall_mem_nil _, forall_mem_nil _, fun decl hdecl statement hmem => ?_⟩
    rw [mem_singleton.mp hdecl] at hmem
    rw [mem_singleton.mp hmem]
    exact .call _
  rw [accepted, htokens]
  dsimp only
  rw [Parser.parse_printProgram hparsed rfl rfl]
  rfl

end VclInterpreter

end VarahaCache.Vcl
