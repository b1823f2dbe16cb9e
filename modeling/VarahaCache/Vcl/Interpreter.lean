import VarahaCache.Lib.Hex
import VarahaCache.Lib.Procedures
import VarahaCache.Vcl.Context
import VarahaCache.Vcl.Lexer
import VarahaCache.Vcl.Parser

/-!
# The VCL interpreter

`VclValue` of `rv-types` and `VclInterpreter` of `rv-vcl`. An expression is
evaluated in a context that is handed on as the source does; that it is not
changed is a theorem. A statement is a tree of calls: `call` asks for the body
of another subroutine.

Numbers with a fraction are exact. Time and VMOD functions are asked for at
ticks. A pattern is compiled again where the source has it in a cache.
-/

namespace VarahaCache

open Text

/-! ## Values -/

/-- How the libraries write numbers with a fraction, and addresses. -/
structure Formats where
  real : ℚ → String
  ip : IpAddr → String

/-- `f64 as i64`: towards zero, and to the nearer limit from beyond. -/
def truncI64 (r : ℚ) : Int64 := Int64.ofInt (max (-2 ^ 63) (min (2 ^ 63 - 1) (r.num.tdiv r.den)))

namespace VclValue

def toStringValue (formats : Formats) : VclValue → String
  | .string s => s
  | .int i => toString i.toInt
  | .real r => formats.real r
  | .duration d => formats.real d ++ "s"
  | .bool b => if b then "true" else "false"
  | .ip a => formats.ip a
  | .blob data => Lib.hexEncode data
  | .void => ""

def toBool : VclValue → Bool
  | .bool b => b
  | .int i => i ≠ 0
  | .real r => r ≠ 0
  | .string s => s ≠ ""
  | .duration d => 0 < d
  | .void => false
  | .ip _ => true
  | .blob data => data ≠ []

def toReal : VclValue → ℚ
  | .real r => r
  | .int i => i.toInt
  | .duration d => d
  | .bool b => if b then 1 else 0
  | .string s => (parseF64 s).getD 0
  | _ => 0

def toInt : VclValue → Int64
  | .int i => i
  | .real r => truncI64 r
  | .duration d => truncI64 d
  | .bool b => if b then 1 else 0
  | .string s => (parseI64 s).getD 0
  | _ => 0

end VclValue

namespace Vcl

/-- The program of a source text, as `VclManager::load` and `load_vcl` have
it: only the parser checks it. -/
def accepted (source : String) : Option VclProgram :=
  match Lexer.tokenize source with
  | .ok tokens => (Parser.parse tokens).toOption
  | .error _ => none

/-! ## Actions -/

def actionFromName : String → Option InterpreterAction
  | "deliver" => some .deliver
  | "pass" => some .pass
  | "pipe" => some .pipe
  | "hash" => some .hash
  | "lookup" => some .lookup
  | "fetch" => some .fetch
  | "synth" => some .synth
  | "purge" => some .purge
  | "restart" => some .restart
  | "retry" => some .retry
  | "abandon" => some .abandon
  | "fail" => some .fail
  | "error" => some .error
  | "ok" => some .ok
  | _ => none

inductive ControlFlow
  | «continue»
  | «return» (action : InterpreterAction)
  | error (message : String)
deriving DecidableEq

/-! ## Variables -/

inductive Message
  | req | resp | bereq | beresp
deriving DecidableEq

namespace Message

def all : List Message := [.req, .resp, .bereq, .beresp]

def name : Message → String
  | .req => "req"
  | .resp => "resp"
  | .bereq => "bereq"
  | .beresp => "beresp"

def ofName? (s : String) : Option Message := all.find? (·.name = s)

def get (ctx : VclContext) : Message → HttpMessage
  | .req => ctx.req
  | .resp => ctx.resp
  | .bereq => ctx.bereq
  | .beresp => ctx.beresp

def mapHeaders (f : HeaderMap → HeaderMap) (ctx : VclContext) : Message → VclContext
  | .req => { ctx with req.headers := f ctx.req.headers }
  | .resp => { ctx with resp.headers := f ctx.resp.headers }
  | .bereq => { ctx with bereq.headers := f ctx.bereq.headers }
  | .beresp => { ctx with beresp.headers := f ctx.beresp.headers }

def headerText (ctx : VclContext) (m : Message) (header : String) : VclValue :=
  .string (((m.get ctx).getHeader header).getD "")

end Message

/-- The header a name such as `req.http.X-Foo` stands for. -/
def headerTarget (name : String) : Option (Message × String) :=
  Message.all.findSome? fun m =>
    (stripPrefix (m.name ++ ".http.") name).map fun header => (m, header)

/-- The names that stand for something other than a header. -/
inductive Variable
  | reqUrl | reqMethod | reqProto | reqRestarts | reqIsSsl
  | bereqUrl | bereqMethod | bereqProto
  | berespStatus | berespReason | berespTtl | berespGrace | berespKeep | berespUncacheable
  | berespDoGzip | berespDoGunzip
  | respStatus | respReason | respProto
  | objHits | objTtl | objGrace | objKeep
  | clientIp | serverIp
  | now
deriving DecidableEq

def Variable.ofName? : String → Option Variable
  | "req.url" => some .reqUrl
  | "req.method" => some .reqMethod
  | "req.proto" => some .reqProto
  | "req.restarts" => some .reqRestarts
  | "req.is_ssl" => some .reqIsSsl
  | "req.is_tls" => some .reqIsSsl
  | "bereq.url" => some .bereqUrl
  | "bereq.method" => some .bereqMethod
  | "bereq.proto" => some .bereqProto
  | "beresp.status" => some .berespStatus
  | "beresp.reason" => some .berespReason
  | "beresp.ttl" => some .berespTtl
  | "beresp.grace" => some .berespGrace
  | "beresp.keep" => some .berespKeep
  | "beresp.uncacheable" => some .berespUncacheable
  | "beresp.do_gzip" => some .berespDoGzip
  | "beresp.do_gunzip" => some .berespDoGunzip
  | "resp.status" => some .respStatus
  | "resp.reason" => some .respReason
  | "resp.proto" => some .respProto
  | "obj.hits" => some .objHits
  | "obj.ttl" => some .objTtl
  | "obj.grace" => some .objGrace
  | "obj.keep" => some .objKeep
  | "client.ip" => some .clientIp
  | "server.ip" => some .serverIp
  | "now" => some .now
  | _ => none

def Variable.name : Variable → String
  | .reqUrl => "req.url"
  | .reqMethod => "req.method"
  | .reqProto => "req.proto"
  | .reqRestarts => "req.restarts"
  | .reqIsSsl => "req.is_ssl"
  | .bereqUrl => "bereq.url"
  | .bereqMethod => "bereq.method"
  | .bereqProto => "bereq.proto"
  | .berespStatus => "beresp.status"
  | .berespReason => "beresp.reason"
  | .berespTtl => "beresp.ttl"
  | .berespGrace => "beresp.grace"
  | .berespKeep => "beresp.keep"
  | .berespUncacheable => "beresp.uncacheable"
  | .berespDoGzip => "beresp.do_gzip"
  | .berespDoGunzip => "beresp.do_gunzip"
  | .respStatus => "resp.status"
  | .respReason => "resp.reason"
  | .respProto => "resp.proto"
  | .objHits => "obj.hits"
  | .objTtl => "obj.ttl"
  | .objGrace => "obj.grace"
  | .objKeep => "obj.keep"
  | .clientIp => "client.ip"
  | .serverIp => "server.ip"
  | .now => "now"

@[simp] theorem Variable.ofName?_name (v : Variable) : ofName? v.name = some v := by
  cases v <;> rfl

theorem Variable.name_of_ofName? {name : String} {v : Variable} (h : ofName? name = some v) :
    name = v.name ∨ name = "req.is_tls" ∧ v = .reqIsSsl := by
  unfold ofName? at h
  split at h
  all_goals cases h
  all_goals first | exact .inl rfl | exact .inr ⟨rfl, rfl⟩

theorem Variable.eq_name_of_ofName? {name : String} {v : Variable} (h : ofName? name = some v)
    (hv : v ≠ .reqIsSsl) : name = v.name :=
  (name_of_ofName? h).resolve_right fun htls => hv htls.2

/-- What a variable reads as. The durations of a response read as their
defaults. -/
def Variable.read (now : ℚ) (ctx : VclContext) : Variable → VclValue
  | .reqUrl => .string ctx.req.url
  | .reqMethod => .string ctx.req.method.name
  | .reqProto => .string ctx.req.protocol.asStr
  | .reqRestarts => .int (Int64.ofNat ctx.restarts)
  | .reqIsSsl => .bool ctx.isSsl
  | .bereqUrl => .string ctx.bereq.url
  | .bereqMethod => .string ctx.bereq.method.name
  | .bereqProto => .string ctx.bereq.protocol.asStr
  | .berespStatus => .int (Int64.ofNat ctx.beresp.status.code.toNat)
  | .berespReason => .string ctx.beresp.reason
  | .berespTtl => .duration 120
  | .berespGrace => .duration 10
  | .berespKeep => .duration 0
  | .berespUncacheable => .bool ctx.uncacheable
  | .berespDoGzip => .bool ctx.doGzip
  | .berespDoGunzip => .bool ctx.doGunzip
  | .respStatus => .int (Int64.ofNat ctx.resp.status.code.toNat)
  | .respReason => .string ctx.resp.reason
  | .respProto => .string ctx.resp.protocol.asStr
  | .objHits => .int (Int64.ofInt ctx.objHits)
  | .objTtl => .duration ctx.objTtl
  | .objGrace => .duration ctx.objGrace
  | .objKeep => .duration ctx.objKeep
  | .clientIp => .ip ctx.clientIp
  | .serverIp => .ip ctx.serverIp
  | .now => .real now

def resolveVariable (name : String) (now : ℚ) (ctx : VclContext) : VclValue :=
  match Variable.ofName? name with
  | some v => v.read now ctx
  | none =>
    match ctx.localVars.lookup name with
    | some val => val
    | none =>
      match headerTarget name with
      | some (m, header) => m.headerText ctx header
      | none => .void

def removeVar (name : String) (vars : List (String × VclValue)) : List (String × VclValue) :=
  vars.filter fun entry => entry.1 ≠ name

def insertVar (name : String) (val : VclValue) (vars : List (String × VclValue)) :
    List (String × VclValue) := (name, val) :: removeVar name vars

def applyHeaderOp (formats : Formats) (name : String) (val : VclValue) (op : SetOp)
    (headers : HeaderMap) : HeaderMap :=
  match op with
  | .assign => headers.set name (val.toStringValue formats)
  | .add => headers.set name ((headers.get name).getD "" ++ val.toStringValue formats)
  | .subtract => headers

def applyDurationOp (current new : ℚ) : SetOp → ℚ
  | .assign => new
  | .add => current + new
  | .subtract => current - new

/-- A duration of the response, which is kept as a local variable. -/
def setDuration (name : String) (default : ℚ) (val : VclValue) (op : SetOp) (ctx : VclContext) :
    VclContext :=
  let current := ((ctx.localVars.lookup name).map VclValue.toDurationSecs).getD default
  let new := applyDurationOp current val.toDurationSecs op
  { ctx with localVars := insertVar name (.duration new) ctx.localVars }

def applyTextOp (current new : String) : SetOp → String
  | .assign => new
  | .add => current ++ new
  | .subtract => current

def applyAssign {α : Type} (current new : α) : SetOp → α
  | .assign => new
  | _ => current

/-- `i64 as u16`. -/
def truncU16 (i : Int64) : UInt16 := i.toUInt64.toUInt16

/-- `set_variable`. What cannot be written is taken for a local variable. -/
def setVariable (formats : Formats) (name : String) (val : VclValue) (op : SetOp)
    (ctx : VclContext) : VclContext :=
  match Variable.ofName? name with
  | some .reqUrl =>
    { ctx with req.url := applyTextOp ctx.req.url (val.toStringValue formats) op }
  | some .reqMethod =>
    { ctx with
      req.method := applyAssign ctx.req.method (.parseMethod (val.toStringValue formats)) op }
  | some .bereqUrl =>
    { ctx with bereq.url := applyTextOp ctx.bereq.url (val.toStringValue formats) op }
  | some .bereqMethod =>
    { ctx with
      bereq.method := applyAssign ctx.bereq.method (.parseMethod (val.toStringValue formats)) op }
  | some .berespStatus =>
    { ctx with beresp.status := applyAssign ctx.beresp.status ⟨truncU16 val.toInt⟩ op }
  | some .berespReason =>
    { ctx with beresp.reason := applyAssign ctx.beresp.reason (val.toStringValue formats) op }
  | some .berespTtl => setDuration "beresp.ttl" 120 val op ctx
  | some .berespGrace => setDuration "beresp.grace" 10 val op ctx
  | some .berespKeep => setDuration "beresp.keep" 0 val op ctx
  | some .berespUncacheable => { ctx with uncacheable := applyAssign ctx.uncacheable val.toBool op }
  | some .berespDoGzip => { ctx with doGzip := applyAssign ctx.doGzip val.toBool op }
  | some .berespDoGunzip => { ctx with doGunzip := applyAssign ctx.doGunzip val.toBool op }
  | some .respStatus =>
    { ctx with resp.status := applyAssign ctx.resp.status ⟨truncU16 val.toInt⟩ op }
  | some .respReason =>
    { ctx with resp.reason := applyAssign ctx.resp.reason (val.toStringValue formats) op }
  | _ =>
    match headerTarget name with
    | some (m, header) => m.mapHeaders (applyHeaderOp formats header val op) ctx
    | none => { ctx with localVars := insertVar name val ctx.localVars }

def unsetVariable (name : String) (ctx : VclContext) : VclContext :=
  match headerTarget name with
  | some (m, header) => m.mapHeaders (·.unset header) ctx
  | none => { ctx with localVars := removeVar name ctx.localVars }

/-! ## Expressions -/

structure Regex where
  isMatch : String → Bool
  replace : String → String → String
  replaceAll : String → String → String

/-- `FunctionResolver::call`, at a tick. -/
def FunctionResolver := ℕ → String → String → List VclValue → Except String VclValue

structure VclInterpreter where
  program : VclProgram
  resolver : Option FunctionResolver
  formats : Formats
  regexNew : String → Except String Regex
  now : ℕ → ℚ

/-- A context, and how often time or a function was asked for. -/
structure State where
  ctx : VclContext
  tick : ℕ

def Eval (α : Type) := State → Except String α × State

namespace Eval

variable {α β : Type}

protected def pure (a : α) : Eval α := fun s => (.ok a, s)

protected def bind (p : Eval α) (f : α → Eval β) : Eval β := fun s =>
  match p s with
  | (.error e, s') => (.error e, s')
  | (.ok a, s') => f a s'

instance : Monad Eval where
  pure := Eval.pure
  bind := Eval.bind

theorem bind_apply (p : Eval α) (f : α → Eval β) (s : State) :
    (p >>= f) s =
      match p s with
      | (.error e, s') => (.error e, s')
      | (.ok a, s') => f a s' := rfl

theorem bind_of_ok {p : Eval α} {f : α → Eval β} {s s' : State} {a : α} (h : p s = (.ok a, s')) :
    (p >>= f) s = f a s' := by
  rw [bind_apply, h]

def ofExcept (r : Except String α) : Eval α := fun s => (r, s)

/-- Ask the outside, once. -/
def ask (f : ℕ → VclContext → Except String α) : Eval α := fun s =>
  (f s.tick s.ctx, { s with tick := s.tick + 1 })

def read (f : VclContext → Except String α) : Eval α := fun s => (f s.ctx, s)

end Eval

namespace VclInterpreter

variable (interp : VclInterpreter)

def withResolver (resolver : FunctionResolver) : VclInterpreter :=
  { interp with resolver := some resolver }

def getOrCompileRegex (pattern : String) : Except String Regex :=
  (interp.regexNew pattern).mapError ("regex error: " ++ ·)

/-- `eval_binary_op`. Integers are the machine's, and wrap. -/
def evalBinaryOp (left : VclValue) (op : BinOp) (right : VclValue) : Except String VclValue :=
  let text := fun val : VclValue => val.toStringValue interp.formats
  match op with
  | .eq => .ok (.bool (text left = text right))
  | .neq => .ok (.bool (text left ≠ text right))
  | .gt => .ok (.bool (right.toReal < left.toReal))
  | .lt => .ok (.bool (left.toReal < right.toReal))
  | .gte => .ok (.bool (right.toReal ≤ left.toReal))
  | .lte => .ok (.bool (left.toReal ≤ right.toReal))
  | .and => .ok (.bool (left.toBool && right.toBool))
  | .or => .ok (.bool (left.toBool || right.toBool))
  | .add =>
    match left, right with
    | .int a, .int b => .ok (.int (a + b))
    | .duration a, .duration b => .ok (.duration (a + b))
    | .string a, _ => .ok (.string (a ++ text right))
    | _, _ => .ok (.real (left.toReal + right.toReal))
  | .sub =>
    match left, right with
    | .int a, .int b => .ok (.int (a - b))
    | .duration a, .duration b => .ok (.duration (a - b))
    | _, _ => .ok (.real (left.toReal - right.toReal))
  | .mul => .ok (.real (left.toReal * right.toReal))
  | .div =>
    if right.toReal = 0 then .error "division by zero"
    else .ok (.real (left.toReal / right.toReal))
  | .match => (interp.getOrCompileRegex (text right)).map fun re => .bool (re.isMatch (text left))
  | .notMatch =>
    (interp.getOrCompileRegex (text right)).map fun re => .bool (!re.isMatch (text left))

def evalUnaryOp (op : UnaryOp) (val : VclValue) : VclValue :=
  match op with
  | .not => .bool (!val.toBool)
  | .negate => .int (-val.toInt)

def substitute (name : String) (replace : Regex → String → String → String)
    (args : List VclValue) : Except String VclValue :=
  match args.map (·.toStringValue interp.formats) with
  | text :: pattern :: replacement :: _ =>
    (interp.getOrCompileRegex pattern).map fun re => .string (replace re text replacement)
  | _ => .error (name ++ " requires 3 arguments")

/-- `call_builtin`. A name that is not dotted is the name of nothing. -/
def callBuiltin (name : String) (args : List VclValue) : Eval VclValue :=
  match name with
  | "regsub" => .ofExcept (interp.substitute "regsub" Regex.replace args)
  | "regsuball" => .ofExcept (interp.substitute "regsuball" Regex.replaceAll args)
  | "hash_data" => pure .void
  | "ban" => pure .void
  | "return" => pure .void
  | _ =>
    -- a VMOD function by its dotted name; the parser makes no such call
    match splitOnce '.' name, interp.resolver with
    | some (module, function), some resolver =>
      .ask fun tick _ => resolver tick module function args
    | _, _ => pure .void

/-- `call_method`: objects have no methods. -/
def callMethod (_object : VclValue) (_method : String) (_args : List VclValue) : Eval VclValue :=
  pure .void

mutual

def evalExpr : Expr → Eval VclValue
  | .stringLit s => pure (.string s)
  | .intLit i => pure (.int i)
  | .realLit r => pure (.real r)
  | .durationLit d => pure (.duration d)
  | .boolLit b => pure (.bool b)
  | .ident name => .read fun ctx => .ok ((ctx.localVars.lookup name).getD (.string name))
  | .variable name => .ask fun tick ctx => .ok (resolveVariable name (interp.now tick) ctx)
  | .headerRef object header => .read fun ctx =>
    match Message.ofName? object with
    | some m => .ok (m.headerText ctx header)
    | none => .error ("unknown object: " ++ object)
  | .binaryOp left op right => do
    let lval ← evalExpr left
    let rval ← evalExpr right
    .ofExcept (interp.evalBinaryOp lval op rval)
  | .unaryOp op operand => do
    let val ← evalExpr operand
    pure (evalUnaryOp op val)
  | .functionCall name args => do
    let args ← evalArgs args
    interp.callBuiltin name args
  | .methodCall object method args => do
    let objVal ← evalExpr object
    let args ← evalArgs args
    callMethod objVal method args
  | .regexLit pattern => pure (.string pattern)
  | .concat parts => do
    let vals ← evalArgs parts
    pure (.string (String.join (vals.map (·.toStringValue interp.formats))))

def evalArgs : List Expr → Eval (List VclValue)
  | [] => pure []
  | arg :: args => do
    let val ← evalExpr arg
    let vals ← evalArgs args
    pure (val :: vals)

end

/-! ## Statements -/

/-- An argument of `synth`: if it evaluates, what it says is kept. -/
def storeArg (arg : Option Expr) (store : VclValue → VclContext → VclContext) (s : State) : State :=
  match arg with
  | none => s
  | some e =>
    match interp.evalExpr e s with
    | (.ok val, s') => { s' with ctx := store val s'.ctx }
    | (.error _, s') => s'

def plainAction (name : String) : ControlFlow :=
  match actionFromName name with
  | some a => .return a
  | none => .error ("unknown return action: " ++ name)

def handleReturn (action : Expr) (s : State) : ControlFlow × State :=
  match action with
  | .ident name => (plainAction name, s)
  | .variable name => (plainAction name, s)
  | .functionCall "synth" args =>
    let s := interp.storeArg args[0]? (fun val ctx =>
      { ctx with synthStatus := some (truncU16 val.toInt) }) s
    let s := interp.storeArg args[1]? (fun val ctx =>
      { ctx with synthBody := some (val.toStringValue interp.formats) }) s
    (.return .synth, s)
  | .functionCall name _ => (plainAction name, s)
  | _ => (.error "invalid return expression", s)

/-- The subroutine of a name: the last one that is declared with it. -/
def findSub (name : String) : Option SubDecl := interp.program.subs.reverse.find? (·.name = name)

abbrev Run := Lib.Calls String State (ControlFlow × State)

/-- Evaluate, and go on unless that fails. -/
def withValue (e : Expr) (s : State) (f : VclValue → State → Run) : Run :=
  match interp.evalExpr e s with
  | (.ok val, s') => f val s'
  | (.error message, s') => .ret (.error message, s')

mutual

def execStatement : Statement → State → Run
  | .set target operator value, s =>
    interp.withValue value s fun val s =>
      .ret (.continue, { s with ctx := setVariable interp.formats target val operator s.ctx })
  | .unset target, s => .ret (.continue, { s with ctx := unsetVariable target s.ctx })
  | .call subroutine, s =>
    -- the depth of calls is not limited
    match interp.findSub subroutine with
    | some _ => .call subroutine s .ret
    | none => .ret (.error ("subroutine not found: " ++ subroutine), s)
  | .return action, s => .ret (interp.handleReturn action s)
  | .if condition body elseIfs elseBody, s =>
    interp.withValue condition s fun val s =>
      if val.toBool then execBlock body s
      else execElseIfs elseIfs (execElse elseBody) s
  | .synthetic e, s =>
    interp.withValue e s fun val s => .ret (.continue,
      { s with ctx := { s.ctx with synthBody := some (val.toStringValue interp.formats) } })
  | .ban e, s => interp.withValue e s fun _ s => .ret (.continue, s)
  | .new _ _ _, s => .ret (.continue, s)
  | .exprStatement e, s => interp.withValue e s fun _ s => .ret (.continue, s)

/-- `exec_block`: statements up to one that does not continue. -/
def execBlock : List Statement → State → Run
  | [], s => .ret (.continue, s)
  | statement :: rest, s =>
    (execStatement statement s).bind fun r =>
      if r.1 = .continue then execBlock rest r.2 else .ret r

/-- The branches behind the first; `otherwise` is the last. -/
def execElseIfs : List (Expr × List Statement) → (State → Run) → State → Run
  | [], otherwise, s => otherwise s
  | (condition, body) :: elseIfs, otherwise, s =>
    interp.withValue condition s fun val s =>
      if val.toBool then execBlock body s else execElseIfs elseIfs otherwise s

def execElse : Option (List Statement) → State → Run
  | some body, s => execBlock body s
  | none, s => .ret (.continue, s)

end

def body (name : String) (s : State) : Run :=
  match interp.findSub name with
  | some sub => interp.execBlock sub.body s
  | none => .ret (.error ("subroutine not found: " ++ name), s)

def toResult : ControlFlow → VclExecResult
  | .continue => .fallthrough
  | .return action => .action action
  | .error message => .error message

/-- `exec_subroutine`, with calls nested less than `depth` deep. -/
def execSubroutine (depth : ℕ) (name : String) (s : State) : Option (VclExecResult × State) :=
  match interp.findSub name with
  | some _ => (Lib.Calls.exec interp.body depth name s).map fun r => (toResult r.1, r.2)
  | none => some (.fallthrough, s)

end VclInterpreter

end Vcl

end VarahaCache
