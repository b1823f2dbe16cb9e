import VarahaCache.Vcl.Interpreter
import VarahaCache.Vcl.Printing

/-!
# Calls of VMOD functions

`std.toupper(x)` is written like a call of the function `toupper` of the
module `std`, and the interpreter hands a function with a dotted name to its
resolver. The parser makes a method of an object of it, and no object has
methods.
-/

namespace VarahaCache.Vcl

open Lib

namespace Parser

theorem peek_bind {α : Type} (f : TokenKind → Parser α) (ts : List Token) :
    (peek >>= f) ts = f (Parser.next Token.kind .eof ts) ts := rfl

/-- What `q` returns is what `p` does, or it has taken more tokens. -/
def Extends (p q : Parser Expr) : Prop :=
  ∀ ts e rest, q ts = .ok (e, rest) → ∃ left front, p ts = .ok (left, front) ∧
    (e = left ∧ rest = front ∨ rest.length < front.length)

theorem Extends.trans {p q r : Parser Expr} (hpq : Extends p q) (hqr : Extends q r) :
    Extends p r := by
  intro ts e rest h
  obtain ⟨left, front, hq, hlater⟩ := hqr ts e rest h
  obtain ⟨first, behind, hp, hfirst⟩ := hpq ts left front hq
  refine ⟨first, behind, hp, ?_⟩
  rcases hlater with ⟨rfl, rfl⟩ | hlt
  · exact hfirst
  rcases hfirst with ⟨rfl, rfl⟩ | hlt'
  · exact .inr hlt
  · exact .inr (hlt.trans hlt')

variable {opOf : TokenKind → Option BinOp} {operand : Parser Expr}

theorem binaryRound_ok {left : Expr} {ts rest : List Token} {r : Expr ⊕ Expr}
    (h : binaryRound opOf operand left ts = .ok (r, rest)) :
    r = .inr left ∧ rest = ts ∨ ∃ e, r = .inl e := by
  rw [binaryRound, peek_bind] at h
  cases hop : opOf (Parser.next Token.kind .eof ts) with
  | none =>
    rw [hop] at h
    cases h
    exact .inl ⟨rfl, rfl⟩
  | some op =>
    rw [hop] at h
    change (operand >>= fun right => pure (.inl (.binaryOp left op right)) :
      Parser (Expr ⊕ Expr)) ts.tail = _ at h
    rw [Parser.bind_apply] at h
    split at h
    · cases h
    · cases h
      exact .inr ⟨_, rfl⟩

theorem binaryLoop_ok {left e : Expr} {ts rest : List Token}
    (h : Parser.loopFrom (binaryRound opOf operand) left ts = .ok (e, rest)) :
    e = left ∧ rest = ts ∨ rest.length < ts.length := by
  induction hlength : ts.length using Nat.strong_induction_on generalizing left ts with
  | _ length ih =>
    rw [Parser.loopFrom] at h
    cases hround : binaryRound opOf operand left ts with
    | error stop =>
      rw [hround] at h
      cases h
    | ok read =>
      obtain ⟨r, behind⟩ := read
      rw [hround] at h
      rcases binaryRound_ok hround with ⟨rfl, rfl⟩ | ⟨next, rfl⟩
      · cases h
        exact .inl ⟨rfl, rfl⟩
      dsimp only at h
      split at h
      · rename_i hlt
        refine .inr ?_
        rcases ih behind.length (hlength ▸ hlt) h rfl with ⟨_, rfl⟩ | hlater
        · exact hlength ▸ hlt
        · exact hlater.trans (hlength ▸ hlt)
      · cases h

theorem extends_binaryLevel (opOf : TokenKind → Option BinOp) (operand : Parser Expr) :
    Extends operand (binaryLevel opOf operand) := by
  intro ts e rest h
  rw [binaryLevel, Parser.bind_apply] at h
  cases hoperand : operand ts with
  | error stop =>
    rw [hoperand] at h
    cases h
  | ok read =>
    rw [hoperand] at h
    exact ⟨read.1, read.2, rfl, binaryLoop_ok h⟩

theorem extends_parseExpr (depth : ℕ) :
    Extends (parseUnary (parseExpr depth) (depth + 1)) (parseExpr (depth + 1)) :=
  (extends_binaryLevel _ _).trans ((extends_binaryLevel _ _).trans ((extends_binaryLevel _ _).trans
    ((extends_binaryLevel _ _).trans (extends_binaryLevel _ _))))

variable {m f : String} {callee ts rest : List Token} {depth : ℕ} {args : List Expr} {e : Expr}

/-- The tokens of a function of a module, up to the parenthesis. -/
def calleeOf (m f : String) : List TokenKind := dotted [m, f] ++ [.lParen]

theorem rsplitOnce_calleeOf (hf : Dotless f) :
    Text.rsplitOnce '.' (joinDots [m, f]) = some (m, f) := by
  have hjoin : joinDots [m, f] = String.ofList (m.toList ++ '.' :: f.toList) := by
    simp [joinDots, List.intercalate]
  rw [hjoin, Text.rsplitOnce_append hf, String.ofList_toList, String.ofList_toList]

theorem postfixRound_methodCall (expr : Parser Expr) (object : Expr) (method : String)
    (args : List Expr) (ts : List Token) :
    postfixRound expr (.methodCall object method args) ts =
      .ok (.inr (.methodCall object method args), ts) := by
  change (if Parser.next Token.kind .eof ts = .lParen then
    pure (.inr (.methodCall object method args)) else pure (.inr (.methodCall object method args)) :
      Parser (Expr ⊕ Expr)) ts = _
  rw [ite_self]
  rfl

theorem parsePostfix_vmod (hf : Dotless f) (hcallee : callee.map Token.kind = calleeOf m f)
    {expr : Parser Expr} (hargs : parseArgs expr ts = .ok (args, rest)) {front : List Token}
    (h : parsePostfix expr (callee ++ ts) = .ok (e, front)) :
    e = .methodCall (.variable m) f args ∧ front = rest := by
  obtain ⟨name, paren, rfl, hname, hparen⟩ := List.map_eq_append_iff.mp hcallee
  obtain ⟨paren, rfl, hkind⟩ := List.map_eq_singleton_iff.mp hparen
  have hnext : Parser.next Token.kind .eof (paren :: ts) = .lParen := hkind
  have hprimary : parsePrimary expr (name ++ paren :: ts) =
      .ok (.variable (joinDots [m, f]), paren :: ts) := by
    refine yields_primary_variable (n := 3) (by simp) (by simp [IsHeader]) ?_ name _ hname ?_
    · simp [dotted]
    · rw [hnext]
      simp
  have hround : postfixRound expr (.variable (joinDots [m, f])) (paren :: ts) =
      .ok (.inl (.methodCall (.variable m) f args), rest) := by
    rw [postfixRound, peek_bind, if_pos hnext]
    change (parseArgs expr >>= _) ts = _
    rw [Parser.bind_of_ok hargs, rsplitOnce_calleeOf hf]
    rfl
  rw [List.append_assoc, List.singleton_append, parsePostfix, Parser.bind_of_ok hprimary] at h
  change Parser.loopFrom _ _ _ = _ at h
  rw [Parser.loopFrom, hround] at h
  dsimp only at h
  split at h
  · rw [Parser.loopFrom, postfixRound_methodCall] at h
    cases h
    exact ⟨rfl, rfl⟩
  · cases h

/-- A function of a module is parsed as a method, of a variable with the
module's name. -/
theorem parseExpr_vmod (hf : Dotless f) (hcallee : callee.map Token.kind = calleeOf m f)
    (hargs : parseArgs (parseExpr depth) ts = .ok (args, rest))
    (hparse : parseExpr (depth + 1) (callee ++ ts) = .ok (e, rest)) :
    e = .methodCall (.variable m) f args := by
  have hunary : parseUnary (parseExpr depth) (depth + 1) (callee ++ ts) =
      parsePostfix (parseExpr depth) (callee ++ ts) := by
    have hnext : Parser.next Token.kind .eof (callee ++ ts) = .ident m := by
      obtain ⟨name, later, rfl, hname, _⟩ := List.map_eq_cons_iff.mp hcallee
      exact hname
    rw [parseUnary, peek_bind, hnext]
  obtain ⟨left, front, hleft, hsame⟩ := extends_parseExpr depth _ _ _ hparse
  rw [hunary] at hleft
  obtain ⟨rfl, rfl⟩ := parsePostfix_vmod hf hcallee hargs hleft
  rcases hsame with ⟨rfl, _⟩ | hlt
  · rfl
  · exact absurd hlt (lt_irrefl _)

end Parser

namespace VclInterpreter

variable {interp : VclInterpreter} {m f : String} {callee ts rest : List Token} {depth : ℕ}
  {args : List Expr} {e : Expr} {s s' : State} {vals : List VclValue}

theorem evalExpr_methodCall
    (hvals : interp.evalArgs args { s with tick := s.tick + 1 } = (.ok vals, s')) :
    interp.evalExpr (.methodCall (.variable m) f args) s = (.ok .void, s') := by
  have hobject : interp.evalExpr (.variable m) s =
      (.ok (resolveVariable m (interp.now s.tick) s.ctx), { s with tick := s.tick + 1 }) := by
    rw [evalExpr]
    rfl
  rw [evalExpr, Eval.bind_of_ok hobject, Eval.bind_of_ok hvals]
  rfl

/-- **A call of a VMOD function returns what the resolver does** EXACTLY when
the resolver returns nothing. -/
theorem evalExpr_vmod_iff (resolver : FunctionResolver) (hf : Dotless f)
    (hcallee : callee.map Token.kind = Parser.calleeOf m f)
    (hargs : Parser.parseArgs (Parser.parseExpr depth) ts = .ok (args, rest))
    (hparse : Parser.parseExpr (depth + 1) (callee ++ ts) = .ok (e, rest))
    (hvals : (interp.withResolver resolver).evalArgs args { s with tick := s.tick + 1 } =
      (.ok vals, s')) :
    ((interp.withResolver resolver).evalExpr e s).1 = resolver s'.tick m f vals ↔
      resolver s'.tick m f vals = .ok .void := by
  -- the parser returns a method call, and that evaluates to nothing
  rw [Parser.parseExpr_vmod hf hcallee hargs hparse, evalExpr_methodCall hvals]
  exact eq_comm

/-- An interpreter whose library writes nothing and knows no patterns. -/
def bare (program : VclProgram) : VclInterpreter where
  program := program
  resolver := none
  formats := ⟨fun _ => "", fun _ => ""⟩
  regexNew := fun _ => .error "unknown"
  now := fun _ => 0

def blank : State where
  ctx :=
    { req := .newRequest .get "/" .http11, resp := .newResponse .ok .http11,
      bereq := .newRequest .get "/" .http11, beresp := .newResponse .ok .http11 }
  tick := 0

/-- `std.log("a")`, which logs and returns nothing. -/
theorem evalExpr_vmod_log : ∃ e, Parser.parseExpr 10
        (([.ident "std", .dot, .ident "log", .lParen].map (.mk · ⟨1, 1⟩)) ++
          [.stringLit "a", .rParen, .eof].map (.mk · ⟨1, 1⟩)) = .ok (e, [⟨.eof, ⟨1, 1⟩⟩]) ∧
      (((bare ⟨none, [], [], [], [], []⟩).withResolver fun _ _ _ _ => .ok .void).evalExpr e blank).1 =
        .ok .void := by
  have hlit : ∀ arg ∈ [Expr.stringLit "a"], arg.Parsed := by
    simpa using Expr.Parsed.stringLit "a"
  have hparsed : (Expr.methodCall (.variable "std") "log" [.stringLit "a"]).Parsed :=
    @Expr.Parsed.methodCall ["std"] "log" _ (by decide) (by decide) (by decide) (by decide) hlit
  have hyields : Parser.Yields 9 (Parser.parseArgs (Parser.parseExpr 9))
      [.stringLit "a", .rParen] (· = .eof) [.stringLit "a"] :=
    Parser.yields_parseArgs (fun _ he => Parser.yields_parseExpr 9 he) hlit
  have hargs : Parser.parseArgs (Parser.parseExpr 9)
      ([.stringLit "a", .rParen, .eof].map (Token.mk · ⟨1, 1⟩)) =
        .ok ([.stringLit "a"], [⟨.eof, ⟨1, 1⟩⟩]) :=
    hyields (by decide) ([.stringLit "a", .rParen].map (Token.mk · ⟨1, 1⟩)) _ rfl rfl
  have hparse : Parser.parseExpr 10
      (([.ident "std", .dot, .ident "log", .lParen].map (Token.mk · ⟨1, 1⟩)) ++
        [.stringLit "a", .rParen, .eof].map (Token.mk · ⟨1, 1⟩)) =
      .ok (.methodCall (.variable "std") "log" [.stringLit "a"], [⟨.eof, ⟨1, 1⟩⟩]) :=
    Parser.yields_parseExpr 10 hparsed (by decide)
      ([.ident "std", .dot, .ident "log", .lParen, .stringLit "a", .rParen].map (Token.mk · ⟨1, 1⟩))
      [⟨.eof, ⟨1, 1⟩⟩] rfl (Parser.ends_of_none rfl 0)
  refine ⟨_, hparse, ?_⟩
  exact (evalExpr_vmod_iff (fun _ _ _ _ => .ok .void) (by decide) rfl hargs hparse rfl).mpr rfl

def shouting : FunctionResolver := fun _ _ _ _ => .ok (.string "A")

/-- **The resolver's answer is lost**: `X` becomes empty where the function
returns `A`. -/
theorem not_dispatched_toupper :
    ((accepted "sub vcl_recv \x7b set req.http.X = std.toupper(\"a\"); \x7d").bind fun program =>
      ((bare program).withResolver shouting).execSubroutine 1 "vcl_recv" blank).map
        (fun r => (r.1, r.2.ctx.req.getHeader "X")) = some (.fallthrough, some "") ∧
    shouting 1 "std" "toupper" [.string "a"] = .ok (.string "A") := by
  refine ⟨?_, rfl⟩
  decide +kernel

end VclInterpreter

end VarahaCache.Vcl
