import VarahaCache.Lib.Parsing
import VarahaCache.Vcl.Ast

/-!
# The VCL parser

`Parser` of `rv-vcl`, on the tokens that are left. The stream ends in `Eof`,
which is never taken. Where the source recurses the parser is given how deep
it may still go; as deep as there are tokens is always enough
(`parse_spec`).
-/

namespace VarahaCache.Vcl

open Text

abbrev Parser := Lib.Parser Token VclError

namespace Parser

variable {α : Type}

/-! ## Token navigation -/

def peek : Parser TokenKind := Lib.Parser.peek Token.kind .eof

def advance : Parser Unit := Lib.Parser.advance

/-- An error at the current token, which the message names. -/
def error (message : TokenKind → ParseMessage) : Parser α := fun ts =>
  .error (.error (.parseError (message (Lib.Parser.next Token.kind .eof ts))
    ((ts.head?.map Token.pos).getD ⟨1, 1⟩)))

def expectKind (expected : TokenKind) : Parser Unit := do
  if (← peek) = expected then advance else error (.expected expected)

def eatExact (kind : TokenKind) : Parser Bool := do
  if (← peek) = kind then do
    advance
    pure true
  else pure false

def expectIdent : Parser String := do
  match ← peek with
  | .ident name => do
    advance
    pure name
  | _ => error (.found "expected identifier, found ")

def expectSemicolon : Parser Unit := expectKind .semicolon

/-- Another item, unless a token comes that stops. -/
def whileRound (stop : TokenKind → Bool) (item : Parser α) (items : List α) :
    Parser (List α ⊕ List α) := do
  if stop (← peek) then pure (.inr items)
  else do
    let next ← item
    pure (.inl (items ++ [next]))

def whileNot (stop : TokenKind → Bool) (item : Parser α) : Parser (List α) :=
  Lib.Parser.loop (whileRound stop item) []

/-! ## Expressions

Every function is given the parser for expressions, as the source calls it
again between parentheses. -/

def joinDots (parts : List String) : String :=
  String.ofList (['.'].intercalate (parts.map String.toList))

/-- Another part, if a dot comes. -/
def dottedRound (parts : List String) : Parser (List String ⊕ List String) := do
  if (← peek) = .dot then do
    advance
    let part ← expectIdent
    pure (.inl (parts ++ [part]))
  else pure (.inr parts)

def dottedParts (parts : List String) : Parser (List String) := Lib.Parser.loop dottedRound parts

/-- The parts of a header: `req.http.X-Something`. -/
def IsHeader (parts : List String) : Prop := 3 ≤ parts.length ∧ parts[1]? = some "http"

instance (parts : List String) : Decidable (IsHeader parts) := inferInstanceAs (Decidable (_ ∧ _))

/-- Parts make a header or a variable. -/
def dottedExpr (first : String) (parts : List String) : Expr :=
  if IsHeader parts then .headerRef first (joinDots (parts.drop 2)) else .variable (joinDots parts)

def parseDottedExpr (first : String) : Parser Expr := do
  let parts ← dottedParts [first]
  pure (dottedExpr first parts)

def parseDottedName : Parser String := do
  let first ← expectIdent
  let parts ← dottedParts [first]
  pure (joinDots parts)

def parsePrimary (expr : Parser Expr) : Parser Expr := do
  match ← peek with
  | .stringLit s => do
    advance
    pure (.stringLit s)
  | .intLit v => do
    advance
    pure (.intLit v)
  | .realLit v => do
    advance
    pure (.realLit v)
  | .durationLit v => do
    advance
    pure (.durationLit v)
  | .boolLit v => do
    advance
    pure (.boolLit v)
  | .lParen => do
    advance
    let e ← expr
    expectKind .rParen
    pure e
  | .ident _ => do
    let name ← expectIdent
    if (← peek) = .dot then parseDottedExpr name else pure (.ident name)
  | _ => error (.found "unexpected token in expression: ")

/-- Another argument, if a comma comes. -/
def argRound (expr : Parser Expr) (args : List Expr) : Parser (List Expr ⊕ List Expr) := do
  if ← eatExact .comma then do
    let arg ← expr
    pure (.inl (args ++ [arg]))
  else pure (.inr args)

def parseArgList (expr : Parser Expr) : Parser (List Expr) := do
  if (← peek) = .rParen then pure []
  else do
    let first ← expr
    Lib.Parser.loop (argRound expr) [first]

/-- Arguments behind their opening parenthesis. -/
def parseArgs (expr : Parser Expr) : Parser (List Expr) := do
  let args ← parseArgList expr
  expectKind .rParen
  pure args

/-- A name is called; a dotted one is a method of what stands before its last
dot. -/
def postfixRound (expr : Parser Expr) (e : Expr) : Parser (Expr ⊕ Expr) := do
  if (← peek) = .lParen then
    match e with
    | .ident name => do
      advance
      let args ← parseArgs expr
      pure (.inl (.functionCall name args))
    | .variable name => do
      advance
      let args ← parseArgs expr
      match rsplitOnce '.' name with
      | some (object, method) => pure (.inl (.methodCall (.variable object) method args))
      | none => pure (.inl (.functionCall name args))
    | e => pure (.inr e)
  else pure (.inr e)

def parsePostfix (expr : Parser Expr) : Parser Expr := do
  let e ← parsePrimary expr
  Lib.Parser.loop (postfixRound expr) e

def parseUnary (expr : Parser Expr) : ℕ → Parser Expr
  | 0 => Lib.Parser.stuck
  | depth + 1 => do
    match ← peek with
    | .not => do
      advance
      let operand ← parseUnary expr depth
      pure (.unaryOp .not operand)
    | .minus => do
      advance
      let operand ← parseUnary expr depth
      pure (.unaryOp .negate operand)
    | _ => parsePostfix expr

/-- An operator of the level and its right operand. -/
def binaryRound (opOf : TokenKind → Option BinOp) (operand : Parser Expr) (left : Expr) :
    Parser (Expr ⊕ Expr) := do
  match opOf (← peek) with
  | some op => do
    advance
    let right ← operand
    pure (.inl (.binaryOp left op right))
  | none => pure (.inr left)

/-- Operands with the operators of a level between them, grouped to the
left. -/
def binaryLevel (opOf : TokenKind → Option BinOp) (operand : Parser Expr) : Parser Expr := do
  let left ← operand
  Lib.Parser.loop (binaryRound opOf operand) left

def multiplicativeOp : TokenKind → Option BinOp
  | .star => some .mul
  | .slash => some .div
  | _ => none

def additiveOp : TokenKind → Option BinOp
  | .plus => some .add
  | .minus => some .sub
  | _ => none

def comparisonOp : TokenKind → Option BinOp
  | .eq => some .eq
  | .neq => some .neq
  | .gt => some .gt
  | .lt => some .lt
  | .gte => some .gte
  | .lte => some .lte
  | .match => some .match
  | .notMatch => some .notMatch
  | _ => none

def andOp : TokenKind → Option BinOp
  | .and => some .and
  | _ => none

def orOp : TokenKind → Option BinOp
  | .or => some .or
  | _ => none

def parseMultiplicative (expr : Parser Expr) (depth : ℕ) : Parser Expr :=
  binaryLevel multiplicativeOp (parseUnary expr depth)

def parseAdditive (expr : Parser Expr) (depth : ℕ) : Parser Expr :=
  binaryLevel additiveOp (parseMultiplicative expr depth)

def parseComparison (expr : Parser Expr) (depth : ℕ) : Parser Expr :=
  binaryLevel comparisonOp (parseAdditive expr depth)

def parseAnd (expr : Parser Expr) (depth : ℕ) : Parser Expr :=
  binaryLevel andOp (parseComparison expr depth)

def parseOr (expr : Parser Expr) (depth : ℕ) : Parser Expr := binaryLevel orOp (parseAnd expr depth)

def parseExpr : ℕ → Parser Expr
  | 0 => Lib.Parser.stuck
  | depth + 1 => parseOr (parseExpr depth) (depth + 1)

/-! ## Statements -/

section

variable (expr : Parser Expr)

def parseSetOp : Parser SetOp := do
  match ← peek with
  | .assign => do
    advance
    pure .assign
  | .plusAssign => do
    advance
    pure .add
  | .minusAssign => do
    advance
    pure .subtract
  | _ => error (.found "expected assignment operator, found ")

def parseSet : Parser Statement := do
  expectKind .set
  let target ← parseDottedName
  let operator ← parseSetOp
  let value ← expr
  expectSemicolon
  pure (.set target operator value)

def parseUnset : Parser Statement := do
  expectKind .unset
  let target ← parseDottedName
  expectSemicolon
  pure (.unset target)

def parseCall : Parser Statement := do
  expectKind .call
  let subroutine ← expectIdent
  expectSemicolon
  pure (.call subroutine)

/-- A keyword and an expression in parentheses: `return`, `synthetic` and
`ban`. -/
def parseKeyword (keyword : TokenKind) (build : Expr → Statement) : Parser Statement := do
  expectKind keyword
  expectKind .lParen
  let e ← expr
  expectKind .rParen
  expectSemicolon
  pure (build e)

def parseReturn : Parser Statement := parseKeyword expr .return .return

def parseSynthetic : Parser Statement := parseKeyword expr .synthetic .synthetic

def parseBan : Parser Statement := parseKeyword expr .ban .ban

def parseNew : Parser Statement := do
  expectKind .new
  let name ← expectIdent
  expectKind .assign
  let typeName ← expectIdent
  expectKind .lParen
  let args ← parseArgList expr
  expectKind .rParen
  expectSemicolon
  pure (.new name typeName args)

def parseStatementBlock (statement : Parser Statement) : Parser (List Statement) :=
  whileNot (fun kind => kind = .rBrace || kind = .eof) statement

def parseBraced (statement : Parser Statement) : Parser (List Statement) := do
  expectKind .lBrace
  let body ← parseStatementBlock statement
  expectKind .rBrace
  pure body

/-- A condition in parentheses and the block for it. -/
def parseBranch (statement : Parser Statement) : Parser (Expr × List Statement) := do
  expectKind .lParen
  let condition ← expr
  expectKind .rParen
  let body ← parseBraced statement
  pure (condition, body)

/-- Another branch. Both ways on from an `else` take it; what stands behind it
is looked at then. -/
def elseRound (statement : Parser Statement) (elseIfs : List (Expr × List Statement)) :
    Parser (List (Expr × List Statement) ⊕
      (List (Expr × List Statement) × Option (List Statement))) := do
  if ← eatExact .elseIf then do
    let branch ← parseBranch expr statement
    pure (.inl (elseIfs ++ [branch]))
  else do
    if ← eatExact .else then do
      if ← eatExact .if then do
        let branch ← parseBranch expr statement
        pure (.inl (elseIfs ++ [branch]))
      else do
        let body ← parseBraced statement
        pure (.inr (elseIfs, some body))
    else pure (.inr (elseIfs, none))

def parseElse (statement : Parser Statement) :
    Parser (List (Expr × List Statement) × Option (List Statement)) :=
  Lib.Parser.loop (elseRound expr statement) []

def parseIf (statement : Parser Statement) : Parser Statement := do
  expectKind .if
  let branch ← parseBranch expr statement
  let later ← parseElse expr statement
  pure (.if branch.1 branch.2 later.1 later.2)

def parseStatementAt (statement : Parser Statement) : TokenKind → Parser Statement
  | .set => parseSet expr
  | .unset => parseUnset
  | .call => parseCall
  | .return => parseReturn expr
  | .if => parseIf expr statement
  | .synthetic => parseSynthetic expr
  | .new => parseNew expr
  | .ban => parseBan expr
  | _ => do
    let e ← expr
    expectSemicolon
    pure (.exprStatement e)

def parseStatement : ℕ → Parser Statement
  | 0 => Lib.Parser.stuck
  | depth + 1 => do parseStatementAt expr (parseStatement depth) (← peek)

/-! ## Declarations -/

def parseVersionNumber : Parser Version := do
  match ← peek with
  | .realLit v => do
    advance
    pure (.real v)
  | .intLit v => do
    advance
    pure (.int v)
  | _ => error (.found "expected version number, found ")

def parseVclVersion : Parser Version := do
  expectKind .vcl
  let version ← parseVersionNumber
  expectSemicolon
  pure version

def parseImport : Parser ImportDecl := do
  expectKind .import
  let name ← expectIdent
  expectSemicolon
  pure ⟨name⟩

def parseProperty : Parser (String × Expr) := do
  let name ← expectIdent
  expectKind .assign
  let value ← expr
  expectSemicolon
  pure (name, value)

def parseProbeBody (name : Option String) : Parser ProbeDecl := do
  expectKind .lBrace
  let properties ← whileNot (· = .rBrace) do
    expectKind .dot
    parseProperty expr
  expectKind .rBrace
  pure ⟨name, properties⟩

def parseProbeDecl : Parser ProbeDecl := do
  expectKind .probe
  let name ← expectIdent
  parseProbeBody expr (some name)

/-- The probe of a backend behind `.probe =`: in braces or by its name. -/
def parseProbeRef : Parser ProbeDecl := do
  if (← peek) = .lBrace then parseProbeBody expr none
  else do
    let name ← expectIdent
    expectSemicolon
    pure ⟨some name, []⟩

/-- A property of a backend, or its probe; the last one counts. -/
def backendRound (decl : BackendDecl) : Parser (BackendDecl ⊕ BackendDecl) := do
  if (← peek) = .rBrace then pure (.inr decl)
  else do
    expectKind .dot
    if ← eatExact .probe then do
      expectKind .assign
      let probe ← parseProbeRef expr
      pure (.inl { decl with probe := some probe })
    else do
      let property ← parseProperty expr
      pure (.inl { decl with properties := decl.properties ++ [property] })

def parseBackend : Parser BackendDecl := do
  expectKind .backend
  let name ← expectIdent
  expectKind .lBrace
  let decl ← Lib.Parser.loop (backendRound expr) ⟨name, [], none⟩
  expectKind .rBrace
  pure decl

def parseAddr : Parser String := do
  match ← peek with
  | .stringLit s => do
    advance
    pure s
  | _ => error (.found "expected string address in ACL, found ")

/-- The mask of an entry, cut to a byte. -/
def parseMask : Parser (Option UInt8) := do
  if ← eatExact .slash then do
    match ← peek with
    | .intLit v => do
      advance
      pure (some v.toUInt64.toUInt8)
    | _ => error (.found "expected mask length, found ")
  else pure none

def parseAclEntry : Parser AclEntry := do
  let negate ← eatExact .not
  let addr ← parseAddr
  let mask ← parseMask
  expectSemicolon
  pure ⟨negate, addr, mask⟩

def parseAcl : Parser AclDecl := do
  expectKind .acl
  let name ← expectIdent
  expectKind .lBrace
  let entries ← whileNot (· = .rBrace) parseAclEntry
  expectKind .rBrace
  pure ⟨name, entries⟩

def parseSub (statement : Parser Statement) : Parser SubDecl := do
  expectKind .sub
  let name ← expectIdent
  let body ← parseBraced statement
  pure ⟨name, body⟩

/-- A declaration, unless this is the end. -/
def declRound (statement : Parser Statement) (program : VclProgram) :
    Parser (VclProgram ⊕ VclProgram) := do
  match ← peek with
  | .eof => pure (.inr program)
  | .import => do
    let decl ← parseImport
    pure (.inl { program with imports := program.imports ++ [decl] })
  | .backend => do
    let decl ← parseBackend expr
    pure (.inl { program with backends := program.backends ++ [decl] })
  | .probe => do
    let decl ← parseProbeDecl expr
    pure (.inl { program with probes := program.probes ++ [decl] })
  | .acl => do
    let decl ← parseAcl
    pure (.inl { program with acls := program.acls ++ [decl] })
  | .sub => do
    let decl ← parseSub statement
    pure (.inl { program with subs := program.subs ++ [decl] })
  | _ => error (.found "unexpected token at top level: ")

def parseDecls (statement : Parser Statement) (program : VclProgram) : Parser VclProgram :=
  Lib.Parser.loop (declRound expr statement) program

def parseProgram (statement : Parser Statement) : Parser VclProgram := do
  if (← peek) = .vcl then do
    let version ← parseVclVersion
    parseDecls expr statement ⟨some version, [], [], [], [], []⟩
  else parseDecls expr statement ⟨none, [], [], [], [], []⟩

end

def parse (tokens : List Token) : Except (Lib.Stop VclError) VclProgram :=
  let depth := tokens.length + 1
  let expr := parseExpr depth
  (parseProgram expr (parseStatement expr depth) tokens).map Prod.fst

end Parser

end VarahaCache.Vcl
