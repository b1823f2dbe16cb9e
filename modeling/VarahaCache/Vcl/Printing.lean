import VarahaCache.Vcl.Grammar

/-!
# Printing and parsing again

A program is printed to tokens, with the parentheses its operators need and
no others. What the parser returns is printed to tokens that it reads as the
same program (`parse_print`).
-/

namespace VarahaCache.Vcl

open Text List

/-! ## Printing -/

def BinOp.token : BinOp → TokenKind
  | .eq => .eq
  | .neq => .neq
  | .gt => .gt
  | .lt => .lt
  | .gte => .gte
  | .lte => .lte
  | .match => .match
  | .notMatch => .notMatch
  | .and => .and
  | .or => .or
  | .add => .plus
  | .sub => .minus
  | .mul => .star
  | .div => .slash

def UnaryOp.token : UnaryOp → TokenKind
  | .not => .not
  | .negate => .minus

def SetOp.token : SetOp → TokenKind
  | .assign => .assign
  | .add => .plusAssign
  | .subtract => .minusAssign

/-- The precedence of an operator, from lowest to highest. -/
def BinOp.level : BinOp → ℕ
  | .or => 0
  | .and => 1
  | .eq | .neq | .gt | .lt | .gte | .lte | .match | .notMatch => 2
  | .add | .sub => 3
  | .mul | .div => 4

def Expr.level : Expr → ℕ
  | .binaryOp _ op _ => op.level
  | .unaryOp _ _ => 5
  | _ => 6

theorem BinOp.level_le (op : BinOp) : op.level ≤ 4 := by
  cases op <;> decide

theorem Expr.level_le (e : Expr) : e.level ≤ 6 := by
  cases e with
  | binaryOp left op right => exact op.level_le.trans (by decide)
  | unaryOp => exact Nat.le_succ 5
  | _ => exact le_rfl

def parenthesized (needed : Bool) (kinds : List TokenKind) : List TokenKind :=
  if needed then .lParen :: (kinds ++ [.rParen]) else kinds

def dotted : List String → List TokenKind
  | [] => []
  | first :: parts => .ident first :: parts.flatMap fun part => [.dot, .ident part]

mutual

/-- The parser returns neither of the last two. -/
def printExpr : Expr → List TokenKind
  | .stringLit s => [.stringLit s]
  | .intLit v => [.intLit v]
  | .realLit v => [.realLit v]
  | .durationLit v => [.durationLit v]
  | .boolLit v => [.boolLit v]
  | .ident name => [.ident name]
  | .variable name => dotted (split '.' name)
  | .headerRef object name => dotted (object :: "http" :: split '.' name)
  | .binaryOp left op right =>
    parenthesized (left.level < op.level) (printExpr left) ++
      op.token :: parenthesized (right.level < op.level + 1) (printExpr right)
  | .unaryOp op operand => op.token :: parenthesized (operand.level < 5) (printExpr operand)
  | .functionCall name args => .ident name :: .lParen :: (printArgs args ++ [.rParen])
  | .methodCall object method args =>
    printExpr object ++ .dot :: .ident method :: .lParen :: (printArgs args ++ [.rParen])
  | .regexLit _ => []
  | .concat _ => []

def printArgs : List Expr → List TokenKind
  | [] => []
  | arg :: args => printExpr arg ++ printMoreArgs args

def printMoreArgs : List Expr → List TokenKind
  | [] => []
  | arg :: args => .comma :: (printExpr arg ++ printMoreArgs args)

end

def printAt (level : ℕ) (e : Expr) : List TokenKind := parenthesized (e.level < level) (printExpr e)

def branch (condition body : List TokenKind) : List TokenKind :=
  .lParen :: (condition ++ .rParen :: .lBrace :: (body ++ [.rBrace]))

mutual

def printStatement : Statement → List TokenKind
  | .set target operator value =>
    .set :: (dotted (split '.' target) ++ operator.token :: (printExpr value ++ [.semicolon]))
  | .unset target => .unset :: (dotted (split '.' target) ++ [.semicolon])
  | .call subroutine => [.call, .ident subroutine, .semicolon]
  | .return action => .return :: .lParen :: (printExpr action ++ [.rParen, .semicolon])
  | .if condition body elseIfs elseBody =>
    .if :: (branch (printExpr condition) (printBlock body) ++
      (printElseIfs elseIfs ++ printElseBody elseBody))
  | .synthetic e => .synthetic :: .lParen :: (printExpr e ++ [.rParen, .semicolon])
  | .new name typeName args =>
    .new :: .ident name :: .assign :: .ident typeName :: .lParen ::
      (printArgs args ++ [.rParen, .semicolon])
  | .exprStatement e => printExpr e ++ [.semicolon]
  | .ban e => .ban :: .lParen :: (printExpr e ++ [.rParen, .semicolon])

def printBlock : List Statement → List TokenKind
  | [] => []
  | s :: body => printStatement s ++ printBlock body

def printElseIfs : List (Expr × List Statement) → List TokenKind
  | [] => []
  | (condition, body) :: elseIfs =>
    (.elseIf :: branch (printExpr condition) (printBlock body)) ++ printElseIfs elseIfs

def printElseBody : Option (List Statement) → List TokenKind
  | none => []
  | some body => .else :: .lBrace :: (printBlock body ++ [.rBrace])

end

def printImport (decl : ImportDecl) : List TokenKind := [.import, .ident decl.name, .semicolon]

def printProperty (property : String × Expr) : List TokenKind :=
  .dot :: .ident property.1 :: .assign :: (printExpr property.2 ++ [.semicolon])

def printProperties (properties : List (String × Expr)) : List TokenKind :=
  .lBrace :: (properties.flatMap printProperty ++ [.rBrace])

/-- The probe of a backend: by its name, or written out. -/
def printProbeRef (probe : ProbeDecl) : List TokenKind :=
  match probe.name with
  | some name => [.ident name, .semicolon]
  | none => printProperties probe.properties

def printProbe (probe : ProbeDecl) : List TokenKind :=
  .dot :: .probe :: .assign :: printProbeRef probe

def printBackend (decl : BackendDecl) : List TokenKind :=
  .backend :: .ident decl.name :: .lBrace :: (decl.properties.flatMap printProperty ++
    (decl.probe.toList.flatMap printProbe ++ [.rBrace]))

def printProbeDecl (decl : ProbeDecl) : List TokenKind :=
  .probe :: .ident (decl.name.getD "") :: printProperties decl.properties

def printMask : Option UInt8 → List TokenKind
  | some mask => [.slash, .intLit (Int64.ofNat mask.toNat)]
  | none => []

def printAclEntry (entry : AclEntry) : List TokenKind :=
  (if entry.negate then [.not] else []) ++
    .stringLit entry.addr :: (printMask entry.mask ++ [.semicolon])

def printAcl (decl : AclDecl) : List TokenKind :=
  .acl :: .ident decl.name :: .lBrace :: (decl.entries.flatMap printAclEntry ++ [.rBrace])

def printSub (decl : SubDecl) : List TokenKind :=
  .sub :: .ident decl.name :: .lBrace :: (printBlock decl.body ++ [.rBrace])

/-- A program without a version. -/
def printProgram (program : VclProgram) : List TokenKind :=
  program.imports.flatMap printImport ++ (program.backends.flatMap printBackend ++
    (program.probes.flatMap printProbeDecl ++ (program.acls.flatMap printAcl ++
      (program.subs.flatMap printSub ++ []))))

namespace Parser

open Lib.Parser (Leads Yields.peek Yields.pure Yields.bind Yields.bind_pure Yields.mono
  Yields.advance Yields.loop_inr Yields.loop_inl Yields.loop_list bind_assoc leads_true loop)

variable {α β : Type} {n : ℕ} {kinds later : List TokenKind} {follow first : TokenKind → Prop}
  {a : α} {b : β}

/-! ## Rules -/

abbrev Yields (n : ℕ) (p : Parser α) (kinds : List TokenKind) (follow : TokenKind → Prop) (a : α) :
    Prop :=
  Lib.Parser.Yields Token.kind .eof n p kinds follow a

theorem Yields.weaken {p : Parser α} (h : Yields (n + 1) p kinds follow a) :
    Yields n p kinds follow a :=
  .mono h (Nat.le_succ n) fun _ hk => hk

variable {k : TokenKind} {f : Unit → Parser β} {level : ℕ} {name : String} {parts : List String}

theorem yields_advance (h : Yields n (f ()) kinds follow b) :
    Yields (n + 1) (advance >>= f) (k :: kinds) follow b := .advance h

theorem yields_peek {g : TokenKind → Parser β} (h : Yields n (g k) (k :: kinds) follow b) :
    Yields n (Lib.Parser.peek Token.kind .eof >>= g) (k :: kinds) follow b :=
  .peek (· = k) (fun _ hk => hk ▸ h) rfl

theorem yields_expectKind (h : Yields n (f ()) kinds follow b) :
    Yields (n + 1) (expectKind k >>= f) (k :: kinds) follow b := by
  rw [expectKind, bind_assoc]
  refine yields_peek ?_
  rw [if_pos rfl]
  exact yields_advance h

theorem yields_expectIdent {f : String → Parser β} (h : Yields n (f name) kinds follow b) :
    Yields (n + 1) (expectIdent >>= f) (.ident name :: kinds) follow b := by
  rw [expectIdent, bind_assoc]
  refine yields_peek ?_
  rw [bind_assoc]
  exact yields_advance h

theorem yields_eatExact_true {f : Bool → Parser β} (h : Yields n (f true) kinds follow b) :
    Yields (n + 1) (eatExact k >>= f) (k :: kinds) follow b := by
  rw [eatExact_bind]
  refine yields_peek ?_
  rw [if_pos rfl]
  exact yields_advance h

theorem yields_eatExact_false {f : Bool → Parser β} (h : Yields n (f false) kinds follow b)
    (hleads : Leads kinds follow (· ≠ k)) : Yields n (eatExact k >>= f) kinds follow b := by
  rw [eatExact_bind]
  refine .peek _ (fun next hnext => ?_) hleads
  rw [if_neg hnext]
  exact h

theorem yields_whileNot {stop : TokenKind → Bool} {item : Parser α} {print : α → List TokenKind}
    {items : List α} (first : TokenKind → Prop) (hstop : ∀ k, stop k = true → first k)
    (hprint : ∀ a ∈ items, ∃ k kinds, print a = k :: kinds ∧ first k ∧ stop k = false)
    (hitem : ∀ a ∈ items, Yields n item (print a) first a) :
    Yields n (whileNot stop item) (items.flatMap print) (fun k => stop k = true) items := by
  rw [← append_nil (items.flatMap print)]
  refine Yields.loop_list (fun s items => s ++ items) first append_nil (by simp)
    (fun a ha => ?_) (fun a ha s => ?_) (.loop_inr ?_) hstop
  · obtain ⟨k, kinds, hkinds, hk, _⟩ := hprint a ha
    exact ⟨k, kinds, hkinds, hk⟩
  · obtain ⟨k, kinds, hkinds, _, hk⟩ := hprint a ha
    refine Yields.peek (fun k => stop k = false) (fun next hnext => ?_) (by rw [hkinds]; exact hk)
    rw [if_neg (by simp [hnext])]
    exact .bind_pure _ (hitem a ha)
  · refine .peek (fun k => stop k = true) (fun next hnext => ?_) fun _ hk => hk
    rw [if_pos hnext]
    exact .pure

/-! ## Names -/

theorem split_joinDots (hne : parts ≠ [])
    (hparts : ∀ part ∈ parts, Dotless part) : split '.' (joinDots parts) = parts :=
  split_intercalate hne hparts

theorem yields_dottedParts (acc parts : List String) :
    Yields n (dottedParts acc) (parts.flatMap fun part => [.dot, .ident part]) (· ≠ .dot)
      (acc ++ parts) := by
  rw [← append_nil (parts.flatMap _)]
  refine .loop_list (fun s parts => s ++ parts) (fun _ => True) append_nil
    (by simp) (fun part _ => ⟨_, _, rfl, trivial⟩) (fun part _ s => ?_)
    (.loop_inr ?_) fun _ _ => trivial
  · refine yields_peek ?_
    rw [if_pos rfl]
    exact .weaken (yields_advance (.weaken (yields_expectIdent .pure)))
  refine .peek (· ≠ .dot) (fun next hnext => ?_) fun _ hk => hk
  rw [if_neg hnext]
  exact .pure

theorem yields_parseDottedName (hne : parts ≠ []) :
    Yields (n + 1) parseDottedName (dotted parts) (· ≠ .dot) (joinDots parts) := by
  cases parts with
  | nil => exact absurd rfl hne
  | cons first parts =>
    exact yields_expectIdent (.bind_pure _ (yields_dottedParts [first] parts))

theorem yields_parseDottedExpr (name : String) (parts : List String) :
    Yields n (parseDottedExpr name) (parts.flatMap fun part => [.dot, .ident part]) (· ≠ .dot)
      (dottedExpr name (name :: parts)) :=
  .bind_pure _ (yields_dottedParts [name] parts)

/-! ## Primary expressions

What an expression is followed by: no operator that binds tighter, and
neither a dot nor a parenthesis. -/

/-- The level of a token that goes on with an expression. -/
def tokenLevel : TokenKind → Option ℕ
  | .or => some 0
  | .and => some 1
  | .eq | .neq | .gt | .lt | .gte | .lte | .match | .notMatch => some 2
  | .plus | .minus => some 3
  | .star | .slash => some 4
  | .lParen | .dot => some 6
  | _ => none

def Ends (level : ℕ) (k : TokenKind) : Prop := ∀ l, tokenLevel k = some l → l < level

theorem Ends.mono {l m : ℕ} (h : Ends l k) (hlm : l ≤ m) : Ends m k :=
  fun q hq => (h q hq).trans_le hlm

theorem Ends.ne_lParen (h : Ends 6 k) : k ≠ .lParen := by
  rintro rfl
  exact absurd (h 6 rfl) (lt_irrefl 6)

theorem Ends.ne_dot (h : Ends 6 k) : k ≠ .dot := by
  rintro rfl
  exact absurd (h 6 rfl) (lt_irrefl 6)

theorem ends_of_none (h : tokenLevel k = none) (level : ℕ) : Ends level k := by
  intro l hl
  rw [h] at hl
  cases hl

/-- The kinds an expression begins with that has no operator in front. -/
def startsPrimary : TokenKind → Bool
  | .stringLit _ | .intLit _ | .realLit _ | .durationLit _ | .boolLit _ | .ident _ | .lParen => true
  | _ => false

def startsExpr (k : TokenKind) : Bool := startsPrimary k || k = .not || k = .minus

def levelOp : ℕ → TokenKind → Option BinOp
  | 0 => orOp
  | 1 => andOp
  | 2 => comparisonOp
  | 3 => additiveOp
  | 4 => multiplicativeOp
  | _ => fun _ => none

def parseLevel (expr : Parser Expr) (depth : ℕ) : ℕ → Parser Expr
  | 0 => parseOr expr depth
  | 1 => parseAnd expr depth
  | 2 => parseComparison expr depth
  | 3 => parseAdditive expr depth
  | 4 => parseMultiplicative expr depth
  | _ => parseUnary expr depth

theorem parseLevel_eq (expr : Parser Expr) (depth : ℕ) (h : level ≤ 4) :
    parseLevel expr depth level =
      binaryLevel (levelOp level) (parseLevel expr depth (level + 1)) := by
  interval_cases level
  all_goals rfl

theorem levelOp_token (op : BinOp) : levelOp op.level op.token = some op := by
  cases op
  all_goals rfl

theorem tokenLevel_token (op : BinOp) : tokenLevel op.token = some op.level := by
  cases op
  all_goals rfl

theorem tokenLevel_of_levelOp {op : BinOp}
    (h : levelOp level k = some op) : tokenLevel k = some level := by
  rcases level with _ | _ | _ | _ | _ | level
  case' succ.succ.succ.succ.succ => cases h
  all_goals
    cases k
    all_goals first
      | rfl
      | cases h

theorem Ends.levelOp_eq_none (h : Ends level k) : levelOp level k = none := by
  cases hop : levelOp level k with
  | none => rfl
  | some op => exact absurd (h level (tokenLevel_of_levelOp hop)) (lt_irrefl level)

section

variable {expr : Parser Expr}

theorem yields_postfix_end (expr : Parser Expr) (e : Expr) :
    Yields n (loop (postfixRound expr) e) [] (Ends 6) e := by
  refine .loop_inr (.peek (· ≠ .lParen) (fun next hnext => ?_) fun k hk => hk.ne_lParen)
  rw [if_neg hnext]
  exact Yields.pure

variable {e : Expr} {args : List Expr} {parts : List String} {level : ℕ}

theorem yields_parsePostfix (h : Yields n (parsePrimary expr) kinds (Ends 6) e) :
    Yields n (parsePostfix expr) kinds (Ends 6) e := by
  have hpostfix := Yields.bind h (yields_postfix_end expr e) fun _ hk => hk
  rwa [append_nil] at hpostfix

theorem startsPrimary_printExpr (h : e.Parsed) (hlevel : e.level = 6) :
    ∃ k kinds, printExpr e = k :: kinds ∧ startsPrimary k = true := by
  cases h with
  | stringLit | intLit | realLit | durationLit | boolLit | ident => exact ⟨_, _, rfl, rfl⟩
  | @«variable» parts hparts hlength hheader =>
    have hne : parts ≠ [] := by
      rintro rfl
      simp at hlength
    rw [printExpr, split_joinDots hne hparts]
    cases parts with
    | nil => exact absurd rfl hne
    | cons first parts => exact ⟨_, _, rfl, rfl⟩
  | headerRef => exact ⟨_, _, rfl, rfl⟩
  | binaryOp op =>
    have hle := op.level_le
    rw [Expr.level] at hlevel
    omega
  | unaryOp => cases hlevel
  | functionCall => exact ⟨_, _, rfl, rfl⟩
  | @methodCall parts method args hparts hne hmethod hheader hargs =>
    rw [printExpr, printExpr, split_joinDots hne hparts]
    cases parts with
    | nil => exact absurd rfl hne
    | cons first parts => exact ⟨_, _, rfl, rfl⟩

/-- Only operators have operands; any other expression is of the highest level. -/
theorem parsed_induction {motive : ∀ e : Expr, e.Parsed → Prop}
    (leaf : ∀ e (h : e.Parsed), e.level = 6 → motive e h)
    (binaryOp : ∀ op left right (hleft : left.Parsed) (hright : right.Parsed), motive left hleft →
      motive right hright → motive (.binaryOp left op right) (.binaryOp op hleft hright))
    (unaryOp : ∀ op operand (h : operand.Parsed), motive operand h →
      motive (.unaryOp op operand) (.unaryOp op h))
    (h : e.Parsed) : motive e h := by
  induction h with
  | binaryOp op hleft hright ihleft ihright => exact binaryOp op _ _ hleft hright ihleft ihright
  | unaryOp op h ih => exact unaryOp op _ h ih
  | stringLit s => exact leaf _ (.stringLit s) rfl
  | intLit v => exact leaf _ (.intLit v) rfl
  | realLit v => exact leaf _ (.realLit v) rfl
  | durationLit v => exact leaf _ (.durationLit v) rfl
  | boolLit v => exact leaf _ (.boolLit v) rfl
  | ident h => exact leaf _ (.ident h) rfl
  | «variable» hparts hlength hheader => exact leaf _ (.variable hparts hlength hheader) rfl
  | headerRef hobject hparts hne => exact leaf _ (.headerRef hobject hparts hne) rfl
  | functionCall hname hargs => exact leaf _ (.functionCall hname hargs) rfl
  | methodCall hparts hne hmethod hheader hargs =>
    exact leaf _ (.methodCall hparts hne hmethod hheader hargs) rfl

theorem startsExpr_printAt (h : e.Parsed) (level : ℕ) :
    ∃ k kinds, printAt level e = k :: kinds ∧ startsExpr k = true := by
  have hparen : ∀ {needed : Bool} {kinds : List TokenKind},
      (∃ k later, kinds = k :: later ∧ startsExpr k = true) →
      ∃ k later, parenthesized needed kinds = k :: later ∧ startsExpr k = true := by
    intro needed kinds hkinds
    unfold parenthesized
    split
    · exact ⟨_, _, rfl, rfl⟩
    · exact hkinds
  refine hparen ?_
  induction h using parsed_induction with
  | leaf e he hlevel =>
    obtain ⟨k, kinds, hkinds, hk⟩ := startsPrimary_printExpr he hlevel
    exact ⟨k, kinds, hkinds, by simp [startsExpr, hk]⟩
  | binaryOp op left right hleft hright ihleft ihright =>
    obtain ⟨k, kinds, hkinds, hk⟩ := hparen ihleft
    rw [printExpr, hkinds]
    exact ⟨_, _, rfl, hk⟩
  | unaryOp op operand h ih => cases op <;> exact ⟨_, _, rfl, rfl⟩

theorem startsExpr_printExpr (h : e.Parsed) :
    ∃ k kinds, printExpr e = k :: kinds ∧ startsExpr k = true :=
  startsExpr_printAt h 0

theorem yields_primary_ident (name : String) :
    Yields (n + 1) (parsePrimary expr) [.ident name] (· ≠ .dot) (.ident name) := by
  refine yields_peek ?_
  refine yields_expectIdent (.peek (· ≠ .dot) (fun next hnext => ?_) fun _ hk => hk)
  rw [if_neg hnext]
  exact .pure

theorem yields_primary_dotted (name part : String) (parts : List String) :
    Yields (n + 1) (parsePrimary expr) (dotted (name :: part :: parts)) (· ≠ .dot)
      (dottedExpr name (name :: part :: parts)) := by
  refine yields_peek ?_
  refine yields_expectIdent (.peek (· = .dot) (fun next hnext => ?_) rfl)
  rw [if_pos hnext]
  exact yields_parseDottedExpr name (part :: parts)

theorem dotted_concat (hne : parts ≠ []) (method : String) :
    dotted (parts ++ [method]) = dotted parts ++ [.dot, .ident method] := by
  cases parts with
  | nil => exact absurd rfl hne
  | cons first parts => simp [dotted]

theorem yields_primary_variable (hlength : 2 ≤ parts.length) (hheader : ¬ IsHeader parts) :
    Yields (n + 1) (parsePrimary expr) (dotted parts) (· ≠ .dot) (.variable (joinDots parts)) := by
  cases parts with
  | nil => simp at hlength
  | cons name parts =>
    cases parts with
    | nil => simp at hlength
    | cons part parts =>
      have hdotted : Yields (n + 1) (parsePrimary expr) _ _ _ :=
        yields_primary_dotted name part parts
      rwa [dottedExpr, if_neg hheader] at hdotted

theorem yields_call {callee e : Expr}
    (hcallee : Yields (n + 1) (parsePrimary expr) kinds (· ≠ .dot) callee)
    (hround : Yields (n + 1) (postfixRound expr callee)
      (.lParen :: (printArgs args ++ [.rParen])) (Ends 6) (.inl e)) :
    Yields (n + 1) (parsePostfix expr) (kinds ++ .lParen :: (printArgs args ++ [.rParen]))
      (Ends 6) e := by
  have hcalled := Yields.loop_inl (by simp) hround (yields_postfix_end expr e) fun _ hk => hk
  rw [append_nil] at hcalled
  exact Yields.bind hcallee hcalled (by simp [Leads])

variable (hexpr : ∀ e, e.Parsed → Yields n expr (printExpr e) (Ends 0) e)

include hexpr

theorem yields_moreArgs {acc args : List Expr} (hargs : ∀ arg ∈ args, arg.Parsed) :
    Yields n (loop (argRound expr) acc) (printMoreArgs args) (· = .rParen) (acc ++ args) := by
  induction args generalizing acc with
  | nil =>
    rw [append_nil]
    refine .loop_inr (yields_eatExact_false .pure fun k hk => ?_)
    rw [hk]
    simp
  | cons arg args ih =>
    obtain ⟨harg, hargs⟩ := forall_mem_cons.mp hargs
    have hround : Yields n (argRound expr acc) (.comma :: printExpr arg) (Ends 0)
        (.inl (acc ++ [arg])) :=
      .weaken (yields_eatExact_true (.bind_pure _ (hexpr arg harg)))
    have hlater := @ih (acc ++ [arg]) hargs
    rw [append_assoc, singleton_append] at hlater
    rw [printMoreArgs, ← cons_append]
    refine Yields.loop_inl (by simp) hround hlater ?_
    cases args with
    | nil =>
      intro k hk
      rw [hk]
      exact ends_of_none rfl 0
    | cons => exact ends_of_none rfl 0

theorem yields_parseArgList (hargs : ∀ arg ∈ args, arg.Parsed) :
    Yields n (parseArgList expr) (printArgs args) (· = .rParen) args := by
  cases args with
  | nil =>
    refine .peek (· = .rParen) (fun next hnext => ?_) fun _ hk => hk
    rw [if_pos hnext]
    exact .pure
  | cons arg args =>
    obtain ⟨harg, hargs⟩ := forall_mem_cons.mp hargs
    obtain ⟨k, kinds, hkinds, hk⟩ := startsExpr_printExpr harg
    have hne : Leads (printExpr arg ++ printMoreArgs args) (· = .rParen) (· ≠ .rParen) := by
      rw [hkinds]
      rintro rfl
      cases hk
    refine .peek (· ≠ .rParen) (fun next hnext => ?_) hne
    rw [if_neg hnext]
    refine .bind (hexpr arg harg) (yields_moreArgs hexpr hargs) ?_
    cases args with
    | nil =>
      intro k hk
      rw [hk]
      exact ends_of_none rfl 0
    | cons => exact ends_of_none rfl 0

theorem yields_parseArgs (hargs : ∀ arg ∈ args, arg.Parsed) :
    Yields n (parseArgs expr) (printArgs args ++ [.rParen]) follow args :=
  Yields.bind (yields_parseArgList hexpr hargs) (Yields.weaken (yields_expectKind Yields.pure)) rfl

theorem yields_primary_paren (he : e.Parsed) :
    Yields (n + 1) (parsePrimary expr) (.lParen :: (printExpr e ++ [.rParen])) follow e := by
  refine yields_peek ?_
  exact yields_advance (Yields.bind (hexpr e he)
    (Yields.weaken (yields_expectKind Yields.pure)) (ends_of_none rfl 0))

theorem yields_functionCall (name : String) (hargs : ∀ arg ∈ args, arg.Parsed) :
    Yields (n + 1) (parsePostfix expr) (printExpr (.functionCall name args)) (Ends 6)
      (.functionCall name args) := by
  refine yields_call (yields_primary_ident name) ?_
  refine yields_peek ?_
  rw [if_pos rfl]
  exact yields_advance (.bind_pure _ (yields_parseArgs hexpr hargs))

theorem yields_methodCall {method : String}
    (hparts : ∀ part ∈ parts, Dotless part) (hne : parts ≠ []) (hmethod : Dotless method)
    (hheader : ¬ IsHeader (parts ++ [method])) (hargs : ∀ arg ∈ args, arg.Parsed) :
    Yields (n + 1) (parsePostfix expr)
      (printExpr (.methodCall (.variable (joinDots parts)) method args)) (Ends 6)
      (.methodCall (.variable (joinDots parts)) method args) := by
  have hlength : 2 ≤ (parts ++ [method]).length := by
    rw [length_append]
    exact Nat.succ_le_succ (length_pos_iff.mpr hne)
  have hprint : printExpr (.methodCall (.variable (joinDots parts)) method args) =
      dotted (parts ++ [method]) ++ .lParen :: (printArgs args ++ [.rParen]) := by
    rw [printExpr, printExpr, split_joinDots hne hparts, dotted_concat hne, append_assoc]
    rfl
  rw [hprint]
  refine yields_call (yields_primary_variable hlength hheader) ?_
  refine yields_peek ?_
  rw [if_pos rfl]
  dsimp only
  rw [joinDots_concat hne, rsplitOnce_append hmethod, String.ofList_toList, String.ofList_toList]
  exact yields_advance (.bind_pure _ (yields_parseArgs hexpr hargs))

theorem yields_postfix (h : e.Parsed) (hlevel : e.level = 6) :
    Yields (n + 1) (parsePostfix expr) (printExpr e) (Ends 6) e := by
  have hdot : ∀ {kinds : List TokenKind} {e : Expr},
      Yields (n + 1) (parsePrimary expr) kinds (· ≠ .dot) e →
      Yields (n + 1) (parsePostfix expr) kinds (Ends 6) e := fun h =>
    yields_parsePostfix (.mono h le_rfl fun _ hk => hk.ne_dot)
  cases h with
  | stringLit | intLit | realLit | durationLit | boolLit =>
    exact yields_parsePostfix (yields_peek (yields_advance .pure))
  | ident => exact hdot (yields_primary_ident _)
  | @«variable» parts hparts hlength hheader =>
    have hne : parts ≠ [] := by
      rintro rfl
      simp at hlength
    rw [printExpr, split_joinDots hne hparts]
    exact hdot (yields_primary_variable hlength hheader)
  | @headerRef object parts hobject hparts hne =>
    have hheader : IsHeader (object :: "http" :: parts) := by
      refine ⟨?_, rfl⟩
      have hpos := length_pos_iff.mpr hne
      simp only [length_cons]
      omega
    have hdotted := hdot (yields_primary_dotted object "http" parts)
    rw [dottedExpr, if_pos hheader] at hdotted
    rw [printExpr, split_joinDots hne hparts]
    exact hdotted
  | binaryOp op =>
    have hle := op.level_le
    rw [Expr.level] at hlevel
    omega
  | unaryOp => cases hlevel
  | functionCall hname hargs => exact yields_functionCall hexpr _ hargs
  | methodCall hparts hne hmethod hheader hargs =>
    exact yields_methodCall hexpr hparts hne hmethod hheader hargs

/-! ## Operators -/

omit hexpr in
theorem printAt_of_le (h : level ≤ e.level) : printAt level e = printExpr e := by
  simp [printAt, parenthesized, h]

omit hexpr in
theorem printAt_of_lt (h : e.level < level) :
    printAt level e = .lParen :: (printExpr e ++ [.rParen]) := by
  simp [printAt, parenthesized, h]

omit hexpr in
theorem printAt_succ (h : e.level ≠ level) : printAt level e = printAt (level + 1) e := by
  rcases Nat.lt_or_gt_of_ne h with hlt | hgt
  · rw [printAt_of_lt hlt, printAt_of_lt (Nat.lt_succ_of_lt hlt)]
  · rw [printAt_of_le hgt.le, printAt_of_le hgt]

omit hexpr in
theorem startsPrimary_printAt (h : e.Parsed) (hlevel : e.level ≠ 5) :
    ∃ k kinds, printAt 5 e = k :: kinds ∧ startsPrimary k = true := by
  rcases Nat.lt_or_ge e.level 5 with hlt | hge
  · rw [printAt_of_lt hlt]
    exact ⟨_, _, rfl, rfl⟩
  have hsix := e.level_le
  rw [printAt_of_le hge]
  exact startsPrimary_printExpr h (by omega)

theorem yields_postfix_printAt (h : e.Parsed) (hlevel : e.level ≠ 5) :
    Yields (n + 1) (parsePostfix expr) (printAt 5 e) (Ends 6) e := by
  rcases Nat.lt_or_ge e.level 5 with hlt | hge
  · rw [printAt_of_lt hlt]
    exact yields_parsePostfix (yields_primary_paren hexpr h)
  have hsix := e.level_le
  rw [printAt_of_le hge]
  exact yields_postfix hexpr h (by omega)

omit hexpr in
theorem yields_unary_of_postfix {k : TokenKind} (hnot : k ≠ .not) (hminus : k ≠ .minus)
    (h : Yields (n + 1) (parsePostfix expr) (k :: kinds) (Ends 6) e) {depth : ℕ}
    (hdepth : depth ≤ n + 1) : Yields depth (parseUnary expr depth) (k :: kinds) (Ends 5) e := by
  cases depth with
  | zero => exact fun hlength => absurd hlength (Nat.not_lt_zero _)
  | succ depth =>
    have hpostfix : Yields (depth + 1) (parsePostfix expr) (k :: kinds) (Ends 5) e :=
      .mono h hdepth fun _ hk => hk.mono (by decide)
    refine yields_peek ?_
    split
    · exact absurd rfl hnot
    · exact absurd rfl hminus
    · exact hpostfix

/-- Behind an operand, the loop of its level goes on. -/
def Chain (n : ℕ) (expr : Parser Expr) (level : ℕ) (e : Expr) : Prop :=
  ∀ (later : List TokenKind) (follow : TokenKind → Prop) (b : Expr), Yields (n + 1) (loop
      (binaryRound (levelOp level) (parseLevel expr (n + 1) (level + 1))) e) later follow b →
    Leads later follow (Ends (level + 1)) →
    Yields (n + 1) (parseLevel expr (n + 1) level) (printAt level e ++ later) follow b

omit hexpr in
theorem Chain.yields (h : Chain n expr level e) :
    Yields (n + 1) (parseLevel expr (n + 1) level) (printAt level e) (Ends level) e := by
  have hend : Yields (n + 1) (loop
      (binaryRound (levelOp level) (parseLevel expr (n + 1) (level + 1))) e) [] (Ends level) e := by
    refine .loop_inr (.peek (Ends level) (fun next hnext => ?_) fun _ hk => hk)
    rw [hnext.levelOp_eq_none]
    exact .pure
  have hchain := h [] (Ends level) e hend fun _ hk => hk.mono (Nat.le_succ level)
  rwa [append_nil] at hchain

omit hexpr in
theorem chain_of_yields (hlevel : level ≤ 4) (hne : e.level ≠ level)
    (h : Yields (n + 1) (parseLevel expr (n + 1) (level + 1)) (printAt (level + 1) e)
      (Ends (level + 1)) e) : Chain n expr level e := by
  intro later follow b hlater hleads
  rw [parseLevel_eq expr (n + 1) hlevel, printAt_succ hne]
  exact .bind h hlater hleads

omit hexpr in
theorem chain_binaryOp {left right : Expr} {op : BinOp} (hleft : Chain n expr op.level left)
    (hright : Yields (n + 1) (parseLevel expr (n + 1) (op.level + 1)) (printAt (op.level + 1) right)
      (Ends (op.level + 1)) right) : Chain n expr op.level (.binaryOp left op right) := by
  intro later follow b hlater hleads
  have hround : Yields (n + 1) (binaryRound (levelOp op.level)
      (parseLevel expr (n + 1) (op.level + 1)) left)
      (op.token :: printAt (op.level + 1) right) (Ends (op.level + 1))
      (.inl (.binaryOp left op right)) := by
    refine yields_peek ?_
    rw [levelOp_token]
    exact .weaken (yields_advance (.bind_pure _ hright))
  have hprint : printAt op.level (.binaryOp left op right) ++ later =
      printAt op.level left ++ ((op.token :: printAt (op.level + 1) right) ++ later) := by
    rw [printAt_of_le (by rw [Expr.level]), printExpr, append_assoc]
    rfl
  rw [hprint]
  refine hleft _ _ _ (Yields.loop_inl (by simp) hround hlater hleads) ?_
  intro l hl
  rw [tokenLevel_token] at hl
  cases hl
  exact Nat.lt_succ_self _

/-- An expression is read back as an operand of every level. -/
theorem yields_operand (h : e.Parsed) :
    (∀ depth ≤ n + 1, Yields depth (parseUnary expr depth) (printAt 5 e) (Ends 5) e) ∧
      ∀ level ≤ 4, Chain n expr level e := by
  -- from the unary level down, unless the expression is an operator itself
  have hdown : ∀ {e : Expr},
      (∀ depth ≤ n + 1, Yields depth (parseUnary expr depth) (printAt 5 e) (Ends 5) e) →
      (e.level ≤ 4 → Chain n expr e.level e) → ∀ level ≤ 4, Chain n expr level e := by
    intro e hunary hself level hlevel
    induction hgap : 4 - level generalizing level with
    | zero =>
      obtain rfl : level = 4 := by omega
      by_cases hne : e.level = 4
      · exact hne ▸ hself hne.le
      · exact chain_of_yields le_rfl hne (hunary _ le_rfl)
    | succ gap ih =>
      by_cases hne : e.level = level
      · subst hne
        exact hself hlevel
      · exact chain_of_yields hlevel hne (ih (level + 1) (by omega) (by omega)).yields
  have hunary : ∀ {e : Expr}, e.Parsed → e.level ≠ 5 →
      ∀ depth ≤ n + 1, Yields depth (parseUnary expr depth) (printAt 5 e) (Ends 5) e := by
    intro e he hlevel depth hdepth
    have hpostfix := yields_postfix_printAt hexpr he hlevel
    obtain ⟨k, kinds, hkinds, hk⟩ := startsPrimary_printAt he hlevel
    rw [hkinds] at hpostfix ⊢
    refine yields_unary_of_postfix ?_ ?_ hpostfix hdepth
    · rintro rfl
      cases hk
    · rintro rfl
      cases hk
  induction h using parsed_induction with
  | leaf e he hlevel =>
    have hself := hunary he (by omega)
    exact ⟨hself, hdown hself fun hle => absurd hle (by omega)⟩
  | binaryOp op left right hleft hright ihleft ihright =>
    have hlevel := op.level_le
    have hself := hunary (.binaryOp op hleft hright) (by rw [Expr.level]; omega)
    refine ⟨hself, hdown hself fun _ => chain_binaryOp (ihleft.2 _ hlevel) ?_⟩
    rcases Nat.lt_or_ge op.level 4 with hlt | hge
    · exact (ihright.2 (op.level + 1) hlt).yields
    have hfour : op.level = 4 := by omega
    rw [hfour]
    exact ihright.1 _ le_rfl
  | unaryOp op operand h ih =>
    have hself : ∀ depth ≤ n + 1, Yields depth (parseUnary expr depth)
        (printAt 5 (.unaryOp op operand)) (Ends 5) (.unaryOp op operand) := by
      intro depth hdepth
      rw [printAt_of_le (by rw [Expr.level]), printExpr]
      cases depth with
      | zero => exact fun hlength => absurd hlength (Nat.not_lt_zero _)
      | succ depth =>
        have hoperand := ih.1 depth (Nat.le_of_succ_le hdepth)
        refine yields_peek ?_
        cases op
        all_goals exact yields_advance (.bind_pure _ hoperand)
    exact ⟨hself, hdown hself fun hle => absurd hle (by rw [Expr.level]; omega)⟩

end

theorem yields_parseExpr (n : ℕ) {e : Expr} (h : e.Parsed) :
    Yields n (parseExpr n) (printExpr e) (Ends 0) e := by
  induction n generalizing e with
  | zero => exact fun hlength => absurd hlength (Nat.not_lt_zero _)
  | succ n ih =>
    have hchain := ((yields_operand (fun e he => ih he) h).2 0 (Nat.zero_le 4)).yields
    rwa [printAt_of_le (Nat.zero_le _)] at hchain

/-! ## Statements -/

theorem yields_kind (h : Yields n (f ()) kinds follow b) :
    Yields n (expectKind k >>= f) (k :: kinds) follow b :=
  .weaken (yields_expectKind h)

theorem yields_ident {f : String → Parser β} (h : Yields n (f name) kinds follow b) :
    Yields n (expectIdent >>= f) (.ident name :: kinds) follow b :=
  .weaken (yields_expectIdent h)

theorem yields_parseSetOp {op : SetOp} {f : SetOp → Parser β} (h : Yields n (f op) kinds follow b) :
    Yields n (parseSetOp >>= f) (op.token :: kinds) follow b := by
  rw [parseSetOp, bind_assoc]
  refine yields_peek ?_
  cases op
  all_goals
    dsimp only [SetOp.token]
    rw [bind_assoc]
    exact .weaken (yields_advance h)

theorem printBlock_eq (body : List Statement) : printBlock body = body.flatMap printStatement := by
  induction body with
  | nil => rfl
  | cons s body ih => rw [printBlock, ih, flatMap_cons]

def printElseIf (elseIf : Expr × List Statement) : List TokenKind :=
  .elseIf :: branch (printExpr elseIf.1) (printBlock elseIf.2)

theorem printElseIfs_eq (elseIfs : List (Expr × List Statement)) :
    printElseIfs elseIfs = elseIfs.flatMap printElseIf := by
  induction elseIfs with
  | nil => rfl
  | cons elseIf elseIfs ih =>
    rw [printElseIfs, ih, flatMap_cons]
    rfl

def NoElse (k : TokenKind) : Prop := k ≠ .elseIf ∧ k ≠ .else

def startsStatement (k : TokenKind) : Bool := k ≠ .rBrace && k ≠ .eof && k ≠ .elseIf && k ≠ .else

theorem startsStatement_of_startsExpr (h : startsExpr k = true) : startsStatement k = true := by
  cases k
  all_goals first
    | rfl
    | cases h

theorem startsStatement_printStatement {s : Statement} (h : s.Parsed) :
    ∃ k kinds, printStatement s = k :: kinds ∧ startsStatement k = true := by
  cases h with
  | exprStatement h =>
    obtain ⟨k, kinds, hkinds, hk⟩ := startsExpr_printExpr h
    rw [printStatement, hkinds]
    exact ⟨_, _, rfl, startsStatement_of_startsExpr hk⟩
  | _ => exact ⟨_, _, rfl, rfl⟩

section

variable {expr : Parser Expr} {statement : Parser Statement} {body : List Statement}

theorem yields_parseBraced (hbody : ∀ s ∈ body, Yields n statement (printStatement s) NoElse s)
    (hparsed : ∀ s ∈ body, s.Parsed) :
    Yields n (parseBraced statement) (.lBrace :: (printBlock body ++ [.rBrace])) follow body := by
  have hblock : Yields n (parseStatementBlock statement) (body.flatMap printStatement)
      (fun k => (k = .rBrace || k = .eof) = true) body := by
    refine yields_whileNot NoElse (fun k hk => ?_) (fun s hs => ?_) hbody
    · rw [Bool.or_eq_true, decide_eq_true_eq, decide_eq_true_eq] at hk
      rcases hk with rfl | rfl
      all_goals exact ⟨by simp, by simp⟩
    obtain ⟨k, kinds, hkinds, hk⟩ := startsStatement_printStatement (hparsed s hs)
    simp only [startsStatement, Bool.and_eq_true, decide_eq_true_eq] at hk
    refine ⟨k, kinds, hkinds, ⟨hk.1.2, hk.2⟩, ?_⟩
    simp [hk.1.1.1, hk.1.1.2]
  rw [printBlock_eq]
  exact yields_kind (.bind hblock (yields_kind .pure) rfl)

variable (hexpr : ∀ e, e.Parsed → Yields n expr (printExpr e) (Ends 0) e) {s : Statement}
  {depth : ℕ} {target : String} {decl : BackendDecl}

include hexpr

theorem yields_parseBranch {condition : Expr} (hcondition : condition.Parsed)
    (hbody : ∀ s ∈ body, Yields n statement (printStatement s) NoElse s)
    (hparsed : ∀ s ∈ body, s.Parsed) :
    Yields n (parseBranch expr statement) (branch (printExpr condition) (printBlock body)) follow
      (condition, body) := by
  refine yields_kind (.bind (hexpr condition hcondition) (yields_kind ?_)
    (ends_of_none rfl 0))
  exact .bind_pure _ (yields_parseBraced hbody hparsed)

theorem yields_parseElse {elseIfs : List (Expr × List Statement)}
    {elseBody : Option (List Statement)} (hconditions : ∀ branch ∈ elseIfs, branch.1.Parsed)
    (hbodies : ∀ branch ∈ elseIfs, ∀ s ∈ branch.2, Yields n statement (printStatement s) NoElse s)
    (hparsed : ∀ branch ∈ elseIfs, ∀ s ∈ branch.2, s.Parsed)
    (helse : ∀ body ∈ elseBody, ∀ s ∈ body, Yields n statement (printStatement s) NoElse s)
    (hparsedElse : ∀ body ∈ elseBody, ∀ s ∈ body, s.Parsed) :
    Yields n (parseElse expr statement) (printElseIfs elseIfs ++ printElseBody elseBody) NoElse
      (elseIfs, elseBody) := by
  rw [printElseIfs_eq]
  refine Yields.loop_list (fun s elseIfs => s ++ elseIfs) (fun _ => True)
    append_nil (by simp) (fun elseIf _ => ⟨_, _, rfl, trivial⟩) (fun elseIf h s => ?_)
    (Yields.loop_inr ?_) ?_
  · refine Yields.weaken (yields_eatExact_true (Yields.bind_pure _ ?_))
    exact yields_parseBranch hexpr (hconditions elseIf h) (hbodies elseIf h) (hparsed elseIf h)
  · rw [nil_append]
    cases elseBody with
    | none =>
      refine yields_eatExact_false (yields_eatExact_false .pure ?_) ?_
      · exact fun k hk => hk.2
      · exact fun k hk => hk.1
    | some body =>
      refine yields_eatExact_false (.weaken (yields_eatExact_true
        (yields_eatExact_false (.bind_pure _ ?_) ?_))) ?_
      · exact yields_parseBraced (helse body rfl) (hparsedElse body rfl)
      · simp [Leads]
      · simp [Leads, printElseBody]
  · exact leads_true _ _

theorem yields_parseKeyword {keyword : TokenKind} {build : Expr → Statement} {e : Expr}
    (he : e.Parsed) :
    Yields (n + 1) (parseKeyword expr keyword build)
      (keyword :: .lParen :: (printExpr e ++ [.rParen, .semicolon])) follow (build e) := by
  refine yields_expectKind (yields_kind (.bind (hexpr e he) ?_ (ends_of_none rfl 0)))
  exact yields_kind (yields_kind Yields.pure)

theorem yields_parseSet {operator : SetOp} {value : Expr} (htarget : Dotted target)
    (hvalue : value.Parsed) :
    Yields (n + 1) (parseSet expr) (printStatement (.set target operator value)) follow
      (.set target operator value) := by
  obtain ⟨parts, hne, hparts, rfl⟩ := htarget
  rw [printStatement, split_joinDots hne hparts]
  refine yields_expectKind (Yields.bind (Yields.weaken (yields_parseDottedName hne))
    (yields_parseSetOp (Yields.bind (hexpr value hvalue) ?_ (ends_of_none rfl 0))) ?_)
  · exact yields_kind Yields.pure
  · cases operator
    all_goals simp [Leads, SetOp.token]

omit hexpr in
theorem yields_parseUnset (htarget : Dotted target) :
    Yields (n + 1) parseUnset (printStatement (.unset target)) follow (.unset target) := by
  obtain ⟨parts, hne, hparts, rfl⟩ := htarget
  rw [printStatement, split_joinDots hne hparts]
  refine yields_expectKind (Yields.bind (Yields.weaken (yields_parseDottedName hne))
    (yields_kind Yields.pure) ?_)
  simp [Leads]

theorem yields_parseNew (name typeName : String) {args : List Expr}
    (hargs : ∀ arg ∈ args, arg.Parsed) :
    Yields (n + 1) (parseNew expr) (printStatement (.new name typeName args)) follow
      (.new name typeName args) := by
  refine yields_expectKind (yields_ident (yields_kind (yields_ident (yields_kind
    (.bind (yields_parseArgList hexpr hargs) ?_ rfl)))))
  exact yields_kind (yields_kind .pure)

omit hexpr in
theorem yields_statement (first : TokenKind → Prop)
    (hfirst : ∃ k kinds, printStatement s = k :: kinds ∧ first k)
    (h : ∀ depth, depth + 1 ≤ n → ∀ k, first k →
      Yields (depth + 1) (parseStatementAt expr (parseStatement expr depth) k) (printStatement s)
        NoElse s) (hdepth : depth ≤ n) :
    Yields depth (parseStatement expr depth) (printStatement s) NoElse s := by
  cases depth with
  | zero => exact fun hlength => absurd hlength (Nat.not_lt_zero _)
  | succ depth =>
    obtain ⟨k, kinds, hkinds, hk⟩ := hfirst
    refine .peek first (h depth hdepth) ?_
    rw [hkinds]
    exact hk

omit hexpr in
theorem yields_keyword {k : TokenKind}
    (hfirst : ∃ kinds, printStatement s = k :: kinds)
    (h : ∀ depth, depth + 1 ≤ n → Yields (depth + 1)
      (parseStatementAt expr (parseStatement expr depth) k) (printStatement s) NoElse s)
    (hdepth : depth ≤ n) :
    Yields depth (parseStatement expr depth) (printStatement s) NoElse s := by
  obtain ⟨kinds, hkinds⟩ := hfirst
  exact yields_statement (· = k) ⟨k, kinds, hkinds, rfl⟩ (fun depth hle _ hk => hk ▸ h depth hle)
    hdepth

theorem yields_parseStatement (h : s.Parsed) (hdepth : depth ≤ n) :
    Yields depth (parseStatement expr depth) (printStatement s) NoElse s := by
  have hless : ∀ {depth : ℕ}, depth + 1 ≤ n → ∀ e : Expr, e.Parsed →
      Yields depth expr (printExpr e) (Ends 0) e := fun hle e he =>
    .mono (hexpr e he) (Nat.le_of_succ_le hle) fun _ hk => hk
  induction h generalizing depth with
  | set operator htarget hvalue =>
    refine yields_keyword ⟨_, rfl⟩ (fun depth hle => ?_) hdepth
    exact yields_parseSet (hless hle) htarget hvalue
  | unset htarget =>
    refine yields_keyword ⟨_, rfl⟩ (fun depth hle => ?_) hdepth
    exact yields_parseUnset htarget
  | call subroutine =>
    refine yields_keyword ⟨_, rfl⟩ (fun depth hle => ?_) hdepth
    exact yields_expectKind (yields_ident (yields_kind .pure))
  | «return» h | synthetic h | ban h =>
    refine yields_keyword ⟨_, rfl⟩ (fun depth hle => ?_) hdepth
    exact yields_parseKeyword (hless hle) h
  | «if» hcondition hbody hconditions hbodies helse ihbody ihbodies ihelse =>
    refine yields_keyword ⟨_, rfl⟩ (fun depth hle => ?_) hdepth
    have hdepth : depth ≤ n := Nat.le_of_succ_le hle
    refine yields_expectKind (.bind (yields_parseBranch (hless hle) hcondition
      (fun s hs => ihbody s hs hdepth) hbody) (.bind_pure _
      (yields_parseElse (hless hle) hconditions (fun b hb s hs => ihbodies b hb s hs hdepth)
        hbodies (fun b hb s hs => ihelse b hb s hs hdepth) helse)) (leads_true _ _))
  | new name typeName h =>
    refine yields_keyword ⟨_, rfl⟩ (fun depth hle => ?_) hdepth
    exact yields_parseNew (hless hle) name typeName h
  | @exprStatement e h =>
    obtain ⟨k, kinds, hkinds, hk⟩ := startsExpr_printExpr h
    refine yields_statement (fun k => startsExpr k = true)
      ⟨k, kinds ++ [.semicolon], by rw [printStatement, hkinds]; rfl, hk⟩
      (fun depth hle k hk => ?_) hdepth
    have hself : Yields (depth + 1) (do
        let e ← expr
        expectSemicolon
        pure (Statement.exprStatement e)) (printStatement (.exprStatement e)) NoElse
        (.exprStatement e) :=
      .bind (.mono (hexpr e h) hle fun _ hk => hk)
        (yields_kind .pure) (ends_of_none rfl 0)
    cases k
    all_goals first
      | exact hself
      | cases hk

/-! ## Declarations -/

theorem yields_parseProperty {property : String × Expr} (h : property.2.Parsed) :
    Yields n (parseProperty expr)
      (.ident property.1 :: .assign :: (printExpr property.2 ++ [.semicolon])) follow property :=
  yields_ident (yields_kind (.bind (hexpr property.2 h)
    (yields_kind .pure) (ends_of_none rfl 0)))

theorem yields_parseProbeBody (name : Option String) {properties : List (String × Expr)}
    (h : ParsedProperties properties) :
    Yields n (parseProbeBody expr name) (printProperties properties) follow ⟨name, properties⟩ := by
  refine yields_kind (.bind (yields_whileNot (fun _ => True) (fun _ _ => trivial)
    (fun property _ => ⟨_, _, rfl, trivial, rfl⟩)
    fun property hproperty => yields_kind (yields_parseProperty hexpr (h property hproperty)))
    (yields_kind Yields.pure) (by simp [Leads]))

theorem yields_parseProbeDecl {decl : ProbeDecl} (h : decl.Parsed) :
    Yields n (parseProbeDecl expr) (printProbeDecl decl) follow decl := by
  obtain ⟨name, properties⟩ := decl
  obtain ⟨name, rfl⟩ := Option.ne_none_iff_exists'.mp h.named
  exact yields_kind (yields_ident (yields_parseProbeBody hexpr (some name) h.properties))

theorem yields_parseProbeRef {probe : ProbeDecl} (h : probe.ParsedRef) :
    Yields n (parseProbeRef expr) (printProbeRef probe) follow probe := by
  obtain ⟨name, properties⟩ := probe
  cases name with
  | none =>
    refine yields_peek ?_
    rw [if_pos rfl]
    exact yields_parseProbeBody hexpr none h.1
  | some name =>
    obtain rfl : properties = [] := h.2 (by simp)
    refine yields_peek ?_
    rw [if_neg (by simp)]
    exact yields_ident (yields_kind .pure)

theorem yields_backendRounds (h : decl.Parsed) :
    Yields n (loop (backendRound expr) ⟨decl.name, [], none⟩)
      (decl.properties.flatMap printProperty ++ decl.probe.toList.flatMap printProbe)
      (· = .rBrace) decl := by
  have hend : ∀ decl, Yields n (loop (backendRound expr) decl) [] (· = .rBrace) decl := by
    intro decl
    refine .loop_inr (.peek (· = .rBrace) (fun next hnext => ?_) fun _ hk => hk)
    rw [if_pos hnext]
    exact .pure
  refine .loop_list
    (fun decl properties => { decl with properties := decl.properties ++ properties })
    (fun _ => True) (by simp) (by simp) (fun property _ => ⟨_, _, rfl, trivial⟩)
    (fun property hproperty decl => ?_) ?_ (leads_true _ _)
  · refine yields_peek ?_
    rw [if_neg (by simp)]
    exact yields_kind (yields_eatExact_false (.bind_pure _
      (yields_parseProperty hexpr (h.properties property hproperty))) (by simp [Leads]))
  obtain ⟨name, properties, probe⟩ := decl
  cases probe with
  | none => exact hend _
  | some probe =>
    refine Yields.loop_inl (by simp [printProbe]) ?_ (hend _) (leads_true _ _)
    refine yields_peek ?_
    rw [if_neg (by simp)]
    exact yields_kind (.weaken (yields_eatExact_true (yields_kind
      (.bind_pure _ (yields_parseProbeRef hexpr (h.probe probe rfl))))))

theorem yields_parseBackend (h : decl.Parsed) :
    Yields n (parseBackend expr) (printBackend decl) follow decl := by
  rw [printBackend, ← append_assoc]
  exact yields_kind (yields_ident (yields_kind (.bind (yields_backendRounds hexpr h)
    (yields_kind .pure) rfl)))

omit hexpr in
theorem yields_parseMask (mask : Option UInt8) {f : Option UInt8 → Parser β}
    (h : Yields n (f mask) kinds follow b) (hleads : Leads kinds follow (· ≠ .slash)) :
    Yields n (parseMask >>= f) (printMask mask ++ kinds) follow b := by
  rw [parseMask, bind_assoc]
  cases mask with
  | none => exact yields_eatExact_false h hleads
  | some mask =>
    have hmask : (Int64.ofNat mask.toNat).toUInt64.toUInt8 = mask := by simp
    refine .weaken (yields_eatExact_true ?_)
    rw [if_pos rfl, bind_assoc]
    refine yields_peek ?_
    rw [bind_assoc, hmask]
    exact .weaken (yields_advance h)

omit hexpr in
theorem yields_parseAclEntry (entry : AclEntry) :
    Yields n parseAclEntry (printAclEntry entry) follow entry := by
  obtain ⟨negate, addr, mask⟩ := entry
  have haddr : ∀ negate, Yields n (do
      let addr ← parseAddr
      let mask ← parseMask
      expectSemicolon
      pure (⟨negate, addr, mask⟩ : AclEntry)) (printAclEntry ⟨false, addr, mask⟩) follow
      ⟨negate, addr, mask⟩ := by
    intro negate
    rw [parseAddr, bind_assoc]
    refine yields_peek ?_
    rw [bind_assoc]
    exact .weaken (yields_advance (yields_parseMask mask
      (yields_kind Yields.pure) (by simp [Leads])))
  cases negate with
  | true => exact .weaken (yields_eatExact_true (haddr true))
  | false => exact yields_eatExact_false (haddr false) (by simp [Leads, printAclEntry])

omit hexpr in
theorem yields_parseAcl (decl : AclDecl) : Yields n parseAcl (printAcl decl) follow decl := by
  refine yields_kind (yields_ident (yields_kind (.bind
    (yields_whileNot (fun _ => True) (fun _ _ => trivial) (fun entry _ => ?_)
      fun entry _ => yields_parseAclEntry entry)
    (yields_kind Yields.pure) (by simp [Leads]))))
  obtain ⟨negate, addr, mask⟩ := entry
  cases negate
  all_goals exact ⟨_, _, rfl, trivial, rfl⟩

omit hexpr in
theorem yields_parseImport (decl : ImportDecl) :
    Yields n parseImport (printImport decl) follow decl :=
  yields_kind (yields_ident (yields_kind .pure))

omit hexpr in
theorem yields_parseSub {decl : SubDecl} (h : decl.Parsed)
    (hbody : ∀ s ∈ decl.body, Yields n statement (printStatement s) NoElse s) :
    Yields n (parseSub statement) (printSub decl) follow decl :=
  yields_kind (yields_ident (.bind_pure _ (yields_parseBraced hbody h)))

theorem yields_parseDecls {program : VclProgram} (h : program.Parsed)
    (hstatement : ∀ s : Statement, s.Parsed → Yields n statement (printStatement s) NoElse s) :
    Yields n (parseDecls expr statement ⟨program.version, [], [], [], [], []⟩)
      (printProgram program) (· = .eof) program := by
  refine .loop_list
    (fun program decls => { program with imports := program.imports ++ decls })
    (fun _ => True) (by simp) (by simp) (fun decl _ => ⟨_, _, rfl, trivial⟩)
    (fun decl _ program => ?_) ?_ (leads_true _ _)
  · refine yields_peek ?_
    exact .bind_pure _ (yields_parseImport decl)
  refine .loop_list
    (fun program decls => { program with backends := program.backends ++ decls })
    (fun _ => True) (by simp) (by simp) (fun decl _ => ⟨_, _, rfl, trivial⟩)
    (fun decl hdecl program => ?_) ?_ (leads_true _ _)
  · refine yields_peek ?_
    exact .bind_pure _ (yields_parseBackend hexpr (h.backends decl hdecl))
  refine .loop_list (fun program decls => { program with probes := program.probes ++ decls })
    (fun _ => True) (by simp) (by simp) (fun decl _ => ⟨_, _, rfl, trivial⟩)
    (fun decl hdecl program => ?_) ?_ (leads_true _ _)
  · refine yields_peek ?_
    exact .bind_pure _ (yields_parseProbeDecl hexpr (h.probes decl hdecl))
  refine .loop_list (fun program decls => { program with acls := program.acls ++ decls })
    (fun _ => True) (by simp) (by simp) (fun decl _ => ⟨_, _, rfl, trivial⟩)
    (fun decl _ program => ?_) ?_ (leads_true _ _)
  · refine yields_peek ?_
    exact .bind_pure _ (yields_parseAcl decl)
  refine .loop_list (fun program decls => { program with subs := program.subs ++ decls })
    (fun _ => True) (by simp) (by simp) (fun decl _ => ⟨_, _, rfl, trivial⟩)
    (fun decl hdecl program => ?_) (.loop_inr ?_) (leads_true _ _)
  · refine yields_peek ?_
    exact .bind_pure _ (yields_parseSub (h.subs decl hdecl)
      fun s hs => hstatement s (h.subs decl hdecl s hs))
  refine .peek (· = .eof) ?_ fun _ hk => hk
  rintro _ rfl
  exact .pure

end

theorem leads_printProgram (program : VclProgram) :
    Leads (printProgram program) (· = .eof) (· ≠ .vcl) := by
  obtain ⟨version, imports, backends, probes, acls, subs⟩ := program
  cases imports with
  | cons => simp [Leads, printProgram, printImport]
  | nil =>
  cases backends with
  | cons => simp [Leads, printProgram, printBackend]
  | nil =>
  cases probes with
  | cons => simp [Leads, printProgram, printProbeDecl]
  | nil =>
  cases acls with
  | cons => simp [Leads, printProgram, printAcl]
  | nil =>
  cases subs with
  | cons => simp [Leads, printProgram, printSub]
  | nil => simp [Leads, printProgram]

theorem parse_printProgram {program : VclProgram} (h : program.Parsed)
    (hversion : program.version = none) {printed : List Token}
    (hprinted : printed.map Token.kind = printProgram program ++ [.eof]) :
    parse printed = .ok program := by
  obtain ⟨used, rest, rfl, hused, hrest⟩ := map_eq_append_iff.mp hprinted
  obtain ⟨eof, rfl, heof⟩ := map_eq_singleton_iff.mp hrest
  have hexpr : ∀ e : Expr, e.Parsed → Yields ((used ++ [eof]).length + 1)
      (parseExpr ((used ++ [eof]).length + 1)) (printExpr e) (Ends 0) e :=
    fun e he => yields_parseExpr _ he
  have hdecls := yields_parseDecls hexpr h fun s hs => yields_parseStatement hexpr hs le_rfl
  have hprogram : Yields ((used ++ [eof]).length + 1)
      (parseProgram (parseExpr ((used ++ [eof]).length + 1))
        (parseStatement (parseExpr ((used ++ [eof]).length + 1)) ((used ++ [eof]).length + 1)))
      (printProgram program) (· = .eof) program := by
    refine .peek (· ≠ .vcl) (fun next hnext => ?_) (leads_printProgram program)
    rw [if_neg hnext]
    rwa [hversion] at hdecls
  have hlength : (printProgram program).length < (used ++ [eof]).length + 1 := by
    rw [← hused, length_map, length_append]
    omega
  rw [parse, hprogram hlength used [eof] hused heof]
  rfl

/-- **The parser inverts printing.** It gives a result for every text that
has tokens; a program without a version that it returns is printed to tokens,
at any places, that it reads as the same program. -/
theorem parse_print {source : String} {tokens : List Token}
    (htokens : Lexer.tokenize source = .ok tokens) :
    parse tokens ≠ .error .stuck ∧
      ∀ program, parse tokens = .ok program → program.version = none →
        ∀ printed : List Token, printed.map Token.kind = printProgram program ++ [.eof] →
          parse printed = .ok program := by
  obtain ⟨hstuck, hparsed⟩ := parse_spec (Lexer.plain_of_mem_tokens htokens)
  exact ⟨hstuck, fun program hprogram hversion printed hprinted =>
    parse_printProgram (hparsed program hprogram) hversion hprinted⟩

/-- Parentheses, a header, a method and branches. -/
theorem parse_print_branches : ∃ tokens program,
      Lexer.tokenize ("sub f \x7b if (!(a || b)) \x7b set req.http.X = -x; \x7d" ++
        " else \x7b c.d(1, true); \x7d \x7d") = .ok tokens ∧
      parse tokens = .ok program ∧
      ∀ printed : List Token, printed.map Token.kind = printProgram program ++ [.eof] →
        parse printed = .ok program := by
  have hok : ∀ {ε α : Type} {x : Except ε α} {a : α}, x.toOption = some a → x = .ok a := by
    intro ε α x a h
    cases x with
    | error e => cases h
    | ok b => rw [Option.some.inj h]
  have hrun : ((Lexer.tokenize ("sub f \x7b if (!(a || b)) \x7b set req.http.X = -x; \x7d" ++
      " else \x7b c.d(1, true); \x7d \x7d")).toOption.bind fun tokens =>
        (parse tokens).toOption).any (fun program => program.version.isNone) = true := by
    decide +kernel
  obtain ⟨program, hresult, hversion⟩ := (Option.any_eq_true _ _).mp hrun
  obtain ⟨tokens, htokens, hprogram⟩ := Option.bind_eq_some_iff.mp hresult
  exact ⟨tokens, program, hok htokens, hok hprogram,
    (parse_print (hok htokens)).2 program (hok hprogram) (Option.isNone_iff_eq_none.mp hversion)⟩

end Parser

end VarahaCache.Vcl
