import VarahaCache.Vcl.Lexer
import VarahaCache.Vcl.Parser

/-!
# What the parser returns

The parser never gets stuck, and the trees it returns are of a certain shape:
a variable has two parts at least and is not written like a header, a method
is called on a variable, and a probe in a backend has a name or properties.
-/

namespace VarahaCache.Vcl

open Text List Lib Nat

/-! ## Names -/

def Dotless (name : String) : Prop := '.' ∉ name.toList

instance (name : String) : Decidable (Dotless name) := inferInstanceAs (Decidable (¬ _))

/-- An identifier of the lexer has no dot. -/
def Token.Plain (t : Token) : Prop := ∀ name, t.kind = .ident name → Dotless name

namespace Lexer

variable {name numStr : String} {l after : Lexer} {ch : UInt8} {start : Pos}

theorem toChar_ne_dot (h : isIdentChar ch = true) : ch.toChar ≠ '.' := by
  intro hdot
  have hch : ch = 46 := by
    rw [← UInt8.toNat_inj]
    exact congrArg Char.toNat hdot
  subst hch
  exact absurd h (by decide)

theorem dot_notMem_takeIdent (rest : List UInt8) (pos : Pos) : '.' ∉ (takeIdent rest pos).1 := by
  fun_induction takeIdent rest pos with
  | case1 => exact not_mem_nil
  | case2 ch rest pos hident ih =>
    rw [push, singleton_append, mem_cons, not_or]
    exact ⟨(toChar_ne_dot hident).symm, ih⟩
  | case3 => exact not_mem_nil

theorem keyword_ne_ident {text : String} : keyword text ≠ some (.ident name) := by
  intro h
  unfold keyword at h
  split at h
  all_goals cases h

theorem dotless_readIdent (h : (isAsciiAlphabetic ch || ch = byte '_') = true)
    (l : Lexer) (hname : (readIdent ch l).1 = .ident name) : Dotless name := by
  rw [readIdent] at hname
  dsimp only at hname
  cases hkeyword : keyword (String.ofList (ch.toChar :: (takeIdent l.rest l.pos).1)) with
  | some kind =>
    rw [hkeyword, Option.getD_some] at hname
    rw [hname] at hkeyword
    exact absurd hkeyword keyword_ne_ident
  | none =>
    rw [hkeyword, Option.getD_none] at hname
    cases hname
    rw [Dotless, String.toList_ofList, mem_cons, not_or]
    refine ⟨(toChar_ne_dot ?_).symm, dot_notMem_takeIdent _ _⟩
    rw [Bool.or_eq_true] at h
    rcases h with h | h
    · simp [isIdentChar, isAsciiAlphanumeric, h]
    · simp [isIdentChar, of_decide_eq_true h]

theorem plainKind_ne_ident {isReal : Bool} :
    plainKind numStr isReal l ≠ .ok (.ident name, after) := by
  intro h
  unfold plainKind at h
  split at h
  all_goals
    split at h
    all_goals cases h

theorem durationKind_ne_ident {unit : ℚ} :
    durationKind numStr unit l ≠ .ok (.ident name, after) := by
  intro h
  unfold durationKind at h
  split at h
  all_goals cases h

theorem readNumber_ne_ident {first : UInt8} : readNumber first l ≠ .ok (.ident name, after) := by
  intro h
  unfold readNumber at h
  dsimp only at h
  split at h
  · split at h
    · split at h
      · exact durationKind_ne_ident h
      split at h
      · exact plainKind_ne_ident h
      · exact durationKind_ne_ident h
    · exact plainKind_ne_ident h
  · exact plainKind_ne_ident h

theorem ifNext_fst (second : Char) (two one : TokenKind) (l : Lexer) :
    (ifNext second two one l).1 = two ∨ (ifNext second two one l).1 = one := by
  unfold ifNext
  split
  · exact .inl rfl
  · exact .inr rfl

theorem doubled_fst {ch : Char} {kind : TokenKind}
    {read : TokenKind × Lexer} (h : doubled ch kind start l = .ok read) : read.1 = kind := by
  unfold doubled at h
  split at h
  · cases h
    rfl
  · cases h

theorem stringKind_ne_ident {x : Except VclError (List Char × Lexer)} :
    x.map stringKind ≠ .ok (.ident name, after) := by
  intro h
  obtain ⟨text, -, htext⟩ := exists_of_map_ok h
  cases congrArg Prod.fst htext

theorem dotless_kindOf (h : kindOf ch start l = .ok (.ident name, after)) : Dotless name := by
  have hifNext : ∀ {second : Char} {two one : TokenKind}, two ≠ .ident name → one ≠ .ident name →
      Except.ok (ifNext second two one l) ≠ (.ok (.ident name, after) : Except VclError _) := by
    intro second two one htwo hone heq
    have hfst := congrArg Prod.fst (Except.ok.inj heq)
    rcases ifNext_fst second two one l with hkind | hkind
    · exact htwo (hkind.symm.trans hfst)
    · exact hone (hkind.symm.trans hfst)
  unfold kindOf at h
  split at h
  case h_1 =>
    split at h
    · exact absurd h stringKind_ne_ident
    · cases h
  case h_14 =>
    split at h
    · cases h
    · exact absurd h (hifNext (by simp) (by simp))
  case h_19 => exact absurd h stringKind_ne_ident
  case h_20 =>
    split at h
    · exact absurd h readNumber_ne_ident
    split at h
    · rename_i hword
      exact dotless_readIdent hword l (congrArg Prod.fst (Except.ok.inj h))
    · cases h
  all_goals first
    | cases h
    | exact absurd h (hifNext (by simp) (by simp))
    | cases doubled_fst h

theorem plain_nextToken {tok : Token} (h : nextToken l = .ok (tok, after)) : tok.Plain := by
  unfold nextToken at h
  split at h
  · cases h
  · cases h
    intro name hname
    cases hname
  · obtain ⟨⟨kind, rest⟩, hread, heq⟩ := exists_of_map_ok h
    cases heq
    intro name hname
    dsimp only at hname
    rw [hname] at hread
    exact dotless_kindOf hread

theorem plain_of_mem_tokens {ts : List Token} (h : tokens l = .ok ts) : ∀ t ∈ ts, t.Plain := by
  fun_induction tokens l generalizing ts with
  | case1 => cases h
  | case2 l tok after hnext hkind =>
    cases h
    rw [forall_mem_singleton]
    exact plain_nextToken hnext
  | case3 l tok after hnext hkind ih =>
    obtain ⟨later, hlater, rfl⟩ := exists_of_map_ok h
    exact forall_mem_cons.mpr ⟨plain_nextToken hnext, ih hlater⟩

end Lexer

/-! ## Trees -/

inductive Expr.Parsed : Expr → Prop
  | stringLit (s : String) : Parsed (.stringLit s)
  | intLit (v : Int64) : Parsed (.intLit v)
  | realLit (v : ℚ) : Parsed (.realLit v)
  | durationLit (v : ℚ) : Parsed (.durationLit v)
  | boolLit (v : Bool) : Parsed (.boolLit v)
  | ident {name : String} (h : Dotless name) : Parsed (.ident name)
  | variable {parts : List String} (hparts : ∀ part ∈ parts, Dotless part)
      (hlength : 2 ≤ parts.length) (hheader : ¬ Parser.IsHeader parts) :
      Parsed (.variable (Parser.joinDots parts))
  | headerRef {object : String} {parts : List String} (hobject : Dotless object)
      (hparts : ∀ part ∈ parts, Dotless part) (hne : parts ≠ []) :
      Parsed (.headerRef object (Parser.joinDots parts))
  | binaryOp {left right : Expr} (op : BinOp) (hleft : left.Parsed) (hright : right.Parsed) :
      Parsed (.binaryOp left op right)
  | unaryOp {operand : Expr} (op : UnaryOp) (h : operand.Parsed) : Parsed (.unaryOp op operand)
  | functionCall {name : String} {args : List Expr} (hname : Dotless name)
      (hargs : ∀ arg ∈ args, arg.Parsed) : Parsed (.functionCall name args)
  | methodCall {parts : List String} {method : String} {args : List Expr}
      (hparts : ∀ part ∈ parts, Dotless part) (hne : parts ≠ []) (hmethod : Dotless method)
      (hheader : ¬ Parser.IsHeader (parts ++ [method])) (hargs : ∀ arg ∈ args, arg.Parsed) :
      Parsed (.methodCall (.variable (Parser.joinDots parts)) method args)

def Dotted (name : String) : Prop :=
  ∃ parts, parts ≠ [] ∧ (∀ part ∈ parts, Dotless part) ∧ name = Parser.joinDots parts

inductive Statement.Parsed : Statement → Prop
  | set {target : String} (operator : SetOp) {value : Expr} (htarget : Dotted target)
      (hvalue : value.Parsed) : Parsed (.set target operator value)
  | unset {target : String} (htarget : Dotted target) : Parsed (.unset target)
  | call (subroutine : String) : Parsed (.call subroutine)
  | return {action : Expr} (h : action.Parsed) : Parsed (.return action)
  | if {condition : Expr} {body : List Statement} {elseIfs : List (Expr × List Statement)}
      {elseBody : Option (List Statement)} (hcondition : condition.Parsed)
      (hbody : ∀ s ∈ body, Parsed s) (hconditions : ∀ branch ∈ elseIfs, branch.1.Parsed)
      (hbodies : ∀ branch ∈ elseIfs, ∀ s ∈ branch.2, Parsed s)
      (helse : ∀ body ∈ elseBody, ∀ s ∈ body, Parsed s) :
      Parsed (.if condition body elseIfs elseBody)
  | synthetic {expr : Expr} (h : expr.Parsed) : Parsed (.synthetic expr)
  | new (name typeName : String) {args : List Expr} (h : ∀ arg ∈ args, arg.Parsed) :
      Parsed (.new name typeName args)
  | exprStatement {expr : Expr} (h : expr.Parsed) : Parsed (.exprStatement expr)
  | ban {expr : Expr} (h : expr.Parsed) : Parsed (.ban expr)

def ParsedProperties (properties : List (String × Expr)) : Prop :=
  ∀ property ∈ properties, property.2.Parsed

/-- The probe of a backend: written out, or referred to. -/
def ProbeDecl.ParsedRef (probe : ProbeDecl) : Prop :=
  ParsedProperties probe.properties ∧ (probe.name ≠ none → probe.properties = [])

structure BackendDecl.Parsed (decl : BackendDecl) : Prop where
  properties : ParsedProperties decl.properties
  probe : ∀ probe ∈ decl.probe, probe.ParsedRef

structure ProbeDecl.Parsed (decl : ProbeDecl) : Prop where
  named : decl.name ≠ none
  properties : ParsedProperties decl.properties

def SubDecl.Parsed (decl : SubDecl) : Prop := ∀ s ∈ decl.body, s.Parsed

structure VclProgram.Parsed (program : VclProgram) : Prop where
  backends : ∀ decl ∈ program.backends, decl.Parsed
  probes : ∀ decl ∈ program.probes, decl.Parsed
  subs : ∀ decl ∈ program.subs, decl.Parsed

namespace Parser

variable {parts : List String}

theorem joinDots_concat (hne : parts ≠ []) (part : String) :
    joinDots (parts ++ [part]) = String.ofList ((joinDots parts).toList ++ '.' :: part.toList) := by
  rw [joinDots, joinDots, String.toList_ofList]
  congr 1
  induction parts with
  | nil => exact absurd rfl hne
  | cons first parts ih =>
    cases parts with
    | nil => simp [intercalate]
    | cons second parts =>
      have hlater := ih (by simp)
      simp only [cons_append, map_cons] at hlater ⊢
      rw [intercalate_cons_cons, hlater, intercalate_cons_cons]
      simp

/-! ## Rules -/

variable {α β σ : Type} {n m : ℕ} {Q : α → Prop} {R : β → Prop} {I : σ → Prop} {p : Parser α}
  {first : String} {f : α → Parser β} {a : α} {taken : β → ℕ}

/-- A parser that takes a token at least. -/
abbrev Takes (n : ℕ) (Q : α → Prop) (p : Parser α) : Prop :=
  Parser.Spec Token.Plain n Q (fun _ => 1) p

/-- A parser that may take none. -/
abbrev Keeps (n : ℕ) (Q : α → Prop) (p : Parser α) : Prop :=
  Parser.Spec Token.Plain n Q (fun _ => 0) p

/-- A round of a loop, which takes a token unless it is the last. -/
abbrev Round (n : ℕ) (I : σ → Prop) (Q : α → Prop) (p : Parser (σ ⊕ α)) : Prop :=
  Parser.Spec Token.Plain n (Sum.elim I Q) (Sum.elim (fun _ => 1) fun _ => 0) p

theorem Takes.mono (h : Takes n Q p) (hm : m ≤ n) : Takes m Q p :=
  Parser.Spec.mono h hm (fun _ hQ => hQ) fun _ => le_rfl

theorem Keeps.mono (h : Keeps n Q p) (hm : m ≤ n) : Keeps m Q p :=
  Parser.Spec.mono h hm (fun _ hQ => hQ) fun _ => le_rfl

theorem Takes.keeps (h : Takes n Q p) : Keeps n Q p :=
  Parser.Spec.mono h le_rfl (fun _ hQ => hQ) fun _ => zero_le _

theorem Takes.bind (hp : Takes n Q p)
    (hf : ∀ a, Q a → Keeps (n - 1) R (f a)) : Takes n R (p >>= f) := Parser.Spec.bind hp hf

theorem Keeps.bind (hp : Keeps n Q p)
    (hf : ∀ a, Q a → Keeps n R (f a)) : Keeps n R (p >>= f) := Parser.Spec.bind hp hf

theorem Keeps.round {p : Parser (σ ⊕ α)} (h : Keeps n (Sum.elim I Q) p) :
    Parser.Spec Token.Plain n (Sum.elim I Q)
      (fun r => Sum.elim (fun _ => 1) (fun _ => 0) r - 1) p := by
  refine Parser.Spec.mono h le_rfl (fun _ hr => hr) ?_
  rintro (s | a)
  all_goals exact le_rfl

theorem Round.bind {f : α → Parser (σ ⊕ β)} (hp : Takes n Q p)
    (hf : ∀ a, Q a → Keeps (n - 1) (Sum.elim I R) (f a)) : Round n I R (p >>= f) := by
  exact Parser.Spec.bind hp fun a ha => (hf a ha).round

theorem Keeps.pure (h : Q a) : Keeps n Q (Pure.pure a : Parser α) := Parser.Spec.pure h rfl

theorem spec_error {taken : α → ℕ} (message : TokenKind → ParseMessage) :
    Parser.Spec Token.Plain n Q taken (error message) := by
  intro k _ ts _
  simp [error]

theorem spec_peek {f : TokenKind → Parser β}
    (h : ∀ next, (∀ name, next = .ident name → Dotless name) →
      Parser.Spec Token.Plain n R taken (f next) ∨
      ∃ g, (∀ ts, Parser.next Token.kind .eof ts = next → f next ts = (advance >>= g) ts) ∧
        next ≠ .eof ∧ Parser.Spec Token.Plain (n - 1) R (fun b => taken b - 1) (g ())) :
    Parser.Spec Token.Plain n R taken (peek >>= f) := by
  refine .peek fun next hnext => h next fun name hname => ?_
  subst hname
  rcases hnext with heof | ⟨t, ht, hkind⟩
  · cases heof
  · exact ht name hkind

theorem takes_expectKind {kind : TokenKind} (hne : kind ≠ .eof) :
    Takes n (fun _ => True) (expectKind kind) := by
  refine spec_peek fun next _ => ?_
  by_cases hnext : next = kind
  · rw [if_pos hnext]
    exact .inr ⟨Pure.pure, fun _ _ => rfl, hnext ▸ hne, Keeps.pure trivial⟩
  · rw [if_neg hnext]
    exact .inl (spec_error _)

theorem takes_expectIdent : Takes n Dotless expectIdent := by
  refine spec_peek fun next hplain => ?_
  split
  · rename_i name
    exact .inr ⟨_, fun _ _ => rfl, by simp, Keeps.pure (hplain name rfl)⟩
  · exact .inl (spec_error _)

section

variable {k : TokenKind} {f : Unit → Parser β} {g : String → Parser β}

theorem Takes.kind (hne : k ≠ .eof) (hf : Keeps (n - 1) R (f ())) :
    Takes n R (expectKind k >>= f) :=
  .bind (takes_expectKind hne) fun _ _ => hf

theorem Keeps.kind (hne : k ≠ .eof) (hf : Keeps n R (f ())) : Keeps n R (expectKind k >>= f) :=
  .bind (takes_expectKind hne).keeps fun _ _ => hf

theorem Keeps.ident (hg : ∀ name, Dotless name → Keeps n R (g name)) :
    Keeps n R (expectIdent >>= g) :=
  .bind takes_expectIdent.keeps hg

theorem Keeps.semicolon {b : β} (h : R b) :
    Keeps n R (expectSemicolon >>= fun _ => (Pure.pure b : Parser β)) :=
  Keeps.kind (by simp) (Keeps.pure h)

end

theorem eatExact_bind (kind : TokenKind) (f : Bool → Parser β) :
    (eatExact kind >>= f) =
      (peek >>= fun next => if next = kind then advance >>= fun _ => f true else f false) := by
  rw [eatExact, Parser.bind_assoc]
  congr 1
  funext next
  split_ifs
  · rw [Parser.bind_assoc]
    rfl
  · rfl

theorem spec_eatExact {kind : TokenKind} (hne : kind ≠ .eof) {f : Bool → Parser β}
    (htrue : Parser.Spec Token.Plain (n - 1) R (fun b => taken b - 1) (f true))
    (hfalse : Parser.Spec Token.Plain n R taken (f false)) :
    Parser.Spec Token.Plain n R taken (eatExact kind >>= f) := by
  rw [eatExact_bind]
  refine spec_peek fun next _ => ?_
  by_cases hnext : next = kind
  · rw [if_pos hnext]
    exact .inr ⟨_, fun _ _ => rfl, hnext ▸ hne, htrue⟩
  · rw [if_neg hnext]
    exact .inl hfalse

theorem keeps_whileNot {stop : TokenKind → Bool} {item : Parser α} (h : Takes n Q item) :
    Keeps n (fun items => ∀ a ∈ items, Q a) (whileNot stop item) := by
  refine Parser.Spec.loop (I := fun items => ∀ a ∈ items, Q a) (fun items hitems => ?_) (by simp)
  refine spec_peek fun next _ => .inl ?_
  split
  · exact .pure hitems rfl
  · refine Round.bind h fun a ha => .pure ?_
    exact forall_mem_append.mpr ⟨hitems, forall_mem_singleton.mpr ha⟩

/-! ## Expressions -/

def PartsOf (first : String) (parts : List String) : Prop :=
  parts.head? = some first ∧ ∀ part ∈ parts, Dotless part

theorem PartsOf.concat {part : String} (h : PartsOf first parts)
    (hpart : Dotless part) : PartsOf first (parts ++ [part]) := by
  refine ⟨?_, forall_mem_append.mpr ⟨h.2, forall_mem_singleton.mpr hpart⟩⟩
  rw [head?_append, h.1, Option.some_or]

theorem keeps_dottedParts (h : PartsOf first parts) {k : ℕ} (hk : k ≤ parts.length) :
    Keeps n (fun parts => PartsOf first parts ∧ k ≤ parts.length) (dottedParts parts) := by
  refine .loop (I := fun parts => PartsOf first parts ∧ k ≤ parts.length)
    (fun parts hparts => ?_) ⟨h, hk⟩
  refine spec_peek fun next _ => ?_
  split
  · rename_i hnext
    refine .inr ⟨_, fun _ _ => rfl, by simp [hnext], Keeps.round ?_⟩
    refine .ident fun part hpart => .pure ⟨hparts.1.concat hpart, ?_⟩
    rw [length_append]
    exact hparts.2.trans (le_add_right _ _)
  · exact .inl (.pure hparts rfl)

theorem parsed_dottedExpr (h : PartsOf first parts)
    (hlength : 2 ≤ parts.length) : (dottedExpr first parts).Parsed := by
  unfold dottedExpr
  split
  · rename_i hheader
    have hfirst : Dotless first := h.2 first (mem_of_mem_head? h.1)
    refine .headerRef hfirst (fun part hpart => h.2 part (mem_of_mem_drop hpart)) ?_
    rw [← length_pos_iff, length_drop]
    have hthree := hheader.1
    omega
  · rename_i hheader
    exact .variable h.2 hlength hheader

theorem expectIdent_eq (ts : List Token) :
    expectIdent ts =
      match Parser.next Token.kind .eof ts with
      | .ident name => .ok (name, ts.tail)
      | _ => error (.found "expected identifier, found ") ts := by
  change (match Parser.next Token.kind .eof ts with
    | .ident name => (do advance; pure name : Parser String)
    | _ => error (.found "expected identifier, found ")) ts = _
  cases Parser.next Token.kind .eof ts
  all_goals rfl

theorem dottedParts_of_dot (first : String) {ts : List Token}
    (h : Parser.next Token.kind .eof ts = .dot) :
    dottedParts [first] ts =
      (do advance; let part ← expectIdent; dottedParts [first, part] : Parser _) ts := by
  cases ts with
  | nil => cases h
  | cons t ts =>
    have hround : dottedRound [first] (t :: ts) =
        (do let part ← expectIdent; pure (.inl [first, part]) : Parser _) ts := by
      change (if Parser.next Token.kind .eof (t :: ts) = .dot then _ else _ : Parser _)
        (t :: ts) = _
      rw [if_pos h]
      rfl
    change Parser.loopFrom dottedRound [first] (t :: ts) =
      (expectIdent >>= fun part => dottedParts [first, part]) ts
    rw [Parser.loopFrom, hround, Parser.bind_apply, Parser.bind_apply, expectIdent_eq]
    cases Parser.next Token.kind .eof ts
    case ident name => exact dif_pos (by simp)
    all_goals rfl

theorem takes_advance (h : Q a) {next : TokenKind} (hne : next ≠ .eof) :
    ∃ g, (∀ ts, Parser.next Token.kind .eof ts = next →
        (do advance; pure a : Parser α) ts = (advance >>= g) ts) ∧
      next ≠ .eof ∧ Keeps (n - 1) Q (g ()) :=
  ⟨fun _ => pure a, fun _ _ => rfl, hne, .pure h⟩

theorem parsed_methodCall {name : String} (h : (Expr.variable name).Parsed) {args : List Expr}
    (hargs : ∀ arg ∈ args, arg.Parsed) :
    ∃ object method, rsplitOnce '.' name = some (object, method) ∧
      (Expr.methodCall (.variable object) method args).Parsed := by
  cases h with
  | @«variable» parts hparts hlength hheader =>
    rcases eq_nil_or_concat' parts with rfl | ⟨front, method, rfl⟩
    · simp at hlength
    have hne : front ≠ [] := by
      rintro rfl
      simp at hlength
    obtain ⟨hfront, hmethod⟩ := forall_mem_append.mp hparts
    have hmethod := forall_mem_singleton.mp hmethod
    refine ⟨joinDots front, method, ?_, .methodCall hfront hne hmethod hheader hargs⟩
    rw [joinDots_concat hne, rsplitOnce_append hmethod, String.ofList_toList,
      String.ofList_toList]

section

variable {expr : Parser Expr} (hexpr : Takes n Expr.Parsed expr)

include hexpr

theorem takes_parsePrimary : Takes (n + 1) Expr.Parsed (parsePrimary expr) := by
  refine spec_peek fun next _ => ?_
  cases next
  case stringLit => exact .inr (takes_advance (.stringLit _) (by simp))
  case intLit => exact .inr (takes_advance (.intLit _) (by simp))
  case realLit => exact .inr (takes_advance (.realLit _) (by simp))
  case durationLit => exact .inr (takes_advance (.durationLit _) (by simp))
  case boolLit => exact .inr (takes_advance (.boolLit _) (by simp))
  case lParen =>
    refine .inr ⟨_, fun _ _ => rfl, by simp, ?_⟩
    refine .bind hexpr.keeps fun e he => ?_
    exact Keeps.kind (by simp) (Keeps.pure he)
  case ident =>
    refine .inl (.bind takes_expectIdent fun name hname => spec_peek fun next _ => ?_)
    split
    · rename_i hdot
      refine .inr ⟨fun _ => do
        let part ← expectIdent
        let parts ← dottedParts [name, part]
        pure (dottedExpr name parts), fun ts hts => ?_, by simp [hdot], ?_⟩
      · rw [parseDottedExpr, Parser.bind_apply, dottedParts_of_dot name (hts.trans hdot),
          ← Parser.bind_apply, Parser.bind_assoc]
        simp only [Parser.bind_assoc]
      refine Keeps.ident fun part hpart => ?_
      have hparts : PartsOf name [name, part] :=
        ⟨rfl, forall_mem_cons.mpr ⟨hname, forall_mem_singleton.mpr hpart⟩⟩
      exact Keeps.bind (keeps_dottedParts hparts le_rfl) fun parts h =>
        Keeps.pure (parsed_dottedExpr h.1 h.2)
    · exact .inl (Keeps.pure (.ident hname))
  all_goals exact .inl (spec_error _)

theorem keeps_parseArgList :
    Keeps n (fun args => ∀ arg ∈ args, arg.Parsed) (parseArgList expr) := by
  refine spec_peek fun next _ => .inl ?_
  split
  · exact Keeps.pure (by simp)
  refine .bind hexpr.keeps fun first hfirst => ?_
  refine .loop (I := fun args => ∀ arg ∈ args, Expr.Parsed arg)
    (fun args hargs => ?_) (forall_mem_singleton.mpr hfirst)
  refine spec_eatExact (by simp) (Keeps.round ?_) (Parser.Spec.pure hargs rfl)
  refine .bind (hexpr.keeps.mono (sub_le _ _)) fun arg harg => .pure ?_
  exact forall_mem_append.mpr ⟨hargs, forall_mem_singleton.mpr harg⟩

theorem keeps_parseArgs : Keeps n (fun args => ∀ arg ∈ args, Expr.Parsed arg) (parseArgs expr) :=
  .bind (keeps_parseArgList hexpr) fun _ hargs =>
    Keeps.kind (by simp) (Keeps.pure hargs)

theorem takes_parsePostfix : Takes (n + 1) Expr.Parsed (parsePostfix expr) := by
  have hargs : Keeps (n - 1) (fun args => ∀ arg ∈ args, Expr.Parsed arg) (parseArgs expr) :=
    (keeps_parseArgs hexpr).mono (sub_le _ _)
  refine .bind (takes_parsePrimary hexpr) fun e he => ?_
  refine .loop (I := Expr.Parsed) (fun e he => spec_peek fun next _ => ?_) he
  split
  · rename_i hnext
    have hne : next ≠ .eof := by simp [hnext]
    cases e
    case ident name =>
      have hname : Dotless name := by
        cases he
        assumption
      refine .inr ⟨_, fun _ _ => rfl, hne, Keeps.round (Keeps.bind hargs fun args h => ?_)⟩
      exact Keeps.pure (.functionCall hname h)
    case «variable» name =>
      refine .inr ⟨_, fun _ _ => rfl, hne, Keeps.round (Keeps.bind hargs fun args h => ?_)⟩
      obtain ⟨object, method, hsplit, hcall⟩ := parsed_methodCall he h
      rw [hsplit]
      exact Keeps.pure hcall
    all_goals exact .inl (Parser.Spec.pure he rfl)
  · exact .inl (Parser.Spec.pure he rfl)

theorem takes_parseUnary {depth : ℕ} (hdepth : depth ≤ n + 1) :
    Takes depth Expr.Parsed (parseUnary expr depth) := by
  induction depth with
  | zero => exact Parser.Spec.zero _ _ _
  | succ depth ih =>
    have hoperand := (ih (le_of_succ_le hdepth)).keeps
    refine spec_peek fun next _ => ?_
    cases next
    case not =>
      refine .inr ⟨_, fun _ _ => rfl, by simp, ?_⟩
      exact Keeps.bind hoperand fun e he => Keeps.pure (.unaryOp .not he)
    case minus =>
      refine .inr ⟨_, fun _ _ => rfl, by simp, ?_⟩
      exact Keeps.bind hoperand fun e he => Keeps.pure (.unaryOp .negate he)
    all_goals exact .inl ((takes_parsePostfix hexpr).mono hdepth)

end

theorem takes_binaryLevel {opOf : TokenKind → Option BinOp} (heof : opOf .eof = none)
    {operand : Parser Expr} (h : Takes n Expr.Parsed operand) :
    Takes n Expr.Parsed (binaryLevel opOf operand) := by
  refine .bind h fun left hleft => ?_
  refine Parser.Spec.loop (I := Expr.Parsed) (fun left hleft => spec_peek fun next _ => ?_) hleft
  cases hop : opOf next with
  | some op =>
    have hne : next ≠ .eof := by
      rintro rfl
      rw [heof] at hop
      cases hop
    refine .inr ⟨_, fun _ _ => rfl, hne, Keeps.round ?_⟩
    refine Keeps.bind (h.keeps.mono ((sub_le _ _).trans (sub_le _ _))) fun right hright => ?_
    exact .pure (.binaryOp op hleft hright)
  | none => exact .inl (.pure hleft rfl)

/-- The expressions returned have their shape, and a parser as deep as
there are tokens is never stuck. -/
theorem takes_parseExpr (n : ℕ) : Takes n Expr.Parsed (parseExpr n) := by
  induction n with
  | zero => exact .zero _ _ _
  | succ n ih =>
    have hunary := takes_parseUnary ih le_rfl
    exact takes_binaryLevel rfl (takes_binaryLevel rfl (takes_binaryLevel rfl
      (takes_binaryLevel rfl (takes_binaryLevel rfl hunary))))

/-! ## Statements -/

section

variable {expr : Parser Expr} {statement : Parser Statement}

theorem takes_parseDottedName : Takes n Dotted parseDottedName := by
  refine .bind takes_expectIdent fun first hfirst => ?_
  have hparts : PartsOf first [first] := ⟨rfl, forall_mem_singleton.mpr hfirst⟩
  refine .bind (keeps_dottedParts hparts le_rfl) fun parts h => .pure ⟨parts, ?_, h.1.2, rfl⟩
  exact length_pos_iff.mp (lt_of_succ_le h.2)

theorem takes_parseSetOp : Takes n (fun _ => True) parseSetOp := by
  refine spec_peek fun next _ => ?_
  cases next
  case assign => exact .inr (takes_advance trivial (by simp))
  case plusAssign => exact .inr (takes_advance trivial (by simp))
  case minusAssign => exact .inr (takes_advance trivial (by simp))
  all_goals exact .inl (spec_error _)

theorem takes_parseUnset : Takes n Statement.Parsed parseUnset := by
  refine Takes.kind (by simp) ?_
  refine .bind takes_parseDottedName.keeps fun target htarget => ?_
  exact .semicolon (.unset htarget)

theorem takes_parseCall : Takes n Statement.Parsed parseCall := by
  refine Takes.kind (by simp) ?_
  refine .ident fun subroutine _ => ?_
  exact .semicolon (.call subroutine)

theorem takes_parseBraced (hstatement : Takes n Statement.Parsed statement) :
    Takes (n + 1) (fun body => ∀ s ∈ body, Statement.Parsed s) (parseBraced statement) := by
  refine Takes.kind (by simp) ?_
  refine .bind (keeps_whileNot hstatement) fun body hbody => ?_
  exact Keeps.kind (by simp) (Keeps.pure hbody)

/-! ## Declarations without expressions of their own -/

theorem takes_parseImport : Takes n (fun _ => True) parseImport := by
  refine Takes.kind (by simp) ?_
  refine .ident fun name _ => ?_
  exact .semicolon trivial

theorem keeps_parseMask : Keeps n (fun _ => True) parseMask := by
  refine spec_eatExact (by simp) (spec_peek fun next _ => ?_) (Keeps.pure trivial)
  cases next
  case intLit => exact .inr ⟨_, fun _ _ => rfl, by simp, Keeps.pure trivial⟩
  all_goals exact .inl (spec_error _)

theorem takes_parseAddr : Takes n (fun _ => True) parseAddr := by
  refine spec_peek fun next _ => ?_
  cases next
  case stringLit => exact .inr (takes_advance trivial (by simp))
  all_goals exact .inl (spec_error _)

theorem takes_parseAclEntry : Takes n (fun _ => True) parseAclEntry := by
  have hentry : ∀ negate {m}, Takes m (fun _ => True) (do
      let addr ← parseAddr
      let mask ← parseMask
      expectSemicolon
      pure (⟨negate, addr, mask⟩ : AclEntry)) := fun negate m =>
    .bind takes_parseAddr fun _ _ => .bind keeps_parseMask fun _ _ =>
      .semicolon trivial
  exact spec_eatExact (by simp) (hentry true).keeps (hentry false)

theorem takes_parseAcl : Takes n (fun _ => True) parseAcl := by
  refine Takes.kind (by simp) ?_
  refine .ident fun name _ => ?_
  refine Keeps.kind (by simp) ?_
  refine .bind (keeps_whileNot takes_parseAclEntry) fun entries _ => ?_
  exact Keeps.kind (by simp) (Keeps.pure trivial)

theorem takes_parseSub (hstatement : Takes n Statement.Parsed statement) :
    Takes (n + 1) SubDecl.Parsed (parseSub statement) := by
  refine Takes.kind (by simp) ?_
  refine .ident fun name _ => ?_
  refine .bind ((takes_parseBraced hstatement).keeps.mono (le_succ n)) fun body hbody => ?_
  exact .pure hbody

theorem takes_parseVersionNumber : Takes n (fun _ => True) parseVersionNumber := by
  refine spec_peek fun next _ => ?_
  cases next
  case realLit => exact .inr (takes_advance trivial (by simp))
  case intLit => exact .inr (takes_advance trivial (by simp))
  all_goals exact .inl (spec_error _)

theorem takes_parseVclVersion : Takes n (fun _ => True) parseVclVersion := by
  refine Takes.kind (by simp) ?_
  refine .bind takes_parseVersionNumber.keeps fun version _ => ?_
  exact .semicolon trivial

/-! ## Statements with expressions -/

variable (hexpr : Takes n Expr.Parsed expr)

include hexpr

theorem takes_parseSet : Takes (n + 1) Statement.Parsed (parseSet expr) := by
  refine Takes.kind (by simp) ?_
  refine .bind takes_parseDottedName.keeps fun target htarget => ?_
  refine .bind takes_parseSetOp.keeps fun operator _ => ?_
  refine .bind hexpr.keeps fun value hvalue => ?_
  exact .semicolon (.set operator htarget hvalue)

theorem takes_parseKeyword {keyword : TokenKind}
    (hne : keyword ≠ .eof) {build : Expr → Statement} (hbuild : ∀ e, e.Parsed → (build e).Parsed) :
    Takes (n + 1) Statement.Parsed (parseKeyword expr keyword build) := by
  refine .kind hne ?_
  refine Keeps.kind (by simp) ?_
  refine .bind hexpr.keeps fun e he => ?_
  refine Keeps.kind (by simp) ?_
  exact .semicolon (hbuild e he)

theorem takes_parseNew : Takes (n + 1) Statement.Parsed (parseNew expr) := by
  refine Takes.kind (by simp) ?_
  refine .ident fun name _ => ?_
  refine Keeps.kind (by simp) ?_
  refine .ident fun typeName _ => ?_
  refine Keeps.kind (by simp) ?_
  refine .bind (keeps_parseArgList hexpr) fun args hargs => ?_
  refine Keeps.kind (by simp) ?_
  exact .semicolon (.new name typeName hargs)

def ParsedBranch (branch : Expr × List Statement) : Prop :=
  branch.1.Parsed ∧ ∀ s ∈ branch.2, s.Parsed

theorem takes_parseBranch (hstatement : Takes n Statement.Parsed statement) :
    Takes (n + 1) ParsedBranch (parseBranch expr statement) := by
  refine Takes.kind (by simp) ?_
  refine .bind hexpr.keeps fun condition hcondition => ?_
  refine Keeps.kind (by simp) ?_
  refine .bind ((takes_parseBraced hstatement).keeps.mono (le_succ n)) fun body hbody => ?_
  exact .pure ⟨hcondition, hbody⟩

/-- The branches behind an `if`. -/
def ParsedElse (later : List (Expr × List Statement) × Option (List Statement)) : Prop :=
  (∀ branch ∈ later.1, ParsedBranch branch) ∧ ∀ body ∈ later.2, ∀ s ∈ body, s.Parsed

theorem keeps_parseElse (hstatement : Takes n Statement.Parsed statement) :
    Keeps n ParsedElse (parseElse expr statement) := by
  have hbranch : ∀ {m}, m ≤ n → ∀ {elseIfs : List (Expr × List Statement)},
      (∀ branch ∈ elseIfs, ParsedBranch branch) →
      Keeps m (Sum.elim (fun elseIfs => ∀ branch ∈ elseIfs, ParsedBranch branch) ParsedElse) (do
        let branch ← parseBranch expr statement
        pure (.inl (elseIfs ++ [branch]))) := by
    intro m hm elseIfs helseIfs
    refine .bind ((takes_parseBranch hexpr hstatement).keeps.mono (hm.trans (le_succ n)))
      fun branch h => .pure ?_
    exact forall_mem_append.mpr ⟨helseIfs, forall_mem_singleton.mpr h⟩
  refine Parser.Spec.loop (I := fun elseIfs => ∀ branch ∈ elseIfs, ParsedBranch branch)
    (fun elseIfs helseIfs => ?_) (by simp)
  refine spec_eatExact (by simp) (Keeps.round (hbranch (sub_le _ _) helseIfs)) ?_
  refine spec_eatExact (by simp) (Keeps.round ?_) (Parser.Spec.pure ⟨helseIfs, by simp⟩ rfl)
  refine spec_eatExact (by simp) (hbranch ((sub_le _ _).trans (sub_le _ _)) helseIfs) ?_
  refine Keeps.bind ((takes_parseBraced hstatement).keeps.mono
    ((sub_le _ _).trans (le_succ n))) fun body hbody => Keeps.pure ⟨helseIfs, ?_⟩
  rintro _ ⟨⟩
  exact hbody

theorem takes_parseIf (hstatement : Takes n Statement.Parsed statement) :
    Takes (n + 1) Statement.Parsed (parseIf expr statement) := by
  refine Takes.kind (by simp) ?_
  refine .bind ((takes_parseBranch hexpr hstatement).keeps.mono (le_succ n))
    fun branch hbranch => ?_
  refine .bind (keeps_parseElse hexpr hstatement) fun later hlater => ?_
  exact .pure (.if hbranch.1 hbranch.2 (fun b hb => (hlater.1 b hb).1)
    (fun b hb => (hlater.1 b hb).2) hlater.2)

theorem takes_parseStatement {depth : ℕ} (hdepth : depth ≤ n) :
    Takes depth Statement.Parsed (parseStatement expr depth) := by
  induction depth with
  | zero => exact .zero _ _ _
  | succ depth ih =>
    have hexpr' : Takes depth Expr.Parsed expr := hexpr.mono (le_of_succ_le hdepth)
    refine spec_peek fun next _ => .inl ?_
    cases next
    case set => exact takes_parseSet hexpr'
    case unset => exact takes_parseUnset
    case call => exact takes_parseCall
    case «return» => exact takes_parseKeyword hexpr' (by simp) fun _ => .return
    case «if» => exact takes_parseIf hexpr' (ih (le_of_succ_le hdepth))
    case synthetic => exact takes_parseKeyword hexpr' (by simp) fun _ => .synthetic
    case new => exact takes_parseNew hexpr'
    case ban => exact takes_parseKeyword hexpr' (by simp) fun _ => .ban
    all_goals
      refine Takes.bind (hexpr.mono hdepth) fun e he => ?_
      exact Keeps.semicolon (.exprStatement he)

/-! ## Declarations -/

theorem takes_parseProperty :
    Takes (n + 1) (fun property => Expr.Parsed property.2) (parseProperty expr) := by
  refine .bind takes_expectIdent fun name _ => ?_
  refine Keeps.kind (by simp) ?_
  refine .bind hexpr.keeps fun value hvalue => ?_
  exact .semicolon hvalue

theorem takes_parseProbeBody (name : Option String) :
    Takes (n + 1) (fun probe => ParsedProperties probe.properties ∧ probe.name = name)
      (parseProbeBody expr name) := by
  refine Takes.kind (by simp) ?_
  have hproperty : Takes n (fun property => Expr.Parsed property.2) (do
      expectKind .dot
      parseProperty expr) :=
    Takes.bind (takes_expectKind (by simp)) fun _ _ =>
      ((takes_parseProperty hexpr).keeps.mono ((sub_le _ _).trans (le_succ n)))
  refine .bind (keeps_whileNot hproperty) fun properties hproperties => ?_
  exact Keeps.kind (by simp) (Keeps.pure ⟨hproperties, rfl⟩)

theorem takes_parseProbeDecl : Takes (n + 1) ProbeDecl.Parsed (parseProbeDecl expr) := by
  refine Takes.kind (by simp) ?_
  refine Keeps.ident fun name _ => ?_
  refine Parser.Spec.mono (takes_parseProbeBody hexpr (some name)) (le_succ n) ?_
    fun _ => zero_le _
  intro probe hprobe
  exact ⟨by simp [hprobe.2], hprobe.1⟩

theorem takes_parseProbeRef : Takes (n + 1) ProbeDecl.ParsedRef (parseProbeRef expr) := by
  refine spec_peek fun next _ => .inl ?_
  split
  · refine Parser.Spec.mono (takes_parseProbeBody hexpr none) le_rfl ?_ fun _ => le_rfl
    intro probe hprobe
    exact ⟨hprobe.1, fun hname => absurd hprobe.2 hname⟩
  refine Takes.bind takes_expectIdent fun name _ => ?_
  refine Keeps.semicolon ⟨?_, fun _ => rfl⟩
  exact forall_mem_nil _

theorem takes_parseBackend : Takes (n + 1) BackendDecl.Parsed (parseBackend expr) := by
  refine Takes.kind (by simp) ?_
  refine .ident fun name _ => ?_
  refine Keeps.kind (by simp) ?_
  refine .bind (.loop (I := BackendDecl.Parsed) (Q := BackendDecl.Parsed)
    (fun decl hdecl => ?_) ⟨forall_mem_nil _, by simp⟩) fun decl hdecl => ?_
  · refine spec_peek fun next _ => .inl ?_
    split
    · exact .pure hdecl rfl
    refine Round.bind (takes_expectKind (by simp)) fun _ _ => ?_
    refine spec_eatExact (by simp) ?_ ?_
    · refine Keeps.kind (by simp) ?_
      refine .bind ((takes_parseProbeRef hexpr).keeps.mono (by omega)) fun probe hprobe => ?_
      refine Keeps.pure ⟨hdecl.properties, ?_⟩
      rintro _ ⟨⟩
      exact hprobe
    · refine Keeps.bind ((takes_parseProperty hexpr).keeps.mono (by omega))
        fun property hproperty => Keeps.pure ⟨?_, hdecl.probe⟩
      exact forall_mem_append.mpr ⟨hdecl.properties, forall_mem_singleton.mpr hproperty⟩
  · exact Keeps.kind (by simp) (Keeps.pure hdecl)

theorem keeps_parseDecls (hstatement : Takes n Statement.Parsed statement) {program : VclProgram}
    (hprogram : program.Parsed) :
    Keeps n VclProgram.Parsed (parseDecls expr statement program) := by
  refine .loop (I := VclProgram.Parsed) (fun program h => ?_) hprogram
  refine spec_peek fun next _ => .inl ?_
  cases next
  case eof => exact .pure h rfl
  case «import» =>
    exact Round.bind takes_parseImport fun _ _ => .pure ⟨h.backends, h.probes, h.subs⟩
  case backend =>
    refine Round.bind ((takes_parseBackend hexpr).mono (le_succ n)) fun decl hdecl => ?_
    exact .pure ⟨forall_mem_append.mpr
      ⟨h.backends, forall_mem_singleton.mpr hdecl⟩, h.probes, h.subs⟩
  case probe =>
    refine Round.bind ((takes_parseProbeDecl hexpr).mono (le_succ n)) fun decl hdecl => ?_
    exact .pure ⟨h.backends, forall_mem_append.mpr
      ⟨h.probes, forall_mem_singleton.mpr hdecl⟩, h.subs⟩
  case acl => exact Round.bind takes_parseAcl fun _ _ => .pure ⟨h.backends, h.probes, h.subs⟩
  case sub =>
    refine Round.bind ((takes_parseSub hstatement).mono (le_succ n)) fun decl hdecl => ?_
    exact .pure ⟨h.backends, h.probes, forall_mem_append.mpr
      ⟨h.subs, forall_mem_singleton.mpr hdecl⟩⟩
  all_goals exact spec_error _

theorem keeps_parseProgram (hstatement : Takes n Statement.Parsed statement) :
    Keeps n VclProgram.Parsed (parseProgram expr statement) := by
  have hempty : ∀ version, VclProgram.Parsed ⟨version, [], [], [], [], []⟩ := fun _ =>
    ⟨forall_mem_nil _, forall_mem_nil _, forall_mem_nil _⟩
  refine spec_peek fun next _ => .inl ?_
  split
  · exact .bind takes_parseVclVersion.keeps fun version _ =>
      keeps_parseDecls hexpr hstatement (hempty _)
  · exact keeps_parseDecls hexpr hstatement (hempty _)

end

theorem parse_spec {tokens : List Token} (h : ∀ t ∈ tokens, t.Plain) :
    parse tokens ≠ .error .stuck ∧ ∀ program, parse tokens = .ok program → program.Parsed := by
  have hexpr := takes_parseExpr (tokens.length + 1)
  have hprogram := keeps_parseProgram hexpr (takes_parseStatement hexpr le_rfl) _ le_rfl tokens
    ⟨lt_succ_self _, h⟩
  rw [parse]
  cases hresult : parseProgram (parseExpr (tokens.length + 1))
      (parseStatement (parseExpr (tokens.length + 1)) (tokens.length + 1)) tokens with
  | error stop =>
    rw [hresult] at hprogram
    refine ⟨?_, fun program hok => ?_⟩
    · rintro ⟨⟩
      exact hprogram rfl
    · cases hok
  | ok read =>
    rw [hresult] at hprogram
    refine ⟨fun herror => ?_, fun program hok => ?_⟩
    · cases herror
    · cases hok
      exact hprogram.1

end Parser

end VarahaCache.Vcl
