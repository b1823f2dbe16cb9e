import VarahaCache.Text

/-!
# Tokens of VCL

`TokenKind`, `Token` and `VclError` of `rv-vcl`. A place in the source is a
line and a column, both from one; columns count bytes. The message of a parse
error keeps the token it names, for how a real number is written is a matter
of the library.
-/

namespace VarahaCache.Vcl

inductive TokenKind
  | ident (name : String)
  | stringLit (s : String)
  | intLit (v : Int64)
  | realLit (v : ℚ)
  | durationLit (v : ℚ)
  | boolLit (v : Bool)
  | vcl | backend | probe | acl | sub | «import» | «if» | elseIf | «else» | «return» | set | unset
  | call | new | «include» | synthetic | ban
  | eq | neq | «match» | notMatch | and | or | not | plus | minus | star | slash | assign
  | plusAssign | minusAssign | gt | lt | gte | lte
  | lBrace | rBrace | lParen | rParen | semicolon | comma | dot
  | eof
deriving DecidableEq

/-- How a token is written in messages, given how numbers with a fraction
are. -/
def TokenKind.text (real : ℚ → String) : TokenKind → String
  | .ident s => "identifier `" ++ s ++ "`"
  | .stringLit s => "string \"" ++ s ++ "\""
  | .intLit v => "integer " ++ toString v.toInt
  | .realLit v => "real " ++ real v
  | .durationLit v => "duration " ++ real v ++ "s"
  | .boolLit v => "bool " ++ toString v
  | .vcl => "vcl"
  | .backend => "backend"
  | .probe => "probe"
  | .acl => "acl"
  | .sub => "sub"
  | .import => "import"
  | .if => "if"
  | .elseIf => "elseif"
  | .else => "else"
  | .return => "return"
  | .set => "set"
  | .unset => "unset"
  | .call => "call"
  | .new => "new"
  | .include => "include"
  | .synthetic => "synthetic"
  | .ban => "ban"
  | .eq => "=="
  | .neq => "!="
  | .match => "~"
  | .notMatch => "!~"
  | .and => "&&"
  | .or => "||"
  | .not => "!"
  | .plus => "+"
  | .minus => "-"
  | .star => "*"
  | .slash => "/"
  | .assign => "="
  | .plusAssign => "+="
  | .minusAssign => "-="
  | .gt => ">"
  | .lt => "<"
  | .gte => ">="
  | .lte => "<="
  | .lBrace => "\x7b"
  | .rBrace => "\x7d"
  | .lParen => "("
  | .rParen => ")"
  | .semicolon => ";"
  | .comma => ","
  | .dot => "."
  | .eof => "EOF"

structure Pos where
  line : ℕ
  col : ℕ
deriving DecidableEq

def Pos.next (pos : Pos) (ch : UInt8) : Pos :=
  if ch = 10 then ⟨pos.line + 1, 1⟩ else ⟨pos.line, pos.col + 1⟩

def Pos.after (pos : Pos) (bytes : List UInt8) : Pos := bytes.foldl Pos.next pos

@[simp] theorem Pos.after_nil (pos : Pos) : pos.after [] = pos := rfl

@[simp] theorem Pos.after_cons (pos : Pos) (ch : UInt8) (bytes : List UInt8) :
    pos.after (ch :: bytes) = (pos.next ch).after bytes := rfl

theorem Pos.after_append (pos : Pos) (a b : List UInt8) :
    pos.after (a ++ b) = (pos.after a).after b := List.foldl_append

structure Token where
  kind : TokenKind
  pos : Pos
deriving DecidableEq

inductive ParseMessage
  | expected (kind actual : TokenKind)
  | found (lead : String) (kind : TokenKind)
deriving DecidableEq

def ParseMessage.text (real : ℚ → String) : ParseMessage → String
  | .expected kind actual => "expected " ++ kind.text real ++ ", found " ++ actual.text real
  | .found lead kind => lead ++ kind.text real

inductive VclError
  | lexError (message : String) (pos : Pos)
  | parseError (message : ParseMessage) (pos : Pos)
deriving DecidableEq

def VclError.text (real : ℚ → String) : VclError → String
  | .lexError message pos =>
    "lex error at " ++ toString pos.line ++ ":" ++ toString pos.col ++ ": " ++ message
  | .parseError message pos =>
    "parse error at " ++ toString pos.line ++ ":" ++ toString pos.col ++ ": " ++ message.text real

end VarahaCache.Vcl
