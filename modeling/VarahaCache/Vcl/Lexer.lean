import VarahaCache.Lib.Outcome
import VarahaCache.Vcl.Token

/-!
# The VCL lexer

`Lexer` of `rv-vcl`. It runs on the bytes of the source, and its functions
are given what is left of them and the place that stands at. A byte of a
string literal becomes the character of its number, so a literal keeps its
text exactly if that is ASCII.
-/

namespace VarahaCache.Vcl

open Text List Lib

def byte (c : Char) : UInt8 := c.toUInt8

def isAsciiDigit (ch : UInt8) : Bool := 48 ≤ ch && ch ≤ 57

def isAsciiAlphabetic (ch : UInt8) : Bool := (65 ≤ ch && ch ≤ 90) || (97 ≤ ch && ch ≤ 122)

def isAsciiAlphanumeric (ch : UInt8) : Bool := isAsciiAlphabetic ch || isAsciiDigit ch

/-- What is left of the source, and where it begins. -/
structure Lexer where
  rest : List UInt8
  pos : Pos
deriving DecidableEq

namespace Lexer

def new (source : String) : Lexer := ⟨asBytes source, ⟨1, 1⟩⟩

/-! ## White space and comments -/

def isBlank (ch : UInt8) : Bool :=
  ch = byte ' ' || ch = byte '\t' || ch = byte '\n' || ch = byte '\r'

def skipWhitespace : List UInt8 → Pos → Lexer
  | [], pos => ⟨[], pos⟩
  | ch :: rest, pos => if isBlank ch then skipWhitespace rest (pos.next ch) else ⟨ch :: rest, pos⟩

def skipLineComment : List UInt8 → Pos → Lexer
  | [], pos => ⟨[], pos⟩
  | ch :: rest, pos =>
    if ch = byte '\n' then ⟨rest, pos.next ch⟩ else skipLineComment rest (pos.next ch)

/-- Behind the opening marks, which are at `start`. -/
def skipBlockComment (start : Pos) : List UInt8 → Pos → Except VclError Lexer
  | [], _ => .error (.lexError "unterminated block comment" start)
  | ch :: rest, pos =>
    if ch = byte '*' ∧ rest.head? = some (byte '/') then
      .ok ⟨rest.tail, (pos.next ch).next (byte '/')⟩
    else skipBlockComment start rest (pos.next ch)

theorem skipWhitespace_length (rest : List UInt8) (pos : Pos) :
    (skipWhitespace rest pos).rest.length ≤ rest.length := by
  induction rest generalizing pos with
  | nil => rfl
  | cons ch rest ih =>
    rw [skipWhitespace]
    split
    · exact (ih _).trans (Nat.le_succ _)
    · rfl

theorem skipLineComment_length (rest : List UInt8) (pos : Pos) :
    (skipLineComment rest pos).rest.length ≤ rest.length := by
  induction rest generalizing pos with
  | nil => rfl
  | cons ch rest ih =>
    rw [skipLineComment]
    split
    · exact Nat.le_succ _
    · exact (ih _).trans (Nat.le_succ _)

variable {read : TokenKind × Lexer} {l : Lexer} {start : Pos} {rest : List UInt8} {pos : Pos}
  {numStr : String}

theorem skipBlockComment_length
    (h : skipBlockComment start rest pos = .ok l) : l.rest.length ≤ rest.length := by
  induction rest generalizing pos with
  | nil => cases h
  | cons ch rest ih =>
    rw [skipBlockComment] at h
    split at h
    · cases h
      simp only [length_tail, length_cons]
      omega
    · exact (ih h).trans (Nat.le_succ _)

/-- A slash stands for itself unless another or a star follows. -/
def skipCommentsAndWhitespace (l : Lexer) : Except VclError Lexer :=
  match _h : skipWhitespace l.rest l.pos with
  | ⟨[], pos⟩ => .ok ⟨[], pos⟩
  | ⟨ch :: rest, pos⟩ =>
    if ch = byte '/' ∧ rest.head? = some (byte '/') then
      skipCommentsAndWhitespace (skipLineComment rest.tail ((pos.next ch).next (byte '/')))
    else if ch = byte '/' ∧ rest.head? = some (byte '*') then
      let start := (pos.next ch).next (byte '*')
      match _hblock : skipBlockComment start rest.tail start with
      | .error e => .error e
      | .ok after => skipCommentsAndWhitespace after
    else if ch = byte '#' then
      skipCommentsAndWhitespace (skipLineComment rest (pos.next ch))
    else .ok ⟨ch :: rest, pos⟩
termination_by l.rest.length
decreasing_by
  all_goals
    have hblank := skipWhitespace_length l.rest l.pos
    rw [_h] at hblank
    simp only [length_cons] at hblank
  · have hline := skipLineComment_length rest.tail ((pos.next ch).next (byte '/'))
    rw [length_tail] at hline
    omega
  · have hcomment := skipBlockComment_length _hblock
    rw [length_tail] at hcomment
    omega
  · have hline := skipLineComment_length rest (pos.next ch)
    omega

/-! ## Literals -/

/-- What an escape stands for; an unknown one stands for itself. -/
def unescape (ch : UInt8) : List Char :=
  if ch = byte 'n' then ['\n']
  else if ch = byte 't' then ['\t']
  else if ch = byte 'r' then ['\r']
  else if ch = byte '\\' then ['\\']
  else if ch = byte '"' then ['"']
  else ['\\', ch.toChar]

/-- A text read in front of what was read behind it. -/
def push (text : List Char) (read : List Char × Lexer) : List Char × Lexer :=
  (text ++ read.1, read.2)

/-- Behind the opening quote, which ends at `start`. -/
def readString (start : Pos) : List UInt8 → Pos → Except VclError (List Char × Lexer)
  | [], _ => .error (.lexError "unterminated string literal" start)
  | ch :: rest, pos =>
    if ch = byte '\\' then
      match rest with
      | [] => .error (.lexError "unterminated string literal" start)
      | escape :: rest =>
        (readString start rest ((pos.next ch).next escape)).map (push (unescape escape))
    else if ch = byte '"' then .ok ([], ⟨rest, pos.next ch⟩)
    else (readString start rest (pos.next ch)).map (push [ch.toChar])

/-- Behind the opening brace and quote. -/
def readLongString (start : Pos) : List UInt8 → Pos → Except VclError (List Char × Lexer)
  | [], _ => .error (.lexError "unterminated long string literal" start)
  | ch :: rest, pos =>
    if ch = byte '"' ∧ rest.head? = some (byte '\x7d') then
      .ok ([], ⟨rest.tail, (pos.next ch).next (byte '\x7d')⟩)
    else (readLongString start rest (pos.next ch)).map (push [ch.toChar])

/-- The digits of a number, with a point if a digit follows it. -/
def readDigits (isReal : Bool) : List UInt8 → Pos → (List Char × Bool) × Lexer
  | [], pos => (([], isReal), ⟨[], pos⟩)
  | ch :: rest, pos =>
    if isAsciiDigit ch then
      let read := readDigits isReal rest (pos.next ch)
      ((ch.toChar :: read.1.1, read.1.2), read.2)
    else if ch = byte '.' ∧ isReal = false ∧ rest.head?.any isAsciiDigit then
      let read := readDigits true rest (pos.next ch)
      (('.' :: read.1.1, read.1.2), read.2)
    else (([], isReal), ⟨ch :: rest, pos⟩)

/-- A duration literal of so many seconds a unit. -/
def durationKind (numStr : String) (unit : ℚ) (l : Lexer) : Except VclError (TokenKind × Lexer) :=
  match parseF64 numStr with
  | some val => .ok (.durationLit (val * unit), l)
  | none => .error (.lexError ("invalid number: " ++ numStr) l.pos)

/-- The seconds of a unit; milliseconds are told by the letter behind. -/
def unitSeconds (suffix : UInt8) : Option ℚ :=
  if suffix = byte 's' then some 1
  else if suffix = byte 'm' then some 60
  else if suffix = byte 'h' then some 3600
  else if suffix = byte 'd' then some 86400
  else none

/-- A number without a unit. -/
def plainKind (numStr : String) (isReal : Bool) (l : Lexer) : Except VclError (TokenKind × Lexer) :=
  if isReal then
    match parseF64 numStr with
    | some val => .ok (.realLit val, l)
    | none => .error (.lexError ("invalid real number: " ++ numStr) l.pos)
  else
    match parseI64 numStr with
    | some val => .ok (.intLit val, l)
    | none => .error (.lexError ("invalid integer: " ++ numStr) l.pos)

/-- A number behind its first digit. A letter is no unit if the word goes on
behind it. -/
def readNumber (first : UInt8) (l : Lexer) : Except VclError (TokenKind × Lexer) :=
  let read := readDigits false l.rest l.pos
  let numStr := String.ofList (first.toChar :: read.1.1)
  match read.2 with
  | ⟨suffix :: rest, pos⟩ =>
    match unitSeconds suffix with
    | some unit =>
      let after : Lexer := ⟨rest, pos.next suffix⟩
      if suffix = byte 'm' ∧ rest.head? = some (byte 's') then
        durationKind numStr (1 / 1000) ⟨rest.tail, after.pos.next (byte 's')⟩
      else if rest.head?.any fun next => isAsciiAlphanumeric next || next = byte '_' then
        plainKind numStr read.1.2 ⟨suffix :: rest, ⟨after.pos.line, after.pos.col - 1⟩⟩
      else durationKind numStr unit after
    | none => plainKind numStr read.1.2 ⟨suffix :: rest, pos⟩
  | ⟨[], pos⟩ => plainKind numStr read.1.2 ⟨[], pos⟩

/-! ## Words -/

def isIdentChar (ch : UInt8) : Bool := isAsciiAlphanumeric ch || ch = byte '_' || ch = byte '-'

def takeIdent : List UInt8 → Pos → List Char × Lexer
  | [], pos => ([], ⟨[], pos⟩)
  | ch :: rest, pos =>
    if isIdentChar ch then push [ch.toChar] (takeIdent rest (pos.next ch))
    else ([], ⟨ch :: rest, pos⟩)

/-- The words that are not identifiers. -/
def keyword : String → Option TokenKind
  | "vcl" => some .vcl
  | "backend" => some .backend
  | "probe" => some .probe
  | "acl" => some .acl
  | "sub" => some .sub
  | "import" => some .import
  | "if" => some .if
  | "elsif" | "elif" | "elseif" => some .elseIf
  | "else" => some .else
  | "return" => some .return
  | "set" => some .set
  | "unset" => some .unset
  | "call" => some .call
  | "new" => some .new
  | "include" => some .include
  | "synthetic" => some .synthetic
  | "ban" => some .ban
  | "true" => some (.boolLit true)
  | "false" => some (.boolLit false)
  | _ => none

def readIdent (first : UInt8) (l : Lexer) : TokenKind × Lexer :=
  let read := takeIdent l.rest l.pos
  let ident := String.ofList (first.toChar :: read.1)
  ((keyword ident).getD (.ident ident), read.2)

/-! ## Tokens -/

/-- `{:?}` of a character below 256. -/
def debugChar (ch : UInt8) : String :=
  let text :=
    if ch = byte '\x00' then "\\0"
    else if ch = byte '\t' then "\\t"
    else if ch = byte '\r' then "\\r"
    else if ch = byte '\n' then "\\n"
    else if ch = byte '\'' then "\\'"
    else if ch = byte '\\' then "\\\\"
    else if ch < 32 ∨ (127 ≤ ch ∧ ch ≤ 160) ∨ ch = 173 then
      "\\u\x7b" ++ String.ofList (Nat.toDigits 16 ch.toNat) ++ "\x7d"
    else String.ofList [ch.toChar]
  "'" ++ text ++ "'"

/-- One kind if a byte follows, another if not. -/
def ifNext (second : Char) (two one : TokenKind) (l : Lexer) : TokenKind × Lexer :=
  if l.rest.head? = some (byte second) then (two, ⟨l.rest.tail, l.pos.next (byte second)⟩)
  else (one, l)

/-- A kind that takes two of a byte. -/
def doubled (ch : Char) (kind : TokenKind) (start : Pos) (l : Lexer) :
    Except VclError (TokenKind × Lexer) :=
  if l.rest.head? = some (byte ch) then .ok (kind, ⟨l.rest.tail, l.pos.next (byte ch)⟩)
  else
    let c := String.ofList [ch]
    .error (.lexError ("expected `" ++ c ++ c ++ "`, found single `" ++ c ++ "`") start)

def stringKind (read : List Char × Lexer) : TokenKind × Lexer :=
  (.stringLit (String.ofList read.1), read.2)

/-- The kind of a token by its first byte, which is at `start` and has been
taken. -/
def kindOf (ch : UInt8) (start : Pos) (l : Lexer) : Except VclError (TokenKind × Lexer) :=
  match ch.toChar with
  | '\x7b' =>
    if l.rest.head? = some (byte '"') then
      let l : Lexer := ⟨l.rest.tail, l.pos.next (byte '"')⟩
      (readLongString l.pos l.rest l.pos).map stringKind
    else .ok (.lBrace, l)
  | '\x7d' => .ok (.rBrace, l)
  | '(' => .ok (.lParen, l)
  | ')' => .ok (.rParen, l)
  | ';' => .ok (.semicolon, l)
  | ',' => .ok (.comma, l)
  | '.' => .ok (.dot, l)
  | '~' => .ok (.match, l)
  | '*' => .ok (.star, l)
  | '+' => .ok (ifNext '=' .plusAssign .plus l)
  | '-' => .ok (ifNext '=' .minusAssign .minus l)
  | '/' => .ok (.slash, l)
  | '=' => .ok (ifNext '=' .eq .assign l)
  | '!' =>
    if l.rest.head? = some (byte '=') then .ok (.neq, ⟨l.rest.tail, l.pos.next (byte '=')⟩)
    else .ok (ifNext '~' .notMatch .not l)
  | '&' => doubled '&' .and start l
  | '|' => doubled '|' .or start l
  | '>' => .ok (ifNext '=' .gte .gt l)
  | '<' => .ok (ifNext '=' .lte .lt l)
  | '"' => (readString l.pos l.rest l.pos).map stringKind
  | _ =>
    if isAsciiDigit ch then readNumber ch l
    else if isAsciiAlphabetic ch || ch = byte '_' then .ok (readIdent ch l)
    else .error (.lexError ("unexpected character: " ++ debugChar ch) start)

def nextToken (l : Lexer) : Except VclError (Token × Lexer) :=
  match skipCommentsAndWhitespace l with
  | .error e => .error e
  | .ok ⟨[], pos⟩ => .ok (⟨.eof, pos⟩, ⟨[], pos⟩)
  | .ok ⟨ch :: rest, pos⟩ =>
    (kindOf ch pos ⟨rest, pos.next ch⟩).map fun read => (⟨read.1, pos⟩, read.2)

/-! ## Progress

No function gives bytes back, so a token takes one byte at least. -/

theorem readString_length {read : List Char × Lexer}
    (h : readString start rest pos = .ok read) : read.2.rest.length ≤ rest.length := by
  fun_induction readString start rest pos generalizing read with
  | case1 => cases h
  | case2 => cases h
  | case3 pos escape rest ih =>
    obtain ⟨later, hlater, rfl⟩ := exists_of_map_ok h
    have hle := ih hlater
    simp only [push, length_cons]
    omega
  | case4 rest pos hslash =>
    cases h
    simp
  | case5 ch rest pos hslash hquote ih =>
    obtain ⟨later, hlater, rfl⟩ := exists_of_map_ok h
    have hle := ih hlater
    simp only [push, length_cons]
    omega

theorem readLongString_length {read : List Char × Lexer}
    (h : readLongString start rest pos = .ok read) : read.2.rest.length ≤ rest.length := by
  fun_induction readLongString start rest pos generalizing read with
  | case1 => cases h
  | case2 ch rest pos hclose =>
    cases h
    simp only [length_tail, length_cons]
    omega
  | case3 ch rest pos hclose ih =>
    obtain ⟨later, hlater, rfl⟩ := exists_of_map_ok h
    have hle := ih hlater
    simp only [push, length_cons]
    omega

theorem readDigits_length (isReal : Bool) (rest : List UInt8) (pos : Pos) :
    (readDigits isReal rest pos).2.rest.length ≤ rest.length := by
  fun_induction readDigits isReal rest pos with
  | case1 => rfl
  | case2 isReal ch rest pos hdigit read ih => exact ih.trans (Nat.le_succ _)
  | case3 isReal ch rest pos hdigit hpoint read ih => exact ih.trans (Nat.le_succ _)
  | case4 => rfl

theorem takeIdent_length (rest : List UInt8) (pos : Pos) :
    (takeIdent rest pos).2.rest.length ≤ rest.length := by
  fun_induction takeIdent rest pos with
  | case1 => rfl
  | case2 ch rest pos hident ih => exact ih.trans (Nat.le_succ _)
  | case3 => rfl

theorem plainKind_rest {isReal : Bool} (h : plainKind numStr isReal l = .ok read) : read.2 = l := by
  unfold plainKind at h
  split at h
  · split at h
    · cases h
      rfl
    · cases h
  split at h
  · cases h
    rfl
  · cases h

theorem durationKind_rest {unit : ℚ} (h : durationKind numStr unit l = .ok read) : read.2 = l := by
  unfold durationKind at h
  split at h
  · cases h
    rfl
  · cases h

theorem readNumber_length {first : UInt8}
    (h : readNumber first l = .ok read) : read.2.rest.length ≤ l.rest.length := by
  have hdigits := readDigits_length false l.rest l.pos
  unfold readNumber at h
  dsimp only at h
  split at h
  · rename_i suffix rest pos heq
    rw [heq, length_cons] at hdigits
    split at h
    · split at h
      · rw [durationKind_rest h, length_tail]
        omega
      split at h
      · rw [plainKind_rest h, length_cons]
        exact hdigits
      rw [durationKind_rest h]
      dsimp only
      omega
    · rw [plainKind_rest h, length_cons]
      exact hdigits
  · rw [plainKind_rest h]
    exact Nat.zero_le _

theorem ifNext_length (second : Char) (two one : TokenKind) (l : Lexer) :
    (ifNext second two one l).2.rest.length ≤ l.rest.length := by
  unfold ifNext
  split
  · rw [length_tail]
    exact Nat.sub_le _ _
  · rfl

theorem doubled_length {ch : Char} {kind : TokenKind} (h : doubled ch kind start l = .ok read) :
    read.2.rest.length ≤ l.rest.length := by
  unfold doubled at h
  split at h
  · cases h
    rw [length_tail]
    exact Nat.sub_le _ _
  · cases h

theorem kindOf_length {ch : UInt8}
    (h : kindOf ch start l = .ok read) : read.2.rest.length ≤ l.rest.length := by
  unfold kindOf at h
  split at h
  case h_1 =>
    split at h
    · obtain ⟨text, htext, rfl⟩ := exists_of_map_ok h
      refine (readLongString_length htext).trans ?_
      rw [length_tail]
      exact Nat.sub_le _ _
    · cases h
      rfl
  case h_14 =>
    split at h
    · cases h
      rw [length_tail]
      exact Nat.sub_le _ _
    · cases h
      exact ifNext_length _ _ _ _
  case h_19 =>
    obtain ⟨text, htext, rfl⟩ := exists_of_map_ok h
    exact readString_length htext
  case h_20 =>
    split at h
    · exact readNumber_length h
    split at h
    · cases h
      exact takeIdent_length _ _
    · cases h
  all_goals first
    | exact doubled_length h
    | (cases h; exact ifNext_length _ _ _ _)
    | (cases h; rfl)

theorem skipCommentsAndWhitespace_length {l after : Lexer}
    (h : skipCommentsAndWhitespace l = .ok after) : after.rest.length ≤ l.rest.length := by
  fun_induction skipCommentsAndWhitespace l with
  | case1 =>
    cases h
    exact Nat.zero_le _
  | case2 l ch rest pos hblank hline ih =>
    have hskip := skipWhitespace_length l.rest l.pos
    have hcomment := skipLineComment_length rest.tail ((pos.next ch).next (byte '/'))
    have hlater := ih h
    rw [hblank, length_cons] at hskip
    rw [length_tail] at hcomment
    omega
  | case3 => cases h
  | case4 l ch rest pos hblank hline hopen start next hblock ih =>
    have hskip := skipWhitespace_length l.rest l.pos
    have hcomment := skipBlockComment_length hblock
    have hlater := ih h
    rw [hblank, length_cons] at hskip
    rw [length_tail] at hcomment
    omega
  | case5 l rest pos hblank hline hopen ih =>
    have hskip := skipWhitespace_length l.rest l.pos
    have hcomment := skipLineComment_length rest (pos.next (byte '#'))
    have hlater := ih h
    rw [hblank, length_cons] at hskip
    omega
  | case6 l ch rest pos hblank =>
    have hskip := skipWhitespace_length l.rest l.pos
    cases h
    rwa [hblank] at hskip

theorem nextToken_length {l after : Lexer} {tok : Token} (h : nextToken l = .ok (tok, after))
    (hkind : tok.kind ≠ .eof) : after.rest.length < l.rest.length := by
  unfold nextToken at h
  split at h
  · cases h
  · cases h
    exact absurd rfl hkind
  · rename_i ch rest pos hskip
    obtain ⟨read, hread, heq⟩ := exists_of_map_ok h
    have hle := skipCommentsAndWhitespace_length hskip
    have hkindLe := kindOf_length hread
    cases heq
    simp only [length_cons] at hle hkindLe
    omega

def tokens (l : Lexer) : Except VclError (List Token) :=
  match _h : nextToken l with
  | .error e => .error e
  | .ok (tok, after) =>
    if _hkind : tok.kind = .eof then .ok [tok] else (tokens after).map (tok :: ·)
termination_by l.rest.length
decreasing_by exact nextToken_length _h _hkind

def tokenize (source : String) : Except VclError (List Token) := tokens (new source)

example : (tokenize "set x = 5m; # \"").map (·.map Token.kind) =
    .ok [.set, .ident "x", .assign, .durationLit 300, .semicolon, .eof] := by
  decide +kernel

end Lexer

end VarahaCache.Vcl
