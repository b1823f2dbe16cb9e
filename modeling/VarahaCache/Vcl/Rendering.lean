import VarahaCache.Vcl.Interpreter
import VarahaCache.Vcl.Printing

/-!
# What the lexer makes of rendered text

Tokens are written out, with any layout between them, and the lexer gives
them back with the places they were written at (`tokenize_render`). A string
literal comes back as the characters its bytes number: as it was exactly if
it is ASCII (`tokenize_literal_iff`).
-/

namespace VarahaCache.Vcl

open Text Lexer List
open String (ofList utf8EncodeChar)

def utf8 (text : List Char) : List UInt8 := text.flatMap utf8EncodeChar

@[simp] theorem utf8_nil : utf8 [] = [] := rfl

@[simp] theorem utf8_cons (c : Char) (text : List Char) :
    utf8 (c :: text) = utf8EncodeChar c ++ utf8 text := flatMap_cons

@[simp] theorem utf8_append (a b : List Char) : utf8 (a ++ b) = utf8 a ++ utf8 b := flatMap_append

theorem asBytes_ofList (text : List Char) : asBytes (ofList text) = utf8 text := by
  rw [asBytes_eq_flatMap, String.toList_ofList]
  rfl

variable {text : List Char} {ch : UInt8} {c : Char} {kind : TokenKind} {tail : List UInt8}
  {bytes : List UInt8} {rest : List UInt8} {s : String}

theorem toNat_byte (h : c.toNat < 128) : (byte c).toNat = c.toNat := by
  rw [byte, Char.toUInt8, UInt32.toNat_toUInt8]
  exact Nat.mod_eq_of_lt (h.trans (by decide))

theorem toChar_byte (h : c.toNat < 128) : (byte c).toChar = c := Char.toNat_inj.mp (toNat_byte h)

theorem utf8EncodeChar_of_ascii (h : c.toNat < 128) : utf8EncodeChar c = [byte c] := by
  refine String.utf8EncodeChar_eq_singleton (Char.utf8Size_eq_one_iff.mpr ?_)
  rw [UInt32.le_iff_toNat_le]
  exact Nat.le_of_lt_succ h

theorem utf8_of_ascii (h : ∀ c ∈ text, c.toNat < 128) : utf8 text = text.map byte := by
  induction text with
  | nil => rfl
  | cons c text ih =>
    obtain ⟨hc, hrest⟩ := forall_mem_cons.mp h
    rw [utf8_cons, utf8EncodeChar_of_ascii hc, ih hrest]
    rfl

theorem byte_notMem_utf8EncodeChar {c d : Char} (hd : d.toNat < 128) (hne : c ≠ d) :
    byte d ∉ utf8EncodeChar c := by
  intro hb
  have hlt : byte d < 128 := by
    rw [UInt8.lt_iff_toNat_lt, toNat_byte hd]
    exact hd
  rw [mem_utf8EncodeChar hlt, toNat_byte hd] at hb
  exact hne (Char.toNat_inj.mp hb)

theorem byte_notMem_utf8 {d : Char} (hd : d.toNat < 128) (h : d ∉ text) : byte d ∉ utf8 text := by
  intro hb
  obtain ⟨c, hc, hmem⟩ := mem_flatMap.mp hb
  have hne : c ≠ d := fun heq => h (heq ▸ hc)
  exact byte_notMem_utf8EncodeChar hd hne hmem

/-- In front of the mark `a b`, a text without the mark shows `b` behind no
`a`. -/
theorem head_utf8_ne {a b : Char} (hb : b.toNat < 128) (hab : byte a ≠ byte b)
    (h : ¬ [a, b] <:+: a :: text) (rest : List UInt8) :
    (utf8 text ++ byte a :: rest).head? ≠ some (byte b) := by
  intro hhead
  cases text with
  | nil => exact hab (Option.some.inj hhead)
  | cons c text =>
    obtain ⟨ch, bytes, hbytes⟩ := exists_cons_of_ne_nil (String.utf8EncodeChar_ne_nil (c := c))
    rw [utf8_cons, hbytes] at hhead
    have hmem : byte b ∈ utf8EncodeChar c := by
      rw [← Option.some.inj hhead, hbytes]
      exact mem_cons_self
    by_cases hc : c = b
    · subst hc
      exact h ⟨[], text, rfl⟩
    · exact byte_notMem_utf8EncodeChar hb hc hmem

/-! ## String literals -/

def IsAscii (s : String) : Prop := ∀ c ∈ s.toList, c.toNat < 128

instance (s : String) : Decidable (IsAscii s) := inferInstanceAs (Decidable (∀ c ∈ _, _))

/-- The characters with the numbers of the bytes of a text. -/
def latin1 (s : String) : String := ofList ((utf8 s.toList).map UInt8.toChar)

/-- How a character is written between quotes. -/
def escapeChar (c : Char) : List Char :=
  if c = '\n' then ['\\', 'n']
  else if c = '\t' then ['\\', 't']
  else if c = '\r' then ['\\', 'r']
  else if c = '\\' then ['\\', '\\']
  else if c = '"' then ['\\', '"']
  else [c]

def quoted (s : String) : List Char := '"' :: (s.toList.flatMap escapeChar ++ ['"'])

def longQuoted (s : String) : List Char := '\x7b' :: '"' :: (s.toList ++ ['"', '\x7d'])

theorem length_utf8EncodeChar (h : 128 ≤ c.toNat) : 2 ≤ (utf8EncodeChar c).length := by
  have hval : ¬ c.val.toNat ≤ 127 := by
    have : 128 ≤ c.val.toNat := h
    omega
  unfold utf8EncodeChar
  rw [if_neg hval]
  split_ifs
  all_goals simp

theorem length_le_utf8 (text : List Char) : text.length ≤ (utf8 text).length := by
  induction text with
  | nil => rfl
  | cons c text ih =>
    have hpos : 0 < (utf8EncodeChar c).length :=
      length_pos_iff.mpr String.utf8EncodeChar_ne_nil
    rw [utf8_cons, length_append, length_cons]
    omega

/-- Only ASCII survives: any other text becomes longer. -/
theorem latin1_eq_self_iff : latin1 s = s ↔ IsAscii s := by
  rw [latin1, ← String.toList_inj, String.toList_ofList, IsAscii]
  generalize s.toList = text
  induction text with
  | nil => simp
  | cons c text ih =>
    rw [forall_mem_cons, utf8_cons, map_append]
    by_cases hc : c.toNat < 128
    · rw [utf8EncodeChar_of_ascii hc, map_singleton, toChar_byte hc]
      simp [hc, ih]
    constructor
    · intro heq
      have htotal := congrArg length heq
      have hfirst := length_utf8EncodeChar (Nat.not_lt.mp hc)
      have hrest := length_le_utf8 text
      simp only [length_append, length_map, length_cons] at htotal
      omega
    · intro h
      exact absurd h.1 hc

variable (start : Pos) (sep : Separator) {pos : Pos}

theorem readString_cons (hslash : ch ≠ byte '\\')
    (hquote : ch ≠ byte '"') (rest : List UInt8) (pos : Pos) :
    readString start (ch :: rest) pos =
      (readString start rest (pos.next ch)).map (push [ch.toChar]) := by
  rw [readString.eq_def]
  dsimp only
  rw [if_neg hslash, if_neg hquote]

theorem readString_plain (hslash : byte '\\' ∉ bytes)
    (hquote : byte '"' ∉ bytes) (tail : List UInt8) (pos : Pos) :
    readString start (bytes ++ tail) pos =
      (readString start tail (pos.after bytes)).map (push (bytes.map UInt8.toChar)) := by
  induction bytes generalizing pos with
  | nil =>
    rw [nil_append, Pos.after_nil]
    cases readString start tail pos <;> rfl
  | cons b bytes ih =>
    rw [mem_cons, not_or] at hslash hquote
    rw [cons_append, readString_cons start (Ne.symm hslash.1) (Ne.symm hquote.1),
      ih hslash.2 hquote.2, Pos.after_cons]
    cases readString start tail ((pos.next b).after bytes) <;> rfl

theorem readString_escapeChar (c : Char) (tail : List UInt8) (pos : Pos) :
    readString start (utf8 (escapeChar c) ++ tail) pos =
      (readString start tail (pos.after (utf8 (escapeChar c)))).map
        (push ((utf8EncodeChar c).map UInt8.toChar)) := by
  by_cases hspecial : c ∈ ['\n', '\t', '\r', '\\', '"']
  · simp only [mem_cons, not_mem_nil, or_false] at hspecial
    rcases hspecial with rfl | rfl | rfl | rfl | rfl
    all_goals rfl
  simp only [mem_cons, not_mem_nil, or_false, not_or] at hspecial
  obtain ⟨hn, ht, hr, hslash, hquote⟩ := hspecial
  have hself : utf8 (escapeChar c) = utf8EncodeChar c := by
    rw [escapeChar, if_neg hn, if_neg ht, if_neg hr, if_neg hslash, if_neg hquote, utf8_cons,
      utf8_nil, append_nil]
  rw [hself]
  exact readString_plain start (byte_notMem_utf8EncodeChar (by decide) hslash)
    (byte_notMem_utf8EncodeChar (by decide) hquote) tail pos

/-- A quoted text is read as its bytes, up to the quote that ends it. -/
theorem readString_escaped (text : List Char) (rest : List UInt8) (pos : Pos) :
    readString start (utf8 (text.flatMap escapeChar) ++ byte '"' :: rest) pos =
      .ok ((utf8 text).map UInt8.toChar,
        ⟨rest, pos.after (utf8 (text.flatMap escapeChar) ++ [byte '"'])⟩) := by
  induction text generalizing pos with
  | nil =>
    rw [flatMap_nil, utf8_nil, nil_append, readString.eq_def]
    rfl
  | cons c text ih =>
    rw [flatMap_cons, utf8_append, append_assoc, readString_escapeChar, ih, utf8_cons,
      map_append, append_assoc, ← Pos.after_append]
    rfl

theorem readLongString_plain (h : byte '"' ∉ bytes) (tail : List UInt8) (pos : Pos) :
    readLongString start (bytes ++ tail) pos =
      (readLongString start tail (pos.after bytes)).map (push (bytes.map UInt8.toChar)) := by
  induction bytes generalizing pos with
  | nil =>
    rw [nil_append, Pos.after_nil]
    cases readLongString start tail pos <;> rfl
  | cons b bytes ih =>
    rw [mem_cons, not_or] at h
    rw [cons_append, readLongString, if_neg fun hclose => h.1 hclose.1.symm, ih h.2, Pos.after_cons]
    cases readLongString start tail ((pos.next b).after bytes) <;> rfl

theorem readLongString_text (h : ¬ ['"', '\x7d'] <:+: text) (rest : List UInt8) (pos : Pos) :
    readLongString start (utf8 text ++ byte '"' :: byte '\x7d' :: rest) pos =
      .ok ((utf8 text).map UInt8.toChar,
        ⟨rest, pos.after (utf8 text ++ [byte '"', byte '\x7d'])⟩) := by
  induction text generalizing pos with
  | nil => rfl
  | cons c text ih =>
    have hlater : ¬ ['"', '\x7d'] <:+: text := fun hinfix => h (infix_cons hinfix)
    rw [utf8_cons, append_assoc]
    by_cases hc : c = '"'
    · subst hc
      have hopen := head_utf8_ne (by decide) (by decide) h (byte '\x7d' :: rest)
      rw [utf8EncodeChar_of_ascii (by decide), singleton_append, readLongString,
        if_neg fun hclose => hopen hclose.2, ih hlater]
      rfl
    · rw [readLongString_plain start (byte_notMem_utf8EncodeChar (by decide) hc), ih hlater,
        append_assoc, map_append, ← Pos.after_append]
      rfl

/-! ## Layout -/

/-- A stretch of white space, or a comment with the newline that ends it. -/
inductive Piece
  | blank (c : Char) (h : c ∈ [' ', '\t', '\n', '\r'])
  | hash (text : List Char) (h : '\n' ∉ text)
  | slashes (text : List Char) (h : '\n' ∉ text)
  | block (text : List Char) (h : ¬ ['*', '/'] <:+: text)

def Piece.chars : Piece → List Char
  | .blank c _ => [c]
  | .hash text _ => '#' :: (text ++ ['\n'])
  | .slashes text _ => '/' :: '/' :: (text ++ ['\n'])
  | .block text _ => '/' :: '*' :: (text ++ ['*', '/'])

/-- What stands between two tokens: a blank, then anything that is no
token. -/
structure Separator where
  first : Char
  isBlank : first ∈ [' ', '\t', '\n', '\r']
  more : List Piece

def Separator.chars (sep : Separator) : List Char := sep.first :: sep.more.flatMap Piece.chars

theorem skip_eq (l : Lexer) :
    skipCommentsAndWhitespace l =
      match skipWhitespace l.rest l.pos with
      | ⟨[], pos⟩ => .ok ⟨[], pos⟩
      | ⟨ch :: rest, pos⟩ =>
        if ch = byte '/' ∧ rest.head? = some (byte '/') then
          skipCommentsAndWhitespace (skipLineComment rest.tail ((pos.next ch).next (byte '/')))
        else if ch = byte '/' ∧ rest.head? = some (byte '*') then
          (skipBlockComment ((pos.next ch).next (byte '*')) rest.tail
            ((pos.next ch).next (byte '*'))).bind skipCommentsAndWhitespace
        else if ch = byte '#' then
          skipCommentsAndWhitespace (skipLineComment rest (pos.next ch))
        else .ok ⟨ch :: rest, pos⟩ := by
  rw [skipCommentsAndWhitespace.eq_def]
  split
  · rename_i heq
    rw [heq]
  rename_i ch rest pos heq
  rw [heq]
  dsimp only
  split_ifs
  · rfl
  · split <;> rename_i hblock <;> rw [hblock] <;> rfl
  · rfl
  · rfl

/-- Bytes that begin a token: neither blank nor the start of a comment. -/
structure Opens (ch : UInt8) (rest : List UInt8) : Prop where
  blank : isBlank ch = false
  hash : ch ≠ byte '#'
  line : ¬ (ch = byte '/' ∧ rest.head? = some (byte '/'))
  block : ¬ (ch = byte '/' ∧ rest.head? = some (byte '*'))

theorem skip_of_opens (h : Opens ch rest) (pos : Pos) :
    skipCommentsAndWhitespace ⟨ch :: rest, pos⟩ = .ok ⟨ch :: rest, pos⟩ := by
  rw [skip_eq, skipWhitespace, if_neg (by rw [h.blank]; decide)]
  dsimp only
  rw [if_neg h.line, if_neg h.block, if_neg h.hash]

theorem skipLineComment_text {text : List UInt8} (h : byte '\n' ∉ text) (rest : List UInt8)
    (pos : Pos) :
    skipLineComment (text ++ byte '\n' :: rest) pos = ⟨rest, pos.after (text ++ [byte '\n'])⟩ := by
  induction text generalizing pos with
  | nil => rfl
  | cons b text ih =>
    rw [mem_cons, not_or] at h
    rw [cons_append, skipLineComment, if_neg (Ne.symm h.1), ih h.2]
    rfl

theorem skipBlockComment_plain (h : byte '*' ∉ bytes) (tail : List UInt8) (pos : Pos) :
    skipBlockComment start (bytes ++ tail) pos = skipBlockComment start tail (pos.after bytes) := by
  induction bytes generalizing pos with
  | nil => rfl
  | cons b bytes ih =>
    rw [mem_cons, not_or] at h
    rw [cons_append, skipBlockComment, if_neg fun hclose => h.1 hclose.1.symm, ih h.2,
      Pos.after_cons]

theorem skipBlockComment_text (h : ¬ ['*', '/'] <:+: text) (rest : List UInt8) (pos : Pos) :
    skipBlockComment start (utf8 text ++ byte '*' :: byte '/' :: rest) pos =
      .ok ⟨rest, pos.after (utf8 text ++ [byte '*', byte '/'])⟩ := by
  induction text generalizing pos with
  | nil => rfl
  | cons c text ih =>
    have hlater : ¬ ['*', '/'] <:+: text := fun hinfix => h (infix_cons hinfix)
    rw [utf8_cons, append_assoc]
    by_cases hc : c = '*'
    · subst hc
      have hopen := head_utf8_ne (by decide) (by decide) h (byte '/' :: rest)
      rw [utf8EncodeChar_of_ascii (by decide), singleton_append, skipBlockComment,
        if_neg fun hclose => hopen hclose.2, ih hlater]
      rfl
    · rw [skipBlockComment_plain start (byte_notMem_utf8EncodeChar (by decide) hc), ih hlater,
        append_assoc, ← Pos.after_append]

theorem skip_blank (h : c ∈ [' ', '\t', '\n', '\r']) (rest : List UInt8) (pos : Pos) :
    skipCommentsAndWhitespace ⟨utf8 [c] ++ rest, pos⟩ =
      skipCommentsAndWhitespace ⟨rest, pos.after (utf8 [c])⟩ := by
  simp only [mem_cons, not_mem_nil, or_false] at h
  rw [skip_eq, skip_eq ⟨rest, _⟩]
  rcases h with rfl | rfl | rfl | rfl
  all_goals rfl

theorem skip_piece (piece : Piece) (rest : List UInt8) (pos : Pos) :
    skipCommentsAndWhitespace ⟨utf8 piece.chars ++ rest, pos⟩ =
      skipCommentsAndWhitespace ⟨rest, pos.after (utf8 piece.chars)⟩ := by
  cases piece with
  | blank c h => exact skip_blank h rest pos
  | hash text h =>
    have hbytes : utf8 (Piece.hash text h).chars = byte '#' :: (utf8 text ++ [byte '\n']) := by
      simp [Piece.chars, utf8EncodeChar_of_ascii]
    have hline := skipLineComment_text (byte_notMem_utf8 (by decide) h) rest (pos.next (byte '#'))
    rw [hbytes, skip_eq, cons_append, append_assoc, singleton_append]
    exact congrArg skipCommentsAndWhitespace hline
  | slashes text h =>
    have hbytes : utf8 (Piece.slashes text h).chars =
        byte '/' :: byte '/' :: (utf8 text ++ [byte '\n']) := by
      simp [Piece.chars, utf8EncodeChar_of_ascii]
    have hline := skipLineComment_text (byte_notMem_utf8 (by decide) h) rest
      ((pos.next (byte '/')).next (byte '/'))
    rw [hbytes, skip_eq, cons_append, cons_append, append_assoc, singleton_append]
    exact congrArg skipCommentsAndWhitespace hline
  | block text h =>
    have hbytes : utf8 (Piece.block text h).chars =
        byte '/' :: byte '*' :: (utf8 text ++ [byte '*', byte '/']) := by
      simp [Piece.chars, utf8EncodeChar_of_ascii]
    have hblock := skipBlockComment_text ((pos.next (byte '/')).next (byte '*')) h rest
      ((pos.next (byte '/')).next (byte '*'))
    rw [hbytes, skip_eq, cons_append, cons_append, append_assoc]
    exact congrArg (Except.bind · skipCommentsAndWhitespace) hblock

theorem skip_pieces (pieces : List Piece) (rest : List UInt8) (pos : Pos) :
    skipCommentsAndWhitespace ⟨utf8 (pieces.flatMap Piece.chars) ++ rest, pos⟩ =
      skipCommentsAndWhitespace ⟨rest, pos.after (utf8 (pieces.flatMap Piece.chars))⟩ := by
  induction pieces generalizing pos with
  | nil => rfl
  | cons piece pieces ih =>
    rw [flatMap_cons, utf8_append, append_assoc, skip_piece, ih, Pos.after_append]

theorem skip_separator (rest : List UInt8) (pos : Pos) :
    skipCommentsAndWhitespace ⟨utf8 sep.chars ++ rest, pos⟩ =
      skipCommentsAndWhitespace ⟨rest, pos.after (utf8 sep.chars)⟩ := by
  have hchars : utf8 sep.chars = utf8 [sep.first] ++ utf8 (sep.more.flatMap Piece.chars) := by
    rw [← utf8_append]
    rfl
  rw [hchars, append_assoc, skip_blank sep.isBlank, skip_pieces, Pos.after_append]

/-! ## Tokens -/

theorem tokens_eq (l : Lexer) :
    tokens l =
      match nextToken l with
      | .error e => .error e
      | .ok (tok, after) => if tok.kind = .eof then .ok [tok] else (tokens after).map (tok :: ·) := by
  rw [tokens.eq_def]
  split
  · rename_i heq
    rw [heq]
  rename_i heq
  rw [heq]
  rfl

theorem tokens_nil (pos : Pos) : tokens ⟨[], pos⟩ = .ok [⟨.eof, pos⟩] := by
  rw [tokens_eq, nextToken, skip_eq]
  rfl

theorem tokens_of_opens {l : Lexer} (hopens : Opens ch rest)
    (hkind : kindOf ch pos ⟨rest, pos.next ch⟩ = .ok (kind, l)) (hne : kind ≠ .eof) :
    tokens ⟨ch :: rest, pos⟩ = (tokens l).map (⟨kind, pos⟩ :: ·) := by
  rw [tokens_eq, nextToken, skip_of_opens hopens]
  dsimp only
  rw [hkind]
  exact if_neg hne

theorem tokens_separator (rest : List UInt8) (pos : Pos) :
    tokens ⟨utf8 sep.chars ++ rest, pos⟩ = tokens ⟨rest, pos.after (utf8 sep.chars)⟩ := by
  rw [tokens_eq, tokens_eq ⟨rest, _⟩, nextToken, nextToken, skip_separator]

theorem tokenize_ofList (text : List Char) :
    tokenize (ofList text) = tokens ⟨utf8 text, ⟨1, 1⟩⟩ := by
  rw [tokenize, new, asBytes_ofList]

theorem tokenize_string (hbytes : utf8 text = ch :: rest) (hopens : Opens ch rest)
    (hkind : kindOf ch ⟨1, 1⟩ ⟨rest, Pos.next ⟨1, 1⟩ ch⟩ = .ok (.stringLit s, ⟨[], pos⟩)) :
    (tokenize (ofList text)).map (·.map Token.kind) = .ok [.stringLit s, .eof] := by
  rw [tokenize_ofList, hbytes, tokens_of_opens hopens hkind (by simp), tokens_nil]
  rfl

theorem utf8_quoted (s : String) :
    utf8 (quoted s) = byte '"' :: (utf8 (s.toList.flatMap escapeChar) ++ [byte '"']) := by
  simp [quoted, utf8EncodeChar_of_ascii]

theorem opens_quote (rest : List UInt8) : Opens (byte '"') rest :=
  ⟨by decide, by decide, fun h => absurd h.1 (by decide), fun h => absurd h.1 (by decide)⟩

theorem tokenize_quoted (s : String) :
    (tokenize (ofList (quoted s))).map (·.map Token.kind) =
      .ok [.stringLit (latin1 s), .eof] := by
  have hread := readString_escaped (Pos.next ⟨1, 1⟩ (byte '"')) s.toList []
    (Pos.next ⟨1, 1⟩ (byte '"'))
  exact tokenize_string (utf8_quoted s) (opens_quote _) (congrArg (Except.map stringKind) hread)

theorem tokenize_longQuoted (h : ¬ ['"', '\x7d'] <:+: s.toList) :
    (tokenize (ofList (longQuoted s))).map (·.map Token.kind) =
      .ok [.stringLit (latin1 s), .eof] := by
  have hbytes : utf8 (longQuoted s) =
      byte '\x7b' :: byte '"' :: (utf8 s.toList ++ [byte '"', byte '\x7d']) := by
    simp [longQuoted, utf8EncodeChar_of_ascii]
  have hopens : Opens (byte '\x7b') (byte '"' :: (utf8 s.toList ++ [byte '"', byte '\x7d'])) :=
    ⟨by decide, by decide, fun h => absurd h.1 (by decide), fun h => absurd h.1 (by decide)⟩
  have hread := readLongString_text ((Pos.next ⟨1, 1⟩ (byte '\x7b')).next (byte '"')) h []
    ((Pos.next ⟨1, 1⟩ (byte '\x7b')).next (byte '"'))
  exact tokenize_string hbytes hopens (congrArg (Except.map stringKind) hread)

/-- **String literals keep their text exactly if it is ASCII**: every byte is
made a character of its own. -/
theorem tokenize_literal_iff (s : String) :
    ((tokenize (ofList (quoted s))).map (·.map Token.kind) = .ok [.stringLit s, .eof] ∧
      (¬ ['"', '\x7d'] <:+: s.toList →
        (tokenize (ofList (longQuoted s))).map (·.map Token.kind) =
          .ok [.stringLit s, .eof])) ↔
    IsAscii s := by
  rw [← latin1_eq_self_iff, tokenize_quoted]
  constructor
  · rintro ⟨hquoted, -⟩
    injection hquoted with hkinds
    injection hkinds with hkind
    injection hkind
  · intro hs
    refine ⟨by rw [hs], fun hlong => ?_⟩
    rw [tokenize_longQuoted hlong, hs]

/-- An accented letter, in both forms. -/
theorem tokenize_literal_accent :
    (tokenize (ofList (quoted "é"))).map (·.map Token.kind) =
        .ok [.stringLit "\u00c3\u00a9", .eof] ∧
      (tokenize (ofList (longQuoted "é"))).map (·.map Token.kind) =
        .ok [.stringLit "\u00c3\u00a9", .eof] ∧
      "\u00c3\u00a9" ≠ "é" := by
  decide +kernel

/-! ## Rendered tokens -/

/-- The end of the text, or a blank. -/
def Boundary (tail : List UInt8) : Prop := ∀ ch ∈ tail.head?, isBlank ch = true

theorem Boundary.head_ne (h : Boundary tail) (ch : UInt8)
    (hch : isBlank ch = false) : tail.head? ≠ some ch := by
  intro hhead
  rw [h ch hhead] at hch
  cases hch

theorem Boundary.cons (h : Boundary (ch :: tail))
    {p : UInt8 → Bool} (hspace : p (byte ' ') = false) (htab : p (byte '\t') = false)
    (hnewline : p (byte '\n') = false) (hreturn : p (byte '\r') = false) : p ch = false := by
  have hblank : isBlank ch = true := h ch rfl
  simp only [isBlank, Bool.or_eq_true, decide_eq_true_eq] at hblank
  rcases hblank with ((rfl | rfl) | rfl) | rfl
  all_goals assumption

def ReadsAs (text : List Char) (kind : TokenKind) : Prop :=
  ∀ tail, Boundary tail → ∃ ch rest, utf8 text = ch :: rest ∧ Opens ch (rest ++ tail) ∧
    ∀ pos, kindOf ch pos ⟨rest ++ tail, pos.next ch⟩ = .ok (kind, ⟨tail, (pos.next ch).after rest⟩)

def operators : List (List Char × TokenKind) :=
  [(['=', '='], .eq), (['!', '='], .neq), (['~'], .match), (['!', '~'], .notMatch),
    (['&', '&'], .and), (['|', '|'], .or), (['!'], .not), (['+'], .plus), (['-'], .minus),
    (['*'], .star), (['/'], .slash), (['='], .assign), (['+', '='], .plusAssign),
    (['-', '='], .minusAssign), (['>'], .gt), (['<'], .lt), (['>', '='], .gte), (['<', '='], .lte),
    (['\x7b'], .lBrace), (['\x7d'], .rBrace), (['('], .lParen), ([')'], .rParen),
    ([';'], .semicolon), ([','], .comma), (['.'], .dot)]

theorem readsAs_operator (h : (text, kind) ∈ operators) : ReadsAs text kind := by
  intro tail htail
  have hassign := htail.head_ne (byte '=') (by decide)
  have hmatch := htail.head_ne (byte '~') (by decide)
  have hquote := htail.head_ne (byte '"') (by decide)
  have hslash := htail.head_ne (byte '/') (by decide)
  have hstar := htail.head_ne (byte '*') (by decide)
  simp only [operators, mem_cons, Prod.mk.injEq, not_mem_nil, or_false] at h
  rcases h with ⟨rfl, rfl⟩ | ⟨rfl, rfl⟩ | ⟨rfl, rfl⟩ | ⟨rfl, rfl⟩ | ⟨rfl, rfl⟩ | ⟨rfl, rfl⟩ |
    ⟨rfl, rfl⟩ | ⟨rfl, rfl⟩ | ⟨rfl, rfl⟩ | ⟨rfl, rfl⟩ | ⟨rfl, rfl⟩ | ⟨rfl, rfl⟩ | ⟨rfl, rfl⟩ |
    ⟨rfl, rfl⟩ | ⟨rfl, rfl⟩ | ⟨rfl, rfl⟩ | ⟨rfl, rfl⟩ | ⟨rfl, rfl⟩ | ⟨rfl, rfl⟩ | ⟨rfl, rfl⟩ |
    ⟨rfl, rfl⟩ | ⟨rfl, rfl⟩ | ⟨rfl, rfl⟩ | ⟨rfl, rfl⟩ | ⟨rfl, rfl⟩
  -- the second half of an operator does not stand at a boundary
  all_goals
    refine ⟨_, _, rfl, ⟨by decide, by decide, fun hline => ?_, fun hblock => ?_⟩, fun pos => ?_⟩
    · first
        | exact absurd hline.1 (by decide)
        | exact hslash hline.2
    · first
        | exact absurd hblock.1 (by decide)
        | exact hstar hblock.2
    · first
        | rfl
        | exact congrArg Except.ok (if_neg hassign)
        | exact (if_neg hassign).trans (congrArg Except.ok (if_neg hmatch))
        | exact if_neg hquote

/-- The words the lexer reads as one. -/
def isIdent : List Char → Bool
  | [] => false
  | first :: rest =>
    (first.isAlpha || first = '_') && rest.all fun c => c.isAlphanum || c = '_' || c = '-'

theorem toNat_lt_of_isAlphanum (h : c.isAlphanum) : c.toNat < 128 := by
  simp only [Char.isAlphanum, Char.isAlpha, Char.isUpper, Char.isLower, Char.isDigit,
    Bool.or_eq_true, Bool.and_eq_true, decide_eq_true_eq, ge_iff_le, UInt32.le_iff_toNat_le] at h
  have hval : c.toNat = c.val.toNat := rfl
  simp at h
  omega

theorem isAsciiDigit_byte (h : c.isDigit) : isAsciiDigit (byte c) = true := by
  have hbyte := toNat_byte (toNat_lt_of_isAlphanum (c := c) (by simp [Char.isAlphanum, h]))
  have hval : c.toNat = c.val.toNat := rfl
  simp only [Char.isDigit, Bool.and_eq_true, decide_eq_true_eq, ge_iff_le,
    UInt32.le_iff_toNat_le] at h
  simp only [isAsciiDigit, Bool.and_eq_true, decide_eq_true_eq, UInt8.le_iff_toNat_le, hbyte]
  exact h

theorem isAsciiAlphabetic_byte (h : c.isAlpha) : isAsciiAlphabetic (byte c) = true := by
  have hbyte := toNat_byte (toNat_lt_of_isAlphanum (c := c) (by simp [Char.isAlphanum, h]))
  simp only [Char.isAlpha, Char.isUpper, Char.isLower, Bool.or_eq_true, Bool.and_eq_true,
    decide_eq_true_eq, ge_iff_le, UInt32.le_iff_toNat_le] at h
  simp only [isAsciiAlphabetic, Bool.or_eq_true, Bool.and_eq_true, decide_eq_true_eq,
    UInt8.le_iff_toNat_le, hbyte]
  exact h

theorem isIdentChar_byte (h : (c.isAlphanum || c = '_' || c = '-') = true) :
    isIdentChar (byte c) = true ∧ c.toNat < 128 := by
  simp only [Bool.or_eq_true, decide_eq_true_eq] at h
  rcases h with (h | rfl) | rfl
  · refine ⟨?_, toNat_lt_of_isAlphanum h⟩
    rw [Char.isAlphanum, Bool.or_eq_true] at h
    rcases h with h | h
    · simp [isIdentChar, isAsciiAlphanumeric, isAsciiAlphabetic_byte h]
    · simp [isIdentChar, isAsciiAlphanumeric, isAsciiDigit_byte h]
  · decide
  · decide

theorem takeIdent_append {word : List UInt8} (hword : ∀ ch ∈ word, isIdentChar ch = true)
    (htail : Boundary tail) (pos : Pos) :
    takeIdent (word ++ tail) pos = (word.map UInt8.toChar, ⟨tail, pos.after word⟩) := by
  induction word generalizing pos with
  | nil =>
    cases tail with
    | nil => rfl
    | cons ch tail =>
      have hident := htail.cons (p := isIdentChar) rfl rfl rfl rfl
      rw [nil_append, takeIdent, if_neg (by rw [hident]; decide)]
      rfl
  | cons ch word ih =>
    obtain ⟨hch, hrest⟩ := forall_mem_cons.mp hword
    rw [cons_append, takeIdent, if_pos hch, ih hrest]
    rfl

theorem eq_byte_of_toChar (h : ch.toChar = c) : ch = byte c := by
  rw [← h, byte, ← UInt8.toNat_inj, Char.toUInt8, UInt32.toNat_toUInt8]
  exact (Nat.mod_eq_of_lt ch.toNat_lt).symm

theorem kindOf_word (h : isAsciiAlphabetic ch = true ∨ ch = byte '_') (start : Pos)
    (l : Lexer) : kindOf ch start l = .ok (readIdent ch l) := by
  have hdigit : isAsciiDigit ch = false := by
    rcases h with h | rfl
    · simp only [isAsciiAlphabetic, isAsciiDigit, Bool.or_eq_true, Bool.and_eq_true,
        decide_eq_true_eq, Bool.and_eq_false_iff, decide_eq_false_iff_not, UInt8.le_iff_toNat_le,
        UInt8.reduceToNat] at h ⊢
      omega
    · decide
  unfold kindOf
  split
  case h_20 =>
    rw [if_neg (by rw [hdigit]; decide), if_pos (by simpa using h)]
  all_goals
    rename_i hchar
    rw [eq_byte_of_toChar hchar] at h
    exact absurd h (by decide)

theorem opens_of_isIdentChar (h : isIdentChar ch = true) (rest : List UInt8) : Opens ch rest := by
  have hne : ∀ {b : UInt8}, isIdentChar b = false → ch ≠ b := by
    rintro b hb rfl
    rw [hb] at h
    cases h
  refine ⟨?_, hne (by decide), fun hline => hne (by decide) hline.1,
    fun hblock => hne (by decide) hblock.1⟩
  by_contra hblank
  simp only [isBlank, Bool.or_eq_false_iff, decide_eq_false_iff_not] at hblank
  exact hblank ⟨⟨⟨hne (by decide), hne (by decide)⟩, hne (by decide)⟩, hne (by decide)⟩

theorem readsAs_word {name : List Char} (h : isIdent name = true) :
    ReadsAs name ((keyword (ofList name)).getD (.ident (ofList name))) := by
  intro tail htail
  cases name with
  | nil => cases h
  | cons first rest =>
    rw [isIdent, Bool.and_eq_true, all_eq_true] at h
    obtain ⟨hfirst, hrest⟩ := h
    have hident : isIdentChar (byte first) = true ∧ first.toNat < 128 := by
      refine isIdentChar_byte ?_
      rw [Bool.or_eq_true] at hfirst
      rcases hfirst with hfirst | hfirst
      · simp [Char.isAlphanum, hfirst]
      · simp [hfirst]
    have hbytes : utf8 (first :: rest) = byte first :: rest.map byte :=
      utf8_of_ascii (forall_mem_cons.mpr ⟨hident.2, fun c hc => (isIdentChar_byte (hrest c hc)).2⟩)
    have hchars : (rest.map byte).map UInt8.toChar = rest := by
      rw [map_map]
      exact (map_congr_left fun c hc =>
        toChar_byte (isIdentChar_byte (hrest c hc)).2).trans (map_id _)
    have hword : isAsciiAlphabetic (byte first) = true ∨ byte first = byte '_' := by
      rw [Bool.or_eq_true, decide_eq_true_eq] at hfirst
      rcases hfirst with hfirst | rfl
      · exact .inl (isAsciiAlphabetic_byte hfirst)
      · exact .inr rfl
    refine ⟨_, _, hbytes, opens_of_isIdentChar hident.1 _, fun pos => ?_⟩
    rw [kindOf_word hword, readIdent]
    rw [takeIdent_append (fun ch hch => ?_) htail, hchars, toChar_byte hident.2]
    obtain ⟨c, hc, rfl⟩ := mem_map.mp hch
    exact (isIdentChar_byte (hrest c hc)).1

theorem isIdent_of_keyword {text : String} (h : keyword text = some kind) :
    isIdent text.toList = true := by
  unfold keyword at h
  split at h
  all_goals cases h
  all_goals decide +kernel

theorem readDigits_append {digits : List UInt8} (hdigits : ∀ ch ∈ digits, isAsciiDigit ch = true)
    (htail : Boundary tail) (pos : Pos) :
    readDigits false (digits ++ tail) pos =
      ((digits.map UInt8.toChar, false), ⟨tail, pos.after digits⟩) := by
  induction digits generalizing pos with
  | nil =>
    cases tail with
    | nil => rfl
    | cons ch tail =>
      have hdigit := htail.cons (p := isAsciiDigit) rfl rfl rfl rfl
      have hpoint : ch ≠ byte '.' := fun heq => htail.head_ne _ (by decide) (congrArg some heq)
      rw [nil_append, readDigits, if_neg (by rw [hdigit]; decide), if_neg fun h => hpoint h.1]
      rfl
  | cons ch digits ih =>
    obtain ⟨hch, hrest⟩ := forall_mem_cons.mp hdigits
    rw [cons_append, readDigits, if_pos hch, ih hrest]
    rfl

theorem kindOf_digit (h : isAsciiDigit ch = true) (start : Pos) (l : Lexer) :
    kindOf ch start l = readNumber ch l := by
  unfold kindOf
  split
  case h_20 => rw [if_pos h]
  all_goals
    rename_i hchar
    rw [eq_byte_of_toChar hchar] at h
    exact absurd h (by decide)

theorem readsAs_int {digits : List Char} (hne : digits ≠ []) (hdigits : ∀ c ∈ digits, c.isDigit)
    (hlt : digitsToNat digits < 2 ^ 63) :
    ReadsAs digits (.intLit (Int64.ofInt (digitsToNat digits))) := by
  intro tail htail
  have hascii : ∀ c ∈ digits, c.toNat < 128 := fun c hc =>
    toNat_lt_of_isAlphanum (by simp [Char.isAlphanum, hdigits c hc])
  have hparse : parseI64 (ofList digits) = some (Int64.ofInt (digitsToNat digits)) :=
    parseI64_of_parseUsize (parseUsize_of_digits hne hdigits (hlt.trans (by decide))) hlt
  have hbytes := utf8_of_ascii hascii
  have hchars : (digits.map byte).map UInt8.toChar = digits := by
    rw [map_map]
    exact (map_congr_left fun c hc => toChar_byte (hascii c hc)).trans (map_id _)
  have hall : ∀ ch ∈ digits.map byte, isAsciiDigit ch = true := by
    intro ch hch
    obtain ⟨c, hc, rfl⟩ := mem_map.mp hch
    exact isAsciiDigit_byte (hdigits c hc)
  rw [hbytes]
  generalize digits.map byte = bytes at hchars hall
  cases bytes with
  | nil => exact absurd hchars.symm hne
  | cons first rest =>
    obtain ⟨hfirst, hrest⟩ := forall_mem_cons.mp hall
    have hplain : ∀ l, plainKind (ofList (first.toChar :: rest.map UInt8.toChar)) false l =
        .ok (.intLit (Int64.ofInt (digitsToNat digits)), l) := by
      intro l
      rw [← map_cons, hchars, plainKind, hparse]
      rfl
    have hident : isIdentChar first = true := by simp [isIdentChar, isAsciiAlphanumeric, hfirst]
    refine ⟨_, _, rfl, opens_of_isIdentChar hident _, fun pos => ?_⟩
    rw [kindOf_digit hfirst, readNumber]
    rw [readDigits_append hrest htail]
    cases tail with
    | nil => exact hplain _
    | cons ch tail =>
      have hunit := htail.cons (p := fun ch => (unitSeconds ch).isSome) rfl rfl rfl rfl
      rw [Option.isSome_eq_false_iff, Option.isNone_iff_eq_none] at hunit
      dsimp only
      rw [hunit]
      exact hplain _

theorem readsAs_quoted (h : IsAscii s) : ReadsAs (quoted s) (.stringLit s) := by
  intro tail _
  refine ⟨_, _, utf8_quoted s, opens_quote _, fun pos => ?_⟩
  have hread := readString_escaped (pos.next (byte '"')) s.toList tail (pos.next (byte '"'))
  rw [append_assoc, singleton_append]
  refine (congrArg (Except.map stringKind) hread).trans ?_
  change Except.ok (TokenKind.stringLit (latin1 s), _) = _
  rw [latin1_eq_self_iff.mpr h]

inductive Spells : List Char → TokenKind → Prop
  | keyword {text : String} {kind : TokenKind} (h : keyword text = some kind) :
      Spells text.toList kind
  | ident {name : List Char} (hname : isIdent name = true)
      (hkeyword : Lexer.keyword (ofList name) = none) :
      Spells name (.ident (ofList name))
  | int {digits : List Char} (hne : digits ≠ []) (hdigits : ∀ c ∈ digits, c.isDigit)
      (hlt : digitsToNat digits < 2 ^ 63) :
      Spells digits (.intLit (Int64.ofInt (digitsToNat digits)))
  | string {s : String} (h : IsAscii s) : Spells (quoted s) (.stringLit s)
  | operator {text : List Char} {kind : TokenKind} (h : (text, kind) ∈ operators) : Spells text kind

theorem Spells.readsAs (h : Spells text kind) : ReadsAs text kind := by
  cases h with
  | keyword h =>
    have hword := readsAs_word (isIdent_of_keyword h)
    rwa [String.ofList_toList, h] at hword
  | ident hname hkeyword =>
    have hword := readsAs_word hname
    rwa [hkeyword] at hword
  | int hne hdigits hlt => exact readsAs_int hne hdigits hlt
  | string h => exact readsAs_quoted h
  | operator h => exact readsAs_operator h

theorem Spells.ne_eof (h : Spells text kind) : kind ≠ .eof := by
  rintro rfl
  cases h with
  | keyword h =>
    unfold Lexer.keyword at h
    split at h
    all_goals cases h
  | operator h => simp [operators] at h

structure Spelled where
  kind : TokenKind
  text : List Char
  spells : Spells text kind

/-- The separator behind a token, which the last one has not. -/
def gap (sep : Separator) (later : List (Spelled × Separator)) : List Char :=
  if later.isEmpty then [] else sep.chars

def render : List (Spelled × Separator) → List Char
  | [] => []
  | (tok, sep) :: later => tok.text ++ (gap sep later ++ render later)

/-- The place behind some bytes: newlines are counted, and the bytes since the
last. -/
def placeBehind (before : List UInt8) : Pos :=
  ⟨before.count (byte '\n') + 1, (before.reverse.takeWhile (· ≠ byte '\n')).length + 1⟩

/-- The tokens at the places they are written at, behind the text `before`. -/
def located (before : List Char) : List (Spelled × Separator) → List Token
  | [] => [⟨.eof, placeBehind (utf8 before)⟩]
  | (tok, sep) :: later =>
    ⟨tok.kind, placeBehind (utf8 before)⟩ :: located (before ++ tok.text ++ gap sep later) later

theorem after_eq_placeBehind (before : List UInt8) :
    Pos.after ⟨1, 1⟩ before = placeBehind before := by
  induction before using reverseRecOn with
  | nil => rfl
  | append_singleton before ch ih =>
    rw [Pos.after_append, ih]
    by_cases hch : ch = byte '\n'
    · subst hch
      have hnext : ∀ pos : Pos, pos.next (byte '\n') = ⟨pos.line + 1, 1⟩ := fun pos => rfl
      simp [placeBehind, hnext]
    · have hnext : ∀ pos : Pos, pos.next ch = ⟨pos.line, pos.col + 1⟩ := fun pos => if_neg hch
      simp [placeBehind, hnext, hch]

theorem boundary_gap (later : List (Spelled × Separator)) :
    Boundary (utf8 (gap sep later ++ render later)) := by
  cases later with
  | nil => simp [Boundary, gap, render]
  | cons item later =>
    have hbytes : utf8 [sep.first] = [byte sep.first] ∧ isBlank (byte sep.first) = true := by
      have hfirst := sep.isBlank
      simp only [mem_cons, not_mem_nil, or_false] at hfirst
      rcases hfirst with hfirst | hfirst | hfirst | hfirst
      all_goals
        rw [hfirst]
        decide
    intro ch hch
    rw [gap, if_neg (by simp), Separator.chars, cons_append, ← singleton_append,
      utf8_append, hbytes.1] at hch
    cases hch
    exact hbytes.2

theorem tokens_render (before : List Char) (items : List (Spelled × Separator)) :
    tokens ⟨utf8 (render items), placeBehind (utf8 before)⟩ = .ok (located before items) := by
  induction items generalizing before with
  | nil => exact tokens_nil _
  | cons item later ih =>
    obtain ⟨tok, sep⟩ := item
    obtain ⟨ch, rest, hbytes, hopens, hkind⟩ := tok.spells.readsAs _ (boundary_gap sep later)
    have hpos : ((placeBehind (utf8 before)).next ch).after rest =
        placeBehind (utf8 (before ++ tok.text)) := by
      rw [← Pos.after_cons, ← hbytes, ← after_eq_placeBehind, ← Pos.after_append, ← utf8_append,
        after_eq_placeBehind]
    have hlater : tokens ⟨utf8 (gap sep later ++ render later),
        placeBehind (utf8 (before ++ tok.text))⟩ =
        .ok (located (before ++ tok.text ++ gap sep later) later) := by
      rw [← ih, gap]
      split
      · rw [nil_append, append_nil]
      · rw [utf8_append, tokens_separator, ← after_eq_placeBehind, ← Pos.after_append,
          ← utf8_append, after_eq_placeBehind]
    rw [render, utf8_append, hbytes, cons_append,
      tokens_of_opens hopens (hkind _) tok.spells.ne_eof, hpos, hlater]
    rfl

/-- **The lexer inverts rendering, whatever the layout.** -/
theorem tokenize_render (items : List (Spelled × Separator)) :
    tokenize (ofList (render items)) = .ok (located [] items) := by
  rw [tokenize_ofList]
  exact tokens_render [] items

theorem kinds_located (before : List Char) (items : List (Spelled × Separator)) :
    (located before items).map Token.kind = items.map (·.1.kind) ++ [.eof] := by
  induction items generalizing before with
  | nil => rfl
  | cons item later ih =>
    rw [located, map_cons, ih]
    rfl

/-- `import std;` on two lines, with a comment between them. -/
def spacedImport : List (Spelled × Separator) :=
  let sep : Separator := ⟨' ', by decide, [.hash [] (by decide)]⟩
  [(⟨.import, "import".toList, .keyword rfl⟩, sep),
    (⟨_, ['s', 't', 'd'], .ident rfl (by decide)⟩, sep),
    (⟨.semicolon, [';'], .operator (by decide)⟩, sep)]

end VarahaCache.Vcl
