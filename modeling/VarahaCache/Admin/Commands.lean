import VarahaCache.Admin.Protocol

/-!
# The commands of the admin CLI

A line is a command and its arguments: bare words, or texts between double
quotes in which a backslash stands before a character that is meant literally.
-/

namespace VarahaCache.Admin

open Text List
open String (ofList ofList_toList toList_inj)

inductive CliCommand
  | vclLoad (name source : String)
  | vclUse (name : String)
  | vclList
  | vclDiscard (name : String)
  | ban (expression : String)
  | banList
  | paramShow (param : Option String)
  | paramSet (param value : String)
  | backendList
  | backendSetHealth (backend health : String)
  | status
  | stop
  | start
  | ping
  | help
  | logStream (tags : Option String)
deriving DecidableEq

/-- What is left of the line. -/
structure Tokenizer where
  remaining : String

namespace Tokenizer

def new (input : String) : Tokenizer := ⟨trim input⟩

/-- The text up to the closing quote, and what is behind that. The quote may
be missing, and so may the character behind a backslash. -/
def unquote : List Char → List Char × List Char
  | [] => ([], [])
  | ['\\'] => ([], [])
  | '\\' :: escaped :: rest => (escaped :: (unquote rest).1, (unquote rest).2)
  | '"' :: rest => ([], rest)
  | ch :: rest => (ch :: (unquote rest).1, (unquote rest).2)

def parseQuoted (tokens : Tokenizer) : String × Tokenizer :=
  let (result, rest) := unquote (tokens.remaining.toList.drop 1)
  (ofList result, ⟨ofList rest⟩)

def parseBare (tokens : Tokenizer) : String × Tokenizer :=
  let (token, rest) := tokens.remaining.toList.span (!isWhitespace ·)
  (ofList token, ⟨ofList rest⟩)

def next (tokens : Tokenizer) : Option (String × Tokenizer) :=
  let tokens : Tokenizer := ⟨trimStart tokens.remaining⟩
  if tokens.remaining = "" then none
  else if tokens.remaining.toList.head? = some '"' then some tokens.parseQuoted
  else some tokens.parseBare

def rest (tokens : Tokenizer) : Option String :=
  if trim tokens.remaining = "" then none else some (trim tokens.remaining)

end Tokenizer

def required {α : Type} (message : String) : Option α → Except AdminError α
  | some token => .ok token
  | none => .error (.invalidCommand message)

def parseCommand (line : String) : Except AdminError CliCommand := do
  let line := trim line
  if line = "" then throw (.invalidCommand "empty command")
  let (cmd, tokens) ← required "empty command" (Tokenizer.new line).next
  match cmd with
  | "vcl.load" =>
    let (name, tokens) ← required "vcl.load requires <name> <source>" tokens.next
    let source ← required "vcl.load requires <name> <source>" tokens.rest
    return .vclLoad name source
  | "vcl.use" =>
    let (name, _) ← required "vcl.use requires <name>" tokens.next
    return .vclUse name
  | "vcl.list" => return .vclList
  | "vcl.discard" =>
    let (name, _) ← required "vcl.discard requires <name>" tokens.next
    return .vclDiscard name
  | "ban" =>
    let expression ← required "ban requires <expression>" tokens.rest
    return .ban expression
  | "ban.list" => return .banList
  | "param.show" => return .paramShow (tokens.next.map Prod.fst)
  | "param.set" =>
    let (param, tokens) ← required "param.set requires <param> <value>" tokens.next
    let value ← required "param.set requires <param> <value>" tokens.rest
    return .paramSet param value
  | "backend.list" => return .backendList
  | "backend.set_health" =>
    let (backend, tokens) ← required "backend.set_health requires <backend> <health>" tokens.next
    let (health, _) ← required "backend.set_health requires <backend> <health>" tokens.next
    return .backendSetHealth backend health
  | "status" => return .status
  | "stop" => return .stop
  | "start" => return .start
  | "ping" => return .ping
  | "help" => return .help
  | "log.stream" => return .logStream tokens.rest
  | other => throw (.invalidCommand ("unknown command: " ++ other))

/-! ## Quoting -/

def escapeChar (c : Char) : List Char := if c = '\\' ∨ c = '"' then ['\\', c] else [c]

/-- A text in double quotes, with backslashes before backslashes and double
quotes. -/
def quote (s : String) : String := ofList ('"' :: (s.toList.flatMap escapeChar ++ ['"']))

theorem toList_quote (s : String) :
    (quote s).toList = '"' :: (s.toList.flatMap escapeChar ++ ['"']) := String.toList_ofList

theorem getLast?_append_quote (text s : String) : (text ++ quote s).toList.getLast? = some '"' := by
  rw [String.toList_append, toList_quote, ← cons_append, ← append_assoc, getLast?_concat]

theorem quote_ne_self (s : String) : quote s ≠ s := by
  intro h
  have hle : s.toList.length ≤ (s.toList.flatMap escapeChar).length := by
    induction s.toList with
    | nil => exact Nat.le_refl 0
    | cons c chars ih =>
      have hone : 1 ≤ (escapeChar c).length := by
        rw [escapeChar]
        split <;> simp
      rw [flatMap_cons, length_append, length_cons]
      omega
  have hlength := congrArg length (toList_quote s)
  rw [h, length_cons, length_append] at hlength
  omega

theorem unquote_escaped (chars rest : List Char) :
    Tokenizer.unquote (chars.flatMap escapeChar ++ '"' :: rest) = (chars, rest) := by
  induction chars with
  | nil => simp [Tokenizer.unquote]
  | cons c chars ih =>
    rw [flatMap_cons, append_assoc, escapeChar]
    split
    · simp [Tokenizer.unquote, ih]
    next hplain =>
      rw [not_or] at hplain
      simp [Tokenizer.unquote, hplain.1, hplain.2, ih]

namespace Tokenizer

theorem next_command {cmd : String} (hne : cmd ≠ "")
    (hword : ∀ c ∈ cmd.toList, isWhitespace c = false ∧ c ≠ '"') (rest : String) :
    (⟨cmd ++ " " ++ rest⟩ : Tokenizer).next = some (cmd, ⟨" " ++ rest⟩) := by
  have hlist : (cmd ++ " " ++ rest).toList = cmd.toList ++ ' ' :: rest.toList := by simp
  obtain ⟨c, chars, hcmd⟩ := exists_cons_of_ne_nil (mt String.toList_eq_nil_iff.mp hne)
  have hfirst := hword c (by simp [hcmd])
  have htrim : trimStart (cmd ++ " " ++ rest) = cmd ++ " " ++ rest := by
    rw [trimStart, dropWhile_blank_eq_self.mpr, ofList_toList]
    simp [hcmd, hfirst.1]
  have hspan : (cmd ++ " " ++ rest).toList.span (!isWhitespace ·) =
      (cmd.toList, ' ' :: rest.toList) := by
    have hall : ∀ c ∈ cmd.toList, (!isWhitespace c) = true := fun c hc => by simp [(hword c hc).1]
    rw [hlist, span_eq_takeWhile_dropWhile, takeWhile_append_of_pos hall,
      dropWhile_append_of_pos hall]
    simp [isWhitespace]
  simp only [next, htrim]
  rw [if_neg (by simp), if_neg (by simp [hcmd, hfirst.2]), parseBare]
  simp only [hspan, ofList_toList]
  rw [← toList_inj.mp (show (" " ++ rest).toList = (ofList (' ' :: rest.toList)).toList
    by simp)]

theorem next_quote (s rest : String) :
    (⟨" " ++ (quote s ++ rest)⟩ : Tokenizer).next = some (s, ⟨rest⟩) := by
  have htrim : trimStart (" " ++ (quote s ++ rest)) = quote s ++ rest := by
    rw [trimStart, ← toList_inj]
    simp [toList_quote, isWhitespace]
  have hlist : (quote s ++ rest).toList =
      '"' :: (s.toList.flatMap escapeChar ++ '"' :: rest.toList) := by
    simp [toList_quote]
  simp only [next, htrim]
  rw [if_neg (by rw [← String.toList_eq_nil_iff, hlist]; simp), if_pos (by rw [hlist]; rfl),
    parseQuoted]
  simp only [hlist, drop_one, tail_cons, unquote_escaped, ofList_toList]

theorem next_quote_last (s : String) : (⟨" " ++ quote s⟩ : Tokenizer).next = some (s, ⟨""⟩) := by
  simpa using next_quote s ""

theorem rest_quote (s : String) : (⟨" " ++ quote s⟩ : Tokenizer).rest = some (quote s) := by
  have htrim : trim (" " ++ quote s) = quote s := by
    rw [← toList_inj]
    simp [trim, trimBoth, toList_quote, isWhitespace]
  rw [rest, htrim, if_neg]
  rw [← String.toList_eq_nil_iff, toList_quote]
  simp

end Tokenizer

/-- The commands whose arguments are typed in quotes. -/
inductive Quoting
  | vclLoad | paramSet | ban | vclUse | vclDiscard
deriving DecidableEq

namespace Quoting

def line (name text : String) : Quoting → String
  | vclLoad => "vcl.load" ++ " " ++ (quote name ++ (" " ++ quote text))
  | paramSet => "param.set" ++ " " ++ (quote name ++ (" " ++ quote text))
  | ban => "ban" ++ " " ++ quote text
  | vclUse => "vcl.use" ++ " " ++ quote name
  | vclDiscard => "vcl.discard" ++ " " ++ quote name

/-- The command with these arguments. -/
def command (name text : String) : Quoting → CliCommand
  | vclLoad => .vclLoad name text
  | paramSet => .paramSet name text
  | ban => .ban text
  | vclUse => .vclUse name
  | vclDiscard => .vclDiscard name

theorem trim_line (name text : String) (c : Quoting) :
    trim (c.line name text) = c.line name text := by
  rw [trim_eq_self_iff]
  cases c
  all_goals
    simp only [line, ← String.append_assoc, getLast?_append_quote]
    simp [isWhitespace]

theorem parseCommand_line (name text : String) (c : Quoting) :
    parseCommand (c.line name text) = .ok (c.command name (quote text)) := by
  rw [parseCommand, Tokenizer.new, trim_line, trim_line]
  cases c
  all_goals
    rw [line, if_neg (by simp), Tokenizer.next_command (by simp) (by simp [isWhitespace])]
    simp [required, bind, Except.bind, pure, Except.pure, Tokenizer.next_quote,
      Tokenizer.next_quote_last, Tokenizer.rest_quote, command]

/-- **Quoting works EXACTLY for the commands that take a name alone.** -/
theorem parseCommand_line_iff (name text : String) (c : Quoting) :
    parseCommand (c.line name text) = .ok (c.command name text) ↔ c = .vclUse ∨ c = .vclDiscard := by
  have hne := quote_ne_self text
  rw [parseCommand_line]
  cases c
  all_goals simp [command, hne]

/-- A source in quotes keeps the quotes and what is escaped in it. -/
theorem parseCommand_line_vclLoad :
    vclLoad.line "test" "set x = \"y\";" = "vcl.load \"test\" \"set x = \\\"y\\\";\"" ∧
      parseCommand (vclLoad.line "test" "set x = \"y\";") =
        .ok (.vclLoad "test" "\"set x = \\\"y\\\";\"") := by
  decide +kernel

end Quoting

end VarahaCache.Admin
