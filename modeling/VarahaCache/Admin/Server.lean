import VarahaCache.Admin.Auth
import VarahaCache.Admin.Commands
import VarahaCache.Transport.Stream

/-!
# A connection to the admin CLI

`handle_connection` authenticates the client when a secret is configured, and
then answers one line after the other. Every read and every write can fail,
and the connection ends at the first that does.
-/

namespace VarahaCache.Admin

open Text

structure Connection where
  /-- What the client still sends. -/
  incoming : List UInt8
  /-- The connection breaks behind that, and is not closed. -/
  reset : Bool
  /-- Which writes get through, counted from the first. -/
  accepts : ℕ → Bool
  /-- What was written. -/
  sent : List (List UInt8)
  /-- The commands that were executed. -/
  executed : List CliCommand

/-- What the server is given: its secret, SHA-256, and what the command in this
place is answered. Behind the answers is the context all connections share. -/
structure AdminServer where
  secret : Option String
  sha256 : List UInt8 → List UInt8
  handleCommand : ℕ → CliCommand → CliResponse

abbrev Serving := ExceptT AdminError (StateM Connection)

def Serving.on {α : Type} (part : Serving α) (c : Connection) : Except AdminError α × Connection :=
  part.run.run c

namespace Connection

/-- `read_line`; an empty line stands for a closed connection. -/
def readLine : Serving String := do
  let c ← get
  if c.reset ∧ 10 ∉ c.incoming then throw (.ioError "connection reset by peer")
  else
    match VarahaCache.readLine c.incoming with
    | .ok (line, rest) =>
      set { c with incoming := rest }
      return line
    | .error _ => throw (.ioError "stream did not contain valid UTF-8")

def writeAll (message : List UInt8) : Serving Unit := do
  let c ← get
  if c.accepts c.sent.length then set { c with sent := c.sent ++ [message] }
  else throw (.ioError "broken pipe")

def accepted (incoming : List UInt8) (reset : Bool) (accepts : ℕ → Bool) : Connection :=
  ⟨incoming, reset, accepts, [], []⟩

end Connection

namespace AdminServer

open Connection (writeAll)

def hexEncodeChallenge (challenge : List UInt8) : String := Lib.hexEncode challenge

def authenticate (server : AdminServer) (challenge : List UInt8) (secret : String) :
    Serving Unit := do
  let challengeHex := hexEncodeChallenge challenge
  writeAll (asBytes
    ("107 " ++ toString (asBytes challengeHex).length ++ "\n" ++ challengeHex ++ "\n"))
  let responseLine ← Connection.readLine
  -- no bytes: the client has closed the connection
  if responseLine = "" then
    throw (.authError "client disconnected during authentication")
  else if verifyAuth server.sha256 challenge (asBytes secret) (trim responseLine) then
    writeAll (encodeResponse (.ok "Authentication successful."))
  else
    writeAll (encodeResponse ⟨.close, "Authentication failed."⟩)
    throw (.authError "authentication failed")

/-- `handle_command`. -/
def execute (server : AdminServer) (cmd : CliCommand) : Serving CliResponse := do
  let c ← get
  set { c with executed := c.executed ++ [cmd] }
  return server.handleCommand c.executed.length cmd

def respond (server : AdminServer) (trimmed : String) : Serving CliResponse :=
  match parseCommand trimmed with
  | .ok cmd => server.execute cmd
  | .error e => pure ⟨.unknownCommand, e.text⟩

/-- A line that is not blank is answered; whether the loop goes on. -/
def answer (server : AdminServer) (trimmed : String) : Serving Bool :=
  if trimmed = "quit" ∨ trimmed = "close" then do
    writeAll (encodeResponse ⟨.close, "Closing connection."⟩)
    return false
  else do
    let response ← server.respond trimmed
    writeAll (encodeResponse response)
    return response.status ≠ .close

/-- One round of the loop, and whether there is another. -/
def turn (server : AdminServer) : Serving Bool := do
  let line ← Connection.readLine
  if line = "" then return false
  else if trim line = "" then return true
  else server.answer (trim line)

end AdminServer

/-! ## What a part of the handler leaves alone -/

namespace Serving

variable {α β γ : Type}

theorem on_bind (part : Serving α) (next : α → Serving β) (c : Connection) :
    (part >>= next).on c =
      match part.on c with
      | (.ok a, c') => (next a).on c'
      | (.error e, c') => (.error e, c') := by
  simp only [Serving.on, ExceptT.run_bind, StateT.run_bind]
  rcases part.run.run c with ⟨_ | a, c'⟩
  · rfl
  · rfl

@[simp] theorem on_get (c : Connection) : (get : Serving Connection).on c = (.ok c, c) := rfl

@[simp] theorem on_set (c c' : Connection) : (set c' : Serving Unit).on c = (.ok (), c') := rfl

@[simp] theorem on_pure (a : α) (c : Connection) : (pure a : Serving α).on c = (.ok a, c) := rfl

@[simp] theorem on_throw (e : AdminError) (c : Connection) :
    (throw e : Serving α).on c = (.error e, c) := rfl

/-- A part of the handler that keeps something of the connection as it is. -/
def Keeps (seen : Connection → γ) (part : Serving α) : Prop := ∀ c, seen (part.on c).2 = seen c

variable {seen : Connection → γ} {part : Serving α}

theorem Keeps.bind {next : α → Serving β} (hpart : part.Keeps seen)
    (hnext : ∀ a, (next a).Keeps seen) : (part >>= next).Keeps seen := by
  intro c
  have hc := hpart c
  rw [on_bind]
  revert hc
  rcases part.on c with ⟨_ | a, c'⟩
  · exact id
  · exact fun hc => (hnext a c').trans hc

theorem keeps_pure (a : α) : (pure a : Serving α).Keeps seen := fun _ => rfl

theorem keeps_throw (e : AdminError) : (throw e : Serving α).Keeps seen := fun _ => rfl

theorem Keeps.eq {c c' : Connection} {result : Except AdminError α}
    (hpart : part.Keeps seen) (h : part.on c = (result, c')) : seen c' = seen c := by
  rw [← hpart c, h]

end Serving

open Serving

namespace Connection

theorem readLine_on_ok {c : Connection} {line : String} {rest : List UInt8}
    (hreset : ¬ (c.reset ∧ 10 ∉ c.incoming))
    (hline : VarahaCache.readLine c.incoming = .ok (line, rest)) :
    readLine.on c = (.ok line, { c with incoming := rest }) := by
  rw [readLine, on_bind, on_get]
  simp only [if_neg hreset, hline, on_bind, on_set, on_pure]

theorem readLine_on (c : Connection) :
    (∃ e, readLine.on c = (.error e, c)) ∨
      ∃ line rest, VarahaCache.readLine c.incoming = .ok (line, rest) ∧
        readLine.on c = (.ok line, { c with incoming := rest }) := by
  by_cases hreset : c.reset ∧ 10 ∉ c.incoming
  · refine .inl ⟨.ioError "connection reset by peer", ?_⟩
    rw [readLine, on_bind, on_get]
    simp only [if_pos hreset, on_throw]
  cases hline : VarahaCache.readLine c.incoming with
  | error e =>
    refine .inl ⟨.ioError "stream did not contain valid UTF-8", ?_⟩
    rw [readLine, on_bind, on_get]
    simp only [if_neg hreset, hline, on_throw]
  | ok line => exact .inr ⟨line.1, line.2, rfl, readLine_on_ok hreset hline⟩

theorem keeps_readLine : readLine.Keeps Connection.executed := by
  intro c
  rcases readLine_on c with ⟨e, hc⟩ | ⟨line, rest, _, hc⟩
  · rw [hc]
  · rw [hc]

theorem keeps_writeAll {γ : Type} {seen : Connection → γ} (message : List UInt8)
    (hseen : ∀ c sent, seen { c with sent := sent } = seen c) : (writeAll message).Keeps seen := by
  intro c
  by_cases haccepts : c.accepts c.sent.length
  · simp [writeAll, on_bind, haccepts, hseen]
  · simp [writeAll, on_bind, haccepts]

end Connection

namespace AdminServer

open Connection (writeAll)

variable {server : AdminServer}

theorem keeps_authenticate (challenge : List UInt8) (secret : String) :
    (server.authenticate challenge secret).Keeps Connection.executed := by
  have hwrite : ∀ message, (writeAll message).Keeps Connection.executed :=
    fun message => Connection.keeps_writeAll message fun _ _ => rfl
  refine (hwrite _).bind fun _ => Connection.keeps_readLine.bind fun line => ?_
  split
  · exact keeps_throw _
  split
  · exact hwrite _
  · exact (hwrite _).bind fun _ => keeps_throw _

theorem keeps_respond (trimmed : String) : (server.respond trimmed).Keeps Connection.incoming := by
  rw [respond]
  split
  · intro c
    simp only [execute, on_bind, on_get, on_set, on_pure]
  · exact keeps_pure _

theorem keeps_answer (trimmed : String) : (server.answer trimmed).Keeps Connection.incoming := by
  have hwrite : ∀ message, (writeAll message).Keeps Connection.incoming :=
    fun message => Connection.keeps_writeAll message fun _ _ => rfl
  rw [answer]
  split
  · exact (hwrite _).bind fun _ => keeps_pure _
  · exact (keeps_respond trimmed).bind fun response => (hwrite _).bind fun _ => keeps_pure _

theorem turn_incoming {c c' : Connection} (h : server.turn.on c = (.ok true, c')) :
    c'.incoming.length < c.incoming.length := by
  rw [turn, on_bind] at h
  rcases Connection.readLine_on c with ⟨e, hc⟩ | ⟨line, rest, hline, hc⟩
  · rw [hc] at h
    cases h
  rw [hc] at h
  dsimp only at h
  split at h
  · cases h
  rename_i hne
  -- the line has bytes, and what answers it reads no more of them
  have hlength := readLine_length hline
  have hpos : 0 < (asBytes line).length :=
    List.length_pos_iff.mpr fun hnil => hne (asBytes_injective hnil)
  have hrest : c'.incoming = rest := by
    split at h
    · cases h
      rfl
    · exact (congrArg (fun r => r.2.incoming) h).symm.trans (keeps_answer _ _)
  rw [hrest]
  omega

def serve (server : AdminServer) (c : Connection) : Except AdminError Unit × Connection :=
  match _h : server.turn.on c with
  | (.ok true, c') => serve server c'
  | (.ok false, c') => (.ok (), c')
  | (.error e, c') => (.error e, c')
termination_by c.incoming.length
decreasing_by exact turn_incoming _h

/-- What comes before the loop. -/
def greet (server : AdminServer) (challenge : List UInt8) : Serving Unit :=
  match server.secret with
  | some secret => server.authenticate challenge secret
  | none => writeAll (encodeResponse (.ok "varaha-cache admin CLI ready."))

def handleConnection (server : AdminServer) (challenge : List UInt8) (c : Connection) :
    Except AdminError Unit × Connection :=
  match (server.greet challenge).on c with
  | (.ok (), c') => server.serve c'
  | (.error e, c') => (.error e, c')

theorem authenticate_ok {challenge : List UInt8} {secret : String} {c c' : Connection}
    (h : (server.authenticate challenge secret).on c = (.ok (), c')) :
    ∃ line rest, readLine c.incoming = .ok (line, rest) ∧
      trim line = computeAuthResponse server.sha256 challenge (asBytes secret) := by
  rw [authenticate, on_bind] at h
  split at h
  · rename_i c₁ hwrite
    rw [on_bind] at h
    have hincoming : c₁.incoming = c.incoming :=
      (Connection.keeps_writeAll _ fun _ _ => rfl).eq hwrite
    rcases Connection.readLine_on c₁ with ⟨e, hc⟩ | ⟨line, rest, hline, hc⟩
    · rw [hc] at h
      cases h
    rw [hc] at h
    dsimp only at h
    refine ⟨line, rest, hincoming ▸ hline, ?_⟩
    split at h
    · cases h
    split at h
    · rename_i hverified
      -- `verify_auth` trims again what was trimmed here
      rw [← trim_trim, ← verifyAuth_iff]
      exact hverified
    rw [on_bind] at h
    split at h
    · cases h
    · cases h
  · cases h

/-- **Only an authenticated client has commands executed**: with a secret
configured, the first line answers the challenge, and no other secret gives
that answer. -/
theorem executed_only_authenticated (server : AdminServer) (hsha : Function.Injective server.sha256)
    {secret : String} (hsecret : server.secret = some secret) (challenge incoming : List UInt8)
    (reset : Bool) (accepts : ℕ → Bool) :
    ((server.handleConnection challenge (.accepted incoming reset accepts)).2.executed ≠ [] →
      ∃ line rest, readLine incoming = .ok (line, rest) ∧
        trim line = computeAuthResponse server.sha256 challenge (asBytes secret)) ∧
      ∀ s t, verifyAuth server.sha256 challenge s (computeAuthResponse server.sha256 challenge t) =
        true ↔ t = s := by
  refine ⟨fun hexecuted => ?_, fun s t => verifyAuth_computeAuthResponse hsha t⟩
  have hgreet : server.greet challenge = server.authenticate challenge secret := by
    rw [greet, hsecret]
  rw [handleConnection, hgreet] at hexecuted
  have hkeeps := @keeps_authenticate server challenge secret (.accepted incoming reset accepts)
  split at hexecuted
  · rename_i c' hok
    exact authenticate_ok hok
  rename_i e c' herror
  -- the loop was never entered
  rw [herror] at hkeeps
  exact absurd hkeeps hexecuted

theorem executed_only_authenticated_ping :
    let server : AdminServer := ⟨some "s", id, fun _ _ => .ok "PONG"⟩
    let c := Connection.accepted (asBytes "017301\nping\n") false fun _ => true
    (server.handleConnection [1] c).2.executed = [.ping] ∧
      ∃ line rest, readLine c.incoming = .ok (line, rest) ∧
        trim line = computeAuthResponse id [1] (asBytes "s") := by
  intro server c
  have hexecuted : (server.handleConnection [1] c).2.executed = [.ping] := by decide +kernel
  refine ⟨hexecuted, (executed_only_authenticated server Function.injective_id rfl [1] c.incoming
    false fun _ => true).1 ?_⟩
  exact hexecuted ▸ List.cons_ne_nil _ _

end AdminServer

end VarahaCache.Admin
