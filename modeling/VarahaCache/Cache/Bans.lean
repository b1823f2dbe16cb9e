import VarahaCache.Cache.Soundness

/-!
# Bans

`rv-cache`'s ban list: expressions over a URL and object headers that are to
take every older object that matches out of service. The engine's `lookup`
does not read the list, so `banned_not_answered` is about the histories in
which every ban, when made, matches expired objects only.

The regular expressions are a parameter, and so is what the objects were
stored with: the engine keeps neither URL nor headers.
-/

namespace VarahaCache

open Text CacheEngine

/-- The `regex` crate: compiled patterns and what they match. -/
structure RegexLib (R : Type) where
  new : String → Except String R
  isMatch : R → String → Bool

inductive BanTest (R : Type)
  | urlMatch (re : R)
  | objHeaderMatch (header : String) (pattern : R)
  | objHeaderEq (header value : String)

structure Ban (R : Type) where
  timestamp : VtimReal
  tests : List (BanTest R)
  completed : Bool

structure BanList (R : Type) where
  bans : List (Ban R)

variable {σ R : Type} (lib : RegexLib R)

def BanTest.holds (url : String) (getHeader : String → Option String) : BanTest R → Bool
  | .urlMatch re => lib.isMatch re url
  | .objHeaderMatch header pattern => (getHeader header).any fun v => lib.isMatch pattern v
  | .objHeaderEq header value => (getHeader header).any fun v => v == value

/-- All tests of a ban hold. -/
def Ban.«matches» (ban : Ban R) (url : String) (getHeader : String → Option String) : Bool :=
  ban.tests.all (BanTest.holds lib url getHeader)

/-! ## Ban expressions -/

def parseBanTest (part : String) : Except CacheError (BanTest R) :=
  let part := trim part
  match stripPrefix "req.url ~ " part with
  | some rest =>
    match lib.new (trim rest) with
    | .ok re => .ok (.urlMatch re)
    | .error e => .error (.banError ("invalid regex: " ++ e))
  | none =>
    match stripPrefix "obj.http." part with
    | some rest =>
      match splitOnceStr " ~ " rest with
      | some (header, pattern) =>
        match lib.new (trim pattern) with
        | .ok re => .ok (.objHeaderMatch (trim header) re)
        | .error e => .error (.banError ("invalid regex: " ++ e))
      | none =>
        match splitOnceStr " == " rest with
        | some (header, value) => .ok (.objHeaderEq (trim header) (trim value))
        | none => .error (.banError ("invalid ban test: " ++ part))
    | none => .error (.banError ("unknown ban field: " ++ part))

/-- `parse_ban_expression`, at the time the clock shows. -/
def parseBanExpression (now : VtimReal) (expr : String) : Except CacheError (Ban R) := do
  let tests ← (splitStr " && " expr).mapM (parseBanTest lib)
  if tests.isEmpty then .error (.banError "empty ban expression")
  else .ok ⟨now, tests, false⟩

namespace BanList

def new : BanList R := ⟨[]⟩

def add (l : BanList R) (ban : Ban R) : BanList R := ⟨l.bans ++ [ban]⟩

def addBan (l : BanList R) (now : VtimReal) (expression : String) :
    Except CacheError Unit × BanList R :=
  match parseBanExpression lib now expression with
  | .ok ban => (.ok (), l.add ban)
  | .error e => (.error e, l)

def isBanned (l : BanList R) (oc : ObjCore) (url : String)
    (getHeader : String → Option String) : Bool :=
  l.bans.any fun ban => decide (oc.tOrigin < ban.timestamp) && ban.matches lib url getHeader

def lurkerWork (l : BanList R) (oldestObjTime : VtimReal) : BanList R :=
  ⟨l.bans.filter fun ban => decide (oldestObjTime ≤ ban.timestamp) || !ban.completed⟩

def markCompleted (l : BanList R) : BanList R :=
  ⟨l.bans.map fun ban => { ban with completed := true }⟩

end BanList

/-! ## Histories with bans -/

structure BanningEngine (σ R : Type) where
  engine : CacheEngine σ
  banList : BanList R

/-- A call of the engine, or of the ban list it hands out. -/
inductive BanOp (R : Type)
  | cache (op : Op)
  | ban (expression : String)
  | add (ban : Ban R)
  | lurkerWork (oldestObjTime : VtimReal)
  | markCompleted

inductive BanOutcome
  | cache (outcome : Outcome)
  | ban (result : Except CacheError Unit)
  | unit

namespace BanningEngine

def step (stv : Stevedore σ) (b : BanningEngine σ R) (c : VtimReal × BanOp R) :
    BanOutcome × BanningEngine σ R :=
  match c.2 with
  | .cache op =>
    let r := b.engine.step stv ⟨c.1, op⟩
    (.cache r.1, { b with engine := r.2 })
  | .ban expression =>
    let r := b.banList.addBan lib c.1 expression
    (.ban r.1, { b with banList := r.2 })
  | .add ban => (.unit, { b with banList := b.banList.add ban })
  | .lurkerWork oldest => (.unit, { b with banList := b.banList.lurkerWork oldest })
  | .markCompleted => (.unit, { b with banList := b.banList.markCompleted })

/-- A history from an empty engine without bans. -/
def run (stv : Stevedore σ) (storage : σ) (maxObjects : Nat) (calls : List (VtimReal × BanOp R)) :
    List ((VtimReal × BanOp R) × BanOutcome) × BanningEngine σ R :=
  Lib.record (step lib stv) ⟨.new storage maxObjects, .new⟩ calls

end BanningEngine

/-! ## Bans that take effect -/

structure StoredWith where
  url : String
  headers : HeaderMap

variable (storedWith : ObjCore → StoredWith)

/-- The ban is meant for the object: younger, and it matches. -/
def Ban.Hits (ban : Ban R) (o : ObjCore) : Prop :=
  o.tOrigin < ban.timestamp ∧ ban.matches lib (storedWith o).url (storedWith o).headers.get = true

/-- Past its ttl and its grace: no lookup answers with it. -/
def ObjCore.Lapsed (o : ObjCore) (now : VtimReal) : Prop :=
  o.tOrigin + o.ttl < now ∧ o.tOrigin + o.ttl + o.grace ≤ now

theorem isBanned_iff {l : BanList R} {o : ObjCore} :
    l.isBanned lib o (storedWith o).url (storedWith o).headers.get = true ↔
      ∃ ban ∈ l.bans, ban.Hits lib storedWith o := by
  simp [BanList.isBanned, Ban.Hits]

namespace BanningEngine

/-- All that a ban is meant for has lapsed when it is made. -/
def Harmless (b : BanningEngine σ R) (ban : Ban R) : Prop :=
  ∀ d, ∀ o ∈ b.engine.variants d, ban.Hits lib storedWith o → o.Lapsed ban.timestamp

/-- The clock is not behind a ban when the cache is called, and a new ban is
harmless. -/
def StepOk (b : BanningEngine σ R) (c : VtimReal × BanOp R) : Prop :=
  match c.2 with
  | .cache _ => ∀ ban ∈ b.banList.bans, ban.timestamp ≤ c.1
  | .ban expression => ∀ ban, parseBanExpression lib c.1 expression = .ok ban →
      b.Harmless lib storedWith ban
  | .add ban => b.Harmless lib storedWith ban
  | .lurkerWork _ => True
  | .markCompleted => True

/-- What a history of such steps keeps. -/
structure BansHarmless (stv : Stevedore σ) (b : BanningEngine σ R) : Prop where
  reached : b.engine.Reached stv
  harmless : ∀ ban ∈ b.banList.bans, b.Harmless lib storedWith ban

variable {lib storedWith} {stv : Stevedore σ} {b : BanningEngine σ R}

theorem BansHarmless.add (h : BansHarmless lib storedWith stv b) {ban : Ban R}
    (hban : b.Harmless lib storedWith ban) :
    BansHarmless lib storedWith stv { b with banList := b.banList.add ban } := by
  refine ⟨h.reached, ?_⟩
  intro ban' hmem
  rcases List.mem_append.mp hmem with hmem | hmem
  · exact h.harmless ban' hmem
  · obtain rfl := List.mem_singleton.mp hmem
    exact hban

/-- One step: an object put now is no older than any ban, so only new bans
could do harm. -/
theorem BansHarmless.step (h : BansHarmless lib storedWith stv b) {c : VtimReal × BanOp R}
    (hok : StepOk lib storedWith b c) :
    BansHarmless lib storedWith stv (BanningEngine.step lib stv b c).2 := by
  obtain ⟨time, op⟩ := c
  cases op with
  | cache op =>
    refine ⟨h.reached.step ⟨time, op⟩, ?_⟩
    intro ban hban d o ho hhits
    have heff := step_effect stv h.reached.inv.tracked ⟨time, op⟩
    rcases heff.mem_variants.mp ho with ⟨hput, _⟩ | ⟨hold, _⟩
    · obtain ⟨⟨d', o'⟩, hstored, rfl⟩ := Option.map_eq_some_iff.mp hput
      have hborn := (stored_step hstored).2.2
      have hyoung := hhits.1
      rw [hborn] at hyoung
      exact absurd (hok ban hban) (not_le.mpr hyoung)
    · exact h.harmless ban hban d o hold hhits
  | ban expression =>
    simp only [BanningEngine.step, BanList.addBan]
    cases hparse : parseBanExpression lib time expression with
    | ok ban => exact h.add (hok ban hparse)
    | error e => exact h
  | add ban => exact h.add hok
  | lurkerWork oldest =>
    refine ⟨h.reached, ?_⟩
    intro ban hban
    exact h.harmless ban (List.mem_of_mem_filter hban)
  | markCompleted =>
    refine ⟨h.reached, ?_⟩
    intro ban hban
    obtain ⟨ban', hban', rfl⟩ := List.mem_map.mp hban
    exact h.harmless ban' hban'

/-- **Bans take effect** where each ban is meant only for objects that have
lapsed, and the clock is never behind a ban: no lookup answers with a banned
object. -/
theorem banned_not_answered (lib : RegexLib R) (storedWith : ObjCore → StoredWith)
    (stv : Stevedore σ) (storage : σ) (maxObjects : ℕ) (calls : List (VtimReal × BanOp R))
    (hcalls : Lib.Guarded (step lib stv) (StepOk lib storedWith)
      ⟨.new storage maxObjects, .new⟩ calls) :
    let b := (run lib stv storage maxObjects calls).2
    ∀ now d headers, StepOk lib storedWith b (now, .cache (.lookup d headers)) → ∀ o,
      (b.engine.lookup now d headers).1 = .hit o ∨ (b.engine.lookup now d headers).1 = .grace o →
        b.banList.isBanned lib o (storedWith o).url (storedWith o).headers.get = false := by
  intro b now d headers hclock o hanswer
  have hb : BansHarmless lib storedWith stv b :=
    Lib.guarded_induction (step lib stv) (P := BansHarmless lib storedWith stv)
      (fun _ _ h hok => h.step hok) ⟨⟨storage, maxObjects, [], rfl⟩, by simp [BanList.new]⟩ hcalls
  rw [Bool.eq_false_iff, ne_eq, isBanned_iff]
  intro hbanned
  obtain ⟨ban, hban, hhits⟩ := hbanned
  have htime := hclock ban hban
  simp only [lookup_fst] at hanswer
  rcases hanswer with hhit | hgrace
  · obtain ⟨hmem, _, heval⟩ := scanVariants_hit hhit
    have hfresh := (evaluateObject_hit heval).2
    have hlapsed := (hb.harmless ban hban d o hmem hhits).1
    exact absurd (hlapsed.trans_le htime) (not_lt.mpr hfresh)
  obtain ⟨hmem, ⟨_, heval⟩, _⟩ := scanVariants_grace hgrace
  have hwithin := (evaluateObject_grace heval).2.2
  have hlapsed := (hb.harmless ban hban d o hmem hhits).2
  exact absurd hwithin (not_lt.mpr (hlapsed.trans htime))

/-! ## Two histories -/

def literal : RegexLib String := ⟨.ok, fun re s => re == s⟩

def onePage (_ : ObjCore) : StoredWith := ⟨"/a", .new⟩

def insertPage (time : VtimReal) : VtimReal × BanOp String :=
  (time, .cache (.insert digestZero [104, 105] .default none))

def banPage (time : VtimReal) : VtimReal × BanOp String := (time, .ban "req.url ~ /a")

/-- The page is banned when it has lapsed; the next one is no longer meant. -/
theorem banned_not_answered_lapsed :
    let b := (run literal .unlimited () 10 [insertPage 0, banPage 200, insertPage 250]).2
    let o := newObject 1 250 digestZero [104, 105] .default none
    (b.engine.lookup 260 digestZero none).1 = .hit o ∧
      b.banList.isBanned literal o "/a" HeaderMap.new.get = false := by
  intro b o
  have hhit : (b.engine.lookup 260 digestZero none).1 = .hit o := by decide +kernel
  refine ⟨hhit, banned_not_answered literal onePage .unlimited () 10
    [insertPage 0, banPage 200, insertPage 250] ⟨?_, ?_, ?_, trivial⟩ 260
    digestZero none ?_ o (.inl hhit)⟩
  · intro ban hban
    cases hban
  · -- one object is stored, and it has lapsed
    intro ban hparse d o' ho' _
    cases hparse
    have heff := step_effect (.unlimited : Stevedore Unit)
      (inv_new () 10).tracked ⟨0, .insert digestZero [104, 105] .default none⟩
    rcases heff.mem_variants.mp ho' with ⟨hput, _⟩ | ⟨hold, _⟩
    · cases hput
      constructor <;> decide +kernel
    · cases hold
  · simp only [StepOk, insertPage]
    decide +kernel
  · simp only [StepOk]
    decide +kernel

/-- A page is stored and banned, and the next lookup answers with it. -/
theorem banned_answered : let b := (run literal .unlimited () 10 [insertPage 0, banPage 10]).2
    let o := newObject 0 0 digestZero [104, 105] .default none
    (b.engine.lookup 20 digestZero none).1 = .hit o ∧ o.tOrigin < 10 ∧
      b.banList.isBanned literal o (onePage o).url (onePage o).headers.get = true := by
  decide +kernel

end BanningEngine

end VarahaCache
