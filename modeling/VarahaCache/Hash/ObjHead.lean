import VarahaCache.Lib.Machine
import VarahaCache.Types

/-!
# Object heads and the tables that hold them

`ObjHead` with its reference count, and what the three tables of `rv-hash`
have in common: `lookup` and `deref`, the callers' ledger of references not
yet released, and the finite map the tables stand for. A table that `Refines`
the map answers every permitted sequence of calls as the map does.
-/

namespace VarahaCache

open Function

/-- An `Arc<ObjHead>`: the address of the head, its identity, and the digest,
which never changes. -/
structure ObjHead where
  addr : ℕ
  digest : Digest
deriving DecidableEq

abbrev RefCounts := ObjHead → UInt32

/-- `inc_ref`. The count is an `AtomicU32` and wraps. -/
def incRef (refcnt : RefCounts) (oh : ObjHead) : RefCounts := update refcnt oh (refcnt oh + 1)

/-- `dec_ref`, with the new count. -/
def decRef (refcnt : RefCounts) (oh : ObjHead) : UInt32 × RefCounts :=
  (refcnt oh - 1, update refcnt oh (refcnt oh - 1))

/-- The counts say how many references there are. -/
def Counted (refcnt : RefCounts) (held : ObjHead → ℕ) : Prop :=
  ∀ oh, held oh < 2 ^ 32 ∧ refcnt oh = UInt32.ofNat (held oh)

namespace Counted

variable {refcnt : RefCounts} {held : ObjHead → ℕ} {oh : ObjHead}

theorem toNat (h : Counted refcnt held) (oh : ObjHead) : (refcnt oh).toNat = held oh := by
  rw [(h oh).2, UInt32.toNat_ofNat_of_lt' (h oh).1]

theorem incRef (h : Counted refcnt held) (hlt : held oh + 1 < 2 ^ 32) :
    Counted (VarahaCache.incRef refcnt oh) (update held oh (held oh + 1)) := by
  intro oh'
  by_cases hoh : oh' = oh
  · subst hoh
    rw [update_self, VarahaCache.incRef, update_self, (h oh').2]
    exact ⟨hlt, (UInt32.ofNat_add _ 1).symm⟩
  · rw [update_of_ne hoh, VarahaCache.incRef, update_of_ne hoh]
    exact h oh'

theorem decRef (h : Counted refcnt held) (hpos : 0 < held oh) :
    Counted (VarahaCache.decRef refcnt oh).2 (update held oh (held oh - 1)) := by
  intro oh'
  unfold VarahaCache.decRef
  by_cases hoh : oh' = oh
  · subst hoh
    have hlt := (h oh').1
    dsimp only
    rw [update_self, update_self, (h oh').2]
    exact ⟨by omega, (UInt32.ofNat_sub (show 1 ≤ held oh' from hpos)).symm⟩
  · dsimp only
    rw [update_of_ne hoh, update_of_ne hoh]
    exact h oh'

theorem last_iff (h : Counted refcnt held) (hpos : 0 < held oh) :
    refcnt oh - 1 = 0 ↔ held oh = 1 := by
  have hlt := (h oh).1
  have hcount : refcnt oh - 1 = UInt32.ofNat (held oh - 1) := by
    rw [(h oh).2]
    exact (UInt32.ofNat_sub (show 1 ≤ held oh from hpos)).symm
  rw [hcount, ← UInt32.toNat_inj, UInt32.toNat_ofNat_of_lt' (show held oh - 1 < 2 ^ 32 by omega),
    UInt32.toNat_zero]
  omega

end Counted

structure HashState (τ : Type) where
  table : τ
  refcnt : RefCounts

/-- The `HashSlinger` trait. `lookup` gives the head and, if it did not take
the new one, that back; `deref` says whether the head was removed. -/
structure HashSlinger (τ : Type) where
  lookup : HashState τ → Digest → ObjHead → (ObjHead × Option ObjHead) × HashState τ
  deref : HashState τ → ObjHead → Bool × HashState τ

/-! ## Calls -/

inductive HashCall
  | lookup (digest : Digest) (newOh : ObjHead)
  | deref (oh : ObjHead)

inductive HashAnswer
  | found (oh : ObjHead) (givenBack : Option ObjHead)
  | released (removed : Bool)
deriving DecidableEq

/-- A table and its callers: the references they were given and have not
released. -/
structure HashClient (τ : Type) where
  state : HashState τ
  held : ObjHead → ℕ

variable {τ : Type}

namespace HashClient

def step (slinger : HashSlinger τ) (c : HashClient τ) : HashCall → HashAnswer × HashClient τ
  | .lookup digest newOh =>
    let r := slinger.lookup c.state digest newOh
    (.found r.1.1 r.1.2, ⟨r.2, update c.held r.1.1 (c.held r.1.1 + 1)⟩)
  | .deref oh =>
    let r := slinger.deref c.state oh
    (.released r.1, ⟨r.2, update c.held oh (c.held oh - 1)⟩)

def start (table : τ) : HashClient τ := ⟨⟨table, fun _ => 0⟩, fun _ => 0⟩

/-- A new head is one for the digest looked up, and what is released is still
referenced. -/
def Permitted (c : HashClient τ) : HashCall → Prop
  | .lookup digest newOh => newOh.digest = digest
  | .deref oh => 0 < c.held oh

instance (c : HashClient τ) (call : HashCall) : Decidable (c.Permitted call) :=
  match call with
  | .lookup digest newOh => inferInstanceAs (Decidable (newOh.digest = digest))
  | .deref oh => inferInstanceAs (Decidable (0 < c.held oh))

/-- No head of the digest looked up has as many references as its count can
say. -/
def Countable (c : HashClient τ) : HashCall → Prop
  | .lookup digest _ => ∀ oh, oh.digest = digest → c.held oh + 1 < 2 ^ 32
  | .deref _ => True

end HashClient

/-! ## The finite map -/

/-- The head of each digest, with the references to it. -/
abbrev HeadMap := Digest → Option (ObjHead × ℕ)

namespace HeadMap

/-- The map a table stands for: a lookup raises the count of the head stored
or stores the new head with count one; a release lowers the count and
removes the head when it was the last. -/
def step (m : HeadMap) : HashCall → HashAnswer × HeadMap
  | .lookup digest newOh =>
    match m digest with
    | some (oh, count) =>
      (.found oh (some newOh), update m digest (some (oh, count + 1)))
    | none => (.found newOh none, update m digest (some (newOh, 1)))
  | .deref oh =>
    match m oh.digest with
    | some (_, count + 2) => (.released false, update m oh.digest (some (oh, count + 1)))
    | _ => (.released true, update m oh.digest none)

end HeadMap

/-! ## Refinement -/

/-- A table whose operations are those of a map from digests to heads, which
`contents` reads off. -/
structure Refines (slinger : HashSlinger τ) (inv : τ → Prop)
    (contents : τ → Digest → Option ObjHead) : Prop where
  digest : ∀ {t d oh}, inv t → contents t d = some oh → oh.digest = d
  lookup_hit : ∀ {s d oh} newOh, inv s.table → contents s.table d = some oh →
    slinger.lookup s d newOh = ((oh, some newOh), ⟨s.table, incRef s.refcnt oh⟩)
  lookup_miss : ∀ {s d newOh}, inv s.table → contents s.table d = none → newOh.digest = d →
    ∃ t, slinger.lookup s d newOh = ((newOh, none), ⟨t, incRef s.refcnt newOh⟩) ∧ inv t ∧
      contents t = update (contents s.table) d (some newOh)
  deref_kept : ∀ {s oh}, s.refcnt oh - 1 ≠ 0 →
    slinger.deref s oh = (false, ⟨s.table, (decRef s.refcnt oh).2⟩)
  deref_last : ∀ {s oh}, inv s.table → contents s.table oh.digest = some oh →
    s.refcnt oh - 1 = 0 →
    ∃ t, slinger.deref s oh = (true, ⟨t, (decRef s.refcnt oh).2⟩) ∧ inv t ∧
      contents t = update (contents s.table) oh.digest none

namespace HashClient

variable {slinger : HashSlinger τ} {inv : τ → Prop} {contents : τ → Digest → Option ObjHead}

/-- The counts are the ledger's, and the heads stored are those with a
reference. -/
structure Sound (inv : τ → Prop) (contents : τ → Digest → Option ObjHead) (c : HashClient τ) :
    Prop where
  inv : inv c.state.table
  counted : Counted c.state.refcnt c.held
  stored : ∀ d oh, contents c.state.table d = some oh ↔ oh.digest = d ∧ 0 < c.held oh

/-- The finite map of a client: each head with its reference count. -/
def toMap (contents : τ → Digest → Option ObjHead) (c : HashClient τ) : HeadMap := fun d =>
  (contents c.state.table d).map fun oh => (oh, (c.state.refcnt oh).toNat)

theorem sound_start {table : τ} (hinv : inv table) (hempty : ∀ d, contents table d = none) :
    (start table).Sound inv contents := by
  refine ⟨hinv, fun _ => ⟨by simp [start], rfl⟩, ?_⟩
  intro d oh
  simp [start, hempty]

variable {c : HashClient τ} {oh : ObjHead} {n : ℕ} {d : Digest} {calls : List HashCall}

theorem Sound.toMap_eq (h : c.Sound inv contents) :
    c.toMap contents = fun d => (contents c.state.table d).map fun oh => (oh, c.held oh) := by
  funext d
  simp only [toMap, h.counted.toNat]

theorem Sound.toMap_of_stored (h : c.Sound inv contents)
    (hfound : contents c.state.table d = some oh) : c.toMap contents d = some (oh, c.held oh) := by
  simp [h.toMap_eq, hfound]

theorem Sound.ne_of_digest (h : c.Sound inv contents) {oh' : ObjHead}
    (hd : d ≠ oh.digest) (hstored : contents c.state.table d = some oh') : oh' ≠ oh := by
  rintro rfl
  exact hd ((h.stored d oh').mp hstored).1.symm

/-- The references to one head change. If no other head of its digest has
a reference, and the head is stored exactly when it still has one, the client
stays sound and the map changes at that digest alone. -/
theorem Sound.setHead (h : c.Sound inv contents)
    (halone : ∀ oh', contents c.state.table oh.digest = some oh' → oh' = oh) {t : τ}
    {refcnt : ObjHead → UInt32} (hinv : inv t)
    (hcounted : Counted refcnt (update c.held oh n))
    (hcontents : contents t = update (contents c.state.table) oh.digest
      (if 0 < n then some oh else none)) :
    Sound inv contents ⟨⟨t, refcnt⟩, update c.held oh n⟩ ∧
      toMap contents ⟨⟨t, refcnt⟩, update c.held oh n⟩ =
        update (c.toMap contents) oh.digest (if 0 < n then some (oh, n) else none) := by
  have hsound : Sound inv contents ⟨⟨t, refcnt⟩, update c.held oh n⟩ := by
    refine ⟨hinv, hcounted, fun d' oh' => ?_⟩
    dsimp only
    rw [hcontents]
    by_cases hoh : oh' = oh
    · subst hoh
      by_cases hd : d' = oh'.digest
      · subst hd
        by_cases hn : 0 < n <;> simp [hn]
      · rw [update_of_ne hd, h.stored d' oh']
        simp [Ne.symm hd]
    rw [update_of_ne hoh]
    by_cases hd : d' = oh.digest
    · subst hd
      rw [update_self, ← h.stored]
      -- neither the head itself nor, as it is alone, any other
      refine iff_of_false ?_ fun hstored => hoh (halone oh' hstored)
      split <;> simp [Ne.symm hoh]
    · rw [update_of_ne hd, h.stored d' oh']
  refine ⟨hsound, ?_⟩
  rw [hsound.toMap_eq, h.toMap_eq]
  funext d'
  rw [hcontents]
  by_cases hd : d' = oh.digest
  · subst hd
    by_cases hn : 0 < n <;> simp [hn]
  rw [update_of_ne hd, update_of_ne hd]
  cases hother : contents c.state.table d' with
  | none => rfl
  | some oh' => simp [update_of_ne (h.ne_of_digest hd hother)]

/-- The call is answered as the finite map answers it, and the client stays sound. -/
def Answered (slinger : HashSlinger τ) (inv : τ → Prop) (contents : τ → Digest → Option ObjHead)
    (c : HashClient τ) (call : HashCall) : Prop :=
  (c.step slinger call).2.Sound inv contents ∧
    HeadMap.step (c.toMap contents) call =
      ((c.step slinger call).1, (c.step slinger call).2.toMap contents)

section Calls

variable {c : HashClient τ} {oh newOh : ObjHead} {d : Digest} {call : HashCall} {n : ℕ}

theorem Sound.answered (h : c.Sound inv contents) {a : HashAnswer} {t : τ}
    {refcnt : ObjHead → UInt32}
    (hstep : c.step slinger call = (a, ⟨⟨t, refcnt⟩, update c.held oh n⟩))
    (halone : ∀ oh', contents c.state.table oh.digest = some oh' → oh' = oh) (hinv : inv t)
    (hcounted : Counted refcnt (update c.held oh n))
    (hcontents : contents t = update (contents c.state.table) oh.digest
      (if 0 < n then some oh else none))
    (hanswer : HeadMap.step (c.toMap contents) call = (a,
      update (c.toMap contents) oh.digest (if 0 < n then some (oh, n) else none))) :
    c.Answered slinger inv contents call := by
  obtain ⟨hsound, hmap⟩ := h.setHead halone hinv hcounted hcontents
  rw [Answered, hstep, hmap]
  exact ⟨hsound, hanswer⟩

theorem Sound.alone (hfound : contents c.state.table d = some oh) (oh' : ObjHead)
    (hstored : contents c.state.table d = some oh') : oh' = oh :=
  Option.some.inj (hstored.symm.trans hfound)

theorem Sound.contents_same (hfound : contents c.state.table d = some oh) (hn : 0 < n) :
    contents c.state.table =
      update (contents c.state.table) d (if 0 < n then some oh else none) := by
  rw [if_pos hn, ← hfound, update_eq_self]

theorem Sound.lookup_hit (hr : Refines slinger inv contents) (h : c.Sound inv contents)
    (hfound : contents c.state.table d = some oh) (hlt : c.held oh + 1 < 2 ^ 32) :
    c.Answered slinger inv contents (.lookup d newOh) := by
  obtain ⟨rfl, -⟩ := (h.stored d oh).mp hfound
  refine h.answered (a := .found oh (some newOh)) ?_ (Sound.alone hfound) h.inv
    (h.counted.incRef hlt) (Sound.contents_same hfound (Nat.succ_pos _)) ?_
  · rw [step, hr.lookup_hit newOh h.inv hfound]
  · rw [HeadMap.step, h.toMap_of_stored hfound]
    simp

theorem Sound.lookup_miss (hr : Refines slinger inv contents) (h : c.Sound inv contents)
    (hdigest : newOh.digest = d) (hmissing : contents c.state.table d = none) :
    c.Answered slinger inv contents (.lookup d newOh) := by
  subst hdigest
  -- the new head is not stored, so nobody has a reference to it
  have hfree : c.held newOh = 0 := by
    by_contra hne
    have hstored := (h.stored newOh.digest newOh).mpr ⟨rfl, Nat.pos_of_ne_zero hne⟩
    rw [hmissing] at hstored
    cases hstored
  obtain ⟨t, hlookup, hinv, hcontents⟩ := hr.lookup_miss (s := c.state) h.inv hmissing rfl
  refine h.answered (a := .found newOh none) ?_ ?_ hinv
    (h.counted.incRef (by rw [hfree]; decide)) ?_ ?_
  · rw [step, hlookup]
  · intro oh' hoh'
    rw [hmissing] at hoh'
    cases hoh'
  · rw [hcontents, if_pos (Nat.succ_pos _)]
  · have hat : c.toMap contents newOh.digest = none := by simp [h.toMap_eq, hmissing]
    rw [HeadMap.step, hat]
    simp [hfree]

theorem Sound.deref (hr : Refines slinger inv contents) (h : c.Sound inv contents)
    (hpos : 0 < c.held oh) : c.Answered slinger inv contents (.deref oh) := by
  have hfound := (h.stored oh.digest oh).mpr ⟨rfl, hpos⟩
  by_cases hlast : c.held oh = 1
  · obtain ⟨t, hderef, hinv, hcontents⟩ :=
      hr.deref_last (s := c.state) h.inv hfound ((h.counted.last_iff hpos).mpr hlast)
    refine h.answered (a := .released true) ?_ (Sound.alone hfound) hinv
      (h.counted.decRef hpos) ?_ ?_
    · rw [step, hderef]
    · rw [hcontents, if_neg (by omega)]
    · rw [HeadMap.step, h.toMap_of_stored hfound]
      simp [hlast]
  · refine h.answered (a := .released false) ?_ (Sound.alone hfound) h.inv
      (h.counted.decRef hpos) (Sound.contents_same hfound (by omega)) ?_
    · rw [step, hr.deref_kept (mt (h.counted.last_iff hpos).mp hlast)]
    obtain ⟨count, hheld⟩ : ∃ count, c.held oh = count + 2 := ⟨c.held oh - 2, by omega⟩
    rw [HeadMap.step, h.toMap_of_stored hfound]
    simp [hheld]

theorem Sound.step (hr : Refines slinger inv contents) (h : c.Sound inv contents)
    (hpermitted : c.Permitted call) (hcountable : c.Countable call) :
    c.Answered slinger inv contents call := by
  cases call with
  | lookup d newOh =>
    cases hcontents : contents c.state.table d with
    | some oh => exact h.lookup_hit hr hcontents (hcountable oh (hr.digest h.inv hcontents))
    | none => exact h.lookup_miss hr hpermitted hcontents
  | deref oh => exact h.deref hr hpermitted

end Calls

/-- The calls a run may make: permitted ones, with counts that fit. -/
def Allowed (c : HashClient τ) (call : HashCall) : Prop := c.Permitted call ∧ c.Countable call

/-- A run is answered as the finite map answers it, and ends in its map.
-/
theorem Sound.record (hr : Refines slinger inv contents) (h : c.Sound inv contents)
    (hallowed : Lib.Guarded (HashClient.step slinger) Allowed c calls) :
    (Lib.record (HashClient.step slinger) c calls).2.Sound inv contents ∧
      Lib.record HeadMap.step (c.toMap contents) calls =
        ((Lib.record (HashClient.step slinger) c calls).1,
          (Lib.record (HashClient.step slinger) c calls).2.toMap contents) := by
  induction calls generalizing c with
  | nil => exact ⟨h, rfl⟩
  | cons call calls ih =>
    obtain ⟨hcall, hrest⟩ := hallowed
    obtain ⟨hsound, hmap⟩ := h.step hr hcall.1 hcall.2
    obtain ⟨hfinal, hrun⟩ := ih hsound hrest
    refine ⟨hfinal, ?_⟩
    simp only [Lib.record, hmap, hrun]

theorem held_step_le (c : HashClient τ) (call : HashCall) (hheld : ∀ oh, c.held oh ≤ n)
    (oh : ObjHead) : (c.step slinger call).2.held oh ≤ n + 1 := by
  have hone := hheld oh
  cases call with
  | lookup d newOh | deref oh' =>
    simp only [HashClient.step, update_apply]
    split
    · rename_i heq
      rw [← heq]
      omega
    · omega

theorem guarded_allowed (hheld : ∀ oh, c.held oh ≤ n) (hfew : n + calls.length < 2 ^ 32)
    (hpermitted : Lib.Guarded (HashClient.step slinger) Permitted c calls) :
    Lib.Guarded (HashClient.step slinger) Allowed c calls := by
  induction calls generalizing c n with
  | nil => trivial
  | cons call calls ih =>
    obtain ⟨hcall, hrest⟩ := hpermitted
    rw [List.length_cons] at hfew
    refine ⟨⟨hcall, ?_⟩, ih (held_step_le c call hheld) (by omega) hrest⟩
    cases call with
    | lookup d newOh =>
      intro oh _
      have := hheld oh
      omega
    | deref oh => trivial

section TwoTables

variable {τ' : Type} {slinger' : HashSlinger τ'} {inv' : τ' → Prop}
  {contents' : τ' → Digest → Option ObjHead}

variable {c' : HashClient τ'} {c : HashClient τ}

theorem Sound.toMap_congr (h : c.Sound inv contents) (h' : c'.Sound inv' contents')
    (hheld : c.held = c'.held) : c.toMap contents = c'.toMap contents' := by
  have hsame : ∀ d, contents c.state.table d = contents' c'.state.table d := by
    intro d
    refine Option.ext fun oh => ?_
    rw [h.stored d oh, h'.stored d oh, hheld]
  rw [h.toMap_eq, h'.toMap_eq, hheld]
  funext d
  rw [hsame d]

theorem held_step_congr (hheld : c.held = c'.held)
    {call : HashCall} (hanswer : (c.step slinger call).1 = (c'.step slinger' call).1) :
    (c.step slinger call).2.held = (c'.step slinger' call).2.held := by
  cases call with
  | lookup d newOh =>
    have hoh := (HashAnswer.found.inj hanswer).1
    simp only [HashClient.step, hoh, hheld]
  | deref oh => simp only [HashClient.step, hheld]

theorem Sound.same_answers (hr : Refines slinger inv contents)
    (hr' : Refines slinger' inv' contents')
    (h : c.Sound inv contents) (h' : c'.Sound inv' contents') (hheld : c.held = c'.held)
    {calls : List HashCall} (hallowed : Lib.Guarded (HashClient.step slinger) Allowed c calls) :
    (Lib.record (HashClient.step slinger) c calls).1 =
      (Lib.record (HashClient.step slinger') c' calls).1 := by
  induction calls generalizing c c' with
  | nil => rfl
  | cons call calls ih =>
    obtain ⟨hcall, hrest⟩ := hallowed
    -- whether a call is allowed is read off the ledger
    have hcall' : c'.Allowed call := by
      cases call <;> simpa [Allowed, Permitted, Countable, hheld] using hcall
    obtain ⟨hsound, hmap⟩ := h.step hr hcall.1 hcall.2
    obtain ⟨hsound', hmap'⟩ := h'.step hr' hcall'.1 hcall'.2
    rw [h.toMap_congr h' hheld] at hmap
    have hanswer : (c.step slinger call).1 = (c'.step slinger' call).1 :=
      congrArg Prod.fst (hmap.symm.trans hmap')
    have hrun := ih hsound hsound' (held_step_congr hheld hanswer) hrest
    simp only [Lib.record, hanswer, hrun]

end TwoTables

end HashClient

end VarahaCache
