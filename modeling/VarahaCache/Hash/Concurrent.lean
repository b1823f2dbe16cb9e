import VarahaCache.Hash.Critbit

/-!
# The crit-bit table under many threads

Threads call `CritbitHash::lookup` and `CritbitHash::deref`. A section under
the read or the write lock is one step, and so is the change of a count in
`deref`, which is made outside the lock.
-/

namespace VarahaCache

open Function Lib Vector

inductive InCall
  | idle
  /-- The fast path of a lookup missed. -/
  | inserting (digest : Digest) (newOh : ObjHead)
  /-- A release brought the count to zero. -/
  | removing (oh : ObjHead)
deriving DecidableEq

/-- What a thread does next. -/
inductive ThreadStep
  | lookup (digest : Digest) (newOh : ObjHead)
  | insert
  | release (oh : ObjHead)
  | remove

/-- The table, where each thread is, and the references obtained and not
released. -/
structure Threads (T : Type) where
  shared : HashState CritbitHash
  pending : T → InCall
  refs : List (T × ObjHead)

namespace Threads

variable {T : Type} {s : Threads T} {oh : ObjHead}

def held (s : Threads T) (oh : ObjHead) : ℕ := s.refs.countP (·.2 = oh)

def start : Threads T := ⟨⟨.new, fun _ => 0⟩, fun _ => .idle, []⟩

/-- One step of one thread, with the answer if it ends the call. A thread
looks up a digest with a head made for it, and releases what it holds; any
other step does nothing. -/
def step [DecidableEq T] (s : Threads T) : T × ThreadStep → Option HashAnswer × Threads T
  | (t, .lookup digest newOh) =>
    if s.pending t = .idle ∧ newOh.digest = digest then
      match CritbitHash.readSection s.shared digest newOh with
      | some r => (some (.found r.1.1 r.1.2), ⟨r.2, s.pending, (t, r.1.1) :: s.refs⟩)
      | none => (none, { s with pending := update s.pending t (.inserting digest newOh) })
    else (none, s)
  | (t, .insert) =>
    match s.pending t with
    | .inserting digest newOh =>
      let r := CritbitHash.writeSection s.shared digest newOh
      (some (.found r.1.1 r.1.2), ⟨r.2, update s.pending t .idle, (t, r.1.1) :: s.refs⟩)
    | _ => (none, s)
  | (t, .release oh) =>
    if s.pending t = .idle ∧ (t, oh) ∈ s.refs then
      let r := decRef s.shared.refcnt oh
      let shared : HashState CritbitHash := ⟨s.shared.table, r.2⟩
      let refs := s.refs.erase (t, oh)
      if r.1 = 0 then (none, ⟨shared, update s.pending t (.removing oh), refs⟩)
      else (some (.released false), ⟨shared, s.pending, refs⟩)
    else (none, s)
  | (t, .remove) =>
    match s.pending t with
    | .removing oh =>
      (some (.released true), ⟨CritbitHash.removeSection s.shared oh.digest,
        update s.pending t .idle, s.refs⟩)
    | _ => (none, s)

/-- A head that some thread holds a reference to is the one stored, so two
threads hold the same head for a digest. -/
def OneLiveHead (s : Threads T) : Prop :=
  (∀ t oh, (t, oh) ∈ s.refs → s.shared.table.search oh.digest = some oh) ∧
    ∀ t t' oh oh', (t, oh) ∈ s.refs → (t', oh') ∈ s.refs → oh.digest = oh'.digest → oh = oh'

/-- No thread is between the last release of a head for the digest and its
removal, and its counts do not wrap. -/
def Settled (s : Threads T) (digest : Digest) : Prop :=
  (∀ t oh, s.pending t = .removing oh → oh.digest ≠ digest) ∧
    ∀ oh, oh.digest = digest → s.held oh + 1 < 2 ^ 32

/-- The sections of a lookup find their digest settled. -/
def StepOk (s : Threads T) : T × ThreadStep → Prop
  | (_, .lookup digest _) => s.Settled digest
  | (t, .insert) => ∀ digest newOh, s.pending t = .inserting digest newOh → s.Settled digest
  | _ => True

/-! ## The invariant -/

/-- The heads stored are those with a reference and those about to be
removed. -/
structure Inv (s : Threads T) : Prop where
  wf : s.shared.table.WF
  counted : Counted s.shared.refcnt s.held
  stored : ∀ d oh, s.shared.table.search d = some oh ↔
    oh.digest = d ∧ (0 < s.held oh ∨ ∃ t, s.pending t = .removing oh)
  removing : ∀ t oh, s.pending t = .removing oh → s.held oh = 0
  alone : ∀ t t' oh, s.pending t = .removing oh → s.pending t' = .removing oh → t = t'
  inserting : ∀ t d newOh, s.pending t = .inserting d newOh → newOh.digest = d

theorem inv_start : (start : Threads T).Inv where
  wf := by rintro tree ⟨⟩
  counted oh := ⟨by simp [held, start], rfl⟩
  stored d oh := by simp [start, held, CritbitHash.search, CritbitHash.new]
  removing t oh h := by cases h
  alone t t' oh h := by cases h
  inserting t d newOh h := by cases h

theorem held_pos {t : T} (h : (t, oh) ∈ s.refs) : 0 < s.held oh :=
  List.countP_pos_iff.mpr ⟨(t, oh), h, by simp⟩

theorem held_cons (shared : HashState CritbitHash) (pending : T → InCall) (refs : List (T × ObjHead))
    (t : T) (oh : ObjHead) (shared' : HashState CritbitHash) (pending' : T → InCall) :
    held ⟨shared', pending', (t, oh) :: refs⟩ =
      update (held ⟨shared, pending, refs⟩) oh (held ⟨shared, pending, refs⟩ oh + 1) := by
  funext oh'
  by_cases hoh : oh' = oh
  · subst hoh
    simp [held]
  · simp [held, hoh, Ne.symm hoh]

theorem held_erase [DecidableEq T] {refs : List (T × ObjHead)} {t : T} (h : (t, oh) ∈ refs)
    (shared shared' : HashState CritbitHash) (pending pending' : T → InCall) :
    held ⟨shared', pending', refs.erase (t, oh)⟩ =
      update (held ⟨shared, pending, refs⟩) oh (held ⟨shared, pending, refs⟩ oh - 1) := by
  funext oh'
  by_cases hoh : oh' = oh
  · subst hoh
    simp [held, List.countP_erase, h]
  · simp [held, List.countP_erase, hoh, Ne.symm hoh]

theorem Inv.oneLiveHead (h : s.Inv) : s.OneLiveHead := by
  have hstored : ∀ t oh, (t, oh) ∈ s.refs → s.shared.table.search oh.digest = some oh := by
    intro t oh hmem
    exact (h.stored oh.digest oh).mpr ⟨rfl, .inl (held_pos hmem)⟩
  refine ⟨hstored, ?_⟩
  intro t t' oh oh' hmem hmem' hdigest
  have hfirst := hstored t oh hmem
  have hsecond := hstored t' oh' hmem'
  rw [hdigest, hsecond, Option.some.injEq] at hfirst
  exact hfirst.symm

section Steps

variable {s : Threads T} {t : T} {oh : ObjHead}

variable {pending : T → InCall}

/-- A lookup section that finds or stores a head: one reference more, and the
same removals ahead, none for its digest. -/
theorem Inv.referenced (h : s.Inv) {table : CritbitHash} (hwf : table.WF)
    (htable : table.search = update s.shared.table.search oh.digest (some oh))
    (halone : ∀ oh', s.shared.table.search oh.digest = some oh' → oh' = oh)
    (hsettled : s.Settled oh.digest)
    (hpending : ∀ t oh, pending t = .removing oh ↔ s.pending t = .removing oh)
    (hinserting : ∀ t d newOh, pending t = .inserting d newOh → newOh.digest = d) :
    Inv ⟨⟨table, incRef s.shared.refcnt oh⟩, pending, (t, oh) :: s.refs⟩ := by
  have hheld := held_cons s.shared s.pending s.refs t oh ⟨table, incRef s.shared.refcnt oh⟩ pending
  constructor
  case wf => exact hwf
  case counted =>
    rw [hheld]
    exact h.counted.incRef (hsettled.2 oh rfl)
  case stored =>
    intro d oh'
    rw [hheld]
    rw [htable]
    simp only [hpending]
    by_cases hoh : oh' = oh
    · subst hoh
      by_cases hd : d = oh'.digest
      · simp [hd]
      · rw [update_of_ne hd, h.stored]
        simp [Ne.symm hd]
    rw [update_of_ne hoh]
    by_cases hd : d = oh.digest
    · subst hd
      have hstored := h.stored oh.digest oh'
      rw [update_self, Option.some.injEq]
      exact iff_of_false (Ne.symm hoh) fun hlive => hoh (halone oh' (hstored.mpr hlive))
    · rw [update_of_ne hd, h.stored]
  case removing =>
    intro t' oh' hremoving
    replace hremoving := (hpending t' oh').mp hremoving
    have hne : oh' ≠ oh := fun heq => hsettled.1 t' oh' hremoving (congrArg ObjHead.digest heq)
    rw [hheld, update_of_ne hne]
    exact h.removing t' oh' hremoving
  case alone =>
    intro t₁ t₂ oh' h₁ h₂
    exact h.alone t₁ t₂ oh' ((hpending t₁ oh').mp h₁) ((hpending t₂ oh').mp h₂)
  case inserting => exact hinserting

theorem Inv.found (h : s.Inv) (hfound : s.shared.table.search oh.digest = some oh)
    (hsettled : s.Settled oh.digest)
    (hpending : ∀ t oh, pending t = .removing oh ↔ s.pending t = .removing oh)
    (hinserting : ∀ t d newOh, pending t = .inserting d newOh → newOh.digest = d) :
    Inv ⟨⟨s.shared.table, incRef s.shared.refcnt oh⟩, pending, (t, oh) :: s.refs⟩ := by
  have hsame : s.shared.table.search = update s.shared.table.search oh.digest (some oh) := by
    rw [← hfound, update_eq_self]
  exact h.referenced h.wf hsame (fun oh' hoh' => Option.some.inj (hoh'.symm.trans hfound)) hsettled
    hpending hinserting

variable [DecidableEq T]

theorem removing_update (next : InCall) (hnow : ∀ oh, pending t ≠ .removing oh)
    (hnext : ∀ oh, next ≠ .removing oh) (t' : T) (oh : ObjHead) :
    update pending t next t' = .removing oh ↔ pending t' = .removing oh := by
  by_cases ht : t' = t
  · subst ht
    rw [update_self]
    exact iff_of_false (hnext oh) (hnow oh)
  · rw [update_of_ne ht]

theorem Inv.inserting_update (h : s.Inv) (next : InCall)
    (hnext : ∀ d newOh, next = .inserting d newOh → newOh.digest = d) (t' : T) (d : Digest)
    (newOh : ObjHead) (hinserting : update s.pending t next t' = .inserting d newOh) :
    newOh.digest = d := by
  by_cases ht : t' = t
  · subst ht
    rw [update_self] at hinserting
    exact hnext d newOh hinserting
  · rw [update_of_ne ht] at hinserting
    exact h.inserting t' d newOh hinserting

theorem Inv.lookup (h : s.Inv) {digest : Digest} {newOh : ObjHead} (hsettled : s.Settled digest) :
    (s.step (t, .lookup digest newOh)).2.Inv := by
  rw [step]
  split
  · rename_i hidle
    obtain ⟨hidle, hdigest⟩ := hidle
    unfold CritbitHash.readSection
    cases hsearch : s.shared.table.search digest with
    | some oh =>
      have hoh : oh.digest = digest := ((h.stored digest oh).mp hsearch).1
      subst hoh
      exact h.found hsearch hsettled (fun _ _ => Iff.rfl) h.inserting
    | none =>
      have hnow : ∀ oh, s.pending t ≠ .removing oh := by simp [hidle]
      have hremoving := removing_update (.inserting digest newOh) hnow (by simp)
      exact
        { wf := h.wf
          counted := h.counted
          stored := by simp only [hremoving]; exact h.stored
          removing := by simp only [hremoving]; exact h.removing
          alone := by simp only [hremoving]; exact h.alone
          inserting := h.inserting_update _ (by rintro d newOh ⟨⟩; exact hdigest) }
  · exact h

theorem Inv.insert (h : s.Inv) (hok : s.StepOk (t, .insert)) : (s.step (t, .insert)).2.Inv := by
  rw [step]
  split
  · rename_i digest newOh hpending
    have hsettled := hok digest newOh hpending
    have hdigest := h.inserting t digest newOh hpending
    subst hdigest
    have hnow : ∀ oh, s.pending t ≠ .removing oh := by simp [hpending]
    have hremoving := removing_update .idle hnow (by simp)
    have hinserting := h.inserting_update (t := t) .idle (by simp)
    cases hsearch : s.shared.table.search newOh.digest with
    | some oh =>
      have hoh : oh.digest = newOh.digest := ((h.stored _ oh).mp hsearch).1
      rw [CritbitHash.writeSection_hit hsearch]
      rw [← hoh] at hsearch hsettled
      exact h.found hsearch hsettled hremoving hinserting
    | none =>
      obtain ⟨table, hsection, hwf, htable⟩ := h.wf.writeSection_miss hsearch
      have halone : ∀ oh', s.shared.table.search newOh.digest = some oh' → oh' = newOh := by
        rw [hsearch]
        rintro oh' ⟨⟩
      rw [hsection]
      exact h.referenced hwf htable halone hsettled hremoving hinserting
  · exact h

theorem Inv.release_kept (h : s.Inv) (hmem : (t, oh) ∈ s.refs) (hmore : 1 < s.held oh) :
    Inv ⟨⟨s.shared.table, (decRef s.shared.refcnt oh).2⟩, s.pending, s.refs.erase (t, oh)⟩ := by
  have hheld := held_erase hmem s.shared ⟨s.shared.table, (decRef s.shared.refcnt oh).2⟩
    s.pending s.pending
  constructor
  case wf => exact h.wf
  case counted =>
    rw [hheld]
    exact h.counted.decRef (held_pos hmem)
  case stored =>
    intro d oh'
    rw [hheld]
    rw [h.stored d oh']
    by_cases hoh : oh' = oh
    · subst hoh
      have hstill : 0 < s.held oh' - 1 := by omega
      rw [update_self]
      simp only [held_pos hmem, true_or, and_true]
      exact (and_iff_left (.inl hstill)).symm
    · rw [update_of_ne hoh]
  case removing =>
    intro t' oh' hremoving
    have hzero := h.removing t' oh' hremoving
    have hne : oh' ≠ oh := by
      rintro rfl
      omega
    rw [hheld, update_of_ne hne]
    exact hzero
  case alone => exact h.alone
  case inserting => exact h.inserting

theorem Inv.release_last (h : s.Inv) (hidle : s.pending t = .idle) (hmem : (t, oh) ∈ s.refs)
    (hlast : s.held oh = 1) :
    Inv ⟨⟨s.shared.table, (decRef s.shared.refcnt oh).2⟩,
      update s.pending t (.removing oh), s.refs.erase (t, oh)⟩ := by
  have hheld := held_erase hmem s.shared ⟨s.shared.table, (decRef s.shared.refcnt oh).2⟩
    s.pending (update s.pending t (.removing oh))
  -- a head with a reference is not about to be removed yet
  have hnone : ∀ t', s.pending t' ≠ .removing oh := by
    intro t' hremoving
    have := h.removing t' oh hremoving
    omega
  have hremoving : ∀ t' oh', update s.pending t (.removing oh) t' = .removing oh' ↔
      t' = t ∧ oh' = oh ∨ s.pending t' = .removing oh' := by
    intro t' oh'
    by_cases ht : t' = t
    · subst ht
      simp [hidle, eq_comm]
    · simp [ht]
  constructor
  case wf => exact h.wf
  case counted =>
    rw [hheld]
    exact h.counted.decRef (held_pos hmem)
  case stored =>
    intro d oh'
    rw [hheld]
    rw [h.stored d oh']
    simp only [hremoving]
    by_cases hoh : oh' = oh
    · subst hoh
      simp [held_pos hmem]
    · simp [hoh]
  case removing =>
    intro t' oh' hremoving'
    rw [hheld]
    rcases (hremoving t' oh').mp hremoving' with ⟨-, rfl⟩ | hbefore
    · rw [update_self]
      exact Nat.sub_eq_zero_of_le (Nat.le_of_eq hlast)
    have hne : oh' ≠ oh := by
      rintro rfl
      exact hnone t' hbefore
    rw [update_of_ne hne]
    exact h.removing t' oh' hbefore
  case alone =>
    intro t₁ t₂ oh' h₁ h₂
    rcases (hremoving t₁ oh').mp h₁ with ⟨rfl, rfl⟩ | hbefore₁
    · rcases (hremoving t₂ oh').mp h₂ with ⟨rfl, -⟩ | hbefore₂
      · rfl
      · exact absurd hbefore₂ (hnone t₂)
    rcases (hremoving t₂ oh').mp h₂ with ⟨rfl, rfl⟩ | hbefore₂
    · exact absurd hbefore₁ (hnone t₁)
    · exact h.alone t₁ t₂ oh' hbefore₁ hbefore₂
  case inserting => exact h.inserting_update _ (by simp)

theorem Inv.release (h : s.Inv) : (s.step (t, .release oh)).2.Inv := by
  rw [step]
  split
  · rename_i hcall
    obtain ⟨hidle, hmem⟩ := hcall
    have hpos := held_pos hmem
    have hlast : (decRef s.shared.refcnt oh).1 = 0 ↔ s.held oh = 1 := h.counted.last_iff hpos
    dsimp only
    split
    · rename_i hzero
      exact h.release_last hidle hmem (hlast.mp hzero)
    rename_i hmore
    rw [hlast] at hmore
    exact h.release_kept hmem (by omega)
  · exact h

theorem Inv.remove (h : s.Inv) : (s.step (t, .remove)).2.Inv := by
  rw [step]
  split
  · rename_i oh hpending
    obtain ⟨table, hsection, hwf, htable⟩ := h.wf.removeSection oh.digest
    have hzero := h.removing t oh hpending
    have hfound := (h.stored oh.digest oh).mpr ⟨rfl, .inr ⟨t, hpending⟩⟩
    have hremoving : ∀ t' oh', update s.pending t .idle t' = .removing oh' ↔
        t' ≠ t ∧ s.pending t' = .removing oh' := by
      intro t' oh'
      by_cases ht : t' = t
      · simp [ht]
      · simp [ht]
    rw [hsection]
    constructor
    case wf => exact hwf
    case counted => exact h.counted
    case stored =>
      intro d oh'
      rw [htable]
      simp only [hremoving]
      by_cases hd : d = oh.digest
      · subst hd
        rw [update_self]
        refine iff_of_false (by simp) ?_
        rintro ⟨hdigest, hlive⟩
        -- the head stored for the digest is the one removed
        have hsame : oh' = oh := by
          have hstored := (h.stored oh.digest oh').mpr
            ⟨hdigest, hlive.imp id fun ⟨t', ht⟩ => ⟨t', ht.2⟩⟩
          rw [hfound, Option.some.injEq] at hstored
          exact hstored.symm
        subst hsame
        rcases hlive with hpos | ⟨t', hne, hother⟩
        · exact absurd hzero hpos.ne'
        · exact hne (h.alone t' t oh' hother hpending)
      · rw [update_of_ne hd, h.stored]
        refine and_congr_right fun hdigest => or_congr_right (exists_congr fun t' => ?_)
        refine ⟨fun hother => ⟨?_, hother⟩, And.right⟩
        rintro rfl
        rw [hpending, InCall.removing.injEq] at hother
        exact hd (hdigest.symm.trans (congrArg ObjHead.digest hother.symm))
    case removing =>
      intro t' oh' hother
      exact h.removing t' oh' ((hremoving t' oh').mp hother).2
    case alone =>
      intro t₁ t₂ oh' h₁ h₂
      exact h.alone t₁ t₂ oh' ((hremoving t₁ oh').mp h₁).2 ((hremoving t₂ oh').mp h₂).2
    case inserting => exact h.inserting_update _ (by simp)
  · exact h

/-- A step keeps the invariant if the sections of lookups find their
digests settled. -/
theorem Inv.step (h : s.Inv) {l : T × ThreadStep} (hok : s.StepOk l) : (s.step l).2.Inv := by
  obtain ⟨t, a⟩ := l
  cases a with
  | lookup digest newOh => exact h.lookup hok
  | insert => exact h.insert hok
  | release oh => exact h.release
  | remove => exact h.remove

end Steps

/-- **One live head per digest**, in every interleaving in which no section of
a lookup runs between the last release of a head for its digest and its
removal, and no count wraps. -/
theorem oneLiveHead_of_settled [DecidableEq T] (steps : List (T × ThreadStep))
    (hsteps : Guarded Threads.step StepOk start steps) :
    (record Threads.step start steps).2.OneLiveHead := by
  have hinv : (record Threads.step start steps).2.Inv :=
    guarded_induction Threads.step (P := Inv) (fun _ _ h hok => h.step hok) inv_start hsteps
  exact hinv.oneLiveHead

/-- One thread looks a digest up and releases it, the other looks it up when
it is gone. -/
def taken : List (Bool × ThreadStep) :=
  [(true, .lookup ⟨replicate 32 2⟩ ⟨1, ⟨replicate 32 2⟩⟩), (true, .insert),
    (true, .release ⟨1, ⟨replicate 32 2⟩⟩), (true, .remove),
    (false, .lookup ⟨replicate 32 2⟩ ⟨2, ⟨replicate 32 2⟩⟩), (false, .insert)]

theorem settled_of_few (newOh : ObjHead)
    (hpending : ∀ t, s.pending t = .idle ∨ s.pending t = .inserting newOh.digest newOh)
    (hfew : s.refs.length + 1 < 2 ^ 32) (digest : Digest) : s.Settled digest := by
  constructor
  · intro t oh hremoving
    rcases hpending t with h | h <;> rw [h] at hremoving <;> cases hremoving
  intro oh _
  have hle : s.held oh ≤ s.refs.length := List.countP_le_length
  omega

theorem oneLiveHead_of_settled_taken :
    Guarded Threads.step StepOk start taken ∧ (record Threads.step start taken).2.OneLiveHead := by
  have hsteps : Guarded Threads.step StepOk start taken :=
    ⟨settled_of_few ⟨1, ⟨replicate 32 2⟩⟩ (by decide +kernel) (by decide +kernel) _,
      fun digest _ _ =>
        settled_of_few ⟨1, ⟨replicate 32 2⟩⟩ (by decide +kernel) (by decide +kernel) digest,
      trivial, trivial,
      settled_of_few ⟨2, ⟨replicate 32 2⟩⟩ (by decide +kernel) (by decide +kernel) _,
      fun digest _ _ =>
        settled_of_few ⟨2, ⟨replicate 32 2⟩⟩ (by decide +kernel) (by decide +kernel) digest,
      trivial⟩
  exact ⟨hsteps, oneLiveHead_of_settled taken hsteps⟩

/-- The other lookup falls between the release and the removal, and then the
first thread looks the digest up again. -/
def overtaken : List (Bool × ThreadStep) :=
  [(true, .lookup ⟨replicate 32 2⟩ ⟨1, ⟨replicate 32 2⟩⟩), (true, .insert),
    (true, .release ⟨1, ⟨replicate 32 2⟩⟩),
    (false, .lookup ⟨replicate 32 2⟩ ⟨2, ⟨replicate 32 2⟩⟩), (true, .remove),
    (true, .lookup ⟨replicate 32 2⟩ ⟨3, ⟨replicate 32 2⟩⟩), (true, .insert)]

/-- **A head is removed from under a thread that holds it**, and two threads
hold different heads. -/
theorem not_oneLiveHead_overtaken : (false, (⟨1, ⟨replicate 32 2⟩⟩ : ObjHead)) ∈
        (record Threads.step start overtaken).2.refs ∧
      (true, (⟨3, ⟨replicate 32 2⟩⟩ : ObjHead)) ∈
        (record Threads.step start overtaken).2.refs ∧
      ¬ (record Threads.step start overtaken).2.OneLiveHead := by
  have hold : (false, (⟨1, ⟨replicate 32 2⟩⟩ : ObjHead)) ∈
      (record Threads.step start overtaken).2.refs := by decide +kernel
  have hnew : (true, (⟨3, ⟨replicate 32 2⟩⟩ : ObjHead)) ∈
      (record Threads.step start overtaken).2.refs := by decide +kernel
  refine ⟨hold, hnew, fun h => ?_⟩
  have hsame := h.2 _ _ _ _ hold hnew rfl
  revert hsame
  decide

end Threads

end VarahaCache
