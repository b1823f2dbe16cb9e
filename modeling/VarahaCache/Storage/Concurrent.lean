import VarahaCache.Storage.Bodies

/-!
# The persistent store under many threads

Threads call the operations of `PersistentStevedore`, each for digests of its
own. A section under a lock is one step. The slab number found in one section
is used in the next, and nothing keeps the slab in between: another allocation
may choose it, and a compaction may renumber it.

Beside every byte of the file stands the digest an extension last wrote it
for. The program does not keep that.
-/

namespace VarahaCache

open Blocks Words Function List Lib Option
open PersistentStevedore (create)

namespace PersistentStevedore

/-! ## Sections -/

/-- The second section of `alloc_obj`: the slab chosen is taken; none where
the program panics. -/
def takeSlab (s : PersistentStevedore) (slabIdx : ℕ) (digest : Digest) :
    Option (SlabEntry × PersistentStevedore) :=
  (s.allocations[slabIdx]?).map fun slab =>
    let slab := { slab with inUse := true, digest := digest, bodyLen := 0 }
    (slab, { s with
      allocations := s.allocations.set slabIdx slab
      usedSize := wrappingAdd 64 s.usedSize slab.size })

def recordSlab (s : PersistentStevedore) (slab : SlabEntry) : PersistentStevedore :=
  { s with mmap := writeSlabEntry s.mmap slab }

/-- The sections that change the index. -/
def setIndex (s : PersistentStevedore) (digest : Digest) (slabIdx : Option ℕ) :
    PersistentStevedore :=
  { s with digestIndex := update s.digestIndex digest slabIdx }

/-- The second section of `free_obj`; none when there is no such slab. -/
def releaseSlab (s : PersistentStevedore) (slabIdx : ℕ) :
    Option (SlabEntry × PersistentStevedore) :=
  (s.allocations[slabIdx]?).map fun slab =>
    let freed := slab.size
    let slab := { slab with inUse := false, bodyLen := 0 }
    (slab, { s with
      allocations := s.allocations.set slabIdx slab
      usedSize := wrappingSub 64 s.usedSize freed })

/-- The second section of `extend`, with the bytes it wrote. -/
def extendSlab (s : PersistentStevedore) (slabIdx : ℕ) (data : List UInt8) :
    Except StorageError Unit × List ByteRange × PersistentStevedore :=
  match s.allocations[slabIdx]? with
  | none => (.error .notFound, [], s)
  | some slab =>
    let writeOffset := wrappingAdd 64 slab.offset slab.bodyLen
    let writeEnd := wrappingAdd 64 writeOffset data.length
    if slab.stop < writeEnd then (.error .full, [], s)
    else
      (.ok (), [⟨writeOffset, data.length⟩],
        { s with
          mmap := write s.mmap writeOffset data
          allocations := s.allocations.set slabIdx
            { slab with bodyLen := wrappingAdd 64 slab.bodyLen data.length } })

/-- The second section of `get_body`: where the body is, if there is one. -/
def bodyRange (s : PersistentStevedore) (slabIdx : ℕ) : Option ByteRange :=
  match s.allocations[slabIdx]? with
  | none => none
  | some slab => if slab.bodyLen = 0 then none else some ⟨slab.offset, slab.bodyLen⟩

variable {β : Type}

/-- What moving one slab does to marks on the bytes: they move along. -/
def Compaction.carry (c : Compaction) (marks : ℕ → β) (idx : ℕ) : ℕ → β :=
  match c.allocs[idx]? with
  | none => marks
  | some slab =>
    if c.nextOffset ≠ slab.offset ∧ 0 < slab.bodyLen then
      move marks slab.offset c.nextOffset slab.bodyLen
    else marks

def Compaction.carryAll : List ℕ → Compaction → (ℕ → β) → ℕ → β
  | [], _, marks => marks
  | idx :: rest, c, marks => carryAll rest (c.moveSlab idx) (c.carry marks idx)

def compactMarks (s : PersistentStevedore) (marks : ℕ → β) : ℕ → β :=
  Compaction.carryAll ((inUseByOffset s.allocations).map Prod.snd)
    ⟨s.mmap, s.allocations, dataRegionOffset, []⟩ marks

/-! ## Marks along a compaction -/

/-- The marks in the middle of the loop: those of the slabs moved are at their
new places. -/
structure Carried (marks₀ : ℕ → β) (done rest : List (SlabEntry × ℕ)) (c : Compaction)
    (marks : ℕ → β) : Prop where
  placed : ∀ p ∈ done, ∀ slab : SlabEntry, c.allocs[p.2]? = some slab →
    read marks slab.offset p.1.bodyLen = read marks₀ p.1.offset p.1.bodyLen
  kept : ∀ p ∈ rest, read marks p.1.offset p.1.bodyLen = read marks₀ p.1.offset p.1.bodyLen

section Loop

variable {orig : List SlabEntry} {m₀ : ℕ → UInt8} {totalSize : ℕ} {done rest : List (SlabEntry × ℕ)}
  {p : SlabEntry × ℕ} {c : Compaction} {marks₀ marks : ℕ → β}

theorem Carried.moveSlab (hmovable : Movable orig totalSize (done ++ p :: rest))
    (htotal : totalSize < 2 ^ 63) (hloop : Compacting orig m₀ totalSize done (p :: rest) c)
    (h : Carried marks₀ done (p :: rest) c marks) :
    Carried marks₀ (done ++ [p]) rest (c.moveSlab p.2) (c.carry marks p.2) := by
  have hnew := hmovable.ne_index
  have hafter := hmovable.le_offset
  obtain ⟨slab, idx⟩ := p
  have hmem : (slab, idx) ∈ done ++ (slab, idx) :: rest := by simp
  have hin := hmovable.inside _ hmem
  have hbody := hmovable.body _ hmem
  have hnext := hloop.ahead _ (mem_cons_self ..)
  dsimp only at hin hbody hnext hnew hafter
  have hslab : c.allocs[idx]? = some slab := by
    rw [hloop.pending idx hnew]
    exact hmovable.listed _ hmem
  have hlt := (List.getElem?_eq_some_iff.mp hslab).1
  rw [moveSlab_eq hslab (alignUp_le (hmovable.aligned _ hmem).2 hbody (by omega)) (by omega),
    Compaction.carry]
  simp only [hslab]
  constructor
  case placed =>
    simp only [forall_mem_append, forall_mem_singleton]
    constructor
    · intro q hq slab' hslab'
      rw [getElem?_set_ne (Ne.symm (hnew q hq))] at hslab'
      obtain ⟨o, hat, -, -, -, hend, -⟩ := hloop.placed q hq
      have hbody' := hmovable.body q (mem_append_left _ hq)
      rw [← h.placed q hq slab' hslab']
      rw [hat, some.injEq] at hslab'
      subst hslab'
      exact read_slide_of_apart (.inl (by dsimp only; omega))
    · intro slab' hslab'
      rw [getElem?_set_self hlt, some.injEq] at hslab'
      subst hslab'
      rw [read_slide]
      exact h.kept _ (mem_cons_self ..)
  case kept =>
    intro q hq
    have := hafter q hq
    rw [read_slide_of_apart (.inr (by omega))]
    exact h.kept q (mem_cons_of_mem _ hq)

theorem Carried.loop (hmovable : Movable orig totalSize (done ++ rest))
    (htotal : totalSize < 2 ^ 63) (hloop : Compacting orig m₀ totalSize done rest c)
    (h : Carried marks₀ done rest c marks) :
    Carried marks₀ (done ++ rest) [] ((rest.map Prod.snd).foldl Compaction.moveSlab c)
      (Compaction.carryAll (rest.map Prod.snd) c marks) := by
  induction rest generalizing done c marks with
  | nil =>
    rw [append_nil]
    exact h
  | cons p rest ih =>
    have hsplit : done ++ p :: rest = done ++ [p] ++ rest := by simp
    have hnext := h.moveSlab hmovable htotal hloop
    have hloop' := hloop.moveSlab hmovable htotal
    rw [hsplit] at hmovable ⊢
    exact ih hmovable hloop' hnext

end Loop

variable {s : PersistentStevedore}

def Marked (marks : ℕ → Option Digest) (allocs : List SlabEntry) : Prop :=
  ∀ slab ∈ allocs, read marks slab.offset slab.bodyLen = replicate slab.bodyLen (some slab.digest)

variable {marks : ℕ → Option Digest} {slab : SlabEntry} {i : ℕ} {d : Digest}

/-- Compaction carries the marks with the bodies. -/
theorem Marked.compact (h : Marked marks s.allocations) (hinv : s.Inv) :
    Marked (s.compactMarks marks) s.compact.2.allocations := by
  have hloop := hinv.compacting
  have hstart : Carried marks [] (inUseByOffset s.allocations)
      ⟨s.mmap, s.allocations, dataRegionOffset, []⟩ marks := ⟨by simp, fun _ _ => rfl⟩
  have hcarried : Carried marks (inUseByOffset s.allocations) [] s.compacted
      (s.compactMarks marks) := hstart.loop hinv.movable hinv.room.2 hinv.startCompacting
  intro slab hmem
  rw [compact_eq] at hmem
  generalize s.compacted = c at hloop hcarried hmem
  obtain ⟨k, hk⟩ := getElem?_of_mem hmem
  rw [getElem?_mapIdx, map_eq_some_iff] at hk
  obtain ⟨active, hactive, rfl⟩ := hk
  obtain ⟨hin, hinUse⟩ := mem_filter.mp (mem_of_getElem? hactive)
  obtain ⟨i, hi⟩ := getElem?_of_mem hin
  obtain ⟨p, hp, rfl, o, rfl, -⟩ := hloop.inUse hi hinUse
  have hplaced := hcarried.placed p hp _ hi
  have hbefore := h p.1 (mem_of_getElem? (mem_inUseByOffset.mp hp).1)
  rw [hbefore] at hplaced
  exact hplaced

/-! ## The invariant through the sections -/

theorem allocNewSlab_eq_ok {size i : ℕ} {t : PersistentStevedore}
    (ht : s.allocNewSlab size = .ok (t, i)) :
    i = s.allocations.length ∧ t.digestIndex = s.digestIndex ∧
      ∃ slab : SlabEntry, t.allocations = s.allocations ++ [slab] ∧ slab.inUse = false ∧
        slab.bodyLen = 0 := by
  unfold allocNewSlab at ht
  dsimp only at ht
  split at ht
  · cases ht
  split at ht
  · cases ht
  · cases ht
    exact ⟨rfl, rfl, _, rfl, rfl, rfl⟩

theorem Inv.recordSlab (h : s.Inv) (slab : SlabEntry) : (s.recordSlab slab).Inv :=
  ⟨⟨h.aligned, h.apart, h.inside, h.body, h.used⟩, h.room, h.positive, h.numbered, h.few, h.indexed⟩

theorem Inv.setIndex (h : s.Inv) {slabIdx : Option ℕ}
    (hslab : ∀ i, slabIdx = some i → s.InUseFor d i) : (s.setIndex d slabIdx).Inv :=
  h.reindex s.mmap hslab

theorem extend_eq_extendSlab (hindex : s.digestIndex d = some i)
    (data : List UInt8) : s.extend d data = s.extendSlab i data := by
  rw [PersistentStevedore.extend, hindex]
  rfl

theorem Marked.setEmpty {allocs : List SlabEntry} (h : Marked marks allocs)
    (hempty : slab.bodyLen = 0) : Marked marks (allocs.set i slab) := by
  intro slab' hmem
  rcases mem_or_eq_of_mem_set hmem with hmem | rfl
  · exact h slab' hmem
  · rw [hempty]
    rfl

theorem Marked.extend (h : Marked marks s.allocations) (hinv : s.Inv)
    (hslab : s.allocations[i]? = some slab) {len : ℕ} (hfit : slab.bodyLen + len ≤ slab.size) :
    Marked (write marks (slab.offset + slab.bodyLen) (replicate len (some slab.digest)))
      (s.allocations.set i { slab with bodyLen := slab.bodyLen + len }) := by
  intro slab' hmem
  obtain ⟨j, hj⟩ := getElem?_of_mem hmem
  rcases getElem?_set_cases hj with ⟨rfl, rfl⟩ | ⟨hij, hj⟩
  · have hself : read (write marks (slab.offset + slab.bodyLen)
        (replicate len (some slab.digest))) (slab.offset + slab.bodyLen) len =
        replicate len (some slab.digest) := by
      have hall : read (write marks (slab.offset + slab.bodyLen)
          (replicate len (some slab.digest))) (slab.offset + slab.bodyLen)
          (replicate len (some slab.digest)).length = _ := read_write_self
      rwa [length_replicate] at hall
    rw [read_append, read_write_of_apart (.inl (Nat.le_refl _)), hself,
      h slab (mem_of_getElem? hslab), replicate_append_replicate]
  · have hbody := hinv.body slab' (mem_of_getElem? hj)
    rw [← h slab' (mem_of_getElem? hj)]
    refine read_write_of_apart ?_
    rw [length_replicate]
    rcases hinv.apart_of_ne hslab hj hij with hapart | hapart <;> omega

end PersistentStevedore

/-! ## Threads -/

inductive StorePhase
  | idle
  /-- An allocation found no free slab. -/
  | growing (digest : Digest) (required : ℕ)
  /-- An allocation has chosen a slab, then taken it, then recorded it. -/
  | taking (digest : Digest) (slabIdx : ℕ)
  | recording (digest : Digest) (slabIdx : ℕ) (slab : SlabEntry)
  | indexing (digest : Digest) (slabIdx : ℕ)
  /-- A free has taken the digest out of the index, then released its slab. -/
  | releasing (digest : Digest) (slabIdx : ℕ)
  | wiping (slab : SlabEntry)
  /-- An extension, or a read, has found the slab of the digest. -/
  | writing (digest : Digest) (slabIdx : ℕ) (data : List UInt8)
  | reading (digest : Digest) (slabIdx : ℕ)
  /-- An index out of range: the thread has panicked. -/
  | stopped
deriving DecidableEq

/-- The slab number a thread carries from one section to the next. -/
def StorePhase.slabIdx : StorePhase → Option ℕ
  | .taking _ i | .recording _ i _ | .indexing _ i | .releasing _ i | .writing _ i _
  | .reading _ i => some i
  | .idle | .growing _ _ | .wiping _ | .stopped => none

inductive StoreStep
  | allocObj (digest : Digest) (sizeHint : ℕ)
  | extend (digest : Digest) (data : List UInt8)
  | freeObj (digest : Digest)
  | getBody (digest : Digest)
  | compact
  | next

/-- What a call answers. A body comes with the digests its bytes were written
for. -/
inductive StoreReply
  | done (result : Except StorageError Unit)
  | body (digest : Digest) (bytes : Option (List UInt8)) (writers : List (Option Digest))
deriving DecidableEq

/-- The store, the digests its bytes were written for, and where each thread
is. -/
structure StoreThreads (T : Type) where
  store : PersistentStevedore
  writer : ℕ → Option Digest
  phase : T → StorePhase

namespace StoreThreads

variable {T : Type}

def start (store : PersistentStevedore) : StoreThreads T := ⟨store, fun _ => none, fun _ => .idle⟩

/-- The store changed by a step of one thread, and where that thread is now. -/
def moved [DecidableEq T] (s : StoreThreads T) (t : T) (store : PersistentStevedore) (phase : StorePhase) :
    StoreThreads T :=
  { s with store := store, phase := update s.phase t phase }

def proceed [DecidableEq T] (s : StoreThreads T) (t : T) : Option StoreReply × StoreThreads T :=
  match s.phase t with
  | .idle | .stopped => (none, s)
  | .growing digest required =>
    match s.store.allocNewSlab required with
    | .ok (store, slabIdx) => (none, s.moved t store (.taking digest slabIdx))
    | .error e => (some (.done (.error e)), s.moved t s.store .idle)
  | .taking digest slabIdx =>
    match s.store.takeSlab slabIdx digest with
    | some (slab, store) => (none, s.moved t store (.recording digest slabIdx slab))
    | none => (none, s.moved t s.store .stopped)
  | .recording digest slabIdx slab =>
    (none, s.moved t (s.store.recordSlab slab) (.indexing digest slabIdx))
  | .indexing digest slabIdx =>
    (some (.done (.ok ())), s.moved t (s.store.setIndex digest (some slabIdx)) .idle)
  | .releasing _ slabIdx =>
    match s.store.releaseSlab slabIdx with
    | some (slab, store) => (none, s.moved t store (.wiping slab))
    | none => (some (.done (.ok ())), s.moved t s.store .idle)
  | .wiping slab => (some (.done (.ok ())), s.moved t (s.store.recordSlab slab) .idle)
  | .writing digest slabIdx data =>
    let (result, touched, store) := s.store.extendSlab slabIdx data
    (some (.done result), { s.moved t store .idle with
      writer := touched.foldl (fun writer range =>
        write writer range.start (replicate range.len (some digest))) s.writer })
  | .reading digest slabIdx =>
    let range := s.store.bodyRange slabIdx
    (some (.body digest (range.map fun r => read s.store.mmap r.start r.len)
      (range.elim [] fun r => read s.writer r.start r.len)), s.moved t s.store .idle)

/-- One step of one thread, with the answer if it ends a call. A thread begins
a call when it is in none, and for a digest of its own; `compact` holds all
locks and is one section. -/
def step [DecidableEq T] (home : Digest → T) (s : StoreThreads T) :
    T × StoreStep → Option StoreReply × StoreThreads T
  | (t, .allocObj digest sizeHint) =>
    if s.phase t = .idle ∧ home digest = t then
      let required := max sizeHint 64
      match s.store.findFreeSlab required with
      | some slabIdx => (none, s.moved t s.store (.taking digest slabIdx))
      | none => (none, s.moved t s.store (.growing digest required))
    else (none, s)
  | (t, .extend digest data) =>
    if s.phase t = .idle ∧ home digest = t then
      match s.store.digestIndex digest with
      | some slabIdx => (none, s.moved t s.store (.writing digest slabIdx data))
      | none => (some (.done (.error .notFound)), s)
    else (none, s)
  | (t, .freeObj digest) =>
    if s.phase t = .idle ∧ home digest = t then
      match s.store.digestIndex digest with
      | some slabIdx =>
        (none, s.moved t (s.store.setIndex digest none) (.releasing digest slabIdx))
      | none => (some (.done (.ok ())), s)
    else (none, s)
  | (t, .getBody digest) =>
    if s.phase t = .idle ∧ home digest = t then
      match s.store.digestIndex digest with
      | some slabIdx => (none, s.moved t s.store (.reading digest slabIdx))
      | none => (some (.body digest none []), s)
    else (none, s)
  | (t, .compact) =>
    if s.phase t = .idle then
      (some (.done (.ok ())), { s with
        store := s.store.compact.2
        writer := s.store.compactMarks s.writer })
    else (none, s)
  | (t, .next) => s.proceed t

theorem proceed_of_ended [DecidableEq T] (s : StoreThreads T) (t : T)
    (hended : s.phase t = .idle ∨ s.phase t = .stopped) : s.proceed t = (none, s) := by
  rcases hended with hended | hended <;> simp only [proceed, hended]

/-! ## Isolation -/

def Isolated (s : StoreThreads T) : Prop :=
  ∀ d d' i, s.store.digestIndex d = some i → s.store.digestIndex d' = some i → d = d'

/-- A body has no byte that was written for another digest. -/
def OwnBytes : Option StoreReply → Prop
  | some (.body digest _ writers) => ∀ d, some d ∈ writers → d = digest
  | _ => True

/-- The slab that a thread has chosen and not taken yet. -/
def chosen (s : StoreThreads T) (t : T) : Option ℕ :=
  match s.phase t with
  | .taking _ slabIdx => some slabIdx
  | _ => none

/-- The lengths are those of byte slices. An allocation finds every slab that
another thread has chosen, and not taken yet, too small for it; and the store
is compacted when no thread carries a slab number. -/
def StepOk (s : StoreThreads T) : T × StoreStep → Prop
  | (_, .allocObj _ sizeHint) => sizeHint < 2 ^ 63 ∧
      ∀ t, ∀ i ∈ s.chosen t, ∀ slab ∈ s.store.allocations[i]?, slab.size < max sizeHint 64
  | (_, .extend _ data) => data.length < 2 ^ 63
  | (_, .compact) => ∀ t, (s.phase t).slabIdx = none
  | _ => True

instance [Fintype T] (s : StoreThreads T) (l : T × StoreStep) : Decidable (StepOk s l) :=
  match l with
  | (_, .allocObj _ sizeHint) => inferInstanceAs (Decidable (sizeHint < 2 ^ 63 ∧
      ∀ t, ∀ i ∈ s.chosen t, ∀ slab ∈ s.store.allocations[i]?, slab.size < max sizeHint 64))
  | (_, .extend _ data) => inferInstanceAs (Decidable (data.length < 2 ^ 63))
  | (_, .compact) => inferInstanceAs (Decidable (∀ t, (s.phase t).slabIdx = none))
  | (_, .freeObj _) => inferInstanceAs (Decidable True)
  | (_, .getBody _) => inferInstanceAs (Decidable True)
  | (_, .next) => inferInstanceAs (Decidable True)

/-! ## The invariant -/

/-- What a thread in a call may rely on: the slab it has chosen is free, the
slab it has taken or found is in use for its digest, and the index is as it
left it. -/
def Fits (home : Digest → T) (store : PersistentStevedore) (t : T) : StorePhase → Prop
  | .idle | .wiping _ | .stopped => True
  | .growing d required => home d = t ∧ 0 < required ∧ required < 2 ^ 63
  | .taking d i => home d = t ∧ ∃ slab, store.allocations[i]? = some slab ∧ slab.inUse = false
  | .recording d i _ | .indexing d i => home d = t ∧ store.InUseFor d i
  | .releasing d i => home d = t ∧ store.InUseFor d i ∧ store.digestIndex d = none
  | .writing d i data => home d = t ∧ store.InUseFor d i ∧ store.digestIndex d = some i ∧
      data.length < 2 ^ 63
  | .reading d i => home d = t ∧ store.InUseFor d i ∧ store.digestIndex d = some i

structure Inv (home : Digest → T) (s : StoreThreads T) : Prop where
  store : s.store.Inv
  marked : PersistentStevedore.Marked s.writer s.store.allocations
  fits : ∀ t, Fits home s.store t (s.phase t)
  alone : ∀ t t' d d' i, s.phase t = .taking d i → s.phase t' = .taking d' i → t = t'

section Frame

variable {home : Digest → T} {store store' : PersistentStevedore} {t : T} {phase : StorePhase}

/-- A thread does not notice what changes beside its slab and its digests. -/
theorem Fits.frame (h : Fits home store t phase)
    (hslab : ∀ i, phase.slabIdx = some i → store'.allocations[i]? = store.allocations[i]?)
    (hindex : ∀ d, home d = t → store'.digestIndex d = store.digestIndex d) :
    Fits home store' t phase := by
  have hkept : ∀ d i, phase.slabIdx = some i → store.InUseFor d i → store'.InUseFor d i := by
    intro d i hi hinUse
    rw [PersistentStevedore.InUseFor, hslab i hi]
    exact hinUse
  cases phase with
  | idle | wiping | stopped => exact trivial
  | growing d required => exact h
  | taking d i =>
    obtain ⟨hhome, hfree⟩ := h
    rw [← hslab i rfl] at hfree
    exact ⟨hhome, hfree⟩
  | recording d i _ | indexing d i => exact ⟨h.1, hkept d i rfl h.2⟩
  | releasing d i | reading d i =>
    obtain ⟨hhome, hinUse, hthere⟩ := h
    exact ⟨hhome, hkept d i rfl hinUse, (hindex d hhome).trans hthere⟩
  | writing d i data =>
    obtain ⟨hhome, hinUse, hthere, hdata⟩ := h
    exact ⟨hhome, hkept d i rfl hinUse, (hindex d hhome).trans hthere, hdata⟩

theorem Fits.of_slabIdx_eq_none (h : Fits home store t phase) (hnone : phase.slabIdx = none) :
    Fits home store' t phase := by
  cases phase with
  | idle | wiping | stopped => exact trivial
  | growing d required => exact h
  | taking | recording | indexing | releasing | writing | reading => cases hnone

theorem Fits.slab (h : Fits home store t phase) {i : ℕ} (hi : phase.slabIdx = some i) :
    ∃ slab, store.allocations[i]? = some slab ∧
      (slab.inUse = false → ∃ d, phase = .taking d i) ∧
      (slab.inUse = true → home slab.digest = t) := by
  have hheld : ∀ d, home d = t → store.InUseFor d i →
      ∃ slab, store.allocations[i]? = some slab ∧
        (slab.inUse = false → ∃ d, phase = .taking d i) ∧
        (slab.inUse = true → home slab.digest = t) := by
    rintro d hhome ⟨slab, hslab, hinUse, rfl⟩
    refine ⟨slab, hslab, ?_, fun _ => hhome⟩
    intro hfree
    rw [hinUse] at hfree
    cases hfree
  cases phase with
  | idle | growing | wiping | stopped => cases hi
  | taking d j =>
    cases hi
    obtain ⟨_, slab, hslab, hfree⟩ := h
    refine ⟨slab, hslab, fun _ => ⟨d, rfl⟩, ?_⟩
    intro hinUse
    rw [hfree] at hinUse
    cases hinUse
  | recording d j _ | indexing d j =>
    cases hi
    exact hheld d h.1 h.2
  | releasing d j | writing d j _ | reading d j =>
    cases hi
    exact hheld d h.1 h.2.1

theorem getElem?_set_of_slabIdx_ne {allocs : List SlabEntry} {slab : SlabEntry} {i j : ℕ}
    (hi : phase.slabIdx = some i) (hj : phase.slabIdx ≠ some j) :
    (allocs.set i slab)[j]? = allocs[j]? := by
  refine getElem?_set_ne ?_
  rintro rfl
  exact hj hi

theorem update_index_of_home_ne {d d' : Digest} (hhome : home d = t) (hd' : home d' ≠ t)
    (index : Digest → Option ℕ) (slabIdx : Option ℕ) : update index d slabIdx d' = index d' := by
  refine update_of_ne ?_ ..
  rintro rfl
  exact hd' hhome

end Frame

variable {s : StoreThreads T} {home : Digest → T} {t : T}

theorem Inv.fits_of (h : Inv home s) {phase : StorePhase} (hphase : s.phase t = phase) :
    Fits home s.store t phase := by
  rw [← hphase]
  exact h.fits t

theorem Inv.slabIdx_ne {t' : T} (h : Inv home s) {i j : ℕ} (hi : (s.phase t).slabIdx = some i)
    (hj : (s.phase t').slabIdx = some j) (ht : t' ≠ t) : i ≠ j := by
  rintro rfl
  obtain ⟨slab, hslab, hfree, hinUse⟩ := (h.fits t).slab hi
  obtain ⟨slab', hslab', hfree', hinUse'⟩ := (h.fits t').slab hj
  rw [hslab, some.injEq] at hslab'
  subst hslab'
  cases huse : slab.inUse with
  | false =>
    obtain ⟨d, hd⟩ := hfree huse
    obtain ⟨d', hd'⟩ := hfree' huse
    exact ht (h.alone t' t d' d i hd' hd)
  | true => exact ht ((hinUse' huse).symm.trans (hinUse huse))

theorem Inv.compact (h : Inv home s) (hok : StepOk s (t, .compact)) :
    Inv home { s with
      store := s.store.compact.2
      writer := s.store.compactMarks s.writer } where
  store := h.store.compact.1
  marked := h.marked.compact h.store
  fits := fun t' => (h.fits t').of_slabIdx_eq_none (hok t')
  alone := by
    intro t₁ t₂ d₁ d₂ i h₁
    have hnone := hok t₁
    rw [h₁] at hnone
    cases hnone

section Steps

variable [DecidableEq T] {home : Digest → T} {s : StoreThreads T} {t : T} {phase : StorePhase}

/-- A section of one thread changes no slab but its own and the index for
no digest but its own, and what it then relies on holds. -/
theorem Inv.moves (h : Inv home s) {store : PersistentStevedore} {writer : ℕ → Option Digest}
    (hstore : store.Inv)
    (hmarked : PersistentStevedore.Marked writer store.allocations)
    (hslabs : ∀ j, j < s.store.allocations.length → (s.phase t).slabIdx ≠ some j →
      store.allocations[j]? = s.store.allocations[j]?)
    (hindex : ∀ d, home d ≠ t → store.digestIndex d = s.store.digestIndex d)
    (hfits : Fits home store t phase)
    (halone : ∀ d i, phase = .taking d i → ∀ t', t' ≠ t → ∀ d', s.phase t' ≠ .taking d' i) :
    Inv home ⟨store, writer, update s.phase t phase⟩ where
  store := hstore
  marked := hmarked
  fits := by
    intro t'
    dsimp only
    by_cases ht : t' = t
    · subst ht
      rw [update_self]
      exact hfits
    rw [update_of_ne ht]
    refine (h.fits t').frame ?_ ?_
    · intro j hj
      obtain ⟨slab, hslab, -⟩ := (h.fits t').slab hj
      refine hslabs j (List.getElem?_eq_some_iff.mp hslab).1 ?_
      intro hi
      exact h.slabIdx_ne hi hj ht rfl
    · intro d hd
      refine hindex d ?_
      rw [hd]
      exact ht
  alone := by
    intro t₁ t₂ d₁ d₂ i h₁ h₂
    dsimp only at h₁ h₂
    by_cases ht₁ : t₁ = t
    · subst ht₁
      rw [update_self] at h₁
      by_contra hne
      rw [update_of_ne (Ne.symm hne)] at h₂
      exact halone d₁ i h₁ t₂ (Ne.symm hne) d₂ h₂
    rw [update_of_ne ht₁] at h₁
    by_cases ht₂ : t₂ = t
    · subst ht₂
      rw [update_self] at h₂
      exact absurd h₁ (halone d₂ i h₂ t₁ ht₁ d₁)
    · rw [update_of_ne ht₂] at h₂
      exact h.alone t₁ t₂ d₁ d₂ i h₁ h₂

theorem Inv.stays (h : Inv home s) (hfits : Fits home s.store t phase)
    (halone : ∀ d i, phase = .taking d i → ∀ t', t' ≠ t → ∀ d', s.phase t' ≠ .taking d' i) :
    Inv home (s.moved t s.store phase) :=
  h.moves h.store h.marked (fun _ _ _ => rfl) (fun _ _ => rfl) hfits halone

variable {d : Digest} {i : ℕ} {data : List UInt8}

theorem Inv.allocObj (h : Inv home s) {sizeHint : ℕ} (hok : StepOk s (t, .allocObj d sizeHint)) :
    Inv home (s.step home (t, .allocObj d sizeHint)).2 := by
  obtain ⟨hsize, hchosen⟩ := hok
  dsimp only [StoreThreads.step]
  split
  · rename_i hbegin
    split
    · rename_i i hfind
      obtain ⟨slab, hslab, hfree, hlarge⟩ := PersistentStevedore.findFreeSlab_eq_some hfind
      refine h.stays ⟨hbegin.2, slab, hslab, hfree⟩ ?_
      -- whoever has chosen a slab has chosen a smaller one
      rintro d' i' ⟨⟩ t' ht' d'' hphase
      have hsmall := hchosen t' i (by simp [chosen, hphase]) slab hslab
      omega
    · exact h.stays ⟨hbegin.2, by omega, by omega⟩ (by simp)
  · exact h

theorem Inv.extend (h : Inv home s)
    (hok : StepOk s (t, .extend d data)) : Inv home (s.step home (t, .extend d data)).2 := by
  dsimp only [StoreThreads.step]
  split
  · rename_i hbegin
    split
    · rename_i i hindex
      exact h.stays ⟨hbegin.2, h.store.indexed d i hindex, hindex, hok⟩ (by simp)
    · exact h
  · exact h

theorem Inv.freeObj (h : Inv home s) : Inv home (s.step home (t, .freeObj d)).2 := by
  dsimp only [StoreThreads.step]
  split
  · rename_i hbegin
    split
    · rename_i i hindex
      exact h.moves (h.store.setIndex (by simp)) h.marked (fun _ _ _ => rfl)
        (fun _ hd' => update_index_of_home_ne hbegin.2 hd' ..)
        ⟨hbegin.2, h.store.indexed d i hindex, update_self ..⟩ (by simp)
    · exact h
  · exact h

theorem Inv.getBody (h : Inv home s) : Inv home (s.step home (t, .getBody d)).2 := by
  dsimp only [StoreThreads.step]
  split
  · rename_i hbegin
    split
    · rename_i i hindex
      exact h.stays ⟨hbegin.2, h.store.indexed d i hindex, hindex⟩ (by simp)
    · exact h
  · exact h

theorem Inv.grow (h : Inv home s) {required : ℕ}
    (hphase : s.phase t = .growing d required) : Inv home (s.proceed t).2 := by
  obtain ⟨hhome, hpos, hlt⟩ := h.fits_of hphase
  simp only [proceed, hphase]
  split
  · rename_i store i hnew
    obtain ⟨hi, hindex, slab, hallocs, hfree, hempty⟩ := PersistentStevedore.allocNewSlab_eq_ok hnew
    subst hi
    refine h.moves (h.store.allocNewSlab hlt hpos hnew).1 ?_ ?_ (fun _ _ => by rw [hindex])
      ⟨hhome, slab, by rw [hallocs, getElem?_concat_length], hfree⟩ ?_
    · rw [hallocs]
      intro slab' hmem
      rcases mem_append.mp hmem with hmem | hmem
      · exact h.marked slab' hmem
      · rw [mem_singleton.mp hmem, hempty]
        rfl
    · intro j hj _
      rw [hallocs, getElem?_append_left hj]
    · -- nobody has chosen a slab that was not there
      rintro d' i' ⟨⟩ t' ht' d'' hphase'
      obtain ⟨_, slab', hslab', _⟩ := h.fits_of hphase'
      rw [getElem?_eq_none (Nat.le_refl _)] at hslab'
      cases hslab'
  · exact h.stays trivial (by simp)

theorem Inv.take (h : Inv home s) (hphase : s.phase t = .taking d i) :
    Inv home (s.proceed t).2 := by
  obtain ⟨hhome, slab, hslab, hfree⟩ := h.fits_of hphase
  have hlt := (List.getElem?_eq_some_iff.mp hslab).1
  simp only [proceed, hphase, PersistentStevedore.takeSlab, hslab, map_some]
  exact h.moves (h.store.takeSlab hslab hfree d) (h.marked.setEmpty rfl)
    (fun _ _ => getElem?_set_of_slabIdx_ne (by rw [hphase]; rfl)) (fun _ _ => rfl)
    ⟨hhome, _, getElem?_set_self hlt, rfl, rfl⟩ (by simp)

theorem Inv.release (h : Inv home s) (hphase : s.phase t = .releasing d i) :
    Inv home (s.proceed t).2 := by
  obtain ⟨_, ⟨slab, hslab, hinUse, rfl⟩, hnone⟩ := h.fits_of hphase
  simp only [proceed, hphase, PersistentStevedore.releaseSlab, hslab, map_some]
  exact h.moves (h.store.releaseSlab hslab hinUse hnone) (h.marked.setEmpty rfl)
    (fun _ _ => getElem?_set_of_slabIdx_ne (by rw [hphase]; rfl)) (fun _ _ => rfl) trivial (by simp)

theorem Inv.writes (h : Inv home s)
    (hphase : s.phase t = .writing d i data) : Inv home (s.proceed t).2 := by
  obtain ⟨_, ⟨slab, hslab, hinUse, rfl⟩, hindex, hdata⟩ := h.fits_of hphase
  have hinv := (h.store.extend slab.digest hdata).1
  have heq := h.store.extend_eq hindex hslab hdata
  rw [PersistentStevedore.extend_eq_extendSlab hindex] at hinv heq
  simp only [proceed, hphase]
  by_cases hfull : slab.size < slab.bodyLen + data.length
  · rw [if_pos hfull] at heq
    rw [heq]
    exact h.stays trivial (by simp)
  rw [if_neg hfull] at heq
  rw [heq] at hinv ⊢
  exact h.moves hinv (h.marked.extend h.store hslab (Nat.not_lt.mp hfull))
    (fun _ _ => getElem?_set_of_slabIdx_ne (by rw [hphase]; rfl)) (fun _ _ => rfl) trivial
    (by simp)

theorem Inv.proceed (h : Inv home s) (t : T) : Inv home (s.proceed t).2 := by
  cases hphase : s.phase t with
  | idle =>
    rw [proceed_of_ended s t (.inl hphase)]
    exact h
  | stopped =>
    rw [proceed_of_ended s t (.inr hphase)]
    exact h
  | growing d required => exact h.grow hphase
  | taking d i => exact h.take hphase
  | recording d i slab =>
    simp only [StoreThreads.proceed, hphase]
    exact h.moves (h.store.recordSlab slab) h.marked (fun _ _ _ => rfl) (fun _ _ => rfl)
      (h.fits_of hphase) (by simp)
  | indexing d i =>
    have hfits := h.fits_of hphase
    simp only [StoreThreads.proceed, hphase]
    refine h.moves (h.store.setIndex ?_) h.marked (fun _ _ _ => rfl)
      (fun _ hd' => update_index_of_home_ne hfits.1 hd' ..) trivial (by simp)
    rintro j ⟨⟩
    exact hfits.2
  | releasing d i => exact h.release hphase
  | wiping slab =>
    simp only [StoreThreads.proceed, hphase]
    exact h.moves (h.store.recordSlab slab) h.marked (fun _ _ _ => rfl) (fun _ _ => rfl) trivial
      (by simp)
  | writing d i data => exact h.writes hphase
  | reading d i =>
    simp only [StoreThreads.proceed, hphase]
    exact h.stays trivial (by simp)

theorem Inv.step (h : Inv home s) (l : T × StoreStep) (hok : StepOk s l) :
    Inv home (s.step home l).2 := by
  obtain ⟨t, act⟩ := l
  cases act with
  | allocObj d sizeHint => exact h.allocObj hok
  | extend d data => exact h.extend hok
  | freeObj d => exact h.freeObj
  | getBody d => exact h.getBody
  | compact =>
    dsimp only [StoreThreads.step]
    split
    · exact h.compact hok
    · exact h
  | next => exact h.proceed t

theorem Inv.ownBytes (h : Inv home s) (l : T × StoreStep) : OwnBytes (s.step home l).1 := by
  have hread : ∀ t, OwnBytes (s.proceed t).1 := by
    intro t
    cases hphase : s.phase t with
    | reading d i =>
      obtain ⟨_, ⟨slab, hslab, _, rfl⟩, _⟩ := h.fits_of hphase
      have hmarked := h.marked slab (mem_of_getElem? hslab)
      simp only [StoreThreads.proceed, hphase, PersistentStevedore.bodyRange, hslab]
      intro d hd
      split at hd
      · cases hd
      · rw [elim_some, hmarked] at hd
        exact some_injective _ (eq_of_mem_replicate hd)
    | growing d required | taking d i | releasing d i =>
      simp only [StoreThreads.proceed, hphase]
      split <;> exact trivial
    | idle | stopped | recording | indexing | wiping | writing =>
      simp only [StoreThreads.proceed, hphase]
      exact trivial
  obtain ⟨t, act⟩ := l
  cases act with
  | next => exact hread t
  | getBody d =>
    dsimp only [StoreThreads.step]
    split
    · split
      · exact trivial
      · intro d' hd'
        cases hd'
    · exact trivial
  | allocObj | extend | freeObj =>
    dsimp only [StoreThreads.step]
    split
    · split <;> exact trivial
    · exact trivial
  | compact =>
    dsimp only [StoreThreads.step]
    split <;> exact trivial

end Steps

theorem Inv.isolated (h : Inv home s) : Isolated s := by
  intro d d' i hd hd'
  by_contra hne
  exact h.store.index_ne hd hd' (Ne.symm hne) rfl

theorem inv_start {size : ℕ} {s₀ : PersistentStevedore} (hcreate : create size = some s₀)
    (home : Digest → T) : Inv home (start s₀) where
  store := (PersistentStevedore.inv_create hcreate).1
  marked := by
    rw [create] at hcreate
    split at hcreate
    · cases hcreate
      intro slab hmem
      cases hmem
    · cases hcreate
  fits := fun _ => trivial
  alone := by
    intro t t' d d' i hphase
    cases hphase

/-- **Isolation under concurrency**, for any threads, each with digests of its
own, and any interleaving on a freshly created file: while allocations find the
slabs chosen by others too small for them, and the store is compacted only when
no thread carries a slab number, two allocated digests never share a slab and
no body has a byte that was written for another digest. -/
theorem threadsIsolated_of_stepOk [DecidableEq T] (size : ℕ) (s₀ : PersistentStevedore)
    (hcreate : create size = some s₀) (home : Digest → T)
    (labels : List (T × StoreStep)) (hok : Guarded (step home) StepOk (start s₀) labels) :
    Guarded (step home)
      (fun s l => Isolated (s.step home l).2 ∧ OwnBytes (s.step home l).1) (start s₀) labels :=
  guarded_of_guarded (step home) (P := Inv home)
    (fun _ l h hl => ⟨(h.step l hl).isolated, h.ownBytes l⟩) (fun _ l h => h.step l)
    (inv_start hcreate home) hok

/-- Of two threads, `false` works on the digest of ones and `true` on all
others. -/
def onesHome (d : Digest) : Bool := if d = ⟨.replicate 32 1⟩ then false else true

/-- Two allocations and two extensions, section by section in turn. -/
def inTurn : List (Bool × StoreStep) :=
  [(false, .allocObj ⟨.replicate 32 1⟩ 64), (true, .allocObj ⟨.replicate 32 2⟩ 64),
    (false, .next), (true, .next), (false, .next), (true, .next), (false, .next), (true, .next),
    (false, .next), (true, .next), (false, .extend ⟨.replicate 32 1⟩ [7]),
    (true, .extend ⟨.replicate 32 2⟩ [8]), (true, .next), (false, .next),
    (true, .getBody ⟨.replicate 32 2⟩), (true, .next)]

theorem threadsIsolated_of_stepOk_inTurn :
    ∃ s₀, create 4195000 = some s₀ ∧ Guarded (step onesHome)
        (fun s l => Isolated (s.step onesHome l).2 ∧ OwnBytes (s.step onesHome l).1) (start s₀)
        inTurn := by
  have hcreate : create 4195000 = some _ := if_pos (by decide)
  exact ⟨_, hcreate, threadsIsolated_of_stepOk 4195000 _ hcreate onesHome inTurn
    (by decide +kernel)⟩

/-- A free slab that both threads choose before either takes it. -/
def bothChoose : List (Bool × StoreStep) :=
  [(false, .allocObj ⟨.replicate 32 1⟩ 64), (false, .next), (false, .next), (false, .next),
    (false, .next), (false, .freeObj ⟨.replicate 32 1⟩), (false, .next), (false, .next),
    (false, .allocObj ⟨.replicate 32 1⟩ 64), (true, .allocObj ⟨.replicate 32 2⟩ 64),
    (false, .next), (false, .next), (false, .next), (true, .next), (true, .next), (true, .next),
    (false, .extend ⟨.replicate 32 1⟩ [7]), (false, .next),
    (true, .getBody ⟨.replicate 32 2⟩)]

/-- **Two threads share a slab**, and the one reads what the other wrote. -/
theorem not_threadsIsolated_bothChoose :
    ∃ s₀, create 4195000 = some s₀ ∧
      ((record (step onesHome) (start s₀) bothChoose).2.step onesHome (true, .next)).1 =
        some (.body ⟨.replicate 32 2⟩ (some [7]) [some ⟨.replicate 32 1⟩]) ∧
      ¬ Guarded (step onesHome)
        (fun s l => Isolated (s.step onesHome l).2 ∧ OwnBytes (s.step onesHome l).1) (start s₀)
        (bothChoose ++ [(true, .next)]) := by
  have hcreate : create 4195000 = some _ := if_pos (by decide)
  refine ⟨_, hcreate, by decide +kernel, ?_⟩
  intro h
  have hlast := ((guarded_concat_iff _).mp h).2.1 ⟨.replicate 32 1⟩
    ⟨.replicate 32 2⟩ 0 (by decide +kernel) (by decide +kernel)
  revert hlast
  decide

end StoreThreads

end VarahaCache
