import VarahaCache.Lib.Circular
import VarahaCache.Lib.Machine

/-!
# The log's ring buffer and its readers

`RingBuffer` and `LogReader` of `rv-log`. The buffer keeps the last records in
circular slots; each reader keeps the number of records there were when it
last looked. Calls take turns under the buffer's lock. The slots stand for the
whole history of writes (`RingBuffer.Holds`), and what a reader has seen over
all its calls is said in its terms.
-/

namespace VarahaCache.Log

open List Lib

variable {α : Type*}

/-- The ring buffer, for records of any kind: it never looks into one. -/
structure RingBuffer (α : Type*) where
  capacity : ℕ
  slots : List (Option α)
  writePos : ℕ
  /-- A `u64`. -/
  totalWritten : ℕ
  capacity_pos : 0 < capacity
  length_slots : slots.length = capacity
  writePos_lt : writePos < capacity

namespace RingBuffer

/-- `new` panics on capacity zero. -/
def new (α : Type*) (capacity : ℕ) (capacity_pos : 0 < capacity) : RingBuffer α where
  capacity := capacity
  slots := replicate capacity none
  writePos := 0
  totalWritten := 0
  capacity_pos := capacity_pos
  length_slots := length_replicate
  writePos_lt := capacity_pos

def write (buffer : RingBuffer α) (record : α) : RingBuffer α :=
  { buffer with
    slots := buffer.slots.set buffer.writePos (some record)
    writePos := (buffer.writePos + 1) % buffer.capacity
    totalWritten := (buffer.totalWritten + 1) % 2 ^ 64
    length_slots := length_set.trans buffer.length_slots
    writePos_lt := Nat.mod_lt _ buffer.capacity_pos }

def slot (buffer : RingBuffer α) (logicalPos : ℕ) : Option α :=
  buffer.slots.get ⟨logicalPos % buffer.capacity,
    (Nat.mod_lt _ buffer.capacity_pos).trans_eq buffer.length_slots.symm⟩

/-- `read_from`: the records since `position` that are still stored, and where
to go on. -/
def readFrom (buffer : RingBuffer α) (position : ℕ) : List α × ℕ :=
  let total := buffer.totalWritten
  if total ≤ position then ([], total)
  else
    let stored := min total buffer.capacity
    let oldestAvailable := total - stored
    let effectiveStart := max position oldestAvailable
    let count := total - effectiveStart
    ((range count).filterMap fun i => buffer.slot (effectiveStart + i), total)

/-- The buffer after this history of writes. -/
structure Holds (capacity : ℕ) (history : List α) (buffer : RingBuffer α) : Prop where
  capacity_eq : buffer.capacity = capacity
  writePos : buffer.writePos = history.length % capacity
  total : buffer.totalWritten = history.length
  slots : Circular capacity none (history.map some) buffer.slots

variable {capacity : ℕ} {history : List α} {buffer : RingBuffer α}

theorem holds_new (capacity_pos : 0 < capacity) :
    Holds capacity [] (new α capacity capacity_pos) where
  capacity_eq := rfl
  writePos := (Nat.zero_mod _).symm
  total := rfl
  slots := circular_nil _ _

theorem Holds.write (h : Holds capacity history buffer) (hlength : history.length + 1 < 2 ^ 64)
    (record : α) : Holds capacity (history ++ [record]) (buffer.write record) where
  capacity_eq := h.capacity_eq
  writePos := by
    show (buffer.writePos + 1) % buffer.capacity = _
    rw [h.capacity_eq, h.writePos, length_append, length_singleton, Nat.mod_add_mod]
  total := by
    show (buffer.totalWritten + 1) % 2 ^ 64 = _
    rw [h.total, length_append, length_singleton, Nat.mod_eq_of_lt hlength]
  slots := by
    have hcap : 0 < capacity := h.capacity_eq ▸ buffer.capacity_pos
    have hslots := h.slots.write hcap (some record)
    rw [length_map, ← h.writePos] at hslots
    rw [map_append]
    exact hslots

theorem Holds.slot_eq (h : Holds capacity history buffer) {n : ℕ} (hn : n < history.length)
    (hkept : history.length ≤ n + capacity) : buffer.slot n = history[n]? := by
  have hwritten := h.slots.written n (some history[n]) (by simp [hn])
    (by rw [length_map]; exact hkept)
  rw [← h.capacity_eq, List.getElem?_eq_some_iff] at hwritten
  obtain ⟨_, hslot⟩ := hwritten
  rw [getElem?_eq_getElem hn]
  exact hslot

theorem filterMap_getElem?_range (l : List α) :
    ((range l.length).filterMap fun i => l[i]?) = l := by
  induction l with
  | nil => rfl
  | cons a l ih =>
    rw [length_cons, range_succ_eq_map, filterMap_cons_some (getElem?_cons_zero ..), filterMap_map]
    exact congrArg (a :: ·) ih

/-- What a read returns: the end of the history, from the position or the
oldest record stored, whichever is later. -/
theorem Holds.readFrom_eq (h : Holds capacity history buffer) (position : ℕ) :
    buffer.readFrom position =
      (history.drop (max position (history.length - capacity)), history.length) := by
  rw [readFrom]
  simp only [h.total, h.capacity_eq]
  split
  · next hcaught => rw [drop_eq_nil_of_le (hcaught.trans (le_max_left _ _))]
  next hbehind =>
    have hstart : max position (history.length - min history.length capacity) =
        max position (history.length - capacity) := by omega
    rw [hstart, Prod.mk.injEq]
    refine ⟨?_, rfl⟩
    have hread := filterMap_getElem?_range
      (history.drop (max position (history.length - capacity)))
    rw [length_drop] at hread
    -- every position of the range is still in its slot
    refine Eq.trans (filterMap_congr fun i hi => ?_) hread
    rw [mem_range] at hi
    rw [getElem?_drop]
    exact h.slot_eq (by omega) (by omega)

end RingBuffer

structure LogReader where
  /-- The logical position of the next record to read. -/
  position : ℕ

namespace LogReader

def new (buffer : RingBuffer α) : LogReader := ⟨buffer.totalWritten⟩

def fromStart : LogReader := ⟨0⟩

def readNew (reader : LogReader) (buffer : RingBuffer α) : List α × LogReader :=
  let (records, newPos) := buffer.readFrom reader.position
  (records, ⟨newPos⟩)

end LogReader

/-- The buffer and all its readers, each under the number of its creation. -/
structure Shared (α : Type*) where
  buffer : RingBuffer α
  readers : List LogReader

inductive Action (α : Type*)
  | write (record : α)
  | new
  | fromStart
  | readNew (reader : ℕ)

namespace Shared

/-- One call under the lock, and the records it returns. -/
def step (shared : Shared α) : Action α → List α × Shared α
  | .write record => ([], { shared with buffer := shared.buffer.write record })
  | .new => ([], { shared with readers := shared.readers ++ [LogReader.new shared.buffer] })
  | .fromStart => ([], { shared with readers := shared.readers ++ [LogReader.fromStart] })
  | .readNew r =>
    match shared.readers[r]? with
    | none => ([], shared)
    | some reader =>
      let (records, reader) := reader.readNew shared.buffer
      (records, { shared with readers := shared.readers.set r reader })

def empty (α : Type*) (capacity : ℕ) (capacity_pos : 0 < capacity) : Shared α :=
  ⟨RingBuffer.new α capacity capacity_pos, []⟩

def after (capacity : ℕ) (capacity_pos : 0 < capacity) (actions : List (Action α)) : Shared α :=
  (record step (empty α capacity capacity_pos) actions).2

end Shared

namespace Action

def record? : Action α → Option α
  | .write record => some record
  | _ => none

/-- Where a reader that the call creates starts, after so many writes. -/
def start? (total : ℕ) : Action α → Option ℕ
  | .new => some total
  | .fromStart => some 0
  | _ => none

def isReadOf (r : ℕ) : Action α → Bool
  | .readNew reader => reader = r
  | _ => false

end Action

def written (actions : List (Action α)) : List α := actions.filterMap Action.record?

theorem written_append (actions more : List (Action α)) :
    written (actions ++ more) = written actions ++ written more :=
  filterMap_append

theorem written_of_record?_eq_none {action : Action α} (h : action.record? = none) :
    written [action] = [] := by
  rw [written, filterMap_cons_none h, filterMap_nil]

def joined (r : ℕ) (log : List (Action α × List α)) : List α :=
  (log.filter fun entry => entry.1.isReadOf r).flatMap Prod.snd

theorem joined_concat (r : ℕ) (log : List (Action α × List α)) (action : Action α)
    (records : List α) :
    joined r (log ++ [(action, records)]) =
      joined r log ++ if action.isReadOf r then records else [] := by
  rw [joined, filter_append, flatMap_append, ← joined]
  cases h : action.isReadOf r <;> simp [h]

namespace Shared

variable {capacity : ℕ} {history : List α} {shared : Shared α} {reader : LogReader}

/-- The buffer holds the history, and no reader is ahead of it. -/
structure Holds (capacity : ℕ) (history : List α) (shared : Shared α) : Prop where
  buffer : shared.buffer.Holds capacity history
  position_le : ∀ reader ∈ shared.readers, reader.position ≤ history.length

theorem Holds.readNew_eq (h : Holds capacity history shared) (reader : LogReader) :
    reader.readNew shared.buffer =
      (history.drop (max reader.position (history.length - capacity)), ⟨history.length⟩) := by
  rw [LogReader.readNew, h.buffer.readFrom_eq]

theorem step_readNew {r : ℕ} (hreader : shared.readers[r]? = some reader) :
    shared.step (.readNew r) = ((reader.readNew shared.buffer).1,
        { shared with readers := shared.readers.set r (reader.readNew shared.buffer).2 }) := by
  rw [step, hreader]

theorem Holds.addReader (h : Holds capacity history shared)
    (hposition : reader.position ≤ history.length) :
    Holds capacity history { shared with readers := shared.readers ++ [reader] } := by
  refine ⟨h.buffer, fun other hother => ?_⟩
  rcases mem_append.mp hother with hold | hnew
  · exact h.position_le other hold
  · rw [mem_singleton.mp hnew]
    exact hposition

theorem Holds.step (h : Holds capacity history shared) (action : Action α)
    (hlength : (history ++ written [action]).length < 2 ^ 64) :
    Holds capacity (history ++ written [action]) (shared.step action).2 := by
  cases action with
  | write record =>
    refine ⟨h.buffer.write (by simpa [written, Action.record?] using hlength) record, ?_⟩
    intro reader hreader
    exact (h.position_le reader hreader).trans (length_append.symm ▸ Nat.le_add_right _ _)
  | new =>
    rw [written_of_record?_eq_none rfl, append_nil]
    exact h.addReader h.buffer.total.le
  | fromStart =>
    rw [written_of_record?_eq_none rfl, append_nil]
    exact h.addReader (Nat.zero_le _)
  | readNew r =>
    rw [written_of_record?_eq_none rfl, append_nil]
    cases hreader : shared.readers[r]? with
    | none =>
      rw [Shared.step, hreader]
      exact h
    | some reader =>
      rw [step_readNew hreader]
      refine ⟨h.buffer, fun reader' hreader' => ?_⟩
      rcases mem_or_eq_of_mem_set hreader' with hold | rfl
      · exact h.position_le reader' hold
      · rw [h.readNew_eq]

theorem after_concat (capacity_pos : 0 < capacity) (actions : List (Action α)) (action : Action α) :
    after capacity capacity_pos (actions ++ [action]) =
      ((after capacity capacity_pos actions).step action).2 := by
  rw [after, record_concat]
  rfl

theorem holds_after (capacity_pos : 0 < capacity) (actions : List (Action α))
    (hwrites : (written actions).length < 2 ^ 64) :
    Holds capacity (written actions) (after capacity capacity_pos actions) := by
  induction actions using reverseRecOn with
  | nil =>
    exact ⟨RingBuffer.holds_new capacity_pos, fun reader hreader => nomatch hreader⟩
  | append_singleton actions action ih =>
    rw [written_append] at hwrites ⊢
    rw [after_concat]
    refine (ih ?_).step action hwrites
    rw [length_append] at hwrites
    omega

end Shared

/-- What a reader has been given: the records with these numbers, where
`calls` are the lengths of the history its calls met. Whatever it was not
given had been overwritten at every call after its write. -/
structure Given (capacity start : ℕ) (history : List α) (calls : Set ℕ) (position : ℕ)
    (returned : List α) (numbers : List ℕ) : Prop where
  sorted : numbers.Pairwise (· < ·)
  bounds : ∀ i ∈ numbers, start ≤ i ∧ i < position
  returned_eq : returned.map some = numbers.map (history[·]?)
  omitted : ∀ i, start ≤ i → i ∉ numbers → ∀ total ∈ calls, i < total → i + capacity < total
  position_eq : position = start ∨ position ∈ calls
  start_le : start ≤ position

namespace Given

variable {capacity start position : ℕ} {history returned : List α} {calls : Set ℕ}
  {numbers : List ℕ}

theorem init (capacity start : ℕ) (history : List α) : Given capacity start history ∅ start [] [] where
  sorted := List.Pairwise.nil
  bounds _ hi := nomatch hi
  returned_eq := rfl
  omitted _ _ _ _ htotal := htotal.elim
  position_eq := .inl rfl
  start_le := le_rfl

theorem append (h : Given capacity start history calls position returned numbers)
    (hposition : position ≤ history.length) (more : List α) :
    Given capacity start (history ++ more) calls position returned numbers :=
  { h with
    returned_eq := by
      rw [h.returned_eq]
      refine map_congr_left fun i hi => ?_
      rw [getElem?_append_left ((h.bounds i hi).2.trans_le hposition)] }

theorem read (h : Given capacity start history calls position returned numbers)
    (hposition : position ≤ history.length) (hcap : 0 < capacity) :
    ∃ more, Given capacity start history (insert history.length calls) history.length
      (returned ++ history.drop (max position (history.length - capacity))) (numbers ++ more) := by
  have hmax : max position (history.length - capacity) ≤ history.length := by omega
  have hmaxp := le_max_left position (history.length - capacity)
  generalize hfirst : max position (history.length - capacity) = first at *
  have hmem : ∀ i, i ∈ range' first (history.length - first) ↔ first ≤ i ∧ i < history.length := by
    intro i
    rw [mem_range'_1]
    omega
  refine ⟨range' first (history.length - first), ?_, ?_, ?_, ?_, ?_, ?_⟩
  · refine pairwise_append.mpr ⟨h.sorted, pairwise_lt_range' .., fun i hi j hj => ?_⟩
    have hi := (h.bounds i hi).2
    have hj := ((hmem j).mp hj).1
    omega
  · intro i hi
    have hstart := h.start_le
    rcases mem_append.mp hi with hold | hnew
    · have hold := h.bounds i hold
      omega
    · have hnew := (hmem i).mp hnew
      omega
  · rw [map_append, map_append, h.returned_eq]
    refine congrArg _ (ext_getElem? fun i => ?_)
    rw [getElem?_map, getElem?_map, getElem?_drop]
    rcases lt_or_ge i (history.length - first) with hlt | hge
    · rw [getElem?_range' hlt, Nat.one_mul, Option.map_some,
        getElem?_eq_getElem (by omega), Option.map_some]
    · rw [getElem?_eq_none (by omega), getElem?_eq_none (by simpa using hge)]
      rfl
  · intro i hi hnot total htotal hlt
    rw [mem_append, not_or, hmem] at hnot
    rcases htotal with rfl | hold
    · rcases lt_or_ge i position with hpassed | hahead
      · -- an earlier call had passed it over
        rcases h.position_eq with heq | hcall
        · omega
        · have := h.omitted i hi hnot.1 position hcall hpassed
          omega
      · omega
    · exact h.omitted i hi hnot.1 total hold hlt
  · exact .inr (Set.mem_insert _ _)
  · exact h.start_le.trans hposition

end Given

/-- The lengths of the history that the calls of a reader made at the end of
`opened` met. -/
def callTotals (r : ℕ) (opened rest : List (Action α)) : Set ℕ :=
  { total | ∃ mid, mid ++ [.readNew r] <+: rest ∧ total = (written (opened ++ mid)).length }

theorem Action.eq_readNew {r : ℕ} {action : Action α} (h : action.isReadOf r) :
    action = .readNew r := by
  cases action with
  | readNew reader => rw [of_decide_eq_true h]
  | _ => cases h

theorem callTotals_concat (r : ℕ) (opened rest : List (Action α)) (action : Action α) :
    callTotals r opened (rest ++ [action]) =
      if action.isReadOf r then insert (written (opened ++ rest)).length (callTotals r opened rest)
      else callTotals r opened rest := by
  ext total
  have hlast : ∀ mid, mid ++ [.readNew r] <+: rest ++ [action] ↔
      (mid = rest ∧ .readNew r = action) ∨ mid ++ [.readNew r] <+: rest := by
    intro mid
    rw [prefix_concat_iff, append_singleton_inj]
  cases hread : action.isReadOf r with
  | false =>
    have hne : .readNew r ≠ action := by
      rintro rfl
      simp [Action.isReadOf] at hread
    simp [callTotals, hlast, hne]
  | true =>
    obtain rfl := Action.eq_readNew hread
    simp [callTotals, hlast, or_and_right, exists_or]

namespace Shared

variable {capacity : ℕ} {shared : Shared α} {creation : Action α} {start : ℕ}

theorem getElem?_readers_step {r : ℕ} {reader : LogReader}
    (hreader : shared.readers[r]? = some reader) {action : Action α}
    (hother : action.isReadOf r = false) : (shared.step action).2.readers[r]? = some reader := by
  have hlt : r < shared.readers.length := (List.getElem?_eq_some_iff.mp hreader).1
  cases action with
  | write record => exact hreader
  | new | fromStart => exact (getElem?_append_left hlt).trans hreader
  | readNew r' =>
    have hne : r' ≠ r := of_decide_eq_false hother
    cases hreader' : shared.readers[r']? with
    | none =>
      rw [step, hreader']
      exact hreader
    | some reader' =>
      rw [step_readNew hreader']
      exact (getElem?_set_ne hne).trans hreader

theorem getElem?_readers_created {history : List α} (h : Holds capacity history shared)
    (hstart : creation.start? history.length = some start) :
    (shared.step creation).2.readers[shared.readers.length]? = some ⟨start⟩ := by
  cases creation with
  | new =>
    refine getElem?_concat_length.trans ?_
    rw [LogReader.new, h.buffer.total]
    exact congrArg _ (congrArg _ (Option.some.inj hstart))
  | fromStart =>
    refine getElem?_concat_length.trans ?_
    exact congrArg _ (congrArg _ (Option.some.inj hstart))
  | write record => cases hstart
  | readNew r => cases hstart

/-- What a reader has been given, in every run: by induction on the calls
since it was made. -/
theorem given_after (capacity_pos : 0 < capacity) (before : List (Action α))
    (hstart : creation.start? (written before).length = some start) (rest : List (Action α))
    (hwrites : (written (before ++ [creation] ++ rest)).length < 2 ^ 64) :
    ∃ position numbers, (after capacity capacity_pos (before ++ [creation] ++ rest)).readers[
        (after capacity capacity_pos before).readers.length]? = some ⟨position⟩ ∧
      Given capacity start (written (before ++ [creation] ++ rest))
        (callTotals (after capacity capacity_pos before).readers.length (before ++ [creation]) rest)
        position
        (joined (after capacity capacity_pos before).readers.length
          (record step (after capacity capacity_pos (before ++ [creation])) rest).1) numbers := by
  generalize hr : (after capacity capacity_pos before).readers.length = r
  induction rest using reverseRecOn with
  | nil =>
    rw [append_nil, written_append, length_append] at hwrites
    have hholds := holds_after capacity_pos before (by omega)
    refine ⟨start, [], ?_, ?_⟩
    · rw [append_nil, after_concat, ← hr]
      exact getElem?_readers_created hholds hstart
    have hcalls : callTotals r (before ++ [creation]) [] = ∅ := by simp [callTotals]
    rw [hcalls]
    exact Given.init ..
  | append_singleton rest action ih =>
    rw [← append_assoc, written_append, length_append] at hwrites
    have hholds := holds_after capacity_pos (before ++ [creation] ++ rest) (by omega)
    obtain ⟨position, numbers, hreader, hgiven⟩ := ih (by omega)
    have hposition := hholds.position_le _ (mem_of_getElem? hreader)
    have hstate : after capacity capacity_pos (before ++ [creation] ++ rest) =
        (record step (after capacity capacity_pos (before ++ [creation])) rest).2 := by
      rw [after, record_append]
      rfl
    rw [← append_assoc, after_concat, written_append, callTotals_concat, record_concat,
      joined_concat, ← hstate]
    cases hread : action.isReadOf r with
    | false =>
      exact ⟨position, numbers, getElem?_readers_step hreader hread,
        (append_nil _).symm ▸ hgiven.append hposition _⟩
    | true =>
      rw [Action.eq_readNew hread, written_of_record?_eq_none rfl, append_nil,
        step_readNew hreader, hholds.readNew_eq]
      obtain ⟨more, hmore⟩ := hgiven.read hposition capacity_pos
      refine ⟨_, _, ?_, hmore⟩
      exact getElem?_set_self (List.getElem?_eq_some_iff.mp hreader).1

end Shared

/-- The last records of a list, as many as there is room for. -/
def lastOf (capacity : ℕ) (records : List α) : List α :=
  records.drop (records.length - min records.length capacity)

theorem drop_max_eq_lastOf (capacity position : ℕ) (history : List α) :
    history.drop (max position (history.length - capacity)) =
      lastOf capacity (history.drop position) := by
  rw [lastOf, drop_drop, length_drop]
  rcases le_total history.length position with hcaught | hbehind
  · rw [drop_eq_nil_of_le (hcaught.trans (le_max_left _ _)), drop_eq_nil_of_le (by omega)]
  · rw [show position + (history.length - position - min (history.length - position) capacity) =
      max position (history.length - capacity) by omega]

/-- **Readers miss nothing that is still stored.** A call returns the last of
the records written since the reader's position, as many as the buffer has
room for; what a reader's calls returned, joined, are records from its start
on, each at most once and in order. A record it was not given had been
overwritten by `capacity` later ones at every call after its write. -/
theorem readers_miss_nothing_stored (capacity : ℕ) (capacity_pos : 0 < capacity)
    (actions : List (Action α)) (hwrites : (written actions).length < 2 ^ 64) :
    (∀ (r : ℕ) (reader : LogReader),
      (Shared.after capacity capacity_pos actions).readers[r]? = some reader →
      ((Shared.after capacity capacity_pos actions).step (.readNew r)).1 =
        lastOf capacity ((written actions).drop reader.position)) ∧
    ∀ (before rest : List (Action α)) (creation : Action α) (start r : ℕ),
      actions = before ++ [creation] ++ rest →
      creation.start? (written before).length = some start →
      r = (Shared.after capacity capacity_pos before).readers.length →
      ∃ numbers : List ℕ, numbers.Pairwise (· < ·) ∧ (∀ i ∈ numbers, start ≤ i) ∧
        (joined r (record Shared.step
          (Shared.after capacity capacity_pos (before ++ [creation])) rest).1).map some =
            numbers.map ((written actions)[·]?) ∧
        ∀ i, start ≤ i → i ∉ numbers → ∀ mid, mid ++ [.readNew r] <+: rest →
          i < (written (before ++ [creation] ++ mid)).length →
          i + 1 + capacity ≤ (written (before ++ [creation] ++ mid)).length := by
  constructor
  · intro r reader hreader
    rw [Shared.step_readNew hreader, (Shared.holds_after capacity_pos actions hwrites).readNew_eq,
      drop_max_eq_lastOf]
  rintro before rest creation start r rfl hstart rfl
  obtain ⟨position, numbers, -, hgiven⟩ :=
    Shared.given_after capacity_pos before hstart rest hwrites
  refine ⟨numbers, hgiven.sorted, fun i hi => (hgiven.bounds i hi).1, hgiven.returned_eq, ?_⟩
  intro i hi hnot mid hmid hlt
  have := hgiven.omitted i hi hnot _ ⟨mid, hmid, rfl⟩ hlt
  omega

/-- Two slots, three records, and a reader that is late for the first. -/
theorem readers_miss_nothing_stored_two_slots :
    ((Shared.after 2 (by decide) [.new, .write 1, .write 2, .write 3]).step (.readNew 0)).1 =
      lastOf 2 ((written [.new, .write 1, .write 2, .write 3]).drop 0) :=
  (readers_miss_nothing_stored 2 (by decide) [.new, .write 1, .write 2, .write 3] (by decide)).1 0
    ⟨0⟩ rfl

end VarahaCache.Log
