import VarahaCache.Storage.Bodies

/-!
# The file store

`FileStevedore` of `rv-storage`, on an open file: slots are cut from the
front of the unused part of the file and never reclaimed. A slot that
outgrows its reservation takes the missing bytes from the end of the used
part, but goes on writing where it is; what lies there may be the next slot.
-/

namespace VarahaCache

open Blocks Words Function Lib Vector

def slotHeaderSize : ℕ := 64

/-- A slot of the index. Attributes are kept with it in the source; nothing
here reads them. -/
structure FileSlot where
  offset : ℕ
  reserved : ℕ
  bodyLen : ℕ
deriving DecidableEq

/-- An open store. The map has `size` bytes. -/
structure FileStevedore where
  size : ℕ
  mmap : ℕ → UInt8
  bump : ℕ
  index : Digest → Option FileSlot

namespace FileStevedore

/-- `new` and `open`: the file is emptied; `set_len` refuses a size above
`i64::MAX`. -/
def create (size : ℕ) : Option FileStevedore :=
  if size < 2 ^ 63 then some ⟨size, fun _ => 0, 0, fun _ => none⟩ else none

/-- `bump_alloc`. The alignment is that of the persistent store. -/
def bumpAlloc (s : FileStevedore) (len : ℕ) : Option (ℕ × FileStevedore) :=
  let aligned := alignUp len
  let newVal := s.bump + aligned
  if 2 ^ 64 ≤ newVal then none
  else if s.size < newVal then none
  else some (s.bump, { s with bump := newVal })

def allocObj (s : FileStevedore) (digest : Digest) (sizeHint : ℕ) :
    Except StorageError Unit × FileStevedore :=
  let total := wrappingAdd 64 slotHeaderSize sizeHint
  match s.bumpAlloc total with
  | none => (.error .full, s)
  | some (offset, s) =>
    (.ok (),
      { s with
        mmap := write s.mmap offset digest.bytes.toList
        index := update s.index digest (some ⟨offset, total, 0⟩) })

def freeObj (s : FileStevedore) (digest : Digest) : FileStevedore :=
  { s with index := update s.index digest none }

/-- The write of an extension, once its slot has the room. -/
def writeBody (s : FileStevedore) (digest : Digest) (slot : FileSlot) (writeOffset : ℕ)
    (data : List UInt8) : Except StorageError Unit × List ByteRange × FileStevedore :=
  (.ok (), [⟨writeOffset, data.length⟩],
    { s with
      mmap := write s.mmap writeOffset data
      index := update s.index digest
        (some { slot with bodyLen := wrappingAdd 64 slot.bodyLen data.length }) })

/-- `extend`, with the bytes it wrote. -/
def extend (s : FileStevedore) (digest : Digest) (data : List UInt8) :
    Except StorageError Unit × List ByteRange × FileStevedore :=
  match s.index digest with
  | none => (.error .notFound, [], s)
  | some slot =>
    let bodyStart := wrappingAdd 64 slot.offset slotHeaderSize
    let writeOffset := wrappingAdd 64 bodyStart slot.bodyLen
    let writeEnd := wrappingAdd 64 writeOffset data.length
    let stop := wrappingAdd 64 slot.offset slot.reserved
    if stop < writeEnd then
      let extra := writeEnd - stop
      match s.bumpAlloc extra with
      | none => (.error .full, [], s)
      | some (_, s) =>
        s.writeBody digest { slot with reserved := wrappingAdd 64 slot.reserved extra }
          writeOffset data
    else s.writeBody digest slot writeOffset data

def getBody (s : FileStevedore) (digest : Digest) : Option (List UInt8) :=
  match s.index digest with
  | none => none
  | some slot =>
    if slot.bodyLen = 0 then none
    else some (read s.mmap (wrappingAdd 64 slot.offset slotHeaderSize) slot.bodyLen)

end FileStevedore

/-! ## Calls -/

inductive FileCall
  | allocObj (digest : Digest) (sizeHint : ℕ)
  | extend (digest : Digest) (data : List UInt8)
  | freeObj (digest : Digest)

def FileCall.toStoreCall : FileCall → StoreCall
  | .allocObj digest sizeHint => .allocObj digest sizeHint
  | .extend digest data => .extend digest data
  | .freeObj digest => .freeObj digest

def FileCall.digest : FileCall → Digest
  | .allocObj digest _ => digest
  | .extend digest _ => digest
  | .freeObj digest => digest

namespace FileStevedore

def step (s : FileStevedore) : FileCall → StoreAnswer × FileStevedore
  | .allocObj digest sizeHint =>
    let r := s.allocObj digest sizeHint
    (⟨r.1, []⟩, r.2)
  | .extend digest data =>
    let r := s.extend digest data
    (⟨r.1, r.2.1⟩, r.2.2)
  | .freeObj digest => (⟨.ok (), []⟩, s.freeObj digest)

/-- **Isolation of a call**: it writes inside the file, and outside the slots
of the other objects. -/
def Isolated (s : FileStevedore) (call : FileCall) : Prop :=
  ∀ r ∈ (s.step call).1.touched, r.start + r.len ≤ s.size ∧
    ∀ d slot, d ≠ call.digest → s.index d = some slot →
      ∀ a, r.start ≤ a → a < r.start + r.len → ¬ (slot.offset ≤ a ∧ a < slot.offset + slot.reserved)

def written (log : List (FileCall × StoreAnswer)) : Written :=
  .ofLog (log.map fun entry => (entry.1.toStoreCall, entry.2))

/-- For every allocated digest the store returns what was written, none when
that is empty. -/
def BodiesWritten (s : FileStevedore) (w : Written) : Prop :=
  ∀ d body, w d = some body → s.getBody d = if body = [] then none else some body

/-- The size hint does not wrap; an extension that outgrows its slot, and is
not refused, ends before every other slot behind its own. -/
def StepOk (s : FileStevedore) : FileCall → Prop
  | .allocObj _ sizeHint => slotHeaderSize + sizeHint + 7 < 2 ^ 64
  | .extend digest data => data.length < 2 ^ 63 ∧
      ∀ slot, s.index digest = some slot →
        slot.reserved < slotHeaderSize + slot.bodyLen + data.length →
        s.bumpAlloc (slotHeaderSize + slot.bodyLen + data.length - slot.reserved) ≠ none →
        ∀ d slot', d ≠ digest → s.index d = some slot' → slot.offset < slot'.offset →
          slot.offset + slotHeaderSize + slot.bodyLen + data.length ≤ slot'.offset
  | .freeObj _ => True

/-! ## The invariant -/

/-- Slots lie in the used part of the file, apart, and have room for their
bodies. -/
structure Inv (s : FileStevedore) : Prop where
  size : s.size < 2 ^ 63
  bump : s.bump ≤ s.size
  inside : ∀ d slot, s.index d = some slot → slot.offset + slot.reserved ≤ s.bump
  body : ∀ d slot, s.index d = some slot → slotHeaderSize + slot.bodyLen ≤ slot.reserved
  apart : ∀ d d' slot slot', d ≠ d' → s.index d = some slot → s.index d' = some slot' →
    Apart FileSlot.offset FileSlot.reserved slot slot'

/-- The index leads to a slot that holds what was written. -/
def Holds (s : FileStevedore) (w : Written) : Prop :=
  ∀ d body, w d = some body → ∃ slot, s.index d = some slot ∧
    read s.mmap (slot.offset + slotHeaderSize) slot.bodyLen = body

variable {s : FileStevedore} {w : Written}

theorem inv_create {size : ℕ} (h : create size = some s) : s.Inv ∧ s.Holds fun _ => none := by
  rw [create] at h
  split at h
  · rename_i hsize
    cases h
    refine ⟨⟨hsize, Nat.zero_le _, ?_, ?_, ?_⟩, ?_⟩
    · rintro d slot ⟨⟩
    · rintro d slot ⟨⟩
    · rintro d d' slot slot' _ ⟨⟩
    · rintro d body ⟨⟩
  · cases h

theorem Holds.bodiesWritten (h : s.Holds w) (hinv : s.Inv) : s.BodiesWritten w := by
  intro d body hbody
  obtain ⟨slot, hindex, hread⟩ := h d body hbody
  have hlen : slot.bodyLen = body.length := by rw [← hread, length_read]
  have hstart : wrappingAdd 64 slot.offset slotHeaderSize = slot.offset + slotHeaderSize := by
    have hin := hinv.inside d slot hindex
    have hroom := hinv.body d slot hindex
    have hbump := hinv.bump
    have hsize := hinv.size
    exact wrappingAdd_of_lt (by omega)
  simp only [getBody, hindex, hstart, hread]
  simp only [hlen, List.length_eq_zero_iff]

theorem Inv.bumpAlloc_eq (h : s.Inv) {len : ℕ} (hlen : len + 7 < 2 ^ 64) :
    s.bumpAlloc len =
      if s.size < s.bump + (len + 7) / 8 * 8 then none
      else some (s.bump, { s with bump := s.bump + (len + 7) / 8 * 8 }) := by
  have hsize := h.size
  rw [bumpAlloc, alignUp_eq hlen]
  by_cases hfull : s.size < s.bump + (len + 7) / 8 * 8
  · simp [hfull]
  · have hfits : ¬ 2 ^ 64 ≤ s.bump + (len + 7) / 8 * 8 := by omega
    simp only [hfull, hfits, if_false]

variable {slot : FileSlot} {d : Digest} {data : List UInt8} {t : FileStevedore}

theorem Inv.setSlot (h : s.Inv)
    (hsize : t.size = s.size) (hbump : s.bump ≤ t.bump ∧ t.bump ≤ s.size)
    (hindex : t.index = update s.index d (some slot))
    (hin : slot.offset + slot.reserved ≤ t.bump)
    (hbody : slotHeaderSize + slot.bodyLen ≤ slot.reserved)
    (hapart : ∀ d' slot', d' ≠ d → s.index d' = some slot' →
      Apart FileSlot.offset FileSlot.reserved slot slot') : t.Inv := by
  have hcases : ∀ d' slot', t.index d' = some slot' →
      d' = d ∧ slot' = slot ∨ d' ≠ d ∧ s.index d' = some slot' := by
    intro d' slot' hslot'
    rw [hindex] at hslot'
    by_cases hd : d' = d
    · subst hd
      rw [update_self, Option.some.injEq] at hslot'
      exact .inl ⟨rfl, hslot'.symm⟩
    · rw [update_of_ne hd] at hslot'
      exact .inr ⟨hd, hslot'⟩
  constructor
  case size => rw [hsize]; exact h.size
  case bump => rw [hsize]; exact hbump.2
  case inside =>
    intro d' slot' hslot'
    rcases hcases d' slot' hslot' with ⟨-, rfl⟩ | ⟨-, hold⟩
    · exact hin
    · exact (h.inside d' slot' hold).trans hbump.1
  case body =>
    intro d' slot' hslot'
    rcases hcases d' slot' hslot' with ⟨-, rfl⟩ | ⟨-, hold⟩
    · exact hbody
    · exact h.body d' slot' hold
  case apart =>
    intro d₁ d₂ slot₁ slot₂ hne h₁ h₂
    rcases hcases d₁ slot₁ h₁ with ⟨rfl, rfl⟩ | ⟨hd₁, hold₁⟩
    · rcases hcases d₂ slot₂ h₂ with ⟨rfl, -⟩ | ⟨hd₂, hold₂⟩
      · exact absurd rfl hne
      · exact hapart d₂ slot₂ hd₂ hold₂
    rcases hcases d₂ slot₂ h₂ with ⟨rfl, rfl⟩ | ⟨hd₂, hold₂⟩
    · exact (hapart d₁ slot₁ hd₁ hold₁).symm
    · exact h.apart d₁ d₂ slot₁ slot₂ hne hold₁ hold₂

theorem Holds.setSlot (h : s.Holds w) (hinv : s.Inv) {start : ℕ} {bytes : List UInt8}
    {written : Option (List UInt8)}
    (hindex : t.index = update s.index d (some slot))
    (hmmap : t.mmap = write s.mmap start bytes)
    (hapart : ∀ d' slot', d' ≠ d → s.index d' = some slot' →
      slot'.offset + slot'.reserved ≤ start ∨ start + bytes.length ≤ slot'.offset)
    (hself : ∀ body, written = some body →
      read t.mmap (slot.offset + slotHeaderSize) slot.bodyLen = body) :
    t.Holds (update w d written) := by
  intro d' body' hbody'
  by_cases hd : d' = d
  · subst hd
    rw [update_self] at hbody'
    exact ⟨slot, by rw [hindex, update_self], hself body' hbody'⟩
  rw [update_of_ne hd] at hbody'
  obtain ⟨slot', hslot', hread'⟩ := h d' body' hbody'
  have hroom := hinv.body d' slot' hslot'
  refine ⟨slot', by rw [hindex, update_of_ne hd, hslot'], ?_⟩
  rw [hmmap, ← hread']
  refine read_write_of_apart ?_
  rcases hapart d' slot' hd hslot' with hbefore | hbehind <;> omega

/-! ## One call -/

theorem Inv.allocObj (h : s.Inv) (hw : s.Holds w) (d : Digest) {sizeHint : ℕ}
    (hhint : slotHeaderSize + sizeHint + 7 < 2 ^ 64) :
    (s.step (.allocObj d sizeHint)).2.Inv ∧ (s.step (.allocObj d sizeHint)).2.Holds
        (w.step (.allocObj d sizeHint, (s.step (.allocObj d sizeHint)).1)) := by
  have htotal : wrappingAdd 64 slotHeaderSize sizeHint = slotHeaderSize + sizeHint :=
    wrappingAdd_of_lt (by omega)
  have hbehind : ∀ d' slot', s.index d' = some slot' → slot'.offset + slot'.reserved ≤ s.bump :=
    h.inside
  simp only [step, FileStevedore.allocObj, htotal, h.bumpAlloc_eq hhint]
  by_cases hfull : s.size < s.bump + (slotHeaderSize + sizeHint + 7) / 8 * 8
  · rw [if_pos hfull]
    exact ⟨h, hw⟩
  rw [if_neg hfull]
  constructor
  · refine h.setSlot rfl ⟨Nat.le_add_right .., Nat.not_lt.mp hfull⟩ rfl ?_ ?_ ?_
    · dsimp only
      omega
    · exact Nat.le_add_right ..
    · exact fun d' slot' _ hslot' => .inr (hbehind d' slot' hslot')
  · refine hw.setSlot h rfl rfl (fun d' slot' _ hslot' => .inl (hbehind d' slot' hslot')) ?_
    rintro body ⟨⟩
    rfl

theorem Inv.freeObj (h : s.Inv) (hw : s.Holds w) (d : Digest) :
    (s.freeObj d).Inv ∧ (s.freeObj d).Holds (update w d none) := by
  have hold : ∀ d' slot', (s.freeObj d).index d' = some slot' → s.index d' = some slot' := by
    intro d' slot' hslot'
    rw [FileStevedore.freeObj] at hslot'
    by_cases hd : d' = d
    · subst hd
      simp at hslot'
    · simpa [hd] using hslot'
  refine ⟨⟨h.size, h.bump, fun d' slot' h' => h.inside d' slot' (hold d' slot' h'),
    fun d' slot' h' => h.body d' slot' (hold d' slot' h'), ?_⟩, ?_⟩
  · exact fun d₁ d₂ slot₁ slot₂ hne h₁ h₂ =>
      h.apart d₁ d₂ slot₁ slot₂ hne (hold d₁ slot₁ h₁) (hold d₂ slot₂ h₂)
  intro d' body hbody
  by_cases hd : d' = d
  · rw [hd, update_self] at hbody
    cases hbody
  rw [update_of_ne hd] at hbody
  obtain ⟨slot, hslot, hread⟩ := hw d' body hbody
  exact ⟨slot, by simpa [FileStevedore.freeObj, hd] using hslot, hread⟩

/-- What extending does: it is refused, or writes behind the body; a slot
that outgrows its reservation then ends with the data. -/
theorem Inv.extend_cases (h : s.Inv) (hslot : s.index d = some slot)
    (hdata : data.length < 2 ^ 63) :
    s.extend d data = (.error .full, [], s) ∨
      ∃ t : FileStevedore, s.extend d data =
          (.ok (), [⟨slot.offset + slotHeaderSize + slot.bodyLen, data.length⟩], t) ∧
        t.size = s.size ∧ (s.bump ≤ t.bump ∧ t.bump ≤ s.size) ∧
        t.mmap = write s.mmap (slot.offset + slotHeaderSize + slot.bodyLen) data ∧
        t.index = update s.index d (some ⟨slot.offset,
          max slot.reserved (slotHeaderSize + slot.bodyLen + data.length),
          slot.bodyLen + data.length⟩) ∧
        slot.offset + max slot.reserved (slotHeaderSize + slot.bodyLen + data.length) ≤ t.bump ∧
        (slot.reserved < slotHeaderSize + slot.bodyLen + data.length →
          s.bumpAlloc (slotHeaderSize + slot.bodyLen + data.length - slot.reserved) ≠ none) := by
  have hin := h.inside d slot hslot
  have hbody := h.body d slot hslot
  have hbump := h.bump
  have hsize := h.size
  have hstart : wrappingAdd 64 slot.offset slotHeaderSize = slot.offset + slotHeaderSize :=
    wrappingAdd_of_lt (by omega)
  have hoffset : wrappingAdd 64 (slot.offset + slotHeaderSize) slot.bodyLen =
      slot.offset + slotHeaderSize + slot.bodyLen := wrappingAdd_of_lt (by omega)
  have hend : wrappingAdd 64 (slot.offset + slotHeaderSize + slot.bodyLen) data.length =
      slot.offset + slotHeaderSize + slot.bodyLen + data.length := wrappingAdd_of_lt (by omega)
  have hstop : wrappingAdd 64 slot.offset slot.reserved = slot.offset + slot.reserved :=
    wrappingAdd_of_lt (by omega)
  have hlen : wrappingAdd 64 slot.bodyLen data.length = slot.bodyLen + data.length :=
    wrappingAdd_of_lt (by omega)
  simp only [FileStevedore.extend, hslot, hstart, hoffset, hend, hstop, writeBody, hlen]
  by_cases hgrow : slot.reserved < slotHeaderSize + slot.bodyLen + data.length
  · have hextra : slot.offset + slotHeaderSize + slot.bodyLen + data.length -
        (slot.offset + slot.reserved) =
          slotHeaderSize + slot.bodyLen + data.length - slot.reserved := by omega
    have hreserved : wrappingAdd 64 slot.reserved
        (slotHeaderSize + slot.bodyLen + data.length - slot.reserved) =
          max slot.reserved (slotHeaderSize + slot.bodyLen + data.length) := by
      rw [wrappingAdd_of_lt (by omega)]
      omega
    rw [if_pos (by omega), hextra, h.bumpAlloc_eq (by omega)]
    split
    · exact .inl rfl
    rename_i offset t hcut
    right
    split at hcut
    · cases hcut
    rename_i hfits
    cases hcut
    refine ⟨_, rfl, rfl, ⟨Nat.le_add_right .., Nat.not_lt.mp hfits⟩, rfl, ?_, ?_, ?_⟩
    · rw [hreserved]
    · dsimp only
      omega
    · intro _
      rw [if_neg hfits]
      simp
  · rw [if_neg (by omega)]
    right
    have hmax : max slot.reserved (slotHeaderSize + slot.bodyLen + data.length) = slot.reserved := by
      omega
    rw [hmax]
    exact ⟨_, rfl, rfl, ⟨Nat.le_refl _, hbump⟩, rfl, rfl, hin, fun hgrow' => absurd hgrow' hgrow⟩

theorem Inv.apart_grown (h : s.Inv) (hslot : s.index d = some slot)
    (hok : s.StepOk (.extend d data))
    (hroom : slot.reserved < slotHeaderSize + slot.bodyLen + data.length →
      s.bumpAlloc (slotHeaderSize + slot.bodyLen + data.length - slot.reserved) ≠ none)
    (d' : Digest) (slot' : FileSlot) (hd : d' ≠ d) (hslot' : s.index d' = some slot') :
    slot.offset + max slot.reserved (slotHeaderSize + slot.bodyLen + data.length) ≤ slot'.offset ∨
      slot'.offset + slot'.reserved ≤ slot.offset := by
  rcases h.apart d d' slot slot' (Ne.symm hd) hslot hslot' with hbehind | hbefore
  · left
    have hbody := h.body d slot hslot
    by_cases hgrow : slot.reserved < slotHeaderSize + slot.bodyLen + data.length
    · have hpos : slot.offset < slot'.offset := by
        rw [slotHeaderSize] at hbody
        omega
      have hend := hok.2 slot hslot hgrow (hroom hgrow) d' slot' hd hslot' hpos
      omega
    · omega
  · exact .inr hbefore

theorem Inv.extend (h : s.Inv) (hw : s.Holds w) (hok : s.StepOk (.extend d data)) :
    (s.step (.extend d data)).2.Inv ∧
      (s.step (.extend d data)).2.Holds (w.step (.extend d data, (s.step (.extend d data)).1)) ∧
      s.Isolated (.extend d data) := by
  simp only [Isolated, step]
  cases hslot : s.index d with
  | none =>
    simp only [FileStevedore.extend, hslot]
    exact ⟨h, hw, by simp⟩
  | some slot =>
    rcases h.extend_cases hslot hok.1 with
      hfull | ⟨t, ht, hsize, hbump, hmmap, hindex, hin, hroom⟩
    · rw [hfull]
      exact ⟨h, hw, by simp⟩
    rw [ht]
    have hbody := h.body d slot hslot
    have hapart := h.apart_grown hslot hok hroom
    refine ⟨?_, ?_, ?_⟩
    · refine h.setSlot hsize hbump hindex hin ?_ fun d' slot' hd hslot' => ?_
      · dsimp only
        omega
      · exact hapart d' slot' hd hslot'
    · refine hw.setSlot h hindex hmmap (fun d' slot' hd hslot' => ?_) ?_
      · rcases hapart d' slot' hd hslot' with hbehind | hbefore <;> omega
      intro body hbody'
      obtain ⟨before, hbefore, rfl⟩ := Option.map_eq_some_iff.mp hbody'
      obtain ⟨slot', hslot', hread⟩ := hw d before hbefore
      rw [hslot, Option.some.injEq] at hslot'
      subst hslot'
      rw [hmmap, read_append, read_write_of_apart (.inl (Nat.le_refl _)), hread, read_write_self]
    · simp only [List.mem_singleton, forall_eq, FileCall.digest]
      refine ⟨by omega, fun d' slot' hd hslot' a hlow hhigh => ?_⟩
      rcases hapart d' slot' hd hslot' with hbehind | hbefore <;> omega

/-- One call that meets the condition is isolated, and keeps every body
what was written for it. -/
theorem Inv.step (h : s.Inv) (hw : s.Holds w) {call : FileCall} (hok : s.StepOk call) :
    (s.step call).2.Inv ∧ (s.step call).2.Holds (w.step (call.toStoreCall, (s.step call).1)) ∧
      s.Isolated call := by
  cases call with
  | allocObj d sizeHint =>
    obtain ⟨hinv, hholds⟩ := h.allocObj hw d hok
    exact ⟨hinv, hholds, by simp [Isolated, FileStevedore.step]⟩
  | extend d data => exact h.extend hw hok
  | freeObj d =>
    obtain ⟨hinv, hholds⟩ := h.freeObj hw d
    exact ⟨hinv, hholds, by simp [Isolated, FileStevedore.step]⟩

/-! ## Runs -/

theorem Inv.run (h : s.Inv) (hw : s.Holds w) {calls : List FileCall}
    (hok : Guarded FileStevedore.step StepOk s calls) :
    Guarded FileStevedore.step Isolated s calls ∧
      (record FileStevedore.step s calls).2.BodiesWritten
        (((record FileStevedore.step s calls).1.map fun entry =>
          (entry.1.toStoreCall, entry.2)).foldl Written.step w) := by
  induction calls generalizing s w with
  | nil => exact ⟨trivial, hw.bodiesWritten h⟩
  | cons call calls ih =>
    obtain ⟨hinv, hholds, hisolated⟩ := h.step hw hok.1
    obtain ⟨hrest, hbodies⟩ := ih hinv hholds hok.2
    exact ⟨⟨hisolated, hrest⟩, hbodies⟩

/-- **File store isolation over runs.** On an open store of any size, in every
sequence of calls whose size hints do not wrap and in which a slot only
outgrows its reservation where no other slot is in the way, every extension
writes inside the file and outside the slots of other objects, and every body
is what was written. -/
theorem isolated_of_stepOk (size : ℕ) (s₀ : FileStevedore) (hcreate : create size = some s₀)
    (calls : List FileCall) (hok : Guarded FileStevedore.step StepOk s₀ calls) :
    Guarded FileStevedore.step Isolated s₀ calls ∧
      (record FileStevedore.step s₀ calls).2.BodiesWritten
        (written (record FileStevedore.step s₀ calls).1) := by
  obtain ⟨hinv, hholds⟩ := inv_create hcreate
  exact hinv.run hholds hok

def growingCalls : List FileCall := [.allocObj ⟨replicate 32 1⟩ 1, .extend ⟨replicate 32 1⟩ [1, 2]]

theorem isolated_of_stepOk_growing :
    ∃ s₀, create 1000 = some s₀ ∧ Guarded FileStevedore.step Isolated s₀ growingCalls ∧
      (record FileStevedore.step s₀ growingCalls).2.getBody ⟨replicate 32 1⟩ = some [1, 2] := by
  have hcreate : create 1000 = some _ := if_pos (by decide)
  refine ⟨_, hcreate, ?_⟩
  obtain ⟨hisolated, hbodies⟩ := isolated_of_stepOk 1000 _ hcreate growingCalls (by
    refine ⟨show _ < _ by decide, ⟨by simp, fun slot _ _ _ d slot' hd hslot' => ?_⟩, trivial⟩
    -- there is no other slot
    have hone : update (fun _ => none) ⟨replicate 32 1⟩
        (some (⟨0, 65, 0⟩ : FileSlot)) d = some slot' := hslot'
    rw [update_of_ne hd] at hone
    cases hone)
  exact ⟨hisolated, hbodies ⟨replicate 32 1⟩ [1, 2] (by decide +kernel)⟩

/-- Two slots; the first grows over the header of the second, into its body.
-/
def overrunCalls : List FileCall := [.allocObj ⟨replicate 32 1⟩ 0, .allocObj ⟨replicate 32 2⟩ 8,
    .extend ⟨replicate 32 2⟩ [5], .extend ⟨replicate 32 1⟩ (List.replicate 65 9)]

/-- **A slot that grows writes into its neighbour's body.** -/
theorem not_isolated_overrun :
    ∃ s₀, create 1000 = some s₀ ∧
      ¬ Guarded FileStevedore.step Isolated s₀ overrunCalls ∧
      ¬ (record FileStevedore.step s₀ overrunCalls).2.BodiesWritten
        (written (record FileStevedore.step s₀ overrunCalls).1) := by
  refine ⟨_, if_pos (by decide), ?_, ?_⟩
  · rintro ⟨-, -, -, hlast, -⟩
    obtain ⟨-, hout⟩ := hlast ⟨64, 65⟩ (by decide +kernel)
    exact hout ⟨replicate 32 2⟩ ⟨64, 72, 1⟩ (by decide) (by decide +kernel) 128 (by decide)
      (by decide) ⟨by decide, by decide⟩
  intro h
  have hbody := h ⟨replicate 32 2⟩ [5] (by decide +kernel)
  revert hbody
  decide +kernel

end FileStevedore

end VarahaCache
