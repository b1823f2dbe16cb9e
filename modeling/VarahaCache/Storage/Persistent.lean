import VarahaCache.Lib.Blocks
import VarahaCache.Lib.Words
import VarahaCache.Storage.ObjCore

/-!
# The persistent store

`PersistentStevedore` of `rv-storage`, on an open file: the slab list, the
index from digests to slabs, and the mapped bytes with the slab table at
their front. `usize` is 64 bits wide and wraps. Every operation says which
bytes of slab data it touched through raw pointers.
-/

namespace VarahaCache

open Blocks Words

def fileHeaderSize : ℕ := 128
def slabEntrySize : ℕ := 64
def maxSlabs : ℕ := 65536
def dataRegionOffset : ℕ := fileHeaderSize + maxSlabs * slabEntrySize
def dataAlign : ℕ := 8

/-- `(n + DATA_ALIGN - 1) & !(DATA_ALIGN - 1)`. -/
def alignUp (n : ℕ) : ℕ := wrappingAdd 64 n (dataAlign - 1) / dataAlign * dataAlign

/-- A slab. Attributes are kept with it in the source; nothing here reads
them. -/
structure SlabEntry where
  index : ℕ
  offset : ℕ
  size : ℕ
  inUse : Bool
  digest : Digest
  bodyLen : ℕ
deriving DecidableEq

namespace SlabEntry

def stop (slab : SlabEntry) : ℕ := wrappingAdd 64 slab.offset slab.size

end SlabEntry

/-- Bytes touched through a raw pointer. -/
structure ByteRange where
  start : ℕ
  len : ℕ
deriving DecidableEq

/-- An open store. The map has `totalSize` bytes. -/
structure PersistentStevedore where
  totalSize : ℕ
  usedSize : ℕ
  mmap : ℕ → UInt8
  allocations : List SlabEntry
  digestIndex : Digest → Option ℕ

def leBytes (width n : ℕ) : List UInt8 :=
  (List.range width).map fun i => UInt8.ofNat (n / 256 ^ i % 256)

/-- Where a slab's entry is in the table. -/
def SlabEntry.entryOffset (slab : SlabEntry) : ℕ := fileHeaderSize + slab.index * slabEntrySize

def writeSlabEntry (mmap : ℕ → UInt8) (slab : SlabEntry) : ℕ → UInt8 :=
  let mmap := write mmap slab.entryOffset slab.digest.bytes.toList
  let mmap := write mmap (slab.entryOffset + 32) (leBytes 8 slab.offset)
  let mmap := write mmap (slab.entryOffset + 40) (leBytes 8 slab.size)
  let mmap := write mmap (slab.entryOffset + 48) [if slab.inUse then 1 else 0]
  write mmap (slab.entryOffset + 49) (leBytes 8 slab.bodyLen)

/-- The part of an entry that compaction writes. -/
def writeSlabPlace (mmap : ℕ → UInt8) (slab : SlabEntry) : ℕ → UInt8 :=
  let mmap := write mmap (slab.entryOffset + 32) (leBytes 8 slab.offset)
  write mmap (slab.entryOffset + 40) (leBytes 8 slab.size)

/-- `write_header`: magic, version and size. -/
def writeHeader (mmap : ℕ → UInt8) (totalSize : ℕ) : ℕ → UInt8 :=
  let mmap := write mmap 0 "RVSLAB01".toUTF8.data.toList
  let mmap := write mmap 8 (leBytes 4 1)
  write mmap 12 (leBytes 8 totalSize)

namespace PersistentStevedore

/-- `new` and `open` where there is no file yet. A size without room for data
fails the assertion of `new`; `set_len` refuses one above `i64::MAX`. -/
def create (size : ℕ) : Option PersistentStevedore :=
  if dataRegionOffset < size ∧ size < 2 ^ 63 then
    some
      { totalSize := size
        usedSize := 0
        mmap := writeHeader (fun _ => 0) size
        allocations := []
        digestIndex := fun _ => none }
  else none

def findFreeSlab (s : PersistentStevedore) (size : ℕ) : Option ℕ :=
  s.allocations.findIdx? fun slab => !slab.inUse && decide (size ≤ slab.size)

/-- Where the last slab ends, or the data region starts. -/
def nextOffset (s : PersistentStevedore) : ℕ :=
  if s.allocations = [] then dataRegionOffset
  else ((s.allocations.map SlabEntry.stop).max?).getD dataRegionOffset

/-- `alloc_new_slab`: a slab behind all others, not in use yet. -/
def allocNewSlab (s : PersistentStevedore) (size : ℕ) :
    Except StorageError (PersistentStevedore × ℕ) :=
  let alignedSize := alignUp size
  let alignedOffset := alignUp s.nextOffset
  if s.totalSize < wrappingAdd 64 alignedOffset alignedSize then .error .full
  else if maxSlabs ≤ s.allocations.length then .error .full
  else
    let index := s.allocations.length
    let slab : SlabEntry :=
      { index := index, offset := alignedOffset, size := alignedSize, inUse := false,
        digest := ⟨.replicate 32 0⟩, bodyLen := 0 }
    .ok ({ s with allocations := s.allocations ++ [slab] }, index)

/-- The second half of `alloc_obj`: the slab chosen is taken. An index out of
range would panic. -/
def occupy (s : PersistentStevedore) (slabIdx : ℕ) (digest : Digest) : PersistentStevedore :=
  match s.allocations[slabIdx]? with
  | none => s
  | some slab =>
    let slab := { slab with inUse := true, digest := digest, bodyLen := 0 }
    { s with
      allocations := s.allocations.set slabIdx slab
      usedSize := wrappingAdd 64 s.usedSize slab.size
      mmap := writeSlabEntry s.mmap slab
      digestIndex := Function.update s.digestIndex digest (some slabIdx) }

def allocObj (s : PersistentStevedore) (digest : Digest) (sizeHint : ℕ) :
    Except StorageError Unit × PersistentStevedore :=
  let required := max sizeHint 64
  match s.findFreeSlab required with
  | some slabIdx => (.ok (), s.occupy slabIdx digest)
  | none =>
    match s.allocNewSlab required with
    | .ok (s, slabIdx) => (.ok (), s.occupy slabIdx digest)
    | .error e => (.error e, s)

def freeObj (s : PersistentStevedore) (digest : Digest) : PersistentStevedore :=
  match s.digestIndex digest with
  | none => s
  | some slabIdx =>
    let s := { s with digestIndex := Function.update s.digestIndex digest none }
    match s.allocations[slabIdx]? with
    | none => s
    | some slab =>
      let freed := slab.size
      let slab := { slab with inUse := false, bodyLen := 0 }
      { s with
        allocations := s.allocations.set slabIdx slab
        usedSize := wrappingSub 64 s.usedSize freed
        mmap := writeSlabEntry s.mmap slab }

/-- `extend`, with the bytes it wrote. -/
def extend (s : PersistentStevedore) (digest : Digest) (data : List UInt8) :
    Except StorageError Unit × List ByteRange × PersistentStevedore :=
  match s.digestIndex digest with
  | none => (.error .notFound, [], s)
  | some slabIdx =>
    match s.allocations[slabIdx]? with
    | none => (.error .notFound, [], s)
    | some slab =>
      let writeOffset := wrappingAdd 64 slab.offset slab.bodyLen
      let writeEnd := wrappingAdd 64 writeOffset data.length
      if slab.stop < writeEnd then (.error .full, [], s)
      else
        (.ok (), [⟨writeOffset, data.length⟩],
          { s with
            mmap := write s.mmap writeOffset data
            allocations := s.allocations.set slabIdx
              { slab with bodyLen := wrappingAdd 64 slab.bodyLen data.length } })

def getBody (s : PersistentStevedore) (digest : Digest) : Option (List UInt8) :=
  match s.digestIndex digest with
  | none => none
  | some slabIdx =>
    match s.allocations[slabIdx]? with
    | none => none
    | some slab =>
      if slab.bodyLen = 0 then none else some (read s.mmap slab.offset slab.bodyLen)

/-! ## Compaction -/

/-- The variables of the loop that moves the slabs. -/
structure Compaction where
  mmap : ℕ → UInt8
  allocs : List SlabEntry
  nextOffset : ℕ
  touched : List ByteRange

/-- One slab of the loop: its body goes down to the next free offset. -/
def Compaction.moveSlab (c : Compaction) (idx : ℕ) : Compaction :=
  match c.allocs[idx]? with
  | none => c
  | some slab =>
    let size := slab.bodyLen
    let alignedSize := alignUp size
    let moves : Bool := c.nextOffset ≠ slab.offset ∧ 0 < size
    let mmap := if moves then move c.mmap slab.offset c.nextOffset size else c.mmap
    let touched := if moves then [⟨slab.offset, size⟩, ⟨c.nextOffset, size⟩] else []
    let slab := { slab with offset := c.nextOffset, size := max alignedSize slab.size }
    { mmap := writeSlabPlace mmap slab
      allocs := c.allocs.set idx slab
      nextOffset := wrappingAdd 64 c.nextOffset slab.size
      touched := c.touched ++ touched }

def inUseByOffset (allocs : List SlabEntry) : List (SlabEntry × ℕ) :=
  (allocs.zipIdx.filter (·.1.inUse)).mergeSort fun a b => decide (a.1.offset ≤ b.1.offset)

/-- A later slab replaces an earlier one of the same digest. -/
def rebuildIndex (active : List SlabEntry) : Digest → Option ℕ :=
  active.zipIdx.foldl (fun index p => Function.update index p.1.digest (some p.2)) fun _ => none

/-- `compact`, with the bytes it read and wrote. -/
def compact (s : PersistentStevedore) : List ByteRange × PersistentStevedore :=
  let c := ((inUseByOffset s.allocations).map Prod.snd).foldl Compaction.moveSlab
    ⟨s.mmap, s.allocations, dataRegionOffset, []⟩
  let active := c.allocs.filter SlabEntry.inUse
  (c.touched,
    { s with
      mmap := c.mmap
      digestIndex := rebuildIndex active
      allocations := active.mapIdx fun i slab => { slab with index := i }
      usedSize := (active.map SlabEntry.size).foldl (wrappingAdd 64) 0 })

def usedSpace (s : PersistentStevedore) : ℕ := s.usedSize

end PersistentStevedore

/-! ## Calls -/

inductive StoreCall
  | allocObj (digest : Digest) (sizeHint : ℕ)
  | extend (digest : Digest) (data : List UInt8)
  | freeObj (digest : Digest)
  | compact

/-- What a call answers, and the slab data it touched. -/
structure StoreAnswer where
  result : Except StorageError Unit
  touched : List ByteRange

/-- The lengths of a call are lengths of byte slices: at most `isize::MAX`. -/
def StoreCall.Sliced : StoreCall → Prop
  | .allocObj _ sizeHint => sizeHint < 2 ^ 63
  | .extend _ data => data.length < 2 ^ 63
  | _ => True

namespace PersistentStevedore

def step (s : PersistentStevedore) : StoreCall → StoreAnswer × PersistentStevedore
  | .allocObj digest sizeHint =>
    let r := s.allocObj digest sizeHint
    (⟨r.1, []⟩, r.2)
  | .extend digest data =>
    let r := s.extend digest data
    (⟨r.1, r.2.1⟩, r.2.2)
  | .freeObj digest => (⟨.ok (), []⟩, s.freeObj digest)
  | .compact =>
    let r := s.compact
    (⟨.ok (), r.1⟩, r.2)

end PersistentStevedore

end VarahaCache
