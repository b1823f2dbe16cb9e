import VarahaCache.Storage.Bodies

/-!
# Recovery

`close`, and `open` on the file it leaves behind. Only the slab table is read
back: an entry is written when its slab is allocated or freed, with an empty
body, and compaction writes the new place of a slab under its old number.
While the table agrees with the slab list (`Synced`), the digests come back
and the bodies do not.
-/

namespace VarahaCache

open Blocks Words Function List Lib SlabEntry

def leNat : List UInt8 → ℕ
  | [] => 0
  | b :: bs => b.toNat + 256 * leNat bs

def Digest.zero : Digest := ⟨.replicate 32 0⟩

def entryAt (mmap : ℕ → UInt8) (i : ℕ) : SlabEntry :=
  let entryOffset := fileHeaderSize + i * slabEntrySize
  { index := i
    digest := ⟨.ofFn fun k : Fin 32 => mmap (entryOffset + k)⟩
    offset := leNat (read mmap (entryOffset + 32) 8)
    size := leNat (read mmap (entryOffset + 40) 8)
    inUse := decide (mmap (entryOffset + 48) ≠ 0)
    bodyLen := leNat (read mmap (entryOffset + 49) 8) }

/-- The variables of the scan over the table. -/
structure TableScan where
  allocs : List SlabEntry
  digestIdx : Digest → Option ℕ
  recovered : List ObjCore
  totalUsed : ℕ

namespace TableScan

/-- One entry of the table; none where the scan stops. -/
def entry (totalSize : ℕ) (mmap : ℕ → UInt8) (i : ℕ) (c : TableScan) : Option TableScan :=
  if totalSize < fileHeaderSize + i * slabEntrySize + slabEntrySize then none
  else
    let slab := entryAt mmap i
    if slab.inUse = false then
      if slab.digest = .zero then none
      else some { c with allocs := c.allocs ++ [{ slab with bodyLen := 0 }] }
    else
      some
        { allocs := c.allocs ++ [slab]
          digestIdx := update c.digestIdx slab.digest (some i)
          recovered := c.recovered ++ [ObjCore.new 0 slab.digest]
          totalUsed := wrappingAdd 64 c.totalUsed slab.size }

/-- The entries from `i` on, `n` of them. -/
def loop (totalSize : ℕ) (mmap : ℕ → UInt8) : ℕ → ℕ → TableScan → TableScan
  | 0, _, c => c
  | n + 1, i, c =>
    match c.entry totalSize mmap i with
    | none => c
    | some c => loop totalSize mmap n (i + 1) c

end TableScan

structure StoreFile where
  len : ℕ
  bytes : ℕ → UInt8

namespace PersistentStevedore

def loadExisting (s : PersistentStevedore) : List ObjCore × PersistentStevedore :=
  let c := TableScan.loop s.totalSize s.mmap maxSlabs 0 ⟨s.allocations, s.digestIndex, [], 0⟩
  (c.recovered,
    { s with allocations := c.allocs, digestIndex := c.digestIdx, usedSize := c.totalUsed })

def validateHeader (s : PersistentStevedore) : Bool := decide (fileHeaderSize ≤ s.totalSize) &&
    decide (read s.mmap 0 8 = "RVSLAB01".toUTF8.data.toList) &&
    decide (leNat (read s.mmap 8 4) = 1)

def close (s : PersistentStevedore) : StoreFile := ⟨s.totalSize, s.mmap⟩

/-- `new` and `open` where the file exists: it is cut or filled up with zeros.
-/
def openExisting (size : ℕ) (file : StoreFile) : Option (List ObjCore × PersistentStevedore) :=
  if dataRegionOffset < size ∧ size < 2 ^ 63 then
    let s : PersistentStevedore :=
      { totalSize := size
        usedSize := 0
        mmap := fun a => if a < min file.len size then file.bytes a else 0
        allocations := []
        digestIndex := fun _ => none }
    if s.validateHeader then some s.loadExisting
    else some ([], { s with mmap := writeHeader s.mmap size })
  else none

end PersistentStevedore

/-! ## Numbers and entries read back -/

section Table

variable {m m' : ℕ → UInt8} {slab : SlabEntry} {i a : ℕ}

theorem leBytes_succ (width n : ℕ) :
    leBytes (width + 1) n = UInt8.ofNat (n % 256) :: leBytes width (n / 256) := by
  rw [leBytes, range_succ_eq_map, map_cons, map_map, leBytes]
  simp [comp_def, Nat.pow_succ', Nat.div_div_eq_div_mul]

theorem leNat_leBytes {width n : ℕ} (h : n < 256 ^ width) : leNat (leBytes width n) = n := by
  induction width generalizing n with
  | zero =>
    have hzero : n = 0 := by simpa using h
    subst hzero
    rfl
  | succ width ih =>
    have hdiv : n / 256 < 256 ^ width := by
      rw [Nat.pow_succ'] at h
      exact Nat.div_lt_of_lt_mul h
    have hbyte : (UInt8.ofNat (n % 256)).toNat = n % 256 :=
      UInt8.toNat_ofNat_of_lt' (Nat.mod_lt _ (by decide))
    rw [leBytes_succ, leNat, ih hdiv, hbyte]
    exact Nat.mod_add_div n 256

theorem entryAt_congr (h : ∀ a, fileHeaderSize + i * slabEntrySize ≤ a →
    a < fileHeaderSize + i * slabEntrySize + slabEntrySize → m' a = m a) :
    entryAt m' i = entryAt m i := by
  have hread : ∀ k len, k + len ≤ slabEntrySize →
      read m' (fileHeaderSize + i * slabEntrySize + k) len =
        read m (fileHeaderSize + i * slabEntrySize + k) len :=
    fun k len hk => read_congr fun a hlow hhigh => h a (by omega) (by omega)
  have hdigest : (Vector.ofFn fun k : Fin 32 => m' (fileHeaderSize + i * slabEntrySize + k)) =
      Vector.ofFn fun k : Fin 32 => m (fileHeaderSize + i * slabEntrySize + k) := by
    congr 1
    funext k
    have hk : (k : ℕ) < slabEntrySize := k.isLt.trans (by decide)
    exact h _ (by omega) (by omega)
  have hflag : m' (fileHeaderSize + i * slabEntrySize + 48) =
      m (fileHeaderSize + i * slabEntrySize + 48) :=
    h _ (by omega) (by rw [slabEntrySize]; omega)
  simp only [entryAt]
  rw [hdigest, hflag, hread 32 8 (by decide), hread 40 8 (by decide), hread 49 8 (by decide)]

theorem writeSlabPlace_of_outside (h : a < slab.entryOffset + 32 ∨ slab.entryOffset + 48 ≤ a) :
    writeSlabPlace m slab a = m a := by
  rw [writeSlabPlace, write_of_outside (by rw [length_leBytes]; omega),
    write_of_outside (by rw [length_leBytes]; omega)]

theorem writeSlabEntry_of_outside
    (h : a < slab.entryOffset ∨ slab.entryOffset + slabEntrySize ≤ a) :
    writeSlabEntry m slab a = m a := by
  rw [slabEntrySize] at h
  rw [writeSlabEntry, write_of_outside (by rw [length_leBytes]; omega),
    write_of_outside (by simp; omega), write_of_outside (by rw [length_leBytes]; omega),
    write_of_outside (by rw [length_leBytes]; omega), write_of_outside (by simp; omega)]

theorem entryAt_writeSlabEntry_of_ne (h : slab.index ≠ i) :
    entryAt (writeSlabEntry m slab) i = entryAt m i := by
  refine entryAt_congr fun a hlow hhigh => writeSlabEntry_of_outside ?_
  simp only [entryOffset, slabEntrySize] at hlow hhigh ⊢
  omega

theorem entryAt_writeSlabPlace_of_ne (h : slab.index ≠ i) :
    entryAt (writeSlabPlace m slab) i = entryAt m i := by
  refine entryAt_congr fun a hlow hhigh => writeSlabPlace_of_outside ?_
  simp only [entryOffset, slabEntrySize] at hlow hhigh ⊢
  omega

theorem read_leBytes_self {place n : ℕ} :
    read (write m place (leBytes 8 n)) place 8 = leBytes 8 n := by
  have h : read (write m place (leBytes 8 n)) place (leBytes 8 n).length = leBytes 8 n :=
    read_write_self
  rwa [length_leBytes] at h

theorem write_apply_add {place k : ℕ} {bytes : List UInt8} (hk : k < bytes.length) :
    write m place bytes (place + k) = bytes[k] := by
  rw [write, if_neg (by omega), Nat.add_sub_cancel_left, getElem?_eq_getElem hk]
  rfl

theorem entryAt_writeSlabEntry_self (hindex : slab.index = i) (hoffset : slab.offset < 2 ^ 64)
    (hsize : slab.size < 2 ^ 64) (hbody : slab.bodyLen < 2 ^ 64) :
    entryAt (writeSlabEntry m slab) i = slab := by
  subst hindex
  have hplace : fileHeaderSize + slab.index * slabEntrySize = slab.entryOffset := rfl
  obtain ⟨index, offset, size, inUse, ⟨bytes⟩, bodyLen⟩ := slab
  simp only [entryAt, hplace, mk.injEq, true_and, writeSlabEntry, Digest.mk.injEq]
  generalize entryOffset _ = base
  -- each part is read where it was written, and what is written later lies behind it
  refine ⟨?_, ?_, ?_, ?_, ?_⟩
  · rw [read_write_of_apart (.inl (by omega)), read_write_of_apart (.inl (by omega)),
      read_write_of_apart (.inl (by omega)), read_leBytes_self, leNat_leBytes hoffset]
  · rw [read_write_of_apart (.inl (by omega)), read_write_of_apart (.inl (by omega)),
      read_leBytes_self, leNat_leBytes hsize]
  · rw [write_of_outside (.inl (by omega))]
    cases inUse <;> simp [write]
  · ext k hk
    rw [Vector.getElem_ofFn, write_of_outside (.inl (by omega)), write_of_outside (.inl (by omega)),
      write_of_outside (.inl (by omega)), write_of_outside (.inl (by omega)),
      write_apply_add (by simpa using hk), Vector.getElem_toList]
  · rw [read_leBytes_self, leNat_leBytes hbody]

theorem entryAt_writeSlabPlace_self (hindex : slab.index = i) (hoffset : slab.offset < 2 ^ 64)
    (hsize : slab.size < 2 ^ 64) :
    entryAt (writeSlabPlace m slab) i =
      { entryAt m i with offset := slab.offset, size := slab.size } := by
  subst hindex
  have hplace : fileHeaderSize + slab.index * slabEntrySize = slab.entryOffset := rfl
  simp only [entryAt, hplace, mk.injEq, true_and, writeSlabPlace, Digest.mk.injEq]
  generalize slab.entryOffset = base
  refine ⟨?_, ?_, ?_, ?_, ?_⟩
  · rw [read_write_of_apart (.inl (by omega)), read_leBytes_self, leNat_leBytes hoffset]
  · rw [read_leBytes_self, leNat_leBytes hsize]
  · rw [write_of_outside (.inr (by rw [length_leBytes])),
      write_of_outside (.inr (by rw [length_leBytes]; omega))]
  · ext k hk
    rw [Vector.getElem_ofFn, Vector.getElem_ofFn, write_of_outside (.inl (by omega)),
      write_of_outside (.inl (by omega))]
  · rw [read_write_of_apart (.inr (by rw [length_leBytes]; omega)),
      read_write_of_apart (.inr (by rw [length_leBytes]; omega))]

end Table

/-! ## The table against the slab list -/

/-- The header is there, and the table has an entry for every slab, with an
empty body, and no entry in use for another. -/
structure Tabled (m : ℕ → UInt8) (allocs : List SlabEntry) : Prop where
  header : read m 0 8 = "RVSLAB01".toUTF8.data.toList ∧ leNat (read m 8 4) = 1
  entries : ∀ (i : ℕ) (slab : SlabEntry), allocs[i]? = some slab →
    i < maxSlabs ∧ entryAt m i = { slab with bodyLen := 0 }
  clear : ∀ i : ℕ, i < maxSlabs → allocs[i]? = none → (entryAt m i).inUse = false

theorem getElem?_filter_inUse {l : List SlabEntry}
    (h : l.Pairwise fun a b => b.inUse = true → a.inUse = true) (i : ℕ) :
    (l.filter inUse)[i]? = l[i]?.filter inUse := by
  induction l generalizing i with
  | nil => rfl
  | cons a l ih =>
    obtain ⟨hfirst, hrest⟩ := pairwise_cons.mp h
    cases ha : a.inUse with
    | true =>
      rw [filter_cons_of_pos ha]
      cases i with
      | zero =>
        rw [getElem?_cons_zero, getElem?_cons_zero]
        exact (Option.filter_some_pos ha).symm
      | succ i => exact ih hrest i
    | false =>
      -- no slab is in use from here on
      have hfree : ∀ b ∈ a :: l, b.inUse = false := by
        simp only [forall_mem_cons]
        refine ⟨ha, fun b hb => ?_⟩
        rw [← Bool.not_eq_true]
        intro hinUse
        rw [hfirst b hb hinUse] at ha
        cases ha
      have hnil : (a :: l).filter inUse = [] := by
        simpa [filter_eq_nil_iff] using hfree
      rw [hnil, getElem?_nil]
      symm
      rw [Option.filter_eq_none_iff]
      intro b hb
      rw [hfree b (mem_of_getElem? hb)]
      simp

namespace Tabled

variable {m m' : ℕ → UInt8} {allocs allocs' : List SlabEntry}

theorem header_congr (ht : Tabled m allocs) (h : ∀ a < fileHeaderSize, m' a = m a) :
    read m' 0 8 = "RVSLAB01".toUTF8.data.toList ∧ leNat (read m' 8 4) = 1 := by
  rw [fileHeaderSize] at h
  have hmagic : read m' 0 8 = read m 0 8 := read_congr fun a _ _ => h a (by omega)
  have hversion : read m' 8 4 = read m 8 4 := read_congr fun a _ _ => h a (by omega)
  rw [hmagic, hversion]
  exact ht.header

theorem entryAt_of_data (h : ∀ a < dataRegionOffset, m' a = m a) {i : ℕ} (hi : i < maxSlabs) :
    entryAt m' i = entryAt m i := by
  refine entryAt_congr fun a _ hhigh => h a ?_
  simp only [dataRegionOffset, fileHeaderSize, maxSlabs, slabEntrySize] at hi hhigh ⊢
  omega

theorem of_data (ht : Tabled m allocs) (h : ∀ a < dataRegionOffset, m' a = m a) :
    Tabled m' allocs := by
  constructor
  case header => exact ht.header_congr fun a ha => h a (ha.trans (by decide))
  case entries =>
    intro i slab hslab
    obtain ⟨hi, hentry⟩ := ht.entries i slab hslab
    exact ⟨hi, by rw [entryAt_of_data h hi, hentry]⟩
  case clear =>
    intro i hi hnone
    rw [entryAt_of_data h hi]
    exact ht.clear i hi hnone

variable {slab : SlabEntry}

theorem write (ht : Tabled m allocs) (hheader : ∀ a < fileHeaderSize, m' a = m a) {i : ℕ}
    (hi : i < maxSlabs) (hslab : allocs'[i]? = some slab)
    (hothers : ∀ j : ℕ, j ≠ i → allocs'[j]? = allocs[j]?)
    (hself : entryAt m' i = { slab with bodyLen := 0 })
    (hentries : ∀ j, j ≠ i → entryAt m' j = entryAt m j) : Tabled m' allocs' := by
  constructor
  case header => exact ht.header_congr hheader
  case entries =>
    intro j slab' hslab'
    by_cases hj : j = i
    · subst hj
      rw [hslab, Option.some.injEq] at hslab'
      subst hslab'
      exact ⟨hi, hself⟩
    · rw [hothers j hj] at hslab'
      rw [hentries j hj]
      exact ht.entries j slab' hslab'
  case clear =>
    intro j hj hnone
    have hne : j ≠ i := by
      rintro rfl
      rw [hslab] at hnone
      cases hnone
    rw [hothers j hne] at hnone
    rw [hentries j hne]
    exact ht.clear j hj hnone

theorem writeSlabEntry (ht : Tabled m allocs) (hindex : slab.index < maxSlabs)
    (hoffset : slab.offset < 2 ^ 64) (hsize : slab.size < 2 ^ 64) (hbody : slab.bodyLen = 0)
    (hself : allocs'[slab.index]? = some slab)
    (hothers : ∀ j : ℕ, j ≠ slab.index → allocs'[j]? = allocs[j]?) :
    Tabled (VarahaCache.writeSlabEntry m slab) allocs' := by
  refine ht.write (fun a ha => writeSlabEntry_of_outside ?_) hindex hself hothers ?_ fun j hj =>
    entryAt_writeSlabEntry_of_ne hj.symm
  · exact .inl (ha.trans_le (Nat.le_add_right ..))
  · rw [entryAt_writeSlabEntry_self rfl hoffset hsize (by omega), ← hbody]

variable {i : ℕ}

theorem grow (ht : Tabled m allocs) (hslab : allocs[i]? = some slab) (bodyLen : ℕ) :
    Tabled m (allocs.set i { slab with bodyLen := bodyLen }) := by
  obtain ⟨hi, hentry⟩ := ht.entries i slab hslab
  exact ht.write (fun _ _ => rfl) hi (getElem?_set_self (List.getElem?_eq_some_iff.mp hslab).1)
    (fun _ hj => getElem?_set_ne hj.symm) hentry fun _ _ => rfl

theorem writeSlabPlace (ht : Tabled m allocs) (hslab : allocs[i]? = some slab) {offset : ℕ}
    (hoffset : offset < 2 ^ 64) (hsize : slab.size < 2 ^ 64) :
    Tabled (VarahaCache.writeSlabPlace m { slab with offset := offset })
      (allocs.set i { slab with offset := offset }) := by
  obtain ⟨hi, hentry⟩ := ht.entries i slab hslab
  have hindex : index { slab with offset := offset } = i := (congrArg index hentry).symm
  refine ht.write (fun a ha => writeSlabPlace_of_outside (.inl (by rw [entryOffset]; omega))) hi
    (getElem?_set_self (List.getElem?_eq_some_iff.mp hslab).1)
    (fun _ hj => getElem?_set_ne hj.symm) ?_ fun j hj =>
      entryAt_writeSlabPlace_of_ne (hindex.trans_ne hj.symm)
  rw [entryAt_writeSlabPlace_self hindex hoffset hsize, hentry]

theorem slab_of_inUse (h : Tabled m allocs) {j : ℕ} (hj : j < maxSlabs)
    (hinUse : (entryAt m j).inUse = true) :
    ∃ slab, allocs[j]? = some slab ∧ entryAt m j = { slab with bodyLen := 0 } := by
  cases hat : allocs[j]? with
  | none =>
    rw [h.clear j hj hat] at hinUse
    cases hinUse
  | some slab => exact ⟨slab, rfl, (h.entries j slab hat).2⟩

theorem dropFree (h : Tabled m allocs)
    (hfirst : allocs.Pairwise fun a b => b.inUse = true → a.inUse = true) :
    Tabled m ((allocs.filter inUse).mapIdx fun i slab => { slab with index := i }) where
  header := h.header
  entries := by
    intro i slab hslab
    rw [getElem?_mapIdx, getElem?_filter_inUse hfirst, Option.map_eq_some_iff] at hslab
    obtain ⟨a, ha, rfl⟩ := hslab
    obtain ⟨hi, hentry⟩ := h.entries i a (Option.filter_eq_some_iff.mp ha).1
    have hnumber : i = a.index := congrArg index hentry
    refine ⟨hi, ?_⟩
    rw [hentry]
    subst hnumber
    rfl
  clear := by
    intro i hi hnone
    rw [getElem?_mapIdx, Option.map_eq_none_iff, getElem?_filter_inUse hfirst,
      Option.filter_eq_none_iff] at hnone
    cases hat : allocs[i]? with
    | none => exact h.clear i hi hat
    | some a =>
      rw [(h.entries i a hat).2]
      simpa using hnone a hat

end Tabled

namespace PersistentStevedore

/-- The table agrees with the slab list, and the index leads to every slab in
use. -/
structure Synced (s : PersistentStevedore) : Prop where
  tabled : Tabled s.mmap s.allocations
  listed : ∀ (i : ℕ) (slab : SlabEntry), s.allocations[i]? = some slab → slab.inUse = true →
    s.digestIndex slab.digest = some i

/-- No slab in use stands behind a free one. -/
def InUseFirst (s : PersistentStevedore) : Prop :=
  s.allocations.Pairwise fun a b => b.inUse = true → a.inUse = true

/-- The lengths are those of byte slices, no digest is allocated while it is
allocated, the zero digest included, and the store is only compacted when no
slab in use would get another number. -/
def RecoveryOk (s : PersistentStevedore) : StoreCall → Prop
  | .allocObj digest sizeHint => sizeHint < 2 ^ 63 ∧
      ((s.allocObj digest sizeHint).1 = .ok () → s.digestIndex digest = none)
  | .extend _ data => data.length < 2 ^ 63
  | .freeObj _ => True
  | .compact => s.InUseFirst

variable {s : PersistentStevedore} {w : Written} {call : StoreCall} {size i : ℕ}

theorem RecoveryOk.sliced (h : s.RecoveryOk call) : call.Sliced := by
  cases call with
  | allocObj d sizeHint => exact h.1
  | extend d data => exact h
  | freeObj d => trivial
  | compact => trivial

/-! ## One call -/

theorem tabled_create (h : create size = some s) : Tabled s.mmap s.allocations := by
  rw [create] at h
  split at h
  · cases h
    have hmagic : "RVSLAB01".toUTF8.data.toList.length = 8 := rfl
    constructor
    case header =>
      dsimp only [writeHeader]
      have hself : ∀ m : ℕ → UInt8, read (write m 0 "RVSLAB01".toUTF8.data.toList) 0 8 =
          "RVSLAB01".toUTF8.data.toList := fun m => read_write_self
      have hversion : ∀ m : ℕ → UInt8, read (write m 8 (leBytes 4 1)) 8 4 = leBytes 4 1 :=
        fun m => read_write_self
      rw [read_write_of_apart (.inl (by omega)), read_write_of_apart (.inl (by omega)), hself,
        read_write_of_apart (.inl (by omega)), hversion]
      exact ⟨rfl, rfl⟩
    case entries =>
      intro i slab hslab
      simp at hslab
    case clear =>
      intro i _ _
      have hzero : (entryAt (fun _ => 0) i).inUse = false := rfl
      rw [← hzero]
      refine congrArg inUse (entryAt_congr fun a hlow _ => ?_)
      rw [fileHeaderSize] at hlow
      dsimp only [writeHeader]
      rw [write_of_outside (.inr (by rw [length_leBytes]; omega)),
        write_of_outside (.inr (by rw [length_leBytes]; omega)),
        write_of_outside (.inr (by rw [hmagic]; omega))]
  · cases h

/-- The index has the digests that are allocated and not freed. -/
def Indexes (s : PersistentStevedore) (w : Written) : Prop :=
  ∀ d, s.digestIndex d = none ↔ w d = none

theorem synced_create (h : create size = some s) : s.Synced ∧ s.Indexes fun _ => none := by
  have htabled := tabled_create h
  rw [create] at h
  split at h
  · cases h
    exact ⟨⟨htabled, by simp⟩, by simp [Indexes]⟩
  · cases h

theorem Inv.tabled_set {m : ℕ → UInt8} {allocs : List SlabEntry} {slab : SlabEntry}
    (hinv : s.Inv) (ht : Tabled m allocs) (hslab : s.allocations[i]? = some slab)
    (hothers : ∀ j : ℕ, j ≠ i → s.allocations[j]? = allocs[j]?) (slab' : SlabEntry)
    (hplace : slab'.place = slab.place) (hindex : slab'.index = slab.index)
    (hbody : slab'.bodyLen = 0) : Tabled (writeSlabEntry m slab') (s.allocations.set i slab') := by
  have hin := hinv.inside slab (mem_of_getElem? hslab)
  have hroom := hinv.room.2
  obtain ⟨hoffset, hsize⟩ := Prod.mk.inj hplace
  have hnumber := hindex.trans (hinv.numbered i slab hslab)
  refine ht.writeSlabEntry (hindex.trans_lt (hinv.index_lt hslab)) (by omega) (by omega) hbody ?_ ?_
  · rw [hnumber, getElem?_set_self (List.getElem?_eq_some_iff.mp hslab).1]
  intro j hj
  rw [hnumber] at hj
  rw [getElem?_set_ne hj.symm, hothers j hj]

theorem Synced.occupy (h : s.Synced) {t : PersistentStevedore} {slab : SlabEntry} (hinv : t.Inv)
    (hwidens : s.Widens t) (hothers : ∀ j : ℕ, j ≠ i → t.allocations[j]? = s.allocations[j]?)
    (hslab : t.allocations[i]? = some slab) {d : Digest} (hnew : s.digestIndex d = none) :
    (t.occupy i d).Synced := by
  rw [hinv.occupy_eq hslab]
  constructor
  case tabled =>
    rw [hwidens.mmap]
    exact hinv.tabled_set h.tabled hslab hothers _ rfl rfl rfl
  case listed =>
    dsimp only
    intro j slab' hslab' hinUse
    rcases getElem?_set_cases hslab' with ⟨rfl, rfl⟩ | ⟨hj, hslab'⟩
    · exact update_self ..
    rw [hothers j hj.symm] at hslab'
    have hindex := h.listed j slab' hslab' hinUse
    have hne : slab'.digest ≠ d := by
      rintro rfl
      rw [hnew] at hindex
      cases hindex
    rw [update_of_ne hne, hwidens.digestIndex]
    exact hindex

theorem Synced.freeObj (h : s.Synced) (hinv : s.Inv) (d : Digest) : (s.freeObj d).Synced := by
  cases hindex : s.digestIndex d with
  | none => simpa [PersistentStevedore.freeObj, hindex] using h
  | some i =>
    obtain ⟨slab, hslab, -, -⟩ := hinv.indexed d i hindex
    rw [(hinv.freeObj_eq hindex hslab).1]
    constructor
    case tabled => exact hinv.tabled_set h.tabled hslab (fun _ _ => rfl) _ rfl rfl rfl
    case listed =>
      dsimp only
      intro j slab' hslab' hinUse
      rcases getElem?_set_cases hslab' with ⟨rfl, rfl⟩ | ⟨hj, hslab'⟩
      · cases hinUse
      have hindex' := h.listed j slab' hslab' hinUse
      have hne : slab'.digest ≠ d := by
        rintro rfl
        rw [hindex, Option.some.injEq] at hindex'
        exact hj hindex'
      rw [update_of_ne hne]
      exact hindex'

theorem Synced.extend (h : s.Synced) (hinv : s.Inv) (d : Digest) {data : List UInt8}
    (hdata : data.length < 2 ^ 63) : (s.extend d data).2.2.Synced := by
  cases hindex : s.digestIndex d with
  | none => simpa [PersistentStevedore.extend, hindex] using h
  | some i =>
    obtain ⟨slab, hslab, -, -⟩ := hinv.indexed d i hindex
    rw [hinv.extend_eq hindex hslab hdata]
    split
    · exact h
    have hin := hinv.inside slab (mem_of_getElem? hslab)
    constructor
    case tabled =>
      refine (h.tabled.grow hslab _).of_data fun a ha => write_of_outside (.inl ?_)
      omega
    case listed =>
      intro j slab' hslab' hinUse
      rcases getElem?_set_cases hslab' with ⟨rfl, rfl⟩ | ⟨-, hslab'⟩
      · exact h.listed j slab hslab hinUse
      · exact h.listed j slab' hslab' hinUse

/-! ## Compaction -/

section Compact

variable {orig : List SlabEntry} {m₀ : ℕ → UInt8} {totalSize : ℕ} {done rest : List (SlabEntry × ℕ)}
  {c : Compaction}

theorem Compacting.tabled (h : Compacting orig m₀ totalSize done rest c)
    (hmovable : Movable orig totalSize (done ++ rest)) (htotal : totalSize < 2 ^ 63)
    (ht : Tabled c.mmap c.allocs) :
    Tabled ((rest.map Prod.snd).foldl Compaction.moveSlab c).mmap
      ((rest.map Prod.snd).foldl Compaction.moveSlab c).allocs := by
  induction rest generalizing done c with
  | nil => exact ht
  | cons p rest ih =>
    have hnext := h.moveSlab hmovable htotal
    have hmem : p ∈ done ++ p :: rest := by simp
    have hin := hmovable.inside p hmem
    have hahead := h.ahead p (mem_cons_self ..)
    have hslab : c.allocs[p.2]? = some p.1 := by
      rw [h.pending p.2 hmovable.ne_index]
      exact hmovable.listed p hmem
    have hsize := alignUp_le (hmovable.aligned p hmem).2 (hmovable.body p hmem)
      (by have := hmovable.body p hmem; omega)
    have hlow := h.low
    have hsplit : done ++ p :: rest = done ++ [p] ++ rest := by simp
    refine ih hnext (hsplit ▸ hmovable) ?_
    rw [moveSlab_eq hslab hsize (by omega)]
    refine Tabled.writeSlabPlace (Tabled.of_data ht fun a ha => ?_) hslab (by omega) (by omega)
    -- the body goes to slab data
    split
    · exact write_of_outside (.inl (by omega))
    · rfl

theorem Compacting.slab (h : Compacting orig m₀ totalSize (inUseByOffset orig) [] c) {i : ℕ}
    {a : SlabEntry} (ha : c.allocs[i]? = some a) :
    ∃ slab, orig[i]? = some slab ∧ a.inUse = slab.inUse ∧ a.digest = slab.digest := by
  by_cases hdone : ∀ p ∈ inUseByOffset orig, p.2 ≠ i
  · rw [h.pending i hdone] at ha
    exact ⟨a, ha, rfl, rfl⟩
  simp only [not_forall, not_not] at hdone
  obtain ⟨p, hp, rfl⟩ := hdone
  obtain ⟨o, hat, -⟩ := h.placed p hp
  rw [hat, Option.some.injEq] at ha
  subst ha
  exact ⟨p.1, (mem_inUseByOffset.mp hp).1, rfl, rfl⟩

theorem Compacting.inUseFirst (h : Compacting orig m₀ totalSize (inUseByOffset orig) [] c)
    (hfirst : orig.Pairwise fun a b => b.inUse = true → a.inUse = true) :
    c.allocs.Pairwise fun a b => b.inUse = true → a.inUse = true := by
  rw [pairwise_iff_getElem]
  intro i j hi hj hij hinUse
  obtain ⟨a, ha, hinUse₁, -⟩ := h.slab (getElem?_eq_getElem hi)
  obtain ⟨b, hb, hinUse₂, -⟩ := h.slab (getElem?_eq_getElem hj)
  obtain ⟨hi', rfl⟩ := List.getElem?_eq_some_iff.mp ha
  obtain ⟨hj', rfl⟩ := List.getElem?_eq_some_iff.mp hb
  rw [hinUse₁]
  exact pairwise_iff_getElem.mp hfirst i j hi' hj' hij (hinUse₂ ▸ hinUse)

end Compact

/-- Compaction that renumbers nothing keeps the table, and the index as it
was. -/
theorem Synced.compact (h : s.Synced) (hinv : s.Inv) (hfirst : s.InUseFirst) :
    s.compact.2.Synced ∧ s.compact.2.digestIndex = s.digestIndex := by
  have hloop := hinv.compacting
  have htabled : Tabled s.compacted.mmap s.compacted.allocs :=
    hinv.startCompacting.tabled hinv.movable hinv.room.2 h.tabled
  rw [compact_eq]
  generalize s.compacted = c at hloop htabled ⊢
  have hfirst' := hloop.inUseFirst hfirst
  have hactive : ∀ (i : ℕ) (a : SlabEntry), (c.allocs.filter inUse)[i]? = some a ↔
      c.allocs[i]? = some a ∧ a.inUse = true := by
    intro i a
    rw [getElem?_filter_inUse hfirst', Option.filter_eq_some_iff]
  have hlisted : ∀ (i : ℕ) (a : SlabEntry), (c.allocs.filter inUse)[i]? = some a →
      s.digestIndex a.digest = some i := by
    intro i a ha
    obtain ⟨hat, hinUse⟩ := (hactive i a).mp ha
    obtain ⟨slab, hslab, hinUse', hdigest⟩ := hloop.slab hat
    rw [hdigest]
    exact h.listed i slab hslab (hinUse' ▸ hinUse)
  have hindex : rebuildIndex (c.allocs.filter inUse) = s.digestIndex := by
    funext d
    refine Option.ext fun i => ?_
    rw [rebuildIndex_eq_some]
    constructor
    · rintro ⟨a, ha, rfl, -⟩
      exact hlisted i a ha
    intro hindex
    obtain ⟨slab, hslab, hinUse, rfl⟩ := hinv.indexed d i hindex
    obtain ⟨o, hat, -⟩ := hloop.placed (slab, i) (mem_inUseByOffset.mpr ⟨hslab, hinUse⟩)
    refine ⟨_, (hactive i _).mpr ⟨hat, hinUse⟩, rfl, fun k b hk hb hsame => ?_⟩
    have hother := hlisted k b hb
    rw [hsame, hindex, Option.some.injEq] at hother
    omega
  refine ⟨⟨htabled.dropFree hfirst', ?_⟩, hindex⟩
  intro i slab hslab _
  rw [getElem?_mapIdx, Option.map_eq_some_iff] at hslab
  obtain ⟨a, ha, rfl⟩ := hslab
  rw [hindex]
  exact hlisted i a ha

theorem digestIndex_extend (s : PersistentStevedore) (d : Digest) (data : List UInt8) :
    (s.extend d data).2.2.digestIndex = s.digestIndex := by
  rw [PersistentStevedore.extend]
  split
  · rfl
  split
  · rfl
  · dsimp only
    split <;> rfl

theorem digestIndex_freeObj (s : PersistentStevedore) (d : Digest) :
    (s.freeObj d).digestIndex = update s.digestIndex d none := by
  rw [PersistentStevedore.freeObj]
  split
  · rename_i hnone
    rw [← hnone, update_eq_self]
  · dsimp only
    split <;> rfl

theorem Synced.step (h : s.Synced) (hw : s.Indexes w) (hinv : s.Inv) (hok : s.RecoveryOk call) :
    (s.step call).2.Synced ∧ (s.step call).2.Indexes (w.step (call, (s.step call).1)) := by
  cases call with
  | allocObj d sizeHint =>
    obtain ⟨hsize, hnew⟩ := hok
    rcases hinv.allocObj_cases d hsize with
      ⟨e, he⟩ | ⟨t, i, slab, ht, hinv', hwidens, hothers, hslab, -⟩
    · simpa [PersistentStevedore.step, Written.step, he] using ⟨h, hw⟩
    have hsynced := h.occupy hinv' hwidens hothers hslab (hnew (by rw [ht]))
    simp only [PersistentStevedore.step, Written.step, ht]
    refine ⟨hsynced, fun d' => ?_⟩
    rw [hinv'.occupy_eq hslab]
    dsimp only
    by_cases hd : d' = d
    · subst hd
      simp
    · rw [update_of_ne hd, update_of_ne hd, hwidens.digestIndex]
      exact hw d'
  | extend d data =>
    refine ⟨h.extend hinv d hok, fun d' => ?_⟩
    simp only [PersistentStevedore.step, digestIndex_extend, hw d']
    cases hr : (s.extend d data).1 with
    | error e => simp [Written.step]
    | ok u =>
      by_cases hd : d' = d
      · subst hd
        simp [Written.step]
      · simp [Written.step, hd]
  | freeObj d =>
    refine ⟨h.freeObj hinv d, fun d' => ?_⟩
    simp only [PersistentStevedore.step, Written.step, digestIndex_freeObj]
    by_cases hd : d' = d
    · subst hd
      simp
    · simpa [hd] using hw d'
  | compact =>
    obtain ⟨hsynced, hindex⟩ := h.compact hinv hok
    refine ⟨hsynced, fun d => ?_⟩
    simp only [PersistentStevedore.step, Written.step, hindex, hw d]

theorem Synced.run (h : s.Synced) (hw : s.Indexes w) (hinv : s.Inv) (calls : List StoreCall)
    (hok : Guarded PersistentStevedore.step RecoveryOk s calls) :
    (record PersistentStevedore.step s calls).2.Synced ∧
      (record PersistentStevedore.step s calls).2.Indexes
        ((record PersistentStevedore.step s calls).1.foldl Written.step w) ∧
      (record PersistentStevedore.step s calls).2.Inv := by
  induction calls generalizing s w with
  | nil => exact ⟨h, hw, hinv⟩
  | cons call calls ih =>
    obtain ⟨hsynced, hindexes⟩ := h.step hw hinv hok.1
    exact ih hsynced hindexes (hinv.step hok.1.sliced).1 hok.2

end PersistentStevedore

/-! ## The scan -/

def slabAt (m : ℕ → UInt8) (i : ℕ) : SlabEntry :=
  if (entryAt m i).inUse then entryAt m i else { entryAt m i with bodyLen := 0 }

def Unused (m : ℕ → UInt8) (i : ℕ) : Prop :=
  (entryAt m i).inUse = false ∧ (entryAt m i).digest = .zero

/-- The scan has come to entry `i`, none of those before being unused. -/
structure TableScan.Scanned (m : ℕ → UInt8) (i : ℕ) (c : TableScan) : Prop where
  used : ∀ j < i, ¬ Unused m j
  allocs : ∀ j : ℕ, c.allocs[j]? = if j < i then some (slabAt m j) else none
  index : ∀ d j, c.digestIdx d = some j → j < i ∧ (entryAt m j).inUse = true
  recovered : ∀ d, (∃ oc ∈ c.recovered, oc.digest = d) ↔
    ∃ j < i, (entryAt m j).inUse = true ∧ (entryAt m j).digest = d

namespace TableScan

variable {m : ℕ → UInt8} {totalSize i : ℕ} {c : TableScan}

theorem scanned_start : Scanned m 0 ⟨[], fun _ => none, [], 0⟩ where
  used j hj := absurd hj (Nat.not_lt_zero j)
  allocs j := by simp
  index d j h := by cases h
  recovered d := by simp

theorem Scanned.length (h : Scanned m i c) : c.allocs.length = i := by
  have hnone := h.allocs i
  rw [if_neg (Nat.lt_irrefl i), getElem?_eq_none_iff] at hnone
  rcases Nat.eq_zero_or_pos i with rfl | hpos
  · omega
  have hsome := h.allocs (i - 1)
  rw [if_pos (by omega), List.getElem?_eq_some_iff] at hsome
  obtain ⟨hlt, -⟩ := hsome
  omega

theorem Scanned.allocs_concat (h : Scanned m i c) (j : ℕ) :
    (c.allocs ++ [slabAt m i])[j]? = if j < i + 1 then some (slabAt m j) else none := by
  rw [getElem?_append, h.length]
  split
  · rename_i hj
    rw [h.allocs j, if_pos hj, if_pos (hj.trans (Nat.lt_succ_self i))]
  rename_i hj
  rw [getElem?_singleton]
  by_cases hji : j = i
  · subst hji
    simp
  · rw [if_neg (by omega), if_neg (by omega)]

theorem Scanned.entry (h : Scanned m i c) (hfits : dataRegionOffset ≤ totalSize)
    (hi : i < maxSlabs) :
    (c.entry totalSize m i = none ∧ Unused m i) ∨
      ∃ c', c.entry totalSize m i = some c' ∧ Scanned m (i + 1) c' := by
  have hroom : ¬ totalSize < fileHeaderSize + i * slabEntrySize + slabEntrySize := by
    simp only [dataRegionOffset, fileHeaderSize, maxSlabs, slabEntrySize] at hfits hi ⊢
    omega
  have hallocs := h.allocs_concat
  rw [TableScan.entry, if_neg hroom]
  dsimp only
  cases hinUse : (entryAt m i).inUse with
  | false =>
    rw [if_pos rfl]
    by_cases hzero : (entryAt m i).digest = .zero
    · rw [if_pos hzero]
      exact .inl ⟨rfl, hinUse, hzero⟩
    rw [if_neg hzero]
    refine .inr ⟨_, rfl, ?_⟩
    constructor
    case used =>
      rw [Nat.forall_lt_succ_right]
      exact ⟨h.used, fun hunused => hzero hunused.2⟩
    case allocs => simpa [slabAt, hinUse] using hallocs
    case index =>
      intro d j hj
      obtain ⟨hlt, huse⟩ := h.index d j hj
      exact ⟨hlt.trans (Nat.lt_succ_self i), huse⟩
    case recovered =>
      intro d
      rw [Nat.exists_lt_succ_right, h.recovered d]
      simp [hinUse]
  | true =>
    rw [if_neg (by simp)]
    refine .inr ⟨_, rfl, ?_⟩
    constructor
    case used =>
      rw [Nat.forall_lt_succ_right]
      refine ⟨h.used, fun hunused => ?_⟩
      rw [hunused.1] at hinUse
      cases hinUse
    case allocs => simpa [slabAt, hinUse] using hallocs
    case index =>
      intro d j hj
      dsimp only at hj
      by_cases hd : d = (entryAt m i).digest
      · rw [hd, update_self, Option.some.injEq] at hj
        subst hj
        exact ⟨Nat.lt_succ_self i, hinUse⟩
      rw [update_of_ne hd] at hj
      obtain ⟨hlt, huse⟩ := h.index d j hj
      exact ⟨hlt.trans (Nat.lt_succ_self i), huse⟩
    case recovered =>
      intro d
      rw [Nat.exists_lt_succ_right, ← h.recovered d]
      simp [hinUse, ObjCore.new, or_and_right, exists_or]

theorem Scanned.loop (h : Scanned m i c) (hfits : dataRegionOffset ≤ totalSize) {n : ℕ}
    (hn : i + n = maxSlabs) :
    ∃ k, Scanned m k (loop totalSize m n i c) ∧ (k = maxSlabs ∨ k < maxSlabs ∧ Unused m k) := by
  induction n generalizing i c with
  | zero => exact ⟨i, h, .inl hn⟩
  | succ n ih =>
    have hi : i < maxSlabs := by omega
    rw [TableScan.loop]
    rcases h.entry hfits hi with ⟨hstop, hunused⟩ | ⟨c', hnext, hscanned⟩
    · rw [hstop]
      exact ⟨i, h, .inr ⟨hi, hunused⟩⟩
    · rw [hnext]
      exact ih hscanned (by omega)

end TableScan

namespace PersistentStevedore

variable {s : PersistentStevedore} {w : Written} {size : ℕ}

/-- **Recovery**: a reopened store has found the digests allocated and not
freed, each with the body it had. -/
def Recovers (s : PersistentStevedore) (w : Written)
    (reopened : List ObjCore × PersistentStevedore) : Prop :=
  (∀ d, (∃ oc ∈ reopened.1, oc.digest = d) ↔ w d ≠ none) ∧
    ∀ d, w d ≠ none → reopened.2.getBody d = s.getBody d

/-- No slab in use has a body, and none stands behind a free slab of the zero
digest. -/
def CloseOk (s : PersistentStevedore) : Prop :=
  (∀ slab ∈ s.allocations, slab.inUse = true → slab.bodyLen = 0) ∧
    s.allocations.Pairwise fun a b => b.inUse = true → a.inUse = true ∨ a.digest ≠ .zero

theorem validateHeader_of_tabled {allocs : List SlabEntry} (hsize : fileHeaderSize ≤ s.totalSize)
    (h : Tabled s.mmap allocs) : s.validateHeader = true := by
  simp only [validateHeader, Bool.and_eq_true, decide_eq_true_eq]
  exact ⟨⟨hsize, h.header.1⟩, h.header.2⟩

theorem Synced.openExisting (h : s.Synced) (hinv : s.Inv)
    (hsize : dataRegionOffset < size ∧ size < 2 ^ 63) :
    ∃ (m : ℕ → UInt8) (c : TableScan) (k : ℕ),
      PersistentStevedore.openExisting size s.close =
          some (c.recovered, ⟨size, c.totalUsed, m, c.allocs, c.digestIdx⟩) ∧
        Tabled m s.allocations ∧ c.Scanned m k ∧ (k = maxSlabs ∨ k < maxSlabs ∧ Unused m k) := by
  have hroom := hinv.room
  have hfile : ∀ a < dataRegionOffset,
      (if a < min s.totalSize size then s.mmap a else 0) = s.mmap a := by
    intro a ha
    exact if_pos (by omega)
  have htabled := h.tabled.of_data hfile
  obtain ⟨k, hscanned, hend⟩ := TableScan.scanned_start.loop
    (m := fun a => if a < min s.totalSize size then s.mmap a else 0) hsize.1.le
    (Nat.zero_add maxSlabs)
  refine ⟨_, _, k, ?_, htabled, hscanned, hend⟩
  rw [PersistentStevedore.openExisting, if_pos hsize]
  rw [if_pos (validateHeader_of_tabled (le_trans (by decide) hsize.1.le) htabled)]
  rfl

/-- What comes back from the file of a store in step: the digests of the
slabs in use before the first unused entry, and no body. -/
theorem Synced.reopened (h : s.Synced) (hinv : s.Inv)
    (hsize : dataRegionOffset < size ∧ size < 2 ^ 63) :
    ∃ reopened, PersistentStevedore.openExisting size s.close = some reopened ∧
      (∀ d, reopened.2.getBody d = none) ∧
      ∀ d, (∃ oc ∈ reopened.1, oc.digest = d) ↔
        ∃ (i : ℕ) (slab : SlabEntry), s.allocations[i]? = some slab ∧ slab.inUse = true ∧
          slab.digest = d ∧
          ∀ (j : ℕ) (a : SlabEntry), j < i → s.allocations[j]? = some a →
            a.inUse = true ∨ a.digest ≠ .zero := by
  obtain ⟨m, c, k, hopen, htabled, hscanned, hend⟩ := h.openExisting hinv hsize
  have hk : k ≤ maxSlabs := by
    rcases hend with hend | hend
    · exact hend.le
    · exact hend.1.le
  refine ⟨_, hopen, ?_, ?_⟩
  · intro d
    rw [getBody]
    dsimp only
    cases hindex : c.digestIdx d with
    | none => rfl
    | some j =>
      obtain ⟨hj, hinUse⟩ := hscanned.index d j hindex
      obtain ⟨slab, -, hentry⟩ := htabled.slab_of_inUse (hj.trans_le hk) hinUse
      dsimp only
      rw [hscanned.allocs j, if_pos hj, slabAt, if_pos hinUse, hentry]
      rfl
  intro d
  rw [hscanned.recovered d]
  constructor
  · rintro ⟨i, hi, hinUse, hdigest⟩
    obtain ⟨slab, hat, hentry⟩ := htabled.slab_of_inUse (hi.trans_le hk) hinUse
    rw [hentry] at hinUse hdigest
    refine ⟨i, slab, hat, hinUse, hdigest, fun j a hj ha => ?_⟩
    have hused := hscanned.used j (hj.trans hi)
    rw [Unused, (htabled.entries j a ha).2] at hused
    by_cases hfree : a.inUse = false
    · exact .inr fun hzero => hused ⟨hfree, hzero⟩
    · exact .inl (by simpa using hfree)
  rintro ⟨i, slab, hat, hinUse, hdigest, hbefore⟩
  obtain ⟨hi, hentry⟩ := htabled.entries i slab hat
  refine ⟨i, ?_, by rw [hentry]; exact hinUse, by rw [hentry]; exact hdigest⟩
  by_contra hge
  rcases hend with rfl | ⟨hlt, hfree, hzero⟩
  · exact hge hi
  rcases Nat.lt_or_eq_of_le (Nat.not_lt.mp hge) with hki | rfl
  · -- the scan stopped at a slab before this one
    have hlen := (List.getElem?_eq_some_iff.mp hat).1
    have hget : s.allocations[k]? = some (s.allocations[k]) :=
      getElem?_eq_getElem (hki.trans hlen)
    rw [(htabled.entries k _ hget).2] at hfree hzero
    rcases hbefore k _ hki hget with huse | hne
    · rw [show s.allocations[k].inUse = false from hfree] at huse
      cases huse
    · exact hne hzero
  · rw [hentry] at hfree
    rw [show slab.inUse = false from hfree] at hinUse
    cases hinUse

/-- A store in step that is closed: exactly `CloseOk` loses nothing. -/
theorem Synced.recovers_iff (h : s.Synced) (hw : s.Indexes w) (hinv : s.Inv)
    (hsize : dataRegionOffset < size ∧ size < 2 ^ 63) :
    (∃ reopened, PersistentStevedore.openExisting size s.close = some reopened ∧
      s.Recovers w reopened) ↔ s.CloseOk := by
  obtain ⟨reopened, hopen, hbody, hdigests⟩ := h.reopened hinv hsize
  have hallocated : ∀ d, w d ≠ none ↔ ∃ i, s.digestIndex d = some i := by
    intro d
    rw [ne_eq, ← hw d, ← ne_eq, Option.ne_none_iff_exists']
  constructor
  · rintro ⟨reopened', hopen', hrecovered, hsame⟩
    rw [hopen, Option.some.injEq] at hopen'
    subst hopen'
    constructor
    · intro slab hmem hinUse
      obtain ⟨i, hslab⟩ := getElem?_of_mem hmem
      have hindex := h.listed i slab hslab hinUse
      have hbefore := hsame slab.digest ((hallocated _).mpr ⟨i, hindex⟩)
      rw [hbody, getBody, hindex] at hbefore
      dsimp only at hbefore
      rw [hslab] at hbefore
      by_contra hne
      dsimp only at hbefore
      rw [if_neg hne] at hbefore
      cases hbefore
    rw [pairwise_iff_getElem]
    intro i j hi hj hij hinUse
    have hat : s.allocations[j]? = some s.allocations[j] := getElem?_eq_getElem hj
    have hindex := h.listed j _ hat hinUse
    obtain ⟨j', slab, hslab, hinUse', hdigest, hused⟩ :=
      (hdigests _).mp ((hrecovered _).mpr ((hallocated _).mpr ⟨j, hindex⟩))
    -- the slab found for the digest is this one
    have hindex' := h.listed j' slab hslab hinUse'
    rw [hdigest, hindex, Option.some.injEq] at hindex'
    subst hindex'
    exact hused i _ hij (getElem?_eq_getElem hi)
  · rintro ⟨hempty, hordered⟩
    refine ⟨reopened, hopen, fun d => ?_, fun d _ => ?_⟩
    · rw [hdigests d, hallocated d]
      constructor
      · rintro ⟨i, slab, hslab, hinUse, rfl, -⟩
        exact ⟨i, h.listed i slab hslab hinUse⟩
      rintro ⟨i, hindex⟩
      obtain ⟨slab, hslab, hinUse, hdigest⟩ := hinv.indexed d i hindex
      refine ⟨i, slab, hslab, hinUse, hdigest, fun j a hj ha => ?_⟩
      obtain ⟨hi, rfl⟩ := List.getElem?_eq_some_iff.mp hslab
      obtain ⟨hj', rfl⟩ := List.getElem?_eq_some_iff.mp ha
      exact pairwise_iff_getElem.mp hordered j i hj' hi hj hinUse
    · rw [hbody, getBody]
      split
      · rfl
      rename_i i hindex
      obtain ⟨slab, hslab, hinUse, -⟩ := hinv.indexed d i hindex
      rw [hslab]
      dsimp only
      rw [if_pos (hempty slab (mem_of_getElem? hslab) hinUse)]

/-- **Recovery over runs.** On a freshly created file, after every sequence of
calls that allocates no digest twice and compacts the store only when no slab
in use would get another number, the file reopened with any size gives back
what was stored exactly when no object has a body and none stands behind a
freed slab of the zero digest. -/
theorem recovers_iff_closeOk (size : ℕ) (s₀ : PersistentStevedore) (hcreate : create size = some s₀)
    (calls : List StoreCall) (hok : Guarded PersistentStevedore.step RecoveryOk s₀ calls)
    (size' : ℕ) (hsize : dataRegionOffset < size' ∧ size' < 2 ^ 63) :
    (∃ reopened,
      openExisting size' (record PersistentStevedore.step s₀ calls).2.close = some reopened ∧
        (record PersistentStevedore.step s₀ calls).2.Recovers
          (.ofLog (record PersistentStevedore.step s₀ calls).1) reopened) ↔
      (record PersistentStevedore.step s₀ calls).2.CloseOk := by
  have hinv := (inv_create hcreate).1
  obtain ⟨hsynced, hindexes⟩ := synced_create hcreate
  obtain ⟨hsynced', hindexes', hinv'⟩ := hsynced.run hindexes hinv calls hok
  exact hsynced'.recovers_iff hindexes' hinv' hsize

instance (s : PersistentStevedore) : Decidable s.InUseFirst :=
  inferInstanceAs (Decidable (List.Pairwise _ _))

instance (s : PersistentStevedore) : Decidable s.CloseOk :=
  inferInstanceAs (Decidable (_ ∧ List.Pairwise _ _))

/-- Three objects without a body, of which the last is freed. -/
def emptyCalls : List StoreCall :=
  [.allocObj ⟨.replicate 32 1⟩ 64, .allocObj ⟨.replicate 32 2⟩ 64,
    .allocObj ⟨.replicate 32 3⟩ 64, .freeObj ⟨.replicate 32 3⟩]

/-- Compacted and closed, the store comes back as it was. -/
theorem recovers_iff_closeOk_empty : ∃ s₀, create 4195000 = some s₀ ∧ ∃ reopened,
      openExisting 4200000
          (record PersistentStevedore.step s₀ (emptyCalls ++ [.compact])).2.close =
        some reopened ∧
      (record PersistentStevedore.step s₀ (emptyCalls ++ [.compact])).2.Recovers
        (.ofLog (record PersistentStevedore.step s₀ (emptyCalls ++ [.compact])).1) reopened := by
  refine ⟨_, if_pos (by decide), (recovers_iff_closeOk 4195000 _ (if_pos (by decide)) _ ?_ 4200000
    (by decide)).mpr ?_⟩
  · exact ⟨⟨by decide, fun _ => rfl⟩, ⟨by decide, fun _ => by decide +kernel⟩,
      ⟨by decide, fun _ => by decide +kernel⟩, trivial,
      show InUseFirst _ by decide +kernel, trivial⟩
  rw [record_concat]
  dsimp only [PersistentStevedore.step, compact]
  -- the slabs are in the order of their offsets already
  rw [inUseByOffset, mergeSort_of_pairwise (by decide +kernel)]
  decide +kernel

def bodyCalls : List StoreCall :=
  [.allocObj ⟨.replicate 32 1⟩ 64, .extend ⟨.replicate 32 1⟩ [7]]

/-- **A body does not come back** when the store is closed and opened again.
-/
theorem not_recovers_body : ∃ s₀, create 4195000 = some s₀ ∧ ¬ ∃ reopened,
      openExisting 4195000 (record PersistentStevedore.step s₀ bodyCalls).2.close =
        some reopened ∧
      (record PersistentStevedore.step s₀ bodyCalls).2.Recovers
        (.ofLog (record PersistentStevedore.step s₀ bodyCalls).1) reopened := by
  have hcreate : create 4195000 = some _ := if_pos (by decide)
  obtain ⟨hsynced, hindexes⟩ := synced_create hcreate
  obtain ⟨hsynced', hindexes', hinv'⟩ := hsynced.run hindexes (inv_create hcreate).1 bodyCalls
    ⟨⟨by decide, fun _ => rfl⟩, show _ < _ by decide, trivial⟩
  refine ⟨_, hcreate, fun hrecovers => ?_⟩
  have hclose := (hsynced'.recovers_iff hindexes' hinv' (by decide)).mp hrecovers
  revert hclose
  decide +kernel

end PersistentStevedore

end VarahaCache
