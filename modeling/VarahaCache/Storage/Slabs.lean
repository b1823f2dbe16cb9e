import VarahaCache.Lib.Machine
import VarahaCache.Storage.Persistent

/-!
# Slab geometry

The slabs of a persistent store stay aligned, apart and inside the file, and
so does every byte of slab data the store touches. Compaction is one pass
over the slabs in the order of their offsets; the free offset it moves them
down to never overtakes the slab it is at.
-/

namespace VarahaCache

open Blocks Words Function List SlabEntry Option

/-! ## Alignment -/

section Align

variable {n k : ℕ}

theorem alignUp_eq (h : n + 7 < 2 ^ 64) : alignUp n = (n + 7) / 8 * 8 := by
  have hsum : n + (dataAlign - 1) < 2 ^ 64 := h
  rw [alignUp, wrappingAdd_of_lt hsum]
  rfl

theorem le_alignUp (h : n < 2 ^ 63 + 2 ^ 62) : n ≤ alignUp n := by
  rw [alignUp_eq (by omega)]
  omega

theorem dvd_alignUp (n : ℕ) : 8 ∣ alignUp n := Nat.dvd_mul_left ..

theorem alignUp_le (hk : 8 ∣ k) (hle : n ≤ k) (h : n < 2 ^ 63 + 2 ^ 62) : alignUp n ≤ k := by
  rw [alignUp_eq (by omega)]
  omega

end Align

/-! ## The slab table -/

theorem entryOffset_add_le {slab : SlabEntry} (h : slab.index < maxSlabs) :
    slab.entryOffset + slabEntrySize ≤ dataRegionOffset := by
  simp only [entryOffset, dataRegionOffset, fileHeaderSize, maxSlabs, slabEntrySize] at h ⊢
  omega

theorem length_leBytes (width n : ℕ) : (leBytes width n).length = width := by simp [leBytes]

section Table

variable {m : ℕ → UInt8} {slab : SlabEntry} {start len : ℕ}

theorem read_writeSlabPlace (hindex : slab.index < maxSlabs) (hstart : dataRegionOffset ≤ start) :
    read (writeSlabPlace m slab) start len = read m start len := by
  have hentry := entryOffset_add_le hindex
  rw [slabEntrySize] at hentry
  rw [writeSlabPlace, read_write_of_apart (.inr (by rw [length_leBytes]; omega)),
    read_write_of_apart (.inr (by rw [length_leBytes]; omega))]

theorem read_writeSlabEntry (hindex : slab.index < maxSlabs) (hstart : dataRegionOffset ≤ start) :
    read (writeSlabEntry m slab) start len = read m start len := by
  have hentry := entryOffset_add_le hindex
  rw [slabEntrySize] at hentry
  rw [writeSlabEntry, read_write_of_apart (.inr (by rw [length_leBytes]; omega)),
    read_write_of_apart (.inr (by simp; omega)),
    read_write_of_apart (.inr (by rw [length_leBytes]; omega)),
    read_write_of_apart (.inr (by rw [length_leBytes]; omega)),
    read_write_of_apart (.inr (by simp; omega))]

end Table

/-! ## Changing one slab of a list -/

section SetSlab

variable {l : List SlabEntry} {i : ℕ} {slab slab' : SlabEntry}

def SlabEntry.place (slab : SlabEntry) : ℕ × ℕ := (slab.offset, slab.size)

theorem pairwise_apart_of_place {l l' : List SlabEntry} (h : l.Pairwise (Apart offset size))
    (hplace : l'.map place = l.map place) : l'.Pairwise (Apart offset size) := by
  have hplaces : (l.map place).Pairwise (Apart Prod.fst Prod.snd) := pairwise_map.mpr h
  rw [← hplace, pairwise_map] at hplaces
  exact hplaces

theorem map_set_of_eq {γ : Type} {f : SlabEntry → γ} (h : l[i]? = some slab)
    (heq : f slab' = f slab) : (l.set i slab').map f = l.map f := by
  obtain ⟨hi, hget⟩ := List.getElem?_eq_some_iff.mp h
  rw [map_set, heq, ← hget]
  refine ext_getElem (by simp) fun j _ _ => ?_
  rw [getElem_set]
  split
  · rename_i hij
    subst hij
    simp
  · rfl

theorem getElem?_set_cases {j : ℕ} {a : SlabEntry} (h : (l.set i slab)[j]? = some a) :
    (j = i ∧ a = slab) ∨ (i ≠ j ∧ l[j]? = some a) := by
  rw [getElem?_set] at h
  split at h
  · rename_i hij
    split at h
    · exact .inl ⟨hij.symm, (some.inj h).symm⟩
    · cases h
  · rename_i hij
    exact .inr ⟨hij, h⟩

theorem sum_map_set (f : SlabEntry → ℕ) (h : l[i]? = some slab) :
    ((l.set i slab').map f).sum + f slab = (l.map f).sum + f slab' := by
  induction l generalizing i with
  | nil => simp at h
  | cons a l ih =>
    cases i with
    | zero =>
      simp only [getElem?_cons_zero, some.injEq] at h
      subst h
      simp only [set_cons_zero, map_cons, sum_cons]
      omega
    | succ i =>
      have := ih (by simpa using h)
      simp only [set_cons_succ, map_cons, sum_cons]
      omega

/-- What a slab counts for in the used space. -/
def SlabEntry.used (slab : SlabEntry) : ℕ := if slab.inUse then slab.size else 0

theorem sum_used (l : List SlabEntry) : ((l.filter inUse).map size).sum = (l.map used).sum := by
  induction l with
  | nil => rfl
  | cons a l ih =>
    cases ha : a.inUse with
    | true => simp [ha, ih, used]
    | false => simp [ha, ih, used]

end SetSlab

namespace PersistentStevedore

/-! ## The invariant -/

/-- **Slab geometry**: slabs are aligned, apart, inside the data region and
hold their bodies, and the used space is the sum of the sizes of the slabs in
use. -/
structure InOrder (s : PersistentStevedore) : Prop where
  aligned : ∀ slab ∈ s.allocations, 8 ∣ slab.offset ∧ 8 ∣ slab.size
  apart : s.allocations.Pairwise (Apart offset size)
  inside : ∀ slab ∈ s.allocations,
    dataRegionOffset ≤ slab.offset ∧ slab.offset + slab.size ≤ s.totalSize
  body : ∀ slab ∈ s.allocations, slab.bodyLen ≤ slab.size
  used : s.usedSpace = ((s.allocations.filter inUse).map size).sum

/-- The file is not too large for its offsets, slabs are not empty and know
their places, and the index leads to slabs in use for their digests. -/
structure Inv (s : PersistentStevedore) : Prop extends s.InOrder where
  room : dataRegionOffset < s.totalSize ∧ s.totalSize < 2 ^ 63
  positive : ∀ slab ∈ s.allocations, 0 < slab.size
  numbered : ∀ (i : ℕ) (slab : SlabEntry), s.allocations[i]? = some slab → slab.index = i
  few : s.allocations.length ≤ maxSlabs
  indexed : ∀ (d : Digest) (i : ℕ), s.digestIndex d = some i →
    ∃ slab, s.allocations[i]? = some slab ∧ slab.inUse = true ∧ slab.digest = d

variable {s : PersistentStevedore} {totalSize : ℕ}

/-- A slab alone: aligned, inside the file, with room for its body, and not
empty. -/
structure Fits (totalSize : ℕ) (slab : SlabEntry) : Prop where
  aligned : 8 ∣ slab.offset ∧ 8 ∣ slab.size
  inside : dataRegionOffset ≤ slab.offset ∧ slab.offset + slab.size ≤ totalSize
  body : slab.bodyLen ≤ slab.size
  positive : 0 < slab.size

theorem Fits.of_place {slab slab' : SlabEntry} (h : Fits totalSize slab)
    (hplace : slab'.place = slab.place) (hbody : slab'.bodyLen ≤ slab.size) :
    Fits totalSize slab' := by
  obtain ⟨hoffset, hsize⟩ := Prod.mk.inj hplace
  constructor
  case aligned =>
    rw [hoffset, hsize]
    exact h.aligned
  case inside =>
    rw [hoffset, hsize]
    exact h.inside
  case body =>
    rw [hsize]
    exact hbody
  case positive =>
    rw [hsize]
    exact h.positive

variable {slab : SlabEntry} {i : ℕ} {d : Digest} {c : Compaction} {t : PersistentStevedore}
  {sizeHint : ℕ} {data : List UInt8} {β : Type}

theorem Inv.fits (h : s.Inv) (hmem : slab ∈ s.allocations) : Fits s.totalSize slab :=
  ⟨h.aligned slab hmem, h.inside slab hmem, h.body slab hmem, h.positive slab hmem⟩

theorem inv_of_fits (hfits : ∀ slab ∈ s.allocations, Fits s.totalSize slab)
    (hapart : s.allocations.Pairwise (Apart offset size))
    (hused : s.usedSize = (s.allocations.map used).sum)
    (hroom : dataRegionOffset < s.totalSize ∧ s.totalSize < 2 ^ 63)
    (hnumbered : ∀ (i : ℕ) (slab : SlabEntry), s.allocations[i]? = some slab → slab.index = i)
    (hfew : s.allocations.length ≤ maxSlabs)
    (hindexed : ∀ (d : Digest) (i : ℕ), s.digestIndex d = some i →
      ∃ slab, s.allocations[i]? = some slab ∧ slab.inUse = true ∧ slab.digest = d) : s.Inv where
  aligned slab hmem := (hfits slab hmem).aligned
  apart := hapart
  inside slab hmem := (hfits slab hmem).inside
  body slab hmem := (hfits slab hmem).body
  used := hused.trans (sum_used _).symm
  room := hroom
  positive slab hmem := (hfits slab hmem).positive
  numbered := hnumbered
  few := hfew
  indexed := hindexed

theorem Inv.of_indexed (h : s.Inv) (hindex : s.digestIndex d = some i)
    (hslab : s.allocations[i]? = some slab) : slab.inUse = true ∧ slab.digest = d := by
  obtain ⟨slab', hslab', huse⟩ := h.indexed d i hindex
  rw [hslab, some.injEq] at hslab'
  rw [hslab']
  exact huse

theorem inv_create {size : ℕ} (h : create size = some s) : s.Inv ∧ s.totalSize = size := by
  rw [create] at h
  split at h
  · rename_i hroom
    cases h
    refine ⟨⟨⟨by simp, List.Pairwise.nil, by simp, by simp, rfl⟩, hroom, by simp, by simp, ?_, ?_⟩,
      rfl⟩
    · exact Nat.zero_le _
    · intro d i hindex
      cases hindex
  · cases h

theorem Inv.index_lt (h : s.Inv) (hslab : s.allocations[i]? = some slab) :
    slab.index < maxSlabs := by
  rw [h.numbered i slab hslab]
  obtain ⟨hi, -⟩ := List.getElem?_eq_some_iff.mp hslab
  exact Nat.lt_of_lt_of_le hi h.few

theorem Inv.sum_size_le (h : s.Inv) : (s.allocations.map size).sum ≤ s.totalSize :=
  (sum_len_le h.apart h.inside).trans (Nat.sub_le ..)

theorem Inv.used_eq (h : s.Inv) : s.usedSize = (s.allocations.map used).sum :=
  h.used.trans (sum_used _)

theorem sum_used_le (l : List SlabEntry) : (l.map used).sum ≤ (l.map size).sum := by
  refine sum_le_sum fun slab _ => ?_
  rw [used]
  split <;> omega

/-- A slab is replaced by one at the same place: what is left to show is about
the index and the used space. -/
theorem Inv.setSlab (h : s.Inv)
    (hslab : s.allocations[i]? = some slab) (slab' : SlabEntry) (hplace : slab'.place = slab.place)
    (hindex : slab'.index = slab.index) (hbody : slab'.bodyLen ≤ slab.size)
    (htotal : t.totalSize = s.totalSize)
    (hallocs : t.allocations = s.allocations.set i slab')
    (hused : t.usedSize + slab.used = s.usedSize + slab'.used)
    (hindexed : ∀ d j, t.digestIndex d = some j →
      ∃ slab, t.allocations[j]? = some slab ∧ slab.inUse = true ∧ slab.digest = d) : t.Inv := by
  refine inv_of_fits ?_ ?_ ?_ ?_ ?_ ?_ hindexed
  · intro a ha
    rw [hallocs] at ha
    rw [htotal]
    rcases mem_or_eq_of_mem_set ha with ha | rfl
    · exact h.fits ha
    · exact (h.fits (mem_of_getElem? hslab)).of_place hplace hbody
  · rw [hallocs]
    exact pairwise_apart_of_place h.apart (map_set_of_eq hslab hplace)
  · have hsum : ((s.allocations.set i slab').map used).sum + slab.used =
        (s.allocations.map used).sum + slab'.used := sum_map_set _ hslab
    have hbefore := h.used_eq
    rw [hallocs]
    omega
  · rw [htotal]
    exact h.room
  · intro j a ha
    rw [hallocs] at ha
    rcases getElem?_set_cases ha with ⟨rfl, rfl⟩ | ⟨-, ha⟩
    · rw [hindex]
      exact h.numbered j slab hslab
    · exact h.numbered j a ha
  · rw [hallocs, length_set]
    exact h.few

/-! ## Allocating, extending and freeing -/

theorem findFreeSlab_eq_some {size i : ℕ} (h : s.findFreeSlab size = some i) :
    ∃ slab, s.allocations[i]? = some slab ∧ slab.inUse = false ∧ size ≤ slab.size := by
  obtain ⟨hi, hfree, -⟩ := findIdx?_eq_some_iff_getElem.mp h
  simp only [Bool.and_eq_true, Bool.not_eq_true', decide_eq_true_eq] at hfree
  exact ⟨s.allocations[i], getElem?_eq_getElem hi, hfree⟩

theorem Inv.ne_of_indexed (h : s.Inv) {i j : ℕ} (hslab : s.allocations[i]? = some slab)
    (hfree : slab.inUse = false) (hindex : s.digestIndex d = some j) : j ≠ i := by
  rintro rfl
  have hinUse := (h.of_indexed hindex hslab).1
  rw [hfree] at hinUse
  cases hinUse

theorem Inv.used_lt (h : s.Inv) : s.usedSize < 2 ^ 63 := by
  have hused := h.used_eq
  have hle := sum_used_le s.allocations
  have hall := h.sum_size_le
  have := h.room.2
  omega

theorem Inv.used_add_lt (h : s.Inv)
    (hslab : s.allocations[i]? = some slab) : s.usedSize + slab.size < 2 ^ 64 := by
  have hused := h.used_lt
  have hin := (h.inside slab (mem_of_getElem? hslab)).2
  have := h.room.2
  omega

theorem Inv.size_le_used (h : s.Inv) (hslab : s.allocations[i]? = some slab)
    (hinUse : slab.inUse = true) : slab.size ≤ s.usedSize := by
  have hused := h.used_eq
  have hmem : slab.used ∈ s.allocations.map used := mem_map_of_mem (mem_of_getElem? hslab)
  have hone := le_sum_of_mem hmem
  rw [used, if_pos hinUse] at hone
  omega

theorem Inv.occupy_eq (h : s.Inv) (hslab : s.allocations[i]? = some slab) (d : Digest) :
    s.occupy i d =
      { s with
        allocations := s.allocations.set i { slab with inUse := true, digest := d, bodyLen := 0 }
        usedSize := s.usedSize + slab.size
        mmap := writeSlabEntry s.mmap { slab with inUse := true, digest := d, bodyLen := 0 }
        digestIndex := update s.digestIndex d (some i) } := by
  have hsum := h.used_add_lt hslab
  simp only [PersistentStevedore.occupy, hslab, wrappingAdd_of_lt hsum]

theorem Inv.takeSlab (h : s.Inv) (hslab : s.allocations[i]? = some slab)
    (hfree : slab.inUse = false) (d : Digest) :
    Inv { s with
      allocations := s.allocations.set i { slab with inUse := true, digest := d, bodyLen := 0 }
      usedSize := wrappingAdd 64 s.usedSize slab.size } := by
  rw [wrappingAdd_of_lt (h.used_add_lt hslab)]
  refine h.setSlab hslab { slab with inUse := true, digest := d, bodyLen := 0 } rfl rfl
    (Nat.zero_le _) rfl rfl ?_ ?_
  · simp [used, hfree]
  intro d' j hindex
  rw [getElem?_set_ne (Ne.symm (h.ne_of_indexed hslab hfree hindex))]
  exact h.indexed d' j hindex

theorem Inv.releaseSlab (h : s.Inv) (hslab : s.allocations[i]? = some slab)
    (hinUse : slab.inUse = true) (hindex : s.digestIndex slab.digest = none) :
    Inv { s with
      allocations := s.allocations.set i { slab with inUse := false, bodyLen := 0 }
      usedSize := wrappingSub 64 s.usedSize slab.size } := by
  have hle := h.size_le_used hslab hinUse
  rw [wrappingSub_of_le hle (h.used_lt.trans (by decide))]
  refine h.setSlab hslab { slab with inUse := false, bodyLen := 0 } rfl rfl
    (Nat.zero_le _) rfl rfl ?_ ?_
  · simp only [used, hinUse, if_true, Bool.false_eq_true, if_false]
    omega
  intro d' j hindex'
  have hne : i ≠ j := by
    rintro rfl
    rw [(h.of_indexed hindex' hslab).2, hindex'] at hindex
    cases hindex
  rw [getElem?_set_ne hne]
  exact h.indexed d' j hindex'

def InUseFor (s : PersistentStevedore) (d : Digest) (i : ℕ) : Prop :=
  ∃ slab, s.allocations[i]? = some slab ∧ slab.inUse = true ∧ slab.digest = d

theorem Inv.reindex (h : s.Inv) (mmap : ℕ → UInt8) {slabIdx : Option ℕ}
    (hslab : ∀ i, slabIdx = some i → s.InUseFor d i) :
    Inv { s with mmap := mmap, digestIndex := update s.digestIndex d slabIdx } := by
  refine ⟨⟨h.aligned, h.apart, h.inside, h.body, h.used⟩, h.room, h.positive, h.numbered, h.few, ?_⟩
  intro d' i hindex
  dsimp only at hindex
  by_cases hd : d' = d
  · subst hd
    rw [update_self] at hindex
    exact hslab i hindex
  · rw [update_of_ne hd] at hindex
    exact h.indexed d' i hindex

theorem Inv.occupy (h : s.Inv) (hslab : s.allocations[i]? = some slab)
    (hfree : slab.inUse = false) (d : Digest) : (s.occupy i d).Inv := by
  have hlt := List.getElem?_eq_some_iff.mp hslab
  simp only [PersistentStevedore.occupy, hslab]
  refine (h.takeSlab hslab hfree d).reindex _ ?_
  rintro j ⟨⟩
  exact ⟨_, getElem?_set_self hlt.1, rfl, rfl⟩

theorem Inv.le_nextOffset (h : s.Inv) :
    dataRegionOffset ≤ s.nextOffset ∧ s.nextOffset ≤ s.totalSize ∧ 8 ∣ s.nextOffset ∧
      ∀ slab ∈ s.allocations, slab.offset + slab.size ≤ s.nextOffset := by
  have hroom := h.room
  have hstop : ∀ slab ∈ s.allocations, slab.stop = slab.offset + slab.size := by
    intro slab hmem
    have := (h.inside slab hmem).2
    exact wrappingAdd_of_lt (by omega)
  rw [nextOffset]
  split
  · rename_i hnil
    exact ⟨Nat.le_refl _, hroom.1.le, by decide, by simp [hnil]⟩
  rename_i hne
  have hstops : s.allocations.map stop ≠ [] := mt map_eq_nil_iff.mp hne
  obtain ⟨stop, hmax⟩ := isSome_iff_exists.mp (isSome_max?_of_ne_nil hstops)
  obtain ⟨hmem, hle⟩ := max?_eq_some_iff.mp hmax
  rw [hmax, getD_some]
  obtain ⟨last, hlast, rfl⟩ := mem_map.mp hmem
  rw [hstop last hlast]
  have hin := h.inside last hlast
  have haligned := h.aligned last hlast
  refine ⟨by omega, hin.2, haligned.1.add haligned.2, fun slab hslab => ?_⟩
  rw [← hstop slab hslab, ← hstop last hlast]
  exact hle _ (mem_map_of_mem hslab)

/-- A store with perhaps more slabs than another. -/
structure Widens (s t : PersistentStevedore) : Prop where
  totalSize : t.totalSize = s.totalSize
  mmap : t.mmap = s.mmap
  digestIndex : t.digestIndex = s.digestIndex
  allocations : ∀ j : ℕ, j < s.allocations.length → t.allocations[j]? = s.allocations[j]?

theorem Inv.allocNewSlab (h : s.Inv) {size i : ℕ} (hsize : size < 2 ^ 63) (hpos : 0 < size)
    (ht : s.allocNewSlab size = .ok (t, i)) :
    t.Inv ∧ s.Widens t ∧ (∀ j : ℕ, j ≠ i → t.allocations[j]? = s.allocations[j]?) ∧
      ∃ slab, t.allocations[i]? = some slab ∧ slab.inUse = false := by
  obtain ⟨hlow, hhigh, haligned, hends⟩ := h.le_nextOffset
  have hroom := h.room
  have hsizeLe := le_alignUp (n := size) (by omega)
  have hoffsetLe := le_alignUp (n := s.nextOffset) (by omega)
  have hsizeEq := alignUp_eq (n := size) (by omega)
  have hoffsetEq := alignUp_eq (n := s.nextOffset) (by omega)
  have hadd : wrappingAdd 64 (alignUp s.nextOffset) (alignUp size) =
      alignUp s.nextOffset + alignUp size := wrappingAdd_of_lt (by omega)
  rw [PersistentStevedore.allocNewSlab] at ht
  simp only [hadd] at ht
  split at ht
  · cases ht
  rename_i hfit
  split at ht
  · cases ht
  rename_i hfew
  cases ht
  rw [Nat.not_lt] at hfit
  rw [Nat.not_le] at hfew
  refine ⟨?_, ⟨rfl, rfl, rfl, fun j hj => getElem?_append_left hj⟩, ?_,
    _, getElem?_concat_length, rfl⟩
  rotate_left
  · intro j hj
    rcases Nat.lt_or_gt_of_ne hj with hlt | hgt
    · exact getElem?_append_left hlt
    · rw [getElem?_eq_none (by simpa using hgt), getElem?_eq_none hgt.le]
  refine inv_of_fits ?_ ?_ ?_ hroom ?_ ?_ ?_
  · simp only [forall_mem_append, forall_mem_singleton]
    exact ⟨fun slab hslab => h.fits hslab, ⟨dvd_alignUp _, dvd_alignUp _⟩,
      ⟨hlow.trans hoffsetLe, hfit⟩, Nat.zero_le _, hpos.trans_le hsizeLe⟩
  · rw [pairwise_append]
    refine ⟨h.apart, by simp, ?_⟩
    simp only [mem_singleton, forall_eq]
    exact fun slab hslab => .inl ((hends slab hslab).trans hoffsetLe)
  · simpa [used] using h.used_eq
  · intro j slab hslab
    rw [getElem?_append] at hslab
    split at hslab
    · exact h.numbered j slab hslab
    rename_i hj
    rw [getElem?_singleton] at hslab
    split at hslab
    · cases hslab
      dsimp only
      omega
    · cases hslab
  · rw [length_append]
    exact hfew
  · intro d j hindex
    obtain ⟨slab, hslab, hrest⟩ := h.indexed d j hindex
    refine ⟨slab, ?_, hrest⟩
    rw [getElem?_append_left (List.getElem?_eq_some_iff.mp hslab).1]
    exact hslab

theorem Inv.allocObj_cases (h : s.Inv) (d : Digest) (hsize : sizeHint < 2 ^ 63) :
    (∃ e, s.allocObj d sizeHint = (.error e, s)) ∨
      ∃ (t : PersistentStevedore) (i : ℕ) (slab : SlabEntry),
        s.allocObj d sizeHint = (.ok (), t.occupy i d) ∧ t.Inv ∧ s.Widens t ∧
          (∀ j : ℕ, j ≠ i → t.allocations[j]? = s.allocations[j]?) ∧
          t.allocations[i]? = some slab ∧ slab.inUse = false := by
  rw [PersistentStevedore.allocObj]
  split
  · rename_i i hfind
    obtain ⟨slab, hslab, hfree, -⟩ := findFreeSlab_eq_some hfind
    exact .inr ⟨s, i, slab, rfl, h, ⟨rfl, rfl, rfl, fun _ _ => rfl⟩, fun _ _ => rfl, hslab, hfree⟩
  split
  · rename_i t i ht
    obtain ⟨hinv, hwidens, hothers, slab, hslab, hfree⟩ := h.allocNewSlab (by omega) (by omega) ht
    exact .inr ⟨t, i, slab, rfl, hinv, hwidens, hothers, hslab, hfree⟩
  · rename_i e he
    exact .inl ⟨e, rfl⟩

theorem Inv.allocObj (h : s.Inv) (d : Digest) (hsize : sizeHint < 2 ^ 63) :
    (s.allocObj d sizeHint).2.Inv ∧ (s.allocObj d sizeHint).2.totalSize = s.totalSize := by
  rcases h.allocObj_cases d hsize with ⟨e, he⟩ | ⟨t, i, slab, hok, hinv, hwidens, -, hslab, hfree⟩
  · rw [he]
    exact ⟨h, rfl⟩
  rw [hok]
  refine ⟨hinv.occupy hslab hfree d, ?_⟩
  rw [hinv.occupy_eq hslab]
  exact hwidens.totalSize

theorem Inv.freeObj_eq (h : s.Inv)
    (hindex : s.digestIndex d = some i) (hslab : s.allocations[i]? = some slab) :
    s.freeObj d =
      { s with
        allocations := s.allocations.set i { slab with inUse := false, bodyLen := 0 }
        usedSize := s.usedSize - slab.size
        mmap := writeSlabEntry s.mmap { slab with inUse := false, bodyLen := 0 }
        digestIndex := update s.digestIndex d none } ∧ slab.size ≤ s.usedSize := by
  have hle := h.size_le_used hslab (h.of_indexed hindex hslab).1
  have hlt : s.usedSize < 2 ^ 64 := h.used_lt.trans (by decide)
  refine ⟨?_, hle⟩
  simp only [PersistentStevedore.freeObj, hindex, hslab, wrappingSub_of_le hle hlt]

theorem Inv.index_ne (h : s.Inv) {d d' : Digest} {i j : ℕ} (hi : s.digestIndex d = some i)
    (hj : s.digestIndex d' = some j) (hd : d' ≠ d) : i ≠ j := by
  rintro rfl
  obtain ⟨slab, hslab, -, hdigest⟩ := h.indexed d i hi
  exact hd ((h.of_indexed hj hslab).2.symm.trans hdigest)

theorem Inv.freeObj (h : s.Inv) (d : Digest) : (s.freeObj d).Inv := by
  cases hindex : s.digestIndex d with
  | none => simpa [PersistentStevedore.freeObj, hindex] using h
  | some i =>
    obtain ⟨slab, hslab, hinUse, rfl⟩ := h.indexed d i hindex
    have hnone : ∀ j, none = some j → s.InUseFor slab.digest j := by simp
    have hout := h.reindex (writeSlabEntry s.mmap { slab with inUse := false, bodyLen := 0 }) hnone
    simp only [PersistentStevedore.freeObj, hindex, hslab]
    exact hout.releaseSlab hslab hinUse (update_self ..)

theorem Inv.extend_eq (h : s.Inv) (hindex : s.digestIndex d = some i)
    (hslab : s.allocations[i]? = some slab) (hdata : data.length < 2 ^ 63) :
    s.extend d data =
      if slab.size < slab.bodyLen + data.length then (.error .full, [], s)
      else
        (.ok (), [⟨slab.offset + slab.bodyLen, data.length⟩],
          { s with
            mmap := write s.mmap (slab.offset + slab.bodyLen) data
            allocations := s.allocations.set i
              { slab with bodyLen := slab.bodyLen + data.length } }) := by
  have hmem := mem_of_getElem? hslab
  have hin := (h.inside slab hmem).2
  have hbody := h.body slab hmem
  have hroom := h.room.2
  have hstop : slab.stop = slab.offset + slab.size := wrappingAdd_of_lt (by omega)
  have hoffset : wrappingAdd 64 slab.offset slab.bodyLen = slab.offset + slab.bodyLen :=
    wrappingAdd_of_lt (by omega)
  have hend : wrappingAdd 64 (slab.offset + slab.bodyLen) data.length =
      slab.offset + slab.bodyLen + data.length := wrappingAdd_of_lt (by omega)
  have hlen : wrappingAdd 64 slab.bodyLen data.length = slab.bodyLen + data.length :=
    wrappingAdd_of_lt (by omega)
  have hiff : slab.offset + slab.size < slab.offset + slab.bodyLen + data.length ↔
      slab.size < slab.bodyLen + data.length := by omega
  simp only [PersistentStevedore.extend, hindex, hslab, hoffset, hend, hstop, hlen, hiff]

def InData (totalSize : ℕ) (r : ByteRange) : Prop :=
  dataRegionOffset ≤ r.start ∧ r.start + r.len ≤ totalSize

theorem Inv.extend (h : s.Inv) (d : Digest) (hdata : data.length < 2 ^ 63) :
    (s.extend d data).2.2.Inv ∧ (s.extend d data).2.2.totalSize = s.totalSize ∧
      ∀ r ∈ (s.extend d data).2.1, InData s.totalSize r := by
  cases hindex : s.digestIndex d with
  | none => simpa [PersistentStevedore.extend, hindex] using h
  | some i =>
    obtain ⟨slab, hslab, hinUse, hdigest⟩ := h.indexed d i hindex
    have hmem := mem_of_getElem? hslab
    have hlt := (List.getElem?_eq_some_iff.mp hslab).1
    rw [h.extend_eq hindex hslab hdata]
    split
    · exact ⟨h, rfl, by simp⟩
    rename_i hfit
    rw [Nat.not_lt] at hfit
    refine ⟨?_, rfl, ?_⟩
    · refine h.setSlab hslab { slab with bodyLen := slab.bodyLen + data.length } rfl rfl
        hfit rfl rfl (by simp [used]) ?_
      intro d' j hindex'
      by_cases hij : i = j
      · subst hij
        obtain ⟨hinUse', hdigest'⟩ := h.of_indexed hindex' hslab
        exact ⟨_, getElem?_set_self hlt, hinUse', hdigest'⟩
      · rw [getElem?_set_ne hij]
        exact h.indexed d' j hindex'
    · simp only [mem_singleton, forall_eq, InData]
      have hin := h.inside slab hmem
      omega

/-! ## Compaction -/

/-- Slabs that can be moved down one after another: listed, and each ends
before the next starts. -/
structure Movable (orig : List SlabEntry) (totalSize : ℕ) (order : List (SlabEntry × ℕ)) :
    Prop where
  listed : ∀ p ∈ order, orig[p.2]? = some p.1
  aligned : ∀ p ∈ order, 8 ∣ p.1.offset ∧ 8 ∣ p.1.size
  inside : ∀ p ∈ order, dataRegionOffset ≤ p.1.offset ∧ p.1.offset + p.1.size ≤ totalSize
  body : ∀ p ∈ order, p.1.bodyLen ≤ p.1.size
  index : ∀ p ∈ order, p.1.index < maxSlabs
  ordered : order.Pairwise fun p q => p.1.offset + p.1.size ≤ q.1.offset
  nodup : (order.map Prod.snd).Nodup

/-- The loop of `compact` with some slabs moved and some to come. -/
structure Compacting (orig : List SlabEntry) (m₀ : ℕ → UInt8) (totalSize : ℕ)
    (done rest : List (SlabEntry × ℕ)) (c : Compaction) : Prop where
  length : c.allocs.length = orig.length
  pending : ∀ i : ℕ, (∀ p ∈ done, p.2 ≠ i) → c.allocs[i]? = orig[i]?
  placed : ∀ p ∈ done, ∃ o, c.allocs[p.2]? = some { p.1 with offset := o } ∧
    dataRegionOffset ≤ o ∧ o ≤ p.1.offset ∧ 8 ∣ o ∧ o + p.1.size ≤ c.nextOffset ∧
    read c.mmap o p.1.bodyLen = read m₀ p.1.offset p.1.bodyLen
  apart : ∀ p ∈ done, ∀ q ∈ done, p.2 ≠ q.2 → ∀ a b : SlabEntry, c.allocs[p.2]? = some a →
    c.allocs[q.2]? = some b → Apart offset size a b
  low : dataRegionOffset ≤ c.nextOffset
  aligned : 8 ∣ c.nextOffset
  ahead : ∀ p ∈ rest, c.nextOffset ≤ p.1.offset
  kept : ∀ p ∈ rest, read c.mmap p.1.offset p.1.bodyLen = read m₀ p.1.offset p.1.bodyLen
  touched : ∀ r ∈ c.touched, InData totalSize r

theorem moveSlab_eq {idx : ℕ} (hslab : c.allocs[idx]? = some slab)
    (hsize : alignUp slab.bodyLen ≤ slab.size) (hnext : c.nextOffset + slab.size < 2 ^ 64) :
    c.moveSlab idx =
      { mmap := writeSlabPlace
          (if c.nextOffset ≠ slab.offset ∧ 0 < slab.bodyLen then
            move c.mmap slab.offset c.nextOffset slab.bodyLen
          else c.mmap) { slab with offset := c.nextOffset }
        allocs := c.allocs.set idx { slab with offset := c.nextOffset }
        nextOffset := c.nextOffset + slab.size
        touched := c.touched ++
          if c.nextOffset ≠ slab.offset ∧ 0 < slab.bodyLen then
            [⟨slab.offset, slab.bodyLen⟩, ⟨c.nextOffset, slab.bodyLen⟩]
          else [] } := by
  simp [Compaction.moveSlab, hslab, Nat.max_eq_right hsize, wrappingAdd_of_lt hnext]

theorem read_slide {m : ℕ → β} {src dst len : ℕ} :
    read (if dst ≠ src ∧ 0 < len then move m src dst len else m) dst len = read m src len := by
  split
  · exact read_move_self src dst
  rename_i hstay
  rcases Nat.eq_zero_or_pos len with rfl | hpos
  · rfl
  have heq : dst = src := by
    by_contra hne
    exact hstay ⟨hne, hpos⟩
  rw [heq]

theorem read_slide_of_apart {m : ℕ → β} {src dst len start n : ℕ}
    (h : start + n ≤ dst ∨ dst + len ≤ start) :
    read (if dst ≠ src ∧ 0 < len then move m src dst len else m) start n = read m start n := by
  split
  · exact read_move_of_apart h
  · rfl

theorem read_moved (hindex : slab.index < maxSlabs)
    {start n : ℕ} (hstart : dataRegionOffset ≤ start)
    (hapart : start + n ≤ c.nextOffset ∨ c.nextOffset + slab.bodyLen ≤ start) :
    read (writeSlabPlace (if c.nextOffset ≠ slab.offset ∧ 0 < slab.bodyLen then
      move c.mmap slab.offset c.nextOffset slab.bodyLen else c.mmap)
      { slab with offset := c.nextOffset }) start n = read c.mmap start n := by
  have hindex' : index { slab with offset := c.nextOffset } < maxSlabs := hindex
  rw [read_writeSlabPlace hindex' hstart, read_slide_of_apart hapart]

section Loop

variable {orig : List SlabEntry} {m₀ : ℕ → UInt8} {totalSize : ℕ} {done rest : List (SlabEntry × ℕ)}
  {p : SlabEntry × ℕ} {c : Compaction}

theorem Movable.ne_index (h : Movable orig totalSize (done ++ p :: rest)) :
    ∀ q ∈ done, q.2 ≠ p.2 := by
  intro q hq
  have hnd := h.nodup
  rw [map_append, map_cons, nodup_append] at hnd
  exact hnd.2.2 q.2 (mem_map_of_mem hq) p.2 (mem_cons_self ..)

theorem Movable.le_offset (h : Movable orig totalSize (done ++ p :: rest)) :
    ∀ q ∈ rest, p.1.offset + p.1.size ≤ q.1.offset := by
  have hord := h.ordered
  rw [pairwise_append, pairwise_cons] at hord
  exact hord.2.1.1

theorem Compacting.apart_set (h : Compacting orig m₀ totalSize done rest c)
    (hnew : ∀ q ∈ done, q.2 ≠ p.2) (hlt : p.2 < c.allocs.length) {slab : SlabEntry}
    (hoffset : slab.offset = c.nextOffset) :
    ∀ q ∈ done ++ [p], ∀ r ∈ done ++ [p], q.2 ≠ r.2 → ∀ a b : SlabEntry,
      (c.allocs.set p.2 slab)[q.2]? = some a → (c.allocs.set p.2 slab)[r.2]? = some b →
      Apart offset size a b := by
  have hbefore : ∀ q ∈ done, ∀ a : SlabEntry, c.allocs[q.2]? = some a →
      a.offset + a.size ≤ slab.offset := by
    intro q hq a ha
    obtain ⟨o, hat, -, -, -, hend, -⟩ := h.placed q hq
    rw [hat, some.injEq] at ha
    subst ha
    rw [hoffset]
    exact hend
  simp only [forall_mem_append, forall_mem_singleton]
  refine ⟨fun q hq => ⟨fun r hr hne a b ha hb => ?_, fun _ a b ha hb => ?_⟩,
    fun q hq _ a b ha hb => ?_, fun hne => absurd rfl hne⟩
  · rw [getElem?_set_ne (Ne.symm (hnew q hq))] at ha
    rw [getElem?_set_ne (Ne.symm (hnew r hr))] at hb
    exact h.apart q hq r hr hne a b ha hb
  · rw [getElem?_set_ne (Ne.symm (hnew q hq))] at ha
    rw [getElem?_set_self hlt, some.injEq] at hb
    subst hb
    exact .inl (hbefore q hq a ha)
  · rw [getElem?_set_self hlt, some.injEq] at ha
    rw [getElem?_set_ne (Ne.symm (hnew q hq))] at hb
    subst ha
    exact .inr (hbefore q hq b hb)

theorem Compacting.moveSlab (hmovable : Movable orig totalSize (done ++ p :: rest))
    (htotal : totalSize < 2 ^ 63) (h : Compacting orig m₀ totalSize done (p :: rest) c) :
    Compacting orig m₀ totalSize (done ++ [p]) rest (c.moveSlab p.2) := by
  have hnew := hmovable.ne_index
  have hafter := hmovable.le_offset
  obtain ⟨slab, idx⟩ := p
  have hmem : (slab, idx) ∈ done ++ (slab, idx) :: rest := by simp
  have hin := hmovable.inside _ hmem
  have hbody := hmovable.body _ hmem
  have hindex := hmovable.index _ hmem
  have hnext := h.ahead _ (mem_cons_self ..)
  have hlow := h.low
  dsimp only at hin hbody hindex hnext hnew hafter
  have hslab : c.allocs[idx]? = some slab := by
    rw [h.pending idx hnew]
    exact hmovable.listed _ hmem
  have hlt := (List.getElem?_eq_some_iff.mp hslab).1
  rw [moveSlab_eq hslab (alignUp_le (hmovable.aligned _ hmem).2 hbody (by omega)) (by omega)]
  constructor
  case length => rw [length_set, h.length]
  case pending =>
    intro i hi
    have hne : idx ≠ i := hi (slab, idx) (by simp)
    rw [getElem?_set_ne hne]
    exact h.pending i fun q hq => hi q (mem_append_left _ hq)
  case placed =>
    simp only [forall_mem_append, forall_mem_singleton]
    constructor
    · intro q hq
      obtain ⟨o, hat, hlow', hle, hdvd, hend, hsame⟩ := h.placed q hq
      have hbody' := hmovable.body q (mem_append_left _ hq)
      refine ⟨o, ?_, hlow', hle, hdvd, by omega, ?_⟩
      · rw [getElem?_set_ne (Ne.symm (hnew q hq)), hat]
      · rw [read_moved hindex hlow' (.inl (by omega)), hsame]
    · refine ⟨c.nextOffset, getElem?_set_self hlt, hlow, hnext, h.aligned, Nat.le_refl _, ?_⟩
      have hindex' : index { slab with offset := c.nextOffset } < maxSlabs := hindex
      rw [read_writeSlabPlace hindex' hlow, read_slide]
      exact h.kept _ (mem_cons_self ..)
  case apart => exact h.apart_set (p := (slab, idx)) hnew hlt rfl
  case low => exact hlow.trans (Nat.le_add_right _ _)
  case aligned => exact h.aligned.add (hmovable.aligned _ hmem).2
  case ahead =>
    intro q hq
    have := hafter q hq
    dsimp only
    omega
  case kept =>
    intro q hq
    have hinq := (hmovable.inside q (by simp [hq])).1
    have := hafter q hq
    rw [read_moved hindex hinq (.inr (by omega))]
    exact h.kept q (mem_cons_of_mem _ hq)
  case touched =>
    simp only [forall_mem_append]
    refine ⟨h.touched, ?_⟩
    split
    · simp only [forall_mem_cons, not_mem_nil, false_implies, implies_true, and_true, InData]
      omega
    · simp

theorem Compacting.loop (hmovable : Movable orig totalSize (done ++ rest))
    (htotal : totalSize < 2 ^ 63) (h : Compacting orig m₀ totalSize done rest c) :
    Compacting orig m₀ totalSize (done ++ rest) []
      ((rest.map Prod.snd).foldl Compaction.moveSlab c) := by
  induction rest generalizing done c with
  | nil => simpa using h
  | cons p rest ih =>
    have hsplit : done ++ p :: rest = done ++ [p] ++ rest := by simp
    have hnext := h.moveSlab hmovable htotal
    rw [hsplit] at hmovable ⊢
    exact ih hmovable hnext

end Loop

theorem mem_inUseByOffset {allocs : List SlabEntry} {p : SlabEntry × ℕ} :
    p ∈ inUseByOffset allocs ↔ allocs[p.2]? = some p.1 ∧ p.1.inUse = true := by
  rw [inUseByOffset, mem_mergeSort, mem_filter, mem_zipIdx_iff_getElem?]

theorem Inv.movable (h : s.Inv) :
    Movable s.allocations s.totalSize (inUseByOffset s.allocations) := by
  have hmem : ∀ p ∈ inUseByOffset s.allocations, p.1 ∈ s.allocations := fun p hp =>
    mem_of_getElem? (mem_inUseByOffset.mp hp).1
  have hperm := mergeSort_perm (s.allocations.zipIdx.filter (·.1.inUse))
    fun a b => decide (a.1.offset ≤ b.1.offset)
  constructor
  case listed => exact fun p hp => (mem_inUseByOffset.mp hp).1
  case aligned => exact fun p hp => h.aligned _ (hmem p hp)
  case inside => exact fun p hp => h.inside _ (hmem p hp)
  case body => exact fun p hp => h.body _ (hmem p hp)
  case index => exact fun p hp => h.index_lt (mem_inUseByOffset.mp hp).1
  case ordered =>
    have hsorted : (inUseByOffset s.allocations).Pairwise fun p q => p.1.offset ≤ q.1.offset := by
      have htrans : ∀ a b c : SlabEntry × ℕ, decide (a.1.offset ≤ b.1.offset) = true →
          decide (b.1.offset ≤ c.1.offset) = true → decide (a.1.offset ≤ c.1.offset) = true := by
        simp only [decide_eq_true_eq]
        exact fun _ _ _ => Nat.le_trans
      have hpair := pairwise_mergeSort htrans (fun a b => by simpa using Nat.le_total _ _)
        (s.allocations.zipIdx.filter (·.1.inUse))
      simp only [decide_eq_true_eq] at hpair
      exact hpair
    have hapart : s.allocations.zipIdx.Pairwise
        (Apart (fun p => p.1.offset) fun p => p.1.size) := by
      have hall := h.apart
      rw [← zipIdx_map_fst 0 s.allocations, pairwise_map] at hall
      exact hall
    have happart' : (inUseByOffset s.allocations).Pairwise
        (Apart (fun p => p.1.offset) fun p => p.1.size) :=
      (hperm.pairwise_iff Apart.symm).mpr (hapart.sublist filter_sublist)
    exact le_start_of_ordered hsorted happart' fun p hp => h.positive _ (hmem p hp)
  case nodup =>
    have hall : (s.allocations.zipIdx.map Prod.snd).Nodup := by
      rw [zipIdx_map_snd]
      exact nodup_range'
    exact (hperm.map Prod.snd).nodup_iff.mpr (hall.sublist (filter_sublist.map _))

theorem Inv.startCompacting (h : s.Inv) :
    Compacting s.allocations s.mmap s.totalSize [] (inUseByOffset s.allocations)
      ⟨s.mmap, s.allocations, dataRegionOffset, []⟩ where
  length := rfl
  pending := fun _ _ => rfl
  placed := by simp
  apart := by simp
  low := Nat.le_refl _
  aligned := show 8 ∣ dataRegionOffset by decide
  ahead := fun p hp => (h.movable.inside p hp).1
  kept := fun _ _ => rfl
  touched := by simp

/-- The loop of `compact` when it has moved every slab in use. -/
def compacted (s : PersistentStevedore) : Compaction :=
  ((inUseByOffset s.allocations).map Prod.snd).foldl Compaction.moveSlab
    ⟨s.mmap, s.allocations, dataRegionOffset, []⟩

theorem compact_eq (s : PersistentStevedore) : s.compact =
    (s.compacted.touched, { s with
      mmap := s.compacted.mmap
      digestIndex := rebuildIndex (s.compacted.allocs.filter inUse)
      allocations := (s.compacted.allocs.filter inUse).mapIdx fun i slab => { slab with index := i }
      usedSize := ((s.compacted.allocs.filter inUse).map size).foldl (wrappingAdd 64) 0 }) :=
  rfl

theorem Inv.compacting (h : s.Inv) :
    Compacting s.allocations s.mmap s.totalSize (inUseByOffset s.allocations) [] s.compacted :=
  h.startCompacting.loop h.movable h.room.2

theorem Compacting.inUse {orig : List SlabEntry} {m₀ : ℕ → UInt8}
    (h : Compacting orig m₀ totalSize (inUseByOffset orig) [] c)
    (hslab : c.allocs[i]? = some slab) (hinUse : slab.inUse = true) :
    ∃ p ∈ inUseByOffset orig, p.2 = i ∧ ∃ o, slab = { p.1 with offset := o } ∧
      dataRegionOffset ≤ o ∧ o ≤ p.1.offset ∧ 8 ∣ o ∧
      read c.mmap o p.1.bodyLen = read m₀ p.1.offset p.1.bodyLen := by
  by_cases hdone : ∀ p ∈ inUseByOffset orig, p.2 ≠ i
  · rw [h.pending i hdone] at hslab
    exact absurd rfl (hdone (slab, i) (mem_inUseByOffset.mpr ⟨hslab, hinUse⟩))
  simp only [not_forall, not_not] at hdone
  obtain ⟨p, hp, rfl⟩ := hdone
  obtain ⟨o, hat, hlow, hle, hdvd, -, hread⟩ := h.placed p hp
  rw [hat, some.injEq] at hslab
  exact ⟨p, hp, rfl, o, hslab.symm, hlow, hle, hdvd, hread⟩

/-! ## The rebuilt index -/

theorem rebuildIndex_concat (l : List SlabEntry) (slab : SlabEntry) :
    rebuildIndex (l ++ [slab]) = update (rebuildIndex l) slab.digest (some l.length) := by
  rw [rebuildIndex, zipIdx_append, foldl_append, Nat.zero_add]
  rfl

theorem rebuildIndex_eq_some {l : List SlabEntry} {j : ℕ} :
    rebuildIndex l d = some j ↔ ∃ slab, l[j]? = some slab ∧ slab.digest = d ∧
      ∀ (k : ℕ) (slab' : SlabEntry), j < k → l[k]? = some slab' → slab'.digest ≠ d := by
  induction l using reverseRecOn with
  | nil => simp [rebuildIndex]
  | append_singleton l a ih =>
    rw [rebuildIndex_concat]
    have hlast : (l ++ [a])[l.length]? = some a := getElem?_concat_length
    by_cases hd : d = a.digest
    · subst hd
      rw [update_self, some.injEq]
      constructor
      · rintro rfl
        refine ⟨a, hlast, rfl, fun k slab' hk hslab' => ?_⟩
        rw [getElem?_eq_none (by simpa using hk)] at hslab'
        cases hslab'
      rintro ⟨slab, hslab, -, hafter⟩
      have hj := (List.getElem?_eq_some_iff.mp hslab).1
      rw [length_append, length_singleton] at hj
      by_contra hne
      exact hafter l.length a (by omega) hlast rfl
    rw [update_of_ne hd, ih]
    constructor
    · rintro ⟨slab, hslab, hdigest, hafter⟩
      have hj := (List.getElem?_eq_some_iff.mp hslab).1
      refine ⟨slab, by rw [getElem?_append_left hj, hslab], hdigest, ?_⟩
      intro k slab' hk hslab'
      rw [getElem?_append] at hslab'
      split at hslab'
      · exact hafter k slab' hk hslab'
      have hmem := mem_of_getElem? hslab'
      rw [mem_singleton.mp hmem]
      exact Ne.symm hd
    · rintro ⟨slab, hslab, hdigest, hafter⟩
      have hj : j < l.length := by
        by_contra hge
        rw [getElem?_append_right (by omega)] at hslab
        rw [mem_singleton.mp (mem_of_getElem? hslab)] at hdigest
        exact hd hdigest.symm
      rw [getElem?_append_left hj] at hslab
      refine ⟨slab, hslab, hdigest, fun k slab' hk hslab' => hafter k slab' hk ?_⟩
      rw [getElem?_append_left (List.getElem?_eq_some_iff.mp hslab').1, hslab']

/-! ## The compacted store -/

theorem map_mapIdx_index {γ : Type} (f : SlabEntry → γ)
    (hf : ∀ slab i, f { slab with index := i } = f slab) (l : List SlabEntry) :
    (l.mapIdx fun i slab => { slab with index := i }).map f = l.map f := by
  refine ext_getElem (by simp) fun i _ _ => ?_
  simp [hf]

/-- Compaction keeps the geometry in order, and touches only slab data. -/
theorem Inv.compact (h : s.Inv) :
    s.compact.2.Inv ∧ s.compact.2.totalSize = s.totalSize ∧
      ∀ r ∈ s.compact.1, InData s.totalSize r := by
  have hloop := h.compacting
  have hmovable := h.movable
  rw [compact_eq]
  generalize s.compacted = c at hloop ⊢
  refine ⟨?_, rfl, hloop.touched⟩
  -- what is known of every slab that stays
  have hactive : ∀ slab ∈ c.allocs.filter inUse, slab.inUse = true ∧ Fits s.totalSize slab := by
    intro slab hmem
    obtain ⟨hin, hinUse⟩ := mem_filter.mp hmem
    obtain ⟨i, hi⟩ := getElem?_of_mem hin
    obtain ⟨p, hp, -, o, rfl, hlow, hle, hdvd, -⟩ := hloop.inUse hi hinUse
    have hfits := h.fits (mem_of_getElem? (hmovable.listed p hp))
    have hinside := hfits.inside
    refine ⟨hinUse, ⟨hdvd, hfits.aligned.2⟩, ⟨hlow, ?_⟩, hfits.body, hfits.positive⟩
    dsimp only
    omega
  have hapart : (c.allocs.filter inUse).Pairwise (Apart offset size) := by
    rw [pairwise_filter, pairwise_iff_getElem]
    intro i j hi hj hij hinUse₁ hinUse₂
    have hat₁ : c.allocs[i]? = some c.allocs[i] := getElem?_eq_getElem hi
    have hat₂ : c.allocs[j]? = some c.allocs[j] := getElem?_eq_getElem hj
    obtain ⟨p, hp, rfl, -⟩ := hloop.inUse hat₁ hinUse₁
    obtain ⟨q, hq, rfl, -⟩ := hloop.inUse hat₂ hinUse₂
    exact hloop.apart p hp q hq (by omega) _ _ hat₁ hat₂
  generalize hact : c.allocs.filter inUse = active at hactive hapart ⊢
  refine inv_of_fits ?_ ?_ ?_ h.room ?_ ?_ ?_
  · intro slab hmem
    obtain ⟨i, hi, rfl⟩ := mem_mapIdx.mp hmem
    have hfits := (hactive active[i] (getElem_mem hi)).2
    exact hfits.of_place rfl hfits.body
  · exact pairwise_apart_of_place hapart (map_mapIdx_index place (fun _ _ => rfl) active)
  · have hsum := (sum_len_le hapart fun a ha => (hactive a ha).2.inside).trans (Nat.sub_le ..)
    have hroom := h.room.2
    have hused : active.map used = active.map size := by
      refine map_congr_left fun a ha => ?_
      rw [used, if_pos (hactive a ha).1]
    rw [map_mapIdx_index used (fun _ _ => rfl), hused, foldl_wrappingAdd (by omega), Nat.zero_add]
  · intro i slab hslab
    rw [getElem?_mapIdx, map_eq_some_iff] at hslab
    obtain ⟨a, -, rfl⟩ := hslab
    rfl
  · rw [length_mapIdx, ← hact]
    exact (length_filter_le ..).trans (hloop.length.trans_le h.few)
  · intro d i hindex
    obtain ⟨slab, hslab, hdigest, -⟩ := rebuildIndex_eq_some.mp hindex
    refine ⟨{ slab with index := i }, ?_, (hactive slab (mem_of_getElem? hslab)).1, hdigest⟩
    rw [getElem?_mapIdx, hslab]
    rfl

/-! ## Runs -/

theorem totalSize_freeObj (s : PersistentStevedore) (d : Digest) :
    (s.freeObj d).totalSize = s.totalSize := by
  rw [PersistentStevedore.freeObj]
  split
  · rfl
  · dsimp only
    split <;> rfl

theorem Inv.step (h : s.Inv) {call : StoreCall} (hcall : call.Sliced) :
    (s.step call).2.Inv ∧ (s.step call).2.totalSize = s.totalSize ∧
      ∀ r ∈ (s.step call).1.touched, InData s.totalSize r := by
  cases call with
  | allocObj d sizeHint =>
    obtain ⟨hinv, htotal⟩ := h.allocObj d hcall
    exact ⟨hinv, htotal, by simp [PersistentStevedore.step]⟩
  | extend d data => exact h.extend d hcall
  | freeObj d =>
    exact ⟨h.freeObj d, totalSize_freeObj s d, by simp [PersistentStevedore.step]⟩
  | compact => exact h.compact

/-- **Slab geometry over runs.** On a freshly created file of any size, after
every sequence of calls, the slabs are in order, and every byte of slab data
the calls touched lies in the data region. -/
theorem inOrder_run (size : ℕ) (s₀ : PersistentStevedore) (hcreate : create size = some s₀)
    (calls : List StoreCall) (hcalls : ∀ call ∈ calls, call.Sliced) :
    (Lib.record PersistentStevedore.step s₀ calls).2.InOrder ∧
      (Lib.record PersistentStevedore.step s₀ calls).2.totalSize = size ∧
      ∀ entry ∈ (Lib.record PersistentStevedore.step s₀ calls).1,
        ∀ r ∈ entry.2.touched, dataRegionOffset ≤ r.start ∧ r.start + r.len ≤ size := by
  obtain ⟨hinit, hsize⟩ := inv_create hcreate
  have hrun := Lib.record_induction PersistentStevedore.step
    (P := fun ls log s => (∀ call ∈ ls, call.Sliced) → s.Inv ∧ s.totalSize = size ∧
      ∀ entry ∈ log, ∀ r ∈ entry.2.touched, InData size r)
    (fun _ => ⟨hinit, hsize, by simp⟩)
    (by
      intro ls log s call hbefore hsliced
      obtain ⟨hinv, htotal, htouched⟩ := hbefore fun c hc => hsliced c (mem_append_left _ hc)
      obtain ⟨hinv', htotal', htouched'⟩ := hinv.step (hsliced call (by simp))
      rw [htotal] at htotal' htouched'
      refine ⟨hinv', htotal', ?_⟩
      simp only [forall_mem_append, forall_mem_singleton]
      exact ⟨htouched, htouched'⟩)
    calls hcalls
  exact ⟨hrun.1.toInOrder, hrun.2⟩

/-- Two objects, of which the first is freed and the second moves down. -/
def smallCalls : List StoreCall :=
  [.allocObj ⟨.replicate 32 1⟩ 100, .allocObj ⟨.replicate 32 2⟩ 10,
    .extend ⟨.replicate 32 2⟩ [1, 2, 3], .freeObj ⟨.replicate 32 1⟩, .compact]

theorem inOrder_run_small :
    ∃ s₀, create 4195000 = some s₀ ∧
      (Lib.record PersistentStevedore.step s₀ smallCalls).2.InOrder := by
  have hcalls : ∀ call ∈ smallCalls, call.Sliced := by
    simp [smallCalls, StoreCall.Sliced]
  exact ⟨_, if_pos (by decide), (inOrder_run 4195000 _ (if_pos (by decide)) smallCalls hcalls).1⟩

end PersistentStevedore

end VarahaCache
