import VarahaCache.Hash.Critbit

/-!
# The list and the bucket table, and the three tables together

`SimpleListHash` and `ClassicHash` of `rv-hash` keep their heads in vectors
that are searched from the front. All three tables refine the same finite
map, so they answer alike.
-/

namespace VarahaCache

open Function List Lib HashClient

/-! ## A vector of heads -/

/-- The loop over a vector: the first head for the digest. -/
def findEntry (entries : List ObjHead) (digest : Digest) : Option ObjHead :=
  entries.find? (·.digest = digest)

/-- `Vec::swap_remove`: the last element takes the place of the one removed. -/
def swapRemove (entries : List ObjHead) (pos : ℕ) : List ObjHead :=
  match entries.getLast? with
  | none => []
  | some last => (entries.set pos last).dropLast

/-- The end of `deref`: a head is found by its address, and swapped out. -/
def removeEntry (entries : List ObjHead) (oh : ObjHead) : List ObjHead :=
  match entries.findIdx? (· = oh) with
  | some pos => swapRemove entries pos
  | none => entries

def OnePerDigest (entries : List ObjHead) : Prop := (entries.map ObjHead.digest).Nodup

theorem swapRemove_perm {entries : List ObjHead} {pos : ℕ} (h : pos < entries.length) :
    (swapRemove entries pos).Perm (entries.eraseIdx pos) := by
  rcases eq_nil_or_concat entries with rfl | ⟨init, last, rfl⟩
  · simp at h
  rw [concat_eq_append, length_append, length_singleton] at h
  simp only [concat_eq_append, swapRemove, getLast?_append, getLast?_singleton, Option.some_or]
  by_cases hpos : pos < init.length
  · rw [set_append_left _ _ hpos, dropLast_concat, eraseIdx_append_of_lt_length hpos]
    exact (set_perm_cons_eraseIdx hpos last).trans (perm_append_singleton _ _).symm
  have hlast : pos = init.length := by omega
  subst hlast
  rw [set_append_right _ _ (Nat.le_refl _), eraseIdx_append_of_length_le (Nat.le_refl _)]
  simp

namespace OnePerDigest

variable {entries : List ObjHead} {oh : ObjHead} {digest : Digest}

theorem findEntry_eq_some (h : OnePerDigest entries) :
    findEntry entries digest = some oh ↔ oh ∈ entries ∧ oh.digest = digest := by
  constructor
  · intro hfind
    exact ⟨mem_of_find?_eq_some hfind, by simpa using find?_some hfind⟩
  rintro ⟨hmem, rfl⟩
  obtain ⟨oh', hfind⟩ : ∃ oh', findEntry entries oh.digest = some oh' := by
    rw [← Option.isSome_iff_exists, findEntry, find?_isSome]
    exact ⟨oh, hmem, by simp⟩
  have hdigest : oh'.digest = oh.digest := by simpa using find?_some hfind
  rw [hfind, inj_on_of_nodup_map h (mem_of_find?_eq_some hfind) hmem hdigest]

theorem findEntry_eq_none :
    findEntry entries digest = none ↔ ∀ oh ∈ entries, oh.digest ≠ digest := by
  simp [findEntry]

theorem push (h : OnePerDigest entries) (hmissing : findEntry entries oh.digest = none) :
    OnePerDigest (entries ++ [oh]) ∧
      findEntry (entries ++ [oh]) = update (findEntry entries) oh.digest (some oh) := by
  have hnew : ∀ oh' ∈ entries, oh'.digest ≠ oh.digest := findEntry_eq_none.mp hmissing
  constructor
  · rw [OnePerDigest, map_append, nodup_append]
    refine ⟨h, by simp, ?_⟩
    simpa using hnew
  funext d
  rw [findEntry, find?_append]
  by_cases hd : d = oh.digest
  · subst hd
    rw [update_self, ← findEntry.eq_def, hmissing]
    simp
  · rw [update_of_ne hd]
    simp [findEntry, Ne.symm hd]

theorem remove (h : OnePerDigest entries) (hfound : findEntry entries oh.digest = some oh) :
    OnePerDigest (removeEntry entries oh) ∧
      findEntry (removeEntry entries oh) = update (findEntry entries) oh.digest none := by
  have hmem : oh ∈ entries := (h.findEntry_eq_some.mp hfound).1
  have hnodup : entries.Nodup := List.Nodup.of_map _ h
  have hperm : (removeEntry entries oh).Perm (entries.erase oh) := by
    obtain ⟨pos, hpos⟩ : ∃ pos, entries.findIdx? (· = oh) = some pos := by
      rw [← Option.isSome_iff_exists, findIdx?_isSome]
      simpa using hmem
    obtain ⟨hlt, hoh, -⟩ := findIdx?_eq_some_iff_getElem.mp hpos
    have hget : entries[pos] = oh := by simpa using hoh
    rw [removeEntry, hpos]
    refine (swapRemove_perm hlt).trans ?_
    rw [← hget, hnodup.erase_getElem pos hlt]
  have hone : OnePerDigest (removeEntry entries oh) :=
    (hperm.map ObjHead.digest).nodup_iff.mpr (h.sublist (erase_sublist.map _))
  refine ⟨hone, ?_⟩
  funext d
  refine Option.ext fun oh' => ?_
  rw [hone.findEntry_eq_some, hperm.mem_iff, hnodup.mem_erase_iff]
  by_cases hd : d = oh.digest
  · subst hd
    rw [update_self]
    refine iff_of_false ?_ (by simp)
    rintro ⟨⟨hne, hmem'⟩, hdigest⟩
    exact hne (inj_on_of_nodup_map h hmem' hmem hdigest)
  rw [update_of_ne hd, h.findEntry_eq_some]
  constructor
  · rintro ⟨⟨-, hmem'⟩, hdigest⟩
    exact ⟨hmem', hdigest⟩
  · rintro ⟨hmem', rfl⟩
    exact ⟨⟨fun heq => hd (congrArg ObjHead.digest heq), hmem'⟩, rfl⟩

end OnePerDigest

/-! ## One list -/

structure SimpleListHash where
  entries : List ObjHead

namespace SimpleListHash

def new : SimpleListHash := ⟨[]⟩

def lookup (s : HashState SimpleListHash) (digest : Digest) (newOh : ObjHead) :
    (ObjHead × Option ObjHead) × HashState SimpleListHash :=
  -- fast path, under the read lock
  match findEntry s.table.entries digest with
  | some entry => ((entry, some newOh), ⟨s.table, incRef s.refcnt entry⟩)
  | none =>
    -- slow path, under the write lock
    match findEntry s.table.entries digest with
    | some entry => ((entry, some newOh), ⟨s.table, incRef s.refcnt entry⟩)
    | none => ((newOh, none), ⟨⟨s.table.entries ++ [newOh]⟩, incRef s.refcnt newOh⟩)

def deref (s : HashState SimpleListHash) (oh : ObjHead) : Bool × HashState SimpleListHash :=
  let r := decRef s.refcnt oh
  if r.1 = 0 then (true, ⟨⟨removeEntry s.table.entries oh⟩, r.2⟩) else (false, ⟨s.table, r.2⟩)

def slinger : HashSlinger SimpleListHash := ⟨lookup, deref⟩

theorem refines :
    Refines slinger (fun t => OnePerDigest t.entries) (fun t => findEntry t.entries) where
  digest h hfind := (h.findEntry_eq_some.mp hfind).2
  lookup_hit newOh _ hfind := by simp [slinger, lookup, hfind]
  lookup_miss := by
    rintro s d newOh h hfind rfl
    exact ⟨⟨s.table.entries ++ [newOh]⟩, by simp [slinger, lookup, hfind], h.push hfind⟩
  deref_kept hcount := by simp [slinger, deref, decRef, hcount]
  deref_last := by
    intro s oh h hfind hcount
    exact ⟨⟨removeEntry s.table.entries oh⟩, by simp [slinger, deref, decRef, hcount],
      h.remove hfind⟩

end SimpleListHash

/-! ## Buckets -/

structure ClassicHash (nBuckets : ℕ) where
  buckets : Fin nBuckets → List ObjHead

namespace ClassicHash

variable {nBuckets : ℕ} [NeZero nBuckets]

omit [NeZero nBuckets] in
def withBuckets (nBuckets : ℕ) : ClassicHash nBuckets := ⟨fun _ => []⟩

/-- `bucket_index`: the first eight bytes, little-endian, modulo the buckets.
-/
def bucketIndex (digest : Digest) : Fin nBuckets := Fin.ofNat nBuckets
    ((range 8).foldr (fun i val => (digest.byte i).toNat + 256 * val) 0)

def bucket (t : ClassicHash nBuckets) (digest : Digest) : List ObjHead :=
  t.buckets (bucketIndex digest)

def setBucket (t : ClassicHash nBuckets) (digest : Digest) (entries : List ObjHead) :
    ClassicHash nBuckets :=
  ⟨update t.buckets (bucketIndex digest) entries⟩

def lookup (s : HashState (ClassicHash nBuckets)) (digest : Digest) (newOh : ObjHead) :
    (ObjHead × Option ObjHead) × HashState (ClassicHash nBuckets) :=
  let bucket := s.table.bucket digest
  match findEntry bucket digest with
  | some entry => ((entry, some newOh), ⟨s.table, incRef s.refcnt entry⟩)
  | none => ((newOh, none), ⟨s.table.setBucket digest (bucket ++ [newOh]), incRef s.refcnt newOh⟩)

def deref (s : HashState (ClassicHash nBuckets)) (oh : ObjHead) :
    Bool × HashState (ClassicHash nBuckets) :=
  let r := decRef s.refcnt oh
  if r.1 = 0 then
    (true, ⟨s.table.setBucket oh.digest (removeEntry (s.table.bucket oh.digest) oh), r.2⟩)
  else (false, ⟨s.table, r.2⟩)

def slinger (nBuckets : ℕ) [NeZero nBuckets] : HashSlinger (ClassicHash nBuckets) := ⟨lookup, deref⟩

def search (t : ClassicHash nBuckets) (digest : Digest) : Option ObjHead :=
  findEntry (t.bucket digest) digest

omit [NeZero nBuckets] in
def WF (t : ClassicHash nBuckets) : Prop := ∀ i, OnePerDigest (t.buckets i)

theorem WF.setBucket {t : ClassicHash nBuckets} (h : t.WF) {digest : Digest}
    {entries : List ObjHead} {value : Option ObjHead} (hentries : OnePerDigest entries)
    (hfind : findEntry entries = update (findEntry (t.bucket digest)) digest value) :
    (t.setBucket digest entries).WF ∧
      (t.setBucket digest entries).search = update t.search digest value := by
  constructor
  · intro i
    by_cases hi : i = bucketIndex digest
    · simpa [ClassicHash.setBucket, hi] using hentries
    · simpa [ClassicHash.setBucket, hi] using h i
  funext d
  by_cases hbucket : (bucketIndex d : Fin nBuckets) = bucketIndex digest
  · simp only [search, bucket, ClassicHash.setBucket, hbucket, update_self, hfind]
    by_cases hd : d = digest
    · simp [hd]
    · simp [hd, search, bucket, hbucket]
  · have hd : d ≠ digest := fun hd => hbucket (congrArg bucketIndex hd)
    simp [search, bucket, ClassicHash.setBucket, hbucket, hd]

theorem refines : Refines (slinger nBuckets) WF search where
  digest h hfind := ((h _).findEntry_eq_some.mp hfind).2
  lookup_hit newOh _ hfind := by
    rw [search] at hfind
    simp [slinger, lookup, hfind]
  lookup_miss := by
    rintro s d newOh h hfind rfl
    obtain ⟨hone, hpush⟩ := (h _).push hfind
    refine ⟨_, ?_, h.setBucket hone hpush⟩
    simp only [search, bucket] at hfind
    simp [slinger, lookup, hfind, bucket]
  deref_kept hcount := by simp [slinger, deref, decRef, hcount]
  deref_last := by
    intro s oh h hfind hcount
    obtain ⟨hone, hremove⟩ := (h _).remove hfind
    refine ⟨_, ?_, h.setBucket hone hremove⟩
    simp [slinger, deref, decRef, hcount, bucket]

end ClassicHash

/-! ## The three tables -/

namespace CritbitHash

def run (calls : List HashCall) : List (HashCall × HashAnswer) × HashClient CritbitHash :=
  record (step slinger) (start new) calls

/-- The calls of a run are permitted, one after another. -/
def PermittedRun (calls : List HashCall) : Prop :=
  Guarded (step slinger) Permitted (start new) calls

/-- The calls of a run are permitted, and no count has to say more than it
can. -/
def AllowedRun (calls : List HashCall) : Prop :=
  Guarded (step slinger) Allowed (start new) calls

theorem sound_new : (start new).Sound WF search :=
  sound_start (by rintro tree ⟨⟩) fun _ => rfl

/-- **The crit-bit table is a finite map.** Every run of permitted calls in
which the counts fit answers as the map from digests to counted heads, and
leaves its counts and heads; the tree's positions increase on every way down
and its leaves are on the side of their bits; and the list and every bucket
table give the same answers. -/
theorem run_eq_headMap (calls : List HashCall) (hallowed : AllowedRun calls) :
    record HeadMap.step (fun _ => none) calls =
        ((run calls).1, (run calls).2.toMap search) ∧
      (∀ tree, (run calls).2.state.table.root = some tree →
        tree.Ascending 0 ∧ tree.Sided bitOf ObjHead.digest) ∧
      (record (step SimpleListHash.slinger)
        (start SimpleListHash.new) calls).1 = (run calls).1 ∧
      ∀ (nBuckets : ℕ) [NeZero nBuckets], (record (step (ClassicHash.slinger nBuckets))
          (start (ClassicHash.withBuckets nBuckets)) calls).1 = (run calls).1 := by
  obtain ⟨hsound, hmap⟩ := sound_new.record refines hallowed
  refine ⟨hmap, ?_, ?_, ?_⟩
  · intro tree hroot
    have hwf := hsound.inv tree hroot
    exact ⟨hwf.ascending, hwf.sided⟩
  · have hsimple : (start SimpleListHash.new).Sound
        (fun t => OnePerDigest t.entries) (fun t => findEntry t.entries) :=
      sound_start nodup_nil fun _ => rfl
    exact (sound_new.same_answers refines SimpleListHash.refines hsimple rfl hallowed).symm
  · intro nBuckets _
    have hclassic : (start (.withBuckets nBuckets)).Sound
        ClassicHash.WF ClassicHash.search :=
      sound_start (fun _ => nodup_nil) fun _ => rfl
    exact (sound_new.same_answers refines ClassicHash.refines hclassic rfl hallowed).symm

/-- Two digests that part at the last bit of the first byte; one is looked up
twice and released. -/
def twoHeads : List HashCall := [.lookup ⟨.replicate 32 2⟩ ⟨0, ⟨.replicate 32 2⟩⟩,
    .lookup ⟨.replicate 32 3⟩ ⟨1, ⟨.replicate 32 3⟩⟩,
    .lookup ⟨.replicate 32 3⟩ ⟨2, ⟨.replicate 32 3⟩⟩,
    .deref ⟨1, ⟨.replicate 32 3⟩⟩, .deref ⟨1, ⟨.replicate 32 3⟩⟩]

theorem run_eq_headMap_twoHeads :
    AllowedRun twoHeads ∧
      record HeadMap.step (fun _ => none) twoHeads =
        ((run twoHeads).1, (run twoHeads).2.toMap search) := by
  have hpermitted : PermittedRun twoHeads :=
    ⟨rfl, rfl, rfl, by decide +kernel, by decide +kernel, trivial⟩
  have hallowed : AllowedRun twoHeads :=
    guarded_allowed (n := 0) (fun _ => Nat.le_refl 0) (by decide) hpermitted
  exact ⟨hallowed, (run_eq_headMap twoHeads hallowed).1⟩

/-! ## The width of the count -/

/-- A table with one head, looked up so many times. -/
def crowded (oh : ObjHead) (n : ℕ) : HashClient CritbitHash :=
  ⟨⟨⟨some (.leaf oh)⟩, update (fun _ => 0) oh (UInt32.ofNat n)⟩, update (fun _ => 0) oh n⟩

variable (oh : ObjHead) (n : ℕ)

theorem step_start :
    ((start new).step slinger (.lookup oh.digest oh)).2 = crowded oh 1 := rfl

theorem step_crowded :
    ((crowded oh n).step slinger (.lookup oh.digest oh)).2 = crowded oh (n + 1) := by
  have hfound : (crowded oh n).state.table.search oh.digest = some oh := by
    simp [crowded, search, walkToLeaf, CritBit.Tree.walk]
  simp only [step, slinger, lookup, readSection, hfound]
  simp [crowded, incRef, UInt32.ofNat_add]

theorem headMap_step_crowded :
    (HeadMap.step (update (fun _ => none) oh.digest (some (oh, n)))
      (.lookup oh.digest oh)).2 =
      update (fun _ => none) oh.digest (some (oh, n + 1)) := by
  simp [HeadMap.step]

def crowd (oh : ObjHead) (n : ℕ) : List HashCall :=
  .lookup oh.digest oh :: replicate n (.lookup oh.digest oh) ++ [.deref oh]

theorem permittedRun_crowd : PermittedRun (crowd oh n) := by
  have hlookups : ∀ c, Guarded (step slinger) Permitted c
      (replicate n (.lookup oh.digest oh)) := by
    induction n with
    | zero => exact fun _ => trivial
    | succ n ih => exact fun _ => ⟨rfl, ih _⟩
  refine ⟨rfl, (guarded_concat_iff _).mpr ⟨hlookups _, ?_⟩⟩
  rw [step_start, record_replicate _ (step_crowded oh)]
  simp [Permitted, crowded]

theorem run_crowd :
    (run (crowd oh n)).1.getLast? =
        some (.deref oh, ((crowded oh (1 + n)).step slinger (.deref oh)).1) ∧
      (run (crowd oh n)).2 = ((crowded oh (1 + n)).step slinger (.deref oh)).2 := by
  rw [run, crowd, record_concat, record, step_start, record_replicate _ (step_crowded oh)]
  exact ⟨getLast?_concat .., rfl⟩

theorem headMap_crowd {n : ℕ} (hn : 0 < n) :
    (record HeadMap.step (fun _ => none) (crowd oh n)).1.getLast? =
      some (.deref oh, .released false) := by
  obtain ⟨n, rfl⟩ := Nat.exists_eq_succ_of_ne_zero hn.ne'
  have hstart : (HeadMap.step (fun _ => none) (.lookup oh.digest oh)).2 =
      update (fun _ => none) oh.digest (some (oh, 1)) := rfl
  rw [crowd, record_concat, record, hstart,
    record_replicate _ (headMap_step_crowded oh), getLast?_concat, HeadMap.step]
  simp [Nat.add_comm 1 (n + 1)]

/-- **The count wraps**: after `2 ^ 32 + 1` lookups of one digest it says one,
and the first release removes the head. -/
theorem run_ne_headMap_of_wrap :
    PermittedRun (crowd ⟨0, ⟨.replicate 32 2⟩⟩ (2 ^ 32)) ∧
      (run (crowd ⟨0, ⟨.replicate 32 2⟩⟩ (2 ^ 32))).1.getLast? =
        some (.deref ⟨0, ⟨.replicate 32 2⟩⟩, .released true) ∧
      (run (crowd ⟨0, ⟨.replicate 32 2⟩⟩ (2 ^ 32))).2.held ⟨0, ⟨.replicate 32 2⟩⟩ =
        2 ^ 32 ∧
      (record HeadMap.step (fun _ => none)
          (crowd ⟨0, ⟨.replicate 32 2⟩⟩ (2 ^ 32))).1.getLast? =
        some (.deref ⟨0, ⟨.replicate 32 2⟩⟩, .released false) := by
  obtain ⟨hlast, hend⟩ := run_crowd ⟨0, ⟨.replicate 32 2⟩⟩ (2 ^ 32)
  refine ⟨permittedRun_crowd _ _, ?_, ?_, headMap_crowd _ (by decide)⟩
  · rw [hlast]
    rfl
  · rw [hend]
    rfl

end CritbitHash

end VarahaCache
