import VarahaCache.Storage.Slabs

/-!
# Stored bodies

What the persistent store gives back for a digest, against what was written
for it. Operations on other digests leave its slab alone, and compaction
carries its body along; but compaction also reads the index off the slab
list, and a digest allocated twice can come out at its older slab.
-/

namespace VarahaCache

open Blocks Function List Lib SlabEntry

/-- What was written for each digest since its latest allocation; none for one
not allocated. -/
abbrev Written := Digest → Option (List UInt8)

namespace Written

/-- A successful allocation starts a body, a successful extension adds to it,
a free drops it. -/
def step (w : Written) (entry : StoreCall × StoreAnswer) : Written :=
  match entry.1, entry.2.result with
  | .allocObj d _, .ok _ => update w d (some [])
  | .extend d data, .ok _ => update w d ((w d).map (· ++ data))
  | .freeObj d, _ => update w d none
  | _, _ => w

def ofLog (log : List (StoreCall × StoreAnswer)) : Written := log.foldl step fun _ => none

end Written

namespace PersistentStevedore

/-- **Bodies are what was written** for every allocated digest, none when that
is empty. -/
def BodiesWritten (s : PersistentStevedore) (w : Written) : Prop :=
  ∀ d body, w d = some body → s.getBody d = if body = [] then none else some body

/-- No slab in use stands later than the one the index has for its digest. -/
def LastIndexed (s : PersistentStevedore) : Prop :=
  ∀ p ∈ s.allocations.zipIdx, p.1.inUse = true → ∀ i ∈ s.digestIndex p.1.digest, p.2 ≤ i

instance (s : PersistentStevedore) : Decidable s.LastIndexed :=
  inferInstanceAs (Decidable (∀ p ∈ s.allocations.zipIdx, p.1.inUse = true →
    ∀ i ∈ s.digestIndex p.1.digest, p.2 ≤ i))

/-- The lengths are those of byte slices, and the slabs indexed at a
compaction are the last in use for their digests. -/
def StepOk (s : PersistentStevedore) (call : StoreCall) : Prop :=
  call.Sliced ∧ (call = .compact → s.LastIndexed)

variable {call : StoreCall}

theorem stepOk_of_ne {s : PersistentStevedore} (h : call.Sliced)
    (hne : call ≠ .compact) : s.StepOk call :=
  ⟨h, fun heq => absurd heq hne⟩

/-- The index leads to a slab that holds what was written. -/
def Holds (s : PersistentStevedore) (w : Written) : Prop :=
  ∀ d body, w d = some body → ∃ i slab, s.digestIndex d = some i ∧
    s.allocations[i]? = some slab ∧ read s.mmap slab.offset slab.bodyLen = body

variable {s : PersistentStevedore} {w : Written}

theorem Holds.bodiesWritten (h : s.Holds w) : s.BodiesWritten w := by
  intro d body hbody
  obtain ⟨i, slab, hindex, hslab, hread⟩ := h d body hbody
  have hlen : slab.bodyLen = body.length := by rw [← hread, length_read]
  simp only [getBody, hindex, hslab, hread]
  simp only [hlen, length_eq_zero_iff]

/-! ## One call -/

variable {slab : SlabEntry} {i : ℕ} {d : Digest} {t : PersistentStevedore}

theorem Holds.setSlab (h : s.Holds w) {written : Option (List UInt8)}
    (hindex : ∀ d', d' ≠ d → t.digestIndex d' = s.digestIndex d')
    (hallocs : t.allocations = s.allocations.set i slab)
    (hother : ∀ d' j, d' ≠ d → s.digestIndex d' = some j → i ≠ j)
    (hread : ∀ (j : ℕ) (slab' : SlabEntry), i ≠ j → s.allocations[j]? = some slab' →
      read t.mmap slab'.offset slab'.bodyLen = read s.mmap slab'.offset slab'.bodyLen)
    (hself : ∀ body, written = some body → ∃ j slab', t.digestIndex d = some j ∧
      t.allocations[j]? = some slab' ∧ read t.mmap slab'.offset slab'.bodyLen = body) :
    t.Holds (update w d written) := by
  intro d' body hbody
  by_cases hd : d' = d
  · subst hd
    rw [update_self] at hbody
    exact hself body hbody
  rw [update_of_ne hd] at hbody
  obtain ⟨j, slab', hindex', hslab', hread'⟩ := h d' body hbody
  have hne := hother d' j hd hindex'
  refine ⟨j, slab', ?_, ?_, ?_⟩
  · rw [hindex d' hd, hindex']
  · rw [hallocs, getElem?_set_ne hne, hslab']
  · rw [hread j slab' hne hslab', hread']

theorem Inv.read_writeSlabEntry (hinv : s.Inv) {j : ℕ} {slab' : SlabEntry}
    (hslab' : s.allocations[j]? = some slab') (hindex : slab.index < maxSlabs) :
    read (writeSlabEntry s.mmap slab) slab'.offset slab'.bodyLen =
      read s.mmap slab'.offset slab'.bodyLen :=
  VarahaCache.read_writeSlabEntry hindex (hinv.inside slab' (mem_of_getElem? hslab')).1

theorem Holds.occupy (h : s.Holds w) (hinv : s.Inv) (hslab : s.allocations[i]? = some slab)
    (hfree : slab.inUse = false) (d : Digest) : (s.occupy i d).Holds (update w d (some [])) := by
  have hlt := (List.getElem?_eq_some_iff.mp hslab).1
  have hnumber : slab.index < maxSlabs := hinv.index_lt hslab
  rw [hinv.occupy_eq hslab]
  refine h.setSlab (fun d' hd => update_of_ne hd _ _) rfl ?_ ?_ ?_
  · exact fun d' j _ hindex => (hinv.ne_of_indexed hslab hfree hindex).symm
  · exact fun j slab' _ hslab' => hinv.read_writeSlabEntry hslab' hnumber
  · rintro body ⟨⟩
    exact ⟨i, _, update_self .., getElem?_set_self hlt, rfl⟩

theorem Holds.widens (h : s.Holds w) (ht : s.Widens t) : t.Holds w := by
  intro d body hbody
  obtain ⟨i, slab, hindex, hslab, hread⟩ := h d body hbody
  have hlt := (List.getElem?_eq_some_iff.mp hslab).1
  exact ⟨i, slab, by rw [ht.digestIndex, hindex], by rw [ht.allocations i hlt, hslab],
    by rw [ht.mmap, hread]⟩

theorem Inv.apart_of_ne (hinv : s.Inv) {j : ℕ} {a b : SlabEntry} (ha : s.allocations[i]? = some a)
    (hb : s.allocations[j]? = some b) (hij : i ≠ j) : Apart offset size a b := by
  obtain ⟨hi, rfl⟩ := List.getElem?_eq_some_iff.mp ha
  obtain ⟨hj, rfl⟩ := List.getElem?_eq_some_iff.mp hb
  have hpair := pairwise_iff_getElem.mp hinv.apart
  rcases Nat.lt_or_gt_of_ne hij with hlt | hlt
  · exact hpair i j hi hj hlt
  · exact (hpair j i hj hi hlt).symm

theorem Holds.extend (h : s.Holds w) (hinv : s.Inv)
    (hindex : s.digestIndex d = some i) (hslab : s.allocations[i]? = some slab)
    {data : List UInt8} (hfit : slab.bodyLen + data.length ≤ slab.size) :
    Holds
      { s with
        mmap := write s.mmap (slab.offset + slab.bodyLen) data
        allocations := s.allocations.set i { slab with bodyLen := slab.bodyLen + data.length } }
      (update w d ((w d).map (· ++ data))) := by
  have hlt := (List.getElem?_eq_some_iff.mp hslab).1
  refine h.setSlab (fun _ _ => rfl) rfl (fun d' j hd hindex' => hinv.index_ne hindex hindex' hd)
    ?_ ?_
  · -- the data goes into its own slab
    intro j slab' hne hslab'
    have hbody := hinv.body slab' (mem_of_getElem? hslab')
    refine read_write_of_apart ?_
    rcases hinv.apart_of_ne hslab hslab' hne with hapart | hapart <;> omega
  intro body hbody
  obtain ⟨before, hbefore, rfl⟩ := Option.map_eq_some_iff.mp hbody
  obtain ⟨j, slab', hindex', hslab', hread⟩ := h d before hbefore
  rw [hindex, Option.some.injEq] at hindex'
  subst hindex'
  rw [hslab, Option.some.injEq] at hslab'
  subst hslab'
  refine ⟨i, _, hindex, getElem?_set_self hlt, ?_⟩
  rw [read_append, read_write_of_apart (.inl (Nat.le_refl _)), hread, read_write_self]

theorem Holds.freeObj (h : s.Holds w) (hinv : s.Inv) (d : Digest) :
    (s.freeObj d).Holds (update w d none) := by
  cases hindex : s.digestIndex d with
  | none =>
    rw [PersistentStevedore.freeObj, hindex]
    intro d' body hbody
    by_cases hd : d' = d
    · rw [hd, update_self] at hbody
      cases hbody
    · rw [update_of_ne hd] at hbody
      exact h d' body hbody
  | some i =>
    obtain ⟨slab, hslab, -, -⟩ := hinv.indexed d i hindex
    have hnumber : slab.index < maxSlabs := hinv.index_lt hslab
    rw [(hinv.freeObj_eq hindex hslab).1]
    refine h.setSlab (fun d' hd => update_of_ne hd _ _) rfl
      (fun d' j hd hindex' => hinv.index_ne hindex hindex' hd) ?_ ?_
    · exact fun j slab' _ hslab' => hinv.read_writeSlabEntry hslab' hnumber
    · rintro body ⟨⟩

theorem rebuildIndex_filter {allocs : List SlabEntry}
    (hslab : allocs[i]? = some slab) (hinUse : slab.inUse = true)
    (hlast : ∀ (j : ℕ) (slab' : SlabEntry), i < j → allocs[j]? = some slab' →
      slab'.inUse = true → slab'.digest ≠ slab.digest) :
    ∃ k, rebuildIndex (allocs.filter inUse) slab.digest = some k ∧
      (allocs.filter inUse)[k]? = some slab := by
  obtain ⟨hi, rfl⟩ := List.getElem?_eq_some_iff.mp hslab
  have hsplit : allocs.filter inUse =
      (allocs.take i).filter inUse ++ allocs[i] :: (allocs.drop (i + 1)).filter inUse := by
    rw [← filter_cons_of_pos hinUse, ← drop_eq_getElem_cons hi, ← filter_append, take_append_drop]
  have hat : (allocs.filter inUse)[((allocs.take i).filter inUse).length]? = some allocs[i] := by
    rw [hsplit, getElem?_append_right (Nat.le_refl _), Nat.sub_self]
    rfl
  refine ⟨_, rebuildIndex_eq_some.mpr ⟨allocs[i], hat, rfl, ?_⟩, hat⟩
  intro k slab' hk hslab'
  rw [hsplit, getElem?_append_right hk.le] at hslab'
  obtain ⟨n, hn⟩ : ∃ n, k - ((allocs.take i).filter inUse).length = n + 1 :=
    ⟨_, (Nat.succ_pred_eq_of_pos (Nat.sub_pos_of_lt hk)).symm⟩
  rw [hn, getElem?_cons_succ] at hslab'
  obtain ⟨hdrop, hinUse'⟩ := mem_filter.mp (mem_of_getElem? hslab')
  obtain ⟨j, hj⟩ := getElem?_of_mem hdrop
  rw [getElem?_drop] at hj
  exact hlast (i + 1 + j) slab' (by omega) hj hinUse'

/-- Compaction carries the bodies along, if the slabs indexed are the last
in use for their digests. -/
theorem Holds.compact (h : s.Holds w) (hinv : s.Inv) (hok : s.StepOk .compact) :
    s.compact.2.Holds w := by
  have hloop := hinv.compacting
  rw [compact_eq]
  generalize s.compacted = c at hloop ⊢
  intro d body hbody
  obtain ⟨i, slab, hindex, hslab, hread⟩ := h d body hbody
  obtain ⟨hinUse, hdigest⟩ := hinv.of_indexed hindex hslab
  -- the slab has been moved, with its body
  obtain ⟨o, hat, -, -, -, -, hsame⟩ :=
    hloop.placed (slab, i) (mem_inUseByOffset.mpr ⟨hslab, hinUse⟩)
  have hlast : ∀ (j : ℕ) (other : SlabEntry), i < j → c.allocs[j]? = some other →
      other.inUse = true → other.digest ≠ slab.digest := by
    intro j other hij hother hinUse'
    obtain ⟨p, hp, rfl, o', rfl, -⟩ := hloop.inUse hother hinUse'
    intro hsame
    have hmem : p ∈ s.allocations.zipIdx :=
      mk_mem_zipIdx_iff_getElem?.mpr (mem_inUseByOffset.mp hp).1
    have hindex' : s.digestIndex p.1.digest = some i := by
      rw [show p.1.digest = d from hsame.trans hdigest, hindex]
    have hle := hok.2 rfl p hmem hinUse' i hindex'
    omega
  obtain ⟨k, hrebuilt, hk⟩ := rebuildIndex_filter hat hinUse hlast
  refine ⟨k, { slab with offset := o, index := k }, ?_, ?_, ?_⟩
  · rw [← hdigest]
    exact hrebuilt
  · rw [getElem?_mapIdx, hk]
    rfl
  · rw [← hread]
    exact hsame

theorem Holds.step (h : s.Holds w) (hinv : s.Inv) (hok : s.StepOk call) :
    (s.step call).2.Holds (w.step (call, (s.step call).1)) := by
  cases call with
  | allocObj d sizeHint =>
    rcases hinv.allocObj_cases d hok.1 with
      ⟨e, he⟩ | ⟨t, i, slab, ht, hinv', hwidens, -, hslab, hfree⟩
    · simpa [PersistentStevedore.step, Written.step, he] using h
    · simpa [PersistentStevedore.step, Written.step, ht] using
        (h.widens hwidens).occupy hinv' hslab hfree d
  | extend d data =>
    cases hindex : s.digestIndex d with
    | none => simpa [PersistentStevedore.step, Written.step, PersistentStevedore.extend, hindex]
        using h
    | some i =>
      obtain ⟨slab, hslab, -, -⟩ := hinv.indexed d i hindex
      have heq := hinv.extend_eq hindex hslab hok.1
      by_cases hfull : slab.size < slab.bodyLen + data.length
      · rw [if_pos hfull] at heq
        simpa [PersistentStevedore.step, Written.step, heq] using h
      rw [if_neg hfull] at heq
      simpa [PersistentStevedore.step, Written.step, heq] using
        h.extend hinv hindex hslab (Nat.not_lt.mp hfull)
  | freeObj d => simpa [PersistentStevedore.step, Written.step] using h.freeObj hinv d
  | compact => simpa [PersistentStevedore.step, Written.step] using h.compact hinv hok

/-! ## Runs -/

theorem Holds.run (h : s.Holds w) (hinv : s.Inv) {calls : List StoreCall}
    (hok : Guarded PersistentStevedore.step StepOk s calls) :
    (record PersistentStevedore.step s calls).2.Holds
      ((record PersistentStevedore.step s calls).1.foldl Written.step w) := by
  induction calls generalizing s w with
  | nil => exact h
  | cons call calls ih => exact ih (h.step hinv hok.1) (hinv.step hok.1.1).1 hok.2

/-- **Bodies over runs.** On a freshly created file, after every sequence of
calls that finds, whenever it compacts the store, the slab indexed for each
digest to be the last one in use for it, every body is what was written. -/
theorem bodiesWritten_of_stepOk (size : ℕ) (s₀ : PersistentStevedore)
    (hcreate : create size = some s₀) (calls : List StoreCall)
    (hok : Guarded PersistentStevedore.step StepOk s₀ calls) :
    (record PersistentStevedore.step s₀ calls).2.BodiesWritten
      (.ofLog (record PersistentStevedore.step s₀ calls).1) := by
  have hstart : s₀.Holds fun _ => none := by
    intro d body hbody
    cases hbody
  exact (hstart.run (inv_create hcreate).1 hok).bodiesWritten

/-- A digest stored twice, the second time in a slab of its own. -/
def twiceCalls : List StoreCall :=
  [.allocObj ⟨.replicate 32 2⟩ 64, .extend ⟨.replicate 32 2⟩ [1],
    .allocObj ⟨.replicate 32 2⟩ 64, .extend ⟨.replicate 32 2⟩ [2], .compact]

theorem bodiesWritten_of_stepOk_twice :
    ∃ s₀, create 4195000 = some s₀ ∧ (record PersistentStevedore.step s₀ twiceCalls).2.BodiesWritten
        (.ofLog (record PersistentStevedore.step s₀ twiceCalls).1) := by
  refine ⟨_, if_pos (by decide), bodiesWritten_of_stepOk 4195000 _ (if_pos (by decide)) _ ?_⟩
  refine ⟨stepOk_of_ne ?_ (by simp), stepOk_of_ne ?_ (by simp), stepOk_of_ne ?_ (by simp),
    stepOk_of_ne ?_ (by simp), ⟨trivial, fun _ => ?_⟩, trivial⟩
  case refine_5 => decide +kernel
  all_goals simp [StoreCall.Sliced]

/-- A digest stored, and stored again in a slab freed before it. -/
def againCalls : List StoreCall :=
  [.allocObj ⟨.replicate 32 1⟩ 64, .allocObj ⟨.replicate 32 2⟩ 64,
    .extend ⟨.replicate 32 2⟩ [1], .freeObj ⟨.replicate 32 1⟩,
    .allocObj ⟨.replicate 32 2⟩ 64, .extend ⟨.replicate 32 2⟩ [2]]

/-- Compacted then, the store returns the first body instead of the second. -/
theorem not_bodiesWritten_again :
    ∃ s₀, create 4195000 = some s₀ ∧
      ¬ (record PersistentStevedore.step s₀ (againCalls ++ [.compact])).2.BodiesWritten
        (.ofLog (record PersistentStevedore.step s₀ (againCalls ++ [.compact])).1) := by
  refine ⟨_, if_pos (by decide), ?_⟩
  rw [record_concat]
  intro h
  have hbody := h ⟨.replicate 32 2⟩ [2] (by decide +kernel)
  dsimp only [PersistentStevedore.step, compact] at hbody
  -- the slabs are in the order of their offsets already
  rw [inUseByOffset, mergeSort_of_pairwise (by decide +kernel)] at hbody
  revert hbody
  decide +kernel

end PersistentStevedore

end VarahaCache
