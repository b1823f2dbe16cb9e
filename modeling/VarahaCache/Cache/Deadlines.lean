import VarahaCache.Cache.Expiry
import VarahaCache.Cache.Lookup
import VarahaCache.Lib.Machine

/-!
# Deadlines: what the expiry queue gives back

Every object is given back once its deadline has come, and none earlier.
`Scheduled` says so as a multiset of what was scheduled and has not been given
back; the 16 heaps refine it in every run.

The second half compares the queue with `evaluate_object`: is an object that
is given back dead for a lookup at the same instant?
-/

namespace VarahaCache

open Lib Finset

inductive ExpiryCall
  | insert (oc : ObjCore)
  | insertAt (oc : ObjCore) (when : VtimReal)
  | expire (now : VtimReal)

/-- What is scheduled and not yet given back. -/
abbrev Scheduled := Multiset ExpiryEntry

/-- The purpose of the queue: a call schedules an object, or takes out what is
due. -/
def Scheduled.step (scheduled : Scheduled) : ExpiryCall → Multiset ObjCore × Scheduled
  | .insert oc => (0, ⟨oc.deadline, oc⟩ ::ₘ scheduled)
  | .insertAt oc when => (0, ⟨when, oc⟩ ::ₘ scheduled)
  | .expire now =>
    ((scheduled.filter fun x => x.when ≤ now).map ExpiryEntry.objcore,
      scheduled.filter fun x => now < x.when)

namespace ExpiryManager

/-- One call; only `expire` returns objects. -/
def step (m : ExpiryManager) : ExpiryCall → List ObjCore × ExpiryManager
  | .insert oc => ([], m.insert oc)
  | .insertAt oc when => ([], m.insertAt oc when)
  | .expire now => m.expire now

def contents (m : ExpiryManager) : Scheduled := ∑ i, ((m.shards i).entries : Multiset ExpiryEntry)

theorem mem_contents {m : ExpiryManager} {x : ExpiryEntry} :
    x ∈ m.contents ↔ ∃ i, x ∈ (m.shards i).entries := by
  simp [contents, Multiset.mem_sum]

theorem contents_new : new.contents = 0 := sum_const_zero

variable (m : ExpiryManager) (oc : ObjCore) {ι : Type*} {calls : List ExpiryCall} {now : VtimReal}

theorem shards_insertAt_self (when : VtimReal) :
    (m.insertAt oc when).shards (expiryShardIndex oc.digest) =
      (m.shards (expiryShardIndex oc.digest)).push ⟨when, oc⟩ :=
  Function.update_self ..

theorem shards_insertAt_of_ne (when : VtimReal) {i : Fin 16}
    (hi : i ≠ expiryShardIndex oc.digest) : (m.insertAt oc when).shards i = m.shards i :=
  Function.update_of_ne hi ..

theorem contents_insertAt (when : VtimReal) :
    (m.insertAt oc when).contents = ⟨when, oc⟩ ::ₘ m.contents := by
  have hmem := mem_univ (expiryShardIndex oc.digest)
  rw [contents, contents, ← add_sum_erase _ _ hmem, ← add_sum_erase _ _ hmem, ← Multiset.cons_add]
  congr 1
  · refine Multiset.coe_eq_coe.mpr ?_
    rw [shards_insertAt_self]
    exact PriorityQueue.push_perm _ _
  · refine sum_congr rfl fun i hi => ?_
    rw [shards_insertAt_of_ne _ _ _ (ne_of_mem_erase hi)]

theorem filter_sum (s : Finset ι) (f : ι → Scheduled) (p : ExpiryEntry → Prop)
    [DecidablePred p] : (∑ i ∈ s, f i).filter p = ∑ i ∈ s, (f i).filter p := by
  induction s using cons_induction with
  | empty => rfl
  | cons i s hi ih => rw [sum_cons, sum_cons, Multiset.filter_add, ih]

theorem map_sum_objcore (s : Finset ι) (f : ι → Scheduled) :
    (∑ i ∈ s, f i).map ExpiryEntry.objcore = ∑ i ∈ s, (f i).map ExpiryEntry.objcore :=
  map_sum (Multiset.mapAddMonoidHom ExpiryEntry.objcore) f s

theorem contents_expire (now : VtimReal) :
    (m.expire now).2.contents = m.contents.filter fun x => now < x.when := by
  rw [contents, contents, filter_sum]
  refine sum_congr rfl fun i _ => ?_
  rw [expire, PriorityQueue.drain_snd, Multiset.filter_coe]

theorem coe_expire (now : VtimReal) :
    ((m.expire now).1 : Multiset ObjCore) =
      (m.contents.filter fun x => x.when ≤ now).map ExpiryEntry.objcore := by
  have hshards : ((m.expire now).1 : Multiset ObjCore) =
      ∑ i, (((m.shards i).drain now).1.map ExpiryEntry.objcore : Multiset ObjCore) :=
    (Multiset.coe_bind _ _).symm
  rw [hshards, contents, filter_sum, map_sum_objcore]
  refine sum_congr rfl fun i _ => ?_
  rw [PriorityQueue.drain_fst, Multiset.filter_coe, Multiset.map_coe]

theorem step_refines (call : ExpiryCall) :
    (((m.step call).1 : Multiset ObjCore), (m.step call).2.contents) =
      Scheduled.step m.contents call := by
  cases call with
  | insert oc => exact congrArg (Prod.mk 0) (contents_insertAt m oc oc.deadline)
  | insertAt oc when => exact congrArg (Prod.mk 0) (contents_insertAt m oc when)
  | expire now => exact Prod.ext (coe_expire m now) (contents_expire m now)

theorem len_eq_card : m.len = m.contents.card := by
  rw [contents, Multiset.card_sum, len]
  rfl

theorem earliest_peekShard {times : Set VtimReal} {earliest : Option VtimReal} {heap : ExpiryHeap}
    (h : PriorityQueue.Earliest times earliest) :
    PriorityQueue.Earliest (times ∪ { when | ∃ x ∈ heap.entries, x.when = when })
      (peekShard earliest heap) := by
  have hheap := heap.earliest_peek
  rw [peekShard]
  cases hpeek : heap.peek with
  | none =>
    rw [hpeek] at hheap
    exact h.union_of_none hheap
  | some entry =>
    rw [hpeek] at hheap
    cases earliest with
    | none => exact h.none_union hheap
    | some current =>
      by_cases hle : current ≤ entry.when
      · simp only [if_pos hle]
        exact h.union_left hheap hle
      · simp only [if_neg hle]
        exact h.union_right hheap (le_of_not_ge hle)

theorem earliest_foldl_peekShard (seen : List (Fin 16)) :
    PriorityQueue.Earliest { when | ∃ i ∈ seen, ∃ x ∈ (m.shards i).entries, x.when = when }
      (seen.foldl (fun earliest i => peekShard earliest (m.shards i)) none) := by
  induction seen using List.reverseRecOn with
  | nil => exact Set.eq_empty_of_forall_notMem fun _ ⟨_, hi, _⟩ => nomatch hi
  | append_singleton seen i ih =>
    rw [List.foldl_append]
    have hset : { when | ∃ j ∈ seen ++ [i], ∃ x ∈ (m.shards j).entries, x.when = when } =
        { when | ∃ j ∈ seen, ∃ x ∈ (m.shards j).entries, x.when = when } ∪
          { when | ∃ x ∈ (m.shards i).entries, x.when = when } := by
      ext when
      simp [or_and_right, exists_or]
    rw [hset]
    exact earliest_peekShard ih

theorem earliest_peekWhen :
    PriorityQueue.Earliest { when | ∃ x ∈ m.contents, x.when = when } m.peekWhen := by
  have hset : { when | ∃ x ∈ m.contents, x.when = when } =
      { when | ∃ i ∈ List.finRange 16, ∃ x ∈ (m.shards i).entries, x.when = when } := by
    ext when
    constructor
    · rintro ⟨x, hx, hwhen⟩
      obtain ⟨i, hx⟩ := mem_contents.mp hx
      exact ⟨i, List.mem_finRange i, x, hx, hwhen⟩
    · rintro ⟨i, -, x, hx, hwhen⟩
      exact ⟨x, mem_contents.mpr ⟨i, hx⟩, hwhen⟩
  rw [hset]
  exact earliest_foldl_peekShard m _

/-- Every run: the heaps answer as the abstract queue does, and hold what
is scheduled. -/
theorem record_refines (calls : List ExpiryCall) :
    ((record step new calls).1.map fun entry => (entry.1, (entry.2 : Multiset ObjCore))) =
        (record Scheduled.step 0 calls).1 ∧
      (record step new calls).2.contents = (record Scheduled.step 0 calls).2 := by
  induction calls using List.reverseRecOn with
  | nil => exact ⟨rfl, contents_new⟩
  | append_singleton calls call ih =>
    obtain ⟨hlog, hcontents⟩ := ih
    have hstep := step_refines (record step new calls).2 call
    rw [hcontents] at hstep
    rw [record_concat, record_concat, List.map_append, hlog, ← hstep]
    exact ⟨rfl, rfl⟩

/-- **The expiry queue returns exactly what is due.** -/
theorem expiry_returns_exactly_due (calls : List ExpiryCall) :
    ((record step new calls).1.map fun entry => (entry.1, (entry.2 : Multiset ObjCore))) =
        (record Scheduled.step 0 calls).1 ∧
      PriorityQueue.Earliest { when | ∃ x ∈ (record Scheduled.step 0 calls).2, x.when = when }
        (record step new calls).2.peekWhen ∧
      (record step new calls).2.len = (record Scheduled.step 0 calls).2.card := by
  obtain ⟨hlog, hcontents⟩ := record_refines calls
  rw [← hcontents]
  exact ⟨hlog, earliest_peekWhen _, len_eq_card _⟩

theorem when_eq_deadline {oc : ObjCore}
    (hinsert : ∀ when, .insertAt oc when ∉ calls) {x : ExpiryEntry}
    (hx : x ∈ (record Scheduled.step 0 calls).2) (hoc : x.objcore = oc) : x.when = oc.deadline := by
  induction calls using List.reverseRecOn with
  | nil => exact absurd hx (Multiset.notMem_zero x)
  | append_singleton calls call ih =>
    have hbefore := ih fun when hmem => hinsert when (List.mem_append_left _ hmem)
    rw [record_concat] at hx
    cases call with
    | insert oc' =>
      rcases Multiset.mem_cons.mp hx with rfl | hx
      · exact congrArg ObjCore.deadline hoc
      · exact hbefore hx
    | insertAt oc' when =>
      rcases Multiset.mem_cons.mp hx with rfl | hx
      · have hoc : oc' = oc := hoc
        exact absurd (hoc ▸ List.mem_append_right _ (List.mem_singleton_self _)) (hinsert when)
      · exact hbefore hx
    | expire now => exact hbefore (Multiset.mem_filter.mp hx).1

theorem mem_expire_after {oc : ObjCore} (hinsert : ∀ when, .insertAt oc when ∉ calls)
    (hmem : oc ∈ ((record step new calls).2.expire now).1) : oc.deadline ≤ now := by
  rw [← Multiset.mem_coe, coe_expire, (record_refines calls).2] at hmem
  obtain ⟨x, hx, hoc⟩ := Multiset.mem_map.mp hmem
  obtain ⟨hx, hdue⟩ := Multiset.mem_filter.mp hx
  exact when_eq_deadline hinsert hx hoc ▸ hdue

/-- From its deadline on an object is dead for a lookup, but for one instant:
without grace and keep the deadline is the end of the ttl, and `is_expired` is
strict where the queue's comparison is not. -/
theorem evaluateObject_of_deadline_le {oc : ObjCore} (hflags : oc.flags = .empty)
    (hgrace : 0 ≤ oc.grace) (hkeep : 0 ≤ oc.keep) (hdue : oc.deadline ≤ now) :
    evaluateObject oc now = .miss ↔ ¬ (oc.grace = 0 ∧ oc.keep = 0 ∧ now = oc.tOrigin + oc.ttl) := by
  rw [ObjCore.deadline] at hdue
  rw [evaluateObject_of_no_flags hflags]
  by_cases hfresh : now ≤ oc.tOrigin + oc.ttl
  · have hnow : oc.grace = 0 ∧ oc.keep = 0 ∧ now = oc.tOrigin + oc.ttl :=
      ⟨by linarith, by linarith, by linarith⟩
    simp [hnow]
  have hdead : ¬ now < oc.tOrigin + oc.ttl + oc.grace := by linarith
  have hnow : ¬ (oc.grace = 0 ∧ oc.keep = 0 ∧ now = oc.tOrigin + oc.ttl) :=
    fun h => hfresh h.2.2.le
  simp [hfresh, hdead, hnow]

/-- **Expiry and lookup agree on when an object is dead**, exactly when the
instant is not the end of the ttl of an object without grace and keep. -/
theorem expired_miss_iff (oc : ObjCore) (hflags : oc.flags = .empty)
    (hgrace : 0 ≤ oc.grace) (hkeep : 0 ≤ oc.keep) (now : VtimReal) :
    (∀ calls : List ExpiryCall, (∀ when, .insertAt oc when ∉ calls) →
      oc ∈ ((record step new calls).2.expire now).1 → evaluateObject oc now = .miss) ↔
    ¬ (oc.grace = 0 ∧ oc.keep = 0 ∧ now = oc.tOrigin + oc.ttl) := by
  constructor
  · intro h hinstant
    have hdue : oc.deadline ≤ now := by
      rw [ObjCore.deadline, hinstant.1, hinstant.2.1, hinstant.2.2, add_zero, add_zero]
    -- the object alone in the queue
    have hmem : oc ∈ ((record step new [.insert oc]).2.expire now).1 :=
      mem_expire.mpr ⟨⟨oc.deadline, oc⟩, queued_insert.mpr (.inl rfl), hdue, rfl⟩
    have hmiss := h [.insert oc] (fun when hin => by simp at hin) hmem
    exact (evaluateObject_of_deadline_le hflags hgrace hkeep hdue).mp hmiss hinstant
  · intro hinstant calls hinsert hmem
    have hdue := mem_expire_after hinsert hmem
    exact (evaluateObject_of_deadline_le hflags hgrace hkeep hdue).mpr hinstant

def lasting (ttl grace keep : VtimDur) : ObjCore :=
  { ObjCore.new 0 ⟨.replicate 32 0⟩ with ttl := ttl, grace := grace, keep := keep }

theorem expired_miss_iff_ten_seconds :
    (∀ calls : List ExpiryCall, (∀ when, .insertAt (lasting 10 5 0) when ∉ calls) →
      lasting 10 5 0 ∈ ((record step new calls).2.expire 15).1 →
        evaluateObject (lasting 10 5 0) 15 = .miss) ↔
    ¬ ((5 : VtimDur) = 0 ∧ (0 : VtimDur) = 0 ∧ (15 : VtimReal) = 0 + 10) :=
  expired_miss_iff (lasting 10 5 0) rfl (by norm_num [lasting]) (by norm_num [lasting]) 15

/-- At the last instant of its ttl the object is taken out, and a lookup would
have hit. -/
theorem expired_while_hit :
    lasting 10 0 0 ∈ ((new.insert (lasting 10 0 0)).expire 10).1 ∧
      evaluateObject (lasting 10 0 0) 10 = .hit (lasting 10 0 0) := by
  constructor
  · exact mem_expire.mpr ⟨⟨(lasting 10 0 0).deadline, lasting 10 0 0⟩,
      queued_insert.mpr (.inl rfl), by norm_num [lasting, ObjCore.deadline, ObjCore.new], rfl⟩
  · rw [evaluateObject_of_no_flags rfl]
    norm_num [lasting, ObjCore.new]

end ExpiryManager

end VarahaCache
