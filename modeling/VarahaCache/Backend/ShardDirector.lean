import VarahaCache.Lib.Ring

/-!
# The shard director

`ShardDirector` of `rv-backend`: a ring with several points for every backend,
and a walk from the key to the first healthy one. It answers the healthy
backend with the nearest point (`resolve_eq_some_iff`), whatever the order of
the list; that hashing is consistent follows from this alone.
-/

namespace VarahaCache.Backend

open List Lib

structure RingPoint where
  hash : UInt64
  backendIdx : ℕ
deriving DecidableEq

def RingPoint.Le (p q : RingPoint) : Prop := p.hash.toNat ≤ q.hash.toNat

instance : DecidableRel RingPoint.Le := fun _ _ => inferInstanceAs (Decidable (_ ≤ _))

instance : IsTrans RingPoint RingPoint.Le := ⟨fun _ _ _ => Nat.le_trans⟩

instance : Std.Total RingPoint.Le := ⟨fun _ _ => Nat.le_total _ _⟩

/-- What a ring is built with. -/
structure Sharding (B : Type) where
  hashKey : String → UInt64
  name : B → String
  replicas : ℕ

variable {B : Type}

namespace Sharding

variable (sharding : Sharding B)

def nodeHash (backend : B) (r : ℕ) : UInt64 :=
  sharding.hashKey (sharding.name backend ++ "-" ++ toString r)

def points (backends : List B) : List RingPoint :=
  backends.zipIdx.flatMap fun entry =>
    (range sharding.replicas).map fun r => ⟨sharding.nodeHash entry.1 r, entry.2⟩

/-- `build_ring`. The sort is stable, as the library's is. -/
def buildRing (backends : List B) : List RingPoint :=
  (sharding.points backends).insertionSort RingPoint.Le

end Sharding

variable (isHealthy : B → Bool)

/-- The walk over the ring; it stops when every backend was seen. -/
def walk (backends : List B) : List RingPoint → List Bool → ℕ → Option B
  | [], _, _ => none
  | point :: points, seen, visited =>
    match backends[point.backendIdx]? with
    | none => walk backends points seen visited
    | some be =>
      if isHealthy be then some be
      else if seen[point.backendIdx]? = some true then walk backends points seen visited
      else if backends.length ≤ visited + 1 then none
      else walk backends points (seen.set point.backendIdx true) (visited + 1)

/-- `resolve_with_hash`, on what it has read. -/
def resolveWithHash (ring : List RingPoint) (backends : List B) (hash : UInt64) : Option B :=
  if ring = [] ∨ backends = [] then none
  else
    let start := seek RingPoint.hash ring hash
    let visiting := (range ring.length).filterMap fun offset =>
      ring[(start + offset) % ring.length]?
    walk isHealthy backends visiting (replicate backends.length false) 0

def Sharding.resolve (sharding : Sharding B) (backends : List B) (hash : UInt64) : Option B :=
  resolveWithHash isHealthy (sharding.buildRing backends) backends hash

/-! ## The walk -/

variable {isHealthy} {backends : List B}

def leadsTo (isHealthy : B → Bool) (backends : List B) (point : RingPoint) : Bool :=
  (backends[point.backendIdx]?).any isHealthy

/-- The backends the walk has seen are sick, and it has counted them. -/
structure Seen (isHealthy : B → Bool) (backends : List B) (seen : List Bool) (visited : ℕ) :
    Prop where
  length : seen.length = backends.length
  visited : visited = seen.count true
  sick : ∀ (i : ℕ) be, seen[i]? = some true → backends[i]? = some be → isHealthy be = false

variable {seen : List Bool} {visited : ℕ}

theorem Seen.mark (h : Seen isHealthy backends seen visited) {i : ℕ} {be : B}
    (hbe : backends[i]? = some be) (hsick : isHealthy be = false) (hseen : seen[i]? ≠ some true) :
    Seen isHealthy backends (seen.set i true) (visited + 1) := by
  have hi : i < seen.length := by
    rw [h.length]
    exact (List.getElem?_eq_some_iff.mp hbe).1
  refine ⟨by rw [length_set, h.length], ?_, fun j other hj hother => ?_⟩
  · -- the mark was not set, so the count goes up by one
    have hfalse : seen[i] = false := by
      rw [getElem?_eq_getElem hi] at hseen
      simpa using hseen
    rw [count_set hi, hfalse, h.visited]
    simp
  rcases eq_or_ne i j with rfl | hne
  · rw [hbe] at hother
    cases hother
    exact hsick
  · rw [getElem?_set_ne hne] at hj
    exact h.sick j other hj hother

theorem Seen.all_sick (h : Seen isHealthy backends seen visited)
    (hall : backends.length ≤ visited) : ∀ be ∈ backends, isHealthy be = false := by
  intro be hbe
  have hcount : seen.count true = seen.length := by
    have hle := count_le_length (a := true) (l := seen)
    have hvisited := h.visited
    have hlength := h.length
    omega
  obtain ⟨i, hi, rfl⟩ := getElem_of_mem hbe
  have hi' : i < seen.length := h.length ▸ hi
  refine h.sick i _ ?_ (getElem?_eq_getElem hi)
  rw [getElem?_eq_getElem hi', ← count_eq_length.mp hcount _ (getElem_mem hi')]

theorem find?_leadsTo_eq_none (hsick : ∀ be ∈ backends, isHealthy be = false)
    (points : List RingPoint) : points.find? (leadsTo isHealthy backends) = none := by
  rw [find?_eq_none]
  intro point _ hleads
  obtain ⟨be, hbe, hhealthy⟩ := (Option.any_eq_true _ _).mp hleads
  rw [hsick be (mem_of_getElem? hbe)] at hhealthy
  cases hhealthy

/-- The walk finds the first point with a healthy backend; stopping early
loses nothing. -/
theorem walk_eq (h : Seen isHealthy backends seen visited) (points : List RingPoint) :
    walk isHealthy backends points seen visited =
      (points.find? (leadsTo isHealthy backends)).bind fun point => backends[point.backendIdx]? := by
  induction points generalizing seen visited with
  | nil => rfl
  | cons point points ih =>
    rw [walk]
    cases hbe : backends[point.backendIdx]? with
    | none =>
      rw [find?_cons_of_neg (by simp [leadsTo, hbe])]
      exact ih h
    | some be =>
      dsimp only
      by_cases hhealthy : isHealthy be = true
      · rw [if_pos hhealthy, find?_cons_of_pos (by simp [leadsTo, hbe, hhealthy])]
        exact hbe.symm
      rw [if_neg hhealthy, find?_cons_of_neg (by simp [leadsTo, hbe, hhealthy])]
      -- a sick backend is counted once, by the first of its points
      split
      · exact ih h
      rename_i hseen
      have hmark := h.mark hbe (Bool.eq_false_iff.mpr hhealthy) hseen
      split
      · rename_i hall
        -- the walk stops here, and no point behind leads anywhere
        rw [find?_leadsTo_eq_none (hmark.all_sick hall)]
        rfl
      · exact ih hmark

theorem resolveWithHash_eq (ring : List RingPoint) (hash : UInt64) :
    resolveWithHash isHealthy ring backends hash =
      ((ring.rotate (seek RingPoint.hash ring hash)).find? (leadsTo isHealthy backends)).bind
        fun point => backends[point.backendIdx]? := by
  unfold resolveWithHash
  split
  · rename_i hempty
    rcases hempty with rfl | rfl
    · rfl
    · rw [find?_leadsTo_eq_none (forall_mem_nil _)]
      rfl
  have hstart : Seen isHealthy backends (replicate backends.length false) 0 := by
    refine ⟨length_replicate, by simp [count_replicate], fun i be hi _ => ?_⟩
    have hfalse := eq_of_mem_replicate (mem_of_getElem? hi)
    cases hfalse
  dsimp only
  rw [filterMap_range_rotate, walk_eq hstart]

/-! ## The nearest backend -/

namespace Sharding

variable {sharding : Sharding B} {hash : UInt64} {be : B}

theorem mem_buildRing {point : RingPoint} :
    point ∈ sharding.buildRing backends ↔
      ∃ be, backends[point.backendIdx]? = some be ∧
        ∃ r < sharding.replicas, sharding.nodeHash be r = point.hash := by
  rw [buildRing, (perm_insertionSort _ _).mem_iff, points, mem_flatMap]
  constructor
  · rintro ⟨⟨be, idx⟩, hentry, hpoint⟩
    obtain ⟨r, hr, rfl⟩ := mem_map.mp hpoint
    exact ⟨be, mem_zipIdx_iff_getElem?.mp hentry, r, mem_range.mp hr, rfl⟩
  rintro ⟨be, hbe, r, hr, hhash⟩
  refine ⟨(be, point.backendIdx), mem_zipIdx_iff_getElem?.mpr hbe, mem_map.mpr
    ⟨r, mem_range.mpr hr, ?_⟩⟩
  rw [hhash]

def Distinct (sharding : Sharding B) (backends : List B) : Prop :=
  (backends.flatMap fun be => (range sharding.replicas).map (sharding.nodeHash be)).Nodup

theorem pairwise_buildRing (hd : sharding.Distinct backends) :
    (sharding.buildRing backends).Pairwise fun p q => p.hash.toNat < q.hash.toNat := by
  have hsorted : (sharding.buildRing backends).Pairwise RingPoint.Le := pairwise_insertionSort _ _
  have hnodup : (sharding.buildRing backends).Pairwise fun p q => p.hash ≠ q.hash := by
    have hpoints : (sharding.points backends).map RingPoint.hash =
        backends.flatMap fun be => (range sharding.replicas).map (sharding.nodeHash be) := by
      rw [points, map_flatMap, ← zipIdx_map_fst 0 backends, flatMap_map]
      simp [Function.comp_def]
    have hhashes : ((sharding.buildRing backends).map RingPoint.hash).Nodup := by
      rw [buildRing, ((perm_insertionSort _ _).map RingPoint.hash).nodup_iff, hpoints]
      exact hd
    exact pairwise_map.mp hhashes
  exact (hsorted.and hnodup).imp fun h => lt_of_le_of_ne h.1 fun heq =>
    h.2 (UInt64.toNat_inj.mp heq)

structure Nearest (sharding : Sharding B) (isHealthy : B → Bool) (backends : List B)
    (hash : UInt64) (be : B) : Prop where
  mem : be ∈ backends
  healthy : isHealthy be = true
  nearest : ∃ r < sharding.replicas, ∀ other ∈ backends, isHealthy other = true →
    ∀ r' < sharding.replicas,
      distance hash (sharding.nodeHash be r) ≤ distance hash (sharding.nodeHash other r')

theorem resolve_eq_some_iff (hd : sharding.Distinct backends) :
    sharding.resolve isHealthy backends hash = some be ↔
      sharding.Nearest isHealthy backends hash be := by
  rw [resolve, resolveWithHash_eq, Option.bind_eq_some_iff]
  simp only [find?_rotate_seek_eq_some_iff (pairwise_buildRing hd), mem_buildRing]
  constructor
  · rintro ⟨point, ⟨⟨be', hbe', r, hr, hhash⟩, hleads, hmin⟩, hbe⟩
    rw [hbe] at hbe'
    cases hbe'
    obtain ⟨be', hbe', hhealthy⟩ := (Option.any_eq_true _ _).mp hleads
    rw [hbe] at hbe'
    cases hbe'
    refine ⟨mem_of_getElem? hbe, hhealthy, r, hr, fun other hother hother' r' hr' => ?_⟩
    obtain ⟨i, hi, rfl⟩ := getElem_of_mem hother
    rw [hhash]
    exact hmin ⟨sharding.nodeHash backends[i] r', i⟩ ⟨_, getElem?_eq_getElem hi, r', hr', rfl⟩
      (by simp [leadsTo, hi, hother'])
  rintro ⟨hmem, hhealthy, r, hr, hmin⟩
  obtain ⟨i, hi, rfl⟩ := getElem_of_mem hmem
  refine ⟨⟨sharding.nodeHash backends[i] r, i⟩,
    ⟨⟨_, getElem?_eq_getElem hi, r, hr, rfl⟩, by simp [leadsTo, hi, hhealthy], ?_⟩,
    getElem?_eq_getElem hi⟩
  -- a point that leads somewhere is one of a healthy backend
  rintro point ⟨other, hother, r', hr', hhash⟩ hleads
  obtain ⟨other', hother', hhealthy'⟩ := (Option.any_eq_true _ _).mp hleads
  rw [hother] at hother'
  cases hother'
  rw [← hhash]
  exact hmin other (mem_of_getElem? hother) hhealthy' r' hr'

theorem resolve_eq_none_iff (hr : 1 ≤ sharding.replicas) :
    sharding.resolve isHealthy backends hash = none ↔ ∀ be ∈ backends, isHealthy be = false := by
  constructor
  · intro h be hbe
    rw [resolve, resolveWithHash_eq, Option.bind_eq_none_iff] at h
    by_contra hhealthy
    obtain ⟨i, hi, rfl⟩ := getElem_of_mem hbe
    have hfound : ((sharding.buildRing backends).rotate
        (seek RingPoint.hash (sharding.buildRing backends) hash)).find?
          (leadsTo isHealthy backends) ≠ none := by
      rw [Ne, find?_eq_none]
      intro hnone
      refine hnone ⟨sharding.nodeHash backends[i] 0, i⟩ (mem_rotate.mpr (mem_buildRing.mpr
        ⟨_, getElem?_eq_getElem hi, 0, hr, rfl⟩)) ?_
      simpa [leadsTo, hi] using hhealthy
    obtain ⟨point, hpoint⟩ := Option.ne_none_iff_exists'.mp hfound
    have hleads : leadsTo isHealthy backends point = true := find?_some hpoint
    rw [leadsTo, h point hpoint] at hleads
    cases hleads
  · intro h
    rw [resolve, resolveWithHash_eq, find?_leadsTo_eq_none h]
    rfl

/-! ## Consistency -/

variable {others : List B}

/-- With fewer backends that can answer, the answer stays unless its backend
is gone. -/
theorem resolve_of_subset {isHealthy' : B → Bool} (hr : 1 ≤ sharding.replicas)
    (hd : sharding.Distinct backends) (hd' : sharding.Distinct others)
    (hsub : ∀ be, be ∈ others ∧ isHealthy' be = true → be ∈ backends ∧ isHealthy be = true) :
    sharding.resolve isHealthy' others hash = sharding.resolve isHealthy backends hash ∨
      ∃ be, sharding.resolve isHealthy backends hash = some be ∧
        (be ∈ backends ∧ isHealthy be = true) ∧ ¬ (be ∈ others ∧ isHealthy' be = true) := by
  cases hanswer : sharding.resolve isHealthy backends hash with
  | none =>
    rw [resolve_eq_none_iff hr] at hanswer
    refine .inl ((resolve_eq_none_iff hr).mpr fun be hbe => ?_)
    refine Bool.eq_false_iff.mpr fun hhealthy => ?_
    have hold := hsub be ⟨hbe, hhealthy⟩
    rw [hanswer be hold.1] at hold
    cases hold.2
  | some be =>
    have hnearest := (resolve_eq_some_iff hd).mp hanswer
    by_cases hbe : be ∈ others ∧ isHealthy' be = true
    · obtain ⟨r, hr, hmin⟩ := hnearest.nearest
      refine .inl ((resolve_eq_some_iff hd').mpr ⟨hbe.1, hbe.2, r, hr, ?_⟩)
      intro other hother hhealthy
      have hold := hsub other ⟨hother, hhealthy⟩
      exact hmin other hold.1 hold.2
    · exact .inr ⟨be, rfl, ⟨hnearest.mem, hnearest.healthy⟩, hbe⟩

theorem Distinct.perm (hd : sharding.Distinct backends)
    (h : others.Perm backends) : sharding.Distinct others :=
  (h.flatMap_right _).nodup_iff.mpr hd

theorem Distinct.sublist (hd : sharding.Distinct backends)
    (h : others.Sublist backends) : sharding.Distinct others :=
  List.Nodup.sublist (h.flatMap _) hd

/-- **Hashing is consistent.** Some backend answers if one is healthy; the
order of the list and the sick do not matter; another healthy backend takes
keys only for itself, and one that leaves or falls sick gives up only its
own. -/
theorem consistent_hashing (hr : 1 ≤ sharding.replicas) (hd : sharding.Distinct backends)
    (isHealthy : B → Bool) (hash : UInt64) :
    ((sharding.resolve isHealthy backends hash).isSome ↔ ∃ be ∈ backends, isHealthy be = true) ∧
    (∀ others : List B, others.Perm backends →
      sharding.resolve isHealthy others hash = sharding.resolve isHealthy backends hash) ∧
    sharding.resolve isHealthy (backends.filter isHealthy) hash =
      sharding.resolve isHealthy backends hash ∧
    (∀ x rest, backends.Perm (x :: rest) → isHealthy x = true →
      sharding.resolve isHealthy backends hash ≠ sharding.resolve isHealthy rest hash →
      sharding.resolve isHealthy backends hash = some x) ∧
    (∀ x rest, backends.Perm (x :: rest) →
      sharding.resolve isHealthy rest hash ≠ sharding.resolve isHealthy backends hash →
      sharding.resolve isHealthy backends hash = some x) ∧
    ∀ x (isHealthy' : B → Bool), isHealthy' x = false →
      (∀ be, be ≠ x → isHealthy' be = isHealthy be) →
      sharding.resolve isHealthy' backends hash ≠ sharding.resolve isHealthy backends hash →
      sharding.resolve isHealthy backends hash = some x := by
  have hremove : ∀ x rest, backends.Perm (x :: rest) →
      sharding.resolve isHealthy rest hash ≠ sharding.resolve isHealthy backends hash →
      sharding.resolve isHealthy backends hash = some x := by
    intro x rest hperm hne
    have hrest : sharding.Distinct rest := (hd.perm hperm.symm).sublist (sublist_cons_self x rest)
    have hsub : ∀ be, be ∈ rest ∧ isHealthy be = true → be ∈ backends ∧ isHealthy be = true :=
      fun be hbe => ⟨hperm.mem_iff.mpr (mem_cons_of_mem x hbe.1), hbe.2⟩
    obtain ⟨be, hanswer, hbe, hlost⟩ := (resolve_of_subset hr hd hrest hsub).resolve_left hne
    rcases mem_cons.mp (hperm.mem_iff.mp hbe.1) with rfl | hmem
    · exact hanswer
    · exact absurd ⟨hmem, hbe.2⟩ hlost
  refine ⟨?_, fun others hperm => ?_, ?_, fun x rest hperm _ hne => hremove x rest hperm hne.symm,
    hremove, fun x isHealthy' hx hsame hne => ?_⟩
  · rw [Option.isSome_iff_ne_none, Ne, resolve_eq_none_iff hr]
    simp
  · refine (resolve_of_subset hr hd (hd.perm hperm) fun be hbe =>
      ⟨hperm.mem_iff.mp hbe.1, hbe.2⟩).resolve_right ?_
    rintro ⟨be, _, hbe, hlost⟩
    exact hlost ⟨hperm.mem_iff.mpr hbe.1, hbe.2⟩
  · refine (resolve_of_subset hr hd (hd.sublist filter_sublist) fun be hbe =>
      ⟨(mem_filter.mp hbe.1).1, hbe.2⟩).resolve_right ?_
    rintro ⟨be, _, hbe, hlost⟩
    exact hlost ⟨mem_filter.mpr hbe, hbe.2⟩
  · have hsub : ∀ be, be ∈ backends ∧ isHealthy' be = true → be ∈ backends ∧ isHealthy be = true := by
      rintro be ⟨hmem, hhealthy⟩
      refine ⟨hmem, ?_⟩
      rwa [← hsame be fun heq => ?_]
      rw [heq, hx] at hhealthy
      cases hhealthy
    obtain ⟨be, hanswer, hbe, hlost⟩ := (resolve_of_subset hr hd hd hsub).resolve_left hne
    by_cases hx' : be = x
    · rwa [hx'] at hanswer
    · exact absurd ⟨hbe.1, (hsame be hx').trans hbe.2⟩ hlost

def named : Sharding String where
  hashKey := fun key => UInt64.ofNat (key.toList.foldl (fun sum c => 256 * sum + c.toNat) 0)
  name := id
  replicas := 2

/-- Two backends, in either order; the second leaves, and its keys go to the
first. -/
theorem consistent_hashing_pair :
    named.resolve (fun _ => true) ["b", "a"] 6400000 =
        named.resolve (fun _ => true) ["a", "b"] 6400000 ∧
      named.resolve (fun _ => true) ["a", "b"] 6400000 = some "b" ∧
      named.resolve (fun _ => true) ["a"] 6400000 = some "a" := by
  have hd : named.Distinct ["a", "b"] := by
    unfold Distinct
    decide +kernel
  have hconsistent := consistent_hashing (by decide) hd (fun _ => true) 6400000
  refine ⟨hconsistent.2.1 ["b", "a"] (List.Perm.swap "a" "b" []), ?_, by decide +kernel⟩
  exact hconsistent.2.2.2.2.1 "b" ["a"] (List.Perm.swap "b" "a" []) (by decide +kernel)

end Sharding

end VarahaCache.Backend
