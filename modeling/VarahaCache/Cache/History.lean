import VarahaCache.Cache.Engine
import VarahaCache.Lib.Machine
import VarahaCache.Lib.PutDropLog

/-!
# Histories of the cache engine

A history is a list of calls of the engine, each with the time its clock
shows. Its record is read as a log of puts and drops, and `run_refines`
connects the two: after ANY history the map holds exactly the live bindings of
the log, and the map, the tracker and the expiry queue agree (`Inv`).
-/

namespace VarahaCache

open Lib

namespace CacheEngine

variable {σ : Type}

/-! ## The invariant -/

/-- The map, the tracker and the queue agree, and every stored object is filed
under its own digest and not flagged. -/
structure Inv (e : CacheEngine σ) : Prop where
  tracked : e.Tracked
  nonempty : ∀ d, e.objects.lookup d ≠ some []
  homed : ∀ d, ∀ o ∈ e.variants d, o.digest = d
  unflagged : ∀ d, ∀ o ∈ e.variants d, o.flags = .empty
  queued : ∀ d, ∀ o ∈ e.variants d, e.expiry.Queued ⟨o.deadline, o⟩

theorem variants_new (storage : σ) (maxObjects : Nat) (d : Digest) :
    (new storage maxObjects).variants d = [] := rfl

theorem inv_new (storage : σ) (maxObjects : Nat) : Inv (new storage maxObjects) where
  tracked := by
    intro d
    refine iff_of_false ?_ (ShardedLru.not_tracks_new d)
    exact AList.notMem_empty d
  nonempty := by
    intro d h
    cases h
  homed := by simp [variants_new]
  unflagged := by simp [variants_new]
  queued := by simp [variants_new]

variable {e e' : CacheEngine σ} {put : Option ObjCore} {drops : List Digest}

/-- The variants after an operation, in order: the new one comes last. -/
theorem Effect.variants_eq (h : Effect e e' drops put) (d : Digest) :
    e'.variants d = (if d ∈ drops then [] else e.variants d) ++
      put.toList.filter (fun o => o.digest = d) := by
  rw [variants, h.objects d]
  cases put with
  | none => by_cases hdrop : d ∈ drops <;> simp [hdrop, variants]
  | some p =>
    by_cases hp : p.digest = d
    · simp [hp]
    · by_cases hdrop : d ∈ drops <;> simp [hp, hdrop, variants]

theorem Effect.mem_variants (h : Effect e e' drops put) {d : Digest} {o : ObjCore} :
    o ∈ e'.variants d ↔ (put = some o ∧ o.digest = d) ∨ (o ∈ e.variants d ∧ d ∉ drops) := by
  rw [h.variants_eq, List.mem_append, List.mem_filter, Option.mem_toList,
    decide_eq_true_eq, or_comm]
  refine or_congr Iff.rfl ?_
  by_cases hdrop : d ∈ drops <;> simp [hdrop]

/-- Every operation keeps the invariant, whatever it drops and puts. -/
theorem Inv.step (hi : Inv e) (h : Effect e e' drops put)
    (hput : ∀ o, put = some o → o.flags = .empty) : Inv e' where
  tracked := by
    intro d
    rw [h.tracks d, ← AList.lookup_isSome, h.objects d, ← hi.tracked d, ← AList.lookup_isSome]
    by_cases hp : ∃ o, put = some o ∧ o.digest = d
    · simp [hp]
    · by_cases hdrop : d ∈ drops <;> simp [hp, hdrop]
  nonempty := by
    intro d
    rw [h.objects d]
    by_cases hp : ∃ o, put = some o ∧ o.digest = d
    · obtain ⟨o, rfl, rfl⟩ := hp
      simp
    by_cases hdrop : d ∈ drops
    · simp [hp, hdrop]
    · rw [if_neg hp, if_neg hdrop]
      exact hi.nonempty d
  homed := by
    intro d o ho
    rcases h.mem_variants.mp ho with ⟨_, hd⟩ | ⟨hold, _⟩
    · exact hd
    · exact hi.homed d o hold
  unflagged := by
    intro d o ho
    rcases h.mem_variants.mp ho with ⟨hnew, _⟩ | ⟨hold, _⟩
    · exact hput o hnew
    · exact hi.unflagged d o hold
  queued := by
    intro d o ho
    rcases h.mem_variants.mp ho with ⟨hnew, _⟩ | ⟨hold, hkept⟩
    · exact h.queued _ (.inl ⟨o, hnew, rfl⟩)
    · have hd := hi.homed d o hold
      exact h.queued _ (.inr ⟨hi.queued d o hold, hd ▸ hkept⟩)

end CacheEngine

/-! ## Calls and their answers -/

inductive Op
  | insert (digest : Digest) (body : List UInt8) (ttlInfo : TtlInfo)
      (varyData : Option (List UInt8))
  | lookup (digest : Digest) (requestHeaders : Option HeaderMap)
  | remove (digest : Digest)
  | purge (digest : Digest)
  | expireObjects

structure Call where
  time : VtimReal
  op : Op

/-- What a call answered, and decided: the victims of an insertion and the
objects of an expiry pass are not returned by the program. -/
inductive Outcome
  | inserted (victims : List Digest) (result : Except CacheError ObjCore)
  | answered (result : CacheLookupResult)
  | removed (count : Nat)
  | purged
  | expired (objects : List ObjCore)

def dropped : Op → Outcome → List Digest
  | .insert .., .inserted victims _ => victims
  | .lookup digest _, .answered result => CacheEngine.lookupDrops digest result
  | .remove digest, _ => [digest]
  | .purge digest, _ => [digest]
  | .expireObjects, .expired objects => objects.map ObjCore.digest
  | _, _ => []

def stored : Op → Outcome → Option (Digest × ObjCore)
  | .insert digest .., .inserted _ (.ok oc) => some (digest, oc)
  | _, _ => none

/-- A recorded call as an entry of a put/drop log. -/
def logEntry (r : Call × Outcome) : LogEntry Digest ObjCore :=
  ⟨(· ∈ dropped r.1.op r.2), stored r.1.op r.2⟩

namespace CacheEngine

variable {σ : Type} (stv : Stevedore σ)

def step (e : CacheEngine σ) (c : Call) : Outcome × CacheEngine σ :=
  match c.op with
  | .insert digest body ttlInfo varyData =>
    let r := e.insert stv c.time digest body ttlInfo varyData
    (.inserted r.1.1 r.1.2, r.2)
  | .lookup digest requestHeaders =>
    let r := e.lookup c.time digest requestHeaders
    (.answered r.1, r.2)
  | .remove digest => (.removed (e.remove stv digest).1, (e.remove stv digest).2)
  | .purge digest => (.purged, e.purge digest)
  | .expireObjects => (.expired (e.expireObjects stv c.time).1, (e.expireObjects stv c.time).2)

/-- Run the calls one after another on an empty engine. -/
def run (storage : σ) (maxObjects : Nat) (calls : List Call) :
    List (Call × Outcome) × CacheEngine σ :=
  record (step stv) (new storage maxObjects) calls

variable {stv}

variable {e : CacheEngine σ} {d : Digest} {o oc : ObjCore} {c : Call}
  {calls : List Call} {now : VtimReal} {digest : Digest} {body : List UInt8} {ttlInfo : TtlInfo}
  {vary : Option (List UInt8)}

theorem stored_step (h : stored c.op (e.step stv c).1 = some (d, o)) :
    o.digest = d ∧ o.flags = .empty ∧ o.tOrigin = c.time := by
  obtain ⟨time, op⟩ := c
  cases op with
  | insert digest body ttlInfo varyData =>
    simp only [step] at h
    cases hr : (e.insert stv time digest body ttlInfo varyData).1.2 with
    | error err => simp [stored, hr] at h
    | ok oc =>
      obtain ⟨addr, rfl⟩ := insert_ok hr
      simp only [stored, hr, Option.some.injEq, Prod.mk.injEq] at h
      obtain ⟨rfl, rfl⟩ := h
      exact ⟨rfl, rfl, rfl⟩
  | _ => simp [stored] at h

/-- One call, whatever it is: what it answered says what it did. -/
theorem step_effect (stv : Stevedore σ) (ht : e.Tracked) (c : Call) :
    Effect e (e.step stv c).2 (dropped c.op (e.step stv c).1)
      ((stored c.op (e.step stv c).1).map Prod.snd) := by
  obtain ⟨time, op⟩ := c
  cases op with
  | insert digest body ttlInfo varyData =>
    have h := insert_effect stv e time digest body ttlInfo varyData
    cases hr : (e.insert stv time digest body ttlInfo varyData).1.2 with
    | error err => simpa [step, dropped, stored, hr, Except.toOption] using h
    | ok oc => simpa [step, dropped, stored, hr, Except.toOption] using h
  | lookup digest requestHeaders => exact lookup_effect ht time digest requestHeaders
  | remove digest => exact remove_effect stv e digest
  | purge digest => exact purge_effect e digest
  | expireObjects => exact expireObjects_effect stv e time

theorem Inv.call (h : Inv e) (c : Call) : Inv (e.step stv c).2 := by
  refine h.step (step_effect stv h.tracked c) ?_
  intro o ho
  obtain ⟨⟨d, o'⟩, hput, rfl⟩ := Option.map_eq_some_iff.mp ho
  exact (stored_step hput).2.1

/-! ## Whole histories -/

/-- What a history leaves: the invariant, the map as the live part of the log,
and birth times that are times of the history. -/
structure Refines (calls : List Call) (log : List (Call × Outcome)) (e : CacheEngine σ) :
    Prop where
  inv : Inv e
  live : ∀ d o, o ∈ e.variants d ↔ Live (log.map logEntry) d o
  born : ∀ d, ∀ o ∈ e.variants d, ∃ c ∈ calls, c.time = o.tOrigin

theorem Refines.step {log : List (Call × Outcome)} (h : Refines calls log e)
    (c : Call) : Refines (calls ++ [c]) (log ++ [(c, (e.step stv c).1)]) (e.step stv c).2 := by
  have heff := step_effect stv h.inv.tracked c
  have hnew : ∀ o, (stored c.op (e.step stv c).1).map Prod.snd = some o →
      stored c.op (e.step stv c).1 = some (o.digest, o) := by
    intro o ho
    obtain ⟨⟨d, o'⟩, hput, rfl⟩ := Option.map_eq_some_iff.mp ho
    rw [(stored_step hput).1]
    exact hput
  refine ⟨h.inv.call c, ?_, ?_⟩
  · intro d o
    rw [heff.mem_variants, List.map_append, List.map_singleton, live_concat, h.live d o]
    refine or_congr ?_ Iff.rfl
    constructor
    · intro h
      obtain ⟨ho, rfl⟩ := h
      exact hnew o ho
    intro hput
    refine ⟨?_, (stored_step hput).1⟩
    rw [show stored c.op (e.step stv c).1 = some (d, o) from hput]
    rfl
  · intro d o ho
    rcases heff.mem_variants.mp ho with ⟨hput, _⟩ | ⟨hold, _⟩
    · exact ⟨c, by simp, (stored_step (hnew o hput)).2.2.symm⟩
    · obtain ⟨c', hc', ht⟩ := h.born d o hold
      exact ⟨c', by simp [hc'], ht⟩

/-- The engine refines its log: after any history the map is the live part
of what was put and dropped, and `Inv` holds. -/
theorem run_refines (stv : Stevedore σ) (storage : σ) (maxObjects : Nat) (calls : List Call) :
    Refines calls (run stv storage maxObjects calls).1 (run stv storage maxObjects calls).2 := by
  refine record_induction (P := Refines) (step stv) ⟨inv_new storage maxObjects, ?_, ?_⟩ ?_ calls
  · intro d o
    rw [variants_new]
    exact iff_of_false (by simp) (not_live_nil d o)
  · intro d o ho
    simp [variants_new] at ho
  · intro calls log e c h
    exact h.step c

theorem digest_of_stored {storage : σ} {maxObjects : Nat} {r : Call × Outcome}
    (hr : r ∈ (run stv storage maxObjects calls).1) (hstored : stored r.1.op r.2 = some (d, o)) :
    o.digest = d := by
  have hall : ∀ r ∈ (run stv storage maxObjects calls).1, ∀ d o,
      stored r.1.op r.2 = some (d, o) → o.digest = d := by
    refine record_induction (P := fun _ log _ => ∀ r ∈ log, ∀ d o,
      stored r.1.op r.2 = some (d, o) → o.digest = d) (step stv) (by simp) ?_ calls
    intro _ log e c ih r hr d o h
    rcases List.mem_append.mp hr with hr | hr
    · exact ih r hr d o h
    rw [List.mem_singleton] at hr
    subst hr
    exact (stored_step h).1
  exact hall r hr d o hstored

/-- A state some history of calls reaches from an empty engine. -/
def Reached (stv : Stevedore σ) (e : CacheEngine σ) : Prop :=
  ∃ storage maxObjects calls, e = (run stv storage maxObjects calls).2

theorem Reached.inv (h : Reached stv e) : Inv e := by
  obtain ⟨storage, maxObjects, calls, rfl⟩ := h
  exact (run_refines stv storage maxObjects calls).inv

theorem Reached.step (h : Reached stv e) (c : Call) : Reached stv (e.step stv c).2 := by
  obtain ⟨storage, maxObjects, calls, rfl⟩ := h
  refine ⟨storage, maxObjects, calls ++ [c], ?_⟩
  rw [run, run, record_concat]

/-! ## The order of the variants -/

theorem enforceCapacity_nextAddr (stv : Stevedore σ) (e : CacheEngine σ) :
    (enforceCapacity stv e).2.nextAddr = e.nextAddr := by
  refine enforceCapacityLoop_induction stv (R := fun e _ e' => e'.nextAddr = e.nextAddr) ?_ ?_ _ e
  · exact fun _ => rfl
  intro e victim lru drops e' _ _ hrest
  rw [hrest]
  unfold evictVictim
  split <;> rfl

/-- Addresses are given out once: an insertion stores its object at the
next one, and nothing else moves the counter. -/
theorem insert_nextAddr (stv : Stevedore σ) (e : CacheEngine σ) (now : VtimReal)
    (digest : Digest) (body : List UInt8) (ttlInfo : TtlInfo) (vary : Option (List UInt8)) :
    let r := e.insert stv now digest body ttlInfo vary
    (∀ o, r.1.2 = .ok o → o.addr = e.nextAddr ∧ r.2.nextAddr = e.nextAddr + 1) ∧
      e.nextAddr ≤ r.2.nextAddr := by
  have hroom := enforceCapacity_nextAddr stv e
  simp only [insert]
  split
  · exact ⟨by simp, hroom.ge⟩
  split
  · exact ⟨by simp, hroom.ge⟩
  refine ⟨?_, ?_⟩
  · intro o ho
    cases ho
    exact ⟨hroom, congrArg (· + 1) hroom⟩
  · show e.nextAddr ≤ (enforceCapacity stv e).2.nextAddr + 1
    omega

theorem lookup_nextAddr (e : CacheEngine σ) (now : VtimReal) (digest : Digest)
    (headers : Option HeaderMap) : (e.lookup now digest headers).2.nextAddr = e.nextAddr := by
  unfold lookup
  split
  · split <;> rfl
  · rfl

theorem expireObjects_nextAddr (stv : Stevedore σ) (e : CacheEngine σ) (now : VtimReal) :
    (e.expireObjects stv now).2.nextAddr = e.nextAddr := by
  have hfold : ∀ (l : List ObjCore) (e : CacheEngine σ),
      (l.foldl (expireOne stv) e).nextAddr = e.nextAddr := by
    intro l
    induction l with
    | nil => exact fun _ => rfl
    | cons oc l ih => exact fun e => ih _
  exact hfold _ _

theorem step_nextAddr (stv : Stevedore σ) (e : CacheEngine σ) (c : Call) :
    e.nextAddr ≤ (e.step stv c).2.nextAddr ∧
      ∀ d o, stored c.op (e.step stv c).1 = some (d, o) →
        o.addr = e.nextAddr ∧ o.addr < (e.step stv c).2.nextAddr := by
  obtain ⟨time, op⟩ := c
  cases op with
  | insert digest body ttlInfo varyData =>
    obtain ⟨hok, hle⟩ := insert_nextAddr stv e time digest body ttlInfo varyData
    refine ⟨hle, ?_⟩
    intro d o h
    simp only [step] at h
    cases hr : (e.insert stv time digest body ttlInfo varyData).1.2 with
    | error err => simp [stored, hr] at h
    | ok oc =>
      simp only [stored, hr, Option.some.injEq, Prod.mk.injEq] at h
      obtain ⟨haddr, hnext⟩ := hok oc hr
      rw [← h.2]
      refine ⟨haddr, ?_⟩
      show oc.addr < (e.insert stv time digest body ttlInfo varyData).2.nextAddr
      omega
  | lookup digest headers => exact ⟨(lookup_nextAddr e time digest headers).ge, by simp [stored]⟩
  | remove digest | purge digest => exact ⟨le_rfl, by simp [stored]⟩
  | expireObjects => exact ⟨(expireObjects_nextAddr stv e time).ge, by simp [stored]⟩

theorem not_put_of_addr_lt
    (h : o.addr < e.nextAddr) : (stored c.op (e.step stv c).1).map Prod.snd ≠ some o := by
  intro hput
  obtain ⟨⟨d, o'⟩, hstored, rfl⟩ := Option.map_eq_some_iff.mp hput
  have haddr := ((step_nextAddr stv e c).2 d o' hstored).1
  dsimp only at h
  omega

/-- Nothing was stored under the digest before this object: while it is
there, it comes first. -/
structure Oldest (e : CacheEngine σ) (d : Digest) (oc : ObjCore) : Prop where
  addr : oc.addr < e.nextAddr
  first : oc ∈ e.variants d → (e.variants d).head? = some oc

theorem insert_first (hempty : e.variants digest = [])
    (hok : (e.insert stv now digest body ttlInfo vary).1.2 = .ok oc) :
    (∃ addr, oc = newObject addr now digest body ttlInfo vary) ∧
      (e.insert stv now digest body ttlInfo vary).2.variants digest = [oc] ∧
      Oldest (e.insert stv now digest body ttlInfo vary).2 digest oc := by
  have hnew := insert_ok hok
  have hdigest : oc.digest = digest := by
    obtain ⟨addr, rfl⟩ := hnew
    rfl
  have hvariants : (e.insert stv now digest body ttlInfo vary).2.variants digest = [oc] := by
    rw [(insert_effect stv e now digest body ttlInfo vary).variants_eq, hok, hempty, ite_self]
    simp [Except.toOption, hdigest]
  obtain ⟨haddr, hnext⟩ := (insert_nextAddr stv e now digest body ttlInfo vary).1 oc hok
  refine ⟨hnew, hvariants, ⟨by omega, ?_⟩⟩
  intro _
  rw [hvariants]
  rfl

theorem insert_refused (hempty : e.variants digest = [])
    (hno : ¬ Takes stv e now digest body ttlInfo) :
    (e.insert stv now digest body ttlInfo vary).2.variants digest = [] := by
  rw [(insert_effect stv e now digest body ttlInfo vary).variants_eq, hempty, ite_self]
  cases hr : (e.insert stv now digest body ttlInfo vary).1.2 with
  | ok oc => exact absurd (exists_insert_ok_iff.mp ⟨oc, hr⟩) hno
  | error err => rfl

theorem Oldest.step (ht : e.Tracked)
    (h : Oldest e d oc) (c : Call) : Oldest (e.step stv c).2 d oc := by
  have hle := (step_nextAddr stv e c).1
  have heff := step_effect stv ht c
  have hold := h.addr
  refine ⟨by omega, ?_⟩
  intro hmem
  rcases heff.mem_variants.mp hmem with ⟨hput, _⟩ | ⟨hmem, hkept⟩
  · exact absurd hput (not_put_of_addr_lt hold)
  · rw [heff.variants_eq, if_neg hkept, List.head?_append, h.first hmem]
    rfl

theorem Oldest.after (h : Oldest e d oc) (hr : Reached stv e) (calls : List Call) :
    Oldest (record (CacheEngine.step stv) e calls).2 d oc ∧
      Reached stv (record (CacheEngine.step stv) e calls).2 :=
  record_induction (P := fun _ _ e => Oldest e d oc ∧ Reached stv e) (CacheEngine.step stv)
    ⟨h, hr⟩ (fun _ _ _ c ⟨h, hr⟩ => ⟨h.step hr.inv.tracked c, hr.step c⟩) calls

/-! ## Objects that do not come back -/

/-- The object was stored once and is not any more: its address is given out,
and nothing of it is left. -/
structure Gone (e : CacheEngine σ) (d : Digest) (o : ObjCore) : Prop where
  addr : o.addr < e.nextAddr
  absent : o ∉ e.variants d

theorem step_variants (stv : Stevedore σ) (ht : e.Tracked) (c : Call) (d : Digest) :
    (d ∈ dropped c.op (e.step stv c).1 →
        ∀ o, o.addr < e.nextAddr → Gone (e.step stv c).2 d o) ∧
      (d ∉ dropped c.op (e.step stv c).1 → e.variants d <+: (e.step stv c).2.variants d) := by
  have hle := (step_nextAddr stv e c).1
  have heff := step_effect stv ht c
  refine ⟨?_, ?_⟩
  · intro hdrop o haddr
    refine ⟨by omega, ?_⟩
    intro hmem
    rcases heff.mem_variants.mp hmem with ⟨hput, _⟩ | ⟨_, hkept⟩
    · exact not_put_of_addr_lt haddr hput
    · exact hkept hdrop
  · intro hkept
    rw [heff.variants_eq, if_neg hkept]
    exact List.prefix_append _ _

theorem Gone.step (ht : e.Tracked) (h : Gone e d o) (c : Call) : Gone (e.step stv c).2 d o := by
  have hle := (step_nextAddr stv e c).1
  have haddr := h.addr
  refine ⟨by omega, ?_⟩
  intro hmem
  rcases (step_effect stv ht c).mem_variants.mp hmem with ⟨hput, _⟩ | ⟨hold, _⟩
  · exact not_put_of_addr_lt haddr hput
  · exact h.absent hold

theorem Gone.after (h : Gone e d o) (hr : Reached stv e) (calls : List Call) :
    Gone (record (CacheEngine.step stv) e calls).2 d o :=
  (record_induction (P := fun _ _ e => Gone e d o ∧ Reached stv e) (CacheEngine.step stv)
    ⟨h, hr⟩ (fun _ _ _ c ⟨h, hr⟩ => ⟨h.step hr.inv.tracked c, hr.step c⟩) calls).1

theorem Reached.addr_lt (h : Reached stv e) (ho : o ∈ e.variants d) : o.addr < e.nextAddr := by
  obtain ⟨storage, maxObjects, calls, rfl⟩ := h
  have hall : Reached stv (run stv storage maxObjects calls).2 ∧
      ∀ d, ∀ o ∈ (run stv storage maxObjects calls).2.variants d,
        o.addr < (run stv storage maxObjects calls).2.nextAddr := by
    refine record_induction (P := fun _ _ e => Reached stv e ∧
      ∀ d, ∀ o ∈ e.variants d, o.addr < e.nextAddr) (CacheEngine.step stv) ?_ ?_ calls
    · exact ⟨⟨storage, maxObjects, [], rfl⟩, by simp [variants_new]⟩
    intro _ _ e c ih
    obtain ⟨hr, hlt⟩ := ih
    refine ⟨hr.step c, ?_⟩
    intro d o ho
    obtain ⟨hle, hnew⟩ := step_nextAddr stv e c
    rcases (step_effect stv hr.inv.tracked c).mem_variants.mp ho with ⟨hput, _⟩ | ⟨hold, _⟩
    · obtain ⟨⟨d', o'⟩, hstored, rfl⟩ := Option.map_eq_some_iff.mp hput
      exact (hnew d' o' hstored).2
    · exact (hlt d o hold).trans_le hle
  exact hall.2 d o ho

end CacheEngine

end VarahaCache
