import VarahaCache.Backend.ShardDirector
import VarahaCache.Lib.Machine

/-!
# Replacing the backends of a shard director

The ring and the list of backends are behind a lock each. `set_backends`
stores the one, then the other; `resolve_with_hash` takes the ring, then the
list, and keeps both while it looks. A caller in between looks up the places
of one list in another; otherwise every answer is that of one list.
-/

namespace VarahaCache.Backend

inductive DirectorPhase (B : Type)
  | idle
  /-- `set_backends` has built its ring. -/
  | built (backends : List B)
  /-- It has stored the ring, and not the list. -/
  | halfway (backends : List B)
  /-- `resolve_with_hash` has the ring for reading. -/
  | reading (hash : UInt64)

/-- A thread calls, or takes its next step; an answer uses the health at that
time. -/
inductive DirectorStep (T B : Type)
  | setBackends (t : T) (backends : List B)
  | storeRing (t : T)
  | storeBackends (t : T)
  | resolve (t : T) (hash : UInt64)
  | answer (t : T) (isHealthy : B → Bool)

/-- The two values, how many read the ring, and where everybody is. -/
structure DirectorThreads (T B : Type) where
  ring : List RingPoint
  backends : List B
  readers : ℕ
  phase : T → DirectorPhase B

namespace DirectorThreads

variable {T B : Type} (sharding : Sharding B)

def start (backends : List B) : DirectorThreads T B :=
  ⟨sharding.buildRing backends, backends, 0, fun _ => .idle⟩

variable [DecidableEq T] {t : T}

def moved (s : DirectorThreads T B) (t : T) (phase : DirectorPhase B) : DirectorThreads T B :=
  { s with phase := Function.update s.phase t phase }

@[simp] theorem moved_phase_self (s : DirectorThreads T B) (t : T) (phase : DirectorPhase B) :
    (s.moved t phase).phase t = phase := by
  simp [moved]

theorem moved_phase_of_ne (s : DirectorThreads T B) {u : T} (h : u ≠ t)
    (phase : DirectorPhase B) : (s.moved t phase).phase u = s.phase u := by
  simp [moved, h]

/-- One step, with its answer. What cannot be done now changes nothing: the
ring is not written while somebody reads it. -/
def step (s : DirectorThreads T B) : DirectorStep T B → Option (Option B) × DirectorThreads T B
  | .setBackends t backends =>
    match s.phase t with
    | .idle => (none, s.moved t (.built backends))
    | _ => (none, s)
  | .storeRing t =>
    match s.phase t with
    | .built backends =>
      if s.readers = 0 then
        (none, { s.moved t (.halfway backends) with ring := sharding.buildRing backends })
      else (none, s)
    | _ => (none, s)
  | .storeBackends t =>
    match s.phase t with
    | .halfway backends => (none, { s.moved t .idle with backends := backends })
    | _ => (none, s)
  | .resolve t hash =>
    match s.phase t with
    | .idle => (none, { s.moved t (.reading hash) with readers := s.readers + 1 })
    | _ => (none, s)
  | .answer t isHealthy =>
    match s.phase t with
    | .reading hash => (some (resolveWithHash isHealthy s.ring s.backends hash),
        { s.moved t .idle with readers := s.readers - 1 })
    | _ => (none, s)

/-- The list stored, or one that is being stored. -/
def InForce (s : DirectorThreads T B) (backends : List B) : Prop :=
  s.backends = backends ∨ ∃ t, s.phase t = .halfway backends

/-- An answer is that of a director that holds one of the lists in force. -/
def Atomic (s : DirectorThreads T B) : DirectorStep T B → Prop
  | .answer t isHealthy => ∀ hash, s.phase t = .reading hash →
      ∃ backends, s.InForce backends ∧
        (s.step sharding (.answer t isHealthy)).1 = some (sharding.resolve isHealthy backends hash)
  | _ => True

def Settled (s : DirectorThreads T B) : Prop := ∀ t backends, s.phase t ≠ .halfway backends

def StepOk (s : DirectorThreads T B) : DirectorStep T B → Prop
  | .storeRing _ | .answer _ _ => s.Settled
  | _ => True

/-- Who is halfway has stored the ring that is there, and is alone. When
nobody is, ring and list belong together. -/
structure Paired (s : DirectorThreads T B) : Prop where
  halfway : ∀ t backends, s.phase t = .halfway backends →
    s.ring = sharding.buildRing backends ∧ ∀ u other, s.phase u = .halfway other → u = t
  settled : s.Settled → s.ring = sharding.buildRing s.backends

variable {sharding} {s : DirectorThreads T B} {l : DirectorStep T B}

theorem Paired.moved (h : s.Paired sharding) {phase : DirectorPhase B}
    (hold : ∀ backends, s.phase t ≠ .halfway backends)
    (hnew : ∀ backends, phase ≠ .halfway backends) : (s.moved t phase).Paired sharding := by
  have hsame : ∀ u backends, (s.moved t phase).phase u = .halfway backends ↔
      s.phase u = .halfway backends := by
    intro u backends
    rcases eq_or_ne u t with rfl | hne
    · rw [moved_phase_self]
      exact iff_of_false (hnew backends) (hold backends)
    · rw [moved_phase_of_ne s hne]
  constructor
  · intro u backends hu
    obtain ⟨hring, halone⟩ := h.halfway u backends ((hsame u backends).mp hu)
    exact ⟨hring, fun v other hv => halone v other ((hsame v other).mp hv)⟩
  · intro hsettled
    exact h.settled fun u backends hu => hsettled u backends ((hsame u backends).mpr hu)

omit [DecidableEq T] in
theorem Paired.readers (h : s.Paired sharding) (readers : ℕ) :
    Paired sharding { s with readers := readers } := ⟨h.halfway, h.settled⟩

theorem Paired.storeRing (h : s.Settled) (t : T) (backends : List B) :
    Paired sharding { s.moved t (.halfway backends) with ring := sharding.buildRing backends } := by
  have honly : ∀ u other, (s.moved t (.halfway backends)).phase u = .halfway other → u = t := by
    intro u other hu
    by_contra hne
    rw [moved_phase_of_ne s hne] at hu
    exact h u other hu
  constructor
  · intro u other hu
    obtain rfl := honly u other hu
    cases (s.moved_phase_self u _).symm.trans hu
    exact ⟨rfl, honly⟩
  · exact fun hsettled => absurd (s.moved_phase_self t _) (hsettled t backends)

theorem Paired.storeBackends (h : s.Paired sharding) {backends : List B}
    (ht : s.phase t = .halfway backends) :
    Paired sharding { s.moved t .idle with backends := backends } := by
  -- with this store nobody is halfway any more
  obtain ⟨hring, halone⟩ := h.halfway t backends ht
  have hnone : ∀ u other, (s.moved t .idle).phase u ≠ .halfway other := by
    intro u other hu
    rcases eq_or_ne u t with rfl | hne
    · rw [moved_phase_self] at hu
      cases hu
    · rw [moved_phase_of_ne s hne] at hu
      exact hne (halone u other hu)
  exact ⟨fun u other hu => absurd hu (hnone u other), fun _ => hring⟩

theorem Paired.step (h : s.Paired sharding) (hok : s.StepOk l) :
    (s.step sharding l).2.Paired sharding := by
  cases l with
  | setBackends t backends =>
    rw [DirectorThreads.step]
    split
    · rename_i hphase
      exact h.moved (by simp [hphase]) (by simp)
    · exact h
  | storeRing t =>
    rw [DirectorThreads.step]
    split
    · split
      · exact Paired.storeRing hok t _
      · exact h
    · exact h
  | storeBackends t =>
    rw [DirectorThreads.step]
    split
    · rename_i backends hphase
      exact h.storeBackends hphase
    · exact h
  | resolve t hash =>
    rw [DirectorThreads.step]
    split
    · rename_i hphase
      exact (h.moved (by simp [hphase]) (by simp)).readers _
    · exact h
  | answer t isHealthy =>
    rw [DirectorThreads.step]
    split
    · rename_i hash hphase
      exact (h.moved (by simp [hphase]) (by simp)).readers _
    · exact h

theorem Paired.atomic (h : s.Paired sharding) (hok : s.StepOk l) : s.Atomic sharding l := by
  cases l with
  | answer t isHealthy =>
    intro hash hphase
    -- nobody is halfway, so the ring is that of the list
    refine ⟨s.backends, .inl rfl, ?_⟩
    rw [DirectorThreads.step, hphase, Sharding.resolve, h.settled hok]
  | setBackends | storeRing | storeBackends | resolve => trivial

omit [DecidableEq T] in
theorem paired_start (sharding : Sharding B) (backends : List B) :
    (start sharding backends : DirectorThreads T B).Paired sharding :=
  ⟨fun _ _ ht => (by cases ht), fun _ => rfl⟩

/-- **Every answer is that of one list**, the old or the new, in every run
where rings are stored and answers given when nobody is halfway. -/
theorem atomic_of_stepOk {backends : List B} {labels : List (DirectorStep T B)}
    (h : Lib.Guarded (step sharding) StepOk (start sharding backends) labels) :
    Lib.Guarded (step sharding) (Atomic sharding) (start sharding backends) labels :=
  Lib.guarded_of_guarded (step sharding) (P := Paired sharding) (fun _ _ hp hok => hp.atomic hok)
    (fun _ _ hp hok => hp.step hok) (paired_start sharding backends) h

/-- An answer before the change, and one after it. -/
theorem atomic_of_stepOk_replaced : let labels : List (DirectorStep Bool String) :=
      [.resolve true 6400000, .answer true fun _ => true, .setBackends false ["b"],
        .storeRing false, .storeBackends false, .resolve true 6400000, .answer true fun _ => true]
    Lib.Guarded (step .named) (Atomic .named) (start .named ["a", "b"]) labels := by
  intro labels
  refine atomic_of_stepOk ?_
  have hidle : ∀ s : DirectorThreads Bool String,
      s.phase false = .idle ∨ s.phase false = .built ["b"] →
      (s.phase true = .idle ∨ s.phase true = .reading 6400000) → s.Settled := by
    rintro s (h | h) (h' | h') (_ | _) backends
    all_goals simp [h, h']
  refine ⟨trivial, hidle _ (.inl rfl) (.inr rfl), trivial, hidle _ (.inr rfl) (.inl rfl), trivial,
    trivial, hidle _ (.inl rfl) (.inr rfl), trivial⟩

/-- **A caller between the two stores gets neither answer**: with `a` and `b`,
and with `b` alone, `b` answers; the new ring's places lead to `a` in the old
list. -/
theorem not_atomic_halfway : let labels : List (DirectorStep Bool String) :=
      [.setBackends false ["b"], .storeRing false, .resolve true 6400000,
        .answer true fun _ => true]
    ((Lib.record (step .named) (start .named ["a", "b"]) labels).1.map Prod.snd =
        [none, none, none, some (some "a")] ∧
      Sharding.named.resolve (fun _ => true) ["a", "b"] 6400000 = some "b" ∧
      Sharding.named.resolve (fun _ => true) ["b"] 6400000 = some "b") ∧
    ¬ Lib.Guarded (step .named) (Atomic .named) (start .named ["a", "b"]) labels := by
  intro labels
  have hold : Sharding.named.resolve (fun _ => true) ["a", "b"] 6400000 = some "b" := by
    decide +kernel
  have hnew : Sharding.named.resolve (fun _ => true) ["b"] 6400000 = some "b" := by
    decide +kernel
  refine ⟨⟨by decide +kernel, hold, hnew⟩, fun h => ?_⟩
  obtain ⟨backends, hforce, hanswer⟩ := h.2.2.2.1 6400000 rfl
  have hwrong : ∀ answer : Option String, answer = some "b" →
      some (resolveWithHash (fun _ => true) (Sharding.named.buildRing ["b"]) ["a", "b"] 6400000) ≠
        some answer := by
    rintro _ rfl
    decide +kernel
  rcases hforce with rfl | ⟨_ | _, ht⟩
  · exact hwrong _ hold hanswer
  · cases ht
    exact hwrong _ hnew hanswer
  · cases ht

end DirectorThreads

end VarahaCache.Backend
