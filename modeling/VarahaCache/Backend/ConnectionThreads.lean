import VarahaCache.Backend.ConnectionPool

/-!
# The connection pool under concurrency

Any number of threads in calls of `get`, `put` and `cleanup`. Each part of a
call under one guard of the map is one step, and so is each access of the
counter.

A call that has pushed or popped and not yet counted owes the counter
something. With that a step is `Balanced`, except for two: `remove` takes a
queue out whatever is in it by then, and the push of a `put` comes after
others may have used the room its check found.
-/

namespace VarahaCache.Backend

open Lib Words Function List

variable {A σ : Type*} {pool : ConnectionPool A σ}

/-- Where a thread is, with the values its call carries. -/
inductive PoolPhase (A σ : Type*)
  | idle
  /-- `get`, before `get_mut`. -/
  | getting (addr : A)
  /-- `get`, before it subtracts what was expired. -/
  | subExpired (addr : A) (taken : Taken A σ)
  /-- `get`, before it subtracts the connection it took. -/
  | subTaken (addr : A) (taken : Taken A σ)
  /-- `get`, before `remove(&addr)`. -/
  | removeTaken (addr : A) (conn : Option (PooledConnection A σ))
  /-- `get`, before it returns. -/
  | returning (conn : Option (PooledConnection A σ))
  /-- `put`, before it loads the counter. -/
  | putting (addr : A) (stream : σ)
  /-- `put`, in the first pass of `evict_one`. -/
  | scanning (addr : A) (stream : σ) (oldest : Option (A × ℕ))
  /-- `put`, before the second pass of `evict_one`. -/
  | evicting (addr : A) (stream : σ) (oldestAddr : A)
  /-- `put`, before `evict_one` subtracts. -/
  | subEvicted (addr : A) (stream : σ) (oldestAddr : A) (emptied : Bool)
  /-- `put`, before the `remove` of `evict_one`. -/
  | removeEvicted (addr : A) (stream : σ) (oldestAddr : A)
  /-- `put`, before it pushes. -/
  | pushing (addr : A) (stream : σ)
  /-- `put`, before it adds. -/
  | adding
  /-- `cleanup`, in its iteration. -/
  | sweeping (now removed : ℕ) (emptyKeys : List A)
  /-- `cleanup`, before the `remove_if` of these keys. -/
  | removing (removed : ℕ) (emptyKeys : List A)

/-- What a thread does next: it calls, comes to an entry in an iteration, or
goes on; the clock may be read. -/
inductive PoolMove (A σ : Type*)
  | get (addr : A)
  | put (addr : A) (stream : σ)
  | cleanup (now : ℕ)
  | visit (addr : A)
  | go (now : ℕ)

inductive PoolEvent (A σ : Type*)
  | put (pc : PooledConnection A σ)
  | returned (pc : PooledConnection A σ)
  | evicted (pc : PooledConnection A σ)

section Advance

variable [DecidableEq A]

def advance (pool : ConnectionPool A σ) :
    PoolPhase A σ → PoolMove A σ → Option (PoolEvent A σ) × ConnectionPool A σ × PoolPhase A σ
  | .idle, .get addr => (none, pool, .getting addr)
  | .idle, .put addr stream => (none, pool, .putting addr stream)
  | .idle, .cleanup now => (none, pool, .sweeping now 0 [])
  | .getting addr, .go now =>
    match takeEntry pool.idleTimeout now addr pool.connections with
    | none => (none, pool, .idle)
    | some (taken, connections) =>
      (none, { pool with connections := connections }, .subExpired addr taken)
  | .subExpired addr taken, .go _ =>
    (none,
      { pool with
        total :=
          if 0 < taken.expiredCount then wrappingSub 64 pool.total taken.expiredCount
          else pool.total },
      .subTaken addr taken)
  | .subTaken addr taken, .go _ =>
    (none,
      { pool with total := if taken.conn.isSome then wrappingSub 64 pool.total 1 else pool.total },
      if taken.emptied then .removeTaken addr taken.conn else .returning taken.conn)
  | .removeTaken addr conn, .go _ =>
    (none, { pool with connections := pool.connections.erase addr }, .returning conn)
  | .returning conn, .go _ => (conn.map .returned, pool, .idle)
  | .putting addr stream, .go _ =>
    (none, pool,
      if pool.maxConnections ≤ pool.total then .scanning addr stream none
      else .pushing addr stream)
  | .scanning addr stream oldest, .visit entry =>
    (none, pool, .scanning addr stream (consider oldest entry (queue pool.connections entry)))
  | .scanning addr stream oldest, .go _ =>
    match oldest with
    | none => (none, pool, .pushing addr stream)
    | some (oldestAddr, _) => (none, pool, .evicting addr stream oldestAddr)
  | .evicting addr stream oldestAddr, .go _ =>
    match popOldest oldestAddr pool.connections with
    | none => (none, pool, .pushing addr stream)
    | some (pc, emptied, connections) =>
      (some (.evicted pc), { pool with connections := connections },
        .subEvicted addr stream oldestAddr emptied)
  | .subEvicted addr stream oldestAddr emptied, .go _ =>
    (none, { pool with total := wrappingSub 64 pool.total 1 },
      if emptied then .removeEvicted addr stream oldestAddr else .pushing addr stream)
  | .removeEvicted addr stream oldestAddr, .go _ =>
    (none, { pool with connections := pool.connections.erase oldestAddr }, .pushing addr stream)
  | .pushing addr stream, .go now =>
    (some (.put ⟨stream, addr, now, now⟩),
      { pool with connections := pushBack addr ⟨stream, addr, now, now⟩ pool.connections },
      .adding)
  | .adding, .go _ => (none, { pool with total := wrappingAdd 64 pool.total 1 }, .idle)
  | .sweeping now removed emptyKeys, .visit entry =>
    let sweep := visitEntry pool.idleTimeout now ⟨removed, emptyKeys, pool.connections⟩ entry
    (none, { pool with connections := sweep.connections },
      .sweeping now sweep.removed sweep.emptyKeys)
  | .sweeping _ removed emptyKeys, .go _ => (none, pool, .removing removed emptyKeys)
  | .removing removed (key :: keys), .go _ =>
    (none, { pool with connections := removeIfEmpty pool.connections key }, .removing removed keys)
  | .removing removed [], .go _ =>
    (none,
      { pool with
        total := if 0 < removed then wrappingSub 64 pool.total removed else pool.total },
      .idle)
  | phase, _ => (none, pool, phase)

end Advance

/-! ## What a call owes -/

def PoolPhase.owedAdd : PoolPhase A σ → ℕ
  | .adding => 1
  | _ => 0

/-- Subtractions from the counter that are still to come. -/
def PoolPhase.owedSub : PoolPhase A σ → ℕ
  | .subExpired _ taken => taken.expiredCount + taken.conn.toList.length
  | .subTaken _ taken => taken.conn.toList.length
  | .subEvicted .. => 1
  | .sweeping _ removed _ => removed
  | .removing removed _ => removed
  | _ => 0

/-- Connections a call has taken and not yet returned. -/
def PoolPhase.carried : PoolPhase A σ → List (PooledConnection A σ)
  | .subExpired _ taken => taken.conn.toList
  | .subTaken _ taken => taken.conn.toList
  | .removeTaken _ conn => conn.toList
  | .returning conn => conn.toList
  | _ => []

def PoolEvent.put? : Option (PoolEvent A σ) → List (PooledConnection A σ)
  | some (.put pc) => [pc]
  | _ => []

def PoolEvent.returned? : Option (PoolEvent A σ) → List (PooledConnection A σ)
  | some (.returned pc) => [pc]
  | _ => []

def PoolEvent.evicted? : Option (PoolEvent A σ) → List (PooledConnection A σ)
  | some (.evicted pc) => [pc]
  | _ => []

/-- A step that counts what it does, and loses nothing. -/
structure Balanced (pool : ConnectionPool A σ) (phase : PoolPhase A σ)
    (event : Option (PoolEvent A σ)) (pool' : ConnectionPool A σ) (phase' : PoolPhase A σ) :
    Prop where
  max_eq : pool'.maxConnections = pool.maxConnections
  le_max : size pool.connections ≤ pool.maxConnections →
    size pool'.connections ≤ pool.maxConnections
  total_lt : pool.total < 2 ^ 64 → pool'.total < 2 ^ 64
  counted : pool'.total + phase'.owedAdd + (size pool.connections + phase.owedSub) ≡
    pool.total + phase.owedAdd + (size pool'.connections + phase'.owedSub) [MOD 2 ^ 64]
  kept : ∀ w : PooledConnection A σ → ℕ,
    ((PoolEvent.put? event).map w).sum + weigh w pool.connections + (phase.carried.map w).sum =
      ((PoolEvent.returned? event).map w).sum + ((PoolEvent.evicted? event).map w).sum +
        weigh w pool'.connections + (phase'.carried.map w).sum

namespace Balanced

variable {pool : ConnectionPool A σ} {phase phase' : PoolPhase A σ}
  {event : Option (PoolEvent A σ)} {connections : Connections A σ}

theorem goOn (hadd : phase'.owedAdd = phase.owedAdd) (hsub : phase'.owedSub = phase.owedSub)
    (hcarried : phase'.carried = phase.carried) : Balanced pool phase none pool phase' where
  max_eq := rfl
  le_max := id
  total_lt := id
  counted := by rw [hadd, hsub]
  kept w := by rw [hcarried]; rfl

theorem subtract {k total : ℕ} (hlt : pool.total < 2 ^ 64 → total < 2 ^ 64)
    (htotal : total + k ≡ pool.total [MOD 2 ^ 64]) (hadd : phase'.owedAdd = phase.owedAdd)
    (hsub : phase.owedSub = phase'.owedSub + k) (hcarried : phase'.carried = phase.carried) :
    Balanced pool phase none { pool with total := total } phase' where
  max_eq := rfl
  le_max := id
  total_lt := hlt
  counted := by
    have h := htotal.add_right (phase.owedAdd + (size pool.connections + phase'.owedSub))
    rw [hadd, hsub]
    show total + phase.owedAdd + (size pool.connections + (phase'.owedSub + k)) ≡
      pool.total + phase.owedAdd + (size pool.connections + phase'.owedSub) [MOD 2 ^ 64]
    convert h using 1 <;> omega
  kept w := by rw [hcarried]; rfl

theorem ite_wrappingSub_modEq (total k : ℕ) :
    (if 0 < k then wrappingSub 64 total k else total) + k ≡ total [MOD 2 ^ 64] := by
  split
  · exact wrappingSub_modEq ..
  · next h => rw [Nat.eq_zero_of_not_pos h, Nat.add_zero]

theorem ite_wrappingSub_lt {c : Prop} [Decidable c] {total k : ℕ} (h : total < 2 ^ 64) :
    (if c then wrappingSub 64 total k else total) < 2 ^ 64 := by
  split
  · exact wrappingSub_lt ..
  · exact h

/-- The map changes, and what is owed, carried or told makes up for it. -/
theorem rearrange
    (hmax : size pool.connections ≤ pool.maxConnections → size connections ≤ pool.maxConnections)
    (hcount : phase'.owedAdd + (size pool.connections + phase.owedSub) =
      phase.owedAdd + (size connections + phase'.owedSub))
    (hkept : ∀ w : PooledConnection A σ → ℕ,
      ((PoolEvent.put? event).map w).sum + weigh w pool.connections + (phase.carried.map w).sum =
        ((PoolEvent.returned? event).map w).sum + ((PoolEvent.evicted? event).map w).sum +
          weigh w connections + (phase'.carried.map w).sum) :
    Balanced pool phase event { pool with connections := connections } phase' where
  max_eq := rfl
  le_max := hmax
  total_lt := id
  counted := by
    show pool.total + phase'.owedAdd + (size pool.connections + phase.owedSub) ≡
      pool.total + phase.owedAdd + (size connections + phase'.owedSub) [MOD 2 ^ 64]
    rw [Nat.add_assoc, hcount, ← Nat.add_assoc]
  kept := hkept

theorem rearrange_same
    (hsame : ∀ w : PooledConnection A σ → ℕ, weigh w connections = weigh w pool.connections)
    (hadd : phase'.owedAdd = phase.owedAdd) (hsub : phase'.owedSub = phase.owedSub)
    (hcarried : phase'.carried = phase.carried) :
    Balanced pool phase none { pool with connections := connections } phase' := by
  have hsize : size connections = size pool.connections := by
    rw [size_eq_weigh, size_eq_weigh, hsame]
  refine rearrange (fun h => hsize ▸ h) ?_ fun w => ?_
  · rw [hadd, hsub, hsize]
  · rw [hcarried, hsame]
    rfl

end Balanced

theorem prune_of_fresh {timeout now : ℕ} {queue : List (PooledConnection A σ)}
    (h : queue.all fun pc => !pc.isIdle timeout now) : prune timeout now queue = (0, queue) := by
  cases queue with
  | nil => rfl
  | cons front queue =>
    have hfront : front.isIdle timeout now = false := by simpa using (all_eq_true.mp h) front
    rw [prune, hfront]
    rfl

theorem dropLast_append_toList_getLast? {α : Type*} (l : List α) :
    l.dropLast ++ l.getLast?.toList = l := by
  rcases eq_nil_or_concat' l with rfl | ⟨l, a, rfl⟩
  · rfl
  · simp

theorem balanced_subTaken {addr : A} {taken : Taken A σ} :
    Balanced pool (.subTaken addr taken) none
      { pool with total := if taken.conn.isSome then wrappingSub 64 pool.total 1 else pool.total }
      (if taken.emptied then .removeTaken addr taken.conn else .returning taken.conn) := by
  have htotal : (if taken.conn.isSome then wrappingSub 64 pool.total 1 else pool.total) +
      taken.conn.toList.length ≡ pool.total [MOD 2 ^ 64] := by
    cases taken.conn with
    | none => exact Nat.ModEq.refl pool.total
    | some pc =>
      simp only [Option.isSome_some, if_true, Option.toList_some, length_singleton]
      exact wrappingSub_modEq 64 pool.total 1
  cases taken.emptied <;>
    exact .subtract Balanced.ite_wrappingSub_lt htotal rfl (Nat.zero_add _).symm rfl

theorem balanced_add :
    Balanced pool .adding none { pool with total := wrappingAdd 64 pool.total 1 } .idle where
  max_eq := rfl
  le_max := id
  total_lt _ := wrappingAdd_lt ..
  counted := by
    show wrappingAdd 64 pool.total 1 + 0 + (size pool.connections + 0) ≡
      pool.total + 1 + (size pool.connections + 0) [MOD 2 ^ 64]
    rw [Nat.add_zero, Nat.add_zero]
    exact (wrappingAdd_modEq 64 pool.total 1).add_right _
  kept _ := rfl

section Steps

variable [DecidableEq A]

/-- No connection the step looks at has been idle for the timeout. -/
def timeoutNotReached (pool : ConnectionPool A σ) : PoolPhase A σ → PoolMove A σ → Bool
  | .getting addr, .go now =>
    (queue pool.connections addr).all fun pc => !pc.isIdle pool.idleTimeout now
  | .sweeping now _ _, .visit entry =>
    (queue pool.connections entry).all fun pc => !pc.isIdle pool.idleTimeout now
  | _, _ => true

/-- What a check found still holds when the call acts on it: a removed queue
is empty, and a pushed connection has room. -/
def stepOk (pool : ConnectionPool A σ) : PoolPhase A σ → PoolMove A σ → Bool
  | .removeTaken addr _, .go _ => (queue pool.connections addr).isEmpty
  | .removeEvicted _ _ oldestAddr, .go _ => (queue pool.connections oldestAddr).isEmpty
  | .pushing _ _, .go _ => size pool.connections < pool.maxConnections
  | _, _ => true

variable {pool : ConnectionPool A σ} {connections : Connections A σ} {addr : A} {now : ℕ}
  {stream : σ}

theorem balanced_take {taken : Taken A σ}
    (hfresh : (queue pool.connections addr).all fun pc => !pc.isIdle pool.idleTimeout now)
    (htake : takeEntry pool.idleTimeout now addr pool.connections = some (taken, connections)) :
    Balanced pool (.getting addr) none { pool with connections := connections }
      (.subExpired addr taken) := by
  obtain ⟨q, hlookup, heq⟩ := Option.map_eq_some_iff.mp htake
  rw [queue_of_lookup hlookup] at hfresh
  rw [prune_of_fresh hfresh, Prod.mk.injEq] at heq
  obtain ⟨rfl, rfl⟩ := heq
  have hq := queue_of_lookup hlookup
  have hsplit : ∀ w : PooledConnection A σ → ℕ,
      (q.map w).sum = (q.dropLast.map w).sum + (q.getLast?.toList.map w).sum := by
    intro w
    rw [← sum_append, ← map_append, dropLast_append_toList_getLast?]
  have hlength : q.length = q.dropLast.length + q.getLast?.toList.length := by
    rw [← length_append, dropLast_append_toList_getLast?]
  have hsize := size_insert pool.connections addr q.dropLast
  rw [hq] at hsize
  refine .rearrange (fun h => ?_) ?_ fun w => ?_
  · omega
  · show 0 + (size pool.connections + 0) =
      0 + (size (pool.connections.insert addr q.dropLast) + (0 + q.getLast?.toList.length))
    omega
  · have hweigh := weigh_insert w pool.connections addr q.dropLast
    rw [hq, hsplit] at hweigh
    show 0 + weigh w pool.connections + 0 = 0 + 0 +
      weigh w (pool.connections.insert addr q.dropLast) + (q.getLast?.toList.map w).sum
    omega

theorem balanced_evict {oldestAddr : A} {pc : PooledConnection A σ} {emptied : Bool}
    (hpop : popOldest oldestAddr pool.connections = some (pc, emptied, connections)) :
    Balanced pool (.evicting addr stream oldestAddr) (some (.evicted pc))
      { pool with connections := connections } (.subEvicted addr stream oldestAddr emptied) := by
  rw [popOldest] at hpop
  split at hpop
  · next front rest hlookup =>
      rw [Option.some.injEq, Prod.mk.injEq, Prod.mk.injEq] at hpop
      obtain ⟨rfl, rfl, rfl⟩ := hpop
      have hsize := size_insert pool.connections oldestAddr rest
      rw [queue_of_lookup hlookup, length_cons] at hsize
      refine .rearrange (fun h => ?_) ?_ fun w => ?_
      · omega
      · show 0 + (size pool.connections + 0) =
          0 + (size (pool.connections.insert oldestAddr rest) + 1)
        omega
      · have hweigh := weigh_insert w pool.connections oldestAddr rest
        rw [queue_of_lookup hlookup, map_cons, sum_cons] at hweigh
        show 0 + weigh w pool.connections + 0 =
          0 + (w front + 0) + weigh w (pool.connections.insert oldestAddr rest) + 0
        omega
  · cases hpop

theorem balanced_push (hroom : size pool.connections < pool.maxConnections) :
    Balanced pool (.pushing addr stream) (some (.put ⟨stream, addr, now, now⟩))
      { pool with connections := pushBack addr ⟨stream, addr, now, now⟩ pool.connections }
      .adding := by
  have hsize := size_insert pool.connections addr
    (queue pool.connections addr ++ [⟨stream, addr, now, now⟩])
  rw [length_append, length_singleton] at hsize
  refine .rearrange (fun _ => ?_) ?_ fun w => ?_
  · rw [pushBack]
    omega
  · show 1 + (size pool.connections + 0) =
      0 + (size (pool.connections.insert addr (queue pool.connections addr ++ [_])) + 0)
    omega
  · have hweigh := weigh_insert w pool.connections addr
      (queue pool.connections addr ++ [⟨stream, addr, now, now⟩])
    rw [map_append, sum_append] at hweigh
    show (w ⟨stream, addr, now, now⟩ + 0) + weigh w pool.connections + 0 =
      0 + 0 + weigh w (pool.connections.insert addr (queue pool.connections addr ++ [_])) + 0
    simp only [map_singleton, sum_singleton] at hweigh
    omega

theorem weigh_erase_of_isEmpty (h : (queue connections addr).isEmpty)
    (w : PooledConnection A σ → ℕ) : weigh w (connections.erase addr) = weigh w connections := by
  have hweigh := weigh_erase w connections addr
  rw [isEmpty_iff.mp h] at hweigh
  exact hweigh

theorem weigh_removeIfEmpty (connections : Connections A σ) (key : A)
    (w : PooledConnection A σ → ℕ) :
    weigh w (removeIfEmpty connections key) = weigh w connections := by
  rw [removeIfEmpty]
  split
  · next hlookup =>
      refine weigh_erase_of_isEmpty ?_ w
      rw [queue_of_lookup hlookup]
      rfl
  · rfl

theorem visitEntry_of_fresh {timeout : ℕ} (sweep : Sweep A σ) {entry : A}
    (hfresh : (queue sweep.connections entry).all fun pc => !pc.isIdle timeout now) :
    (visitEntry timeout now sweep entry).removed = sweep.removed ∧ ∀ w : PooledConnection A σ → ℕ,
        weigh w (visitEntry timeout now sweep entry).connections = weigh w sweep.connections := by
  rw [visitEntry]
  split
  · exact ⟨rfl, fun _ => rfl⟩
  next q hlookup =>
    rw [queue_of_lookup hlookup] at hfresh
    have hkept : (q.filter fun pc => !pc.isIdle timeout now) = q :=
      filter_eq_self.mpr (all_eq_true.mp hfresh)
    simp only [hkept, Nat.sub_self, Nat.add_zero, true_and]
    intro w
    have hweigh := weigh_insert w sweep.connections entry q
    rw [queue_of_lookup hlookup] at hweigh
    exact Nat.add_right_cancel hweigh

theorem advance_balanced {phase : PoolPhase A σ} {move : PoolMove A σ}
    (htime : timeoutNotReached pool phase move) (hok : stepOk pool phase move) :
    Balanced pool phase (advance pool phase move).1 (advance pool phase move).2.1
      (advance pool phase move).2.2 := by
  cases phase <;> cases move
  case getting.go addr now =>
    rw [advance]
    split
    · exact .goOn rfl rfl rfl
    · next htake => exact balanced_take htime htake
  case subExpired.go =>
    exact .subtract Balanced.ite_wrappingSub_lt (Balanced.ite_wrappingSub_modEq ..) rfl
      (Nat.add_comm ..) rfl
  case subTaken.go => exact balanced_subTaken
  case removeTaken.go => exact .rearrange_same (weigh_erase_of_isEmpty hok) rfl rfl rfl
  case returning.go conn now =>
    cases conn with
    | none => exact .goOn rfl rfl rfl
    | some pc => exact .rearrange id rfl fun w => by simp [advance, PoolPhase.carried,
        PoolEvent.put?, PoolEvent.returned?, PoolEvent.evicted?, Nat.add_comm]
  case putting.go =>
    rw [advance]
    split <;> exact .goOn rfl rfl rfl
  case scanning.go oldest now => cases oldest <;> exact .goOn rfl rfl rfl
  case evicting.go =>
    rw [advance]
    split
    · exact .goOn rfl rfl rfl
    · next hpop => exact balanced_evict hpop
  case subEvicted.go =>
    rw [advance]
    split <;> exact .subtract (fun _ => wrappingSub_lt ..) (wrappingSub_modEq ..) rfl rfl rfl
  case removeEvicted.go => exact .rearrange_same (weigh_erase_of_isEmpty hok) rfl rfl rfl
  case pushing.go => exact balanced_push (of_decide_eq_true hok)
  case adding.go => exact balanced_add
  case sweeping.visit removed emptyKeys entry =>
    obtain ⟨hremoved, hweigh⟩ := visitEntry_of_fresh ⟨removed, emptyKeys, pool.connections⟩ htime
    exact .rearrange_same hweigh rfl hremoved rfl
  case removing.go emptyKeys now =>
    cases emptyKeys with
    | nil =>
      exact .subtract Balanced.ite_wrappingSub_lt (Balanced.ite_wrappingSub_modEq ..) rfl
        (Nat.zero_add _).symm rfl
    | cons key keys => exact .rearrange_same (weigh_removeIfEmpty _ key) rfl rfl rfl
  case removing.get emptyKeys _ | removing.put emptyKeys _ _ | removing.cleanup emptyKeys _ |
      removing.visit emptyKeys _ =>
    cases emptyKeys <;> exact .goOn rfl rfl rfl
  -- a move that is not for the phase does nothing
  all_goals exact .goOn rfl rfl rfl

end Steps

/-! ## All threads -/

structure PoolThreads (A σ T : Type*) where
  pool : ConnectionPool A σ
  threads : T → PoolPhase A σ

namespace PoolThreads

variable {T : Type*}

def Quiet (s : PoolThreads A σ T) : Prop := ∀ t, s.threads t = .idle

def new (maxConnections idleTimeout : ℕ) (max_lt : maxConnections < 2 ^ 64) : PoolThreads A σ T :=
  ⟨.new maxConnections idleTimeout max_lt, fun _ => .idle⟩

/-- The steps of a run, with what happened in them. -/
abbrev PoolLog (A σ T : Type*) := List ((T × PoolMove A σ) × Option (PoolEvent A σ))

def connectionsOf (of : Option (PoolEvent A σ) → List (PooledConnection A σ))
    (log : PoolLog A σ T) : List (PooledConnection A σ) :=
  log.flatMap fun entry => of entry.2

theorem sum_connectionsOf_concat (of : Option (PoolEvent A σ) → List (PooledConnection A σ))
    (w : PooledConnection A σ → ℕ) (log : PoolLog A σ T) (l : T × PoolMove A σ)
    (event : Option (PoolEvent A σ)) :
    ((connectionsOf of (log ++ [(l, event)])).map w).sum =
      ((connectionsOf of log).map w).sum + ((of event).map w).sum := by
  rw [connectionsOf, flatMap_append, map_append, sum_append, flatMap_singleton]
  rfl

/-- The counter is the number of connections held, at most the maximum, and
every connection put was returned, evicted by a `put` that found the pool
full, or is held. -/
def Settled (s : PoolThreads A σ T) (log : PoolLog A σ T) : Prop :=
  s.pool.len = size s.pool.connections ∧ size s.pool.connections ≤ s.pool.maxConnections ∧
    (connectionsOf PoolEvent.put? log).Perm
      (connectionsOf PoolEvent.returned? log ++ connectionsOf PoolEvent.evicted? log ++
        elements s.pool.connections)

variable [Fintype T]

/-- `Settled`, with what the calls in progress owe and carry. -/
structure Accounted (s : PoolThreads A σ T) (log : PoolLog A σ T) : Prop where
  le_max : size s.pool.connections ≤ s.pool.maxConnections
  total_lt : s.pool.total < 2 ^ 64
  counted : s.pool.total + ∑ t, (s.threads t).owedAdd ≡
    size s.pool.connections + ∑ t, (s.threads t).owedSub [MOD 2 ^ 64]
  kept : ∀ w : PooledConnection A σ → ℕ,
    ((connectionsOf PoolEvent.put? log).map w).sum =
      ((connectionsOf PoolEvent.returned? log).map w).sum +
        ((connectionsOf PoolEvent.evicted? log).map w).sum +
        weigh w s.pool.connections + ∑ t, ((s.threads t).carried.map w).sum

variable {s : PoolThreads A σ T} {log : PoolLog A σ T}

theorem accounted_new (maxConnections idleTimeout : ℕ) (max_lt : maxConnections < 2 ^ 64) :
    Accounted (new maxConnections idleTimeout max_lt : PoolThreads A σ T) [] where
  le_max := Nat.zero_le _
  total_lt := Nat.two_pow_pos 64
  counted := rfl
  kept w := by
    show 0 = 0 + ∑ _t : T, 0
    rw [Finset.sum_const_zero, Nat.add_zero]

theorem Accounted.settled (h : Accounted s log) (hquiet : s.Quiet) : Settled s log := by
  have hadd : ∑ t, (s.threads t).owedAdd = 0 := Finset.sum_eq_zero fun t _ => by rw [hquiet t]; rfl
  have hsub : ∑ t, (s.threads t).owedSub = 0 := Finset.sum_eq_zero fun t _ => by rw [hquiet t]; rfl
  refine ⟨?_, h.le_max, ?_⟩
  · have hcounted := h.counted
    rw [hadd, hsub, Nat.add_zero, Nat.add_zero] at hcounted
    exact hcounted.eq_of_lt_of_lt h.total_lt (h.le_max.trans_lt s.pool.max_lt)
  classical
  refine perm_iff_count.mpr fun pc => ?_
  have hcarried : ∑ t, ((s.threads t).carried.map fun b => if b = pc then 1 else 0).sum = 0 :=
    Finset.sum_eq_zero fun t _ => by rw [hquiet t]; rfl
  have hkept := h.kept fun b => if b = pc then 1 else 0
  rw [hcarried, weigh_eq_sum_elements] at hkept
  simp only [sum_indicator] at hkept
  rw [count_append, count_append]
  exact hkept

variable [DecidableEq A] [DecidableEq T]

def step (s : PoolThreads A σ T) (l : T × PoolMove A σ) :
    Option (PoolEvent A σ) × PoolThreads A σ T :=
  let (event, pool, phase) := advance s.pool (s.threads l.1) l.2
  (event, ⟨pool, update s.threads l.1 phase⟩)

theorem Accounted.step (h : Accounted s log) (l : T × PoolMove A σ)
    (htime : timeoutNotReached s.pool (s.threads l.1) l.2)
    (hok : stepOk s.pool (s.threads l.1) l.2) :
    Accounted (s.step l).2 (log ++ [(l, (s.step l).1)]) := by
  obtain ⟨t, move⟩ := l
  have hbalanced := advance_balanced htime hok
  rw [PoolThreads.step]
  generalize advance s.pool (s.threads (t, move).1) (t, move).2 = result at hbalanced ⊢
  obtain ⟨event, pool, phase⟩ := result
  refine ⟨?_, ?_, ?_, fun w => ?_⟩
  · rw [hbalanced.max_eq]
    exact hbalanced.le_max h.le_max
  · exact hbalanced.total_lt h.total_lt
  · have hadd := sum_update PoolPhase.owedAdd s.threads t phase
    have hsub := sum_update PoolPhase.owedSub s.threads t phase
    show pool.total + ∑ i, (update s.threads t phase i).owedAdd ≡
      size pool.connections + ∑ i, (update s.threads t phase i).owedSub [MOD 2 ^ 64]
    -- both sides, with what the step was before added to them
    refine Nat.ModEq.add_right_cancel' ((s.threads t).owedAdd + size s.pool.connections +
      (s.threads t).owedSub) ?_
    calc pool.total + (∑ i, (update s.threads t phase i).owedAdd) +
          ((s.threads t).owedAdd + size s.pool.connections + (s.threads t).owedSub)
        = pool.total + phase.owedAdd + (size s.pool.connections + (s.threads t).owedSub) +
          ∑ i, (s.threads i).owedAdd := by omega
      _ ≡ s.pool.total + (s.threads t).owedAdd + (size pool.connections + phase.owedSub) +
          ∑ i, (s.threads i).owedAdd [MOD 2 ^ 64] := hbalanced.counted.add_right _
      _ = s.pool.total + (∑ i, (s.threads i).owedAdd) +
          ((s.threads t).owedAdd + size pool.connections + phase.owedSub) := by omega
      _ ≡ size s.pool.connections + (∑ i, (s.threads i).owedSub) +
          ((s.threads t).owedAdd + size pool.connections + phase.owedSub) [MOD 2 ^ 64] :=
        h.counted.add_right _
      _ = size pool.connections + (∑ i, (update s.threads t phase i).owedSub) +
          ((s.threads t).owedAdd + size s.pool.connections + (s.threads t).owedSub) := by omega
  · have hcarried := sum_update (fun p : PoolPhase A σ => (p.carried.map w).sum) s.threads t phase
    have hkept := hbalanced.kept w
    have hbefore := h.kept w
    rw [sum_connectionsOf_concat, sum_connectionsOf_concat, sum_connectionsOf_concat]
    simp only at hkept hcarried ⊢
    omega

abbrev run (maxConnections idleTimeout : ℕ) (max_lt : maxConnections < 2 ^ 64)
    (ls : List (T × PoolMove A σ)) : PoolLog A σ T × PoolThreads A σ T :=
  record step (new maxConnections idleTimeout max_lt) ls

theorem accounted_of_guarded {maxConnections idleTimeout : ℕ} {max_lt : maxConnections < 2 ^ 64}
    {ls : List (T × PoolMove A σ)}
    (h : Guarded step (fun s l => timeoutNotReached s.pool (s.threads l.1) l.2 = true ∧
      stepOk s.pool (s.threads l.1) l.2 = true) (new maxConnections idleTimeout max_lt) ls) :
    Accounted (run maxConnections idleTimeout max_lt ls).2
      (run maxConnections idleTimeout max_lt ls).1 := by
  induction ls using reverseRecOn with
  | nil => exact accounted_new ..
  | append_singleton ls l ih =>
    obtain ⟨hbefore, htime, hok⟩ := (guarded_concat_iff step).mp h
    rw [run, record_concat]
    exact (ih hbefore).step l htime hok

/-- **Whenever no call is in progress the pool is settled**, in every
interleaving in which no idle timeout is reached and what the calls' checks
found still holds when they act on it. -/
theorem settled_of_stepOk (maxConnections idleTimeout : ℕ) (max_lt : maxConnections < 2 ^ 64)
    (ls : List (T × PoolMove A σ))
    (h : Guarded step (fun s l => timeoutNotReached s.pool (s.threads l.1) l.2 = true ∧
      stepOk s.pool (s.threads l.1) l.2 = true) (new maxConnections idleTimeout max_lt) ls)
    (hquiet : (run maxConnections idleTimeout max_lt ls).2.Quiet) :
    Settled (run maxConnections idleTimeout max_lt ls).2
      (run maxConnections idleTimeout max_lt ls).1 :=
  (accounted_of_guarded h).settled hquiet

def putAlone {T : Type*} (t : T) (addr : A) (stream : σ) : List (T × PoolMove A σ) :=
  [(t, .put addr stream), (t, .go 0), (t, .go 0), (t, .go 0)]

def getUntilRemove {T : Type*} (t : T) (addr : A) : List (T × PoolMove A σ) :=
  [(t, .get addr), (t, .go 0), (t, .go 0), (t, .go 0)]

def getRemove {T : Type*} (t : T) : List (T × PoolMove A σ) := [(t, .go 0), (t, .go 0)]

theorem ten_lt_word : 10 < 2 ^ 64 := by decide

def oneByOne : List (Bool × PoolMove ℕ ℕ) :=
  putAlone true 80 7 ++ getUntilRemove false 80 ++ getRemove false ++ putAlone true 80 8

theorem settled_of_stepOk_oneByOne : Settled (run 1 60 one_lt_word oneByOne).2
      (run 1 60 one_lt_word oneByOne).1 :=
  settled_of_stepOk 1 60 one_lt_word oneByOne (by decide +kernel) fun t => by cases t <;> rfl

/-- A `put` between a `get`'s look at the queue and its `remove`. -/
def removeRace : List (Bool × PoolMove ℕ ℕ) :=
  putAlone true 80 7 ++ getUntilRemove false 80 ++ putAlone true 80 8 ++ getRemove false

def roomRace : List (Bool × PoolMove ℕ ℕ) :=
  [(true, .put 80 7), (false, .put 81 8), (true, .go 0), (false, .go 0), (true, .go 0),
    (false, .go 0), (true, .go 0), (false, .go 0)]

/-- After the first run the pool counts a connection that nobody has; after
the second it holds two where one is the maximum. -/
theorem not_settled_races :
    (Guarded step (fun s l => timeoutNotReached s.pool (s.threads l.1) l.2 = true)
        (new 10 60 ten_lt_word) removeRace ∧
      (run 10 60 ten_lt_word removeRace).2.Quiet ∧
      (run 10 60 ten_lt_word removeRace).2.pool.len = 1 ∧
      size (run 10 60 ten_lt_word removeRace).2.pool.connections = 0 ∧
      ¬ Settled (run 10 60 ten_lt_word removeRace).2
        (run 10 60 ten_lt_word removeRace).1) ∧
    Guarded step (fun s l => timeoutNotReached s.pool (s.threads l.1) l.2 = true)
        (new 1 60 one_lt_word) roomRace ∧
      (run 1 60 one_lt_word roomRace).2.Quiet ∧
      size (run 1 60 one_lt_word roomRace).2.pool.connections = 2 ∧
      ¬ Settled (run 1 60 one_lt_word roomRace).2 (run 1 60 one_lt_word roomRace).1 := by
  have hlen : (run 10 60 ten_lt_word removeRace).2.pool.len = 1 := by decide +kernel
  have hempty : size (run 10 60 ten_lt_word removeRace).2.pool.connections = 0 := by
    decide +kernel
  have htwo : size (run 1 60 one_lt_word roomRace).2.pool.connections = 2 := by
    decide +kernel
  have hmax : (run 1 60 one_lt_word roomRace).2.pool.maxConnections = 1 := by
    decide +kernel
  refine ⟨⟨by decide +kernel, fun t => by cases t <;> rfl, hlen, hempty, fun h => ?_⟩,
    by decide +kernel, fun t => by cases t <;> rfl, htwo, fun h => ?_⟩
  · have hlen' := h.1
    rw [hlen, hempty] at hlen'
    cases hlen'
  have hle := h.2.1
  rw [htwo, hmax] at hle
  omega

end PoolThreads

end VarahaCache.Backend
