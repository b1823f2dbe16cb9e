import VarahaCache.Lib.KeyedQueues
import VarahaCache.Lib.Machine
import VarahaCache.Lib.Words

/-!
# The connection pool

`ConnectionPool` of `rv-backend`, one call at a time: a queue of idle
connections for each address, and a counter of all of them. Each part of a
call that works under one guard of the map is a definition of its own.

What the pool is for is `HeldStep`, on the list of the connections held in the
order they were put; runs whose times do not go back refine it
(`pool_refines_held`).
-/

namespace VarahaCache.Backend

open Lib Words List

variable {A σ α : Type*}

/-- A pooled connection; times are instants of a clock. -/
structure PooledConnection (A σ : Type*) where
  stream : σ
  addr : A
  created : ℕ
  lastUsed : ℕ

/-- Not used for the idle timeout or longer; `duration_since` saturates. -/
def PooledConnection.isIdle (timeout now : ℕ) (pc : PooledConnection A σ) : Bool :=
  timeout ≤ now - pc.lastUsed

theorem PooledConnection.not_isIdle (timeout now : ℕ) (pc : PooledConnection A σ) :
    (!pc.isIdle timeout now) = decide (now - pc.lastUsed < timeout) := by
  rw [isIdle, ← decide_not]
  exact decide_eq_decide.mpr not_le

abbrev Connections (A σ : Type*) := Queues A (PooledConnection A σ)

/-! ## Parts of calls, each under one guard -/

/-- The loop of `get` that drops expired connections from the front. -/
def prune (timeout now : ℕ) : List (PooledConnection A σ) → ℕ × List (PooledConnection A σ)
  | [] => (0, [])
  | front :: queue =>
    if front.isIdle timeout now then
      ((prune timeout now queue).1 + 1, (prune timeout now queue).2)
    else (0, front :: queue)

theorem prune_eq {timeout now : ℕ} {queue : List (PooledConnection A σ)}
    (hsorted : queue.Pairwise fun a b => a.lastUsed ≤ b.lastUsed) :
    prune timeout now queue = (queue.countP fun pc => pc.isIdle timeout now,
        queue.filter fun pc => !pc.isIdle timeout now) := by
  induction queue with
  | nil => rfl
  | cons front queue ih =>
    obtain ⟨hfront, hqueue⟩ := pairwise_cons.mp hsorted
    cases hidle : front.isIdle timeout now with
    | true => simp [prune, hidle, ih hqueue]
    | false =>
      -- nothing behind a fresh connection is expired
      have hfresh : ∀ pc ∈ front :: queue, pc.isIdle timeout now = false := by
        intro pc hpc
        rcases mem_cons.mp hpc with rfl | hpc
        · exact hidle
        have hle := hfront pc hpc
        have hlt := of_decide_eq_false hidle
        exact decide_eq_false (by omega)
      have hcount : (front :: queue).countP (fun pc => pc.isIdle timeout now) = 0 :=
        countP_eq_zero.mpr fun pc hpc => by simp [hfresh pc hpc]
      have hfilter : (front :: queue).filter (fun pc => !pc.isIdle timeout now) =
          front :: queue :=
        filter_eq_self.mpr fun pc hpc => by simp [hfresh pc hpc]
      rw [hcount, hfilter, prune, hidle]
      rfl

theorem countP_add_length_filter_not (p : α → Bool) (l : List α) :
    l.countP p + (l.filter fun a => !p a).length = l.length := by
  rw [← countP_eq_length_filter]
  simpa using (length_eq_countP_add_countP p).symm

theorem counter_get {total expiredCount : ℕ} {kept : List α}
    (hle : expiredCount + kept.length ≤ total) (hlt : total < 2 ^ 64) :
    (if kept.getLast?.isSome then
        wrappingSub 64 (if 0 < expiredCount then wrappingSub 64 total expiredCount else total) 1
      else if 0 < expiredCount then wrappingSub 64 total expiredCount else total) =
      total - (expiredCount + kept.length - kept.dropLast.length) := by
  have hexpired : (if 0 < expiredCount then wrappingSub 64 total expiredCount else total) =
      total - expiredCount := by
    split
    · exact wrappingSub_of_le (by omega) hlt
    · omega
  rw [hexpired, length_dropLast]
  cases kept with
  | nil => simp
  | cons a kept =>
    rw [length_cons] at hle ⊢
    rw [getLast?_cons, Option.isSome_some, if_pos rfl, wrappingSub_of_le (by omega) (by omega)]
    omega

/-- One turn of the first pass of `evict_one`. -/
def consider (oldest : Option (A × ℕ)) (addr : A) (queue : List (PooledConnection A σ)) :
    Option (A × ℕ) :=
  match queue.head? with
  | none => oldest
  | some front =>
    match oldest with
    | none => some (addr, front.lastUsed)
    | some (_, oldestTime) =>
      if front.lastUsed < oldestTime then some (addr, front.lastUsed) else oldest

/-- What a pass over these entries finds: an address with the oldest of all
fronts, unless every queue is empty. -/
def OldestOf (seen : List ((_ : A) × List (PooledConnection A σ))) : Option (A × ℕ) → Prop
  | none => ∀ e ∈ seen, e.2 = []
  | some (addr, oldestTime) =>
    (∃ front queue, ⟨addr, front :: queue⟩ ∈ seen ∧ front.lastUsed = oldestTime) ∧
    ∀ e ∈ seen, ∀ front ∈ e.2.head?, oldestTime ≤ front.lastUsed

variable {seen : List ((_ : A) × List (PooledConnection A σ))}

theorem OldestOf.keep {addr : A} {oldestTime : ℕ} (h : OldestOf seen (some (addr, oldestTime)))
    {e : (_ : A) × List (PooledConnection A σ)}
    (hlater : ∀ front ∈ e.2.head?, oldestTime ≤ front.lastUsed) :
    OldestOf (seen ++ [e]) (some (addr, oldestTime)) := by
  obtain ⟨⟨front, queue, hmem, htime⟩, hle⟩ := h
  refine ⟨⟨front, queue, mem_append_left _ hmem, htime⟩, fun e' he' => ?_⟩
  rcases mem_append.mp he' with hold | hnew
  · exact hle e' hold
  · rw [mem_singleton.mp hnew]
    exact hlater

theorem oldestOf_concat (addr : A)
    {front : PooledConnection A σ} (queue : List (PooledConnection A σ))
    (hfirst : ∀ e ∈ seen, ∀ front' ∈ e.2.head?, front.lastUsed ≤ front'.lastUsed) :
    OldestOf (seen ++ [⟨addr, front :: queue⟩]) (some (addr, front.lastUsed)) := by
  refine ⟨⟨front, queue, mem_append_right _ (mem_singleton_self _), rfl⟩, ?_⟩
  intro e he front' hfront'
  rcases mem_append.mp he with hold | hnew
  · exact hfirst e hold front' hfront'
  rw [mem_singleton.mp hnew] at hfront'
  cases hfront'
  exact le_rfl

theorem OldestOf.consider {oldest : Option (A × ℕ)} (h : OldestOf seen oldest)
    (e : (_ : A) × List (PooledConnection A σ)) :
    OldestOf (seen ++ [e]) (Backend.consider oldest e.1 e.2) := by
  obtain ⟨addr, queue⟩ := e
  cases queue with
  | nil =>
    cases oldest with
    | none =>
      intro e he
      rcases mem_append.mp he with hold | hnew
      · exact h e hold
      · rw [mem_singleton.mp hnew]
    | some oldest => exact h.keep fun front hfront => nomatch hfront
  | cons front queue =>
    cases oldest with
    | none =>
      refine oldestOf_concat addr queue fun e he front' hfront' => ?_
      rw [h e he] at hfront'
      cases hfront'
    | some oldest =>
      obtain ⟨oldestAddr, oldestTime⟩ := oldest
      by_cases hlt : front.lastUsed < oldestTime
      · simp only [Backend.consider, head?_cons, if_pos hlt]
        exact oldestOf_concat addr queue fun e he front' hfront' =>
          hlt.le.trans (h.2 e he front' hfront')
      simp only [Backend.consider, head?_cons, if_neg hlt]
      refine h.keep fun front' hfront' => ?_
      cases hfront'
      exact not_lt.mp hlt

theorem oldestOf_foldl_consider (seen : List ((_ : A) × List (PooledConnection A σ))) :
    OldestOf seen (seen.foldl (fun oldest e => consider oldest e.1 e.2) none) := by
  induction seen using reverseRecOn with
  | nil => exact fun e he => nomatch he
  | append_singleton seen e ih =>
    rw [foldl_append]
    exact ih.consider e

/-- What `get` took out of a queue, and whether it left it empty. -/
structure Taken (A σ : Type*) where
  expiredCount : ℕ
  conn : Option (PooledConnection A σ)
  emptied : Bool

/-- What the iteration of `cleanup` has done so far. -/
structure Sweep (A σ : Type*) where
  removed : ℕ
  emptyKeys : List A
  connections : Connections A σ

section Parts

variable [DecidableEq A]

/-- The part of `get` under `get_mut`; there may be no queue. -/
def takeEntry (timeout now : ℕ) (addr : A) (connections : Connections A σ) :
    Option (Taken A σ × Connections A σ) :=
  (connections.lookup addr).map fun queue =>
    let (expiredCount, queue) := prune timeout now queue
    (⟨expiredCount, queue.getLast?, queue.dropLast.isEmpty⟩, connections.insert addr queue.dropLast)

variable (timeout now : ℕ)

theorem takeEntry_eq {addr : A} {connections : Connections A σ}
    {queue : List (PooledConnection A σ)} (hlookup : connections.lookup addr = some queue)
    (hsorted : queue.Pairwise fun a b => a.lastUsed ≤ b.lastUsed) :
    takeEntry timeout now addr connections =
      let kept := queue.filter fun pc => !pc.isIdle timeout now
      some (⟨queue.countP fun pc => pc.isIdle timeout now, kept.getLast?, kept.dropLast.isEmpty⟩,
        connections.insert addr kept.dropLast) := by
  rw [takeEntry, hlookup, Option.map_some, prune_eq hsorted]

/-- The second pass of `evict_one`: pop the front, if there is one. The flag
says whether the queue is empty then. -/
def popOldest (addr : A) (connections : Connections A σ) :
    Option (PooledConnection A σ × Bool × Connections A σ) :=
  match connections.lookup addr with
  | some (front :: queue) => some (front, queue.isEmpty, connections.insert addr queue)
  | _ => none

/-- `entry(addr).or_default().push_back(pc)`. -/
def pushBack (addr : A) (pc : PooledConnection A σ) (connections : Connections A σ) :
    Connections A σ :=
  connections.insert addr (queue connections addr ++ [pc])

/-- One turn of the iteration of `cleanup`. -/
def visitEntry (timeout now : ℕ) (sweep : Sweep A σ) (addr : A) : Sweep A σ :=
  match sweep.connections.lookup addr with
  | none => sweep
  | some queue =>
    let kept := queue.filter fun pc => !pc.isIdle timeout now
    { removed := sweep.removed + (queue.length - kept.length)
      emptyKeys := if kept.isEmpty then sweep.emptyKeys ++ [addr] else sweep.emptyKeys
      connections := sweep.connections.insert addr kept }

theorem removed_add_size_visitEntry (sweep : Sweep A σ) (addr : A) :
    (visitEntry timeout now sweep addr).removed + size (visitEntry timeout now sweep addr).connections =
      sweep.removed + size sweep.connections := by
  rw [visitEntry]
  split
  · rfl
  next q hlookup =>
    have hsize := size_insert sweep.connections addr (q.filter fun pc => !pc.isIdle timeout now)
    have hle := length_filter_le (fun pc => !pc.isIdle timeout now) q
    rw [queue_of_lookup hlookup] at hsize
    simp only
    omega

theorem queue_visitEntry (sweep : Sweep A σ) (addr k : A) :
    queue (visitEntry timeout now sweep addr).connections k =
      if k = addr then (queue sweep.connections k).filter fun pc => !pc.isIdle timeout now
      else queue sweep.connections k := by
  rw [visitEntry]
  split
  · next hlookup =>
      split
      · next hk => rw [hk, queue_of_lookup_none hlookup, filter_nil]
      · rfl
  next q hlookup =>
    split
    · next hk => rw [hk, queue_insert_self, queue_of_lookup hlookup]
    · next hk => exact queue_insert_of_ne hk

/-- The iteration of `cleanup`, by induction on the entries it has seen. -/
theorem foldl_visitEntry (timeout now : ℕ) (connections : Connections A σ) (seen : List A) :
    let sweep := seen.foldl (visitEntry timeout now) ⟨0, [], connections⟩
    sweep.removed + size sweep.connections = size connections ∧
      ∀ k, queue sweep.connections k =
        if k ∈ seen then (queue connections k).filter fun pc => !pc.isIdle timeout now
        else queue connections k := by
  induction seen using reverseRecOn with
  | nil => exact ⟨Nat.zero_add _, fun k => rfl⟩
  | append_singleton seen addr ih =>
    obtain ⟨hremoved, hqueue⟩ := ih
    rw [foldl_append]
    refine ⟨(removed_add_size_visitEntry ..).trans hremoved, fun k => ?_⟩
    refine (queue_visitEntry ..).trans ?_
    rw [hqueue]
    by_cases hk : k = addr
    · rw [if_pos hk, if_pos (mem_append_right _ (mem_singleton.mpr hk))]
      split
      · simp only [filter_filter, Bool.and_self]
      · rfl
    · simp [hk]

/-- `remove_if(&key, |_k, q| q.is_empty())`. -/
def removeIfEmpty (connections : Connections A σ) (key : A) : Connections A σ :=
  match connections.lookup key with
  | some [] => connections.erase key
  | _ => connections

theorem queue_removeIfEmpty (connections : Connections A σ) (key k : A) :
    queue (removeIfEmpty connections key) k = queue connections k := by
  rw [removeIfEmpty]
  split
  · next hlookup => exact queue_erase_of_queue_eq_nil (queue_of_lookup hlookup)
  · rfl

theorem size_removeIfEmpty (connections : Connections A σ) (key : A) :
    size (removeIfEmpty connections key) = size connections := by
  rw [removeIfEmpty]
  split
  · next hlookup =>
      have hsize := size_erase connections key
      rw [queue_of_lookup hlookup] at hsize
      exact hsize
  · rfl

theorem foldl_removeIfEmpty (keys : List A) (connections : Connections A σ) :
    (∀ k, queue (keys.foldl removeIfEmpty connections) k = queue connections k) ∧
      size (keys.foldl removeIfEmpty connections) = size connections := by
  induction keys generalizing connections with
  | nil => exact ⟨fun _ => rfl, rfl⟩
  | cons key keys ih =>
    obtain ⟨hqueue, hsize⟩ := ih (removeIfEmpty connections key)
    exact ⟨fun k => (hqueue k).trans (queue_removeIfEmpty ..), hsize.trans (size_removeIfEmpty ..)⟩

end Parts

/-! ## The pool -/

structure ConnectionPool (A σ : Type*) where
  maxConnections : ℕ
  idleTimeout : ℕ
  connections : Connections A σ
  /-- A `usize`. -/
  total : ℕ
  max_lt : maxConnections < 2 ^ 64

/-- The order in which the map is iterated, whatever is in it. -/
structure IterOrder (A σ : Type*) where
  visit : Connections A σ → List ((_ : A) × List (PooledConnection A σ))
  perm : ∀ connections, (visit connections).Perm connections.entries

namespace ConnectionPool

def new (maxConnections idleTimeout : ℕ) (max_lt : maxConnections < 2 ^ 64) : ConnectionPool A σ :=
  ⟨maxConnections, idleTimeout, ∅, 0, max_lt⟩

def len (pool : ConnectionPool A σ) : ℕ := pool.total

variable [DecidableEq A]

def get (pool : ConnectionPool A σ) (addr : A) (now : ℕ) : Option σ × ConnectionPool A σ :=
  match takeEntry pool.idleTimeout now addr pool.connections with
  | none => (none, pool)
  | some (taken, connections) =>
    let total :=
      if 0 < taken.expiredCount then wrappingSub 64 pool.total taken.expiredCount else pool.total
    let total := if taken.conn.isSome then wrappingSub 64 total 1 else total
    (taken.conn.map PooledConnection.stream,
      { pool with
        connections := if taken.emptied then connections.erase addr else connections
        total := total })

def evictOne (pool : ConnectionPool A σ) (order : IterOrder A σ) : ConnectionPool A σ :=
  match (order.visit pool.connections).foldl (fun oldest e => consider oldest e.1 e.2) none with
  | none => pool
  | some (addr, _) =>
    match popOldest addr pool.connections with
    | none => pool
    | some (_, emptied, connections) =>
      { pool with
        connections := if emptied then connections.erase addr else connections
        total := wrappingSub 64 pool.total 1 }

def put (pool : ConnectionPool A σ) (addr : A) (stream : σ) (now : ℕ) (order : IterOrder A σ) :
    ConnectionPool A σ :=
  let pool := if pool.maxConnections ≤ pool.total then pool.evictOne order else pool
  { pool with
    connections := pushBack addr ⟨stream, addr, now, now⟩ pool.connections
    total := wrappingAdd 64 pool.total 1 }

def cleanup (pool : ConnectionPool A σ) (now : ℕ) (order : IterOrder A σ) : ConnectionPool A σ :=
  let sweep := (order.visit pool.connections).foldl
    (fun sweep e => visitEntry pool.idleTimeout now sweep e.1) ⟨0, [], pool.connections⟩
  { pool with
    connections := sweep.emptyKeys.foldl removeIfEmpty sweep.connections
    total := if 0 < sweep.removed then wrappingSub 64 pool.total sweep.removed else pool.total }

theorem config_get (pool : ConnectionPool A σ) (addr : A) (now : ℕ) :
    (pool.get addr now).2.maxConnections = pool.maxConnections ∧
      (pool.get addr now).2.idleTimeout = pool.idleTimeout := by
  rw [get]
  split <;> exact ⟨rfl, rfl⟩

theorem config_evictOne (pool : ConnectionPool A σ) (order : IterOrder A σ) :
    (pool.evictOne order).maxConnections = pool.maxConnections ∧
      (pool.evictOne order).idleTimeout = pool.idleTimeout := by
  rw [evictOne]
  split
  · exact ⟨rfl, rfl⟩
  · split <;> exact ⟨rfl, rfl⟩

end ConnectionPool

/-! ## What the pool holds -/

inductive PoolCall (A σ : Type*)
  | put (addr : A) (stream : σ) (now : ℕ) (order : IterOrder A σ)
  | get (addr : A) (now : ℕ)
  | cleanup (now : ℕ) (order : IterOrder A σ)

def PoolCall.now : PoolCall A σ → ℕ
  | .put _ _ now _ => now
  | .get _ now => now
  | .cleanup now _ => now

section Held

variable [DecidableEq A]

def ConnectionPool.step (pool : ConnectionPool A σ) : PoolCall A σ → Option σ × ConnectionPool A σ
  | .put addr stream now order => (none, pool.put addr stream now order)
  | .get addr now => pool.get addr now
  | .cleanup now order => (none, pool.cleanup now order)

/-- The connections for an address that a call at `now` may still use. -/
def fresh (timeout now : ℕ) (addr : A) (held : List (PooledConnection A σ)) :
    List (PooledConnection A σ) :=
  held.filter fun pc => pc.addr = addr ∧ now - pc.lastUsed < timeout

/-- What a `get` leaves: without the expired ones for the address, and without
its last. -/
def heldAfterGet (timeout now : ℕ) (addr : A) (held : List (PooledConnection A σ)) :
    List (PooledConnection A σ) :=
  eraseLastP (fun pc => pc.addr = addr)
    (held.filter fun pc => pc.addr ≠ addr ∨ now - pc.lastUsed < timeout)

/-- **What the pool is for.** The connections held are listed as they were
put. A `put` to a full pool drops one of the oldest, no other `put` any. A
`get` returns the last one put for its address that is not expired, and drops
those that are. -/
inductive HeldStep (maxConnections timeout : ℕ) :
    List (PooledConnection A σ) → PoolCall A σ → Option σ → List (PooledConnection A σ) → Prop
  | put {held : List (PooledConnection A σ)} {addr : A} {stream : σ} {now : ℕ}
      {order : IterOrder A σ} (hroom : held.length < maxConnections) :
      HeldStep maxConnections timeout held (.put addr stream now order) none
        (held ++ [⟨stream, addr, now, now⟩])
  | putFull {earlier later : List (PooledConnection A σ)} {victim : PooledConnection A σ} {addr : A}
      {stream : σ} {now : ℕ} {order : IterOrder A σ}
      (hfull : (earlier ++ victim :: later).length = maxConnections)
      (holdest : ∀ pc ∈ earlier ++ victim :: later, victim.lastUsed ≤ pc.lastUsed) :
      HeldStep maxConnections timeout (earlier ++ victim :: later) (.put addr stream now order) none
        (earlier ++ later ++ [⟨stream, addr, now, now⟩])
  | get {held : List (PooledConnection A σ)} {addr : A} {now : ℕ} :
      HeldStep maxConnections timeout held (.get addr now)
        ((fresh timeout now addr held).getLast?.map PooledConnection.stream)
        (heldAfterGet timeout now addr held)
  | cleanup {held : List (PooledConnection A σ)} {now : ℕ} {order : IterOrder A σ} :
      HeldStep maxConnections timeout held (.cleanup now order) none
        (held.filter fun pc => now - pc.lastUsed < timeout)

inductive HeldRun (maxConnections timeout : ℕ) :
    List (PoolCall A σ × Option σ) → List (PooledConnection A σ) → Prop
  | nil : HeldRun maxConnections timeout [] []
  | concat {log : List (PoolCall A σ × Option σ)} {held held' : List (PooledConnection A σ)}
      {call : PoolCall A σ} {answer : Option σ} (run : HeldRun maxConnections timeout log held)
      (step : HeldStep maxConnections timeout held call answer held') :
      HeldRun maxConnections timeout (log ++ [(call, answer)]) held'

structure Represents (pool : ConnectionPool A σ) (held : List (PooledConnection A σ)) : Prop where
  spread : Spread PooledConnection.addr held pool.connections
  total : pool.total = size pool.connections
  le_max : size pool.connections ≤ pool.maxConnections
  sorted : held.Pairwise fun a b => a.lastUsed ≤ b.lastUsed

namespace Represents

variable {pool : ConnectionPool A σ} {held : List (PooledConnection A σ)} {now : ℕ}
  {pc : PooledConnection A σ} {addr : A}

theorem mem_queue (h : Represents pool held) (hpc : pc ∈ held) :
    pc ∈ queue pool.connections pc.addr := by
  rw [h.spread]
  exact mem_filter.mpr ⟨hpc, decide_eq_true rfl⟩

theorem total_lt (h : Represents pool held) : pool.total < 2 ^ 64 := by
  rw [h.total]
  exact h.le_max.trans_lt pool.max_lt

theorem sorted_queue (h : Represents pool held) (addr : A) :
    (queue pool.connections addr).Pairwise fun a b => a.lastUsed ≤ b.lastUsed := by
  rw [h.spread]
  exact h.sorted.filter _

theorem length_queue_le (h : Represents pool held) (addr : A) :
    (queue pool.connections addr).length ≤ pool.total := by
  rw [h.total, ← size_erase pool.connections addr]
  exact Nat.le_add_left ..

/-- What `get` leaves of a queue; the counter goes down by what the queue
loses. -/
theorem get_eq (h : Represents pool held) {q kept : List (PooledConnection A σ)}
    (hlookup : pool.connections.lookup addr = some q)
    (hkept : (q.filter fun pc => !pc.isIdle pool.idleTimeout now) = kept) :
    pool.get addr now = (kept.getLast?.map PooledConnection.stream,
        { pool with
          connections :=
            if kept.dropLast.isEmpty then (pool.connections.insert addr kept.dropLast).erase addr
            else pool.connections.insert addr kept.dropLast
          total := pool.total - (q.length - kept.dropLast.length) }) := by
  have hq : queue pool.connections addr = q := queue_of_lookup hlookup
  have hle := h.length_queue_le addr
  have hlength := countP_add_length_filter_not (fun pc => pc.isIdle pool.idleTimeout now) q
  rw [hkept] at hlength
  rw [hq, ← hlength] at hle
  rw [ConnectionPool.get, takeEntry_eq pool.idleTimeout now hlookup (hq ▸ h.sorted_queue addr),
    hkept]
  simp only
  rw [counter_get hle h.total_lt, hlength]

theorem get_spec (h : Represents pool held) (addr : A) (now : ℕ) :
    let kept := (queue pool.connections addr).filter fun pc => !pc.isIdle pool.idleTimeout now
    (pool.get addr now).1 = kept.getLast?.map PooledConnection.stream ∧
      queue (pool.get addr now).2.connections addr = kept.dropLast ∧
      (∀ k, k ≠ addr → queue (pool.get addr now).2.connections k = queue pool.connections k) ∧
      (pool.get addr now).2.total = size (pool.get addr now).2.connections ∧
      size (pool.get addr now).2.connections ≤ size pool.connections := by
  intro kept
  cases hlookup : pool.connections.lookup addr with
  | none =>
    have hnil : kept = [] := by
      show filter _ (queue pool.connections addr) = []
      rw [queue_of_lookup_none hlookup]
      rfl
    have hget : pool.get addr now = (none, pool) := by
      rw [ConnectionPool.get, takeEntry, hlookup]
      rfl
    rw [hget, hnil]
    exact ⟨rfl, queue_of_lookup_none hlookup, fun _ _ => rfl, h.total, le_rfl⟩
  | some q =>
    have hq : queue pool.connections addr = q := queue_of_lookup hlookup
    have hkept : (q.filter fun pc => !pc.isIdle pool.idleTimeout now) = kept := by rw [← hq]
    rw [h.get_eq hlookup hkept]
    have hempty : kept.dropLast.isEmpty =
        (queue (pool.connections.insert addr kept.dropLast) addr).isEmpty := by
      rw [queue_insert_self]
    have hsize := size_insert pool.connections addr kept.dropLast
    have hshorter : kept.dropLast.length ≤ q.length := by
      rw [← hkept, length_dropLast]
      exact (Nat.sub_le _ _).trans (length_filter_le _ _)
    have htotal := h.total
    have hle := h.length_queue_le addr
    rw [hq] at hsize hle
    refine ⟨rfl, ?_, fun k hk => ?_, ?_, ?_⟩
    · rw [queue_ite_erase hempty, queue_insert_self]
    · rw [queue_ite_erase hempty, queue_insert_of_ne hk]
    · rw [size_ite_erase hempty]
      show pool.total - _ = _
      omega
    · rw [size_ite_erase hempty]
      omega

theorem heldAfterGet_sublist (timeout now : ℕ) (addr : A) (held : List (PooledConnection A σ)) :
    (heldAfterGet timeout now addr held).Sublist held :=
  (eraseLastP_sublist _ _).trans filter_sublist

theorem get (h : Represents pool held) (addr : A) (now : ℕ) :
    HeldStep pool.maxConnections pool.idleTimeout held (.get addr now) (pool.get addr now).1
        (heldAfterGet pool.idleTimeout now addr held) ∧
      Represents (pool.get addr now).2 (heldAfterGet pool.idleTimeout now addr held) := by
  obtain ⟨hanswer, hself, hother, htotal, hle⟩ := h.get_spec addr now
  have hfresh : ((queue pool.connections addr).filter fun pc => !pc.isIdle pool.idleTimeout now) =
      (queue pool.connections addr).filter fun pc => now - pc.lastUsed < pool.idleTimeout :=
    filter_congr fun pc _ => pc.not_isIdle _ _
  rw [hfresh] at hanswer hself
  constructor
  · have hlast : ((queue pool.connections addr).filter fun pc =>
        now - pc.lastUsed < pool.idleTimeout) = fresh pool.idleTimeout now addr held := by
      rw [h.spread, filter_filter, fresh]
      exact filter_congr fun pc _ => by rw [Bool.and_comm, ← Bool.decide_and]
    rw [hanswer, hlast]
    exact .get
  -- first without what is expired, then without the last
  have hfiltered : Spread PooledConnection.addr
      (held.filter fun pc => pc.addr ≠ addr ∨ now - pc.lastUsed < pool.idleTimeout)
      (pool.connections.insert addr ((queue pool.connections addr).filter fun pc =>
        now - pc.lastUsed < pool.idleTimeout)) :=
    h.spread.filterAt queue_insert_self fun k hk => queue_insert_of_ne hk
  refine ⟨hfiltered.eraseLast ?_ fun k hk => ?_, htotal, ?_, ?_⟩
  · rw [hself, queue_insert_self]
  · rw [hother k hk, queue_insert_of_ne hk]
  · rw [(ConnectionPool.config_get ..).1]
    exact hle.trans h.le_max
  · exact h.sorted.sublist (heldAfterGet_sublist ..)

theorem exists_visited (h : Represents pool held) (order : IterOrder A σ) (hpc : pc ∈ held) :
    ∃ e ∈ order.visit pool.connections, pc ∈ e.2 ∧
      e.2.Pairwise fun a b => a.lastUsed ≤ b.lastUsed := by
  have hmem := h.mem_queue hpc
  have hlookup := lookup_of_queue_ne_nil (ne_nil_of_mem hmem)
  refine ⟨⟨pc.addr, queue pool.connections pc.addr⟩, ?_, hmem, h.sorted_queue pc.addr⟩
  exact (order.perm _).mem_iff.mpr (AList.mem_lookup_iff.mp hlookup)

theorem popFront (h : Represents pool held) {front : PooledConnection A σ}
    {rest : List (PooledConnection A σ)} (hqueue : queue pool.connections addr = front :: rest) :
    ∃ earlier later, held = earlier ++ front :: later ∧ Represents
        { pool with
          connections :=
            if rest.isEmpty then (pool.connections.insert addr rest).erase addr
            else pool.connections.insert addr rest
          total := wrappingSub 64 pool.total 1 } (earlier ++ later) := by
  have hfilter : (held.filter fun pc => pc.addr = addr) = front :: rest := by rw [← h.spread, hqueue]
  have hfront : front ∈ held.filter fun pc => pc.addr = addr := by
    rw [hfilter]
    exact mem_cons_self
  obtain ⟨hmem, haddr⟩ := mem_filter.mp hfront
  obtain ⟨first, earlier, later, hearlier, hfirst, hsplit, herase⟩ :=
    exists_of_eraseP (p := fun pc => decide (pc.addr = addr)) hmem haddr
  -- the first for the address is the front of its queue
  have heq : first = front := by
    have hnone : (earlier.filter fun pc => pc.addr = addr) = [] :=
      filter_eq_nil_iff.mpr hearlier
    rw [hsplit, filter_append, hnone, nil_append, filter_cons_of_pos (by exact hfirst)] at hfilter
    exact (cons.inj hfilter).1
  subst heq
  have hempty : rest.isEmpty = (queue (pool.connections.insert addr rest) addr).isEmpty := by
    rw [queue_insert_self]
  have hsize := size_insert pool.connections addr rest
  have hle := h.length_queue_le addr
  have htotal := h.total
  have hmax := h.le_max
  rw [hqueue, length_cons] at hsize hle
  refine ⟨earlier, later, hsplit, ?_, ?_, ?_, ?_⟩
  · rw [← herase]
    refine h.spread.eraseFirst ?_ fun k hk => ?_
    · rw [queue_ite_erase hempty, queue_insert_self, hqueue, tail_cons]
    · rw [queue_ite_erase hempty, queue_insert_of_ne hk]
  · show wrappingSub 64 pool.total 1 = _
    rw [size_ite_erase hempty, wrappingSub_of_le (by omega) h.total_lt]
    omega
  · show size _ ≤ pool.maxConnections
    rw [size_ite_erase hempty]
    omega
  · rw [hsplit] at h
    exact h.sorted.sublist ((List.Sublist.refl _).append (sublist_cons_self ..))

theorem evictOne (h : Represents pool held) (order : IterOrder A σ) (hheld : held ≠ []) :
    ∃ earlier victim later, held = earlier ++ victim :: later ∧
      (∀ pc ∈ held, victim.lastUsed ≤ pc.lastUsed) ∧
      Represents (pool.evictOne order) (earlier ++ later) := by
  have hpass := oldestOf_foldl_consider (order.visit pool.connections)
  rw [ConnectionPool.evictOne]
  cases holdest : (order.visit pool.connections).foldl
      (fun oldest e => consider oldest e.1 e.2) none with
  | none =>
    -- not every queue is empty
    rw [holdest] at hpass
    obtain ⟨pc, hpc⟩ := exists_mem_of_ne_nil held hheld
    obtain ⟨e, he, hmem, _⟩ := h.exists_visited order hpc
    rw [hpass e he] at hmem
    cases hmem
  | some found =>
    obtain ⟨addr, oldestTime⟩ := found
    rw [holdest] at hpass
    obtain ⟨⟨front, rest, hvisited, htime⟩, hfirst⟩ := hpass
    have hlookup : pool.connections.lookup addr = some (front :: rest) :=
      AList.mem_lookup_iff.mpr ((order.perm _).mem_iff.mp hvisited)
    have hpop : popOldest addr pool.connections =
        some (front, rest.isEmpty, pool.connections.insert addr rest) := by
      rw [popOldest, hlookup]
    obtain ⟨earlier, later, hsplit, hrep⟩ := h.popFront (queue_of_lookup hlookup)
    refine ⟨earlier, front, later, hsplit, ?_, ?_⟩
    · intro pc hpc
      obtain ⟨e, he, hmem, hsorted⟩ := h.exists_visited order hpc
      cases hq : e.2 with
      | nil =>
        rw [hq] at hmem
        cases hmem
      | cons front' rest' =>
        have hhead := hfirst e he front' (by rw [hq]; rfl)
        rw [hq] at hmem hsorted
        rcases mem_cons.mp hmem with rfl | hmem
        · omega
        · have := (pairwise_cons.mp hsorted).1 pc hmem
          omega
    · simp only [hpop]
      exact hrep

theorem push (h : Represents pool held) (addr : A) (stream : σ)
    (hroom : held.length < pool.maxConnections) (hclock : ∀ pc ∈ held, pc.lastUsed ≤ now) :
    Represents
      { pool with
        connections := pushBack addr ⟨stream, addr, now, now⟩ pool.connections
        total := wrappingAdd 64 pool.total 1 } (held ++ [⟨stream, addr, now, now⟩]) := by
  have hsize : size (pushBack addr ⟨stream, addr, now, now⟩ pool.connections) =
      size pool.connections + 1 := by
    have hinsert := size_insert pool.connections addr
      (queue pool.connections addr ++ [⟨stream, addr, now, now⟩])
    rw [length_append, length_singleton] at hinsert
    rw [pushBack]
    omega
  have hheld := h.spread.size_eq
  have htotal := h.total
  have hlt := pool.max_lt
  refine ⟨h.spread.concat ⟨stream, addr, now, now⟩, ?_, ?_, ?_⟩
  · rw [hsize, wrappingAdd_of_lt (by omega), htotal]
  · show size _ ≤ pool.maxConnections
    rw [hsize]
    omega
  · refine pairwise_append.mpr ⟨h.sorted, pairwise_singleton _ _, ?_⟩
    intro pc hpc pc' hpc'
    rw [mem_singleton.mp hpc']
    exact hclock pc hpc

theorem put (h : Represents pool held) (addr : A) (stream : σ) (order : IterOrder A σ)
    (hmax : 1 ≤ pool.maxConnections) (hclock : ∀ pc ∈ held, pc.lastUsed ≤ now) :
    ∃ held', HeldStep pool.maxConnections pool.idleTimeout held (.put addr stream now order) none
        held' ∧
      Represents (pool.put addr stream now order) held' ∧
      ∀ pc ∈ held', pc ∈ held ∨ pc.lastUsed = now := by
  have hheld := h.spread.size_eq
  have htotal := h.total
  have hle := h.le_max
  have hput {held : List (PooledConnection A σ)} (pc : PooledConnection A σ)
      (hpc : pc ∈ held ++ [⟨stream, addr, now, now⟩]) : pc ∈ held ∨ pc.lastUsed = now := by
    refine (mem_append.mp hpc).imp_right fun hnew => ?_
    rw [mem_singleton.mp hnew]
  rw [ConnectionPool.put]
  by_cases hfull : pool.maxConnections ≤ pool.total
  · rw [if_pos hfull]
    have hne : held ≠ [] := by
      rintro rfl
      rw [length_nil] at hheld
      omega
    obtain ⟨earlier, victim, later, rfl, holdest, hrep⟩ := h.evictOne order hne
    have hlength : (earlier ++ later).length + 1 = (earlier ++ victim :: later).length := by
      simp only [length_append, length_cons]
      omega
    have hsub : ∀ pc ∈ earlier ++ later, pc ∈ earlier ++ victim :: later := fun pc hpc =>
      ((List.Sublist.refl _).append (sublist_cons_self ..)).subset hpc
    have hmaxeq := (pool.config_evictOne order).1
    refine ⟨_, .putFull (by omega) holdest, ?_, fun pc hpc => (hput pc hpc).imp_left (hsub pc)⟩
    refine hrep.push addr stream ?_ fun pc hpc => hclock pc (hsub pc hpc)
    rw [hmaxeq]
    omega
  · rw [if_neg hfull]
    exact ⟨_, .put (by omega), h.push addr stream (by omega) hclock, hput⟩

theorem cleanup (h : Represents pool held) (now : ℕ) (order : IterOrder A σ) :
    Represents (pool.cleanup now order)
      (held.filter fun pc => now - pc.lastUsed < pool.idleTimeout) := by
  have hfold : (order.visit pool.connections).foldl
      (fun sweep e => visitEntry pool.idleTimeout now sweep e.1) ⟨0, [], pool.connections⟩ =
        ((order.visit pool.connections).map Sigma.fst).foldl (visitEntry pool.idleTimeout now)
          ⟨0, [], pool.connections⟩ := foldl_map.symm
  obtain ⟨hremoved, hqueue⟩ := foldl_visitEntry pool.idleTimeout now pool.connections
    ((order.visit pool.connections).map Sigma.fst)
  rw [← hfold] at hremoved hqueue
  rw [ConnectionPool.cleanup]
  generalize (order.visit pool.connections).foldl
    (fun sweep e => visitEntry pool.idleTimeout now sweep e.1) ⟨0, [], pool.connections⟩ = sweep
    at hremoved hqueue ⊢
  obtain ⟨hempty, hsize⟩ := foldl_removeIfEmpty sweep.emptyKeys sweep.connections
  have hlt := h.total_lt
  have htotal := h.total
  have hle := h.le_max
  refine ⟨h.spread.filter fun k => ?_, ?_, ?_, h.sorted.filter _⟩
  · have hfresh : ((queue pool.connections k).filter fun pc => !pc.isIdle pool.idleTimeout now) =
        (queue pool.connections k).filter fun pc => now - pc.lastUsed < pool.idleTimeout :=
      filter_congr fun pc _ => pc.not_isIdle _ _
    rw [hempty, hqueue, ← hfresh]
    split
    · rfl
    next hunseen =>
      -- a queue that the iteration does not come to is empty
      have hnil : queue pool.connections k = [] := by
        by_contra hne
        refine hunseen (mem_map.mpr ⟨⟨k, queue pool.connections k⟩, ?_, rfl⟩)
        exact (order.perm _).mem_iff.mpr (AList.mem_lookup_iff.mp (lookup_of_queue_ne_nil hne))
      rw [hnil, filter_nil]
  · show (if 0 < sweep.removed then wrappingSub 64 pool.total sweep.removed else pool.total) = _
    rw [hsize]
    split
    · rw [wrappingSub_of_le (by omega) hlt]
      omega
    · omega
  · show size (sweep.emptyKeys.foldl removeIfEmpty sweep.connections) ≤ pool.maxConnections
    rw [hsize]
    omega

/-- One call, at a time that is not before the last use of a connection. -/
theorem step (h : Represents pool held) (hmax : 1 ≤ pool.maxConnections) (call : PoolCall A σ)
    (hclock : ∀ pc ∈ held, pc.lastUsed ≤ call.now) :
    ∃ held', HeldStep pool.maxConnections pool.idleTimeout held call (pool.step call).1 held' ∧
      Represents (pool.step call).2 held' ∧
      ∀ pc ∈ held', pc ∈ held ∨ pc.lastUsed = call.now := by
  cases call with
  | put addr stream now order => exact h.put addr stream order hmax hclock
  | get addr now =>
    obtain ⟨hstep, hrep⟩ := h.get addr now
    exact ⟨_, hstep, hrep, fun pc hpc => .inl ((heldAfterGet_sublist ..).subset hpc)⟩
  | cleanup now order =>
    exact ⟨_, .cleanup, h.cleanup now order, fun pc hpc => .inl (mem_filter.mp hpc).1⟩

end Represents

theorem ConnectionPool.config_step (pool : ConnectionPool A σ) (call : PoolCall A σ) :
    (pool.step call).2.maxConnections = pool.maxConnections ∧
      (pool.step call).2.idleTimeout = pool.idleTimeout := by
  cases call with
  | put addr stream now order =>
    show ((if _ then pool.evictOne order else pool).maxConnections = _) ∧
      ((if _ then pool.evictOne order else pool).idleTimeout = _)
    split
    · exact pool.config_evictOne order
    · exact ⟨rfl, rfl⟩
  | get addr now => exact pool.config_get addr now
  | cleanup now order => exact ⟨rfl, rfl⟩

def ConnectionPool.after (maxConnections idleTimeout : ℕ) (max_lt : maxConnections < 2 ^ 64)
    (calls : List (PoolCall A σ)) : ConnectionPool A σ :=
  (record ConnectionPool.step (.new maxConnections idleTimeout max_lt) calls).2

theorem ConnectionPool.config_after (maxConnections idleTimeout : ℕ)
    (max_lt : maxConnections < 2 ^ 64) (calls : List (PoolCall A σ)) :
    (after maxConnections idleTimeout max_lt calls).maxConnections = maxConnections ∧
      (after maxConnections idleTimeout max_lt calls).idleTimeout = idleTimeout := by
  induction calls using reverseRecOn with
  | nil => exact ⟨rfl, rfl⟩
  | append_singleton calls call ih =>
    rw [after, record_concat]
    obtain ⟨hmax, htimeout⟩ := config_step (after maxConnections idleTimeout max_lt calls) call
    exact ⟨hmax.trans ih.1, htimeout.trans ih.2⟩

theorem represents_after {maxConnections idleTimeout : ℕ} (hmax : 1 ≤ maxConnections)
    (max_lt : maxConnections < 2 ^ 64) (calls : List (PoolCall A σ))
    (hclock : (calls.map PoolCall.now).Pairwise (· ≤ ·)) :
    ∃ held, HeldRun maxConnections idleTimeout
        (record ConnectionPool.step (.new maxConnections idleTimeout max_lt) calls).1 held ∧
      Represents (ConnectionPool.after maxConnections idleTimeout max_lt calls) held ∧
      ∀ pc ∈ held, pc.lastUsed ∈ calls.map PoolCall.now := by
  induction calls using reverseRecOn with
  | nil =>
    exact ⟨[], .nil, ⟨spread_nil, rfl, Nat.zero_le _, List.Pairwise.nil⟩, fun pc hpc => nomatch hpc⟩
  | append_singleton calls call ih =>
    rw [map_append, map_singleton] at hclock ⊢
    obtain ⟨hbefore, -, hlast⟩ := pairwise_append.mp hclock
    obtain ⟨held, hrun, hrep, htimes⟩ := ih hbefore
    obtain ⟨hconfig, htimeout⟩ :=
      ConnectionPool.config_after maxConnections idleTimeout max_lt calls
    obtain ⟨held', hstep, hrep', hfrom⟩ := hrep.step (hmax.trans_eq hconfig.symm) call fun pc hpc =>
      hlast _ (htimes pc hpc) _ (mem_singleton_self _)
    rw [hconfig, htimeout] at hstep
    refine ⟨held', ?_, ?_, ?_⟩
    · rw [record_concat]
      exact hrun.concat hstep
    · rw [ConnectionPool.after, record_concat]
      exact hrep'
    · intro pc hpc
      rcases hfrom pc hpc with hold | hnew
      · exact mem_append_left _ (htimes pc hold)
      · exact mem_append_right _ (mem_singleton.mpr hnew)

/-- **The pool, one call at a time**, does what `HeldStep` says; the counter
is the number of connections, never above the maximum. -/
theorem pool_refines_held (maxConnections idleTimeout : ℕ) (hmax : 1 ≤ maxConnections)
    (max_lt : maxConnections < 2 ^ 64) (calls : List (PoolCall A σ))
    (hclock : (calls.map PoolCall.now).Pairwise (· ≤ ·)) :
    let pool := ConnectionPool.after maxConnections idleTimeout max_lt calls
    ∃ held, HeldRun maxConnections idleTimeout
        (record ConnectionPool.step (.new maxConnections idleTimeout max_lt) calls).1 held ∧
      (∀ addr, queue pool.connections addr = held.filter fun pc => pc.addr = addr) ∧
      pool.len = size pool.connections ∧ size pool.connections = held.length ∧
      held.length ≤ maxConnections := by
  obtain ⟨held, hrun, hrep, -⟩ := represents_after hmax max_lt calls hclock
  have hsize := hrep.spread.size_eq
  have hle := hrep.le_max
  rw [(ConnectionPool.config_after ..).1, hsize] at hle
  exact ⟨held, hrun, hrep.spread, hrep.total, hsize, hle⟩

/-- The order of the association list itself. -/
def IterOrder.asStored : IterOrder A σ := ⟨fun connections => connections.entries, fun _ => .refl _⟩

theorem one_lt_word : 1 < 2 ^ 64 := by decide

/-- Two connections into a pool for one. -/
theorem pool_refines_held_one : ∃ held, HeldRun 1 60
        (record ConnectionPool.step (.new 1 60 one_lt_word)
          [.put 8080 "a" 0 .asStored, .put 8081 "b" 5 .asStored, .get 8081 6]).1 held ∧
      held.length ≤ 1 := by
  obtain ⟨held, hrun, -, -, -, hle⟩ := pool_refines_held 1 60 le_rfl one_lt_word
    [.put 8080 "a" 0 .asStored, .put 8081 "b" 5 .asStored, .get 8081 6] (by decide)
  exact ⟨held, hrun, hle⟩

end Held

end VarahaCache.Backend
