import VarahaCache.Cache.History

/-!
# What a lookup and an expiry pass may be trusted with

Over whole histories, a lookup answers with live objects of the right age,
matched against the request (`run_sound`). The two cleanup paths drop WHOLE
digests: a lookup that finds nothing for its own request drops the variants of
every other, and an expiry pass every variant of a digest with a due entry.
When each does no harm is `lookup_frame` and `expireObjects_exact`.
-/

namespace VarahaCache.CacheEngine

open Lib

variable {σ : Type} {stv : Stevedore σ} {now : VtimReal} {o : ObjCore}

theorem lookup_fst (e : CacheEngine σ) (now : VtimReal) (digest : Digest)
    (headers : Option HeaderMap) :
    (e.lookup now digest headers).1 = scanVariants now headers (e.variants digest) none := by
  unfold lookup variants
  cases e.objects.lookup digest with
  | none => rfl
  | some variants =>
    dsimp only [Option.getD_some]
    rcases scanVariants_cases now headers variants with ⟨oc, hs⟩ | ⟨oc, hs⟩ | hs
    all_goals rw [hs]

/-! ## Lookups -/

/-- **Cache soundness**, after any calls on an empty engine. A lookup that no
call comes after in time answers with a live object whose Vary data suits the
request: on a hit within its ttl, on a grace hit past it, within ttl + grace
and with no suitable stored variant within ttl. The map and the tracker hold
the same digests, none with an empty list. -/
theorem run_sound (stv : Stevedore σ) (storage : σ) (maxObjects : Nat) (calls : List Call) :
    let log := (run stv storage maxObjects calls).1.map logEntry
    let e := (run stv storage maxObjects calls).2
    (∀ now d headers, (∀ c ∈ calls, c.time ≤ now) →
      (∀ o, (e.lookup now d headers).1 = .hit o →
        Live log d o ∧ VaryAccepts headers o ∧
          o.tOrigin ≤ now ∧ now ≤ o.tOrigin + o.ttl) ∧
      (∀ o, (e.lookup now d headers).1 = .grace o →
        Live log d o ∧ VaryAccepts headers o ∧
          o.tOrigin + o.ttl < now ∧ now < o.tOrigin + o.ttl + o.grace ∧
          ∀ v ∈ e.variants d, VaryAccepts headers v → v.tOrigin + v.ttl < now)) ∧
    (∀ d, d ∈ e.objects ↔ e.lru.Tracks d) ∧
    (∀ d, e.objects.lookup d ≠ some []) := by
  have href := run_refines stv storage maxObjects calls
  refine ⟨?_, href.inv.tracked, href.inv.nonempty⟩
  intro now d headers htime
  refine ⟨?_, ?_⟩
  · intro o h
    rw [lookup_fst] at h
    obtain ⟨hmem, hvary, heval⟩ := scanVariants_hit h
    obtain ⟨c, hc, hborn⟩ := href.born d o hmem
    refine ⟨(href.live d o).mp hmem, varySkips_eq_false_iff.mp hvary, ?_, ?_⟩
    · rw [← hborn]
      exact htime c hc
    · exact (evaluateObject_hit heval).2
  intro o h
  rw [lookup_fst] at h
  obtain ⟨hmem, ⟨hvary, heval⟩, hnone⟩ := scanVariants_grace h
  obtain ⟨_, hpast, hwithin⟩ := evaluateObject_grace heval
  refine ⟨(href.live d o).mp hmem, varySkips_eq_false_iff.mp hvary, hpast, hwithin, ?_⟩
  intro v hv haccept
  by_contra hnot
  -- an unflagged suitable variant within its ttl would have been the hit
  apply hnone v hv
  refine ⟨varySkips_eq_false_iff.mpr haccept, ?_⟩
  rw [evaluateObject_of_no_flags (href.inv.unflagged d v hv), if_pos (not_lt.mp hnot)]

def digestZero : Digest := ⟨.replicate 32 0⟩

def oneInsert : List Call := [⟨0, .insert digestZero [104, 105] .default none⟩]

theorem run_sound_after_insert : let o := newObject 0 0 digestZero [104, 105] .default none
    ((run .unlimited () 10 oneInsert).2.lookup 60 digestZero none).1 = .hit o ∧
      Live ((run .unlimited () 10 oneInsert).1.map logEntry) digestZero o := by
  have hhit : ((run .unlimited () 10 oneInsert).2.lookup 60 digestZero none).1 =
      .hit (newObject 0 0 digestZero [104, 105] .default none) := by decide +kernel
  refine ⟨hhit, ?_⟩
  have hsound := (run_sound .unlimited () 10 oneInsert).1 60 digestZero none (by decide +kernel)
  exact (hsound.1 _ hhit).1

theorem variants_lookup (e : CacheEngine σ) (now : VtimReal) (digest : Digest)
    (headers : Option HeaderMap) :
    (e.lookup now digest headers).2.variants digest =
      if scanVariants now headers (e.variants digest) none = .miss then []
      else e.variants digest := by
  unfold lookup variants
  cases hv : e.objects.lookup digest with
  | none => simp [hv]
  | some variants =>
    rcases scanVariants_cases now headers variants with ⟨oc, hs⟩ | ⟨oc, hs⟩ | hs
    all_goals simp [hs, hv]

/-- **When a lookup leaves the other requests alone**: every hit of `h₂` is
the same hit after a lookup for `h₁` EXACTLY when some variant is good for
`h₁`, fresh or in grace, or `h₂` had nothing to hit. -/
theorem lookup_frame (e : CacheEngine σ) (now : VtimReal) (d : Digest) (h₁ h₂ : Option HeaderMap) :
    (∀ o, (e.lookup now d h₂).1 = .hit o →
      ((e.lookup now d h₁).2.lookup now d h₂).1 = .hit o) ↔
    (∃ v ∈ e.variants d, Fresh now h₁ v ∨ Stale now h₁ v) ∨
      ∀ v ∈ e.variants d, ¬ Fresh now h₂ v := by
  simp only [lookup_fst, variants_lookup]
  by_cases hmiss : scanVariants now h₁ (e.variants d) none = .miss
  · -- the digest is gone: only requests without a hit are unharmed
    have hnone : ¬ ∃ v ∈ e.variants d, Fresh now h₁ v ∨ Stale now h₁ v := by
      intro h
      obtain ⟨v, hv, hgood⟩ := h
      have := scanVariants_miss_iff.mp hmiss v hv
      tauto
    rw [if_pos hmiss, or_iff_right hnone]
    constructor
    · intro h v hv hfresh
      obtain ⟨o, ho⟩ := scanVariants_hit_iff_fresh.mpr ⟨v, hv, hfresh⟩
      cases h o ho
    intro h o ho
    obtain ⟨hmem, hfresh⟩ := scanVariants_hit ho
    exact absurd hfresh (h o hmem)
  · rw [if_neg hmiss]
    refine iff_of_true (fun o ho => ho) (.inl ?_)
    by_contra hnone
    push Not at hnone
    exact hmiss (scanVariants_miss_iff.mpr hnone)

def acceptEncoding (coding : String) : HeaderMap := HeaderMap.new.set "Accept-Encoding" coding

def gzipVariant : List Call := [⟨0, .insert digestZero [104, 105] .default
    (VaryMatcher.buildVaryData "Accept-Encoding" (acceptEncoding "gzip"))⟩]

/-- A request for brotli finds nothing, and takes the gzip variant away. -/
theorem lookup_frame_fails : let e := (run .unlimited () 10 gzipVariant).2
    (∃ o, (e.lookup 1 digestZero (some (acceptEncoding "gzip"))).1 = .hit o) ∧
      ((e.lookup 1 digestZero (some (acceptEncoding "br"))).2.lookup 1 digestZero
        (some (acceptEncoding "gzip"))).1 = .miss := by
  refine ⟨⟨newObject 0 0 digestZero [104, 105] .default
    (VaryMatcher.buildVaryData "Accept-Encoding" (acceptEncoding "gzip")), ?_⟩, ?_⟩
  · decide +kernel
  · decide +kernel

theorem fresh_none_iff (hf : o.flags = .empty) : Fresh now none o ↔ now ≤ o.tOrigin + o.ttl := by
  unfold Fresh
  rw [evaluateObject_of_no_flags hf]
  by_cases hfresh : now ≤ o.tOrigin + o.ttl
  · simp [varySkips, hfresh]
  · by_cases hgrace : now < o.tOrigin + o.ttl + o.grace <;> simp [hfresh, hgrace]

variable {e : CacheEngine σ} {d : Digest} {oc : ObjCore}

/-- The oldest object of a digest answers a lookup without headers while it is
within its ttl, or within its grace and nothing of the digest is within ttl.
-/
theorem lookup_oldest_iff (hinv : Inv e) (hold : Oldest e d oc) (now : VtimReal) :
    ((e.lookup now d none).1 = .hit oc ∨ (e.lookup now d none).1 = .grace oc) ↔
      oc ∈ e.variants d ∧ (now ≤ oc.tOrigin + oc.ttl ∨
        (now < oc.tOrigin + oc.ttl + oc.grace ∧ ∀ v ∈ e.variants d, v.tOrigin + v.ttl < now)) := by
  rw [lookup_fst]
  constructor
  · intro hanswer
    rcases hanswer with h | h
    · obtain ⟨hmem, _, heval⟩ := scanVariants_hit h
      exact ⟨hmem, .inl (evaluateObject_hit heval).2⟩
    obtain ⟨hmem, ⟨_, heval⟩, hnone⟩ := scanVariants_grace h
    refine ⟨hmem, .inr ⟨(evaluateObject_grace heval).2.2, ?_⟩⟩
    intro v hv
    rw [← not_le, ← fresh_none_iff (hinv.unflagged d v hv)]
    exact hnone v hv
  intro h
  obtain ⟨hmem, hage⟩ := h
  have hflags := hinv.unflagged d oc hmem
  obtain ⟨rest, hrest⟩ : ∃ rest, e.variants d = oc :: rest := by
    have hfirst := hold.first hmem
    cases hv : e.variants d with
    | nil => simp [hv] at hmem
    | cons v rest =>
      rw [hv] at hfirst
      cases hfirst
      exact ⟨rest, rfl⟩
  rw [scanVariants_eq]
  rcases hage with hfresh | ⟨hgrace, hstale⟩
  · left
    rw [hrest, List.find?_cons_of_pos (by simpa using (fresh_none_iff hflags).mpr hfresh)]
  right
  have hnone : (e.variants d).find? (Fresh now none ·) = none := by
    rw [List.find?_eq_none]
    intro v hv
    simpa [fresh_none_iff (hinv.unflagged d v hv)] using hstale v hv
  have heval : Stale now none oc := by
    refine ⟨rfl, ?_⟩
    rw [evaluateObject_of_no_flags hflags, if_neg (not_le.mpr (hstale oc hmem)), if_pos hgrace]
  rw [hnone, hrest, List.find?_cons_of_pos (by simpa using heval)]
  rfl

/-! ## Reading back -/

/-- The call neither drops the digest nor stores anything under it. -/
def Spares (stv : Stevedore σ) (d : Digest) (e : CacheEngine σ) (c : Call) : Prop :=
  d ∉ dropped c.op (e.step stv c).1 ∧ ∀ o, stored c.op (e.step stv c).1 ≠ some (d, o)

theorem Spares.variants_eq {c : Call} (h : Spares stv d e c)
    (ht : e.Tracked) : (e.step stv c).2.variants d = e.variants d := by
  rw [(step_effect stv ht c).variants_eq, if_neg h.1]
  cases hput : stored c.op (e.step stv c).1 with
  | none => simp
  | some put =>
    obtain ⟨d', o⟩ := put
    have hd : o.digest ≠ d := by
      intro hd
      refine h.2 o ?_
      rw [hput, ← hd, (stored_step hput).1]
    simp [hd]

theorem variants_of_spared (hreached : Reached stv e)
    {calls : List Call} (hspared : Guarded (CacheEngine.step stv) (Spares stv d) e calls) :
    (record (CacheEngine.step stv) e calls).2.variants d = e.variants d := by
  refine (guarded_induction (CacheEngine.step stv)
    (P := fun e' => Reached stv e' ∧ e'.variants d = e.variants d) ?_ ⟨hreached, rfl⟩ hspared).2
  intro e' c h hok
  exact ⟨h.1.step c, (hok.variants_eq h.1.inv.tracked).trans h.2⟩

/-- The older variants that an insertion leaves under its digest. -/
def older (stv : Stevedore σ) (e : CacheEngine σ) (d : Digest) : List ObjCore :=
  if d ∈ (enforceCapacity stv e).1 then [] else e.variants d

theorem scanVariants_concat_hit_iff {variants : List ObjCore}
    {headers : Option HeaderMap} (hnew : oc ∉ variants) :
    scanVariants now headers (variants ++ [oc]) none = .hit oc ↔
      Fresh now headers oc ∧ ∀ v ∈ variants, ¬ Fresh now headers v := by
  rw [scanVariants_eq, List.find?_append]
  cases hf : variants.find? (Fresh now headers ·) with
  | some v =>
    -- an older fresh variant answers, and it is not the new one
    have hv := List.mem_of_find?_eq_some hf
    have hfresh : Fresh now headers v := by simpa using List.find?_some hf
    refine iff_of_false ?_ fun h => h.2 v hv hfresh
    intro hhit
    cases hhit
    exact hnew hv
  | none =>
    have hnone : ∀ v ∈ variants, ¬ Fresh now headers v := by simpa using hf
    rw [and_iff_left hnone, Option.none_or]
    by_cases hfresh : Fresh now headers oc
    · simp [hfresh]
    refine iff_of_false ?_ hfresh
    rw [List.find?_cons_of_neg (by simpa using hfresh), List.find?_nil]
    dsimp only
    split <;> exact CacheLookupResult.noConfusion

/-- **When an insertion is read back**: the object stored for the request
headers `h` answers a lookup for `h` within its ttl, whatever calls that spare
the digest come in between, EXACTLY when its Vary data matches `h` and no older
variant of the digest is good for `h` and still fresh. -/
theorem lookup_inserted_iff (stv : Stevedore σ) (e : CacheEngine σ) (hreached : Reached stv e)
    (now : VtimReal) (d : Digest) (body : List UInt8) (ttlInfo : TtlInfo)
    (responseVary : Option String) (h : HeaderMap) (oc : ObjCore)
    (hok : (e.insert stv now d body ttlInfo (VaryMatcher.buildVaryData responseVary h)).1.2 = .ok oc)
    (calls : List Call)
    (hspared : Guarded (CacheEngine.step stv) (Spares stv d)
      (e.insert stv now d body ttlInfo (VaryMatcher.buildVaryData responseVary h)).2 calls)
    (time : VtimReal) (hage : time < now + ttlInfo.ttl) :
    ((record (CacheEngine.step stv)
        (e.insert stv now d body ttlInfo (VaryMatcher.buildVaryData responseVary h)).2
        calls).2.lookup time d (some h)).1 = .hit oc ↔
      (∀ data, VaryMatcher.buildVaryData responseVary h = some data →
        VaryMatcher.«matches» data h = true) ∧
      ∀ v ∈ older stv e d, ¬ Fresh time (some h) v := by
  have haddr := ((insert_nextAddr stv e now d body ttlInfo
    (VaryMatcher.buildVaryData responseVary h)).1 oc hok).1
  have hnew : oc ∉ older stv e d := by
    unfold older
    split
    · exact List.not_mem_nil
    intro hmem
    have := hreached.addr_lt hmem
    omega
  obtain ⟨addr, hoc⟩ := insert_ok hok
  have hvariants : (e.insert stv now d body ttlInfo
      (VaryMatcher.buildVaryData responseVary h)).2.variants d = older stv e d ++ [oc] := by
    rw [(insert_effect stv e now d body ttlInfo _).variants_eq, insert_victims, hok]
    have hdigest : oc.digest = d := by
      rw [hoc]
      rfl
    simp [older, Except.toOption, hdigest]
  have hfresh : Fresh time (some h) oc ↔
      ∀ data, VaryMatcher.buildVaryData responseVary h = some data →
        VaryMatcher.«matches» data h = true := by
    rw [Fresh, varySkips_eq_false_iff, evaluateObject_of_no_flags (by rw [hoc]; rfl),
      if_pos (by rw [hoc]; exact hage.le)]
    have hdata : oc.varyData = VaryMatcher.buildVaryData responseVary h := by rw [hoc]; rfl
    rw [VaryAccepts, hdata]
    constructor
    · intro haccepts data hsome
      exact haccepts.1 h data rfl hsome
    intro hmatches
    refine ⟨?_, rfl⟩
    intro headers data hheaders hsome
    cases hheaders
    exact hmatches data hsome
  have hreached' : Reached stv (e.insert stv now d body ttlInfo
      (VaryMatcher.buildVaryData responseVary h)).2 :=
    hreached.step ⟨now, .insert d body ttlInfo (VaryMatcher.buildVaryData responseVary h)⟩
  rw [lookup_fst, variants_of_spared hreached' hspared, hvariants,
    scanVariants_concat_hit_iff hnew, hfresh]

/-- A variant for brotli beside one for gzip, and a call for another digest. -/
theorem lookup_inserted_iff_brotli :
    let vary := VaryMatcher.buildVaryData (some "Accept-Encoding") (acceptEncoding "br")
    let e := ((run .unlimited () 10 gzipVariant).2.insert .unlimited 1 digestZero [98] .default
      vary).2
    ((record (CacheEngine.step .unlimited) e
        [⟨1, .purge ⟨.replicate 32 1⟩⟩]).2.lookup 2 digestZero
      (some (acceptEncoding "br"))).1 = .hit (newObject 1 1 digestZero [98] .default vary) := by
  refine (lookup_inserted_iff .unlimited (run .unlimited () 10 gzipVariant).2 ⟨_, _, _, rfl⟩ 1
    digestZero [98] .default (some "Accept-Encoding") (acceptEncoding "br") _ (by decide +kernel)
    [⟨1, .purge ⟨Vector.replicate 32 1⟩⟩] ⟨⟨by decide +kernel, by simp [stored]⟩, trivial⟩ 2
    (by decide +kernel)).mpr ⟨?_, ?_⟩
  · intro data hdata
    have hdata' := Option.some_injective _ hdata
    rw [← hdata']
    decide +kernel
  · decide +kernel

/-- An object inserted over a fresh one: the lookup answers with the old one.
-/
theorem not_hit_inserted : let e := (run .unlimited () 10 oneInsert).2
    (e.insert .unlimited 1 digestZero [110] .default none).1.2 =
        .ok (newObject 1 1 digestZero [110] .default none) ∧
      ((e.insert .unlimited 1 digestZero [110] .default none).2.lookup 2 digestZero
        (some .new)).1 = .hit (newObject 0 0 digestZero [104, 105] .default none) := by
  decide +kernel

/-! ## Expiry passes -/

theorem mem_variants_expireObjects :
    o ∈ (e.expireObjects stv now).2.variants d ↔
      o ∈ e.variants d ∧ ∀ x, e.expiry.Queued x → x.when ≤ now → x.objcore.digest ≠ d := by
  rw [(expireObjects_effect stv e now).mem_variants]
  have hdrops : d ∈ (e.expireObjects stv now).1.map ObjCore.digest ↔
      ∃ x, e.expiry.Queued x ∧ x.when ≤ now ∧ x.objcore.digest = d := by
    rw [List.mem_map]
    constructor
    · intro h
      obtain ⟨oc, hoc, hd⟩ := h
      obtain ⟨x, hq, hdue, rfl⟩ := ExpiryManager.mem_expire.mp hoc
      exact ⟨x, hq, hdue, hd⟩
    · intro h
      obtain ⟨x, hq, hdue, hd⟩ := h
      exact ⟨x.objcore, ExpiryManager.mem_expire.mpr ⟨x, hq, hdue, rfl⟩, hd⟩
  rw [hdrops]
  simp only [reduceCtorEq, false_and, false_or]
  push Not
  rfl

/-- **When an expiry pass removes exactly the expired objects**, in any state a
history reaches: when every object filed under the digest of a due queue entry
is itself due. -/
theorem expireObjects_exact (stv : Stevedore σ) (storage : σ) (maxObjects : Nat)
    (calls : List Call) (now : VtimReal) :
    let e := (run stv storage maxObjects calls).2
    (∀ d, ∀ o ∈ e.variants d,
      (o ∈ (e.expireObjects stv now).2.variants d ↔ now < o.deadline)) ↔
    ∀ x, e.expiry.Queued x → x.when ≤ now →
      ∀ o ∈ e.variants x.objcore.digest, o.deadline ≤ now := by
  intro e
  have hinv : Inv e := (run_refines stv storage maxObjects calls).inv
  constructor
  · intro h x hq hdue o ho
    by_contra hnot
    have hkept := (h _ o ho).mpr (not_le.mp hnot)
    exact (mem_variants_expireObjects.mp hkept).2 x hq hdue rfl
  intro h d o ho
  rw [mem_variants_expireObjects]
  constructor
  · intro h
    obtain ⟨_, hnone⟩ := h
    -- the object's own queue entry is not due
    by_contra hnot
    exact hnone _ (hinv.queued d o ho) (not_lt.mp hnot) (hinv.homed d o ho)
  intro hlater
  refine ⟨ho, ?_⟩
  intro x hq hdue hd
  subst hd
  exact absurd (h x hq hdue o ho) (not_le.mpr hlater)

def siblings : List Call :=
  [⟨0, .insert digestZero [104] ⟨1, 0, 0⟩ none⟩, ⟨0, .insert digestZero [105] ⟨100, 0, 0⟩ none⟩]

def reinserted : List Call := [⟨0, .insert digestZero [104] ⟨1, 0, 0⟩ none⟩, ⟨0, .purge digestZero⟩,
    ⟨0, .insert digestZero [105] ⟨100, 0, 0⟩ none⟩]

/-- The pass at time 5 drops the hundred-second object both times. -/
theorem expireObjects_drops_unexpired : let o := newObject 1 0 digestZero [105] ⟨100, 0, 0⟩ none
    5 < o.deadline ∧
      (o ∈ (run .unlimited () 10 siblings).2.variants digestZero ∧
        o ∉ ((run .unlimited () 10 siblings).2.expireObjects .unlimited 5).2.variants
          digestZero) ∧
      (o ∈ (run .unlimited () 10 reinserted).2.variants digestZero ∧
        o ∉ ((run .unlimited () 10 reinserted).2.expireObjects .unlimited 5).2.variants
          digestZero) := by
  decide +kernel

end VarahaCache.CacheEngine
