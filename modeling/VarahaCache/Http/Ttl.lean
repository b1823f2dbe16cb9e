import VarahaCache.Http.CacheControl
import VarahaCache.Http.Rfc2616

/-!
# Freshness lifetimes

`TtlCalculation::from_response` of `rv-http`: a priority chain over the
Cache-Control directives, Expires and Date. The directives are read off the
header once more, as a list of names and values, to say what the chain should
give; `TtlRules` holds exactly for the responses of `TtlConforms`.
-/

namespace VarahaCache

open Text

structure TtlCalculation where
  ttl : VtimDur
  grace : VtimDur
  keep : VtimDur
  tOrigin : VtimReal
  uncacheable : Bool
deriving DecidableEq

/-- The time a Date header gives, else `now`. -/
def dateOrigin (resp : HttpMessage) (now : VtimReal) : VtimReal :=
  ((resp.getHeader "Date").bind Rfc2616.parseHttpDate).getD now

/-- The Age header in seconds, 0 if there is none or it is no number. -/
def ageOf (resp : HttpMessage) : ℚ := ((resp.getHeader "Age").bind fun v => parseF64 (trim v)).getD 0

def expiresOf (resp : HttpMessage) : Option VtimReal :=
  (resp.getHeader "Expires").bind Rfc2616.parseHttpDate

def TtlCalculation.fromResponse (resp : HttpMessage) (now : VtimReal)
    (defaultTtl defaultGrace defaultKeep : VtimDur) : TtlCalculation :=
  let cc := ((resp.getHeader "Cache-Control").map CacheControl.parse).getD {}
  if cc.isUncacheable then
    { ttl := -1, grace := defaultGrace, keep := defaultKeep, tOrigin := now, uncacheable := true }
  else
    let result : TtlCalculation :=
      { ttl := defaultTtl, grace := defaultGrace, keep := defaultKeep,
        tOrigin := dateOrigin resp now, uncacheable := false }
    match cc.sMaxage with
    | some sMaxage => { result with ttl := sMaxage - ageOf resp }
    | none =>
      match cc.maxAge with
      | some maxAge => { result with ttl := maxAge - ageOf resp }
      | none =>
        match expiresOf resp with
        | some expires => { result with ttl := expires - result.tOrigin }
        | none =>
          if cc.noCache then { result with ttl := 0 }
          else
            match cc.staleWhileRevalidate with
            | some swr => { result with grace := swr }
            | none => result

/-! ## The directives of a header -/

namespace CacheControl

/-- The name of a directive, in lower case, and its value without quotes. -/
def readDirective (directive : String) : String × Option String :=
  match splitOnce '=' directive with
  | some (k, v) => (toAsciiLowercase (trim k), some (trimBoth (· = '"') (trim v)))
  | none => (toAsciiLowercase directive, none)

def directives (headerValue : String) : List (String × Option String) :=
  (split ',' headerValue).map fun d => readDirective (trim d)

def hasDirective (ds : List (String × Option String)) (name : String) : Bool :=
  ds.any fun d => d.1 = name

/-- The number the last directive of a name gives. -/
def directiveNumber (ds : List (String × Option String)) (name : String) : Option ℚ :=
  (ds.reverse.find? fun d => d.1 = name).bind fun d => d.2.bind parseF64

theorem hasDirective_concat (ds : List (String × Option String)) (d : String × Option String)
    (name : String) :
    hasDirective (ds ++ [d]) name = (hasDirective ds name || decide (d.1 = name)) := by
  simp [hasDirective]

theorem directiveNumber_concat (ds : List (String × Option String)) (d : String × Option String)
    (name : String) :
    directiveNumber (ds ++ [d]) name =
      if d.1 = name then d.2.bind parseF64 else directiveNumber ds name := by
  by_cases h : d.1 = name <;> simp [directiveNumber, h]

/-- A record of directives says what a list of them says. -/
structure Reads (cc : CacheControl) (ds : List (String × Option String)) : Prop where
  maxAge : cc.maxAge = directiveNumber ds "max-age"
  sMaxage : cc.sMaxage = directiveNumber ds "s-maxage"
  noCache : cc.noCache = hasDirective ds "no-cache"
  noStore : cc.noStore = hasDirective ds "no-store"
  priv : cc.priv = hasDirective ds "private"
  staleWhileRevalidate : cc.staleWhileRevalidate = directiveNumber ds "stale-while-revalidate"

variable {ds : List (String × Option String)} {cc : CacheControl} {key : String}

theorem Reads.concat {cc' : CacheControl}
    (h : cc.Reads ds) {value : Option String}
    (hmax : cc'.maxAge = if key = "max-age" then value.bind parseF64 else cc.maxAge)
    (hshared : cc'.sMaxage = if key = "s-maxage" then value.bind parseF64 else cc.sMaxage)
    (hcache : cc'.noCache = (cc.noCache || decide (key = "no-cache")))
    (hstore : cc'.noStore = (cc.noStore || decide (key = "no-store")))
    (hpriv : cc'.priv = (cc.priv || decide (key = "private")))
    (hstale : cc'.staleWhileRevalidate =
      if key = "stale-while-revalidate" then value.bind parseF64 else cc.staleWhileRevalidate) :
    cc'.Reads (ds ++ [(key, value)]) where
  maxAge := by rw [hmax, directiveNumber_concat, ← h.maxAge]
  sMaxage := by rw [hshared, directiveNumber_concat, ← h.sMaxage]
  noCache := by rw [hcache, hasDirective_concat, ← h.noCache]
  noStore := by rw [hstore, hasDirective_concat, ← h.noStore]
  priv := by rw [hpriv, hasDirective_concat, ← h.priv]
  staleWhileRevalidate := by rw [hstale, directiveNumber_concat, ← h.staleWhileRevalidate]

theorem Reads.other (h : cc.Reads ds) (value : Option String) (hmax : key ≠ "max-age")
    (hshared : key ≠ "s-maxage") (hcache : key ≠ "no-cache") (hstore : key ≠ "no-store")
    (hpriv : key ≠ "private") (hstale : key ≠ "stale-while-revalidate") :
    cc.Reads (ds ++ [(key, value)]) :=
  h.concat (if_neg hmax).symm (if_neg hshared).symm (by simp [hcache]) (by simp [hstore])
    (by simp [hpriv]) (if_neg hstale).symm

theorem Reads.directive
    (h : cc.Reads ds) (d : String) : (cc.directive d).Reads (ds ++ [readDirective d]) := by
  unfold CacheControl.directive readDirective
  generalize splitOnce '=' d = cut
  rcases cut with _ | ⟨k, v⟩
  all_goals
    dsimp only
    generalize toAsciiLowercase _ = key
    split
    case h_12 hmax hshared hcache hstore _ _ _ hpriv _ hstale _ =>
      exact h.other _ hmax hshared hcache hstore hpriv hstale
    all_goals exact h.concat (by simp) (by simp) (by simp) (by simp) (by simp) (by simp)

theorem reads_parse (headerValue : String) :
    (CacheControl.parse headerValue).Reads (directives headerValue) := by
  unfold parse directives
  induction split ',' headerValue using List.reverseRecOn with
  | nil => constructor <;> rfl
  | append_singleton l d ih =>
    rw [List.foldl_append, List.map_append, List.foldl_cons, List.foldl_nil, List.map_singleton]
    exact ih.directive (trim d)

def directivesOf (resp : HttpMessage) : List (String × Option String) :=
  ((resp.getHeader "Cache-Control").map directives).getD []

theorem reads_response (resp : HttpMessage) :
    (((resp.getHeader "Cache-Control").map CacheControl.parse).getD {}).Reads
      (directivesOf resp) := by
  unfold directivesOf
  cases resp.getHeader "Cache-Control" with
  | none => constructor <;> rfl
  | some value => exact reads_parse value

end CacheControl

/-! ## The rules -/

open CacheControl

/-- The lifetime by priority: s-maxage, max-age, the time from Date to
Expires, each less the age, else the default. -/
def lifetime (resp : HttpMessage) (now : VtimReal) (defaultTtl : VtimDur) : VtimDur :=
  match directiveNumber (directivesOf resp) "s-maxage" with
  | some sMaxage => sMaxage - ageOf resp
  | none =>
    match directiveNumber (directivesOf resp) "max-age" with
    | some maxAge => maxAge - ageOf resp
    | none =>
      match expiresOf resp with
      | some expires => expires - dateOrigin resp now - ageOf resp
      | none => defaultTtl

/-- What the calculation should give for a cacheable response. -/
structure TtlRules (resp : HttpMessage) (now : VtimReal)
    (defaultTtl defaultGrace defaultKeep : VtimDur) : Prop where
  lifetime : hasDirective (directivesOf resp) "no-cache" = false →
    (TtlCalculation.fromResponse resp now defaultTtl defaultGrace defaultKeep).ttl =
      lifetime resp now defaultTtl
  noCache : hasDirective (directivesOf resp) "no-cache" = true →
    (TtlCalculation.fromResponse resp now defaultTtl defaultGrace defaultKeep).ttl ≤ 0
  grace : ∀ g, directiveNumber (directivesOf resp) "stale-while-revalidate" = some g →
    (TtlCalculation.fromResponse resp now defaultTtl defaultGrace defaultKeep).grace = g

/-- The responses the early returns do no harm to: an age only where the
lifetime is not that of Expires, no lifetime left beside no-cache, and a
stale-while-revalidate only without another source or with the default grace.
-/
structure TtlConforms (resp : HttpMessage) (now : VtimReal) (defaultGrace : VtimDur) : Prop where
  expires : hasDirective (directivesOf resp) "no-cache" = false →
    directiveNumber (directivesOf resp) "s-maxage" = none →
    directiveNumber (directivesOf resp) "max-age" = none →
    ∀ e, expiresOf resp = some e → ageOf resp = 0
  sMaxage : hasDirective (directivesOf resp) "no-cache" = true →
    ∀ s, directiveNumber (directivesOf resp) "s-maxage" = some s → s ≤ ageOf resp
  maxAge : hasDirective (directivesOf resp) "no-cache" = true →
    directiveNumber (directivesOf resp) "s-maxage" = none →
    ∀ m, directiveNumber (directivesOf resp) "max-age" = some m → m ≤ ageOf resp
  expired : hasDirective (directivesOf resp) "no-cache" = true →
    directiveNumber (directivesOf resp) "s-maxage" = none →
    directiveNumber (directivesOf resp) "max-age" = none →
    ∀ e, expiresOf resp = some e → e ≤ dateOrigin resp now
  stale : ∀ g, directiveNumber (directivesOf resp) "stale-while-revalidate" = some g →
    g = defaultGrace ∨
      directiveNumber (directivesOf resp) "s-maxage" = none ∧
      directiveNumber (directivesOf resp) "max-age" = none ∧ expiresOf resp = none ∧
      hasDirective (directivesOf resp) "no-cache" = false

section

variable {resp : HttpMessage} (now : VtimReal) (defaultTtl defaultGrace defaultKeep : VtimDur)
  (hstore : hasDirective (directivesOf resp) "no-store" = false)
  (hpriv : hasDirective (directivesOf resp) "private" = false)

include hstore hpriv

theorem isUncacheable_response :
    (((resp.getHeader "Cache-Control").map CacheControl.parse).getD {}).isUncacheable = false := by
  have hreads := reads_response resp
  rw [isUncacheable, hreads.noStore, hreads.priv, hstore, hpriv]
  rfl

theorem fromResponse_ttl :
    (TtlCalculation.fromResponse resp now defaultTtl defaultGrace defaultKeep).ttl =
      match directiveNumber (directivesOf resp) "s-maxage" with
      | some sMaxage => sMaxage - ageOf resp
      | none =>
        match directiveNumber (directivesOf resp) "max-age" with
        | some maxAge => maxAge - ageOf resp
        | none =>
          match expiresOf resp with
          | some expires => expires - dateOrigin resp now
          | none =>
            if hasDirective (directivesOf resp) "no-cache" then 0 else defaultTtl := by
  have hreads := reads_response resp
  have hcacheable := isUncacheable_response hstore hpriv
  simp only [TtlCalculation.fromResponse, hcacheable, Bool.false_eq_true, if_false, hreads.sMaxage,
    hreads.maxAge, hreads.noCache]
  split
  · rfl
  split
  · rfl
  split
  · rfl
  split
  · rfl
  · split <;> rfl

theorem fromResponse_grace :
    (TtlCalculation.fromResponse resp now defaultTtl defaultGrace defaultKeep).grace =
      match directiveNumber (directivesOf resp) "s-maxage",
        directiveNumber (directivesOf resp) "max-age", expiresOf resp,
        hasDirective (directivesOf resp) "no-cache" with
      | none, none, none, false =>
        (directiveNumber (directivesOf resp) "stale-while-revalidate").getD defaultGrace
      | _, _, _, _ => defaultGrace := by
  have hreads := reads_response resp
  have hcacheable := isUncacheable_response hstore hpriv
  simp only [TtlCalculation.fromResponse, hcacheable, Bool.false_eq_true, if_false, hreads.sMaxage,
    hreads.maxAge, hreads.noCache, hreads.staleWhileRevalidate]
  cases directiveNumber (directivesOf resp) "s-maxage" with
  | some s => rfl
  | none =>
    cases directiveNumber (directivesOf resp) "max-age" with
    | some m => rfl
    | none =>
      cases expiresOf resp with
      | some e => rfl
      | none =>
        cases hasDirective (directivesOf resp) "no-cache" with
        | true => rfl
        | false =>
          cases directiveNumber (directivesOf resp) "stale-while-revalidate" <;> rfl

end

/-- **The calculation follows the rules exactly for the responses its early
returns do no harm to.** -/
theorem ttlRules_iff (resp : HttpMessage) (now : VtimReal)
    (defaultTtl defaultGrace defaultKeep : VtimDur)
    (hstore : hasDirective (directivesOf resp) "no-store" = false)
    (hpriv : hasDirective (directivesOf resp) "private" = false) :
    TtlRules resp now defaultTtl defaultGrace defaultKeep ↔ TtlConforms resp now defaultGrace := by
  have httl := fromResponse_ttl now defaultTtl defaultGrace defaultKeep hstore hpriv
  have hgrace := fromResponse_grace now defaultTtl defaultGrace defaultKeep hstore hpriv
  constructor
  · rintro ⟨hlifetime, hcache, hstale⟩
    rw [httl] at hlifetime hcache
    rw [hgrace] at hstale
    refine ⟨fun hn hs hm e he => ?_, fun hn s hs => ?_, fun hn hs m hm => ?_,
      fun hn hs hm e he => ?_, fun g hg => ?_⟩
    · have hsame := hlifetime hn
      simp only [lifetime, hs, hm, he] at hsame
      linarith
    · simpa [hs] using hcache hn
    · simpa [hs, hm] using hcache hn
    · simpa [hs, hm, he] using hcache hn
    · have hsame := hstale g hg
      split at hsame
      · rename_i hs hm he hn
        exact .inr ⟨hs, hm, he, hn⟩
      · exact .inl hsame.symm
  intro h
  -- the sources of a lifetime, in the order in which they are tried
  refine ⟨fun hn => ?_, fun hn => ?_, fun g hg => ?_⟩
  · rw [httl, lifetime, hn]
    cases hs : directiveNumber (directivesOf resp) "s-maxage" with
    | some s => rfl
    | none =>
      cases hm : directiveNumber (directivesOf resp) "max-age" with
      | some m => rfl
      | none =>
        cases he : expiresOf resp with
        | some e => simp [h.expires hn hs hm e he]
        | none => rfl
  · rw [httl, hn]
    cases hs : directiveNumber (directivesOf resp) "s-maxage" with
    | some s => exact sub_nonpos.mpr (h.sMaxage hn s hs)
    | none =>
      cases hm : directiveNumber (directivesOf resp) "max-age" with
      | some m => exact sub_nonpos.mpr (h.maxAge hn hs m hm)
      | none =>
        cases he : expiresOf resp with
        | some e => exact sub_nonpos.mpr (h.expired hn hs hm e he)
        | none => exact le_rfl
  · rcases h.stale g hg with rfl | ⟨hs, hm, he, hn⟩
    · rw [hgrace, hg]
      split <;> rfl
    · rw [hgrace, hs, hm, he, hn, hg]
      rfl

def cachedFor (cacheControl name value : String) : HttpMessage :=
  ((HttpMessage.newResponse .ok .http11).setHeader "Cache-Control" cacheControl).setHeader name value

theorem ttlRules_iff_max_age :
    hasDirective (directivesOf (cachedFor "max-age=60" "Age" "20")) "no-store" = false ∧
      (TtlRules (cachedFor "max-age=60" "Age" "20") 0 120 10 0 ↔
        TtlConforms (cachedFor "max-age=60" "Age" "20") 0 10) :=
  ⟨by decide +kernel, ttlRules_iff (cachedFor "max-age=60" "Age" "20") 0 120 10 0 (by decide +kernel)
    (by decide +kernel)⟩

/-- A lifetime beside no-cache, an age beside Expires, and a
stale-while-revalidate beside a lifetime. -/
theorem ttlRules_broken :
    ¬ TtlRules (cachedFor "no-cache, max-age=60" "Age" "0") 0 120 10 0 ∧
      ¬ TtlRules ((cachedFor "public" "Age" "30").setHeader "Expires"
        "Thu, 01 Jan 1970 00:01:00 GMT") 0 120 10 0 ∧
      ¬ TtlRules (cachedFor "max-age=60, stale-while-revalidate=30" "Age" "0") 0 120 10 0 := by
  refine ⟨fun h => ?_, fun h => ?_, fun h => ?_⟩
  · have hpositive : ¬ (TtlCalculation.fromResponse (cachedFor "no-cache, max-age=60" "Age" "0")
        0 120 10 0).ttl ≤ 0 := by decide +kernel
    exact hpositive (h.noCache (by decide +kernel))
  · have hage : (TtlCalculation.fromResponse ((cachedFor "public" "Age" "30").setHeader "Expires"
        "Thu, 01 Jan 1970 00:01:00 GMT") 0 120 10 0).ttl ≠
        lifetime ((cachedFor "public" "Age" "30").setHeader "Expires"
          "Thu, 01 Jan 1970 00:01:00 GMT") 0 120 := by decide +kernel
    exact hage (h.lifetime (by decide +kernel))
  · have hgrace : (TtlCalculation.fromResponse
        (cachedFor "max-age=60, stale-while-revalidate=30" "Age" "0") 0 120 10 0).grace ≠ 30 := by
      decide +kernel
    exact hgrace (h.grace 30 (by decide +kernel))

end VarahaCache
