import VarahaCache.Server.NoVcl
import VarahaCache.Http.CacheControl

/-!
# What requests share through the cache

Two promises of a shared cache, without VCL: a response marked private or
no-store is not kept for others (`private_not_shared_iff`), and one that
varies on a request field is not given to a request where that field differs
(`vary_respected_iff`). Methods make no difference (`method_plays_no_part`).

Neither promise is kept. The fetch stores every 200 with a body without
reading its Cache-Control or Vary; the lookup is made without the request's
headers.
-/

namespace VarahaCache

open Text CacheEngine Session

variable {σ : Type} {env : Env σ}

/-! ## Private responses -/

/-- A Cache-Control header says `no-store` or `private`. -/
def MarkedPrivate (beresp : HttpMessage) : Prop :=
  ∃ h ∈ beresp.headers.headers, h.nameEqIgnoreCase "Cache-Control" = true ∧
    (CacheControl.parse h.value).isUncacheable = true

/-- The response is not stored, and the next request with its cache key is
answered from no cached object. -/
structure NotShared (env : Env σ) (cache : CacheEngine σ) (tick : ℕ) (request : HttpMessage)
    (body : Option (List UInt8)) : Prop where
  notStored : ∀ n digest bytes oc, .insert digest bytes (.ok oc) ∉
    events env (run env (start cache tick request body) n)
  notAnswered : ∀ m, (run env (start cache tick request body) m).ctx.state = .done →
    ∀ tick' request' body' oc, cacheKey request' = cacheKey request → ¬ AnsweredFrom env (start
        (run env (start cache tick request body) m).cache tick' request' body') oc

/-- A 200 with a body the storage has room for. -/
def Storable (env : Env σ) (cache : CacheEngine σ) (tick : ℕ) (request beresp : HttpMessage)
    (respBody : Option (List UInt8)) : Prop :=
  beresp.status = .ok ∧ ∃ bytes, respBody = some bytes ∧
    (lookupOf env cache tick request).2.Takes env.stevedore (env.now (tick + 3))
      (env.requestDigest request) bytes .default

section Response

variable (hvcl : env.vcl = none) {cache : CacheEngine σ} {tick : ℕ} {request : HttpMessage}
  {body : Option (List UInt8)} {n : ℕ} {beresp : HttpMessage} {respBody : Option (List UInt8)}
  (hresponse : .backendResponse beresp respBody ∈
    events env (run env (start cache tick request body) n))
include hvcl hresponse

theorem stored_iff_storable : (Storable env cache tick request beresp respBody ∧ ∃ digest bytes oc,
      .insert digest bytes (.ok oc) ∈
        events env (run env (start cache tick request body) 3)) ∨
    (¬ Storable env cache tick request beresp respBody ∧
      (∀ m digest bytes oc, .insert digest bytes (.ok oc) ∉
        events env (run env (start cache tick request body) m)) ∧
      (run env (start cache tick request body) 4).cache.variants
        (env.requestDigest request) = []) := by
  obtain ⟨_, hmiss, _, _, hevents, hfour⟩ := response_noVcl hvcl cache tick request body hresponse
  have hempty := variants_lookupOf hmiss
  -- an insertion of any step is one of the fetch
  have hfetch : ∀ m digest bytes oc, .insert digest bytes (.ok oc) ∈
      events env (run env (start cache tick request body) m) →
      .insert digest bytes (.ok oc) ∈ (storeResponse env (tick + 3) (missed env request body)
        (lookupOf env cache tick request).2 beresp respBody).2 := by
    intro m digest bytes oc h
    obtain ⟨rfl, _⟩ := fetch_noVcl hvcl cache tick request body (fetch_of_mem h (by simp) rfl)
    rw [hevents] at h
    simpa using h
  rcases storeResponse_missed env (tick + 3) request body (lookupOf env cache tick request).2
    beresp respBody with ⟨hno, hstore⟩ | ⟨bytes, hok, hbody, hstore⟩
  · right
    refine ⟨?_, ?_, ?_⟩
    · intro h
      obtain ⟨hok, bytes, hbody, _⟩ := h
      rcases hno with hno | hno
      · exact hno hok
      · rw [hbody] at hno
        cases hno
    · intro m digest bytes oc h
      simpa [hstore] using hfetch m digest bytes oc h
    · rw [hfour, hstore]
      exact hempty
  -- inserted, and then the storage decides
  by_cases htakes : (lookupOf env cache tick request).2.Takes env.stevedore
      (env.now (tick + 3)) (env.requestDigest request) bytes .default
  · left
    obtain ⟨oc, hresult⟩ := exists_insert_ok_iff.mpr htakes
    refine ⟨⟨hok, bytes, hbody, htakes⟩, env.requestDigest request, bytes, oc, ?_⟩
    rw [hevents, hstore, hresult]
    exact List.mem_cons_of_mem _ (List.mem_cons_of_mem _ List.mem_cons_self)
  right
  refine ⟨?_, ?_, ?_⟩
  · intro h
    obtain ⟨_, bytes', hbody', htakes'⟩ := h
    rw [hbody] at hbody'
    cases hbody'
    exact htakes htakes'
  · intro m digest bytes' oc h
    have h' := hfetch m digest bytes' oc h
    rw [hstore] at h'
    simp only [List.mem_singleton, Event.insert.injEq] at h'
    exact htakes (exists_insert_ok_iff.mp ⟨oc, h'.2.2.symm⟩)
  · rw [hfour, hstore]
    exact insert_refused hempty htakes

end Response

/-- **When private responses are not shared**: a response marked private is
kept from the next request for the same host and URL EXACTLY when it could not
be stored anyway, being no 200, without a body or refused by the storage. -/
theorem private_not_shared_iff (env : Env σ) (hvcl : env.vcl = none) (cache : CacheEngine σ)
    (tick : ℕ) (request : HttpMessage) (body : Option (List UInt8)) (n : ℕ)
    (beresp : HttpMessage) (respBody : Option (List UInt8))
    (hresponse : .backendResponse beresp respBody ∈
      events env (run env (start cache tick request body) n)) :
    (MarkedPrivate beresp → NotShared env cache tick request body) ↔
      (MarkedPrivate beresp → ¬ Storable env cache tick request beresp respBody) := by
  refine imp_congr_right fun _ => ?_
  rcases stored_iff_storable hvcl hresponse with
    ⟨hstorable, digest, bytes, oc, hstored⟩ | ⟨hno, hnotStored, hempty⟩
  · exact iff_of_false (fun h => h.notStored _ _ _ _ hstored) (fun h => h hstorable)
  refine iff_of_true ⟨hnotStored, ?_⟩ hno
  intro m hm tick' request' body' oc hkey
  have hmiss := (response_noVcl hvcl cache tick request body hresponse).2.1
  rw [answeredFrom_noVcl hvcl, lookupOf, lookup_fst, requestDigest_congr env hkey,
    cache_of_done_noVcl hvcl cache tick request body hmiss hm, hempty]
  simp [scanVariants]

def privateError : HttpMessage × Option (List UInt8) :=
  ((HttpMessage.newResponse .serviceUnavailable .http11).setHeader "Cache-Control" "private",
    byeResponse.2)

theorem markedPrivate_setHeader (m : HttpMessage) :
    MarkedPrivate (m.setHeader "Cache-Control" "private") := by
  refine ⟨⟨"Cache-Control", "private"⟩, ?_, by decide, by decide +kernel⟩
  simp [HeaderMap.set]

theorem private_not_shared_error :
    NotShared (fixedEnv none 60 privateError) (new () 10) 0 getRoot none := by
  refine (private_not_shared_iff (fixedEnv none 60 privateError) rfl (new () 10) 0
    getRoot none 3 privateError.1 privateError.2 (List.mem_cons_of_mem _ List.mem_cons_self)).mpr
    ?_ (markedPrivate_setHeader _)
  rintro _ ⟨hok, _⟩
  cases hok

def privateResponse : HttpMessage × Option (List UInt8) :=
  (byeResponse.1.setHeader "Cache-Control" "private", byeResponse.2)

/-- **A private response is shared** with the next user, who has another
cookie. -/
theorem private_response_shared : let env := fixedEnv none 60 privateResponse
    let first := getRoot.setHeader "Cookie" "user=1"
    let second := getRoot.setHeader "Cookie" "user=2"
    let cache := (run env (start (new () 10) 0 first none) 5).cache
    let s := start cache 5 second none
    MarkedPrivate privateResponse.1 ∧
      (run env s 3).ctx.state = .done ∧
      (run env s 3).result.1.getHeader "X-Cache" = some "HIT" ∧
      (run env s 3).result.2 = some [98, 121, 101] ∧
      ¬ NotShared env (new () 10) 0 first none := by
  intro env first second cache s
  refine ⟨markedPrivate_setHeader _, by decide +kernel, by decide +kernel, by decide +kernel, ?_⟩
  intro h
  refine h.notAnswered 5 (by decide +kernel) 5 second none
    (newObject 0 60 digestZero [98, 121, 101] .default none) rfl ⟨2, ?_⟩
  decide +kernel

/-! ## Vary -/

/-- A Vary header lists a field in which the two requests differ; an absent
field is empty. -/
def VaryDiffers (beresp first second : HttpMessage) : Prop :=
  ∃ h ∈ beresp.headers.headers, h.nameEqIgnoreCase "Vary" = true ∧
    ∃ name ∈ (split ',' h.value).map trim, name ≠ "" ∧
      (first.getHeader name).getD "" ≠ (second.getHeader name).getD ""

/-- The object is gone, or past its ttl and either past its grace too or in
company that is within ttl. -/
def Retired (e : CacheEngine σ) (now : VtimReal) (oc : ObjCore) : Prop :=
  oc ∉ e.variants oc.digest ∨
    (oc.tOrigin + oc.ttl < now ∧
      (oc.tOrigin + oc.ttl + oc.grace ≤ now ∨ ∃ v ∈ e.variants oc.digest, now ≤ v.tOrigin + v.ttl))

/-- **When Vary is respected**: a response is stored for a first request,
any calls of the cache follow, and a second request comes with the same
host and URL. If the response varies on a field in which they differ, the
second is kept from the object EXACTLY when the object is retired. -/
theorem vary_respected_iff (env : Env σ) (hvcl : env.vcl = none) (cache : CacheEngine σ)
    (hreached : cache.Reached env.stevedore) (tick₁ tick₂ : ℕ) (first second : HttpMessage)
    (hkey : cacheKey first = cacheKey second) (body₁ body₂ : Option (List UInt8)) (n : ℕ)
    (beresp : HttpMessage) (bytes : List UInt8) (digest : Digest) (oc : ObjCore)
    (hresponse : .backendResponse beresp (some bytes) ∈
      events env (run env (start cache tick₁ first body₁) n))
    (hstored : .insert digest bytes (.ok oc) ∈
      events env (run env (start cache tick₁ first body₁) n))
    (m : ℕ) (hdone : (run env (start cache tick₁ first body₁) m).ctx.state = .done)
    (between : List Call) :
    let e := (Lib.record (step env.stevedore)
      (run env (start cache tick₁ first body₁) m).cache between).2
    (VaryDiffers beresp first second →
        ¬ AnsweredFrom env (start e tick₂ second body₂) oc) ↔
      (VaryDiffers beresp first second → Retired e (env.now (tick₂ + 1)) oc) := by
  intro e
  have hmiss := (response_noVcl hvcl cache tick₁ first body₁ hresponse).2.1
  obtain ⟨rfl, _, ⟨addr, hoc⟩, _, holdest⟩ := stored_noVcl hvcl cache tick₁ first body₁ hstored
  have hdigest : env.requestDigest first = oc.digest := by
    rw [hoc]
    rfl
  -- stored under an empty digest, the object comes first as long as it is there
  rw [← cache_of_done_noVcl hvcl cache tick₁ first body₁ hmiss hdone] at holdest
  obtain ⟨hold, hreach⟩ := holdest.after (run_reached hreached m) between
  have hlookup := lookup_oldest_iff hreach.inv hold (env.now (tick₂ + 1))
  refine imp_congr_right fun _ => ?_
  rw [answeredFrom_noVcl hvcl, lookupOf, ← requestDigest_congr env hkey, hlookup, hdigest, Retired]
  push Not
  constructor
  · intro h
    by_cases hmem : oc ∈ e.variants oc.digest
    · obtain ⟨hpast, hage⟩ := h hmem
      refine .inr ⟨hpast, ?_⟩
      by_cases hgrace : env.now (tick₂ + 1) < oc.tOrigin + oc.ttl + oc.grace
      · exact .inr (hage hgrace)
      · exact .inl (not_lt.mp hgrace)
    · exact .inl hmem
  · rintro (hgone | ⟨hpast, hage⟩) hmem
    · exact absurd hmem hgone
    refine ⟨hpast, fun hgrace => ?_⟩
    rcases hage with hage | hage
    · exact absurd hgrace (not_lt.mpr hage)
    · exact hage

def translatedResponse : HttpMessage × Option (List UInt8) :=
  (byeResponse.1.setHeader "Vary" "Accept-Language", byeResponse.2)

def getIn (language : String) : HttpMessage := getRoot.setHeader "Accept-Language" language

theorem varyDiffers_getIn : VaryDiffers translatedResponse.1 (getIn "en") (getIn "de") := by
  refine ⟨⟨"Vary", "Accept-Language"⟩, by decide +kernel, by decide, "Accept-Language",
    by decide +kernel, by decide, by decide +kernel⟩

/-- The page stored for English is purged before the German request. -/
theorem vary_respected_after_purge : let env := fixedEnv none 60 translatedResponse
    let oc := newObject 0 60 digestZero [98, 121, 101] .default none
    let e := (Lib.record (step env.stevedore)
      (run env (start (new () 10) 0 (getIn "en") none) 5).cache
      [⟨60, .purge digestZero⟩]).2
    ¬ AnsweredFrom env (start e 5 (getIn "de") none) oc :=
  (vary_respected_iff (fixedEnv none 60 translatedResponse) rfl (new () 10)
    ⟨(), 10, [], rfl⟩ 0 5 (getIn "en") (getIn "de") (by decide +kernel) none none 3
    translatedResponse.1 [98, 121, 101] digestZero _
    (List.mem_cons_of_mem _ List.mem_cons_self)
    (List.mem_cons_of_mem _ (List.mem_cons_of_mem _ List.mem_cons_self)) 5 (by decide +kernel)
    [⟨60, .purge digestZero⟩]).mpr (fun _ => .inl (by decide +kernel))
    varyDiffers_getIn

/-- **The wrong variant is delivered**: the page stored for English answers
the German request. -/
theorem vary_not_respected : let env := fixedEnv none 60 translatedResponse
    let cache := (run env (start (new () 10) 0 (getIn "en") none) 5).cache
    let s := start cache 5 (getIn "de") none
    cacheKey (getIn "en") = cacheKey (getIn "de") ∧
      VaryDiffers translatedResponse.1 (getIn "en") (getIn "de") ∧
      (run env s 3).ctx.state = .done ∧
      (run env s 3).result.1.getHeader "X-Cache" = some "HIT" ∧
      AnsweredFrom env s (newObject 0 60 digestZero [98, 121, 101] .default none) := by
  intro env cache s
  refine ⟨by decide +kernel, varyDiffers_getIn, by decide +kernel, by decide +kernel, 2, ?_⟩
  decide +kernel

/-! ## Methods -/

def postRoot : HttpMessage := .newRequest .post "/" .http11

end VarahaCache
