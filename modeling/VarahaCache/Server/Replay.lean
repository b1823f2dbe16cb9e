import VarahaCache.Server.NoVcl

/-!
# Answering a request again

A cache should not show: a request answered from the cache gets what it got
when it missed. Without VCL the body and the status do come back, but the
object keeps none of the backend's headers, so `replay_same_iff` has to ask
for a response without any the delivery would not write itself.
-/

namespace VarahaCache

open Text CacheEngine Session

variable {σ : Type} {env : Env σ} {s : Session σ} {oc : ObjCore}

/-- The same status, the same headers apart from `X-Cache`, the same body. -/
def SameAnswer (first second : HttpMessage × Option (List UInt8)) : Prop :=
  first.1.status = second.1.status ∧
    first.1.headers.without "X-Cache" = second.1.headers.without "X-Cache" ∧
    first.2 = second.2

instance (first second : HttpMessage × Option (List UInt8)) : Decidable (SameAnswer first second) :=
  inferInstanceAs (Decidable (_ ∧ _))

def WrittenByDelivery (name : String) : Prop :=
  eqIgnoreAsciiCase name "Content-Length" = true ∨ eqIgnoreAsciiCase name "X-Cache" = true

/-- A hop header, or one the delivery writes itself. -/
def NotForwarded (h : Header) : Prop :=
  toLowercase h.name ∈ ["connection", "transfer-encoding"] ∨ WrittenByDelivery h.name

theorem writtenByDelivery_congr {a b : String} (h : eqIgnoreAsciiCase a b = true) :
    WrittenByDelivery a ↔ WrittenByDelivery b := by
  rw [eqIgnoreAsciiCase_iff] at h
  simp only [WrittenByDelivery, eqIgnoreAsciiCase_iff, h]

/-! ## The headers of a delivery -/

theorem without_setContentLength (response : HttpMessage) (bytes : List UInt8) :
    (setContentLength response (some bytes)).headers.without "X-Cache" =
      (⟨response.headers.without "X-Cache"⟩ : HeaderMap).without "Content-Length" ++
        [⟨"Content-Length", toString bytes.length⟩] :=
  HeaderMap.without_set_of_ne response.headers _ (by decide)

theorem without_without_eq_nil_iff {m : HeaderMap} :
    (⟨m.without "X-Cache"⟩ : HeaderMap).without "Content-Length" = [] ↔
      ∀ h ∈ m.headers, WrittenByDelivery h.name := by
  rw [List.eq_nil_iff_forall_not_mem]
  simp only [HeaderMap.mem_without, WrittenByDelivery, Header.nameEqIgnoreCase]
  constructor
  · intro hnone h hm
    by_contra hnot
    push Not at hnot
    exact hnone h ⟨⟨hm, by simpa using hnot.2⟩, by simpa using hnot.1⟩
  rintro hall h ⟨⟨hm, hx⟩, hl⟩
  rcases hall h hm with h' | h'
  · rw [h'] at hl
    cases hl
  · rw [h'] at hx
    cases hx

/-- What a hit loses of a miss: the two deliveries agree exactly when
the backend sent nothing to forward. -/
theorem sameAnswer_iff {beresp : HttpMessage} {bytes : List UInt8}
    (hstatus : beresp.status = .ok) (hbody : oc.body = bytes) (hbytes : bytes ≠ []) :
    let miss := baseResponse (.backend beresp) (some bytes)
    let hit := baseResponse (.object oc) none
    SameAnswer (setContentLength miss.1 miss.2, miss.2) (setContentLength hit.1 hit.2, hit.2) ↔
      ∀ h ∈ beresp.headers.headers, NotForwarded h := by
  have hget : oc.getBody = some bytes := by
    rw [ObjCore.getBody, hbody, if_neg hbytes]
  simp only [baseResponse, hget, SameAnswer, without_setContentLength]
  have hhit : (⟨((HttpMessage.newResponse .ok .http11).setHeader "X-Cache" "HIT").headers.without
      "X-Cache"⟩ : HeaderMap).without "Content-Length" = [] := by decide
  have hmark : ∀ h ∈ ((HttpMessage.newResponse beresp.status .http11).setHeader "X-Cache"
      "MISS").headers.headers, WrittenByDelivery h.name := by
    intro h hm
    rw [show h = ⟨"X-Cache", "MISS"⟩ from List.mem_singleton.mp hm]
    exact .inr (by decide)
  rw [hhit, List.append_left_inj, without_without_eq_nil_iff,
    HttpMessage.forall_mem_copyHeadersExcept fun _ _ => writtenByDelivery_congr]
  simp only [setContentLength, HttpMessage.setHeader_status,
    HttpMessage.copyHeadersExcept_status, HttpMessage.newResponse, hstatus, true_and, and_true]
  exact and_iff_right hmark

/-! ## Two processings -/

section NoVcl

variable (hvcl : env.vcl = none) {cache : CacheEngine σ} {tick : ℕ} {request : HttpMessage}
  {body : Option (List UInt8)}
include hvcl

theorem answer_missed (hrequest : Unconditional request) {n : ℕ}
    {beresp : HttpMessage} {respBody : Option (List UInt8)}
    (h : .backendResponse beresp respBody ∈
      events env (run env (start cache tick request body) n)) :
    let miss := baseResponse (.backend beresp) respBody
    handleRequest env 5 (start cache tick request body) =
      some ((setContentLength miss.1 miss.2, miss.2),
        run env (start cache tick request body) 5) := by
  obtain ⟨_, _, _, _, _, hfour⟩ := response_noVcl hvcl cache tick request body h
  intro miss
  rw [handleRequest_of_deliver hvcl (by rw [hfour]) (by rw [hfour]; rfl)
    (by rw [hfour]; simp [missed, RequestContext.new]),
    buildResponse_of_unconditional (by rw [hfour]; exact hrequest), hfour]
  rfl

theorem answer_found (hrequest : Unconditional request) {oc : ObjCore}
    (h : (lookupOf env cache tick request).1 = .hit oc) :
    let hit := baseResponse (.object oc) none
    handleRequest env 3 (start cache tick request body) =
      some ((setContentLength hit.1 hit.2, hit.2), run env (start cache tick request body) 3) := by
  intro hit
  rw [answer_of_found hvcl cache tick request body (.inl h),
    buildResponse_of_unconditional hrequest]
  rfl

end NoVcl

theorem lookupOf_lone {cache : CacheEngine σ} {tick : ℕ} {request : HttpMessage}
    (hvariants : cache.variants (env.requestDigest request) = [oc]) (hflags : oc.flags = .empty)
    (hfresh : env.now (tick + 1) ≤ oc.tOrigin + oc.ttl) :
    (lookupOf env cache tick request).1 = .hit oc := by
  have heval : evaluateObject oc (env.now (tick + 1)) = .hit oc := by
    rw [evaluateObject_of_no_flags hflags, if_pos hfresh]
  rw [lookupOf, lookup_fst, hvariants]
  simp [scanVariants, varySkips, heval]

/-- **When caching is transparent**, without VCL: a request without
conditional and range headers misses, its response is stored, and it is
processed again within the stored ttl. The two answers agree, `X-Cache`
aside, EXACTLY when the backend sent no header worth forwarding. -/
theorem replay_same_iff (env : Env σ) (hvcl : env.vcl = none) (cache : CacheEngine σ)
    (tick₁ tick₂ : ℕ) (request : HttpMessage) (body₁ body₂ : Option (List UInt8))
    (hrequest : Unconditional request) (n : ℕ) (beresp : HttpMessage) (bytes : List UInt8)
    (digest : Digest) (oc : ObjCore)
    (hresponse : .backendResponse beresp (some bytes) ∈
      events env (run env (start cache tick₁ request body₁) n))
    (hstored : .insert digest bytes (.ok oc) ∈
      events env (run env (start cache tick₁ request body₁) n))
    (hbytes : bytes ≠ []) (hfresh : env.now (tick₂ + 1) ≤ oc.tOrigin + oc.ttl) :
    ∃ first t second u,
      handleRequest env 5 (start cache tick₁ request body₁) = some (first, t) ∧
      handleRequest env 3 (start t.cache tick₂ request body₂) = some (second, u) ∧
      (SameAnswer first second ↔ ∀ h ∈ beresp.headers.headers, NotForwarded h) := by
  obtain ⟨_, hmiss, _, _, _, hfour⟩ := response_noVcl hvcl cache tick₁ request body₁ hresponse
  obtain ⟨rfl, _, ⟨addr, hoc⟩, hvariants, _⟩ := stored_noVcl hvcl cache tick₁ request body₁ hstored
  have hstatus : beresp.status = .ok := by
    obtain ⟨rfl, _⟩ := fetch_noVcl hvcl cache tick₁ request body₁ (fetch_of_mem hstored (by simp) rfl)
    obtain ⟨beresp', hsome, hok⟩ := (properInsert_of_mem
      (show (start cache tick₁ request body₁).ctx.digest = none from rfl) rfl hstored).ok
    rw [hfour] at hsome
    cases hsome
    exact hok
  -- the first processing delivers the backend's response
  have hfirst := answer_missed hvcl hrequest hresponse
  -- the second processing starts where the first ended, and finds the object
  have hcache : (run env (start cache tick₁ request body₁) 5).cache =
      (run env (start cache tick₁ request body₁) 4).cache :=
    cache_of_done_noVcl hvcl cache tick₁ request body₁ hmiss (by
      by_contra hnot
      simp [handleRequest, hnot] at hfirst)
  have hfound : (lookupOf env (run env (start cache tick₁ request body₁) 5).cache tick₂
      request).1 = .hit oc := by
    refine lookupOf_lone ?_ (by rw [hoc]; rfl) hfresh
    rw [hcache]
    exact hvariants
  exact ⟨_, _, _, _, hfirst, answer_found hvcl hrequest hfound,
    sameAnswer_iff hstatus (by rw [hoc]; rfl) hbytes⟩

/-- A response without headers does come back the same. -/
theorem replay_same_bare :
    let env := fixedEnv none 60 byeResponse
    ∃ first t second u,
      handleRequest env 5 (start (new () 10) 0 getRoot none) = some (first, t) ∧
      handleRequest env 3 (start t.cache 5 getRoot none) = some (second, u) ∧
      SameAnswer first second := by
  obtain ⟨first, t, second, u, hfirst, hsecond, hsame⟩ :=
    replay_same_iff (fixedEnv none 60 byeResponse) rfl (new () 10) 0 5 getRoot none
      none ⟨rfl, rfl, rfl⟩ 3 byeResponse.1 [98, 121, 101] digestZero
      (newObject 0 60 digestZero [98, 121, 101] .default none)
      (List.mem_cons_of_mem _ List.mem_cons_self)
      (List.mem_cons_of_mem _ (List.mem_cons_of_mem _ List.mem_cons_self))
      (by decide) (by decide +kernel)
  refine ⟨first, t, second, u, hfirst, hsecond, hsame.mpr ?_⟩
  intro h hmem
  cases hmem

def typedResponse : HttpMessage × Option (List UInt8) :=
  (byeResponse.1.setHeader "Content-Type" "text/html", byeResponse.2)

/-- **A hit forgets the content type** of the response it replays. -/
theorem replay_loses_headers : let env := fixedEnv none 60 typedResponse
    let s := start (new () 10) 0 getRoot none
    let oc := newObject 0 60 digestZero [98, 121, 101] .default none
    ∃ first t second u,
      handleRequest env 5 s = some (first, t) ∧
      t.cache.variants digestZero = [oc] ∧ env.now 6 ≤ oc.tOrigin + oc.ttl ∧
      handleRequest env 3 (start t.cache 5 getRoot none) = some (second, u) ∧
      first.1.getHeader "Content-Type" = some "text/html" ∧
      second.1.getHeader "Content-Type" = none ∧ ¬ SameAnswer first second := by
  intro env s oc
  refine ⟨(run env s 5).result, run env s 5, (run env (start (run env s 5).cache 5
    getRoot none) 3).result, _, if_pos (by decide +kernel), by decide +kernel,
    by decide +kernel, if_pos (by decide +kernel), ?_⟩
  decide +kernel

end VarahaCache
