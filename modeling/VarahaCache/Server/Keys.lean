import VarahaCache.Server.NoVcl
import VarahaCache.Transport.Requests

/-!
# Cache keys

A request is looked up under the digest of one text: its host, a colon and its
URL. Both parts may hold colons themselves: `keptApart_iff` gives exactly the
pairs of requests that are told apart, for a digest without collisions on the
texts in question.

An HTTP/2 request names its host in the URI, and the conversion to a message
drops it there (`h2_digest_eq`).
-/

namespace VarahaCache

open Text String

variable {σ : Type} {env : Env σ}

/-! ## The text of a key -/

/-- The longer host takes a colon and some text from the front of the other
URL. -/
def Overlap (host url host' url' : String) : Prop :=
  ∃ taken, host' = host ++ ":" ++ taken ∧ url = taken ++ ":" ++ url'

variable {host url host' url' : String}

theorem Overlap.joined_eq (h : Overlap host url host' url') :
    host ++ ":" ++ url = host' ++ ":" ++ url' := by
  obtain ⟨taken, rfl, rfl⟩ := h
  simp only [append_assoc]

theorem overlap_of_append {between : List Char} (hhost : host'.toList = host.toList ++ between)
    (hurl : ':' :: url.toList = between ++ ':' :: url'.toList) :
    (host = host' ∧ url = url') ∨ Overlap host url host' url' := by
  cases between with
  | nil =>
    left
    simp only [List.nil_append, List.cons.injEq, true_and, List.append_nil] at hurl hhost
    exact ⟨(toList_inj.mp hhost).symm, toList_inj.mp hurl⟩
  | cons c taken =>
    right
    simp only [List.cons_append, List.cons.injEq] at hurl
    obtain ⟨rfl, hurl⟩ := hurl
    refine ⟨ofList taken, ?_, ?_⟩
    · rw [← toList_inj]
      simp [hhost]
    · rw [← toList_inj]
      simp [hurl]

/-- What a joined text determines: the pair, but for the place of the
cut. -/
theorem joined_eq_iff :
    host ++ ":" ++ url = host' ++ ":" ++ url' ↔
      (host = host' ∧ url = url') ∨ Overlap host url host' url' ∨ Overlap host' url' host url := by
  constructor
  · intro h
    rw [← toList_inj] at h
    simp only [toList_append, List.append_assoc] at h
    rcases List.append_eq_append_iff.mp h with ⟨between, hhost, hurl⟩ | ⟨between, hhost, hurl⟩
    · exact (overlap_of_append hhost hurl).imp_right .inl
    rcases overlap_of_append hhost hurl with ⟨rfl, rfl⟩ | hover
    · exact .inl ⟨rfl, rfl⟩
    · exact .inr (.inr hover)
  · intro h
    rcases h with ⟨rfl, rfl⟩ | h | h
    · rfl
    · exact h.joined_eq
    · exact h.joined_eq.symm

theorem Overlap.length_lt (h : Overlap host url host' url') : host.length < host'.length := by
  obtain ⟨taken, rfl, _⟩ := h
  have hcolon : ":".length = 1 := rfl
  rw [length_append, length_append, hcolon]
  omega

/-! ## The digests of two requests -/

/-- Two requests have different digests, and what any history stored for the
first, no lookup for the second answers with. -/
structure KeptApart (env : Env σ) (first second : HttpMessage) : Prop where
  digest : env.requestDigest first ≠ env.requestDigest second
  answers : ∀ storage maxObjects calls,
    ∀ r ∈ (CacheEngine.run env.stevedore storage maxObjects calls).1, ∀ o,
    stored r.1.op r.2 = some (env.requestDigest first, o) → ∀ now headers,
      ((CacheEngine.run env.stevedore storage maxObjects calls).2.lookup now
        (env.requestDigest second) headers).1 ≠ .hit o ∧
      ((CacheEngine.run env.stevedore storage maxObjects calls).2.lookup now
        (env.requestDigest second) headers).1 ≠ .grace o

theorem keptApart_of_digest {first second : HttpMessage}
    (h : env.requestDigest first ≠ env.requestDigest second) : KeptApart env first second := by
  refine ⟨h, ?_⟩
  intro storage maxObjects calls r hr o hstored now headers
  have hinv := (CacheEngine.run_refines env.stevedore storage maxObjects calls).inv
  have hnot : o ∉ (CacheEngine.run env.stevedore storage maxObjects calls).2.variants
      (env.requestDigest second) := by
    intro hmem
    apply h
    rw [← CacheEngine.digest_of_stored hr hstored, hinv.homed _ o hmem]
  rw [CacheEngine.lookup_fst]
  exact scanVariants_ne_of_notMem hnot

/-- **When two requests are kept apart.** Of two requests with a Host header,
those that differ in host or URL have different digests EXACTLY when
neither host is the other one followed by a colon and by what the other
URL has before one of its colons. -/
theorem keptApart_iff (env : Env σ) (first second : HttpMessage) (host host' : String)
    (hhost : first.getHeader "Host" = some host) (hhost' : second.getHeader "Host" = some host')
    (hsha : Set.InjOn env.sha256 {asBytes (cacheKey first), asBytes (cacheKey second)}) :
    ((host, first.url) ≠ (host', second.url) → KeptApart env first second) ↔
      ¬ Overlap host first.url host' second.url ∧ ¬ Overlap host' second.url host first.url := by
  have hkey : cacheKey first = host ++ ":" ++ first.url := by simp [cacheKey, hhost]
  have hkey' : cacheKey second = host' ++ ":" ++ second.url := by simp [cacheKey, hhost']
  have hdigest : env.requestDigest first = env.requestDigest second ↔
      (host = host' ∧ first.url = second.url) ∨ Overlap host first.url host' second.url ∨
        Overlap host' second.url host first.url := by
    rw [← joined_eq_iff, ← hkey, ← hkey']
    constructor
    · intro h
      exact asBytes_injective (hsha (by simp) (by simp) h)
    · intro h
      rw [Env.requestDigest, h, Env.requestDigest]
  constructor
  · intro h
    by_contra hover
    have hsame := hdigest.mpr (.inr (by tauto))
    by_cases hpair : (host, first.url) = (host', second.url)
    · simp only [Prod.mk.injEq] at hpair
      obtain ⟨rfl, hurl⟩ := hpair
      rw [hurl] at hover
      exact hover ⟨fun h => h.length_lt.ne rfl, fun h => h.length_lt.ne rfl⟩
    · exact (h hpair).digest hsame
  · intro h hne
    refine keptApart_of_digest ?_
    intro hsame
    rcases hdigest.mp hsame with ⟨rfl, hurl⟩ | hover | hover
    · exact hne (by rw [hurl])
    · exact h.1 hover
    · exact h.2 hover

/-! ## Two requests on one server -/

def getFrom (host target : String) : HttpMessage :=
  (HttpMessage.newRequest .get target .http11).setHeader "Host" host

/-- A digest that keeps the first 32 bytes: collision-free on short keys. -/
def firstBytes (bytes : List UInt8) : Digest := ⟨Vector.ofFn fun i => bytes.getD i 0⟩

def keyedEnv : Env Unit := { fixedEnv none 60 byeResponse with sha256 := firstBytes }

theorem keptApart_two_hosts :
    KeptApart keyedEnv (getFrom "a.example" "/") (getFrom "b.example" "/") := by
  have hsha : Set.InjOn keyedEnv.sha256 {asBytes (cacheKey (getFrom "a.example" "/")),
      asBytes (cacheKey (getFrom "b.example" "/"))} := by
    intro a ha b hb h
    rcases ha with rfl | rfl <;> rcases hb with rfl | rfl <;> revert h <;> decide +kernel
  refine (keptApart_iff keyedEnv (getFrom "a.example" "/") (getFrom "b.example" "/") "a.example"
    "b.example" (by decide +kernel) (by decide +kernel) hsha).mpr
    ⟨fun h => ?_, fun h => ?_⟩ (by decide) <;> exact absurd h.length_lt (by decide)

/-- A target with a port in front, sent to `example.com`, is stored under
the key of `/admin` on port 8080, and answers it. -/
theorem keys_collide : let first := getFrom "example.com" "8080:/admin"
    let second := getFrom "example.com:8080" "/admin"
    let s := Session.start (CacheEngine.new () 10) 0 first none
    let s' := Session.start (run keyedEnv s 5).cache 5 second none
    readRequest parseHead (asBytes "GET 8080:/admin HTTP/1.1\r\nHost: example.com\r\n\r\n") =
        .ok (first, []) ∧
      readRequest parseHead (asBytes "GET /admin HTTP/1.1\r\nHost: example.com:8080\r\n\r\n") =
        .ok (second, []) ∧
      first.getHeader "Host" ≠ second.getHeader "Host" ∧
      keyedEnv.requestDigest first = keyedEnv.requestDigest second ∧
      ¬ KeptApart keyedEnv first second ∧
      (run keyedEnv s 5).ctx.state = .done ∧ (run keyedEnv s' 3).ctx.state = .done ∧
      (run keyedEnv s' 3).result.1.getHeader "X-Cache" = some "HIT" ∧
      (run keyedEnv s' 3).result.2 = some [98, 121, 101] := by
  intro first second s s'
  have hsame : keyedEnv.requestDigest first = keyedEnv.requestDigest second := by decide +kernel
  refine ⟨by decide +kernel, by decide +kernel, by decide +kernel, hsame,
    fun h => h.digest hsame, ?_⟩
  decide +kernel

/-! ## HTTP/2 -/

/-- **The authority of an HTTP/2 request is not in its key.** Any two requests
for the same path and query, without a Host header, are looked up under one
digest. -/
theorem h2_digest_eq (env : Env σ) (parts parts' : RequestParts)
    (hhost : ∀ field ∈ parts.headers, eqIgnoreAsciiCase field.1 "Host" = false)
    (hhost' : ∀ field ∈ parts'.headers, eqIgnoreAsciiCase field.1 "Host" = false)
    (hquery : parts.uri.pathAndQuery = parts'.uri.pathAndQuery)
    (hpath : parts.uri.path = parts'.uri.path) :
    env.requestDigest (h2RequestToMessage parts) =
      env.requestDigest (h2RequestToMessage parts') := by
  apply requestDigest_congr
  simp only [cacheKey, h2RequestToMessage_getHeader hhost, h2RequestToMessage_getHeader hhost',
    h2RequestToMessage_url, hquery, hpath]

def h2Get (authority : String) : RequestParts := ⟨"GET", ⟨some authority, some "/", "/"⟩, []⟩

theorem h2_digest_eq_two_hosts :
    (h2Get "a.example").uri.authority ≠ (h2Get "b.example").uri.authority ∧
      keyedEnv.requestDigest (h2RequestToMessage (h2Get "a.example")) =
        keyedEnv.requestDigest (h2RequestToMessage (h2Get "b.example")) :=
  ⟨by decide, h2_digest_eq keyedEnv (h2Get "a.example") (h2Get "b.example") (by simp [h2Get])
    (by simp [h2Get]) rfl rfl⟩

/-- The front page of one host is stored and answers the request for the
other's. -/
theorem h2_hosts_share_object : let first := h2RequestToMessage (h2Get "a.example")
    let second := h2RequestToMessage (h2Get "b.example")
    let s := Session.start (CacheEngine.new () 10) 0 first none
    let s' := Session.start (run keyedEnv s 5).cache 5 second none
    (h2Get "a.example").uri.authority ≠ (h2Get "b.example").uri.authority ∧
      cacheKey first = cacheKey second ∧
      keyedEnv.requestDigest first = keyedEnv.requestDigest second ∧
      (run keyedEnv s 5).ctx.state = .done ∧ (run keyedEnv s' 3).ctx.state = .done ∧
      (run keyedEnv s' 3).result.1.getHeader "X-Cache" = some "HIT" ∧
      (run keyedEnv s' 3).result.2 = some [98, 121, 101] := by
  decide +kernel

end VarahaCache
