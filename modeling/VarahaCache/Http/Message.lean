import VarahaCache.Text
import VarahaCache.Types

/-!
# Headers and messages

`rv-http`'s `HeaderMap` — an ordered list of name/value pairs, names
compared without ASCII case — and `HttpMessage`, one type for requests and
responses.
-/

namespace VarahaCache

open Text List

structure Header where
  name : String
  value : String
deriving DecidableEq, Repr

def Header.nameEqIgnoreCase (h : Header) (other : String) : Bool := eqIgnoreAsciiCase h.name other

structure HeaderMap where
  headers : List Header
deriving DecidableEq, Repr

namespace HeaderMap

def new : HeaderMap := ⟨[]⟩

def get (m : HeaderMap) (name : String) : Option String :=
  (m.headers.find? (·.nameEqIgnoreCase name)).map Header.value

def getAll (m : HeaderMap) (name : String) : List String :=
  (m.headers.filter (·.nameEqIgnoreCase name)).map Header.value

def unset (m : HeaderMap) (name : String) : HeaderMap :=
  ⟨m.headers.filter (fun h => !h.nameEqIgnoreCase name)⟩

/-- Replace every header of a name by one at the end. -/
def set (m : HeaderMap) (name value : String) : HeaderMap :=
  ⟨(m.unset name).headers ++ [⟨name, value⟩]⟩

/-- The names the Connection header lists, in lower case. -/
def connectionHeaders (m : HeaderMap) : List String :=
  ((m.get "Connection").map fun v => (split ',' v).map fun s => toAsciiLowercase (trim s)).getD []

def isConnectionHeader (m : HeaderMap) (name : String) : Bool :=
  let lower := toAsciiLowercase name
  lower ∈ ["connection", "keep-alive", "transfer-encoding", "upgrade", "http2-settings"] ||
    lower ∈ m.connectionHeaders

/-- Drop the headers that belong to one connection only. -/
def filterConnectionHeaders (m : HeaderMap) : HeaderMap :=
  ⟨m.headers.filter fun h => !m.isConnectionHeader h.name⟩

variable {m : HeaderMap} {name other : String} {h : Header}

theorem get_eq_none {name : String} :
    m.get name = none ↔ ∀ h ∈ m.headers, h.nameEqIgnoreCase name = false := by
  simp [get]

theorem get_append (l r : List Header) (name : String) :
    (⟨l ++ r⟩ : HeaderMap).get name = ((⟨l⟩ : HeaderMap).get name).or ((⟨r⟩ : HeaderMap).get name) := by
  simp only [get, find?_append]
  cases l.find? (·.nameEqIgnoreCase name) <;> rfl

theorem get_filter {l : List Header} {name : String} {keep : Header → Bool}
    (h : ∀ hd ∈ l, hd.nameEqIgnoreCase name = true → keep hd = true) :
    (⟨l.filter keep⟩ : HeaderMap).get name = (⟨l⟩ : HeaderMap).get name := by
  simp only [get, find?_filter]
  congr 1
  induction l with
  | nil => rfl
  | cons a l ih =>
    have hrest := ih fun hd hmem => h hd (mem_cons_of_mem _ hmem)
    cases hname : a.nameEqIgnoreCase name with
    | true => simp [hname, h a mem_cons_self hname]
    | false => simpa [hname] using hrest

theorem get_unset_of_ne (m : HeaderMap)
    (hne : eqIgnoreAsciiCase name other = false) : (m.unset name).get other = m.get other := by
  refine get_filter fun hd _ hother => ?_
  simp only [Header.nameEqIgnoreCase, eqIgnoreAsciiCase, beq_iff_eq, beq_eq_false_iff_ne,
    Bool.not_eq_true'] at hne hother ⊢
  rw [hother]
  exact hne.symm

theorem get_set (m : HeaderMap) (name value other : String) :
    (m.set name value).get other =
      if eqIgnoreAsciiCase name other then some value else m.get other := by
  rw [set, get_append]
  split
  · rename_i heq
    have hnone : (m.unset name).get other = none := by
      refine get_eq_none.mpr fun hd hmem => ?_
      have hne : hd.nameEqIgnoreCase name = false := by simpa using (mem_filter.mp hmem).2
      simp only [Header.nameEqIgnoreCase, eqIgnoreAsciiCase] at hne ⊢
      rwa [← eqIgnoreAsciiCase_iff.mp heq]
    rw [show (⟨(m.unset name).headers⟩ : HeaderMap).get other = none from hnone]
    simp [get, Header.nameEqIgnoreCase, heq]
  · rename_i hne
    rw [show (⟨(m.unset name).headers⟩ : HeaderMap).get other = m.get other from
      m.get_unset_of_ne (by simpa using hne)]
    simp [get, Header.nameEqIgnoreCase, hne]

theorem get_eq_head? (m : HeaderMap) (name : String) : m.get name = (m.getAll name).head? := by
  rw [get, getAll, head?_map, head?_filter]

theorem getAll_unset_of_ne (m : HeaderMap)
    (hne : eqIgnoreAsciiCase name other = false) : (m.unset name).getAll other = m.getAll other := by
  have hall : ∀ h : Header, (h.nameEqIgnoreCase other && !h.nameEqIgnoreCase name) =
      h.nameEqIgnoreCase other := by
    intro h
    simp only [Header.nameEqIgnoreCase, eqIgnoreAsciiCase, beq_eq_false_iff_ne] at hne ⊢
    by_cases hother : toAsciiLowercase h.name = toAsciiLowercase other
    · simp [hother, Ne.symm hne]
    · simp [hother]
  rw [getAll, unset, filter_filter, filter_congr fun h _ => hall h, getAll]

theorem getAll_set (m : HeaderMap) (name value other : String) :
    (m.set name value).getAll other =
      if eqIgnoreAsciiCase name other then [value] else m.getAll other := by
  have hlast : [(⟨name, value⟩ : Header)].filter (·.nameEqIgnoreCase other) =
      if eqIgnoreAsciiCase name other then [⟨name, value⟩] else [] := by
    rw [filter_singleton, cond_eq_ite]
    rfl
  have happend : (m.set name value).getAll other = (m.unset name).getAll other ++
      ([(⟨name, value⟩ : Header)].filter (·.nameEqIgnoreCase other)).map Header.value := by
    rw [getAll, set, filter_append, map_append, getAll]
  rw [happend, hlast]
  split
  · rename_i heq
    have hnone : m.headers.filter (fun h => h.nameEqIgnoreCase other && !h.nameEqIgnoreCase name) =
        [] := by
      rw [filter_eq_nil_iff]
      intro h _
      simp only [Header.nameEqIgnoreCase, eqIgnoreAsciiCase] at heq ⊢
      rw [eq_of_beq heq]
      simp
    rw [getAll, unset, filter_filter, hnone]
    rfl
  · rename_i hne
    rw [m.getAll_unset_of_ne (by simpa using hne), map_nil, append_nil]

def without (m : HeaderMap) (name : String) : List Header := (m.unset name).headers

theorem mem_without {name : String} :
    h ∈ m.without name ↔ h ∈ m.headers ∧ h.nameEqIgnoreCase name = false := by
  simp [without, unset]

theorem mem_of_mem_set {name value : String}
    (hmem : h ∈ (m.set name value).headers) : h ∈ m.headers ∨ h = ⟨name, value⟩ := by
  rcases mem_append.mp hmem with hmem | hmem
  · exact .inl (mem_without.mp hmem).1
  · exact .inr (mem_singleton.mp hmem)

theorem without_set_of_ne (m : HeaderMap) (value : String)
    (hne : eqIgnoreAsciiCase other name = false) :
    (m.set other value).without name =
      (⟨m.without name⟩ : HeaderMap).without other ++ [⟨other, value⟩] := by
  have hlast : [(⟨other, value⟩ : Header)].filter (fun h => !h.nameEqIgnoreCase name) =
      [⟨other, value⟩] := by
    simp [Header.nameEqIgnoreCase, hne]
  simp only [without, set, unset, filter_append, hlast, filter_filter, Bool.and_comm]

theorem forall_mem_set {name value : String} {p : String → Prop}
    (hp : ∀ a b, eqIgnoreAsciiCase a b = true → (p a ↔ p b)) :
    (∀ h ∈ (m.set name value).headers, p h.name) ↔ p name ∧ ∀ h ∈ m.headers, p h.name := by
  simp only [set, unset, mem_append, mem_filter, mem_singleton]
  constructor
  · intro hall
    have hname : p name := hall ⟨name, value⟩ (.inr rfl)
    refine ⟨hname, ?_⟩
    intro h hm
    by_cases hsame : h.nameEqIgnoreCase name = true
    · exact (hp h.name name hsame).mpr hname
    · exact hall h (.inl ⟨hm, by simpa using hsame⟩)
  · rintro ⟨hname, hall⟩ h (⟨hm, _⟩ | rfl)
    · exact hall h hm
    · exact hname

/-! ### Distinct names

`set` keeps the names of a map distinct. -/

def Distinct (m : HeaderMap) : Prop :=
  m.headers.Pairwise fun a b => a.nameEqIgnoreCase b.name = false

theorem distinct_new : new.Distinct := .nil

theorem Distinct.unset (h : m.Distinct) (name : String) :
    (m.unset name).Distinct := List.Pairwise.filter _ h

theorem Distinct.set (h : m.Distinct) (name value : String) : (m.set name value).Distinct := by
  refine pairwise_append.mpr ⟨h.unset name, pairwise_singleton _ _, ?_⟩
  intro a ha b hb
  rw [mem_singleton.mp hb]
  exact (mem_without.mp ha).2

theorem mem_of_get {name value : String} (h : m.get name = some value) :
    ∃ hd ∈ m.headers, hd.nameEqIgnoreCase name = true ∧ hd.value = value := by
  obtain ⟨hd, hfind, hvalue⟩ := Option.map_eq_some_iff.mp h
  have hname := find?_some (p := fun h : Header => h.nameEqIgnoreCase name) hfind
  exact ⟨hd, mem_of_find?_eq_some hfind, hname, hvalue⟩

end HeaderMap

structure HttpMessage where
  headers : HeaderMap
  status : HttpStatus
  protocol : HttpVersion
  method : HttpMethod
  url : String
  reason : String
  bodyStatus : BodyStatus
deriving DecidableEq, Repr

namespace HttpMessage

def newRequest (method : HttpMethod) (url : String) (version : HttpVersion) : HttpMessage :=
  { headers := .new, status := .ok, protocol := version, method := method, url := url,
    reason := "", bodyStatus := .none }

def newResponse (status : HttpStatus) (version : HttpVersion) : HttpMessage :=
  { headers := .new, status := status, protocol := version, method := .get, url := "",
    reason := status.reason, bodyStatus := .none }

def default : HttpMessage := newRequest .get "/" .http11

def setHeader (m : HttpMessage) (name value : String) : HttpMessage :=
  { m with headers := m.headers.set name value }

def getHeader (m : HttpMessage) (name : String) : Option String := m.headers.get name

def unsetHeader (m : HttpMessage) (name : String) : HttpMessage :=
  { m with headers := m.headers.unset name }

def responseHasBody (m : HttpMessage) : Bool :=
  !m.status.isInformational && m.status != .noContent && m.status != .notModified

variable (m : HttpMessage) (skip : List String) {source : List Header}

@[simp] theorem setHeader_headers (name value : String) :
    (m.setHeader name value).headers = m.headers.set name value := rfl

@[simp] theorem setHeader_status (name value : String) :
    (m.setHeader name value).status = m.status := rfl

theorem getHeader_setHeader (name value other : String) :
    (m.setHeader name value).getHeader other =
      if eqIgnoreAsciiCase name other then some value else m.getHeader other :=
  m.headers.get_set name value other

/-- Copy headers one by one with `set_header`, but for the listed names (in
lower case). -/
def copyHeadersExcept (skip : List String) (m : HttpMessage) (source : List Header) : HttpMessage :=
  source.foldl (fun m h =>
    if toLowercase h.name ∈ skip then m else m.setHeader h.name h.value) m

@[simp] theorem copyHeadersExcept_status (m : HttpMessage)
    (source : List Header) : (copyHeadersExcept skip m source).status = m.status := by
  induction source generalizing m with
  | nil => rfl
  | cons h rest ih =>
    simp only [copyHeadersExcept, foldl_cons] at ih ⊢
    split
    · exact ih m
    · rw [ih, setHeader_status]

theorem copyHeadersExcept_induction {P : HeaderMap → Prop} (skip : List String) (m : HttpMessage)
    (source : List Header) (hm : P m.headers)
    (hset : ∀ headers, P headers → ∀ h ∈ source, P (headers.set h.name h.value)) :
    ∃ headers, copyHeadersExcept skip m source = { m with headers := headers } ∧ P headers := by
  induction source generalizing m with
  | nil => exact ⟨m.headers, rfl, hm⟩
  | cons h rest ih =>
    have hrest : ∀ headers, P headers → ∀ k ∈ rest, P (headers.set k.name k.value) :=
      fun headers hp k hk => hset headers hp k (mem_cons_of_mem _ hk)
    simp only [copyHeadersExcept, foldl_cons] at ih ⊢
    split
    · exact ih m hm hrest
    · exact ih _ (hset _ hm h mem_cons_self) hrest

/-- Copying headers one by one leaves the last value under a name, or what
was there. -/
theorem getAll_copyHeadersExcept (m : HttpMessage) (source : List Header)
    {name : String} (hskip : toLowercase name ∉ skip) :
    (copyHeadersExcept skip m source).headers.getAll name =
      match (source.filter (·.nameEqIgnoreCase name)).getLast? with
      | some h => [h.value]
      | none => m.headers.getAll name := by
  induction source generalizing m with
  | nil => rfl
  | cons h rest ih =>
    simp only [copyHeadersExcept, foldl_cons] at ih ⊢
    by_cases hname : h.nameEqIgnoreCase name = true
    · have hkeep : toLowercase h.name ∉ skip := by
        rwa [toLowercase_congr hname]
      have hset : (m.headers.set h.name h.value).getAll name = [h.value] := by
        rw [HeaderMap.getAll_set]
        exact if_pos hname
      have hfilter : (h :: rest).filter (·.nameEqIgnoreCase name) =
          h :: rest.filter (·.nameEqIgnoreCase name) := filter_cons_of_pos (by exact hname)
      rw [if_neg hkeep, ih, setHeader_headers, hset, hfilter, getLast?_cons]
      cases (rest.filter (·.nameEqIgnoreCase name)).getLast? <;> rfl
    have hset : ∀ value, (m.headers.set h.name value).getAll name = m.headers.getAll name := by
      intro value
      rw [HeaderMap.getAll_set]
      exact if_neg hname
    have hfilter : (h :: rest).filter (·.nameEqIgnoreCase name) =
        rest.filter (·.nameEqIgnoreCase name) := filter_cons_of_neg (by exact hname)
    rw [hfilter]
    split
    · exact ih m
    · rw [ih, setHeader_headers, hset]

/-- Copying headers of distinct names: they come last, in order, and
replace what had their names. -/
theorem copyHeadersExcept_headers (skip : List String) (m : HttpMessage)
    (hd : (⟨source⟩ : HeaderMap).Distinct) :
    let kept := source.filter fun h => toLowercase h.name ∉ skip
    (copyHeadersExcept skip m source).headers.headers =
      (m.headers.headers.filter fun h => kept.all fun k => !h.nameEqIgnoreCase k.name) ++ kept := by
  induction source generalizing m with
  | nil => simp [copyHeadersExcept]
  | cons h rest ih =>
    obtain ⟨hne, hrest⟩ := pairwise_cons.mp hd
    simp only [copyHeadersExcept, foldl_cons] at ih ⊢
    by_cases hskip : toLowercase h.name ∈ skip
    · simp [hskip, ih m hrest]
    -- what follows `h` has other names, so that `h` stays
    have hlast : [h].filter (fun a => (rest.filter fun k => toLowercase k.name ∉ skip).all
        fun k => !a.nameEqIgnoreCase k.name) = [h] := by
      simp only [filter_eq_self, mem_singleton, forall_eq, all_eq_true]
      intro k hk
      simp [hne k (mem_filter.mp hk).1]
    have hkept : (h :: rest).filter (fun k => toLowercase k.name ∉ skip) =
        h :: rest.filter fun k => toLowercase k.name ∉ skip := by simp [hskip]
    rw [if_neg hskip, ih _ hrest, hkept, setHeader_headers, HeaderMap.set, HeaderMap.unset,
      filter_append, hlast, filter_filter, append_assoc]
    simp [Bool.and_comm]

theorem forall_mem_copyHeadersExcept {skip : List String} {m : HttpMessage}
    {p : String → Prop} (hp : ∀ a b, eqIgnoreAsciiCase a b = true → (p a ↔ p b)) :
    (∀ h ∈ (copyHeadersExcept skip m source).headers.headers, p h.name) ↔
      (∀ h ∈ m.headers.headers, p h.name) ∧ ∀ h ∈ source, toLowercase h.name ∈ skip ∨ p h.name := by
  induction source generalizing m with
  | nil => simp [copyHeadersExcept]
  | cons h rest ih =>
    simp only [copyHeadersExcept, foldl_cons] at ih ⊢
    by_cases hskip : toLowercase h.name ∈ skip
    · rw [if_pos hskip, ih, forall_mem_cons]
      simp [hskip]
    rw [if_neg hskip, ih, setHeader_headers, HeaderMap.forall_mem_set hp, forall_mem_cons]
    simp only [hskip, false_or]
    tauto

end HttpMessage

end VarahaCache
