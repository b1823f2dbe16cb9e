import VarahaCache.Text

/-!
# Sorting a query string

`std.querysort` puts the parameters of a URL in order, so that URLs that differ
in the order of their parameters only become one.
-/

namespace VarahaCache.Vmod

open Text

def sortQueryString (url : String) : String :=
  match splitOnce '?' url with
  | none => url
  | some (base, query) =>
    if query = "" then url
    else
      let (queryPart, fragment) :=
        match splitOnce '#' query with
        | some (q, f) => (q, some f)
        | none => (query, none)
      let result := base ++ "?" ++ joinStr "&" (sortStrings (split '&' queryPart))
      match fragment with
      | some frag => result ++ "#" ++ frag
      | none => result

/-- The parts of a URL whose first question mark comes before any number sign:
what stands before the one, the parameters, and what follows the other. -/
@[ext] structure UrlParts where
  base : String
  params : List String
  fragment : Option String
  base_plain : '?' ∉ base.toList ∧ '#' ∉ base.toList
  params_ne_nil : params ≠ []
  params_plain : ∀ param ∈ params, '&' ∉ param.toList ∧ '#' ∉ param.toList

namespace UrlParts

variable (u : UrlParts)

def query : String := joinStr "&" u.params

def rest : String :=
  match u.fragment with
  | some frag => u.query ++ "#" ++ frag
  | none => u.query

def text : String := u.base ++ "?" ++ u.rest

theorem splitOnce_text : splitOnce '?' u.text = some (u.base, u.rest) := by
  rw [splitOnce_eq_some, text, String.toList_append, String.toList_append, List.append_assoc]
  exact ⟨rfl, u.base_plain.1⟩

theorem split_query : split '&' u.query = u.params :=
  split_intercalate u.params_ne_nil fun param hparam => (u.params_plain param hparam).1

theorem splitOnce_rest : splitOnce '#' u.rest = u.fragment.map fun frag => (u.query, frag) := by
  have hquery : '#' ∉ u.query.toList := by
    intro h
    rcases mem_joinStr h with h | ⟨param, hparam, h⟩
    · simp at h
    · exact (u.params_plain param hparam).2 h
  rw [rest]
  cases u.fragment with
  | none => exact splitOnce_eq_none.mpr hquery
  | some frag =>
    simp only [Option.map_some, splitOnce_eq_some, String.toList_append, List.append_assoc]
    exact ⟨rfl, hquery⟩

theorem text_injective : Function.Injective text := by
  intro u w h
  have hcut := u.splitOnce_text
  rw [h, w.splitOnce_text, Option.some_inj, Prod.mk.injEq] at hcut
  have hrest := u.splitOnce_rest
  rw [← hcut.2, w.splitOnce_rest] at hrest
  have hparts : w.query = u.query ∧ w.fragment = u.fragment := by
    have hboth := hcut.2
    rw [rest, rest] at hboth
    cases hw : w.fragment <;> cases hu : u.fragment <;> simp_all
  have hparams := u.split_query
  rw [← hparts.1, w.split_query] at hparams
  exact UrlParts.ext hcut.1.symm hparams.symm hparts.2.symm

theorem exists_text {url base rest : String} (h : splitOnce '?' url = some (base, rest))
    (hbase : '#' ∉ base.toList) : ∃ u : UrlParts, u.text = url := by
  obtain ⟨hurl, hmark⟩ := splitOnce_eq_some.mp h
  -- the parts of a query without a number sign, followed by any fragment
  have hparts : ∀ query fragment, '#' ∉ query.toList → ∃ u : UrlParts,
      u.base = base ∧ u.query = query ∧ u.fragment = fragment := by
    intro query fragment hquery
    exact ⟨⟨base, split '&' query, fragment, ⟨hmark, hbase⟩, by simp [split],
      fun param hparam => ⟨(mem_split hparam).1, fun hmem => hquery ((mem_split hparam).2 hmem)⟩⟩,
      rfl, joinStr_split '&' query, rfl⟩
  have htext : base ++ "?" ++ rest = url := by
    rw [← String.toList_inj, hurl, String.toList_append, String.toList_append, List.append_assoc]
    rfl
  cases hcut : splitOnce '#' rest with
  | none =>
    obtain ⟨u, rfl, rfl, hfragment⟩ := hparts rest none (splitOnce_eq_none.mp hcut)
    exact ⟨u, by rw [← htext, text, UrlParts.rest, hfragment]⟩
  | some cut =>
    obtain ⟨query, frag⟩ := cut
    obtain ⟨hrest, hquery⟩ := splitOnce_eq_some.mp hcut
    obtain ⟨u, rfl, rfl, hfragment⟩ := hparts query (some frag) hquery
    refine ⟨u, ?_⟩
    rw [← htext, text, UrlParts.rest, hfragment]
    congr 1
    rw [← String.toList_inj, hrest, String.toList_append, String.toList_append, List.append_assoc]
    rfl

/-- The URL with its parameters in order. -/
def sorted : UrlParts where
  base := u.base
  params := sortStrings u.params
  fragment := u.fragment
  base_plain := u.base_plain
  params_ne_nil h := u.params_ne_nil ((h ▸ perm_sortStrings u.params).nil_eq.symm)
  params_plain param h := u.params_plain param ((perm_sortStrings u.params).mem_iff.mp h)

theorem sorted_eq_iff {u w : UrlParts} : u.sorted = w.sorted ↔
    u.base = w.base ∧ u.fragment = w.fragment ∧ u.params.Perm w.params := by
  rw [UrlParts.ext_iff, ← sortStrings_eq_iff, and_comm (a := u.fragment = _)]
  rfl

theorem sortQueryString_text : sortQueryString u.text = u.sorted.text := by
  rw [sortQueryString, u.splitOnce_text]
  simp only [u.splitOnce_rest]
  split
  · rename_i hempty
    -- an empty query is one empty parameter without a fragment
    have hquery : u.query = "" := by
      rw [rest] at hempty
      cases hfragment : u.fragment <;> simp_all
    have hparams : sortStrings u.params = u.params := by
      rw [← u.split_query, hquery]
      rfl
    have hsorted : u.sorted = u := UrlParts.ext rfl hparams rfl
    rw [hsorted]
  have hresult : joinStr "&" (sortStrings (split '&' u.query)) = u.sorted.query := by
    rw [u.split_query]
    rfl
  cases hfragment : u.fragment with
  | none =>
    have hrest : u.rest = u.query := by rw [rest, hfragment]
    simp only [Option.map_none, hrest, hresult]
    rw [text, rest, show u.sorted.fragment = none from hfragment]
    rfl
  | some frag =>
    simp only [Option.map_some, hresult]
    rw [text, rest, show u.sorted.fragment = some frag from hfragment]
    simp only [String.append_assoc]
    rfl

end UrlParts

/-- Sorting is a canonical form of the URLs whose first question mark comes
before any number sign. -/
theorem sortQueryString_canonical :
    (∀ url base rest, splitOnce '?' url = some (base, rest) → '#' ∉ base.toList →
      ∃! u : UrlParts, u.text = url) ∧
    ∀ u : UrlParts,
      (∃ v : UrlParts, sortQueryString u.text = v.text ∧ v.base = u.base ∧
        v.fragment = u.fragment ∧ v.params.Perm u.params) ∧
      sortQueryString (sortQueryString u.text) = sortQueryString u.text ∧
      ∀ w : UrlParts, sortQueryString u.text = sortQueryString w.text ↔
        u.base = w.base ∧ u.fragment = w.fragment ∧ u.params.Perm w.params := by
  refine ⟨fun url base rest h hbase => ?_, fun u => ⟨?_, ?_, fun w => ?_⟩⟩
  · obtain ⟨u, rfl⟩ := UrlParts.exists_text h hbase
    exact ⟨u, rfl, fun w hw => UrlParts.text_injective hw⟩
  · exact ⟨u.sorted, u.sortQueryString_text, rfl, rfl, perm_sortStrings u.params⟩
  · rw [u.sortQueryString_text, u.sorted.sortQueryString_text]
    exact congrArg UrlParts.text (UrlParts.sorted_eq_iff.mpr ⟨rfl, rfl, perm_sortStrings u.params⟩)
  · rw [u.sortQueryString_text, w.sortQueryString_text, UrlParts.text_injective.eq_iff]
    exact UrlParts.sorted_eq_iff

theorem sortQueryString_canonical_page :
    sortQueryString "/p?b=2&a=1#top" = "/p?a=1&b=2#top" ∧
      ∃! u : UrlParts, u.text = "/p?b=2&a=1#top" :=
  ⟨by decide +kernel,
    sortQueryString_canonical.1 _ "/p" "b=2&a=1#top" (by decide +kernel) (by decide +kernel)⟩

end VarahaCache.Vmod
