import Mathlib.Data.List.AList
import VarahaCache.Text

/-!
# The cookie jar

`vmod_cookie` reads a `Cookie` header into a map and writes the map back as one.
-/

namespace VarahaCache.Vmod

open Text List

/-- The jar; the entries stand in the order in which the hash map gives them. -/
abbrev CookieJar := AList fun _ : String => String

namespace CookieJar

/-- What `parse` does with one piece of the header value. -/
def parsePair (jar : CookieJar) (piece : String) : CookieJar :=
  let pair := trim piece
  if pair = "" then jar
  else
    match splitOnce '=' pair with
    | some (name, value) => if trim name = "" then jar else jar.insert (trim name) (trim value)
    | none => jar

def parse (jar : CookieJar) (headerValue : String) : CookieJar :=
  (split ';' headerValue).foldl parsePair jar

def formatPair (name value : String) : String := name ++ "=" ++ value

def toHeaderValue (jar : CookieJar) : String :=
  joinStr "; " (sortStrings (jar.entries.map fun pair => formatPair pair.1 pair.2))

/-- The trimmed value of a piece that is a pair with the given, non-empty, trimmed
name. -/
def valueOf (name piece : String) : Option String :=
  match splitOnce '=' piece with
  | some (before, after) => if trim before = name ∧ name ≠ "" then some (trim after) else none
  | none => none

variable {jar : CookieJar} {s name value piece : String}

theorem valueOf_eq_some : valueOf name piece = some value ↔
    ∃ before after, splitOnce '=' piece = some (before, after) ∧ trim before = name ∧ name ≠ "" ∧
      trim after = value := by
  rw [valueOf]
  cases splitOnce '=' piece with
  | none => simp
  | some cut =>
    simp only [Option.ite_none_right_eq_some, Option.some_inj]
    constructor
    · rintro ⟨⟨hname, hne⟩, hvalue⟩
      exact ⟨_, _, rfl, hname, hne, hvalue⟩
    · rintro ⟨before, after, rfl, hname, hne, hvalue⟩
      exact ⟨⟨hname, hne⟩, hvalue⟩

/-- A piece is the same pair before and after it is trimmed. -/
theorem valueOf_trim (name piece : String) : valueOf name (trim piece) = valueOf name piece := by
  obtain ⟨front, back, hpiece, hfront, hback⟩ := exists_trim piece
  cases hcut : splitOnce '=' (trim piece) with
  | none =>
    have hnone : '=' ∉ piece.toList := fun hmem =>
      splitOnce_eq_none.mp hcut (mem_trim_of_mem hmem (by simp [isWhitespace]))
    rw [valueOf, valueOf, hcut, splitOnce_eq_none.mpr hnone]
  | some cut =>
    obtain ⟨before, after⟩ := cut
    obtain ⟨htrim, hbefore⟩ := splitOnce_eq_some.mp hcut
    have hwhole : splitOnce '=' piece =
        some (String.ofList (front ++ before.toList), String.ofList (after.toList ++ back)) := by
      rw [splitOnce_eq_some, hpiece, htrim, String.toList_ofList, String.toList_ofList]
      refine ⟨by simp, ?_⟩
      rw [mem_append, not_or]
      exact ⟨fun hmem => absurd (hfront _ hmem) (by simp [isWhitespace]), hbefore⟩
    have hname := trim_pad hfront (forall_mem_nil _) before.toList
    have hvalue := trim_pad (forall_mem_nil _) hback after.toList
    rw [append_nil, String.ofList_toList] at hname
    rw [nil_append, String.ofList_toList] at hvalue
    simp only [valueOf, hcut, hwhole, hname, hvalue]

theorem lookup_parsePair (jar : CookieJar) (name piece : String) :
    (parsePair jar piece).lookup name = (valueOf name piece).or (jar.lookup name) := by
  rw [← valueOf_trim, parsePair, valueOf]
  split
  · rename_i hempty
    rw [hempty]
    rfl
  cases splitOnce '=' (trim piece) with
  | none => rfl
  | some cut =>
    obtain ⟨before, after⟩ := cut
    dsimp only
    by_cases hname : trim before = ""
    · rw [if_pos hname, if_neg fun h => h.2 (h.1 ▸ hname)]
      rfl
    rw [if_neg hname]
    by_cases hsame : trim before = name
    · rw [if_pos ⟨hsame, hsame ▸ hname⟩, hsame, AList.lookup_insert]
      rfl
    · rw [if_neg fun h => hsame h.1, AList.lookup_insert_ne (Ne.symm hsame)]
      rfl

theorem lookup_foldl_parsePair (pieces : List String) (jar : CookieJar) (name : String) :
    (pieces.foldl parsePair jar).lookup name =
      (pieces.filterMap (valueOf name)).getLast?.or (jar.lookup name) := by
  induction pieces generalizing jar with
  | nil => rfl
  | cons piece pieces ih =>
    rw [foldl_cons, ih, lookup_parsePair, filterMap_cons]
    cases valueOf name piece with
    | none => rfl
    | some value =>
      rw [getLast?_cons, Option.some_or, Option.some_or]
      cases (pieces.filterMap (valueOf name)).getLast? <;> rfl

theorem lookup_parse (s name : String) :
    (parse ∅ s).lookup name = ((split ';' s).filterMap (valueOf name)).getLast? := by
  rw [parse, lookup_foldl_parsePair, AList.lookup_empty, Option.or_none]

/-- What `parse` makes sure of in every pair it adds. -/
structure Plain (name value : String) : Prop where
  name_ne : name ≠ ""
  trim_name : trim name = name
  trim_value : trim value = value
  name_eq : '=' ∉ name.toList
  name_semicolon : ';' ∉ name.toList
  value_semicolon : ';' ∉ value.toList

theorem plain_of_lookup_parse (h : (parse ∅ s).lookup name = some value) : Plain name value := by
  rw [lookup_parse] at h
  obtain ⟨piece, hpiece, hvalue⟩ := mem_filterMap.mp (mem_of_getLast? h)
  obtain ⟨before, after, hcut, rfl, hname, rfl⟩ := valueOf_eq_some.mp hvalue
  obtain ⟨hwhole, hbefore⟩ := splitOnce_eq_some.mp hcut
  have hsemicolon := (mem_split hpiece).1
  rw [hwhole, mem_append, mem_cons, not_or, not_or] at hsemicolon
  exact {
    name_ne := hname
    trim_name := trim_trim before
    trim_value := trim_trim after
    name_eq := fun hmem => hbefore (mem_of_mem_trim hmem)
    name_semicolon := fun hmem => hsemicolon.1 (mem_of_mem_trim hmem)
    value_semicolon := fun hmem => hsemicolon.2.2 (mem_of_mem_trim hmem) }

theorem valueOf_formatPair (h : Plain name value) {other read : String} :
    valueOf other (formatPair name value) = some read ↔ name = other ∧ value = read := by
  have hcut : splitOnce '=' (formatPair name value) = some (name, value) := by
    rw [splitOnce_eq_some]
    exact ⟨by simp [formatPair], h.name_eq⟩
  rw [valueOf, hcut]
  simp only [h.trim_name, h.trim_value, Option.ite_none_right_eq_some, Option.some_inj]
  exact and_congr_left fun _ => and_iff_left_of_imp fun hname => hname ▸ h.name_ne

theorem valueOf_blank (name piece : String) : valueOf name (" " ++ piece) = valueOf name piece := by
  have hblank : ∀ c ∈ [' '], isWhitespace c = true := by simp [isWhitespace]
  have hpad := trim_pad hblank (forall_mem_nil _) piece.toList
  rw [append_nil, String.ofList_toList] at hpad
  rw [← valueOf_trim, ← valueOf_trim name piece, ← hpad, String.ofList_append, String.ofList_toList]

theorem filterMap_split_joinStr {pieces : List String}
    (h : ∀ piece ∈ pieces, ';' ∉ piece.toList) (name : String) :
    (split ';' (joinStr "; " pieces)).filterMap (valueOf name) =
      pieces.filterMap (valueOf name) := by
  cases pieces with
  | nil => rfl
  | cons piece pieces =>
    induction pieces generalizing piece with
    | nil => rw [joinStr_singleton, split_of_notMem (h piece mem_cons_self)]
    | cons next pieces ih =>
      have hjoin : joinStr "; " (piece :: next :: pieces) =
          piece ++ (String.singleton ';' ++ joinStr "; " ((" " ++ next) :: pieces)) := by
        have hsep : "; " = String.singleton ';' ++ " " := rfl
        cases pieces <;>
          simp only [joinStr_singleton, joinStr_cons_cons, String.append_assoc, hsep]
      have hpieces : ∀ other ∈ (" " ++ next) :: pieces, ';' ∉ other.toList := by
        intro other hother
        rcases mem_cons.mp hother with rfl | hother
        · simpa using h next (by simp)
        · exact h other (by simp [hother])
      rw [hjoin, split_append_cons (h piece mem_cons_self), filterMap_cons,
        filterMap_cons, ih _ hpieces, filterMap_cons, filterMap_cons, valueOf_blank]

/-- Formatting loses nothing: the map is read back, whatever the order of its
entries. -/
theorem lookup_parse_toHeaderValue
    (h : ∀ name value, jar.lookup name = some value → Plain name value) (name : String) :
    (parse ∅ jar.toHeaderValue).lookup name = jar.lookup name := by
  rw [lookup_parse, toHeaderValue]
  generalize hpieces : sortStrings (jar.entries.map fun pair => formatPair pair.1 pair.2) = pieces
  have hpiece : ∀ piece, piece ∈ pieces ↔
      ∃ name value, jar.lookup name = some value ∧ formatPair name value = piece := by
    intro piece
    rw [← hpieces, (perm_sortStrings _).mem_iff, mem_map, Sigma.exists]
    simp only [← AList.mem_lookup_iff, Option.mem_def]
  have hplain : ∀ piece ∈ pieces, ';' ∉ piece.toList := by
    intro piece hmem
    obtain ⟨name, value, hlookup, rfl⟩ := (hpiece piece).mp hmem
    have hpair := h name value hlookup
    simp [formatPair, hpair.name_semicolon, hpair.value_semicolon]
  -- the values that are read for a name are that of its entry
  have hvalue : ∀ value,
      value ∈ pieces.filterMap (valueOf name) ↔ jar.lookup name = some value := by
    intro value
    rw [mem_filterMap]
    constructor
    · rintro ⟨piece, hmem, hread⟩
      obtain ⟨other, written, hlookup, rfl⟩ := (hpiece piece).mp hmem
      obtain ⟨rfl, rfl⟩ := (valueOf_formatPair (h other written hlookup)).mp hread
      exact hlookup
    · intro hlookup
      exact ⟨_, (hpiece _).mpr ⟨name, value, hlookup, rfl⟩,
        (valueOf_formatPair (h name value hlookup)).mpr ⟨rfl, rfl⟩⟩
  rw [filterMap_split_joinStr hplain]
  cases hlast : getLast? _ with
  | none =>
    rw [getLast?_eq_none_iff.mp hlast] at hvalue
    exact (Option.eq_none_iff_forall_ne_some.mpr fun value hlookup =>
      not_mem_nil ((hvalue value).mpr hlookup)).symm
  | some value => exact ((hvalue value).mp (mem_of_getLast? hlast)).symm

/-- Parsing, formatting in any order of the map's entries and parsing again give
the map of the last pairs of the text. -/
theorem cookies_survive_formatting (s : String) :
    (∀ jar : CookieJar, (∀ name, jar.lookup name = (parse ∅ s).lookup name) →
      ∀ name, (parse ∅ jar.toHeaderValue).lookup name = (parse ∅ s).lookup name) ∧
    ∀ name, (parse ∅ s).lookup name = ((split ';' s).filterMap (valueOf name)).getLast? := by
  refine ⟨fun jar hjar name => ?_, lookup_parse s⟩
  rw [← hjar name]
  refine lookup_parse_toHeaderValue (fun other value hlookup => ?_) name
  exact plain_of_lookup_parse ((hjar other).symm.trans hlookup)

theorem cookies_survive_formatting_twice :
    ∀ name, (parse ∅ (parse ∅ " b = 2;a;b=x=y ; =z").toHeaderValue).lookup name =
      (parse ∅ " b = 2;a;b=x=y ; =z").lookup name :=
  (cookies_survive_formatting _).1 _ fun _ => rfl

end CookieJar

end VarahaCache.Vmod
