import Mathlib.Data.List.Chain
import VarahaCache.Lib.Search
import VarahaCache.Text

/-!
# Edge side includes

`parse_esi` cuts a body into literals and the tags it takes; `EsiProcessor` applies
it to every chunk of a delivery. A slice `body[pos..]` of the source is here the
list of the bytes that are left.
-/

namespace VarahaCache.Filter

open Text Lib.Search List Option

inductive EsiFragment where
  | literal (data : List UInt8)
  | includeSrc (src : String)
  | remove
deriving DecidableEq

def opening : List UInt8 := asBytes "<esi:"

def pushLiteral (fragments : List EsiFragment) (data : List UInt8) : List EsiFragment :=
  if data = [] then fragments
  else
    match fragments.getLast? with
    | some (.literal existing) => fragments.dropLast ++ [.literal (existing ++ data)]
    | _ => fragments ++ [.literal data]

/-- The text of the `src` attribute in the content of an include tag. -/
def srcOf (tagContent : List UInt8) : Option String := do
  let srcStart ← find (asBytes "src=\"") tagContent
  let url := tagContent.drop (srcStart + 5)
  let urlLength ← find (asBytes "\"") url
  fromUtf8 (url.take urlLength)

/-- The address and the length of the tag that the bytes start with. -/
def parseEsiInclude (tag : List UInt8) : Option (String × ℕ) := do
  let close ← find (asBytes "/>") tag
  let src ← srcOf (tag.take close)
  some (src, close + 2)

def parseEsiRemove (tag : List UInt8) : Option ℕ := do
  let close ← find (asBytes "</esi:remove>") tag
  some (close + 13)

def parseEsiComment (tag : List UInt8) : Option ℕ := do
  let close ← find (asBytes "/>") tag
  some (close + 2)

inductive Tag where
  | includeSrc (src : String)
  | remove
  | comment
deriving DecidableEq

/-- The tag that the bytes start with and its length, if it is taken. -/
def parseTag (tag : List UInt8) : Option (Tag × ℕ) :=
  if At (asBytes "include") tag 5 then
    (parseEsiInclude tag).map fun found => (.includeSrc found.1, found.2)
  else if At (asBytes "remove") tag 5 then (parseEsiRemove tag).map fun n => (.remove, n)
  else if At (asBytes "comment") tag 5 then (parseEsiComment tag).map fun n => (.comment, n)
  else none

/-- The loop of `parse_esi`; every turn takes a byte at least. -/
def parseLoop : ℕ → List UInt8 → List EsiFragment → List EsiFragment
  | 0, _, fragments => fragments
  | fuel + 1, rest, fragments =>
    if rest = [] then fragments
    else
      match find opening rest with
      | none => pushLiteral fragments rest
      | some tagStart =>
        let fragments :=
          if 0 < tagStart then pushLiteral fragments (rest.take tagStart) else fragments
        let tag := rest.drop tagStart
        match parseTag tag with
        | some (.includeSrc src, n) => parseLoop fuel (tag.drop n) (fragments ++ [.includeSrc src])
        | some (.remove, n) => parseLoop fuel (tag.drop n) (fragments ++ [.remove])
        | some (.comment, n) => parseLoop fuel (tag.drop n) fragments
        | none => parseLoop fuel (tag.drop 1) (pushLiteral fragments (tag.take 1))

def parseEsi (body : List UInt8) : List EsiFragment := parseLoop body.length body []

/-! ## What a tag is -/

namespace Tag

def name : Tag → List UInt8
  | includeSrc _ => asBytes "include"
  | remove => asBytes "remove"
  | comment => asBytes "comment"

def closing : Tag → List UInt8
  | remove => asBytes "</esi:remove>"
  | includeSrc _ | comment => asBytes "/>"

/-- The content of an include tag has its address. -/
def Reads : Tag → List UInt8 → Prop
  | includeSrc src, content => srcOf content = some src
  | _, _ => True

end Tag

variable {tag body : List UInt8} {t : Tag} {n i : ℕ}

theorem at_name (hopen : opening <+: tag) : At t.name tag 5 ↔ opening ++ t.name <+: tag := by
  obtain ⟨rest, rfl⟩ := hopen
  have hne : t.name ≠ [] := by cases t <;> simp [Tag.name, asBytes_eq_nil]
  rw [At, prefix_append_right_inj]
  exact and_iff_right hne

theorem parseTag_eq_some (hopen : opening <+: tag) : parseTag tag = some (t, n) ↔
    opening ++ t.name <+: tag ∧ ∃ i, find t.closing tag = some i ∧ i + t.closing.length = n ∧
      t.Reads (tag.take i) := by
  rw [← at_name hopen, parseTag]
  constructor
  · intro h
    split at h
    · rename_i hname
      obtain ⟨⟨src, close⟩, hfound, ⟨⟩⟩ := map_eq_some_iff.mp h
      simp only [parseEsiInclude, bind_eq_bind, bind_eq_some_iff, some_inj,
        Prod.mk.injEq] at hfound
      obtain ⟨i, hfind, _, hsrc, rfl, rfl⟩ := hfound
      exact ⟨hname, i, hfind, rfl, hsrc⟩
    split at h
    · rename_i hname
      obtain ⟨close, hfound, ⟨⟩⟩ := map_eq_some_iff.mp h
      simp only [parseEsiRemove, bind_eq_bind, bind_eq_some_iff,
        some_inj] at hfound
      obtain ⟨i, hfind, rfl⟩ := hfound
      exact ⟨hname, i, hfind, rfl, trivial⟩
    split at h
    · rename_i hname
      obtain ⟨close, hfound, ⟨⟩⟩ := map_eq_some_iff.mp h
      simp only [parseEsiComment, bind_eq_bind, bind_eq_some_iff,
        some_inj] at hfound
      obtain ⟨i, hfind, rfl⟩ := hfound
      exact ⟨hname, i, hfind, rfl, trivial⟩
    · cases h
  · -- no name begins another, so the one that stands there is the one tested
    have hnot : ∀ {a b : List UInt8}, At a tag 5 → ¬ a <+: b → ¬ b <+: a → ¬ At b tag 5 :=
      fun ha hab hba hb => ( prefix_or_prefix_of_prefix ha.2 hb.2).elim hab hba
    rintro ⟨hname, i, hfind, rfl, hreads⟩
    cases t with
      dsimp only [Tag.name, Tag.closing, Tag.Reads] at hname hfind hreads
    | includeSrc src =>
      rw [if_pos hname, parseEsiInclude, hfind]
      simp only [bind_eq_bind, bind_some, hreads]
      rfl
    | remove =>
      rw [if_neg (hnot hname (by decide) (by decide)), if_pos hname, parseEsiRemove, hfind]
      rfl
    | comment =>
      rw [if_neg (hnot hname (by decide) (by decide)), if_neg (hnot hname (by decide) (by decide)),
        if_pos hname, parseEsiComment, hfind]
      rfl

theorem parseTag_append (hopen : opening <+: tag) (h : parseTag tag = some (t, n))
    (rest : List UInt8) : parseTag (tag ++ rest) = some (t, n) := by
  obtain ⟨hname, i, hfind, hn, hreads⟩ := (parseTag_eq_some hopen).mp h
  refine (parseTag_eq_some (hopen.trans ( prefix_append _ _))).mpr
    ⟨hname.trans (prefix_append _ _), i, find_append hfind rest, hn, ?_⟩
  rw [take_append_of_le_length (find_eq_some.mp hfind).1.lt.le]
  exact hreads

/-- A tag by itself is the same tag, from its name to the first end of it. -/
theorem parseTag_take (hopen : opening <+: tag) (h : parseTag tag = some (t, n)) :
    n ≤ tag.length ∧ opening ++ t.name <+: tag.take n ∧
      parseTag (tag.take n) = some (t, (tag.take n).length) := by
  obtain ⟨hname, i, hfind, rfl, hreads⟩ := (parseTag_eq_some hopen).mp h
  have hslash : 47 ∈ t.closing ∧ 47 ∉ opening ++ t.name := by
    cases t <;> simp only [Tag.closing, Tag.name] <;> decide
  have hkept := isPrefix_take hfind hname hslash.1 hslash.2
  have hle := (find_eq_some.mp hfind).1.end_le
  refine ⟨hle, hkept, (parseTag_eq_some ?_).mpr ⟨hkept, i, find_take hfind, ?_, ?_⟩⟩
  · exact (prefix_append _ _).trans hkept
  · rw [length_take, Nat.min_eq_left hle]
  · rw [take_take, Nat.min_eq_left (Nat.le_add_right _ _)]
    exact hreads

/-! ## The division of the body -/

/-- A part of the body: a tag that was taken, or text. -/
structure Piece where
  tag : Option Tag
  bytes : List UInt8
deriving DecidableEq

/-- The turns of the loop, with the bytes that each of them takes. -/
def division : ℕ → List UInt8 → List Piece
  | 0, _ => []
  | fuel + 1, rest =>
    if rest = [] then []
    else
      match find opening rest with
      | none => [⟨none, rest⟩]
      | some start =>
        ⟨none, rest.take start⟩ ::
          match parseTag (rest.drop start) with
          | some (t, n) =>
            ⟨some t, (rest.drop start).take n⟩ :: division fuel ((rest.drop start).drop n)
          | none => ⟨none, (rest.drop start).take 1⟩ :: division fuel ((rest.drop start).drop 1)

def pieces (body : List UInt8) : List Piece := division body.length body

/-- What the loop pushes for a piece. -/
def push (fragments : List EsiFragment) (piece : Piece) : List EsiFragment :=
  match piece.tag with
  | none => pushLiteral fragments piece.bytes
  | some (.includeSrc src) => fragments ++ [.includeSrc src]
  | some .remove => fragments ++ [.remove]
  | some .comment => fragments

variable (data : List UInt8) (fuel : ℕ) (rest : List UInt8) (fragments : List EsiFragment)
  (ps : List Piece)

theorem parseLoop_eq :
    parseLoop fuel rest fragments = (division fuel rest).foldl push fragments := by
  induction fuel generalizing rest fragments with
  | zero => rfl
  | succ fuel ih =>
    rw [parseLoop, division]
    split
    · rfl
    cases find opening rest with
    | none => rfl
    | some start =>
      have hbefore : (if 0 < start then pushLiteral fragments (rest.take start) else fragments) =
          push fragments ⟨none, rest.take start⟩ := by
        split
        · rfl
        rename_i hstart
        obtain rfl : start = 0 := by omega
        rfl
      simp only [hbefore, foldl_cons]
      rcases parseTag (rest.drop start) with _ | ⟨_ | _ | _, n⟩
      all_goals exact ih _ _

/-- What one turn does where a tag could begin: it takes the text before and then
either the tag or one byte. -/
theorem division_step {rest : List UInt8} {start : ℕ} (hfind : find opening rest = some start)
    (fuel : ℕ) : ∃ mark n, 0 < n ∧ n ≤ (rest.drop start).length ∧
      division (fuel + 1) rest = ⟨none, rest.take start⟩ ::
        ⟨mark, (rest.drop start).take n⟩ :: division fuel ((rest.drop start).drop n) ∧
      (mark = none → n = 1 ∧ parseTag (rest.drop start) = none) ∧
      ∀ t, mark = some t → parseTag (rest.drop start) = some (t, n) := by
  obtain ⟨hopen, -⟩ := find_eq_some.mp hfind
  have hne : rest ≠ [] := ne_nil_of_length_pos (Nat.zero_lt_of_lt hopen.lt)
  rw [division, if_neg hne, hfind]
  simp only
  cases htag : parseTag (rest.drop start) with
  | none =>
    refine ⟨none, 1, Nat.one_pos, ?_, rfl, fun _ => ⟨rfl, rfl⟩, by simp⟩
    have hlt := hopen.lt
    rw [length_drop]
    omega
  | some found =>
    obtain ⟨t, n⟩ := found
    obtain ⟨hn, hname, -⟩ := parseTag_take hopen.2 htag
    refine ⟨some t, n, ?_, hn, rfl, by simp, fun _ h => by rw [some_inj.mp h]⟩
    have hle := hname.length_le
    have hopening : opening.length = 5 := by decide
    rw [length_append, length_take] at hle
    omega

/-- The division is one of the body, and a piece that is a tag is one by itself. -/
theorem division_spec (h : rest.length ≤ fuel) :
    (division fuel rest).flatMap Piece.bytes = rest ∧
      ∀ piece ∈ division fuel rest, ∀ t, piece.tag = some t →
        opening ++ t.name <+: piece.bytes ∧
          parseTag piece.bytes = some (t, piece.bytes.length) := by
  induction fuel generalizing rest with
  | zero =>
    obtain rfl := length_eq_zero_iff.mp (Nat.le_zero.mp h)
    exact ⟨rfl, by simp [division]⟩
  | succ fuel ih =>
    cases hfind : find opening rest with
    | none =>
      rw [division, hfind]
      split
      · rename_i hempty
        exact ⟨hempty.symm, by simp⟩
      · exact ⟨by simp, by simp⟩
    | some start =>
      obtain ⟨mark, n, hpos, -, hdivision, -, htag⟩ := division_step hfind fuel
      have hrest := ih ((rest.drop start).drop n) (by simp only [length_drop]; omega)
      simp only [hdivision, flatMap_cons, forall_mem_cons, hrest.1]
      refine ⟨by rw [take_append_drop, take_append_drop], by simp, fun t ht => ?_, hrest.2⟩
      exact (parseTag_take (find_eq_some.mp hfind).1.2 (htag t ht)).2

/-! ## Merging -/

/-- Text before a sequence of fragments. -/
def consLiteral (data : List UInt8) (fragments : List EsiFragment) : List EsiFragment :=
  if data = [] then fragments
  else
    match fragments with
    | .literal next :: fragments => .literal (data ++ next) :: fragments
    | fragments => .literal data :: fragments

/-- The fragments of a division: comments are dropped and neighbouring texts merged. -/
def merged : List Piece → List EsiFragment
  | [] => []
  | ⟨none, bytes⟩ :: ps => consLiteral bytes (merged ps)
  | ⟨some (.includeSrc src), _⟩ :: ps => .includeSrc src :: merged ps
  | ⟨some .remove, _⟩ :: ps => .remove :: merged ps
  | ⟨some .comment, _⟩ :: ps => merged ps

/-- Fragments behind fragments, the texts where they meet being merged. -/
def glue (fragments later : List EsiFragment) : List EsiFragment :=
  match fragments.getLast?, later with
  | some (.literal data), .literal next :: later =>
    fragments.dropLast ++ .literal (data ++ next) :: later
  | _, _ => fragments ++ later

theorem glue_pushLiteral (later : List EsiFragment) (data : List UInt8) :
    glue (pushLiteral fragments data) later = glue fragments (consLiteral data later) := by
  by_cases hdata : data = []
  · rw [pushLiteral, consLiteral.eq_def, if_pos hdata, if_pos hdata]
  rw [pushLiteral, consLiteral.eq_def, if_neg hdata, if_neg hdata]
  -- the last fragment before, and the first one behind, are texts or not
  rcases hlast : fragments.getLast? with _ | ⟨_ | _ | _⟩
  all_goals
    rcases later with _ | ⟨_ | _ | _, later⟩
    all_goals simp [glue, hlast]

theorem foldl_push (fragments : List EsiFragment) :
    ps.foldl push fragments = glue fragments (merged ps) := by
  induction ps generalizing fragments with
  | nil => simp [merged, glue]
  | cons piece ps ih =>
    rw [foldl_cons, ih]
    rcases piece with ⟨_ | _ | _ | _, bytes⟩
    · exact glue_pushLiteral fragments (merged ps) bytes
    · simp [push, merged, glue]
    · simp [push, merged, glue]
    · rfl

/-- No text is empty and no two texts are neighbours. -/
def Tidy (fragments : List EsiFragment) : Prop :=
  .literal [] ∉ fragments ∧
    fragments.IsChain fun f g => ¬ ∃ a b, f = .literal a ∧ g = .literal b

theorem tidy_consLiteral {fragments : List EsiFragment} (h : Tidy fragments) :
    Tidy (consLiteral data fragments) := by
  rw [consLiteral.eq_def]
  split
  · exact h
  rename_i hdata
  rcases fragments with _ | ⟨_ | _ | _, fragments⟩
  all_goals simp_all [Tidy, isChain_cons]

theorem tidy_merged : Tidy (merged ps) := by
  induction ps with
  | nil => simp [merged, Tidy]
  | cons piece ps ih =>
    rcases piece with ⟨_ | _ | _ | _, bytes⟩
    · exact tidy_consLiteral bytes ih
    · simpa [merged, Tidy, isChain_cons] using ih
    · simpa [merged, Tidy, isChain_cons] using ih
    · exact ih

theorem parseEsi_eq (body : List UInt8) : parseEsi body = merged (pieces body) := by
  rw [parseEsi, parseLoop_eq, foldl_push]
  rfl

theorem pieces_spec (body : List UInt8) : (pieces body).flatMap Piece.bytes = body ∧
    ∀ piece ∈ pieces body, ∀ t, piece.tag = some t → opening ++ t.name <+: piece.bytes ∧
      parseTag piece.bytes = some (t, piece.bytes.length) :=
  division_spec body.length body le_rfl

/-- From the name of the tag to the first end of it. -/
def Tag.Spans (t : Tag) (bytes : List UInt8) : Prop :=
  opening ++ t.name <+: bytes ∧
    ∃ i, find t.closing bytes = some i ∧ i + t.closing.length = bytes.length

/-- Parsing loses nothing outside tags. -/
theorem parseEsi_division (body : List UInt8) : ∃ ps : List Piece,
    ps.flatMap Piece.bytes = body ∧ parseEsi body = merged ps ∧
    (∀ piece ∈ ps, ∀ t, piece.tag = some t → t.Spans piece.bytes) ∧ Tidy (parseEsi body) ∧
    (body ≠ [] → (∀ i, ¬ At opening body i) → parseEsi body = [.literal body]) := by
  refine ⟨pieces body, (pieces_spec body).1, parseEsi_eq body, fun piece hpiece t ht => ?_,
    parseEsi_eq body ▸ tidy_merged _, fun hne hnone => ?_⟩
  · obtain ⟨hname, hself⟩ := (pieces_spec body).2 piece hpiece t ht
    obtain ⟨-, i, hfind, hend, -⟩ :=
      (parseTag_eq_some ((prefix_append _ _).trans hname)).mp hself
    exact ⟨hname, i, hfind, hend⟩
  · obtain ⟨fuel, hfuel⟩ := Nat.exists_eq_succ_of_ne_zero (mt length_eq_zero_iff.mp hne)
    rw [parseEsi_eq, pieces, hfuel, division, if_neg hne, find_eq_none.mpr hnone]
    simp [merged, consLiteral, hne]

theorem parseEsi_division_plain : parseEsi (asBytes "<p/>") = [.literal (asBytes "<p/>")] := by
  obtain ⟨-, -, -, -, -, hplain⟩ := parseEsi_division (asBytes "<p/>")
  exact hplain (by decide) (find_eq_none.mp (by decide +kernel))

/-! ## Malformed tags -/

/-- For every byte the tag that it belongs to, text being `none`. -/
def marks (ps : List Piece) : List (Option Tag) :=
  ps.flatMap fun piece => replicate piece.bytes.length piece.tag

def Boundary (ps : List Piece) (i : ℕ) : Prop :=
  ∃ before after, ps = before ++ after ∧ (before.flatMap Piece.bytes).length = i

section Marks

variable {piece : Piece} {ps : List Piece} {k m : ℕ}

theorem marks_cons_lt (h : k < piece.bytes.length) : (marks (piece :: ps))[k]? = some piece.tag := by
  rw [marks, flatMap_cons, getElem?_append_left (by simpa using h)]
  exact getElem?_replicate_of_lt h

theorem marks_cons_add (h : piece.bytes.length = m) :
    (marks (piece :: ps))[m + k]? = (marks ps)[k]? := by
  rw [marks, flatMap_cons, getElem?_append_right (by simp [h])]
  simp [marks, h]

theorem marks_append (before after : List Piece) (k : ℕ) :
    (marks (before ++ after))[(before.flatMap Piece.bytes).length + k]? = (marks after)[k]? := by
  induction before with
  | nil => simp
  | cons piece before ih =>
    rw [flatMap_cons, length_append, Nat.add_assoc, cons_append, marks_cons_add rfl, ih]

theorem exists_piece {mark : Option Tag} (h : (marks ps)[k]? = some mark) :
    ∃ before piece after, ps = before ++ piece :: after ∧ piece.tag = mark ∧
      (before.flatMap Piece.bytes).length ≤ k := by
  induction ps generalizing k with
  | nil => simp [marks] at h
  | cons piece ps ih =>
    by_cases hk : k < piece.bytes.length
    · rw [marks_cons_lt hk] at h
      exact ⟨[], piece, ps, rfl, some_inj.mp h, Nat.zero_le k⟩
    obtain ⟨k, rfl⟩ := Nat.exists_eq_add_of_le (Nat.le_of_not_lt hk)
    obtain ⟨before, found, after, rfl, hmark, hle⟩ := ih (marks_cons_add rfl ▸ h)
    refine ⟨piece :: before, found, after, rfl, hmark, ?_⟩
    rw [flatMap_cons, length_append]
    omega

theorem Boundary.cons (h : Boundary ps k) (hm : piece.bytes.length = m) :
    Boundary (piece :: ps) (m + k) := by
  obtain ⟨before, after, rfl, rfl⟩ := h
  exact ⟨piece :: before, after, rfl, by simp [hm]⟩

end Marks

/-- Where a tag could begin and the byte is text, the loop has looked for a tag and
found none. -/
theorem boundary_of_text (h : rest.length ≤ fuel)
    (hat : At opening rest i) (hmark : (marks (division fuel rest))[i]? = some none) :
    Boundary (division fuel rest) i ∧ parseTag (rest.drop i) = none := by
  induction fuel generalizing rest i with
  | zero =>
    have hlt := hat.lt
    omega
  | succ fuel ih =>
    cases hfind : find opening rest with
    | none => exact absurd hat (find_eq_none.mp hfind i)
    | some start =>
      obtain ⟨hopen, hfirst⟩ := find_eq_some.mp hfind
      obtain ⟨mark, n, hpos, hn, hdivision, hnone, -⟩ := division_step hfind fuel
      obtain ⟨k, rfl⟩ := Nat.exists_eq_add_of_le (Nat.le_of_not_lt fun hlt => hfirst i hlt hat)
      have hbefore : (rest.take start).length = start := by
        rw [length_take, Nat.min_eq_left hopen.lt.le]
      have htag : ((rest.drop start).take n).length = n := by
        rw [length_take, Nat.min_eq_left hn]
      rw [← at_drop] at hat
      rw [hdivision, marks_cons_add hbefore] at hmark
      rw [hdivision, ← drop_drop]
      suffices hbehind : Boundary (⟨mark, (rest.drop start).take n⟩ ::
          division fuel ((rest.drop start).drop n)) k ∧ parseTag ((rest.drop start).drop k) = none from
        ⟨hbehind.1.cons hbefore, hbehind.2⟩
      by_cases hk : k < n
      · -- the byte is of the piece that this turn takes: a piece of text is one byte
        rw [marks_cons_lt (htag.symm ▸ hk)] at hmark
        obtain ⟨rfl, hparse⟩ := hnone (some_inj.mp hmark)
        obtain rfl : k = 0 := by omega
        exact ⟨⟨[], _, rfl, rfl⟩, hparse⟩
      obtain ⟨k, rfl⟩ := Nat.exists_eq_add_of_le (Nat.le_of_not_lt hk)
      rw [marks_cons_add htag] at hmark
      rw [← at_drop] at hat
      obtain ⟨hboundary, hparse⟩ := ih _ (by simp only [length_drop]; omega) hat hmark
      refine ⟨hboundary.cons htag, ?_⟩
      rw [← drop_drop]
      exact hparse

theorem parseTag_taken {before after : List Piece} {piece : Piece}
    (h : pieces body = before ++ piece :: after) (ht : piece.tag = some t) :
    At opening body (before.flatMap Piece.bytes).length ∧
      parseTag (body.drop (before.flatMap Piece.bytes).length) =
        some (t, piece.bytes.length) := by
  obtain ⟨hbody, htags⟩ := pieces_spec body
  obtain ⟨hname, hself⟩ := htags piece (by simp [h]) t ht
  have hopen : opening <+: piece.bytes := (prefix_append _ _).trans hname
  have hdrop : body.drop (before.flatMap Piece.bytes).length =
      piece.bytes ++ after.flatMap Piece.bytes := by
    rw [← hbody, h, flatMap_append, flatMap_cons, drop_left]
  rw [At, hdrop]
  exact ⟨⟨by decide, hopen.trans ( prefix_append _ _)⟩, parseTag_append hopen hself _⟩

/-- The scan for the first `>` that is in no double quotes. -/
def closesItself : (quoted : Bool) → (last : UInt8) → List UInt8 → Bool
  | _, _, [] => false
  | quoted, last, b :: rest =>
    if b = 34 then closesItself (!quoted) b rest
    else if b = 62 ∧ quoted = false then last = 47
    else closesItself quoted b rest

/-- An include or comment tag, outside remove blocks, that does not close itself. -/
structure Malformed (body : List UInt8) (i : ℕ) : Prop where
  name : At (asBytes "<esi:include") body i ∨ At (asBytes "<esi:comment") body i
  unclosed : closesItself false 0 (body.drop i) = false
  outside : (marks (pieces body))[i]? ≠ some (some .remove)

/-- The bytes from here up to the next place where a tag could begin are text. -/
def Kept (body : List UInt8) (i : ℕ) : Prop :=
  ∀ k, i ≤ k → k < body.length → (∀ j, i < j → j ≤ k → ¬ At opening body j) →
    (marks (pieces body))[k]? = some none

theorem kept_iff_of_at (hat : At opening body i) :
    Kept body i ↔ Boundary (pieces body) i ∧ parseTag (body.drop i) = none := by
  constructor
  · intro h
    exact boundary_of_text body.length body le_rfl hat
      (h i le_rfl hat.lt fun j hij hji => absurd hij (by omega))
  rintro ⟨⟨before, after, hpieces, rfl⟩, hnone⟩ k hik hk hfree
  obtain ⟨k, rfl⟩ := Nat.exists_eq_add_of_le hik
  have hlength : (marks (pieces body)).length = body.length := by
    rw [← congrArg length (pieces_spec body).1]
    simp [marks, length_flatMap]
  obtain ⟨mark, hmark⟩ : ∃ mark, (marks (pieces body))[_ + k]? = some mark :=
    ⟨_, getElem?_eq_getElem (hlength.symm ▸ hk)⟩
  cases mark with
  | none => exact hmark
  | some t =>
    -- a tag that holds the byte begins here or behind
    rw [hpieces, marks_append] at hmark
    obtain ⟨between, piece, later, rfl, htag, hle⟩ := exists_piece hmark
    rw [← append_assoc] at hpieces
    obtain ⟨hat, hparse⟩ := parseTag_taken hpieces htag
    rw [flatMap_append, length_append] at hat hparse
    rcases Nat.eq_zero_or_pos (between.flatMap Piece.bytes).length with hzero | hpos
    · rw [hzero, Nat.add_zero, hnone] at hparse
      cases hparse
    · exact absurd hat (hfree _ (by omega) (by omega))

/-! ## Delivery in chunks -/

inductive VdpAction where
  | null
  | flush
  | end_
deriving DecidableEq

def EsiFragment.render : EsiFragment → List UInt8
  | literal data => data
  | includeSrc src => asBytes ("<!--esi:include src=\"" ++ src ++ "\"-->")
  | remove => []

def processBody (body : List UInt8) : Except String (List UInt8) :=
  .ok ((parseEsi body).flatMap EsiFragment.render)

structure EsiProcessor where
  depth : ℕ
  maxDepth : ℕ
  output : List UInt8
deriving DecidableEq

namespace EsiProcessor

def new : EsiProcessor := ⟨0, 5, []⟩

def init (p : EsiProcessor) : EsiProcessor := { p with output := [] }

def bytes (p : EsiProcessor) (_action : VdpAction) (data : List UInt8) : Except ℤ (List UInt8) :=
  if p.maxDepth ≤ p.depth then .ok data else (processBody data).mapError fun _ => -1

/-- The concatenation of what is returned for the chunks. -/
def deliver (p : EsiProcessor) : List (VdpAction × List UInt8) → Except ℤ (List UInt8)
  | [] => .ok []
  | chunk :: chunks => do
    let out ← p.bytes chunk.1 chunk.2
    let rest ← p.deliver chunks
    .ok (out ++ rest)

end EsiProcessor

def Piece.output (piece : Piece) : List UInt8 :=
  match piece.tag with
  | none => piece.bytes
  | some (.includeSrc src) => (EsiFragment.includeSrc src).render
  | some _ => []

/-- What `process_body` makes of a body. -/
def rendered (body : List UInt8) : List UInt8 := (pieces body).flatMap Piece.output

theorem processBody_eq (body : List UInt8) : processBody body = .ok (rendered body) := by
  have hmerged : ∀ ps : List Piece,
      (merged ps).flatMap EsiFragment.render = ps.flatMap Piece.output := by
    intro ps
    induction ps with
    | nil => rfl
    | cons piece ps ih =>
      rw [flatMap_cons, ← ih]
      rcases piece with ⟨_ | _ | _ | _, data⟩
      · rw [merged, consLiteral.eq_def]
        rcases merged ps with _ | ⟨_ | _ | _, fragments⟩
        all_goals by_cases hdata : data = []
        all_goals simp [hdata, Piece.output, EsiFragment.render]
      all_goals rfl
  rw [processBody, parseEsi_eq, hmerged, rendered]

theorem EsiProcessor.deliver_eq {p : EsiProcessor} (h : p.depth < p.maxDepth)
    (chunks : List (VdpAction × List UInt8)) :
    p.deliver chunks = .ok (chunks.flatMap fun chunk => rendered chunk.2) := by
  induction chunks with
  | nil => rfl
  | cons chunk chunks ih =>
    rw [deliver, ih, bytes, if_neg (Nat.not_le_of_lt h), processBody_eq]
    rfl

/-- No place where a tag could begin is one where a tag is taken. -/
def TagFree (body : List UInt8) : Prop :=
  ∀ i, At opening body i → parseTag (body.drop i) = none

theorem TagFree.rendered_eq (h : TagFree body) : rendered body = body := by
  have htext : ∀ piece ∈ pieces body, piece.tag = none := by
    intro piece hpiece
    obtain ⟨before, after, hsplit⟩ := append_of_mem hpiece
    cases ht : piece.tag with
    | none => rfl
    | some t =>
      obtain ⟨hat, hparse⟩ := parseTag_taken hsplit ht
      rw [h _ hat] at hparse
      cases hparse
  conv_rhs => rw [← (pieces_spec body).1]
  exact flatMap_congr fun piece hpiece => by rw [Piece.output, htext piece hpiece]

theorem tagFree_singleton (b : UInt8) : TagFree [b] := by
  intro i hat
  have hle := hat.end_le
  have hopening : opening.length = 5 := by decide
  rw [length_singleton] at hle
  omega

theorem TagFree.of_append {a b c : List UInt8} (h : TagFree (a ++ (b ++ c))) : TagFree b := by
  intro i hat
  have hdrop : (a ++ (b ++ c)).drop (a.length + i) = b.drop i ++ c := by
    rw [← drop_drop, drop_left, drop_append_of_le_length hat.lt.le]
  have hopen := hat.2
  have hwhole := h (a.length + i) ⟨hat.1, hdrop ▸ hopen.trans ( prefix_append _ _)⟩
  cases hparse : parseTag (b.drop i) with
  | none => rfl
  | some found =>
    rw [hdrop, parseTag_append hopen hparse c] at hwhole
    cases hwhole

theorem rendered_tag_ne (hopen : opening <+: tag) (h : parseTag tag = some (t, tag.length)) :
    rendered tag ≠ tag := by
  have hfind : find opening tag = some 0 :=
    find_eq_some.mpr ⟨⟨by decide, hopen⟩, fun j hj => absurd hj (Nat.not_lt_zero j)⟩
  obtain ⟨fuel, hfuel⟩ := Nat.exists_eq_succ_of_ne_zero (find_eq_some.mp hfind).1.lt.ne'
  obtain ⟨mark, n, -, -, hdivision, hnone, hsome⟩ := division_step hfind fuel
  rw [drop_zero, h] at hnone hsome
  obtain ⟨t', rfl⟩ : ∃ t', mark = some t' :=
    ne_none_iff_exists'.mp fun hmark => by simpa using (hnone hmark).2
  obtain ⟨rfl, rfl⟩ : t = t' ∧ tag.length = n := by simpa using hsome t' rfl
  have hempty : division fuel ((tag.drop 0).drop tag.length) = [] := by
    rw [drop_zero, drop_length]
    cases fuel <;> rfl
  rw [rendered, pieces, hfuel, hdivision, hempty]
  simp only [flatMap_cons, flatMap_nil, append_nil]
  intro heq
  rw [← heq] at hopen
  cases t with
  | includeSrc src =>
    have hplaceholder : asBytes "<!--" <+: (EsiFragment.includeSrc src).render := by
      rw [EsiFragment.render, String.append_assoc, asBytes_append]
      exact (show asBytes "<!--" <+: asBytes "<!--esi:include src=\"" by decide).trans
        ( prefix_append _ _)
    exact ( prefix_or_prefix_of_prefix hopen hplaceholder).elim (by decide) (by decide)
  | remove | comment => exact absurd (prefix_nil.mp hopen) (by decide)

def singles (data : List UInt8) : List (VdpAction × List UInt8) := data.map fun b => (.null, [b])

theorem flatMap_singles : (singles data).flatMap Prod.snd = data := by
  simp [singles, flatMap_map]

theorem rendered_singles :
    ((singles data).flatMap fun chunk => rendered chunk.2) = data := by
  simp [singles, flatMap_map, (tagFree_singleton _).rendered_eq]

/-- Delivery does not depend on the chunks exactly when the body has no tag to take. -/
theorem deliver_chunks_iff {p : EsiProcessor} (hdepth : p.depth < p.maxDepth) (body : List UInt8) :
    (∀ chunks : List (VdpAction × List UInt8), chunks.flatMap Prod.snd = body →
      ∃ out, p.init.deliver chunks = .ok out ∧ processBody body = .ok out) ↔ TagFree body := by
  have hdeliver := EsiProcessor.deliver_eq (p := p.init) hdepth
  simp only [hdeliver, processBody_eq, Except.ok.injEq]
  constructor
  · -- byte by byte the body is unchanged, and with a tag in one piece it is not
    intro h i hat
    cases hparse : parseTag (body.drop i) with
    | none => rfl
    | some found =>
      obtain ⟨t, n⟩ := found
      obtain ⟨-, hname, hself⟩ := parseTag_take hat.2 hparse
      obtain ⟨_, rfl, hsame⟩ := h (singles body) (flatMap_singles body)
      obtain ⟨_, rfl, hcut⟩ := h (singles (body.take i) ++
        (.null, (body.drop i).take n) :: singles ((body.drop i).drop n)) (by
          rw [flatMap_append, flatMap_cons, flatMap_singles, flatMap_singles,
            take_append_drop, take_append_drop])
      rw [hsame, rendered_singles, flatMap_append, flatMap_cons, rendered_singles,
        rendered_singles] at hcut
      conv_lhs at hcut => rw [← take_append_drop i body,
        ← take_append_drop n (body.drop i)]
      have htag := append_cancel_right (append_cancel_left hcut)
      exact absurd htag.symm (rendered_tag_ne ((prefix_append _ _).trans hname) hself)
  · rintro h chunks rfl
    refine ⟨_, rfl, ?_⟩
    rw [h.rendered_eq]
    refine (flatMap_congr fun chunk hchunk => ?_).symm
    obtain ⟨before, after, rfl⟩ := append_of_mem hchunk
    rw [flatMap_append, flatMap_cons] at h
    exact h.of_append.rendered_eq

theorem deliver_chunks_iff_plain :
    (∀ chunks : List (VdpAction × List UInt8), chunks.flatMap Prod.snd = asBytes "<p/>" →
      ∃ out, EsiProcessor.new.init.deliver chunks = .ok out ∧
        processBody (asBytes "<p/>") = .ok out) ↔ TagFree (asBytes "<p/>") :=
  deliver_chunks_iff (by decide) _

/-- Cut inside the tag's name, a comment is delivered with the text. -/
theorem deliver_cut_tag :
    [(VdpAction.null, asBytes "a<esi:"), (.end_, asBytes "comment/>b")].flatMap Prod.snd =
      asBytes "a<esi:comment/>b" ∧
    EsiProcessor.new.init.deliver
      [(.null, asBytes "a<esi:"), (.end_, asBytes "comment/>b")] =
        .ok (asBytes "a<esi:comment/>b") ∧
    processBody (asBytes "a<esi:comment/>b") = .ok (asBytes "ab") := by
  refine ⟨by decide +kernel, by decide +kernel, by decide +kernel⟩

end VarahaCache.Filter
