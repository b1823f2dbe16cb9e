import Mathlib

/-!
# Text

The string operations of the Rust standard library the program uses, over
Lean's `String` (like Rust's, a sequence of Unicode scalar values stored as
valid UTF-8). Everything runs on the character list, so every definition
evaluates on literals.
-/

namespace VarahaCache.Text

open List
open String (ofList toList_ofList utf8EncodeChar ofList_toList toList_append)

def asBytes (s : String) : List UInt8 := s.toUTF8.data.toList

theorem asBytes_injective : Function.Injective asBytes := by
  intro a b h
  have hdata : a.toByteArray.data = b.toByteArray.data := Array.toList_inj.mp h
  exact String.toByteArray_inj.mp (ByteArray.ext hdata)

/-- `std::str::from_utf8`, an invalid sequence being `none`. -/
def fromUtf8 (bs : List UInt8) : Option String := String.fromUTF8? ⟨bs.toArray⟩

variable {s : String} {c sep : Char} {n radix limit : Nat} {l digits : List Char}
  {pieces : List String}

@[simp] theorem fromUtf8_eq_some {bs : List UInt8} : fromUtf8 bs = some s ↔ asBytes s = bs := by
  simp only [fromUtf8, String.fromUTF8?, asBytes, String.toUTF8]
  constructor
  · intro h
    split at h
    · cases h
      rfl
    · cases h
  · rintro rfl
    rw [dif_pos]
    rfl

theorem asBytes_append (a b : String) : asBytes (a ++ b) = asBytes a ++ asBytes b := by
  simp [asBytes, String.toUTF8]

theorem asBytes_eq_flatMap (s : String) : asBytes s = s.toList.flatMap utf8EncodeChar := by
  conv_lhs => rw [← ofList_toList (s := s)]
  simp [asBytes, String.toUTF8, utf8Encode, -ofList_toList]

theorem length_asBytes_le (s : String) : (asBytes s).length ≤ 4 * s.toList.length := by
  rw [asBytes_eq_flatMap]
  induction s.toList with
  | nil => rfl
  | cons c rest ih =>
    have hc := c.utf8Size_le_four
    rw [flatMap_cons, length_append, String.length_utf8EncodeChar, length_cons]
    omega

/-- A byte below 128 encodes the character of that number, and no other. -/
theorem mem_utf8EncodeChar {b : UInt8} (hb : b < 128) :
    b ∈ utf8EncodeChar c ↔ c.toNat = b.toNat := by
  have hb' : b.toNat < 128 := hb
  unfold utf8EncodeChar
  dsimp only
  split_ifs
  · rw [mem_singleton, ← UInt8.toNat_inj]
    simp only [UInt8.toNat_ofNat', Char.toNat]
    omega
  all_goals
    simp only [mem_cons, not_mem_nil, or_false, ← UInt8.toNat_inj, UInt8.toNat_ofNat', Char.toNat]
    omega

theorem lf_mem_asBytes : 10 ∈ asBytes s ↔ '\n' ∈ s.toList := by
  rw [asBytes_eq_flatMap, mem_flatMap]
  constructor
  · rintro ⟨c, hc, hb⟩
    rw [mem_utf8EncodeChar (by decide)] at hb
    rwa [← Char.toNat_inj.mp (show c.toNat = '\n'.toNat from hb)]
  · intro h
    exact ⟨'\n', h, (mem_utf8EncodeChar (by decide)).mpr rfl⟩

theorem asBytes_eq_nil : asBytes s = [] ↔ s = "" := by
  rw [← asBytes_injective.eq_iff]
  rfl

theorem utf8EncodeChar_append_inj {c d : Char} {x y : List UInt8}
    (h : utf8EncodeChar c ++ x = utf8EncodeChar d ++ y) : c = d ∧ x = y := by
  have hdecode : ∀ (c : Char) (x : List UInt8),
      (utf8EncodeChar c ++ x).toByteArray.utf8DecodeChar? 0 = some c := by
    intro c x
    rw [toByteArray_append]
    exact ByteArray.utf8DecodeChar?_utf8EncodeChar_append
  have hchar : c = d := by
    have hc := hdecode c x
    rw [h, hdecode d y] at hc
    exact (Option.some.inj hc).symm
  subst hchar
  exact ⟨rfl, append_cancel_left h⟩

/-- Bytes that begin with those of a text are those of a text that begins
with it. -/
theorem asBytes_eq_append {s a : String} {rest : List UInt8}
    (h : asBytes s = asBytes a ++ rest) : ∃ b, s = a ++ b ∧ asBytes b = rest := by
  have hlist : ∀ l l' : List Char,
      l.flatMap utf8EncodeChar = l'.flatMap utf8EncodeChar ++ rest →
      ∃ r, l = l' ++ r ∧ r.flatMap utf8EncodeChar = rest := by
    intro l l'
    induction l' generalizing l with
    | nil => exact fun h => ⟨l, rfl, h⟩
    | cons c l' ih =>
      intro h
      cases l with
      | nil =>
        have hnil : utf8EncodeChar c = [] := by
          rw [flatMap_nil, flatMap_cons, append_assoc] at h
          exact (append_eq_nil_iff.mp h.symm).1
        exact absurd hnil String.utf8EncodeChar_ne_nil
      | cons d l =>
        rw [flatMap_cons, flatMap_cons, append_assoc] at h
        obtain ⟨rfl, htail⟩ := utf8EncodeChar_append_inj h
        obtain ⟨r, rfl, hr⟩ := ih l htail
        exact ⟨r, rfl, hr⟩
  rw [asBytes_eq_flatMap, asBytes_eq_flatMap] at h
  obtain ⟨r, hs, hr⟩ := hlist _ _ h
  refine ⟨ofList r, ?_, ?_⟩
  · rw [← ofList_toList (s := s), hs, String.ofList_append, ofList_toList]
  · rw [asBytes_eq_flatMap, toList_ofList, hr]

theorem asBytes_eq_concat {bytes : List UInt8} (hc : c.toNat < 128)
    (h : asBytes s = bytes ++ [UInt8.ofNat c.toNat]) :
    ∃ t, s = t ++ ofList [c] ∧ asBytes t = bytes := by
  have hsmall : (UInt8.ofNat c.toNat).toNat = c.toNat := by
    rw [UInt8.toNat_ofNat']
    omega
  have hbyte : UInt8.ofNat c.toNat < 128 := by
    rw [UInt8.lt_iff_toNat_lt, hsmall]
    exact hc
  rw [asBytes_eq_flatMap] at h
  rcases eq_nil_or_concat' s.toList with hnil | ⟨text, last, hs⟩
  · rw [hnil] at h
    simp at h
  rw [hs, flatMap_append, flatMap_singleton] at h
  -- the byte is one of the last character, which is then the only one there
  have hmem : UInt8.ofNat c.toNat ∈ utf8EncodeChar last := by
    have hlast := congrArg getLast? h
    rw [getLast?_append_of_ne_nil _ String.utf8EncodeChar_ne_nil, getLast?_concat] at hlast
    exact mem_of_getLast? hlast
  obtain rfl : last = c := by
    rw [mem_utf8EncodeChar hbyte, hsmall] at hmem
    exact Char.toNat_inj.mp hmem
  have hencode : utf8EncodeChar last = [UInt8.ofNat last.toNat] :=
    String.utf8EncodeChar_eq_singleton (Char.utf8Size_eq_one_iff.mpr (by
      rw [UInt32.le_iff_toNat_le]
      exact Nat.le_of_lt_succ hc))
  rw [hencode, append_cancel_right_eq] at h
  refine ⟨ofList text, ?_, ?_⟩
  · rw [← String.ofList_append, ← hs, ofList_toList]
  · rw [asBytes_eq_flatMap, toList_ofList, h]

def toAsciiLowercase (s : String) : String := ofList (s.toList.map Char.toLower)

def eqIgnoreAsciiCase (a b : String) : Bool := toAsciiLowercase a == toAsciiLowercase b

theorem eqIgnoreAsciiCase_iff {a b : String} :
    eqIgnoreAsciiCase a b = true ↔ toAsciiLowercase a = toAsciiLowercase b := by
  simp [eqIgnoreAsciiCase]

/-- One character of `str::to_lowercase`. Names are compared with ASCII words
only, so what matters is which characters lower to ASCII: `A`–`Z`, KELVIN SIGN
(to `k`) and, with a combining dot behind it, `İ`. Every other one may as well
stay. -/
def lowerChar (c : Char) : List Char :=
  if c.val = 0x212A then ['k']
  else if c.val = 0x130 then ['i', Char.ofNat 0x307]
  else [c.toLower]

/-- `str::to_lowercase`, up to the characters that lower outside ASCII. -/
def toLowercase (s : String) : String := ofList (s.toList.flatMap lowerChar)

theorem lowerChar_toLower (c : Char) : lowerChar c.toLower = lowerChar c := by
  by_cases hupper : c.val ≥ 'A'.val ∧ c.val ≤ 'Z'.val
  · have hall : ∀ n : Fin 26,
        lowerChar (Char.ofNat (65 + n)).toLower = lowerChar (Char.ofNat (65 + n)) := by
      decide +kernel
    have hlo : 65 ≤ c.toNat := hupper.1
    have hhi : c.toNat ≤ 90 := hupper.2
    have hc : Char.ofNat (65 + (c.toNat - 65)) = c := by
      rw [Nat.add_sub_cancel' hlo, Char.ofNat_toNat]
    simpa only [hc] using hall ⟨c.toNat - 65, by omega⟩
  · rw [Char.toLower, dif_neg hupper]

theorem toLowercase_congr {a b : String} (h : eqIgnoreAsciiCase a b = true) :
    toLowercase a = toLowercase b := by
  have hlower : ∀ s : String, toLowercase s = toLowercase (toAsciiLowercase s) := by
    intro s
    simp [toLowercase, toAsciiLowercase, flatMap_map, lowerChar_toLower]
  rw [hlower a, hlower b, eqIgnoreAsciiCase_iff.mp h]

/-- `char::is_whitespace`: the Unicode `White_Space` property. -/
def isWhitespace (c : Char) : Bool :=
  (9 ≤ c.val ∧ c.val ≤ 13) ∨ c.val = 0x20 ∨ c.val = 0x85 ∨ c.val = 0xA0 ∨ c.val = 0x1680 ∨
    (0x2000 ≤ c.val ∧ c.val ≤ 0x200A) ∨ c.val = 0x2028 ∨ c.val = 0x2029 ∨ c.val = 0x202F ∨
    c.val = 0x205F ∨ c.val = 0x3000

/-- Drop the characters satisfying `p` at both ends. -/
def trimBoth (p : Char → Bool) (s : String) : String :=
  ofList ((((s.toList.dropWhile p).reverse).dropWhile p).reverse)

def trimStart (s : String) : String := ofList (s.toList.dropWhile isWhitespace)

def trim (s : String) : String := trimBoth isWhitespace s

theorem mem_of_mem_trim (h : c ∈ (trim s).toList) : c ∈ s.toList := by
  rw [trim, trimBoth, toList_ofList, mem_reverse] at h
  have hrev := (dropWhile_suffix _).subset h
  rw [mem_reverse] at hrev
  exact (dropWhile_suffix _).subset hrev

theorem mem_trim_of_mem (h : c ∈ s.toList) (hc : isWhitespace c = false) : c ∈ (trim s).toList := by
  have hdrop : ∀ l : List Char, c ∈ l → c ∈ l.dropWhile isWhitespace := by
    intro l hl
    rw [← takeWhile_append_dropWhile (p := isWhitespace) (l := l)] at hl
    rcases mem_append.mp hl with hl | hl
    · simp [mem_takeWhile_imp hl] at hc
    · exact hl
  rw [trim, trimBoth, toList_ofList, mem_reverse]
  exact hdrop _ (mem_reverse.mpr (hdrop _ h))

theorem dropWhile_blank_eq_self :
    l.dropWhile isWhitespace = l ↔ ∀ c ∈ l.head?, isWhitespace c = false := by
  cases l with
  | nil => simp
  | cons c l =>
    cases hc : isWhitespace c with
    | false => simp [hc]
    | true =>
      refine iff_of_false (fun h => ?_) (by simp [hc])
      have hle := (dropWhile_suffix isWhitespace (l := l)).length_le
      rw [dropWhile_cons_of_pos hc] at h
      rw [h, length_cons] at hle
      omega

theorem trim_eq_self_iff :
    trim s = s ↔ (∀ c ∈ s.toList.head?, isWhitespace c = false) ∧
      ∀ c ∈ s.toList.getLast?, isWhitespace c = false := by
  rw [← String.toList_inj, trim, trimBoth, toList_ofList, ← head?_reverse,
    ← dropWhile_blank_eq_self, ← dropWhile_blank_eq_self]
  constructor
  · intro h
    have hfront := dropWhile_suffix isWhitespace (l := s.toList)
    have hback := dropWhile_suffix isWhitespace (l := (s.toList.dropWhile isWhitespace).reverse)
    have hlength := congrArg length h
    rw [length_reverse] at hlength
    have hle := hback.length_le
    rw [length_reverse] at hle
    have hkept := hfront.eq_of_length (le_antisymm hfront.length_le (hlength ▸ hle))
    rw [hkept] at h
    exact ⟨hkept, by rw [← reverse_inj, reverse_reverse, h]⟩
  · rintro ⟨hfront, hback⟩
    rw [hfront, hback, reverse_reverse]

theorem trim_eq_self (h : ∀ c ∈ s.toList, isWhitespace c = false) : trim s = s :=
  trim_eq_self_iff.mpr ⟨fun c hc => h c (mem_of_mem_head? hc),
    fun c hc => h c (mem_of_mem_getLast? hc)⟩

theorem exists_trim (s : String) : ∃ front back, s.toList = front ++ ((trim s).toList ++ back) ∧
    (∀ c ∈ front, isWhitespace c = true) ∧ ∀ c ∈ back, isWhitespace c = true := by
  refine ⟨s.toList.takeWhile isWhitespace,
    ((s.toList.dropWhile isWhitespace).reverse.takeWhile isWhitespace).reverse, ?_,
    fun c => mem_takeWhile_imp, fun c hc => mem_takeWhile_imp (mem_reverse.mp hc)⟩
  rw [trim, trimBoth, toList_ofList, ← reverse_append, takeWhile_append_dropWhile,
    reverse_reverse, takeWhile_append_dropWhile]

theorem trim_pad {front back : List Char} (hfront : ∀ c ∈ front, isWhitespace c = true)
    (hback : ∀ c ∈ back, isWhitespace c = true) (l : List Char) :
    trim (ofList (front ++ (l ++ back))) = trim (ofList l) := by
  have hreverse : ∀ c ∈ back.reverse, isWhitespace c = true := by simpa using hback
  simp only [trim, trimBoth, toList_ofList]
  rw [dropWhile_append_of_pos hfront, dropWhile_append]
  split
  · rename_i hblank
    rw [dropWhile_eq_nil_iff.mpr hback, isEmpty_iff.mp hblank]
  · rw [reverse_append, dropWhile_append_of_pos hreverse]

theorem trim_trim (s : String) : trim (trim s) = trim s := by
  obtain ⟨front, back, hs, hfront, hback⟩ := exists_trim s
  have hpad := trim_pad hfront hback (trim s).toList
  rw [← hs, ofList_toList, ofList_toList] at hpad
  exact hpad.symm

theorem trim_append_blank {text blank : List Char} (htext : ∀ c ∈ text, isWhitespace c = false)
    (hblank : ∀ c ∈ blank, isWhitespace c = true) :
    trim (ofList (text ++ blank)) = ofList text := by
  have hpad := trim_pad (forall_mem_nil _) hblank text
  rw [nil_append] at hpad
  rw [hpad]
  exact trim_eq_self (by simpa using htext)

theorem isWhitespace_of_isDigit (h : c.isDigit = true) : isWhitespace c = false := by
  have hle : 48 ≤ c.val ∧ c.val ≤ 57 := by simpa [Char.isDigit] using h
  have hlo : 48 ≤ c.val.toNat := hle.1
  have hhi : c.val.toNat ≤ 57 := hle.2
  simp only [isWhitespace, UInt32.le_iff_toNat_le, ← UInt32.toNat_inj, UInt32.reduceToNat,
    decide_eq_false_iff_not]
  omega

/-- `str::split` at a character: `n` separators give `n + 1` pieces. -/
def split (sep : Char) (s : String) : List String := (s.toList.splitOn sep).map ofList

theorem split_of_notMem (h : sep ∉ s.toList) : split sep s = [s] := by
  have hne : ∀ c ∈ s.toList, (c == sep) = false := by
    intro c hc
    simpa using fun heq : c = sep => h (heq ▸ hc)
  rw [split, splitOn, splitOnP_eq_singleton hne, map_singleton, ofList_toList]

theorem mem_splitOn {piece : List Char} (h : piece ∈ l.splitOn sep) : sep ∉ piece ∧ piece ⊆ l := by
  induction l generalizing piece with
  | nil => simp_all [splitOn_nil]
  | cons x l ih =>
    rw [splitOn_cons_eq_if_modifyHead] at h
    cases hpieces : l.splitOn sep with
    | nil => exact absurd hpieces (splitOn_ne_nil _ _)
    | cons first pieces =>
      rw [hpieces] at ih h
      split at h
      · rcases mem_cons.mp h with rfl | h
        · simp
        · exact ⟨(ih h).1, fun c hc => mem_cons_of_mem _ ((ih h).2 hc)⟩
      rename_i hx
      rw [modifyHead_cons] at h
      rcases mem_cons.mp h with rfl | h
      · have hfirst := ih mem_cons_self
        refine ⟨?_, cons_subset_cons x hfirst.2⟩
        rw [mem_cons, not_or]
        exact ⟨fun heq => hx (by simp [heq]), hfirst.1⟩
      · have hlater := ih (mem_cons_of_mem _ h)
        exact ⟨hlater.1, fun c hc => mem_cons_of_mem _ (hlater.2 hc)⟩

theorem mem_split {piece : String} (h : piece ∈ split sep s) :
    sep ∉ piece.toList ∧ piece.toList ⊆ s.toList := by
  obtain ⟨l, hl, rfl⟩ := mem_map.mp h
  rw [toList_ofList]
  exact mem_splitOn hl

theorem split_append_cons (h : sep ∉ s.toList) (rest : String) :
    split sep (s ++ (String.singleton sep ++ rest)) = s :: split sep rest := by
  rw [split, toList_append, toList_append, String.toList_singleton]
  simp [split, splitOn_append_cons_self_of_not_mem h]

theorem split_intercalate (hne : pieces ≠ []) (h : ∀ piece ∈ pieces, sep ∉ piece.toList) :
    split sep (ofList ([sep].intercalate (pieces.map String.toList))) = pieces := by
  have hpieces : ∀ l ∈ pieces.map String.toList, sep ∉ l := by
    intro l hl
    obtain ⟨piece, hpiece, rfl⟩ := mem_map.mp hl
    exact h piece hpiece
  rw [split, toList_ofList, splitOn_intercalate _ hpieces (by simpa using hne)]
  simp

/-- `str::split_once` at a character. -/
def splitOnce (sep : Char) (s : String) : Option (String × String) :=
  match s.toList.span (· ≠ sep) with
  | (before, _ :: after) => some (ofList before, ofList after)
  | (_, []) => none

theorem splitOnce_eq_some {s before after : String} :
    splitOnce sep s = some (before, after) ↔
      s.toList = before.toList ++ sep :: after.toList ∧ sep ∉ before.toList := by
  unfold splitOnce
  rw [span_eq_takeWhile_dropWhile]
  constructor
  · intro h
    split at h
    · rename_i chars c rest hspan
      cases h
      rw [Prod.mk.injEq] at hspan
      obtain ⟨htake, hdrop⟩ := hspan
      have hsep : c = sep := by
        have hhead := head?_dropWhile_not (fun d => decide (d ≠ sep)) s.toList
        rw [hdrop] at hhead
        simpa using hhead
      subst hsep
      rw [toList_ofList, toList_ofList]
      refine ⟨?_, ?_⟩
      · rw [← htake, ← hdrop, takeWhile_append_dropWhile]
      rw [← htake]
      intro hmem
      simpa using mem_takeWhile_imp hmem
    · cases h
  · rintro ⟨hs, hsep⟩
    have hall : ∀ c ∈ before.toList, decide (c ≠ sep) = true := by
      intro c hc
      simpa using fun heq : c = sep => hsep (heq ▸ hc)
    rw [hs, takeWhile_append_of_pos hall, dropWhile_append_of_pos hall]
    simp

theorem splitOnce_eq_none {s : String} : splitOnce sep s = none ↔ sep ∉ s.toList := by
  constructor
  · intro h hmem
    obtain ⟨before, after, hs, hbefore⟩ := eq_append_cons_of_mem hmem
    have hcut : splitOnce sep s = some (ofList before, ofList after) := by
      rw [splitOnce_eq_some, toList_ofList, toList_ofList]
      exact ⟨hs, hbefore⟩
    rw [h] at hcut
    cases hcut
  · intro h
    cases hsplit : splitOnce sep s with
    | none => rfl
    | some parts =>
      rw [(splitOnce_eq_some.mp hsplit).1] at h
      exact absurd (mem_append_right _ mem_cons_self) h

/-- The text before and after what `str::rfind` finds. -/
def rsplitOnce (sep : Char) (s : String) : Option (String × String) :=
  match s.toList.reverse.span (· ≠ sep) with
  | (after, _ :: before) => some (ofList before.reverse, ofList after.reverse)
  | (_, []) => none

theorem rsplitOnce_append {before after : List Char} (h : sep ∉ after) :
    rsplitOnce sep (ofList (before ++ sep :: after)) =
      some (ofList before, ofList after) := by
  have hall : ∀ c ∈ after.reverse, decide (c ≠ sep) = true := by
    intro c hc
    rw [mem_reverse] at hc
    simpa using fun heq : c = sep => h (heq ▸ hc)
  have hreverse : (before ++ sep :: after).reverse = after.reverse ++ sep :: before.reverse := by
    simp
  rw [rsplitOnce, toList_ofList, hreverse, span_eq_takeWhile_dropWhile,
    takeWhile_append_of_pos hall, dropWhile_append_of_pos hall]
  simp

def splitWhitespace (s : String) : List String :=
  ((s.toList.splitOnP isWhitespace).filter (· ≠ [])).map ofList

theorem splitWhitespace_word {word rest : List Char} (hword : word ≠ [])
    (hw : ∀ d ∈ word, isWhitespace d = false) (hc : isWhitespace c = true) :
    splitWhitespace (ofList (word ++ c :: rest)) =
      ofList word :: splitWhitespace (ofList rest) := by
  simp only [splitWhitespace, toList_ofList]
  rw [splitOnP_append_cons_of_forall_mem hw c hc]
  simp [hword]

theorem splitWhitespace_blank {rest : List Char} (hc : isWhitespace c = true) :
    splitWhitespace (ofList (c :: rest)) = splitWhitespace (ofList rest) := by
  have hnone : ∀ d ∈ ([] : List Char), isWhitespace d = false := fun _ hd => absurd hd not_mem_nil
  have hsplit := splitOnP_append_cons_of_forall_mem hnone c hc rest
  simp only [splitWhitespace, toList_ofList]
  rw [nil_append] at hsplit
  rw [hsplit]
  simp

theorem splitWhitespace_last {word : List Char} (hword : word ≠ [])
    (hw : ∀ d ∈ word, isWhitespace d = false) : splitWhitespace (ofList word) = [ofList word] := by
  simp only [splitWhitespace, toList_ofList]
  rw [splitOnP_eq_singleton hw]
  simp [hword]

def trimEndMatches (c : Char) (s : String) : String :=
  ofList ((s.toList.reverse.dropWhile (· = c)).reverse)

def trimEnd (s : String) : String :=
  ofList ((s.toList.reverse.dropWhile isWhitespace).reverse)

/-- `str::splitn`: the last of at most `n` pieces has all that is left. -/
def splitn : Nat → Char → String → List String
  | 0, _, _ => []
  | 1, _, s => [s]
  | n + 2, sep, s =>
    match splitOnce sep s with
    | some (before, after) => before :: splitn (n + 1) sep after
    | none => [s]

def stripPrefix (start s : String) : Option String :=
  if start.toList <+: s.toList then some (ofList (s.toList.drop start.toList.length))
  else none

@[simp] theorem stripPrefix_append (start s : String) : stripPrefix start (start ++ s) = some s := by
  rw [stripPrefix, toList_append, if_pos (prefix_append _ _), drop_left,
    ofList_toList]

theorem stripPrefix_eq_none {start s : String} (h : ¬ start.toList <+: s.toList) :
    stripPrefix start s = none := if_neg h

def stripSuffix (suffix s : String) : Option String :=
  if suffix.toList <:+ s.toList then
    some (ofList (s.toList.take (s.toList.length - suffix.toList.length)))
  else none

/-- `str::trim_end_matches` with a text. The fuel is the times it can go. -/
def trimEndMatchesStr (suffix s : String) : String := go s.toList.length s
where
  go : Nat → String → String
    | 0, s => s
    | fuel + 1, s =>
      match stripSuffix suffix s with
      | some s => go fuel s
      | none => s

theorem isPrefix_trimEndMatchesStr (suffix s : String) :
    (trimEndMatchesStr suffix s).toList <+: s.toList := by
  have hgo : ∀ fuel s, (trimEndMatchesStr.go suffix fuel s).toList <+: s.toList := by
    intro fuel
    induction fuel with
    | zero => exact fun s => prefix_rfl
    | succ fuel ih =>
      intro s
      rw [trimEndMatchesStr.go]
      split
      · rename_i s' hs'
        refine (ih s').trans ?_
        unfold stripSuffix at hs'
        split at hs'
        · cases hs'
          rw [toList_ofList]
          exact take_prefix _ _
        · cases hs'
      · exact prefix_rfl
  exact hgo _ s

/-- The text before and after the first occurrence of a separator. -/
def cutAt (sep : List Char) : List Char → Option (List Char × List Char)
  | [] => none
  | c :: rest =>
    if sep <+: c :: rest then some ([], (c :: rest).drop sep.length)
    else (cutAt sep rest).map fun cut => (c :: cut.1, cut.2)

theorem cutAt_append {before : List Char} (sep after : List Char) (h : c ∉ before) :
    cutAt (c :: sep) (before ++ (c :: sep ++ after)) = some (before, after) := by
  induction before with
  | nil => simp [cutAt]
  | cons d before ih =>
    have hne : c ≠ d := fun heq => h (heq ▸ mem_cons_self)
    rw [cons_append, cutAt, if_neg (by simp [hne]), ih fun hmem => h (mem_cons_of_mem _ hmem)]
    rfl

theorem cutAt_eq_none (sep : List Char) (h : c ∉ l) : cutAt (c :: sep) l = none := by
  induction l with
  | nil => rfl
  | cons d l ih =>
    have hne : c ≠ d := fun heq => h (heq ▸ mem_cons_self)
    rw [cutAt, if_neg (by simp [hne]), ih fun hmem => h (mem_cons_of_mem _ hmem)]
    rfl

/-- `str::split_once` at a text. -/
def splitOnceStr (sep s : String) : Option (String × String) :=
  (cutAt sep.toList s.toList).map fun cut => (ofList cut.1, ofList cut.2)

/-- `str::split` at a text. The fuel is one more than the cuts there can be. -/
def splitStr (sep s : String) : List String := go (s.toList.length + 1) s.toList
where
  go : Nat → List Char → List String
    | 0, l => [ofList l]
    | fuel + 1, l =>
      match cutAt sep.toList l with
      | some (before, after) => ofList before :: go fuel after
      | none => [ofList l]

example : splitStr " && " "a && b && " = ["a", "b", ""] := by decide +kernel

/-! ## Numbers

`str::parse` to `i64` and `usize` refuses what does not fit. `str::parse::<f64>`
is over exact rationals: a sign, digits with at most one
point and at least one digit, a decimal exponent. The spellings of infinity
and NaN have no rational value and read as no number. -/

def digitsToNat (ds : List Char) : Nat := ds.foldl (fun n c => 10 * n + (c.toNat - 48)) 0

def parseSign : List Char → Int × List Char
  | '-' :: rest => (-1, rest)
  | '+' :: rest => (1, rest)
  | rest => (1, rest)

def parseI64 (s : String) : Option Int64 :=
  let (sign, digits) := parseSign s.toList
  let value := sign * digitsToNat digits
  if digits ≠ [] ∧ digits.all Char.isDigit ∧ -2 ^ 63 ≤ value ∧ value < 2 ^ 63 then
    some (Int64.ofInt value)
  else none

/-- `str::parse::<usize>`, on a 64-bit machine. -/
def parseUsize (s : String) : Option Nat :=
  let digits := match s.toList with
    | '+' :: rest => rest
    | rest => rest
  if digits ≠ [] ∧ digits.all Char.isDigit ∧ digitsToNat digits < 2 ^ 64 then
    some (digitsToNat digits)
  else none

theorem parseUsize_chars (h : parseUsize s = some n) :
    ∃ digits, (s.toList = '+' :: digits ∨ s.toList = digits) ∧ digits ≠ [] ∧
      digits.all Char.isDigit ∧ digitsToNat digits = n := by
  unfold parseUsize at h
  dsimp only at h
  split at h
  · rename_i rest heq
    split at h
    · rename_i hcond
      exact ⟨rest, .inl heq, hcond.1, hcond.2.1, Option.some.inj h⟩
    · cases h
  · split at h
    · rename_i hcond
      exact ⟨s.toList, .inr rfl, hcond.1, hcond.2.1, Option.some.inj h⟩
    · cases h

theorem parseUsize_of_digits (hne : digits ≠ [])
    (hd : ∀ c ∈ digits, c.isDigit = true) (hlt : digitsToNat digits < 2 ^ 64) :
    parseUsize (ofList digits) = some (digitsToNat digits) := by
  have hall : digits.all Char.isDigit = true := all_eq_true.mpr hd
  unfold parseUsize
  rw [toList_ofList]
  dsimp only
  split
  · exact absurd (hd '+' mem_cons_self) (by decide)
  · rw [if_pos ⟨hne, hall, hlt⟩]

theorem parseI64_of_parseUsize (h : parseUsize s = some n)
    (hlt : n < 2 ^ 63) : parseI64 s = some (Int64.ofInt n) := by
  obtain ⟨digits, hs, hne, hall, rfl⟩ := parseUsize_chars h
  have hsign : parseSign s.toList = (1, digits) := by
    rcases hs with hs | hs
    · rw [hs]
      rfl
    rw [hs]
    -- a digit is no sign
    cases digits with
    | nil => exact absurd rfl hne
    | cons c rest =>
      have hdigit : c.isDigit = true := by simpa using (all_eq_true.mp hall) c (by simp)
      unfold parseSign
      split
      · rename_i heq
        cases heq
        exact absurd hdigit (by decide)
      · rename_i heq
        cases heq
        exact absurd hdigit (by decide)
      · rfl
  unfold parseI64
  rw [hsign]
  dsimp only
  rw [if_pos ⟨hne, hall, by omega, by omega⟩, one_mul]

/-! A number is written in decimal digits. -/

theorem isDigit_of_mem_toString (h : c ∈ (toString n).toList) : c.isDigit = true := by
  have hlist : (toString n).toList = Nat.toDigits 10 n := by simp
  rw [hlist] at h
  exact Nat.isDigit_of_mem_toDigits (by decide) (by decide) h

theorem notMem_toString (hc : c.isDigit = false) (n : Nat) : c ∉ (toString n).toList := by
  intro h
  rw [isDigit_of_mem_toString h] at hc
  cases hc

theorem toList_toString_ne_nil (n : Nat) : (toString n).toList ≠ [] := by
  have hlist : (toString n).toList = Nat.toDigits 10 n := by simp
  rw [hlist]
  exact Nat.toDigits_ne_nil

theorem digitsToNat_toString (n : Nat) : digitsToNat (toString n).toList = n := by
  have hlist : (toString n).toList = Nat.toDigits 10 n := by simp
  rw [hlist]
  exact Nat.ofDigitChars_ten_toDigits

theorem trim_toString (n : Nat) : trim (toString n) = toString n :=
  trim_eq_self fun _ hc => isWhitespace_of_isDigit (isDigit_of_mem_toString hc)

theorem parseUsize_toString (h : n < 2 ^ 64) : parseUsize (toString n) = some n := by
  have hparse := parseUsize_of_digits (toList_toString_ne_nil n)
    (fun _ hc => isDigit_of_mem_toString hc) (by rwa [digitsToNat_toString])
  rwa [ofList_toList, digitsToNat_toString] at hparse

def parseU32 (s : String) : Option Nat := (parseUsize s).filter (· < 2 ^ 32)

/-- `std::num::ParseIntError`, as far as unsigned numbers have it. -/
inductive ParseIntError
  | empty | invalidDigit | posOverflow
deriving DecidableEq, Repr

def ParseIntError.text : ParseIntError → String
  | .empty => "cannot parse integer from empty string"
  | .invalidDigit => "invalid digit found in string"
  | .posOverflow => "number too large to fit in target type"

def toDigit (radix : Nat) (c : Char) : Option Nat :=
  let value :=
    if c.isDigit then c.toNat - 48
    else if 'a' ≤ c ∧ c ≤ 'z' then c.toNat - 87
    else if 'A' ≤ c ∧ c ≤ 'Z' then c.toNat - 55
    else radix
  if value < radix then some value else none

/-- `from_str_radix` for the unsigned numbers below `limit`. -/
def fromStrRadix (radix limit : Nat) (s : String) : Except ParseIntError Nat :=
  match s.toList with
  | [] => .error .empty
  | ['+'] | ['-'] => .error .invalidDigit
  | '+' :: digits => go 0 digits
  | digits => go 0 digits
where
  go (acc : Nat) : List Char → Except ParseIntError Nat
    | [] => .ok acc
    | c :: rest =>
      match toDigit radix c with
      | none => .error .invalidDigit
      | some d => if limit ≤ acc * radix + d then .error .posOverflow else go (acc * radix + d) rest

example : fromStrRadix 16 (2 ^ 64) "1aF" = .ok 431 := by decide +kernel

def radixToNat (radix : Nat) (digits : List Char) : Nat :=
  digits.foldl (fun n c => n * radix + (toDigit radix c).getD 0) 0

theorem toDigit_isSome (h : (toDigit radix c).isSome) :
    isWhitespace c = false ∧ c ≠ '+' ∧ c ≠ '-' ∧ c ≠ ';' ∧ 0 < radix := by
  have hchar : ∀ d : Char, d.isDigit = false → ¬ ('a' ≤ d ∧ d ≤ 'z') → ¬ ('A' ≤ d ∧ d ≤ 'Z') →
      c ≠ d := by
    rintro d hdigit hlower hupper rfl
    simp [toDigit, hdigit, hlower, hupper] at h
  have hradix : 0 < radix := by
    obtain ⟨value, hvalue⟩ := Option.isSome_iff_exists.mp h
    have hlt := (Option.ite_none_right_eq_some.mp hvalue).1
    exact Nat.zero_lt_of_lt hlt
  refine ⟨?_, hchar '+' (by decide) (by decide) (by decide), hchar '-' (by decide) (by decide)
    (by decide), hchar ';' (by decide) (by decide) (by decide), hradix⟩
  by_cases hdigit : c.isDigit = true
  · exact isWhitespace_of_isDigit hdigit
  have hletter : ('a' ≤ c ∧ c ≤ 'z') ∨ ('A' ≤ c ∧ c ≤ 'Z') := by
    by_contra hnone
    rw [not_or] at hnone
    simp [toDigit, hdigit, hnone.1, hnone.2] at h
  have hval : (97 ≤ c.val.toNat ∧ c.val.toNat ≤ 122) ∨ (65 ≤ c.val.toNat ∧ c.val.toNat ≤ 90) :=
    hletter
  simp only [isWhitespace, UInt32.le_iff_toNat_le, ← UInt32.toNat_inj, UInt32.reduceToNat,
    decide_eq_false_iff_not]
  omega

theorem le_foldl_digits (hradix : 0 < radix) (digits : List Char) (acc : Nat) :
    acc ≤ digits.foldl (fun n c => n * radix + (toDigit radix c).getD 0) acc := by
  induction digits generalizing acc with
  | nil => exact Nat.le_refl acc
  | cons c digits ih =>
    have hstep : acc ≤ acc * radix := Nat.le_mul_of_pos_right acc hradix
    exact le_trans (by omega) (ih (acc * radix + (toDigit radix c).getD 0))

theorem fromStrRadix_of_digits (hne : digits ≠ []) (hd : ∀ c ∈ digits, (toDigit radix c).isSome) :
    fromStrRadix radix limit (ofList digits) =
      if radixToNat radix digits < limit then .ok (radixToNat radix digits)
      else .error .posOverflow := by
  -- what is read so far is below the limit, or nothing is read yet
  have hgo : ∀ (digits : List Char) (acc : Nat), (∀ c ∈ digits, (toDigit radix c).isSome) →
      (digits ≠ [] ∨ acc < limit) → fromStrRadix.go radix limit acc digits =
        if digits.foldl (fun n c => n * radix + (toDigit radix c).getD 0) acc < limit then
          .ok (digits.foldl (fun n c => n * radix + (toDigit radix c).getD 0) acc)
        else .error .posOverflow := by
    intro digits
    induction digits with
    | nil =>
      intro acc _ hacc
      have hlt : acc < limit := hacc.resolve_left (by simp)
      simp [fromStrRadix.go, hlt]
    | cons c digits ih =>
      intro acc hall _
      obtain ⟨hc, hrest⟩ := forall_mem_cons.mp hall
      obtain ⟨d, hdigit⟩ := Option.isSome_iff_exists.mp hc
      have hradix := (toDigit_isSome hc).2.2.2.2
      simp only [fromStrRadix.go, hdigit, foldl_cons, Option.getD_some]
      split
      · rename_i hover
        have hle := le_foldl_digits hradix digits (acc * radix + d)
        rw [if_neg (by omega)]
      · exact ih _ hrest (.inr (by omega))
  have hstart : fromStrRadix radix limit (ofList digits) =
      fromStrRadix.go radix limit 0 digits := by
    have hplus : '+' ∉ digits := fun hmem => (toDigit_isSome (hd _ hmem)).2.1 rfl
    have hminus : '-' ∉ digits := fun hmem => (toDigit_isSome (hd _ hmem)).2.2.1 rfl
    unfold fromStrRadix
    rw [toList_ofList]
    split <;> simp_all
  rw [hstart, hgo digits 0 hd (.inl hne), radixToNat]

theorem fromStrRadix_go_ok {n acc : Nat} (h : fromStrRadix.go radix limit acc digits = .ok n) :
    (∀ c ∈ digits, (toDigit radix c).isSome) ∧ (digits ≠ [] ∨ acc < limit → n < limit) := by
  induction digits generalizing acc with
  | nil =>
    cases h
    simp
  | cons c digits ih =>
    rw [fromStrRadix.go] at h
    split at h
    · cases h
    rename_i d hdigit
    split at h
    · cases h
    rename_i hbelow
    obtain ⟨hdigits, hlt⟩ := ih h
    exact ⟨forall_mem_cons.mpr ⟨by simp [hdigit], hdigits⟩,
      fun _ => hlt (.inr (Nat.lt_of_not_le hbelow))⟩

theorem fromStrRadix_ok {n : Nat} (h : fromStrRadix radix limit s = .ok n) :
    (∀ c ∈ s.toList, c = '+' ∨ (toDigit radix c).isSome) ∧ n < limit := by
  unfold fromStrRadix at h
  split at h
  · cases h
  · cases h
  · cases h
  · rename_i digits hplus heq
    obtain ⟨hdigits, hlt⟩ := fromStrRadix_go_ok h
    rw [heq]
    refine ⟨forall_mem_cons.mpr ⟨.inl rfl, fun c hc => .inr (hdigits c hc)⟩, hlt (.inl ?_)⟩
    rintro rfl
    exact hplus rfl
  · rename_i hempty _ _ _
    obtain ⟨hdigits, hlt⟩ := fromStrRadix_go_ok h
    exact ⟨fun c hc => .inr (hdigits c hc), hlt (.inl hempty)⟩

def parseU16 (s : String) : Except ParseIntError Nat := fromStrRadix 10 (2 ^ 16) s

/-- `usize::from_str`, where the error is looked at. -/
def usizeFromStr (s : String) : Except ParseIntError Nat := fromStrRadix 10 (2 ^ 64) s

/-- The exponent behind the digits: none, or `e`, a sign and digits. -/
def parseExponent : List Char → Option Int
  | [] => some 0
  | c :: rest =>
    if c.toLower = 'e' then
      let (sign, digits) := parseSign rest
      if digits ≠ [] ∧ digits.all Char.isDigit then some (sign * digitsToNat digits) else none
    else none

def parseF64 (s : String) : Option ℚ :=
  let (sign, rest) := parseSign s.toList
  let (whole, rest) := rest.span Char.isDigit
  let (frac, rest) := match rest with
    | '.' :: rest => rest.span Char.isDigit
    | rest => ([], rest)
  if whole = [] ∧ frac = [] then none
  else (parseExponent rest).map fun e =>
    sign * (digitsToNat (whole ++ frac) : ℚ) / 10 ^ frac.length * (10 : ℚ) ^ e

example : parseF64 "3.15" = some (63 / 20) := by decide +kernel

theorem trimEnd_append {a b : List Char} (hc : isWhitespace c = false) :
    ∃ b', b' <+: b ∧ trimEnd (ofList (a ++ c :: b)) = ofList (a ++ c :: b') := by
  refine ⟨b.rdropWhile isWhitespace, rdropWhile_prefix _ _, ?_⟩
  have hreverse : (a ++ c :: b).reverse = b.reverse ++ (c :: a.reverse) := by simp
  rw [trimEnd, toList_ofList, hreverse, dropWhile_append]
  split
  · rename_i hnil
    have hempty : b.rdropWhile isWhitespace = [] := by
      rw [rdropWhile, isEmpty_iff.mp hnil, reverse_nil]
    simp [hempty, hc]
  · simp [rdropWhile]

theorem trimEndMatchesStr_append {suffix : String} (hne : suffix ≠ "")
    (h : ¬ suffix.toList <:+ s.toList) : trimEndMatchesStr suffix (s ++ suffix) = s := by
  have hpos : 0 < suffix.toList.length :=
    length_pos_iff.mpr fun hnil => hne (String.toList_injective hnil)
  have hstrip : stripSuffix suffix (s ++ suffix) = some s := by
    rw [stripSuffix, toList_append, if_pos (suffix_append _ _)]
    simp
  have hstop : stripSuffix suffix s = none := if_neg h
  obtain ⟨fuel, hfuel⟩ : ∃ fuel, (s ++ suffix).toList.length = fuel + 1 := by
    rw [toList_append, length_append]
    exact ⟨s.toList.length + suffix.toList.length - 1, by omega⟩
  rw [trimEndMatchesStr, hfuel, trimEndMatchesStr.go, hstrip]
  cases fuel with
  | zero => rfl
  | succ fuel => simp only [trimEndMatchesStr.go, hstop]

theorem trimEndMatches_eq_self (h : c ∉ s.toList) : trimEndMatches c s = s := by
  have hdrop : s.toList.reverse.dropWhile (· = c) = s.toList.reverse := by
    cases hlist : s.toList.reverse with
    | nil => rfl
    | cons d rest =>
      have hmem : d ∈ s.toList := by
        rw [← mem_reverse, hlist]
        exact mem_cons_self
      have hne : d ≠ c := fun heq => h (heq ▸ hmem)
      simp [hne]
  rw [trimEndMatches, hdrop, reverse_reverse, ofList_toList]

theorem fromStrRadix_toString {n : Nat} (h : n < limit) :
    fromStrRadix 10 limit (toString n) = .ok n := by
  have hdigit : ∀ c ∈ (toString n).toList, toDigit 10 c = some (c.toNat - 48) := by
    intro c hc
    have hd := isDigit_of_mem_toString hc
    have hle : 48 ≤ c.val ∧ c.val ≤ 57 := by simpa [Char.isDigit] using hd
    have hlo : 48 ≤ c.toNat := hle.1
    have hhi : c.toNat ≤ 57 := hle.2
    simp only [toDigit, hd, if_true]
    rw [if_pos (by omega)]
  have hvalue : radixToNat 10 (toString n).toList = n := by
    have hfold : ∀ (l : List Char) (acc : Nat), (∀ c ∈ l, toDigit 10 c = some (c.toNat - 48)) →
        l.foldl (fun n c => n * 10 + (toDigit 10 c).getD 0) acc =
          l.foldl (fun n c => 10 * n + (c.toNat - 48)) acc := by
      intro l
      induction l with
      | nil => exact fun _ _ => rfl
      | cons c l ih =>
        intro acc hl
        obtain ⟨hc, hrest⟩ := forall_mem_cons.mp hl
        rw [foldl_cons, foldl_cons, ih _ hrest, hc, Option.getD_some, Nat.mul_comm]
    rw [radixToNat, hfold _ 0 hdigit]
    exact digitsToNat_toString n
  have hread : fromStrRadix 10 limit (ofList (toString n).toList) = _ :=
    fromStrRadix_of_digits (toList_toString_ne_nil n) fun c hc => by rw [hdigit c hc]; rfl
  rwa [ofList_toList, hvalue, if_pos h] at hread

theorem parseU16_toString (h : n < 2 ^ 16) : parseU16 (toString n) = .ok n :=
  fromStrRadix_toString h

def joinStr (sep : String) (pieces : List String) : String :=
  ofList (sep.toList.intercalate (pieces.map String.toList))

theorem joinStr_split (sep : Char) (s : String) :
    joinStr (String.singleton sep) (split sep s) = s := by
  rw [joinStr, split, map_map]
  simp [Function.comp_def, intercalate_splitOn]

theorem joinStr_singleton (sep piece : String) : joinStr sep [piece] = piece := by simp [joinStr]

theorem joinStr_cons_cons (sep piece next : String) (pieces : List String) :
    joinStr sep (piece :: next :: pieces) = piece ++ sep ++ joinStr sep (next :: pieces) := by
  simp [joinStr, intercalate_cons_cons, ← String.toList_inj]

theorem mem_joinStr {sep : String} (h : c ∈ (joinStr sep pieces).toList) :
    c ∈ sep.toList ∨ ∃ piece ∈ pieces, c ∈ piece.toList := by
  induction pieces with
  | nil => simp [joinStr] at h
  | cons piece pieces ih =>
    cases pieces with
    | nil => exact .inr ⟨piece, mem_singleton_self _, joinStr_singleton sep piece ▸ h⟩
    | cons next pieces =>
      rw [joinStr_cons_cons, toList_append, toList_append, mem_append,
        mem_append] at h
      rcases h with (h | h) | h
      · exact .inr ⟨piece, mem_cons_self, h⟩
      · exact .inl h
      · rcases ih h with hsep | ⟨other, hother, hc⟩
        · exact .inl hsep
        · exact .inr ⟨other, mem_cons_of_mem _ hother, hc⟩

/-- `sort` of strings: the order of their bytes is that of their characters. -/
def sortStrings (l : List String) : List String := l.insertionSort (· ≤ ·)

theorem perm_sortStrings (l : List String) : (sortStrings l).Perm l := perm_insertionSort _ l

theorem sortStrings_eq_iff {a b : List String} : sortStrings a = sortStrings b ↔ a.Perm b := by
  constructor
  · intro h
    exact (perm_sortStrings a).symm.trans (h ▸ perm_sortStrings b)
  intro h
  exact (((perm_sortStrings a).trans h).trans (perm_sortStrings b).symm).eq_of_pairwise'
    (pairwise_insertionSort _ a) (pairwise_insertionSort _ b)

end VarahaCache.Text
