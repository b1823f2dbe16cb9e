import VarahaCache.Lib.Calendar
import VarahaCache.Server.Conditional

/-!
# HTTP dates

The three texts of a date, and what the two parsers read in them: the
seconds the calendar counts from 1970 on. The closed formulas of the parsers
(years counted from March in `rv-http`, offset quotients in the request
path) are `dayCount`, and `dayCount` is the calendar's count.
-/

namespace VarahaCache

open Text Calendar List Rfc2616
open String (ofList toList_injective toList_append ofList_toList toList_ofList)

/-! ## Day counts -/

theorem daysBeforeYear_eq {year : ℕ} (h : 1970 ≤ year) :
    (daysBeforeYear year : ℤ) =
      ((year : ℤ) - 1970) * 365 + (year - 1969) / 4 - (year - 1901) / 100 + (year - 1601) / 400 := by
  induction year, h using Nat.le_induction with
  | base => simp [daysBeforeYear]
  | succ year h ih =>
    rw [daysBeforeYear_succ h]
    push_cast
    rw [ih, yearLength]
    -- each quotient goes up by one after a year its divisor divides
    by_cases hleap : IsLeap year
    · rw [if_pos hleap]
      unfold IsLeap at hleap
      omega
    rw [if_neg hleap]
    unfold IsLeap at hleap
    omega

theorem daysBeforeMonth_eq (year : ℕ) {month : ℕ} (hm : 1 ≤ month) (hm' : month ≤ 12) :
    (daysBeforeMonth year month : ℤ) =
      [0, 31, 59, 90, 120, 151, 181, 212, 243, 273, 304, 334].getD (month - 1) 0 +
        if ((year % 4 = 0 ∧ year % 100 ≠ 0) ∨ year % 400 = 0) ∧ 2 < month then 1 else 0 := by
  change _ = _ + if IsLeap year ∧ 2 < month then (1 : ℤ) else 0
  induction month, hm using Nat.le_induction with
  | base => simp [daysBeforeMonth]
  | succ month hm ih =>
    have hlt : month < 12 := hm'
    rw [daysBeforeMonth_succ year hm]
    push_cast
    rw [ih (by omega)]
    by_cases hleap : IsLeap year <;> interval_cases month <;> simp [monthLength, hleap]

theorem dayCount_eq (d : DateTime) : dayCount d.year d.month d.day = d.dayNumber := by
  have hyear := daysBeforeYear_eq d.from1970
  have hmonth := daysBeforeMonth_eq d.year d.month_pos d.month_le
  have hday := d.day_pos
  unfold dayCount DateTime.dayNumber
  push_cast [Nat.cast_sub hday]
  rw [hyear, hmonth]
  ring

theorem componentsToTimestamp_dateTime (d : DateTime) :
    componentsToTimestamp d.year d.month d.day d.hour d.min d.sec = d.secondsSinceEpoch := by
  rw [componentsToTimestamp_eq d.from1970 d.month_pos d.month_le, dayCount_eq,
    DateTime.secondsSinceEpoch, DateTime.secondOfDay]
  push_cast
  ring

/-! ## Texts -/

def padded (width n : ℕ) : String := ofList (leftpad width '0' (toString n).toList)

def monthNames : List String :=
  ["Jan", "Feb", "Mar", "Apr", "May", "Jun", "Jul", "Aug", "Sep", "Oct", "Nov", "Dec"]

def dayNames : List String := ["Sun", "Mon", "Tue", "Wed", "Thu", "Fri", "Sat"]

def longDayNames : List String :=
  ["Sunday", "Monday", "Tuesday", "Wednesday", "Thursday", "Friday", "Saturday"]

/-- A date the formats have room for. -/
structure HttpDate extends DateTime where
  year_le : year ≤ 9999

namespace HttpDate

/-- The day of the week, Sunday first: 1970 began on a Thursday. -/
def weekday (d : HttpDate) : ℕ := (d.dayNumber + 4) % 7

def monthName (d : HttpDate) : String := monthNames.getD (d.month - 1) ""

def timeText (d : HttpDate) : String := padded 2 d.hour ++ ":" ++ padded 2 d.min ++ ":" ++ padded 2 d.sec

/-- `Sun, 06 Nov 1994 08:49:37 GMT`. -/
def rfc1123 (d : HttpDate) : String :=
  dayNames.getD d.weekday "" ++ ", " ++ padded 2 d.day ++ " " ++ d.monthName ++ " " ++
    padded 4 d.year ++ " " ++ d.timeText ++ " GMT"

/-- `Sunday, 06-Nov-94 08:49:37 GMT`. -/
def rfc850 (d : HttpDate) : String :=
  longDayNames.getD d.weekday "" ++ ", " ++ padded 2 d.day ++ "-" ++ d.monthName ++ "-" ++
    padded 2 (d.year % 100) ++ " " ++ d.timeText ++ " GMT"

/-- `Sun Nov  6 08:49:37 1994`, the day padded with a blank. -/
def asctime (d : HttpDate) : String :=
  dayNames.getD d.weekday "" ++ " " ++ d.monthName ++ " " ++
    ofList (leftpad 2 ' ' (toString d.day).toList) ++ " " ++ d.timeText ++ " " ++
    padded 4 d.year

end HttpDate

/-! ### The words of a text -/

/-- A character that separates nothing in a date. -/
def plain (c : Char) : Bool := !isWhitespace c && c != ',' && c != '-' && c != ':'

theorem plain_of_isDigit {c : Char} (h : c.isDigit = true) : plain c = true := by
  have hne : ∀ d : Char, d.isDigit = false → c ≠ d := by
    rintro d hd rfl
    rw [h] at hd
    cases hd
  simp [plain, isWhitespace_of_isDigit h, hne ',' (by decide), hne '-' (by decide),
    hne ':' (by decide)]

/-- A text of one piece: not empty, and of plain characters. -/
structure Piece (s : String) : Prop where
  ne : s ≠ ""
  chars : ∀ c ∈ s.toList, plain c = true

namespace Piece

variable {s : String}

theorem ne_nil (h : Piece s) : s.toList ≠ [] := fun hnil => h.ne (String.toList_eq_nil_iff.mp hnil)

theorem notMem (h : Piece s) {c : Char} (hc : plain c = false) : c ∉ s.toList := by
  intro hmem
  rw [h.chars c hmem] at hc
  cases hc

end Piece

structure IsWord (s : String) : Prop where
  ne_nil : s.toList ≠ []
  chars : ∀ c ∈ s.toList, isWhitespace c = false

theorem Piece.isWord {s : String} (h : Piece s) : IsWord s := by
  refine ⟨h.ne_nil, ?_⟩
  intro c hc
  have hplain := h.chars c hc
  simp only [plain, Bool.and_eq_true, Bool.not_eq_true'] at hplain
  exact hplain.1.1.1

theorem IsWord.append {s t : String} (hs : IsWord s) (ht : ∀ c ∈ t.toList, isWhitespace c = false) :
    IsWord (s ++ t) := by
  refine ⟨?_, ?_⟩
  · rw [toList_append]
    exact append_ne_nil_of_left_ne_nil hs.ne_nil _
  intro c hc
  rw [toList_append, mem_append] at hc
  exact hc.elim (hs.chars c) (ht c)

theorem not_blank_of_toList {t : String} {sep : Char} (ht : t.toList = [sep])
    (hsep : isWhitespace sep = false) : ∀ c ∈ t.toList, isWhitespace c = false := by
  intro c hc
  rw [ht] at hc
  rw [mem_singleton.mp hc, hsep]

section Joined

variable {a b c t : String} {sep : Char} (ha : Piece a) (hb : Piece b) (hc : Piece c)
  (ht : t.toList = [sep])

include ha hb hc ht

theorem isWord_joined (hsep : isWhitespace sep = false) : IsWord (a ++ t ++ b ++ t ++ c) := by
  have hblank := not_blank_of_toList ht hsep
  exact (((ha.isWord.append hblank).append hb.isWord.chars).append hblank).append hc.isWord.chars

theorem split_joined (hsep : plain sep = false) : split sep (a ++ t ++ b ++ t ++ c) = [a, b, c] := by
  have htext : a ++ t ++ b ++ t ++ c =
      ofList ([sep].intercalate ([a, b, c].map String.toList)) := by
    apply toList_injective
    simp [intercalate, ht]
  have hpieces : ∀ piece ∈ [a, b, c], sep ∉ piece.toList := by
    simp only [forall_mem_cons, not_mem_nil, false_imp_iff, implies_true, and_true]
    exact ⟨ha.notMem hsep, hb.notMem hsep, hc.notMem hsep⟩
  rw [htext, split_intercalate (by simp) hpieces]

end Joined

theorem splitWhitespace_cons {word rest : String} (h : IsWord word) :
    splitWhitespace (word ++ (" " ++ rest)) = word :: splitWhitespace rest := by
  have htext : word ++ (" " ++ rest) = ofList (word.toList ++ ' ' :: rest.toList) := by
    apply toList_injective
    simp
  rw [htext, splitWhitespace_word h.ne_nil h.chars (by decide), ofList_toList,
    ofList_toList]

theorem splitWhitespace_single {word : String} (h : IsWord word) : splitWhitespace word = [word] := by
  have hlast := splitWhitespace_last h.ne_nil h.chars
  rwa [ofList_toList] at hlast

theorem splitWhitespace_blanks (k : ℕ) (rest : List Char) :
    splitWhitespace (ofList (replicate k ' ' ++ rest)) =
      splitWhitespace (ofList rest) := by
  induction k with
  | zero => rfl
  | succ k ih =>
    rw [replicate_succ, cons_append, splitWhitespace_blank (by decide), ih]

theorem trim_of_words {first last : String} (mid : String) (hfirst : IsWord first)
    (hlast : IsWord last) : trim (first ++ (mid ++ last)) = first ++ (mid ++ last) := by
  rw [trim_eq_self_iff, toList_append, toList_append,
    head?_append_of_ne_nil _ hfirst.ne_nil, ← append_assoc,
    getLast?_append_of_ne_nil _ hlast.ne_nil]
  exact ⟨fun c hc => hfirst.chars c (mem_of_mem_head? hc),
    fun c hc => hlast.chars c (mem_of_mem_getLast? hc)⟩

/-! ### Numbers and names -/

theorem isDigit_of_mem_padded {width n : ℕ} {c : Char} (h : c ∈ (padded width n).toList) :
    c.isDigit = true := by
  rw [padded, toList_ofList, leftpad, mem_append] at h
  rcases h with h | h
  · rw [eq_of_mem_replicate h]
    decide
  · exact isDigit_of_mem_toString h

variable (width n : ℕ)

theorem toList_padded_ne_nil : (padded width n).toList ≠ [] := by
  rw [padded, toList_ofList, leftpad]
  exact append_ne_nil_of_right_ne_nil _ (toList_toString_ne_nil n)

theorem piece_padded : Piece (padded width n) :=
  ⟨fun h => toList_padded_ne_nil width n (congrArg String.toList h),
    fun _ hc => plain_of_isDigit (isDigit_of_mem_padded hc)⟩

theorem digitsToNat_padded : digitsToNat (padded width n).toList = n := by
  have hzeros : ∀ k : ℕ, (replicate k '0').foldl (fun n c => 10 * n + (c.toNat - 48)) 0 = 0 := by
    intro k
    induction k with
    | zero => rfl
    | succ k ih => simpa [replicate_succ] using ih
  have hvalue := digitsToNat_toString n
  rw [padded, toList_ofList, leftpad, digitsToNat, foldl_append, hzeros]
  exact hvalue

theorem parseU32_padded {n : ℕ} (h : n < 2 ^ 32) : parseU32 (padded width n) = some n := by
  have hparse := parseUsize_of_digits (toList_padded_ne_nil width n)
    (fun _ hc => isDigit_of_mem_padded hc) (by rw [digitsToNat_padded]; omega)
  rw [ofList_toList, digitsToNat_padded] at hparse
  simpa [parseU32, hparse] using h

theorem parseU32_toString {n : ℕ} (h : n < 2 ^ 32) : parseU32 (toString n) = some n := by
  have hparse := parseUsize_toString (show n < 2 ^ 64 by omega)
  rw [parseU32, hparse]
  simpa using h

theorem piece_toString : Piece (toString n) :=
  ⟨fun h => toList_toString_ne_nil n (congrArg String.toList h),
    fun _ hc => plain_of_isDigit (isDigit_of_mem_toString hc)⟩

theorem piece_of_check {s : String} (h : (s ≠ "" && s.toList.all plain) = true) : Piece s := by
  rw [Bool.and_eq_true] at h
  exact ⟨by simpa using h.1, all_eq_true.mp h.2⟩

theorem piece_getD {names : List String} {i : ℕ} (hi : i < names.length)
    (h : names.all (fun s => s ≠ "" && s.toList.all plain) = true) : Piece (names.getD i "") := by
  rw [getD_eq_getElem _ _ hi]
  exact piece_of_check (all_eq_true.mp h _ (getElem_mem hi))

namespace HttpDate

variable (d : HttpDate) {s : String}

theorem monthNumber_monthName : Rfc2616.monthNumber d.monthName = some d.month := by
  have hall : ∀ m : ℕ, 1 ≤ m → m ≤ 12 →
      Rfc2616.monthNumber (monthNames.getD (m - 1) "") = some m := by
    intro m hm hm'
    interval_cases m <;> decide
  exact hall d.month d.month_pos d.month_le

theorem piece_monthName : Piece d.monthName := by
  have hm := d.month_pos
  have hm' := d.month_le
  exact piece_getD (show d.month - 1 < 12 by omega) (by decide)

theorem piece_dayName : Piece (dayNames.getD d.weekday "") :=
  piece_getD (Nat.mod_lt _ (by decide)) (by decide)

theorem piece_longDayName : Piece (longDayNames.getD d.weekday "") :=
  piece_getD (Nat.mod_lt _ (by decide)) (by decide)

theorem isWord_timeText : IsWord d.timeText :=
  isWord_joined (piece_padded _ _) (piece_padded _ _) (piece_padded _ _) rfl (by decide)

theorem split_timeText : split ':' d.timeText = [padded 2 d.hour, padded 2 d.min, padded 2 d.sec] :=
  split_joined (piece_padded _ _) (piece_padded _ _) (piece_padded _ _) rfl (by decide)

theorem parseTime_timeText : parseTime d.timeText = some (d.hour, d.min, d.sec) := by
  have hhour := parseU32_padded 2 (show d.hour < 2 ^ 32 from d.hour_lt.trans (by decide))
  have hmin := parseU32_padded 2 (show d.min < 2 ^ 32 from d.min_lt.trans (by decide))
  have hsec := parseU32_padded 2 (show d.sec < 2 ^ 32 from d.sec_lt.trans (by decide))
  simp [parseTime, split_timeText, hhour, hmin, hsec]

theorem isWord_gmt : IsWord "GMT" := (piece_of_check (by decide)).isWord

theorem isWord_comma (h : Piece s) : IsWord (s ++ ",") :=
  h.isWord.append (not_blank_of_toList rfl (by decide))

/-! ### The preferred format -/

theorem rfc1123_eq : d.rfc1123 = (dayNames.getD d.weekday "" ++ ",") ++ (" " ++ (padded 2 d.day ++
    (" " ++ (d.monthName ++ (" " ++ (padded 4 d.year ++ (" " ++ (d.timeText ++ (" " ++ "GMT")))))))))
    := by
  apply toList_injective
  simp [rfc1123]

theorem splitWhitespace_rfc1123 : splitWhitespace d.rfc1123 =
    [dayNames.getD d.weekday "" ++ ",", padded 2 d.day, d.monthName, padded 4 d.year, d.timeText,
      "GMT"] := by
  rw [rfc1123_eq, splitWhitespace_cons (isWord_comma d.piece_dayName),
    splitWhitespace_cons (piece_padded _ _).isWord, splitWhitespace_cons d.piece_monthName.isWord,
    splitWhitespace_cons (piece_padded _ _).isWord, splitWhitespace_cons d.isWord_timeText,
    splitWhitespace_single isWord_gmt]

theorem trim_rfc1123 : trim d.rfc1123 = d.rfc1123 := by
  have htext : d.rfc1123 = (dayNames.getD d.weekday "" ++ ",") ++ ((" " ++ (padded 2 d.day ++
      (" " ++ (d.monthName ++ (" " ++ (padded 4 d.year ++ (" " ++ (d.timeText ++ " ")))))))) ++
      "GMT") := by
    apply toList_injective
    simp [rfc1123]
  rw [htext]
  exact trim_of_words _ (isWord_comma d.piece_dayName) isWord_gmt

theorem day_lt_u32 : d.day < 2 ^ 32 := by
  have hle := d.day_le
  have hlen := monthLength_le d.year d.month
  omega

theorem year_lt_u32 : d.year < 2 ^ 32 := by
  have := d.year_le
  omega

theorem parseRfc1123_rfc1123 : parseRfc1123 d.rfc1123 = some (d.secondsSinceEpoch : ℚ) := by
  have hday := parseU32_padded 2 d.day_lt_u32
  have hyear := parseU32_padded 4 d.year_lt_u32
  simp [parseRfc1123, splitWhitespace_rfc1123, hday, hyear, monthNumber_monthName,
    parseTime_timeText, componentsToTimestamp_dateTime]

/-! ### The other formats -/

theorem asctime_eq : d.asctime = dayNames.getD d.weekday "" ++ (" " ++ (d.monthName ++ (" " ++
    (ofList (leftpad 2 ' ' (toString d.day).toList) ++ (" " ++ (d.timeText ++
      (" " ++ padded 4 d.year))))))) := by
  apply toList_injective
  simp [asctime]

theorem splitWhitespace_asctime : splitWhitespace d.asctime =
    [dayNames.getD d.weekday "", d.monthName, toString d.day, d.timeText, padded 4 d.year] := by
  have hday : ∀ rest, splitWhitespace
      (ofList (leftpad 2 ' ' (toString d.day).toList) ++ (" " ++ rest)) =
        toString d.day :: splitWhitespace rest := by
    intro rest
    have htext : ofList (leftpad 2 ' ' (toString d.day).toList) ++ (" " ++ rest) =
        ofList (replicate (2 - (toString d.day).toList.length) ' ' ++
          (toString d.day ++ (" " ++ rest)).toList) := by
      apply toList_injective
      simp [leftpad]
    rw [htext, splitWhitespace_blanks, ofList_toList,
      splitWhitespace_cons (piece_toString d.day).isWord]
  rw [asctime_eq, splitWhitespace_cons d.piece_dayName.isWord,
    splitWhitespace_cons d.piece_monthName.isWord, hday, splitWhitespace_cons d.isWord_timeText,
    splitWhitespace_single (piece_padded _ _).isWord]

theorem trim_asctime : trim d.asctime = d.asctime := by
  have htext : d.asctime = dayNames.getD d.weekday "" ++ ((" " ++ (d.monthName ++ (" " ++
      (ofList (leftpad 2 ' ' (toString d.day).toList) ++ (" " ++ (d.timeText ++
        " ")))))) ++ padded 4 d.year) := by
    apply toList_injective
    simp [asctime]
  rw [htext]
  exact trim_of_words _ d.piece_dayName.isWord (piece_padded _ _).isWord

theorem parseAsctime_asctime : parseAsctime d.asctime = some (d.secondsSinceEpoch : ℚ) := by
  have hday : parseU32 d.day.repr = some d.day := parseU32_toString d.day_lt_u32
  have hyear := parseU32_padded 4 d.year_lt_u32
  simp [parseAsctime, splitWhitespace_asctime, hday, hyear, monthNumber_monthName,
    parseTime_timeText, componentsToTimestamp_dateTime]

theorem comma_notMem_timeText : ',' ∉ d.timeText.toList := by
  have hpadded : ∀ width n, ',' ∉ (padded width n).toList := fun _ _ =>
    (piece_padded _ _).notMem (by decide)
  simp [timeText, hpadded]

theorem splitOnceStr_asctime : splitOnceStr ", " d.asctime = none := by
  have hday : ',' ∉ (dayNames.getD d.weekday "").toList := d.piece_dayName.notMem (by decide)
  have hmonth : ',' ∉ d.monthName.toList := d.piece_monthName.notMem (by decide)
  have hnumber : ',' ∉ (toString d.day).toList := notMem_toString (by decide) _
  have hpad : ',' ∉ leftpad 2 ' ' (toString d.day).toList := by
    rw [leftpad, mem_append, not_or]
    exact ⟨fun h => absurd (eq_of_mem_replicate h) (by decide), hnumber⟩
  have htime := d.comma_notMem_timeText
  have hyear : ',' ∉ (padded 4 d.year).toList := (piece_padded _ _).notMem (by decide)
  have hcomma : ',' ∉ d.asctime.toList := by
    rw [asctime_eq]
    simp only [toList_append, mem_append, toList_ofList, not_or]
    exact ⟨hday, by decide, hmonth, by decide, hpad, by decide, htime, by decide, hyear⟩
  rw [splitOnceStr, show ", ".toList = [',', ' '] from rfl, cutAt_eq_none _ hcomma]
  rfl

/-- The date of RFC 850: day, month and two digits of the year. -/
def shortDate : String := padded 2 d.day ++ "-" ++ d.monthName ++ "-" ++ padded 2 (d.year % 100)

theorem isWord_shortDate : IsWord d.shortDate :=
  isWord_joined (piece_padded _ _) d.piece_monthName (piece_padded _ _) rfl (by decide)

theorem split_shortDate :
    split '-' d.shortDate = [padded 2 d.day, d.monthName, padded 2 (d.year % 100)] :=
  split_joined (piece_padded _ _) d.piece_monthName (piece_padded _ _) rfl (by decide)

def rfc850Rest : String := d.shortDate ++ (" " ++ (d.timeText ++ (" " ++ "GMT")))

theorem rfc850_eq : d.rfc850 = longDayNames.getD d.weekday "" ++ (", " ++ d.rfc850Rest) := by
  apply toList_injective
  simp [rfc850, rfc850Rest, shortDate]

theorem splitOnceStr_rfc850 :
    splitOnceStr ", " d.rfc850 = some (longDayNames.getD d.weekday "", d.rfc850Rest) := by
  have hday : ',' ∉ (longDayNames.getD d.weekday "").toList :=
    d.piece_longDayName.notMem (by decide)
  rw [rfc850_eq, splitOnceStr, toList_append, toList_append,
    show ", ".toList = [',', ' '] from rfl, cutAt_append _ _ hday]
  simp

theorem splitWhitespace_rfc850Rest :
    splitWhitespace d.rfc850Rest = [d.shortDate, d.timeText, "GMT"] := by
  rw [rfc850Rest, splitWhitespace_cons d.isWord_shortDate, splitWhitespace_cons d.isWord_timeText,
    splitWhitespace_single isWord_gmt]

theorem parseRfc1123_rfc850 : parseRfc1123 d.rfc850 = none := by
  have htext : d.rfc850 = (longDayNames.getD d.weekday "" ++ ",") ++ (" " ++ d.rfc850Rest) := by
    apply toList_injective
    simp [rfc850_eq]
  have hwords : splitWhitespace d.rfc850 =
      [longDayNames.getD d.weekday "" ++ ",", d.shortDate, d.timeText, "GMT"] := by
    rw [htext, splitWhitespace_cons (isWord_comma d.piece_longDayName), splitWhitespace_rfc850Rest]
  simp [parseRfc1123, hwords]

theorem trim_rfc850 : trim d.rfc850 = d.rfc850 := by
  have htext : d.rfc850 = longDayNames.getD d.weekday "" ++ ((", " ++ (d.shortDate ++ (" " ++
      (d.timeText ++ " ")))) ++ "GMT") := by
    apply toList_injective
    simp [rfc850_eq, rfc850Rest]
  rw [htext]
  exact trim_of_words _ d.piece_longDayName.isWord isWord_gmt

/-- Two digits stand for the years 1970 to 2069. -/
theorem parseRfc850_rfc850 (h : d.year ≤ 2069) :
    parseRfc850 d.rfc850 = some (d.secondsSinceEpoch : ℚ) := by
  have hfrom := d.from1970
  have hday := parseU32_padded 2 d.day_lt_u32
  have hyear := parseU32_padded 2 (show d.year % 100 < 2 ^ 32 by omega)
  have hcentury : (if d.year % 100 < 100 then
      if d.year % 100 < 70 then d.year % 100 + 2000 else d.year % 100 + 1900
      else d.year % 100) = d.year := by
    split_ifs <;> omega
  simp [parseRfc850, splitOnceStr_rfc850, splitWhitespace_rfc850Rest, split_shortDate, hday,
    hyear, hcentury, monthNumber_monthName, parseTime_timeText, componentsToTimestamp_dateTime]

/-! ### The parsers -/

/-- The texts of a date; two digits of the year are not enough for all. -/
def texts : List String := [d.rfc1123, d.asctime] ++ if d.year ≤ 2069 then [d.rfc850] else []

theorem parseHttpDate_rfc1123 :
    Rfc2616.parseHttpDate d.rfc1123 = some (d.secondsSinceEpoch : ℚ) := by
  simp [Rfc2616.parseHttpDate, trim_rfc1123, parseRfc1123_rfc1123]

theorem parseHttpDate_asctime :
    Rfc2616.parseHttpDate d.asctime = some (d.secondsSinceEpoch : ℚ) := by
  have h1123 : parseRfc1123 d.asctime = none := by
    simp [parseRfc1123, splitWhitespace_asctime]
  have h850 : parseRfc850 d.asctime = none := by
    simp [parseRfc850, splitOnceStr_asctime]
  simp [Rfc2616.parseHttpDate, trim_asctime, h1123, h850, parseAsctime_asctime]

theorem parseHttpDate_rfc850 (h : d.year ≤ 2069) :
    Rfc2616.parseHttpDate d.rfc850 = some (d.secondsSinceEpoch : ℚ) := by
  simp [Rfc2616.parseHttpDate, trim_rfc850, parseRfc1123_rfc850, parseRfc850_rfc850 d h]

theorem parseHttpDate_texts (h : s ∈ d.texts) :
    Rfc2616.parseHttpDate s = some (d.secondsSinceEpoch : ℚ) := by
  rw [texts, mem_append] at h
  rcases h with h | h
  · rcases mem_pair.mp h with rfl | rfl
    · exact d.parseHttpDate_rfc1123
    · exact d.parseHttpDate_asctime
  split at h
  · rename_i hyear
    rw [mem_singleton.mp h]
    exact d.parseHttpDate_rfc850 hyear
  · simp at h

theorem path_parseHttpDate_rfc1123 :
    (d.secondsSinceEpoch : ℤ) < 2 ^ 63 ∧
      VarahaCache.parseHttpDate d.rfc1123 = some (Int64.ofInt d.secondsSinceEpoch) := by
  have hdated : Dated d.rfc1123 := by
    refine ⟨_, d.year, by rw [trim_rfc1123, parseRfc1123_rfc1123], ?_, d.from1970⟩
    simp [trim_rfc1123, splitWhitespace_rfc1123, parseU32_padded 4 d.year_lt_u32]
  obtain ⟨t, -, hlt, hlib, hpath⟩ := hdated.parse
  rw [parseHttpDate_rfc1123, Option.some.injEq] at hlib
  have ht : t = d.secondsSinceEpoch := by exact_mod_cast hlib.symm
  subst ht
  exact ⟨hlt, hpath⟩

end HttpDate

/-- **HTTP dates are exact.** Every text of a date is read as its seconds
since 1970, by both parsers; so the values are ordered as the dates. -/
theorem httpDates_exact (d : HttpDate) :
    (∀ s ∈ d.texts, Rfc2616.parseHttpDate s = some (d.secondsSinceEpoch : ℚ)) ∧
      ((d.secondsSinceEpoch : ℤ) < 2 ^ 63 ∧
        parseHttpDate d.rfc1123 = some (Int64.ofInt d.secondsSinceEpoch)) ∧
      ∀ e : HttpDate,
        (∀ s ∈ d.texts, ∀ s' ∈ e.texts, ∃ t t', Rfc2616.parseHttpDate s = some t ∧
          Rfc2616.parseHttpDate s' = some t' ∧ (t < t' ↔ d.Before e.toDateTime)) ∧
        ∃ t t', parseHttpDate d.rfc1123 = some t ∧ parseHttpDate e.rfc1123 = some t' ∧
          (t < t' ↔ d.Before e.toDateTime) := by
  refine ⟨fun s hs => d.parseHttpDate_texts hs, d.path_parseHttpDate_rfc1123, fun e => ⟨?_, ?_⟩⟩
  · intro s hs s' hs'
    refine ⟨_, _, d.parseHttpDate_texts hs, e.parseHttpDate_texts hs', ?_⟩
    rw [Nat.cast_lt, DateTime.secondsSinceEpoch_lt_iff]
  obtain ⟨hlt, hparse⟩ := d.path_parseHttpDate_rfc1123
  obtain ⟨hlt', hparse'⟩ := e.path_parseHttpDate_rfc1123
  refine ⟨_, _, hparse, hparse', ?_⟩
  rw [Int64.lt_iff_toInt_lt, Int64.toInt_ofInt_of_le (by omega) hlt,
    Int64.toInt_ofInt_of_le (by omega) hlt', Nat.cast_lt, DateTime.secondsSinceEpoch_lt_iff]

end VarahaCache
