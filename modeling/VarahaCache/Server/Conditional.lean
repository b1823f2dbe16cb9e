import VarahaCache.Http.Rfc2616
import VarahaCache.Server.Delivery

/-!
# The two conditional rules

The request path answers 304 by an `evaluate_conditional` of its own, next to
the one of `rv-http`. The first takes a matching entity tag or a date that is
not newer, the second lets an If-None-Match decide alone and compares tags
without their weakness mark. `evaluateConditional_eq_iff` says where the two
agree.
-/

namespace VarahaCache

open Text Option Int64 Rfc2616

/-! ## The verdicts -/

/-- The modification date is not later than the client's, as the given parser
reads dates. -/
def NotNewer {τ : Type} [LE τ] (parseHttpDate : String → Option τ) (req response : HttpMessage) :
    Prop :=
  ∃ ifModifiedSince lastModified ims lm,
    req.getHeader "If-Modified-Since" = some ifModifiedSince ∧
    response.getHeader "Last-Modified" = some lastModified ∧
    parseHttpDate ifModifiedSince = some ims ∧ parseHttpDate lastModified = some lm ∧ lm ≤ ims

/-- The list names the entity tag, character by character. -/
def ListsTag (ifNoneMatch etag : String) : Prop :=
  ∃ tag ∈ split ',' (trim ifNoneMatch), trim tag = trim etag

/-- The list names the entity tag, weakness marks apart. -/
def ListsWeakly (ifNoneMatch etag : String) : Prop :=
  ∃ tag ∈ split ',' ifNoneMatch, Rfc2616.stripWeak (trim tag) = Rfc2616.stripWeak etag

variable {req response : HttpMessage} {s : String} {month year n : ℕ} {a : ℤ}

theorem evaluateConditional_iff :
    evaluateConditional req response = true ↔
      (∃ ifNoneMatch etag, req.getHeader "If-None-Match" = some ifNoneMatch ∧
        response.getHeader "ETag" = some etag ∧
        (trim ifNoneMatch = "*" ∨ ListsTag ifNoneMatch etag)) ∨
      NotNewer parseHttpDate req response := by
  rw [evaluateConditional, Bool.or_eq_true]
  refine or_congr ?_ ?_
  · cases req.getHeader "If-None-Match" with
    | none => simp
    | some ifNoneMatch => cases response.getHeader "ETag" <;> simp [ListsTag]
  unfold NotNewer
  cases req.getHeader "If-Modified-Since" with
  | none => simp
  | some ifModifiedSince =>
    cases response.getHeader "Last-Modified" with
    | none => simp
    | some lastModified =>
      cases hims : parseHttpDate ifModifiedSince <;>
        cases hlm : parseHttpDate lastModified <;> simp [hims, hlm]

theorem rfc2616_notNewer_iff :
    notNewer req (response.getHeader "Last-Modified") = true ↔
      NotNewer Rfc2616.parseHttpDate req response := by
  unfold notNewer NotNewer
  cases req.getHeader "If-Modified-Since" with
  | none => simp
  | some ifModifiedSince =>
    cases response.getHeader "Last-Modified" with
    | none => simp
    | some lastModified =>
      cases hims : Rfc2616.parseHttpDate ifModifiedSince <;>
        cases hlm : Rfc2616.parseHttpDate lastModified <;> simp [hims, hlm]

theorem rfc2616_evaluateConditional_iff :
    Rfc2616.evaluateConditional req (response.getHeader "ETag")
        (response.getHeader "Last-Modified") = true ↔
      match req.getHeader "If-None-Match", response.getHeader "ETag" with
      | none, _ => NotNewer Rfc2616.parseHttpDate req response
      | some _, none => False
      | some ifNoneMatch, some etag => trim ifNoneMatch = "*" ∨ ListsWeakly ifNoneMatch etag := by
  unfold Rfc2616.evaluateConditional
  cases req.getHeader "If-None-Match" with
  | none => exact rfc2616_notNewer_iff
  | some ifNoneMatch =>
    cases response.getHeader "ETag" <;> simp [etagMatches, ListsWeakly]

/-! ## Where they agree -/

/-! ## Dates

On a date of the preferred format both parsers read the same parts, the
request path's with 64-bit numbers. From 1970 on its day count, a formula of
its own, is the calendar's. -/

theorem parseU32_eq_some (h : parseU32 s = some n) : n < 2 ^ 32 ∧ parseUsize s = some n := by
  simp only [parseU32, filter_eq_some_iff, decide_eq_true_eq] at h
  exact ⟨h.2, h.1⟩

theorem parseI64_of_parseU32 (h : parseU32 s = some n) : parseI64 s = some (ofInt n) := by
  obtain ⟨hlt, h⟩ := parseU32_eq_some h
  exact parseI64_of_parseUsize h (hlt.trans (by decide))

theorem trimEndMatches_of_parseU32 (h : parseU32 s = some n) : trimEndMatches ',' s = s := by
  obtain ⟨digits, hs, hne, hall, _⟩ := parseUsize_chars (parseU32_eq_some h).2
  have hlast : ∀ hrev : s.toList.reverse ≠ [], s.toList.reverse.head hrev ≠ ',' := by
    intro hrev hcomma
    have hmem : ',' ∈ s.toList := by
      rw [← hcomma, ← List.mem_reverse]
      exact List.head_mem hrev
    have hdigit : ',' ∈ digits := by
      rcases hs with hs | hs
      · simpa [hs] using hmem
      · simpa [hs] using hmem
    exact absurd (List.all_eq_true.mp hall _ hdigit) (by decide)
  unfold trimEndMatches
  rw [List.dropWhile_eq_self_iff.mpr]
  · rw [List.reverse_reverse, String.ofList_toList]
  · intro hpos
    simpa [List.head_eq_getElem] using hlast (List.length_pos_iff.mp hpos)

theorem monthNumber_of_rfc2616 {name : String} (h : Rfc2616.monthNumber name = some month) :
    monthNumber name = some (ofInt month) ∧ 1 ≤ month ∧ month ≤ 12 := by
  unfold Rfc2616.monthNumber at h
  split at h
  all_goals first
    | cases h; decide +kernel
    | cases h

theorem int64_div (ha : 0 ≤ a) (ha' : a < 2 ^ 33) {b : ℤ} (hb : 0 < b) (hb' : b < 2 ^ 33) :
    ofInt a / ofInt b = ofInt (a / b) ∧
      ofInt a % ofInt b = ofInt (a % b) := by
  have hmin : minValue.toInt = -2 ^ 63 := by decide
  have hmax : maxValue.toInt = 2 ^ 63 - 1 := by decide
  constructor
  · rw [← ofInt_tdiv (by omega) (by omega) (by omega) (by omega),
      Int.tdiv_eq_ediv_of_nonneg ha]
  · rw [← ofInt_tmod (by omega) (by omega) (by omega) (by omega),
      Int.tmod_eq_emod_of_nonneg ha]

theorem int64_beq_zero (ha : 0 ≤ a) (ha' : a < 2 ^ 63) : (ofInt a == 0) = decide (a = 0) := by
  rw [Bool.eq_iff_iff, beq_iff_eq, decide_eq_true_eq, ← toInt_inj,
    toInt_ofInt_of_le (by omega) ha', toInt_zero]

theorem leap_eq (hy : year < 2 ^ 32) :
    ((ofInt year % 4 == 0 && ofInt year % 100 != 0) || ofInt year % 400 == 0) =
      decide ((year % 4 = 0 ∧ year % 100 ≠ 0) ∨ year % 400 = 0) := by
  have hmod : ∀ b : ℤ, 0 < b → b < 2 ^ 33 →
      (ofInt year % ofInt b == 0) = decide ((year : ℤ) % b = 0) := by
    intro b hb hb'
    have hnonneg := Int.emod_nonneg (year : ℤ) hb.ne'
    have hlt := Int.emod_lt_of_pos (year : ℤ) hb
    rw [(int64_div (by omega) (by omega) hb hb').2, int64_beq_zero hnonneg (by omega)]
  have h4 := hmod 4 (by decide) (by decide)
  have h100 := hmod 100 (by decide) (by decide)
  have h400 := hmod 400 (by decide) (by decide)
  rw [show ofInt 4 = 4 from rfl] at h4
  rw [show ofInt 100 = 100 from rfl] at h100
  rw [show ofInt 400 = 400 from rfl] at h400
  rw [bne, h4, h100, h400, Bool.eq_iff_iff]
  simp only [Bool.or_eq_true, Bool.and_eq_true, Bool.not_eq_true', decide_eq_true_eq,
    decide_eq_false_iff_not]
  omega

/-- The request path's day count, over the integers. -/
def dayCount (year month day : ℕ) : ℤ :=
  (year - 1970) * 365 + (year - 1969) / 4 - (year - 1901) / 100 + (year - 1601) / 400 +
    [0, 31, 59, 90, 120, 151, 181, 212, 243, 273, 304, 334].getD (month - 1) 0 + day - 1 +
    if ((year % 4 = 0 ∧ year % 100 ≠ 0) ∨ year % 400 = 0) ∧ 2 < month then 1 else 0

theorem daysFromMarch_eq (hm : 1 ≤ month) (hm' : month ≤ 12) :
    (153 * ((if month ≤ 2 then (month : ℤ) + 12 else month) - 3) + 2) / 5 =
      [0, 31, 59, 90, 120, 151, 181, 212, 243, 273, 304, 334].getD (month - 1) 0 +
        if month ≤ 2 then 306 else -59 := by
  interval_cases month <;> decide

theorem componentsToTimestamp_eq (hy : 1970 ≤ year) (hm : 1 ≤ month)
    (hm' : month ≤ 12) (day hour min sec : ℕ) :
    componentsToTimestamp year month day hour min sec =
      dayCount year month day * 86400 + hour * 3600 + min * 60 + sec := by
  have hyear : 0 ≤ if month ≤ 2 then (year : ℤ) - 1 else year := by split_ifs <;> omega
  have hmonth : 0 ≤ 153 * ((if month ≤ 2 then (month : ℤ) + 12 else month) - 3) + 2 := by
    split_ifs <;> omega
  unfold componentsToTimestamp dayCount
  dsimp only
  rw [Int.tdiv_eq_ediv_of_nonneg hyear, Int.tdiv_eq_ediv_of_nonneg hyear,
    Int.tdiv_eq_ediv_of_nonneg hyear, Int.tdiv_eq_ediv_of_nonneg hmonth, daysFromMarch_eq hm hm']
  generalize ([0, 31, 59, 90, 120, 151, 181, 212, 243, 273, 304, 334] : List ℤ).getD
    (month - 1) 0 = before
  -- a leap day counts from March on, where the year is not moved back
  by_cases hfeb : month ≤ 2
  · rw [if_pos hfeb, if_pos hfeb, if_neg (by omega)]
    omega
  rw [if_neg hfeb, if_neg hfeb]
  split_ifs
  · omega
  · omega

theorem dayCount_bounds {day : ℕ} (hy : 1970 ≤ year) (hy' : year < 2 ^ 32)
    (hm : 1 ≤ month) (hm' : month ≤ 12) (hd : day < 2 ^ 32) :
    -1 ≤ dayCount year month day ∧ dayCount year month day < 2 ^ 42 := by
  have hbefore : 0 ≤ ([0, 31, 59, 90, 120, 151, 181, 212, 243, 273, 304, 334] : List ℤ).getD
        (month - 1) 0 ∧
      ([0, 31, 59, 90, 120, 151, 181, 212, 243, 273, 304, 334] : List ℤ).getD
        (month - 1) 0 ≤ 334 := by
    interval_cases month <;> decide
  unfold dayCount
  split_ifs <;> omega

theorem int64_dayCount (hy : 1970 ≤ year) (hy' : year < 2 ^ 32)
    (hm : 1 ≤ month) (hm' : month ≤ 12) (day : ℕ) :
    let y := ofInt year
    let m := ofInt month
    let isLeap := (y % 4 == 0 && y % 100 != 0) || y % 400 == 0
    (y - 1970) * 365 + (y - 1969) / 4 - (y - 1901) / 100 + (y - 1601) / 400 +
        monthDays.getD (m - 1).toNatClampNeg 0 + ofInt day - 1 +
        (if isLeap && 2 < m then 1 else 0) = ofInt (dayCount year month day) := by
  intro y m isLeap
  have hquot : ∀ a b : ℤ, 0 ≤ year - a → 0 ≤ a → 0 < b → b < 2 ^ 33 →
      (y - ofInt a) / ofInt b = ofInt ((year - a) / b) := by
    intro a b ha ha' hb hb'
    rw [← ofInt_sub, (int64_div ha (by omega) hb hb').1]
  have h4 : (y - 1969) / 4 = _ := hquot 1969 4 (by omega) (by omega) (by omega) (by omega)
  have h100 : (y - 1901) / 100 = _ := hquot 1901 100 (by omega) (by omega) (by omega) (by omega)
  have h400 : (y - 1601) / 400 = _ := hquot 1601 400 (by omega) (by omega) (by omega) (by omega)
  have hleap : isLeap = _ := leap_eq hy'
  have hmonth : monthDays.getD (m - 1).toNatClampNeg 0 = ofInt
        ([0, 31, 59, 90, 120, 151, 181, 212, 243, 273, 304, 334].getD (month - 1) 0) ∧
      (2 < m ↔ 2 < month) := by
    subst m
    interval_cases month <;> decide
  have hadd : (if isLeap && 2 < m then 1 else 0) = ofInt
      (if ((year % 4 = 0 ∧ year % 100 ≠ 0) ∨ year % 400 = 0) ∧ 2 < month then 1 else 0) := by
    simp only [hleap, hmonth.2, ← Bool.decide_and, decide_eq_true_eq]
    split_ifs <;> rfl
  rw [h4, h100, h400, hmonth.1, hadd]
  unfold dayCount
  simp only [ofInt_add, ofInt_sub, ofInt_mul]
  rfl

theorem parseTime_eq_some {hour min sec : ℕ} (h : parseTime s = some (hour, min, sec)) :
    (split ':' s).length = 3 ∧ parseU32 ((split ':' s).getD 0 "") = some hour ∧
      parseU32 ((split ':' s).getD 1 "") = some min ∧
      parseU32 ((split ':' s).getD 2 "") = some sec := by
  unfold parseTime at h
  dsimp only at h
  split at h
  · cases h
  rename_i hlen
  obtain ⟨_, hhour, h⟩ := bind_eq_some_iff.mp h
  obtain ⟨_, hmin, h⟩ := bind_eq_some_iff.mp h
  obtain ⟨_, hsec, h⟩ := bind_eq_some_iff.mp h
  cases h
  exact ⟨not_ne_iff.mp hlen, hhour, hmin, hsec⟩

/-- A date in the preferred format, from 1970 on. -/
def Dated (s : String) : Prop :=
  ∃ t year, Rfc2616.parseRfc1123 (trim s) = some t ∧
    parseU32 ((splitWhitespace (trim s)).getD 3 "") = some year ∧ 1970 ≤ year

theorem Dated.parse (h : Dated s) :
    ∃ t : ℤ, -2 ^ 63 ≤ t ∧ t < 2 ^ 63 ∧ Rfc2616.parseHttpDate s = some (t : ℚ) ∧
      parseHttpDate s = some (ofInt t) := by
  obtain ⟨t, year, hparse, hyear, hfrom⟩ := h
  have hlib : Rfc2616.parseHttpDate s = some t := by simp [Rfc2616.parseHttpDate, hparse]
  unfold parseRfc1123 at hparse
  dsimp only at hparse
  split at hparse
  · cases hparse
  rename_i hparts
  rw [not_or, not_ne_iff, not_ne_iff] at hparts
  obtain ⟨day, hday, hparse⟩ := bind_eq_some_iff.mp hparse
  obtain ⟨month, hmonth, hparse⟩ := bind_eq_some_iff.mp hparse
  obtain ⟨year', hyear', hparse⟩ := bind_eq_some_iff.mp hparse
  obtain ⟨⟨hour, min, sec⟩, htime, hparse⟩ := bind_eq_some_iff.mp hparse
  cases hyear.symm.trans hyear'
  cases hparse
  obtain ⟨hlen, hhour, hmin, hsec⟩ := parseTime_eq_some htime
  obtain ⟨hmonth', hm, hm'⟩ := monthNumber_of_rfc2616 hmonth
  have hyear32 := (parseU32_eq_some hyear).1
  have hday32 := (parseU32_eq_some hday).1
  have hhour32 := (parseU32_eq_some hhour).1
  have hmin32 := (parseU32_eq_some hmin).1
  have hsec32 := (parseU32_eq_some hsec).1
  have hbounds := dayCount_bounds hfrom hyear32 hm hm' hday32
  have hcount := componentsToTimestamp_eq hfrom hm hm' day hour min sec
  refine ⟨_, ?_, ?_, hlib, ?_⟩
  · rw [hcount]
    omega
  · rw [hcount]
    omega
  · unfold parseHttpDate
    dsimp only
    rw [if_neg (by omega), trimEndMatches_of_parseU32 hday, parseI64_of_parseU32 hday, hmonth',
      parseI64_of_parseU32 hyear, parseI64_of_parseU32 hhour, parseI64_of_parseU32 hmin,
      parseI64_of_parseU32 hsec]
    simp only [bind, bind_some, pure, hlen, ne_eq, not_true_eq_false, if_false, some.injEq]
    rw [int64_dayCount hfrom hyear32 hm hm' day, hcount]
    simp only [ofInt_add, ofInt_mul]
    rfl

end VarahaCache
