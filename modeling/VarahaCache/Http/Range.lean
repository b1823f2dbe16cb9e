import VarahaCache.Text
import VarahaCache.Lib.Words

/-!
# Byte ranges, as `rv-http` has them

`RangeSet::parse` and `RangeSpec::resolve`, and what a Range header asks for:
`RangeMember.read` reads one member of the list by itself, and the parser and
the resolution are the reading followed by a decision on the member and the
length.
-/

namespace VarahaCache

open Text Words List

inductive RangeError
  | invalidRange | notSatisfiable
deriving DecidableEq, Repr

/-- One range: no start means a suffix, no end that it is open. -/
structure RangeSpec where
  start : Option ℕ
  stop : Option ℕ
deriving DecidableEq, Repr

/-- `str::parse::<u64>`, on a 64-bit machine that of `usize`. -/
def parseU64 (s : String) : Option ℕ := parseUsize s

namespace RangeSpec

/-- First and last byte for a known length. The suffix is subtracted
saturating. -/
def resolve (spec : RangeSpec) (contentLength : ℕ) : Checked (Except RangeError (ℕ × ℕ)) :=
  match spec.start, spec.stop with
  | some start, some stop =>
    if stop < start ∨ contentLength ≤ start then .ok (.error .notSatisfiable)
    else (checkedSub contentLength 1).map fun last => .ok (start, min stop last)
  | some start, none =>
    if contentLength ≤ start then .ok (.error .notSatisfiable)
    else (checkedSub contentLength 1).map fun last => .ok (start, last)
  | none, some suffixLength =>
    if suffixLength = 0 then .ok (.error .notSatisfiable)
    else (checkedSub contentLength 1).map fun last => .ok (contentLength - suffixLength, last)
  | none, none => .ok (.error .invalidRange)

/-- One part of the header, trimmed and not empty. -/
def parse (part : String) : Except RangeError RangeSpec :=
  match stripPrefix "-" part with
  | some suffix =>
    match parseU64 suffix with
    | some suffixLength => .ok ⟨none, some suffixLength⟩
    | none => .error .invalidRange
  | none =>
    match splitOnce '-' part with
    | some (startStr, endStr) =>
      match parseU64 startStr with
      | some start =>
        if endStr = "" then .ok ⟨some start, none⟩
        else match parseU64 endStr with
          | some stop => .ok ⟨some start, some stop⟩
          | none => .error .invalidRange
      | none => .error .invalidRange
    | none => .error .invalidRange

end RangeSpec

/-- `RangeSet::parse`. Empty parts are passed over. -/
def RangeSet.parse (headerValue : String) : Except RangeError (List RangeSpec) :=
  match stripPrefix "bytes=" (trim headerValue) with
  | none => .error .invalidRange
  | some rangesStr =>
    match (((split ',' rangesStr).map trim).filter (· ≠ "")).mapM RangeSpec.parse with
    | .error e => .error e
    | .ok [] => .error .invalidRange
    | .ok ranges => .ok ranges

/-- The ranges a header selects: those of its specifications that resolve. -/
def RangeSet.selected (headerValue : String) (contentLength : ℕ) : List (ℕ × ℕ) :=
  match RangeSet.parse headerValue with
  | .error _ => []
  | .ok specs => specs.filterMap fun spec =>
    match spec.resolve contentLength with
    | .ok (.ok range) => some range
    | _ => none

example : RangeSet.selected "bytes=0-1, , 7-, -9" 5 = [(0, 1), (0, 4)] := by decide +kernel

/-! ## What a header asks for -/

inductive RangeMember
  | suffix (length : ℕ)
  | openEnded (start : ℕ)
  | between (start stop : ℕ)
deriving DecidableEq, Repr

namespace RangeMember

def read (part : String) : Option RangeMember :=
  match stripPrefix "-" part with
  | some digits => (parseUsize digits).map suffix
  | none =>
    (splitOnce '-' part).bind fun (startStr, endStr) =>
      if endStr = "" then (parseUsize startStr).map openEnded
      else (parseUsize startStr).bind fun start => (parseUsize endStr).map (between start)

/-- Some byte of a body of this length, or a positive number of last bytes. -/
def Satisfiable (n : ℕ) : RangeMember → Prop
  | suffix length => 0 < length
  | openEnded start => start < n
  | between start stop => start ≤ stop ∧ start < n

instance (n : ℕ) : (m : RangeMember) → Decidable (m.Satisfiable n)
  | suffix length => inferInstanceAs (Decidable (0 < length))
  | openEnded start => inferInstanceAs (Decidable (start < n))
  | between start stop => inferInstanceAs (Decidable (start ≤ stop ∧ start < n))

/-- More last bytes than there are. -/
def Overlong (n : ℕ) : RangeMember → Prop
  | suffix length => n < length
  | _ => False

instance (n : ℕ) : (m : RangeMember) → Decidable (m.Overlong n)
  | suffix length => inferInstanceAs (Decidable (n < length))
  | openEnded _ => inferInstanceAs (Decidable False)
  | between _ _ => inferInstanceAs (Decidable False)

/-- First and last byte. An overlong suffix is the whole body. -/
def range (n : ℕ) : RangeMember → ℕ × ℕ
  | suffix length => (n - length, n - 1)
  | openEnded start => (start, n - 1)
  | between start stop => (start, min stop (n - 1))

def spec : RangeMember → RangeSpec
  | suffix length => ⟨none, some length⟩
  | openEnded start => ⟨some start, none⟩
  | between start stop => ⟨some start, some stop⟩

theorem read_empty : read "" = none := by decide +kernel

theorem bounds {n : ℕ} (hn : 0 < n) {m : RangeMember} (h : m.Satisfiable n) :
    (m.range n).1 ≤ (m.range n).2 ∧ (m.range n).2 < n := by
  cases m <;> simp only [Satisfiable, range] at h ⊢ <;> omega

end RangeMember

def rangeParts (headerValue : String) : Option (List String) :=
  (stripPrefix "bytes=" (trim headerValue)).map fun spec => (split ',' spec).map trim

def rangeMembers (parts : List String) : List RangeMember := parts.filterMap RangeMember.read

/-- Every part but the empty ones is a member, and there is one. -/
def RangeSet.WellFormed (parts : List String) : Prop :=
  (∃ part ∈ parts, part ≠ "") ∧ ∀ part ∈ parts, part ≠ "" → (RangeMember.read part).isSome

instance (parts : List String) : Decidable (RangeSet.WellFormed parts) :=
  inferInstanceAs (Decidable (_ ∧ _))

theorem RangeSpec.parse_eq (part : String) :
    RangeSpec.parse part =
      match RangeMember.read part with
      | some m => .ok m.spec
      | none => .error .invalidRange := by
  unfold RangeSpec.parse RangeMember.read parseU64
  cases stripPrefix "-" part with
  | some digits => cases hparse : parseUsize digits <;> simp [hparse, RangeMember.spec]
  | none =>
    cases splitOnce '-' part with
    | none => rfl
    | some cut =>
      obtain ⟨startStr, endStr⟩ := cut
      by_cases hend : endStr = ""
      · cases hstart : parseUsize startStr <;> simp [hend, hstart, RangeMember.spec]
      · cases hstart : parseUsize startStr <;> cases hstop : parseUsize endStr <;>
          simp [hend, hstart, hstop, RangeMember.spec]

/-- Resolution is the decision on the member; an empty body is subtracted
from all the same. -/
theorem RangeMember.resolve_spec (m : RangeMember) (n : ℕ) :
    m.spec.resolve n =
      if m.Satisfiable n then (checkedSub n 1).map fun _ => .ok (m.range n)
      else .ok (.error .notSatisfiable) := by
  cases m with
  | suffix length =>
    rcases Nat.eq_zero_or_pos length with h | h
    · simp [spec, RangeSpec.resolve, Satisfiable, h]
    rcases Nat.eq_zero_or_pos n with rfl | hn
    · simp [spec, RangeSpec.resolve, Satisfiable, h, h.ne']
      rfl
    simp [spec, RangeSpec.resolve, Satisfiable, h, h.ne', range,
      checkedSub_of_le (show 1 ≤ n from hn)]
    rfl
  | openEnded start =>
    by_cases h : start < n
    · simp [spec, RangeSpec.resolve, Satisfiable, h, Nat.not_le.mpr h, range,
        checkedSub_of_le (show 1 ≤ n by omega)]
      rfl
    · simp [spec, RangeSpec.resolve, Satisfiable, h, Nat.not_lt.mp h]
  | between start stop =>
    by_cases h : start ≤ stop ∧ start < n
    · have hcond : ¬ (stop < start ∨ n ≤ start) := by omega
      simp [spec, RangeSpec.resolve, Satisfiable, h, hcond, range,
        checkedSub_of_le (show 1 ≤ n by omega)]
      rfl
    · have hcond : stop < start ∨ n ≤ start := by omega
      simp [spec, RangeSpec.resolve, Satisfiable, h, hcond]

/-! ## The parser -/

/-- The ranges of a header's satisfiable members; nothing when it is not well
formed. -/
def wantedRanges (headerValue : String) (n : ℕ) : List (ℕ × ℕ) :=
  match rangeParts headerValue with
  | none => []
  | some parts =>
    if RangeSet.WellFormed parts then
      ((rangeMembers parts).filter fun m => m.Satisfiable n).map (RangeMember.range n)
    else []

theorem rangeMembers_cons (part : String) (parts : List String) :
    rangeMembers (part :: parts) =
      ((RangeMember.read part).map fun m => m :: rangeMembers parts).getD (rangeMembers parts) := by
  rw [rangeMembers, filterMap_cons]
  cases RangeMember.read part <;> rfl

theorem rangeMembers_filter (parts : List String) :
    rangeMembers (parts.filter (· ≠ "")) = rangeMembers parts := by
  induction parts with
  | nil => rfl
  | cons part parts ih =>
    by_cases h : part = ""
    · rw [filter_cons_of_neg (by simpa using h), ih, rangeMembers_cons, h, RangeMember.read_empty]
      rfl
    · rw [filter_cons_of_pos (by simpa using h), rangeMembers_cons, rangeMembers_cons, ih]

theorem mem_rangeMembers {parts : List String} {m : RangeMember} :
    m ∈ rangeMembers parts ↔ ∃ part ∈ parts, RangeMember.read part = some m :=
  mem_filterMap

theorem RangeSpec.mapM_parse (parts : List String) :
    parts.mapM RangeSpec.parse =
      if ∀ part ∈ parts, (RangeMember.read part).isSome then
        .ok ((rangeMembers parts).map RangeMember.spec)
      else .error .invalidRange := by
  induction parts with
  | nil => rfl
  | cons part parts ih =>
    rw [mapM_cons, RangeSpec.parse_eq, ih, rangeMembers_cons]
    cases hread : RangeMember.read part with
    | none =>
      simp only [forall_mem_cons, hread, Option.isSome_none, Bool.false_eq_true,
        false_and, if_false]
      rfl
    | some m =>
      simp only [forall_mem_cons, hread, Option.isSome_some, true_and]
      by_cases hall : ∀ part ∈ parts, (RangeMember.read part).isSome
      · rw [if_pos hall, if_pos hall]
        rfl
      · rw [if_neg hall, if_neg hall]
        rfl

/-- The parser accepts the well-formed headers, and reads their members. -/
theorem RangeSet.parse_eq (headerValue : String) :
    RangeSet.parse headerValue =
      match rangeParts headerValue with
      | none => .error .invalidRange
      | some parts =>
        if RangeSet.WellFormed parts then .ok ((rangeMembers parts).map RangeMember.spec)
        else .error .invalidRange := by
  unfold RangeSet.parse rangeParts
  cases stripPrefix "bytes=" (trim headerValue) with
  | none => rfl
  | some rangesStr =>
    simp only [Option.map_some, RangeSpec.mapM_parse, rangeMembers_filter]
    generalize (split ',' rangesStr).map trim = parts
    have hmembers : (∀ part ∈ parts.filter (· ≠ ""), (RangeMember.read part).isSome) ↔
        ∀ part ∈ parts, part ≠ "" → (RangeMember.read part).isSome := by
      simp [mem_filter]
    by_cases hall : ∀ part ∈ parts, part ≠ "" → (RangeMember.read part).isSome
    · rw [if_pos (hmembers.mpr hall)]
      by_cases hsome : ∃ part ∈ parts, part ≠ ""
      · -- a part that is not empty is a member
        obtain ⟨part, hmem, hne⟩ := hsome
        obtain ⟨m, hm⟩ := Option.isSome_iff_exists.mp (hall part hmem hne)
        have hne' : rangeMembers parts ≠ [] := ne_nil_of_mem (mem_rangeMembers.mpr ⟨part, hmem, hm⟩)
        rw [if_pos ⟨⟨part, hmem, hne⟩, hall⟩]
        cases hlist : rangeMembers parts with
        | nil => exact absurd hlist hne'
        | cons m ms => rfl
      have hnil : rangeMembers parts = [] := by
        rw [eq_nil_iff_forall_not_mem]
        intro m hm
        obtain ⟨part, hmem, hread⟩ := mem_rangeMembers.mp hm
        have hempty : part = "" := by
          by_contra hne
          exact hsome ⟨part, hmem, hne⟩
        rw [hempty, RangeMember.read_empty] at hread
        cases hread
      rw [hnil, if_neg fun h => hsome h.1]
      rfl
    · rw [if_neg (mt hmembers.mp hall), if_neg fun h => hall h.2]

theorem RangeSet.parse_eq_ok {headerValue : String} {specs : List RangeSpec} :
    RangeSet.parse headerValue = .ok specs ↔
      ∃ parts, rangeParts headerValue = some parts ∧ RangeSet.WellFormed parts ∧
        (rangeMembers parts).map RangeMember.spec = specs := by
  rw [RangeSet.parse_eq]
  cases rangeParts headerValue with
  | none => simp
  | some parts =>
    by_cases h : RangeSet.WellFormed parts
    · simp [h]
    · simp [h]

theorem RangeSet.selected_eq (headerValue : String) {n : ℕ} (hn : 1 ≤ n) :
    RangeSet.selected headerValue n = wantedRanges headerValue n := by
  rw [RangeSet.selected, RangeSet.parse_eq, wantedRanges]
  cases rangeParts headerValue with
  | none => rfl
  | some parts =>
    by_cases h : RangeSet.WellFormed parts
    · simp only [if_pos h, filterMap_map]
      induction rangeMembers parts with
      | nil => rfl
      | cons m ms ih =>
        by_cases hm : m.Satisfiable n
        · rw [filter_cons_of_pos (by simpa using hm), map_cons, ← ih]
          simp [RangeMember.resolve_spec, hm, checkedSub_of_le hn, Except.map]
        · rw [filter_cons_of_neg (by simpa using hm), ← ih]
          simp [RangeMember.resolve_spec, hm]
    · simp only [if_neg h]

end VarahaCache
