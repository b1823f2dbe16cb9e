import VarahaCache.Http.Message

/-!
# Vary matching

`VaryMatcher` of `rv-http`: the request fields a response varies on, stored
with the object as length-prefixed names and values, and compared with a
later request.
-/

namespace VarahaCache.VaryMatcher

open Text

/-- A length as a little-endian `u16` (longer ones wrap), then the bytes. -/
def writeField (s : String) : List UInt8 :=
  let n := (asBytes s).length % 65536
  UInt8.ofNat (n % 256) :: UInt8.ofNat (n / 256) :: asBytes s

/-- The data stored with an object, or none for an empty list of fields. -/
def buildVaryData (responseVary : Option String) (requestHeaders : HeaderMap) :
    Option (List UInt8) :=
  match responseVary with
  | none => none
  | some vary =>
    if trim vary = "*" then some [0xFF]
    else
      let fields := ((split ',' vary).map trim).filter (· ≠ "")
      let data := fields.flatMap fun name =>
        writeField name ++ writeField ((requestHeaders.get name).getD "")
      if data = [] then none else some data

/-- Read one length-prefixed text; none when it is cut off or not UTF-8. -/
def readField : List UInt8 → Option (String × List UInt8)
  | lo :: hi :: rest =>
    let n := lo.toNat + 256 * hi.toNat
    if rest.length < n then none
    else (fromUtf8 (rest.take n)).map fun s => (s, rest.drop n)
  | _ => none

/-- The loop over the stored pairs. Each takes four bytes at least, so the
length is enough fuel. -/
def matchFields (requestHeaders : HeaderMap) : Nat → List UInt8 → Bool
  | _, [] => true
  | 0, _ :: _ => false
  | fuel + 1, data@(_ :: _) =>
    match readField data with
    | none => false
    | some (name, data) =>
      match readField data with
      | none => false
      | some (stored, data) =>
        if (requestHeaders.get name).getD "" ≠ stored then false
        else matchFields requestHeaders fuel data

/-- Whether a request matches stored vary data; the marker of `Vary: *`
matches none. -/
def «matches» (varyData : List UInt8) (requestHeaders : HeaderMap) : Bool :=
  if varyData = [0xFF] then false
  else matchFields requestHeaders varyData.length varyData

/-! ## What the stored data says

The data lists the names of the Vary value with the values the first request
had under them; reading it back gives the same list, whatever bytes the
values hold. -/

def members (vary : String) : List String := ((split ',' vary).map trim).filter (· ≠ "")

/-- The first value under a name, absent counting as empty. -/
def fieldValue (headers : HeaderMap) (name : String) : String := (headers.get name).getD ""

def Listed (vary name : String) : Prop := ∃ m ∈ members vary, eqIgnoreAsciiCase m name = true

def encode (headers : HeaderMap) (names : List String) : List UInt8 :=
  names.flatMap fun name => writeField name ++ writeField (fieldValue headers name)

variable (headers : HeaderMap) {vary : String} {names : List String}

@[simp] theorem encode_nil : encode headers [] = [] := rfl

@[simp] theorem encode_cons (name : String) (names : List String) :
    encode headers (name :: names) =
      writeField name ++ (writeField (fieldValue headers name) ++ encode headers names) := by
  simp [encode]

theorem length_writeField (s : String) : (writeField s).length = (asBytes s).length + 2 := rfl

theorem length_encode (names : List String) : 4 * names.length ≤ (encode headers names).length := by
  induction names with
  | nil => rfl
  | cons name names ih =>
    simp only [encode_cons, List.length_append, length_writeField, List.length_cons]
    omega

theorem readField_writeField {s : String} (hs : (asBytes s).length < 65536) (rest : List UInt8) :
    readField (writeField s ++ rest) = some (s, rest) := by
  have hlen : (UInt8.ofNat ((asBytes s).length % 65536 % 256)).toNat +
      256 * (UInt8.ofNat ((asBytes s).length % 65536 / 256)).toNat = (asBytes s).length := by
    rw [UInt8.toNat_ofNat', UInt8.toNat_ofNat']
    omega
  have htext : fromUtf8 (asBytes s) = some s := fromUtf8_eq_some.mpr rfl
  simp only [writeField, List.cons_append, readField, hlen, List.take_left, List.drop_left, htext,
    List.length_append, Option.map_some]
  rw [if_neg (by omega)]

/-- The loop inverts the encoder: it compares the values of the two
requests, name by name. -/
theorem matchFields_encode (r1 r2 : HeaderMap) {fuel : Nat}
    (hfuel : names.length ≤ fuel)
    (hshort : ∀ name ∈ names,
      (asBytes name).length < 65536 ∧ (asBytes (fieldValue r1 name)).length < 65536) :
    matchFields r2 fuel (encode r1 names) = true ↔
      ∀ name ∈ names, fieldValue r1 name = fieldValue r2 name := by
  induction names generalizing fuel with
  | nil => cases fuel <;> simp [matchFields]
  | cons name names ih =>
    obtain ⟨hname, hrest⟩ := List.forall_mem_cons.mp hshort
    cases fuel with
    | zero => simp at hfuel
    | succ fuel =>
      have hfirst := readField_writeField hname.1
        (writeField (fieldValue r1 name) ++ encode r1 names)
      have hsecond := readField_writeField hname.2 (encode r1 names)
      have ih := ih (Nat.le_of_succ_le_succ hfuel) hrest
      rw [encode_cons]
      -- the data starts with the two bytes of a length, so that the loop runs
      obtain ⟨b, tail, hcons⟩ : ∃ b tail,
          writeField name ++ (writeField (fieldValue r1 name) ++ encode r1 names) = b :: tail :=
        ⟨_, _, rfl⟩
      rw [hcons] at hfirst ⊢
      rw [matchFields, hfirst]
      simp only [hsecond]
      rw [List.forall_mem_cons, ← ih]
      by_cases heq : fieldValue r1 name = fieldValue r2 name
      · simp [heq, ← fieldValue.eq_def]
      · simp [heq, ← fieldValue.eq_def, Ne.symm heq]

theorem buildVaryData_of_not_star (hstar : trim vary ≠ "*") (r1 : HeaderMap) :
    buildVaryData (some vary) r1 =
      if encode r1 (members vary) = [] then none else some (encode r1 (members vary)) := by
  simp only [buildVaryData, if_neg hstar]
  rfl

theorem encode_eq_nil {headers : HeaderMap} : encode headers names = [] ↔ names = [] := by
  constructor
  · intro h
    have hlen := length_encode headers names
    rw [h] at hlen
    exact List.eq_nil_of_length_eq_zero (by simpa using hlen)
  · rintro rfl
    rfl

theorem star_mem_members (h : trim vary = "*") : "*" ∈ members vary := by
  have hcomma : ',' ∉ vary.toList := by
    intro hmem
    have htrim := mem_trim_of_mem hmem (by decide)
    rw [h] at htrim
    revert htrim
    decide
  rw [members, split_of_notMem hcomma]
  simp [h]

theorem fieldValue_congr {a b : String}
    (h : eqIgnoreAsciiCase a b = true) : fieldValue headers a = fieldValue headers b := by
  have hlower := eqIgnoreAsciiCase_iff.mp h
  simp only [fieldValue, HeaderMap.get, Header.nameEqIgnoreCase, eqIgnoreAsciiCase, hlower]

theorem forall_listed {r1 r2 : HeaderMap} :
    (∀ name, Listed vary name → fieldValue r1 name = fieldValue r2 name) ↔
      ∀ name ∈ members vary, fieldValue r1 name = fieldValue r2 name := by
  constructor
  · intro h name hmem
    exact h name ⟨name, hmem, eqIgnoreAsciiCase_iff.mpr rfl⟩
  rintro h name ⟨m, hmem, heq⟩
  rw [← fieldValue_congr r1 heq, ← fieldValue_congr r2 heq]
  exact h m hmem

/-- **The encoding is faithful.** A list without the star is stored as
nothing exactly when it is empty; otherwise the data accepts the requests
that have, under every listed name, the value of the request it was built
from. -/
theorem matches_buildVaryData_iff (vary : String) (r1 r2 : HeaderMap) (hstar : "*" ∉ members vary)
    (hshort : ∀ name ∈ members vary,
      (asBytes name).length < 65536 ∧ (asBytes (fieldValue r1 name)).length < 65536) :
    (buildVaryData (some vary) r1 = none ↔ members vary = []) ∧
      ∀ data, buildVaryData (some vary) r1 = some data →
        («matches» data r2 = true ↔
          ∀ name, Listed vary name → fieldValue r1 name = fieldValue r2 name) := by
  have hnot : trim vary ≠ "*" := fun h => hstar (star_mem_members h)
  rw [buildVaryData_of_not_star hnot]
  by_cases hnil : members vary = []
  · simp [hnil]
  have hdata : encode r1 (members vary) ≠ [] := mt encode_eq_nil.mp hnil
  simp only [if_neg hdata, hnil, reduceCtorEq, Option.some.injEq, forall_eq', true_and]
  have hlen := length_encode r1 (members vary)
  have hpos : 0 < (members vary).length := List.length_pos_of_ne_nil hnil
  -- four bytes at least, so the data is not the marker of `Vary: *`
  have hmarker : encode r1 (members vary) ≠ [0xFF] := by
    intro h
    rw [h, List.length_singleton] at hlen
    omega
  rw [«matches», if_neg hmarker, matchFields_encode r1 r2 (by omega) hshort, forall_listed]

/-- Two requests that differ in a header the list does not name. -/
theorem matches_buildVaryData_iff_accept :
    (buildVaryData (some "Accept, accept,") ⟨[⟨"ACCEPT", "\x01a"⟩]⟩ = none ↔
        members "Accept, accept," = []) ∧
      ∀ data, buildVaryData (some "Accept, accept,") ⟨[⟨"ACCEPT", "\x01a"⟩]⟩ = some data →
        («matches» data ⟨[⟨"Cookie", "b"⟩, ⟨"accept", "\x01a"⟩]⟩ = true ↔
          ∀ name, Listed "Accept, accept," name →
            fieldValue ⟨[⟨"ACCEPT", "\x01a"⟩]⟩ name =
              fieldValue ⟨[⟨"Cookie", "b"⟩, ⟨"accept", "\x01a"⟩]⟩ name) :=
  matches_buildVaryData_iff "Accept, accept," _ _ (by decide +kernel) (by decide +kernel)

end VarahaCache.VaryMatcher
