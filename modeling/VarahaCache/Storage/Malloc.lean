import VarahaCache.Lib.KeyedSum
import VarahaCache.Lib.Machine
import VarahaCache.Lib.Words
import VarahaCache.Storage.ObjCore

/-!
# The memory store

`MallocStevedore` of `rv-storage` counts the bytes in use. An allocation
reserves its size hint, an extension reserves nothing, a new attribute
reserves its value but is charged its tag too, and a free gives back the size
reached. The count is exact in the runs where these agree, and only there.
-/

namespace VarahaCache

open Words Function Lib Option Finset

inductive ObjAttr
  | len | vxid | flags | gzipBits | lastModified | vary | headers | esiData
deriving DecidableEq

instance : Fintype ObjAttr where
  elems := {.len, .vxid, .flags, .gzipBits, .lastModified, .vary, .headers, .esiData}
  complete attr := by cases attr <;> decide

/-- `size_of` of the types the count uses; the compiler chooses them. -/
structure TypeSizes where
  storedObject : ℕ
  objAttr : ℕ
  storedObject_pos : 0 < storedObject
  storedObject_lt : storedObject < 2 ^ 64
  objAttr_pos : 0 < objAttr
  objAttr_lt : objAttr < 2 ^ 64

structure StoredObject where
  attrs : ObjAttr → Option (List UInt8)
  bodySize : ℕ

namespace StoredObject

def new : StoredObject := ⟨fun _ => none, 0⟩

def attrCharge (sizes : TypeSizes) : Option (List UInt8) → ℕ
  | some value => value.length + sizes.objAttr
  | none => 0

def attrSize (sizes : TypeSizes) (obj : StoredObject) : ℕ :=
  ∑ attr, attrCharge sizes (obj.attrs attr)

def size (sizes : TypeSizes) (obj : StoredObject) : ℕ :=
  wrappingAdd 64 (wrappingAdd 64 obj.bodySize (obj.attrSize sizes)) sizes.storedObject

end StoredObject

structure MallocStevedore where
  maxSize : ℕ
  used : ℕ
  objects : AList fun _ : Digest => StoredObject

namespace MallocStevedore

def new (maxSize : ℕ) : MallocStevedore := ⟨maxSize, 0, ∅⟩

def tryReserve (s : MallocStevedore) (additional : ℕ) : Except StorageError MallocStevedore :=
  let newVal := s.used + additional
  if 2 ^ 64 ≤ newVal then .error .full
  else if s.maxSize < newVal then .error .full
  else .ok { s with used := newVal }

def release (s : MallocStevedore) (amount : ℕ) : MallocStevedore :=
  { s with used := wrappingSub 64 s.used amount }

variable (sizes : TypeSizes)

def allocObj (s : MallocStevedore) (digest : Digest) (sizeHint : ℕ) :
    MallocStevedore × Except StorageError Unit :=
  let reserve := wrappingAdd 64 sizeHint sizes.storedObject
  match s.tryReserve reserve with
  | .error e => (s, .error e)
  | .ok s => ({ s with objects := s.objects.insert digest .new }, .ok ())

def freeObj (s : MallocStevedore) (digest : Digest) : MallocStevedore :=
  match s.objects.lookup digest with
  | none => s
  | some obj => release { s with objects := s.objects.erase digest } (obj.size sizes)

def extend (s : MallocStevedore) (digest : Digest) (data : List UInt8) :
    MallocStevedore × Except StorageError Unit :=
  match s.objects.lookup digest with
  | none => (s, .error .notFound)
  | some obj =>
    ({ s with
      objects := s.objects.insert digest
        { obj with bodySize := wrappingAdd 64 obj.bodySize data.length } }, .ok ())

def setAttr (s : MallocStevedore) (digest : Digest) (attr : ObjAttr) (data : List UInt8) :
    MallocStevedore × Except StorageError Unit :=
  match s.objects.lookup digest with
  | none => (s, .error .notFound)
  | some obj =>
    let oldSize := ((obj.attrs attr).map List.length).getD 0
    let newSize := data.length
    let reserved :=
      if oldSize < newSize then s.tryReserve (newSize - oldSize)
      else .ok (s.release (oldSize - newSize))
    match reserved with
    | .error e => (s, .error e)
    | .ok s =>
      ({ s with
        objects := s.objects.insert digest
          { obj with attrs := update obj.attrs attr (some data) } }, .ok ())

def usedSpace (s : MallocStevedore) : ℕ := s.used

/-- The store behind the interface of the engine. -/
def stevedore : Stevedore MallocStevedore where
  allocObj s oc sizeHint := s.allocObj sizes oc.digest sizeHint
  freeObj s oc := s.freeObj sizes oc.digest
  extend s oc data := s.extend oc.digest data

end MallocStevedore

/-! ## Calls -/

inductive MallocCall
  | allocObj (digest : Digest) (sizeHint : ℕ)
  | extend (digest : Digest) (data : List UInt8)
  | setAttr (digest : Digest) (attr : ObjAttr) (data : List UInt8)
  | freeObj (digest : Digest)

/-- The store, with the size hint of the latest allocation of each digest. -/
structure HintedStore where
  store : MallocStevedore
  hints : Digest → ℕ

namespace HintedStore

variable (sizes : TypeSizes)

def start (maxSize : ℕ) : HintedStore := ⟨.new maxSize, fun _ => 0⟩

def step (s : HintedStore) : MallocCall → Except StorageError Unit × HintedStore
  | .allocObj digest sizeHint =>
    match s.store.allocObj sizes digest sizeHint with
    | (store, .ok ()) => (.ok (), ⟨store, update s.hints digest sizeHint⟩)
    | (store, .error e) => (.error e, ⟨store, s.hints⟩)
  | .extend digest data =>
    let r := s.store.extend digest data
    (r.2, ⟨r.1, s.hints⟩)
  | .setAttr digest attr data =>
    let r := s.store.setAttr digest attr data
    (r.2, ⟨r.1, s.hints⟩)
  | .freeObj digest => (.ok (), ⟨s.store.freeObj sizes digest, s.hints⟩)

/-- The size of an object and the unused part of its reservation. -/
def share (hints : Digest → ℕ) (digest : Digest) (obj : StoredObject) : ℕ :=
  obj.size sizes + (hints digest - obj.bodySize)

/-- **Exact accounting**: the bytes in use are the sizes of the objects and the
unused parts of their reservations, within the limit. -/
def Exact (s : HintedStore) : Prop :=
  s.store.usedSpace = total (share sizes s.hints) s.store.objects ∧
    s.store.usedSpace ≤ s.store.maxSize

def released (s : HintedStore) : MallocCall → ℕ
  | .freeObj digest => (s.store.objects.lookup digest).elim 0 (StoredObject.size sizes)
  | .setAttr digest attr data => (s.store.objects.lookup digest).elim 0 fun obj =>
    ((obj.attrs attr).map List.length).getD 0 - data.length
  | _ => 0

/-- The count does not go below zero in a call, and is exact after it. -/
def Accounted (s : HintedStore) (call : MallocCall) : Prop :=
  released sizes s call ≤ s.store.usedSpace ∧ Exact sizes (s.step sizes call).2

/-- An allocation that is not refused is of a digest that is not stored, and
its hint does not wrap; an extension stays within the hint; an attribute is
there already unless it is refused; a free is of an object that has used up
its hint. -/
def StepOk (s : HintedStore) : MallocCall → Prop
  | .allocObj digest sizeHint =>
    (∃ store, s.store.tryReserve (wrappingAdd 64 sizeHint sizes.storedObject) = .ok store) →
      digest ∉ s.store.objects ∧ sizeHint + sizes.storedObject < 2 ^ 64
  | .extend digest data => ∀ obj, s.store.objects.lookup digest = some obj →
      wrappingAdd 64 obj.bodySize data.length ≤ s.hints digest
  | .setAttr digest attr data => ∀ obj, s.store.objects.lookup digest = some obj →
      obj.attrs attr = none → data ≠ [] ∧ ∃ e, s.store.tryReserve data.length = .error e
  | .freeObj digest => ∀ obj, s.store.objects.lookup digest = some obj →
      s.hints digest ≤ obj.bodySize

/-! ## The invariant -/

/-- What an object has been charged, its body being within its hint. -/
def charge (hints : Digest → ℕ) (digest : Digest) (obj : StoredObject) : ℕ :=
  hints digest + obj.attrSize sizes + sizes.storedObject

structure Inv (s : HintedStore) : Prop where
  max : s.store.maxSize < 2 ^ 64
  used : s.store.used = total (charge sizes s.hints) s.store.objects
  le : s.store.used ≤ s.store.maxSize
  body : ∀ d obj, s.store.objects.lookup d = some obj → obj.bodySize ≤ s.hints d

theorem inv_start {maxSize : ℕ} (h : maxSize < 2 ^ 64) : Inv sizes (start maxSize) where
  max := h
  used := rfl
  le := Nat.zero_le _
  body d obj hobj := by cases hobj

variable {sizes} {s : HintedStore} {d : Digest} {obj : StoredObject}

theorem size_of_lt (h : obj.bodySize + obj.attrSize sizes + sizes.storedObject < 2 ^ 64) :
    obj.size sizes = obj.bodySize + obj.attrSize sizes + sizes.storedObject := by
  have hsum : wrappingAdd 64 obj.bodySize (obj.attrSize sizes) =
      obj.bodySize + obj.attrSize sizes := wrappingAdd_of_lt (by omega)
  rw [StoredObject.size, hsum, wrappingAdd_of_lt h]

theorem Inv.bounds (h : Inv sizes s) (hobj : s.store.objects.lookup d = some obj) :
    obj.bodySize ≤ s.hints d ∧ s.hints d + obj.attrSize sizes + sizes.storedObject ≤ s.store.used ∧
      s.store.used ≤ s.store.maxSize ∧ s.store.maxSize < 2 ^ 64 := by
  refine ⟨h.body d obj hobj, ?_, h.le, h.max⟩
  show charge sizes s.hints d obj ≤ _
  rw [h.used, ← weight_of_lookup (f := charge sizes s.hints) hobj]
  exact weight_le_total d

theorem Inv.size_eq (h : Inv sizes s) (hobj : s.store.objects.lookup d = some obj) :
    obj.size sizes = obj.bodySize + obj.attrSize sizes + sizes.storedObject := by
  have hbounds := h.bounds hobj
  exact size_of_lt (by omega)

theorem Inv.share_eq (h : Inv sizes s) (hobj : s.store.objects.lookup d = some obj) :
    share sizes s.hints d obj = charge sizes s.hints d obj := by
  have hbody := h.body d obj hobj
  rw [share, h.size_eq hobj, charge]
  omega

theorem Inv.exact (h : Inv sizes s) : Exact sizes s := by
  refine ⟨?_, h.le⟩
  rw [MallocStevedore.usedSpace, h.used]
  exact (total_congr fun d obj hobj => h.share_eq hobj).symm

theorem Inv.others (h : Inv sizes s) (d : Digest) :
    total (charge sizes s.hints) (s.store.objects.erase d) +
      weight (charge sizes s.hints) s.store.objects d = s.store.used := by
  rw [total_erase, h.used]

theorem Inv.total_share_erase (h : Inv sizes s) {hints : Digest → ℕ}
    (hhints : ∀ d', d' ≠ d → hints d' = s.hints d') :
    total (share sizes hints) (s.store.objects.erase d) =
        total (charge sizes s.hints) (s.store.objects.erase d) ∧
      total (charge sizes hints) (s.store.objects.erase d) =
        total (charge sizes s.hints) (s.store.objects.erase d) := by
  have hother : ∀ d' obj, (s.store.objects.erase d).lookup d' = some obj →
      d' ≠ d ∧ s.store.objects.lookup d' = some obj := by
    intro d' obj hobj
    by_cases hd : d' = d
    · subst hd
      simp at hobj
    · rw [AList.lookup_erase_ne hd] at hobj
      exact ⟨hd, hobj⟩
  constructor
  · refine total_congr fun d' obj hobj => ?_
    obtain ⟨hd, hobj'⟩ := hother d' obj hobj
    rw [← h.share_eq hobj', share, share, hhints d' hd]
  · refine total_congr fun d' obj hobj => ?_
    rw [charge, charge, hhints d' (hother d' obj hobj).1]

/-! ## One call -/

theorem Inv.tryReserve_eq (h : Inv sizes s) (additional : ℕ) :
    s.store.tryReserve additional =
      if s.store.maxSize < s.store.used + additional then .error .full
      else .ok { s.store with used := s.store.used + additional } := by
  have hmax := h.max
  rw [MallocStevedore.tryReserve]
  by_cases hfull : s.store.maxSize < s.store.used + additional
  · rw [if_pos hfull]
    split <;> rfl
  · have hfits : ¬ 2 ^ 64 ≤ s.store.used + additional := by omega
    rw [if_neg hfull, if_neg hfits]

variable {t : HintedStore} {data : List UInt8} {attr : ObjAttr}

theorem Inv.setObject (h : Inv sizes s) (hmax : t.store.maxSize = s.store.maxSize)
    (hobjects : t.store.objects = s.store.objects.insert d obj)
    (hhints : ∀ d', d' ≠ d → t.hints d' = s.hints d')
    (hused : t.store.used + weight (charge sizes s.hints) s.store.objects d =
      s.store.used + charge sizes t.hints d obj)
    (hle : t.store.used ≤ t.store.maxSize) (hbody : obj.bodySize ≤ t.hints d) : Inv sizes t where
  max := by rw [hmax]; exact h.max
  used := by
    have hothers := h.others d
    rw [hobjects, total_insert, (h.total_share_erase hhints).2]
    omega
  le := hle
  body d' obj' hobj' := by
    rw [hobjects] at hobj'
    by_cases hd : d' = d
    · subst hd
      rw [AList.lookup_insert, some.injEq] at hobj'
      subst hobj'
      exact hbody
    · rw [AList.lookup_insert_ne hd] at hobj'
      rw [hhints d' hd]
      exact h.body d' obj' hobj'

theorem Inv.exact_iff_share (h : Inv sizes s)
    (hobjects : t.store.objects = s.store.objects.insert d obj)
    (hhints : ∀ d', d' ≠ d → t.hints d' = s.hints d') (hle : t.store.used ≤ t.store.maxSize) :
    Exact sizes t ↔ t.store.used + weight (charge sizes s.hints) s.store.objects d =
      s.store.used + share sizes t.hints d obj := by
  have hothers := h.others d
  simp only [Exact, MallocStevedore.usedSpace]
  rw [and_iff_left hle, hobjects, total_insert, (h.total_share_erase hhints).1]
  omega

/-- A call is accounted for exactly under its condition, and keeps the
invariant then. -/
def Decided (sizes : TypeSizes) (s : HintedStore) (call : MallocCall) : Prop :=
  (Accounted sizes s call ↔ StepOk sizes s call) ∧
    (StepOk sizes s call → Inv sizes (s.step sizes call).2)

open StoredObject

theorem Inv.allocObj (h : Inv sizes s) {sizeHint : ℕ} : Decided sizes s (.allocObj d sizeHint) := by
  have hpos := sizes.storedObject_pos
  have hattrs : attrSize sizes .new = 0 := by
    simp [attrSize, StoredObject.new, attrCharge]
  have hsize : StoredObject.size sizes .new = sizes.storedObject := by
    rw [size_of_lt (by rw [hattrs]; simpa [StoredObject.new] using sizes.storedObject_lt), hattrs]
    simp [StoredObject.new]
  simp only [Decided, Accounted, StepOk, released, step, MallocStevedore.allocObj,
    h.tryReserve_eq]
  by_cases hfull : s.store.maxSize < s.store.used + wrappingAdd 64 sizeHint sizes.storedObject
  · simp only [if_pos hfull]
    refine ⟨iff_of_true ⟨Nat.zero_le _, h.exact⟩ ?_, fun _ => h⟩
    rintro ⟨store, ⟨⟩⟩
  simp only [if_neg hfull]
  rw [Nat.not_lt] at hfull
  have hothers : ∀ d', d' ≠ d → update s.hints d sizeHint d' = s.hints d' :=
    fun d' hd => update_of_ne hd _ _
  have hshare : share sizes (update s.hints d sizeHint) d .new =
      sizes.storedObject + sizeHint := by
    rw [share, hsize, update_self]
    rfl
  have hexact := h.exact_iff_share
    (t := ⟨⟨s.store.maxSize, s.store.used + wrappingAdd 64 sizeHint sizes.storedObject,
      s.store.objects.insert d .new⟩, update s.hints d sizeHint⟩) rfl hothers hfull
  rw [hshare] at hexact
  have hcond : (s.store.used + wrappingAdd 64 sizeHint sizes.storedObject +
        weight (charge sizes s.hints) s.store.objects d =
      s.store.used + (sizes.storedObject + sizeHint)) ↔
        d ∉ s.store.objects ∧ sizeHint + sizes.storedObject < 2 ^ 64 := by
    rw [wrappingAdd]
    by_cases hmem : d ∈ s.store.objects
    · -- the object before it has been charged, and the charge is lost
      obtain ⟨before, hbefore⟩ := isSome_iff_exists.mp (AList.lookup_isSome.mpr hmem)
      have hbounds := h.bounds hbefore
      rw [weight_of_lookup hbefore, charge]
      simp only [hmem, not_true_eq_false, false_and, iff_false]
      omega
    · rw [weight_of_notMem hmem]
      simp only [hmem, not_false_eq_true, true_and]
      omega
  refine ⟨?_, fun hok => ?_⟩
  · rw [hexact, hcond, and_iff_right (Nat.zero_le _)]
    exact ⟨fun hnew _ => hnew, fun hok => hok ⟨_, rfl⟩⟩
  obtain ⟨hnew, hlt⟩ := hok ⟨_, rfl⟩
  refine h.setObject rfl rfl hothers ?_ hfull (Nat.zero_le _)
  rw [weight_of_notMem hnew, charge, hattrs, wrappingAdd_of_lt hlt]
  simp only [update_self]
  omega

theorem Inv.unchanged (h : Inv sizes s) {call : MallocCall} (hstep : (s.step sizes call).2 = s)
    (hreleased : released sizes s call = 0) (hok : StepOk sizes s call) : Decided sizes s call := by
  rw [Decided, Accounted, hstep, hreleased]
  exact ⟨iff_of_true ⟨Nat.zero_le _, h.exact⟩ hok, fun _ => h⟩

theorem Inv.extend (h : Inv sizes s) : Decided sizes s (.extend d data) := by
  cases hobj : s.store.objects.lookup d with
  | none =>
    refine h.unchanged ?_ rfl ?_
    · simp [step, MallocStevedore.extend, hobj]
    · simp [StepOk, hobj]
  | some obj =>
    have hbounds := h.bounds hobj
    simp only [Decided, Accounted, StepOk, released, step, MallocStevedore.extend, hobj,
      some.injEq, forall_eq']
    have hb : wrappingAdd 64 obj.bodySize data.length < 2 ^ 64 := Nat.mod_lt _ (by decide)
    generalize wrappingAdd 64 obj.bodySize data.length = bodySize at hb ⊢
    have hexact := h.exact_iff_share (t := ⟨⟨s.store.maxSize, s.store.used,
        s.store.objects.insert d { obj with bodySize := bodySize }⟩, s.hints⟩)
      rfl (fun _ _ => rfl) h.le
    rw [weight_of_lookup hobj] at hexact
    have hshare : s.store.used + charge sizes s.hints d obj = s.store.used +
        share sizes s.hints d { obj with bodySize := bodySize } ↔ bodySize ≤ s.hints d := by
      have hattrs : attrSize sizes { obj with bodySize := bodySize } =
          obj.attrSize sizes := rfl
      rw [share, charge, StoredObject.size, hattrs, wrappingAdd, wrappingAdd]
      dsimp only
      omega
    refine ⟨?_, fun hok => ?_⟩
    · rw [hexact, hshare, and_iff_right (Nat.zero_le _)]
    refine h.setObject rfl rfl (fun _ _ => rfl) ?_ h.le hok
    rw [weight_of_lookup hobj]
    rfl

theorem Inv.freeObj (h : Inv sizes s) : Decided sizes s (.freeObj d) := by
  cases hobj : s.store.objects.lookup d with
  | none =>
    refine h.unchanged ?_ ?_ ?_
    · simp [step, MallocStevedore.freeObj, hobj]
    · simp [released, hobj]
    · simp [StepOk, hobj]
  | some obj =>
    have hbounds := h.bounds hobj
    have hsize := h.size_eq hobj
    have hothers := h.others d
    rw [weight_of_lookup hobj, charge] at hothers
    have hused : wrappingSub 64 s.store.used (obj.size sizes) =
        s.store.used - obj.size sizes := wrappingSub_of_le (by omega) (by omega)
    simp only [Decided, Accounted, StepOk, released, step, MallocStevedore.freeObj, hobj,
      some.injEq, forall_eq', MallocStevedore.release, hused, Exact,
      MallocStevedore.usedSpace, elim_some,
      (h.total_share_erase (d := d) fun _ _ => rfl).1]
    refine ⟨by omega, fun hok => ⟨h.max, ?_, ?_, ?_⟩⟩
    · dsimp only
      omega
    · dsimp only
      omega
    · intro d' obj' hobj'
      by_cases hd : d' = d
      · subst hd
        simp at hobj'
      · rw [AList.lookup_erase_ne hd] at hobj'
        exact h.body d' obj' hobj'

theorem attrSize_update (sizes : TypeSizes) (obj : StoredObject) (attr : ObjAttr) (data : List UInt8) :
    attrSize sizes { obj with attrs := update obj.attrs attr (some data) } +
        attrCharge sizes (obj.attrs attr) =
      obj.attrSize sizes + (data.length + sizes.objAttr) := by
  have hnew := add_sum_erase univ
    (fun a => attrCharge sizes (update obj.attrs attr (some data) a))
    (mem_univ attr)
  have hold := add_sum_erase univ
    (fun a => attrCharge sizes (obj.attrs a)) (mem_univ attr)
  have hrest : ∑ a ∈ univ.erase attr,
        attrCharge sizes (update obj.attrs attr (some data) a) =
      ∑ a ∈ univ.erase attr, attrCharge sizes (obj.attrs a) := by
    refine sum_congr rfl fun a ha => ?_
    rw [update_of_ne (ne_of_mem_erase ha)]
  have hset : attrCharge sizes (some data) = data.length + sizes.objAttr := rfl
  simp only [update_self, hrest, hset] at hnew
  simp only [attrSize]
  omega

/-- The count changes by the change of an attribute's length: exact if the
attribute was there before. -/
theorem Inv.setAttr_exact (h : Inv sizes s) (hobj : s.store.objects.lookup d = some obj)
    {oldSize lost : ℕ} {Refused : Prop}
    (hsize : ((obj.attrs attr).map List.length).getD 0 = oldSize)
    (hmax : t.store.maxSize = s.store.maxSize) (hhints : t.hints = s.hints)
    (hobjects : t.store.objects = s.store.objects.insert d
      { obj with attrs := update obj.attrs attr (some data) })
    (hused : t.store.used + oldSize = s.store.used + data.length)
    (hle : t.store.used ≤ t.store.maxSize) (hlost : lost ≤ s.store.usedSpace)
    (hstored : obj.attrs attr = none → ¬ Refused) :
    (lost ≤ s.store.usedSpace ∧ Exact sizes t ↔ (obj.attrs attr = none → Refused)) ∧
      ((obj.attrs attr = none → Refused) → Inv sizes t) := by
  have hcond : (obj.attrs attr = none → Refused) ↔ obj.attrs attr ≠ none :=
    imp_congr_right fun hattr => iff_false_intro (hstored hattr)
  rw [hcond, and_iff_right hlost]
  have hbounds := h.bounds hobj
  have hpos := sizes.objAttr_pos
  have hlt := sizes.objAttr_lt
  have hattrs := attrSize_update sizes obj attr data
  have hother : ∀ d', d' ≠ d → t.hints d' = s.hints d' := fun d' _ => by rw [hhints]
  have hexact := h.exact_iff_share hobjects hother hle
  rw [weight_of_lookup hobj, share, charge, StoredObject.size, hhints, wrappingAdd,
    wrappingAdd] at hexact
  rw [hexact]
  cases hold : obj.attrs attr with
  | none =>
    rw [hold, attrCharge] at hattrs
    rw [hold, map_none, getD_none] at hsize
    refine ⟨?_, fun hne => absurd rfl hne⟩
    simp only [ne_eq, not_true_eq_false, iff_false]
    omega
  | some old =>
    rw [hold, attrCharge] at hattrs
    rw [hold, map_some, getD_some] at hsize
    refine ⟨?_, fun _ => ?_⟩
    · simp only [ne_eq, reduceCtorEq, not_false_eq_true, iff_true]
      omega
    refine h.setObject hmax hobjects hother ?_ hle (by rw [hhints]; exact hbounds.1)
    rw [weight_of_lookup hobj, charge, charge, hhints]
    omega

theorem length_le_attrSize (sizes : TypeSizes) (obj : StoredObject) (attr : ObjAttr) :
    ((obj.attrs attr).map List.length).getD 0 ≤ obj.attrSize sizes := by
  have hone : attrCharge sizes (obj.attrs attr) ≤ obj.attrSize sizes :=
    single_le_sum (f := fun a => attrCharge sizes (obj.attrs a))
      (fun _ _ => Nat.zero_le _) (mem_univ attr)
  cases hattr : obj.attrs attr with
  | none => exact Nat.zero_le _
  | some old =>
    rw [hattr, attrCharge] at hone
    simp only [map_some, getD_some]
    omega

theorem Inv.setAttr (h : Inv sizes s) : Decided sizes s (.setAttr d attr data) := by
  cases hobj : s.store.objects.lookup d with
  | none =>
    refine h.unchanged ?_ ?_ ?_
    · simp [step, MallocStevedore.setAttr, hobj]
    · simp [released, hobj]
    · simp [StepOk, hobj]
  | some obj =>
    have hbounds := h.bounds hobj
    have hold := length_le_attrSize sizes obj attr
    have hnone : obj.attrs attr = none → ((obj.attrs attr).map List.length).getD 0 = 0 := by
      intro hattr
      rw [hattr]
      rfl
    simp only [Decided, Accounted, StepOk, released, step, MallocStevedore.setAttr, hobj,
      some.injEq, forall_eq', elim_some, h.tryReserve_eq]
    generalize hsize : ((obj.attrs attr).map List.length).getD 0 = oldSize at hold hnone ⊢
    by_cases hgrow : oldSize < data.length
    · have hreleased : oldSize - data.length = 0 := by omega
      rw [if_pos hgrow, hreleased]
      by_cases hfull : s.store.maxSize < s.store.used + (data.length - oldSize)
      · -- refused, and nothing changes
        simp only [if_pos hfull]
        refine ⟨iff_of_true ⟨Nat.zero_le _, h.exact⟩ fun hattr => ⟨?_, ?_⟩, fun _ => h⟩
        · rintro rfl
          simp at hgrow
        · rw [hnone hattr, Nat.sub_zero] at hfull
          exact ⟨_, if_pos hfull⟩
      simp only [if_neg hfull]
      rw [Nat.not_lt] at hfull
      refine h.setAttr_exact hobj hsize rfl rfl rfl ?_ hfull (Nat.zero_le _) ?_
      · dsimp only
        omega
      rintro hattr ⟨-, e, he⟩
      rw [hnone hattr, Nat.sub_zero] at hfull
      rw [if_neg (by omega)] at he
      cases he
    · have hused : wrappingSub 64 s.store.used (oldSize - data.length) =
          s.store.used - (oldSize - data.length) := wrappingSub_of_le (by omega) (by omega)
      rw [if_neg hgrow]
      simp only [MallocStevedore.release, hused]
      refine h.setAttr_exact hobj hsize rfl rfl rfl ?_ ?_ ?_ ?_
      · dsimp only
        omega
      · dsimp only
        omega
      · rw [MallocStevedore.usedSpace]
        omega
      · rintro hattr ⟨hdata, -⟩
        rw [hnone hattr, Nat.not_lt, Nat.le_zero, List.length_eq_zero_iff] at hgrow
        exact hdata hgrow

/-! ## Runs -/

/-- **Exact accounting over runs.** In every sequence of calls on an empty
store, the count is exact after every call, within the limit and never below
zero, if and only if every call meets the condition. -/
theorem accounted_iff_stepOk (sizes : TypeSizes) (maxSize : ℕ) (hmax : maxSize < 2 ^ 64)
    (calls : List MallocCall) :
    Guarded (step sizes) (Accounted sizes) (start maxSize) calls ↔
      Guarded (step sizes) (StepOk sizes) (start maxSize) calls := by
  have hstep : ∀ s call, Inv sizes s → Decided sizes s call := by
    intro s call h
    cases call with
    | allocObj d sizeHint => exact h.allocObj
    | extend d data => exact h.extend
    | setAttr d attr data => exact h.setAttr
    | freeObj d => exact h.freeObj
  exact guarded_iff_guarded (step sizes) (P := Inv sizes)
    (fun s call h => (hstep s call h).1) (fun s call h => (hstep s call h).2)
    (inv_start sizes hmax)

def sizes64 : TypeSizes where
  storedObject := 56
  objAttr := 1
  storedObject_pos := by decide
  storedObject_lt := by decide
  objAttr_pos := by decide
  objAttr_lt := by decide

/-- An object whose body is as long as its hint, stored and freed. -/
def fullCalls : List MallocCall :=
  [.allocObj ⟨.replicate 32 1⟩ 3, .extend ⟨.replicate 32 1⟩ [1, 2, 3],
    .freeObj ⟨.replicate 32 1⟩]

theorem accounted_iff_stepOk_full :
    Guarded (step sizes64) (Accounted sizes64) (start 1000) fullCalls := by
  refine (accounted_iff_stepOk sizes64 1000 (by decide) fullCalls).mpr
    ⟨fun _ => ⟨by decide +kernel, by decide⟩, fun obj hobj => ?_, fun obj hobj => ?_, trivial⟩
  · cases (show some StoredObject.new = some obj from hobj)
    decide
  · cases (show some { StoredObject.new with bodySize := 3 } = some obj from hobj)
    decide

/-- **The hint of a freed object stays counted**: ten bytes are in use and
nothing is stored. -/
theorem not_accounted_unused_hint :
    (record (step sizes64) (start 1000) [.allocObj ⟨.replicate 32 1⟩ 10,
        .freeObj ⟨.replicate 32 1⟩]).2.store.usedSpace = 10 ∧
      ¬ Guarded (step sizes64) (Accounted sizes64) (start 1000)
        [.allocObj ⟨.replicate 32 1⟩ 10, .freeObj ⟨.replicate 32 1⟩] := by
  refine ⟨by decide +kernel, ?_⟩
  rintro ⟨-, ⟨-, hexact, -⟩, -⟩
  revert hexact
  decide +kernel

end HintedStore

end VarahaCache
