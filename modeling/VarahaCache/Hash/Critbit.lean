import VarahaCache.Hash.ObjHead
import VarahaCache.Lib.CritBit

/-!
# The crit-bit table

`CritbitHash` of `rv-hash`: a crit-bit tree over the bits of the digests,
most significant bit of the first byte first. The sections under its lock
are functions of their own, for the concurrent table uses them one at a
time.
-/

namespace VarahaCache

open Function

/-! ## Bits of a digest -/

/-- A byte of a digest; positions beyond the last are never asked for. -/
def Digest.byte (d : Digest) (i : ℕ) : UInt8 := d.bytes.toArray.getD i 0

def getBit (digest : Digest) (bitPos : ℕ) : UInt8 :=
  (digest.byte (bitPos / 8) >>> UInt8.ofNat (7 - bitPos % 8)) &&& 1

def leadingZeros (b : UInt8) : ℕ := if b = 0 then 8 else 7 - Nat.log2 b.toNat

def findCriticalBit (a b : Digest) : Option ℕ :=
  (List.range 32).findSome? fun i =>
    let diff := a.byte i ^^^ b.byte i
    if diff ≠ 0 then
      let bitInByte := 7 - leadingZeros diff
      some (i * 8 + (7 - bitInByte))
    else none

def bitOf (digest : Digest) (bitPos : ℕ) : Bool := getBit digest bitPos != 0

/-! ## The tree -/

abbrev CritbitNode := CritBit.Tree ObjHead

def walkToLeaf (node : CritbitNode) (digest : Digest) : ObjHead := node.walk bitOf digest

def insertNode (node : CritbitNode) (newLeaf : ObjHead) (critBit : ℕ) (newDigest : Digest) :
    CritbitNode := node.insert bitOf newLeaf critBit newDigest

def removeNode (node : CritbitNode) (digest : Digest) : Option CritbitNode × Option ObjHead :=
  node.erase bitOf ObjHead.digest digest

structure CritbitHash where
  root : Option CritbitNode
deriving DecidableEq

namespace CritbitHash

def new : CritbitHash := ⟨none⟩

/-- The head found under a lock, if the leaf reached is one for the digest. -/
def search (h : CritbitHash) (digest : Digest) : Option ObjHead :=
  match h.root with
  | none => none
  | some tree =>
    let leaf := walkToLeaf tree digest
    if leaf.digest = digest then some leaf else none

/-- The fast path of `lookup`, under the read lock. -/
def readSection (s : HashState CritbitHash) (digest : Digest) (newOh : ObjHead) :
    Option ((ObjHead × Option ObjHead) × HashState CritbitHash) :=
  match s.table.search digest with
  | some leaf => some ((leaf, some newOh), ⟨s.table, incRef s.refcnt leaf⟩)
  | none => none

/-- The slow path of `lookup`, under the write lock: look again, then insert.
At a critical bit the digests differ. -/
def writeSection (s : HashState CritbitHash) (digest : Digest) (newOh : ObjHead) :
    (ObjHead × Option ObjHead) × HashState CritbitHash :=
  match s.table.root with
  | none => ((newOh, none), ⟨⟨some (.leaf newOh)⟩, incRef s.refcnt newOh⟩)
  | some tree =>
    let leaf := walkToLeaf tree digest
    if leaf.digest = digest then ((leaf, some newOh), ⟨s.table, incRef s.refcnt leaf⟩)
    else
      let critBit := (findCriticalBit digest leaf.digest).getD 0
      ((newOh, none), ⟨⟨some (insertNode tree newOh critBit digest)⟩, incRef s.refcnt newOh⟩)

/-- The end of `deref`, under the write lock. -/
def removeSection (s : HashState CritbitHash) (digest : Digest) : HashState CritbitHash :=
  match s.table.root with
  | none => s
  | some tree => ⟨⟨(removeNode tree digest).1⟩, s.refcnt⟩

def lookup (s : HashState CritbitHash) (digest : Digest) (newOh : ObjHead) :
    (ObjHead × Option ObjHead) × HashState CritbitHash :=
  match readSection s digest newOh with
  | some r => r
  | none => writeSection s digest newOh

def deref (s : HashState CritbitHash) (oh : ObjHead) : Bool × HashState CritbitHash :=
  let r := decRef s.refcnt oh
  if r.1 = 0 then (true, removeSection ⟨s.table, r.2⟩ oh.digest) else (false, ⟨s.table, r.2⟩)

def slinger : HashSlinger CritbitHash := ⟨lookup, deref⟩

end CritbitHash

/-! ## Critical bits -/

theorem bitOf_eq (d : Digest) (p : ℕ) : bitOf d p = (d.byte (p / 8)).toNat.testBit (7 - p % 8) := by
  have hshift : (UInt8.ofNat (7 - p % 8)).toNat % 8 = 7 - p % 8 := by
    rw [UInt8.toNat_ofNat']
    omega
  have hbit : (getBit d p).toNat = ((d.byte (p / 8)).toNat >>> (7 - p % 8)) &&& 1 := by
    rw [getBit, UInt8.toNat_and, UInt8.toNat_shiftRight, hshift]
    rfl
  rw [bitOf, Nat.testBit, Nat.and_comm, ← hbit, Bool.eq_iff_iff, bne_iff_ne, bne_iff_ne, ne_eq,
    ne_eq, ← UInt8.toNat_inj]
  rfl

theorem testBit_leadingZeros {x y : UInt8} (h : x ^^^ y ≠ 0) :
    leadingZeros (x ^^^ y) ≤ 7 ∧
      x.toNat.testBit (7 - leadingZeros (x ^^^ y)) = !y.toNat.testBit (7 - leadingZeros (x ^^^ y)) ∧
      ∀ j, 7 - leadingZeros (x ^^^ y) < j → x.toNat.testBit j = y.toNat.testBit j := by
  have hne : x.toNat ^^^ y.toNat ≠ 0 := by
    intro hzero
    rw [← UInt8.toNat_xor] at hzero
    exact h (UInt8.toNat_inj.mp hzero)
  have hlt : x.toNat ^^^ y.toNat < 2 ^ 8 := by
    rw [← UInt8.toNat_xor]
    exact UInt8.toNat_lt _
  have hlog : Nat.log2 (x.toNat ^^^ y.toNat) < 8 := (Nat.log2_lt hne).mpr hlt
  have hzeros : 7 - leadingZeros (x ^^^ y) = Nat.log2 (x.toNat ^^^ y.toNat) := by
    rw [leadingZeros, if_neg h, UInt8.toNat_xor]
    omega
  refine ⟨by rw [leadingZeros, if_neg h]; omega, ?_, ?_⟩
  · have htop := Nat.testBit_log2 hne
    rw [Nat.testBit_xor] at htop
    rw [hzeros]
    generalize x.toNat.testBit _ = bx at htop ⊢
    generalize y.toNat.testBit _ = by' at htop ⊢
    cases bx <;> cases by' <;> simp_all
  · intro j hj
    rw [hzeros, Nat.log2_lt hne] at hj
    have habove := Nat.testBit_lt_two_pow hj
    rw [Nat.testBit_xor] at habove
    simpa using habove

theorem findCriticalBit_eq_some {a b : Digest} {p : ℕ} (h : findCriticalBit a b = some p) :
    ∃ i, a.byte i ^^^ b.byte i ≠ 0 ∧ p = i * 8 + leadingZeros (a.byte i ^^^ b.byte i) ∧
      ∀ j < i, a.byte j = b.byte j := by
  obtain ⟨l₁, i, l₂, hrange, hi, hbefore⟩ := List.findSome?_eq_some_iff.mp h
  have hlen : l₁.length < 32 := by
    have := congrArg List.length hrange
    simp at this
    omega
  have hget : ∀ j (hj : j ≤ l₁.length), (l₁ ++ i :: l₂)[j]? = some j := by
    intro j hj
    rw [← hrange, List.getElem?_range (by omega)]
  have hlast : i = l₁.length := by simpa using hget l₁.length (Nat.le_refl _)
  dsimp only at hi
  split at hi
  · rename_i hdiff
    refine ⟨i, hdiff, ?_, ?_⟩
    · have hle := (testBit_leadingZeros hdiff).1
      rw [Option.some.injEq] at hi
      omega
    intro j hj
    have hmem : j ∈ l₁ := by
      have hj' := hget j (by omega)
      rw [List.getElem?_append_left (by omega)] at hj'
      exact List.mem_of_getElem? hj'
    have hsame := hbefore j hmem
    dsimp only at hsame
    split at hsame
    · cases hsame
    · rename_i hzero
      exact UInt8.xor_eq_zero_iff.mp (not_not.mp hzero)
  · cases hi

theorem findCriticalBit_spec {a b : Digest} {p : ℕ} (h : findCriticalBit a b = some p) :
    bitOf a p = !bitOf b p ∧ ∀ q < p, bitOf a q = bitOf b q := by
  obtain ⟨i, hdiff, rfl, hbefore⟩ := findCriticalBit_eq_some h
  obtain ⟨hle, htop, habove⟩ := testBit_leadingZeros hdiff
  have hdiv : (i * 8 + leadingZeros (a.byte i ^^^ b.byte i)) / 8 = i := by omega
  have hmod : (i * 8 + leadingZeros (a.byte i ^^^ b.byte i)) % 8 =
      leadingZeros (a.byte i ^^^ b.byte i) := by omega
  constructor
  · rw [bitOf_eq, bitOf_eq, hdiv, hmod]
    exact htop
  intro q hq
  rw [bitOf_eq, bitOf_eq]
  by_cases hbyte : q / 8 < i
  · rw [hbefore _ hbyte]
  have hsame : q / 8 = i := by omega
  rw [hsame]
  exact habove _ (by omega)

theorem findCriticalBit_ne_none {a b : Digest} (h : a ≠ b) : findCriticalBit a b ≠ none := by
  intro hnone
  apply h
  rw [findCriticalBit, List.findSome?_eq_none_iff] at hnone
  have hbytes : a.bytes = b.bytes := by
    refine Vector.ext fun i hi => ?_
    have hsame := hnone i (List.mem_range.mpr hi)
    dsimp only at hsame
    split at hsame
    · cases hsame
    rename_i hzero
    have hbyte := UInt8.xor_eq_zero_iff.mp (not_not.mp hzero)
    simpa [Digest.byte, hi] using hbyte
  cases a
  cases b
  exact congrArg Digest.mk hbytes

/-! ## The table is a map -/

namespace CritbitHash

def WF (h : CritbitHash) : Prop := ∀ tree, h.root = some tree → tree.WF bitOf ObjHead.digest

def heads (h : CritbitHash) : List ObjHead := CritBit.Tree.stored h.root

variable {s : HashState CritbitHash} {digest : Digest} {h : CritbitHash} {oh newOh : ObjHead}

theorem WF.search_eq_some (hwf : h.WF) :
    h.search digest = some oh ↔ oh ∈ h.heads ∧ oh.digest = digest := by
  unfold search heads
  cases hroot : h.root with
  | none => simp [CritBit.Tree.stored]
  | some tree => exact (hwf tree hroot).find_eq_some

theorem WF.search_eq_none (hwf : h.WF) :
    h.search digest = none ↔ ∀ oh ∈ h.heads, oh.digest ≠ digest := by
  rw [Option.eq_none_iff_forall_ne_some]
  simp [hwf.search_eq_some, not_and]

theorem WF.search_of_insert {h' : CritbitHash} (hwf : h.WF) (hwf' : h'.WF)
    (hmissing : h.search newOh.digest = none)
    (hheads : ∀ oh, oh ∈ h'.heads ↔ oh = newOh ∨ oh ∈ h.heads) :
    h'.search = update h.search newOh.digest (some newOh) := by
  funext d
  refine Option.ext fun oh => ?_
  rw [hwf'.search_eq_some, hheads]
  by_cases hd : d = newOh.digest
  · subst hd
    rw [update_self, Option.some.injEq]
    constructor
    · rintro ⟨rfl | hoh, hdigest⟩
      · rfl
      · exact absurd hdigest (hwf.search_eq_none.mp hmissing oh hoh)
    · rintro rfl
      exact ⟨.inl rfl, rfl⟩
  · rw [update_of_ne hd, hwf.search_eq_some]
    constructor
    · rintro ⟨rfl | hoh, hdigest⟩
      · exact absurd hdigest.symm hd
      · exact ⟨hoh, hdigest⟩
    · rintro ⟨hoh, hdigest⟩
      exact ⟨.inr hoh, hdigest⟩

theorem writeSection_hit (hfound : s.table.search digest = some oh) (newOh : ObjHead) :
    writeSection s digest newOh = ((oh, some newOh), ⟨s.table, incRef s.refcnt oh⟩) := by
  unfold search at hfound
  unfold writeSection
  cases hroot : s.table.root with
  | none => simp [hroot] at hfound
  | some tree =>
    rw [hroot] at hfound
    dsimp only at hfound ⊢
    split at hfound
    · rename_i hdigest
      cases hfound
      rw [if_pos hdigest]
    · cases hfound

theorem WF.writeSection_miss (hwf : s.table.WF) (hmissing : s.table.search newOh.digest = none) :
    ∃ t, writeSection s newOh.digest newOh = ((newOh, none), ⟨t, incRef s.refcnt newOh⟩) ∧ t.WF ∧
      t.search = update s.table.search newOh.digest (some newOh) := by
  cases hroot : s.table.root with
  | none =>
    have hleaf : (⟨some (.leaf newOh)⟩ : CritbitHash).WF := by
      rintro tree ⟨⟩
      exact .leaf newOh
    refine ⟨⟨some (.leaf newOh)⟩, by simp [writeSection, hroot], hleaf, ?_⟩
    refine hwf.search_of_insert hleaf hmissing fun oh => ?_
    simp [heads, hroot, CritBit.Tree.stored, CritBit.Tree.leaves]
  | some tree =>
    have htree := hwf tree hroot
    have hne : (walkToLeaf tree newOh.digest).digest ≠ newOh.digest := by
      refine hwf.search_eq_none.mp hmissing _ ?_
      rw [heads, hroot]
      exact CritBit.Tree.walk_mem _ tree
    obtain ⟨crit, hcrit⟩ := Option.ne_none_iff_exists'.mp (findCriticalBit_ne_none (Ne.symm hne))
    obtain ⟨hdiff, hbefore⟩ := findCriticalBit_spec hcrit
    have hinsert : (⟨some (insertNode tree newOh crit newOh.digest)⟩ : CritbitHash).WF := by
      rintro _ ⟨⟩
      refine htree.insert ?_ fun q hq => (hbefore q hq).symm
      rw [hdiff, Bool.not_not]
      rfl
    refine ⟨_, by simp [writeSection, hroot, hne, hcrit], hinsert, ?_⟩
    refine hwf.search_of_insert hinsert hmissing fun oh => ?_
    rw [heads, heads, hroot]
    exact CritBit.Tree.mem_leaves_insert newOh crit newOh.digest tree

theorem WF.removeSection (hwf : s.table.WF) (digest : Digest) :
    ∃ t, CritbitHash.removeSection s digest = ⟨t, s.refcnt⟩ ∧ t.WF ∧
      t.search = update s.table.search digest none := by
  cases hroot : s.table.root with
  | none =>
    refine ⟨s.table, by simp [CritbitHash.removeSection, hroot], hwf, ?_⟩
    funext d
    by_cases hd : d = digest <;> simp [hd, search, hroot, update]
  | some tree =>
    obtain ⟨-, herase, hstored⟩ := (hwf tree hroot).erase digest
    have hremoved : (⟨(removeNode tree digest).1⟩ : CritbitHash).WF := herase
    refine ⟨_, by simp [CritbitHash.removeSection, hroot], hremoved, ?_⟩
    funext d
    refine Option.ext fun oh => ?_
    rw [hremoved.search_eq_some]
    have hheads : oh ∈ (⟨(removeNode tree digest).1⟩ : CritbitHash).heads ↔
        oh ∈ tree.leaves ∧ oh.digest ≠ digest := hstored oh
    rw [hheads]
    by_cases hd : d = digest
    · subst hd
      rw [update_self]
      refine iff_of_false ?_ (by simp)
      rintro ⟨⟨-, hne⟩, hdigest⟩
      exact hne hdigest
    rw [update_of_ne hd, hwf.search_eq_some, heads, hroot]
    constructor
    · rintro ⟨⟨hoh, -⟩, hdigest⟩
      exact ⟨hoh, hdigest⟩
    · rintro ⟨hoh, hdigest⟩
      exact ⟨⟨hoh, fun h => hd (hdigest.symm.trans h)⟩, hdigest⟩

theorem refines : Refines slinger WF search where
  digest hwf hsearch := (hwf.search_eq_some.mp hsearch).2
  lookup_hit newOh _ hsearch := by simp [slinger, lookup, readSection, hsearch]
  lookup_miss := by
    rintro s d newOh hwf hsearch rfl
    simp only [slinger, lookup, readSection, hsearch]
    exact hwf.writeSection_miss hsearch
  deref_kept hcount := by simp [slinger, deref, decRef, hcount]
  deref_last := by
    intro s oh hwf _ hcount
    obtain ⟨t, hremove, hwf', hsearch⟩ :=
      WF.removeSection (s := ⟨s.table, (decRef s.refcnt oh).2⟩) hwf oh.digest
    refine ⟨t, ?_, hwf', hsearch⟩
    have hlast : (decRef s.refcnt oh).1 = 0 := hcount
    simp [slinger, deref, hlast, hremove]

end CritbitHash

end VarahaCache
