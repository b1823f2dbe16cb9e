import Mathlib

/-!
# Rings of keys

Points on a ring of 64-bit keys, kept as a list sorted by key. A binary search
finds the first point at or behind a key; from there on points come in the
order of their clockwise distance from the key (`pairwise_rotate_seek`), so
the first that passes a test is the nearest one that does.
-/

namespace VarahaCache.Lib

open List

/-! ## Binary search -/

/-- The loop of the search: `size` places from `base` on are left. -/
def searchFrom (cmp : ℕ → Ordering) (base size : ℕ) : ℕ :=
  if size ≤ 1 then base
  else searchFrom cmp (if cmp (base + size / 2) = .gt then base else base + size / 2)
    (size - size / 2)
termination_by size

/-- The place of an equal element, or else where one would be put. -/
def binarySearch (cmp : ℕ → Ordering) (len : ℕ) : Except ℕ ℕ :=
  if len = 0 then .error 0
  else
    let base := searchFrom cmp 0 len
    match cmp base with
    | .eq => .ok base
    | .lt => .error (base + 1)
    | .gt => .error base

/-- The elements are in order: smaller ones first, greater ones last. -/
def Rising (cmp : ℕ → Ordering) (len : ℕ) : Prop :=
  ∀ i j, i ≤ j → j < len → (cmp j = .lt → cmp i = .lt) ∧ (cmp i = .gt → cmp j = .gt)

variable {cmp : ℕ → Ordering}

theorem searchFrom_spec {len : ℕ} (hrising : Rising cmp len) {base size : ℕ}
    (hsize : 0 < size) (hend : base + size ≤ len) (hbase : base = 0 ∨ cmp base ≠ .gt)
    (habove : ∀ i, base + size ≤ i → i < len → cmp i = .gt) :
    searchFrom cmp base size < len ∧
      (searchFrom cmp base size = 0 ∨ cmp (searchFrom cmp base size) ≠ .gt) ∧
      ∀ i, searchFrom cmp base size < i → i < len → cmp i = .gt := by
  induction size using Nat.strong_induction_on generalizing base with
  | _ size ih =>
    rw [searchFrom]
    split
    · exact ⟨by omega, hbase, fun i hi hlen => habove i (by omega) hlen⟩
    split
    · rename_i hgt
      refine ih _ (by omega) (by omega) (by omega) hbase fun i hi hlen => ?_
      exact (hrising _ i (by omega) hlen).2 hgt
    rename_i hle
    exact ih _ (by omega) (by omega) (by omega) (.inr hle) fun i hi hlen =>
      habove i (by omega) hlen

theorem binarySearch_ok {len pos : ℕ} (hrising : Rising cmp len)
    (h : binarySearch cmp len = .ok pos) : pos < len ∧ cmp pos = .eq := by
  unfold binarySearch at h
  split at h
  · cases h
  obtain ⟨hlen, _, _⟩ := @searchFrom_spec cmp len hrising 0 len (by omega) (by omega) (.inl rfl)
    fun i hi hlen => absurd hlen (by omega)
  dsimp only at h
  split at h
  · rename_i heq
    cases h
    exact ⟨hlen, heq⟩
  · cases h
  · cases h

theorem binarySearch_error {len pos : ℕ} (hrising : Rising cmp len)
    (h : binarySearch cmp len = .error pos) :
    pos ≤ len ∧ (∀ i, i < pos → cmp i = .lt) ∧ ∀ i, pos ≤ i → i < len → cmp i = .gt := by
  unfold binarySearch at h
  split at h
  · cases h
    exact ⟨Nat.zero_le _, fun i hi => absurd hi (Nat.not_lt_zero _), fun i _ hlen => by omega⟩
  obtain ⟨hlen, hzero, habove⟩ := @searchFrom_spec cmp len hrising 0 len (by omega) (by omega)
    (.inl rfl) fun i hi hlen => absurd hlen (by omega)
  dsimp only at h
  split at h
  · cases h
  · rename_i hlt
    cases h
    refine ⟨hlen, fun i hi => (hrising i _ (by omega) hlen).1 hlt, fun i hi => ?_⟩
    exact habove i (by omega)
  · rename_i hgt
    cases h
    rcases hzero with hzero | hle
    · refine ⟨hlen.le, fun i hi => absurd hi (by omega), fun i hi hi' => ?_⟩
      exact (hrising _ i hi hi').2 hgt
    · exact absurd hgt hle

/-! ## Distance -/

/-- How far a point is from a key, clockwise. -/
def distance (h k : UInt64) : ℕ := (k - h).toNat

theorem distance_eq (h k : UInt64) :
    distance h k = if h.toNat ≤ k.toNat then k.toNat - h.toNat else 2 ^ 64 - h.toNat + k.toNat := by
  have hh := h.toNat_lt
  have hk := k.toNat_lt
  rw [distance, UInt64.toNat_sub]
  split
  all_goals omega

section

variable {α : Type*} (key : α → UInt64)

/-- How the element at a place compares with a key. -/
def compareAt (l : List α) (h : UInt64) (i : ℕ) : Ordering :=
  match l[i]? with
  | some a => compare (key a).toNat h.toNat
  | none => .gt

/-- The place of the first point at or behind a key, round the ring. -/
def seek (l : List α) (h : UInt64) : ℕ :=
  match binarySearch (compareAt key l h) l.length with
  | .ok pos => pos
  | .error pos => if l.length ≤ pos then 0 else pos

end

section

variable {α : Type*} {key : α → UInt64} {l : List α} {h : UInt64} {p : α → Bool} {a : α}

theorem compareAt_eq {i : ℕ} (hi : i < l.length) :
    compareAt key l h i = compare (key l[i]).toNat h.toNat := by
  rw [compareAt, getElem?_eq_getElem hi]

theorem rising_compareAt (hsorted : l.Pairwise fun a b => (key a).toNat ≤ (key b).toNat) :
    Rising (compareAt key l h) l.length := by
  intro i j hij hj
  have hle : (key l[i]).toNat ≤ (key l[j]).toNat := by
    rcases hij.eq_or_lt with rfl | hlt
    · exact le_rfl
    · exact pairwise_iff_getElem.mp hsorted i j _ hj hlt
  rw [compareAt_eq hj, compareAt_eq (hij.trans_lt hj), compare_lt_iff_lt, compare_lt_iff_lt,
    compare_gt_iff_gt, compare_gt_iff_gt]
  exact ⟨fun hlt => hle.trans_lt hlt, fun hgt => hgt.trans_le hle⟩

/-- The search cuts the list in front of the first point at or behind the key.
-/
theorem exists_rotate_seek (hsorted : l.Pairwise fun a b => (key a).toNat < (key b).toNat) :
    ∃ n, l.rotate (seek key l h) = l.drop n ++ l.take n ∧ (∀ a ∈ l.take n, (key a).toNat < h.toNat) ∧
      ∀ a ∈ l.drop n, h.toNat ≤ (key a).toNat := by
  have hrising : Rising (compareAt key l h) l.length :=
    rising_compareAt (hsorted.imp fun hlt => hlt.le)
  unfold seek
  cases hsearch : binarySearch (compareAt key l h) l.length with
  | ok pos =>
    obtain ⟨hlen, heq⟩ := binarySearch_ok hrising hsearch
    rw [compareAt_eq hlen, compare_eq_iff_eq] at heq
    refine ⟨pos, rotate_eq_drop_append_take hlen.le, fun a ha => ?_, fun a ha => ?_⟩
    · obtain ⟨i, hi, rfl⟩ := mem_take_iff_getElem.mp ha
      rw [← heq]
      exact pairwise_iff_getElem.mp hsorted i pos _ hlen (by omega)
    obtain ⟨i, hi, rfl⟩ := mem_drop_iff_getElem.mp ha
    rw [← heq]
    rcases Nat.eq_zero_or_pos i with rfl | hpos
    · exact le_rfl
    · exact (pairwise_iff_getElem.mp hsorted pos (pos + i) hlen (by omega) (by omega)).le
  | error pos =>
    obtain ⟨hlen, hbelow, habove⟩ := binarySearch_error hrising hsearch
    refine ⟨pos, ?_, fun a ha => ?_, fun a ha => ?_⟩
    · dsimp only
      split
      · rename_i hge
        rw [drop_eq_nil_of_le hge, take_of_length_le hge]
        simp
      · exact rotate_eq_drop_append_take hlen
    · obtain ⟨i, hi, rfl⟩ := mem_take_iff_getElem.mp ha
      have hlt := hbelow i (by omega)
      rwa [compareAt_eq (by omega), compare_lt_iff_lt] at hlt
    · obtain ⟨i, hi, rfl⟩ := mem_drop_iff_getElem.mp ha
      have hgt := habove (pos + i) (by omega) (by omega)
      rw [compareAt_eq (by omega), compare_gt_iff_gt] at hgt
      exact hgt.le

/-- Round the ring, points come in the order of their distance. -/
theorem pairwise_rotate_seek (hsorted : l.Pairwise fun a b => (key a).toNat < (key b).toNat) :
    (l.rotate (seek key l h)).Pairwise fun a b => distance h (key a) < distance h (key b) := by
  obtain ⟨n, hrotate, hbelow, habove⟩ := exists_rotate_seek (h := h) hsorted
  have hsame : ∀ a b : α, (key a).toNat < (key b).toNat →
      (h.toNat ≤ (key a).toNat ↔ h.toNat ≤ (key b).toNat) →
      distance h (key a) < distance h (key b) := by
    intro a b hlt hside
    have ha := (key a).toNat_lt
    have hb := (key b).toNat_lt
    rw [distance_eq, distance_eq]
    split
    all_goals split
    all_goals omega
  rw [hrotate, pairwise_append]
  refine ⟨?_, ?_, fun a ha b hb => ?_⟩
  · refine (hsorted.sublist (drop_sublist n l)).imp_of_mem fun ha hb hlt => ?_
    exact hsame _ _ hlt (iff_of_true (habove _ ha) (habove _ hb))
  · refine (hsorted.sublist (take_sublist n l)).imp_of_mem fun ha hb hlt => ?_
    exact hsame _ _ hlt (iff_of_false (hbelow _ ha).not_ge (hbelow _ hb).not_ge)
  · have hle := habove a ha
    have hlt := hbelow b hb
    have hlast := (key a).toNat_lt
    rw [distance_eq, distance_eq, if_pos hle, if_neg (by omega)]
    omega

theorem filterMap_range_getElem? (m : List α) :
    (range m.length).filterMap (fun i => m[i]?) = m := by
  induction m with
  | nil => rfl
  | cons a m ih =>
    rw [length_cons, range_succ_eq_map, filterMap_cons_some getElem?_cons_zero, filterMap_map]
    exact congrArg (a :: ·) ih

theorem filterMap_range_rotate (l : List α) (n : ℕ) :
    (range l.length).filterMap (fun i => l[(n + i) % l.length]?) = l.rotate n := by
  have hplace : ∀ i ∈ range l.length, l[(n + i) % l.length]? = (l.rotate n)[i]? := by
    intro i hi
    rw [getElem?_rotate (mem_range.mp hi), Nat.add_comm]
  rw [filterMap_congr hplace]
  have hall := filterMap_range_getElem? (l.rotate n)
  rwa [length_rotate] at hall

theorem find?_eq_some_iff_of_pairwise {m : List α} {d : α → ℕ}
    (hsorted : m.Pairwise fun a b => d a < d b) :
    m.find? p = some a ↔ a ∈ m ∧ p a = true ∧ ∀ b ∈ m, p b = true → d a ≤ d b := by
  induction m with
  | nil => simp
  | cons x m ih =>
    obtain ⟨hx, hm⟩ := pairwise_cons.mp hsorted
    by_cases hp : p x = true
    · rw [find?_cons_of_pos hp, Option.some.injEq]
      constructor
      · rintro rfl
        refine ⟨mem_cons_self, hp, fun b hb _ => ?_⟩
        rcases mem_cons.mp hb with rfl | hb
        · exact le_rfl
        · exact (hx b hb).le
      · rintro ⟨ha, _, hmin⟩
        rcases mem_cons.mp ha with rfl | ha
        · rfl
        · exact absurd (hmin x mem_cons_self hp) (hx a ha).not_ge
    have hne : ∀ b, p b = true → b ∈ x :: m → b ∈ m := by
      intro b hb hmem
      rcases mem_cons.mp hmem with rfl | hmem
      · exact absurd hb hp
      · exact hmem
    rw [find?_cons_of_neg hp, ih hm]
    constructor
    · rintro ⟨ha, hpa, hmin⟩
      exact ⟨mem_cons_of_mem x ha, hpa, fun b hb hpb => hmin b (hne b hpb hb) hpb⟩
    · rintro ⟨ha, hpa, hmin⟩
      exact ⟨hne a hpa ha, hpa, fun b hb => hmin b (mem_cons_of_mem x hb)⟩

/-- The first point that passes, from a key on, is the nearest that
does. -/
theorem find?_rotate_seek_eq_some_iff
    (hsorted : l.Pairwise fun a b => (key a).toNat < (key b).toNat) :
    (l.rotate (seek key l h)).find? p = some a ↔
      a ∈ l ∧ p a = true ∧ ∀ b ∈ l, p b = true → distance h (key a) ≤ distance h (key b) := by
  simp only [find?_eq_some_iff_of_pairwise (pairwise_rotate_seek hsorted), mem_rotate]

end

end VarahaCache.Lib
