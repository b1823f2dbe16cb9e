import VarahaCache.Http.Vary
import VarahaCache.Storage.ObjCore

/-!
# Object evaluation and the variant scan

`evaluate_object` and the loop of `CacheEngine::lookup` over the variants
of one digest. The scan answers with the first fresh variant that suits
the request and, failing that, with the first one in grace; `scanVariants_eq`
says so once, for every list of variants.
-/

namespace VarahaCache

inductive CacheLookupResult
  | hit (oc : ObjCore)
  | miss
  | grace (oc : ObjCore)
  | hitForPass
  | busy
deriving DecidableEq

/-- What one object is worth at `now`. -/
def evaluateObject (oc : ObjCore) (now : VtimReal) : CacheLookupResult :=
  if oc.flags.contains .busy then .busy
  else if oc.flags.contains .hfp then .hitForPass
  else if oc.flags.contains .dying || oc.flags.contains .withdrawn then .miss
  else if !oc.isExpired now then .hit oc
  else if 0 < oc.remainingGrace now then .grace oc
  else .miss

variable {oc o : ObjCore}

theorem evaluateObject_hit {now : VtimReal}
    (h : evaluateObject oc now = .hit o) : o = oc ∧ now ≤ oc.tOrigin + oc.ttl := by
  unfold evaluateObject at h
  repeat' split at h
  all_goals first
    | contradiction
    | (rename_i hfresh; cases h; exact ⟨rfl, by simpa [ObjCore.isExpired] using hfresh⟩)

theorem evaluateObject_grace {now : VtimReal} (h : evaluateObject oc now = .grace o) :
    o = oc ∧ oc.tOrigin + oc.ttl < now ∧ now < oc.tOrigin + oc.ttl + oc.grace := by
  unfold evaluateObject at h
  repeat' split at h
  all_goals first
    | contradiction
    | skip
  rename_i hexp hgrace
  cases h
  refine ⟨rfl, by simpa [ObjCore.isExpired] using hexp, ?_⟩
  by_contra hnot
  have hle : ¬ 0 < oc.tOrigin + oc.ttl + oc.grace - now := by linarith
  simp [ObjCore.remainingGrace, hle] at hgrace

theorem evaluateObject_of_no_flags (hf : oc.flags = .empty) (now : VtimReal) :
    evaluateObject oc now =
      if now ≤ oc.tOrigin + oc.ttl then .hit oc
      else if now < oc.tOrigin + oc.ttl + oc.grace then .grace oc
      else .miss := by
  have hb : (ObjCoreFlags.empty).contains .busy = false := by decide
  have hp : (ObjCoreFlags.empty).contains .hfp = false := by decide
  have hd : (ObjCoreFlags.empty).contains .dying = false := by decide
  have hw : (ObjCoreFlags.empty).contains .withdrawn = false := by decide
  simp only [evaluateObject, hf, hb, hp, hd, hw, ObjCore.isExpired, ObjCore.remainingGrace]
  by_cases hfresh : now ≤ oc.tOrigin + oc.ttl
  · simp [hfresh]
  by_cases hgrace : now < oc.tOrigin + oc.ttl + oc.grace
  · simp [hfresh, hgrace]
  · simp [hfresh, hgrace]

/-- Headers are given, the variant carries vary data and the two do not match.
-/
def varySkips (requestHeaders : Option HeaderMap) (oc : ObjCore) : Bool :=
  match requestHeaders, oc.varyData with
  | some headers, some data => !VaryMatcher.«matches» data headers
  | _, _ => false

/-- The stored Vary data matches the headers, when both are there. -/
def VaryAccepts (requestHeaders : Option HeaderMap) (oc : ObjCore) : Prop :=
  ∀ headers data, requestHeaders = some headers → oc.varyData = some data →
    VaryMatcher.«matches» data headers = true

theorem varySkips_eq_false_iff {requestHeaders : Option HeaderMap} :
    varySkips requestHeaders oc = false ↔ VaryAccepts requestHeaders oc := by
  unfold varySkips VaryAccepts
  cases requestHeaders with
  | none => simp
  | some headers => cases oc.varyData <;> simp

/-- The loop over the variants, carrying the first grace candidate. -/
def scanVariants (now : VtimReal) (requestHeaders : Option HeaderMap) :
    List ObjCore → Option ObjCore → CacheLookupResult
  | [], some oc => .grace oc
  | [], none => .miss
  | oc :: rest, graceCandidate =>
    if varySkips requestHeaders oc then scanVariants now requestHeaders rest graceCandidate
    else
      match evaluateObject oc now with
      | .hit o => .hit o
      | .grace _ => scanVariants now requestHeaders rest (graceCandidate.or (some oc))
      | _ => scanVariants now requestHeaders rest graceCandidate

/-- A variant the request may be answered with while fresh. -/
def Fresh (now : VtimReal) (requestHeaders : Option HeaderMap) (oc : ObjCore) : Prop :=
  varySkips requestHeaders oc = false ∧ evaluateObject oc now = .hit oc

/-- A variant the request may be answered with in grace. -/
def Stale (now : VtimReal) (requestHeaders : Option HeaderMap) (oc : ObjCore) : Prop :=
  varySkips requestHeaders oc = false ∧ evaluateObject oc now = .grace oc

instance (now : VtimReal) (h : Option HeaderMap) (oc : ObjCore) : Decidable (Fresh now h oc) :=
  inferInstanceAs (Decidable (_ ∧ _))

instance (now : VtimReal) (h : Option HeaderMap) (oc : ObjCore) : Decidable (Stale now h oc) :=
  inferInstanceAs (Decidable (_ ∧ _))

variable {now : VtimReal} {headers : Option HeaderMap}

/-- The scan, in closed form: the first fresh variant, else the grace
candidate held, else the first variant in grace. -/
theorem scanVariants_eq (variants : List ObjCore) (g : Option ObjCore) :
    scanVariants now headers variants g =
      match variants.find? (Fresh now headers ·) with
      | some oc => .hit oc
      | none =>
        match g.or (variants.find? (Stale now headers ·)) with
        | some oc => .grace oc
        | none => .miss := by
  induction variants generalizing g with
  | nil => cases g <;> rfl
  | cons oc rest ih =>
    rw [scanVariants]
    by_cases hskip : varySkips headers oc = true
    · have hf : ¬ Fresh now headers oc := by simp [Fresh, hskip]
      have hs : ¬ Stale now headers oc := by simp [Stale, hskip]
      simp [hskip, ih, hf, hs]
    have hskip' : varySkips headers oc = false := by simpa using hskip
    rw [if_neg hskip]
    cases he : evaluateObject oc now with
    | hit o =>
      obtain ⟨rfl, _⟩ := evaluateObject_hit he
      have hf : Fresh now headers o := ⟨hskip', he⟩
      simp [hf]
    | grace o =>
      obtain ⟨rfl, _⟩ := evaluateObject_grace he
      have hf : ¬ Fresh now headers o := by simp [Fresh, he]
      have hs : Stale now headers o := ⟨hskip', he⟩
      cases g <;> simp [ih, hf, hs]
    | miss | hitForPass | busy =>
      have hf : ¬ Fresh now headers oc := by simp [Fresh, he]
      have hs : ¬ Stale now headers oc := by simp [Stale, he]
      simp [ih, hf, hs]

variable {variants : List ObjCore}

theorem scanVariants_spec (now : VtimReal) (headers : Option HeaderMap) (variants : List ObjCore) :
    (∃ o ∈ variants, Fresh now headers o ∧ scanVariants now headers variants none = .hit o) ∨
      (∀ v ∈ variants, ¬ Fresh now headers v) ∧
        ((∃ o ∈ variants, Stale now headers o ∧ scanVariants now headers variants none = .grace o) ∨
          (∀ v ∈ variants, ¬ Stale now headers v) ∧
            scanVariants now headers variants none = .miss) := by
  rw [scanVariants_eq]
  cases hf : variants.find? (Fresh now headers ·) with
  | some o => exact .inl ⟨o, List.mem_of_find?_eq_some hf, by simpa using List.find?_some hf, rfl⟩
  | none =>
    refine .inr ⟨by simpa using hf, ?_⟩
    cases hs : variants.find? (Stale now headers ·) with
    | some o => exact .inl ⟨o, List.mem_of_find?_eq_some hs, by simpa using List.find?_some hs, rfl⟩
    | none => exact .inr ⟨by simpa using hs, rfl⟩

theorem scanVariants_hit (h : scanVariants now headers variants none = .hit o) :
    o ∈ variants ∧ Fresh now headers o := by
  rcases scanVariants_spec now headers variants with
    ⟨o', hmem, hfresh, heq⟩ | ⟨-, ⟨_, _, _, heq⟩ | ⟨-, heq⟩⟩
  all_goals cases heq.symm.trans h
  exact ⟨hmem, hfresh⟩

theorem scanVariants_grace (h : scanVariants now headers variants none = .grace o) :
    o ∈ variants ∧ Stale now headers o ∧ ∀ v ∈ variants, ¬ Fresh now headers v := by
  rcases scanVariants_spec now headers variants with
    ⟨_, _, _, heq⟩ | ⟨hnone, ⟨o', hmem, hstale, heq⟩ | ⟨-, heq⟩⟩
  all_goals cases heq.symm.trans h
  exact ⟨hmem, hstale, hnone⟩

theorem scanVariants_ne_of_notMem (h : o ∉ variants) :
    scanVariants now headers variants none ≠ .hit o ∧
      scanVariants now headers variants none ≠ .grace o :=
  ⟨fun hhit => h (scanVariants_hit hhit).1, fun hgrace => h (scanVariants_grace hgrace).1⟩

theorem scanVariants_miss_iff :
    scanVariants now headers variants none = .miss ↔
      ∀ v ∈ variants, ¬ Fresh now headers v ∧ ¬ Stale now headers v := by
  rcases scanVariants_spec now headers variants with
    ⟨o, hmem, hfresh, heq⟩ | ⟨hnone, ⟨o, hmem, hstale, heq⟩ | ⟨hnone', heq⟩⟩
  · rw [heq]
    exact iff_of_false (by simp) fun h => (h o hmem).1 hfresh
  · rw [heq]
    exact iff_of_false (by simp) fun h => (h o hmem).2 hstale
  · exact iff_of_true heq fun v hv => ⟨hnone v hv, hnone' v hv⟩

theorem scanVariants_hit_iff_fresh :
    (∃ o, scanVariants now headers variants none = .hit o) ↔
      ∃ v ∈ variants, Fresh now headers v := by
  constructor
  · rintro ⟨o, h⟩
    exact ⟨o, scanVariants_hit h⟩
  rintro ⟨v, hv, hfresh⟩
  rcases scanVariants_spec now headers variants with ⟨o, -, -, heq⟩ | ⟨hnone, -⟩
  · exact ⟨o, heq⟩
  · exact absurd hfresh (hnone v hv)

theorem scanVariants_cases (now : VtimReal) (headers : Option HeaderMap) (variants : List ObjCore) :
    (∃ o, scanVariants now headers variants none = .hit o) ∨
      (∃ o, scanVariants now headers variants none = .grace o) ∨
      scanVariants now headers variants none = .miss := by
  rcases scanVariants_spec now headers variants with ⟨o, -, -, heq⟩ | ⟨-, ⟨o, -, -, heq⟩ | ⟨-, heq⟩⟩
  · exact .inl ⟨o, heq⟩
  · exact .inr (.inl ⟨o, heq⟩)
  · exact .inr (.inr heq)

end VarahaCache
