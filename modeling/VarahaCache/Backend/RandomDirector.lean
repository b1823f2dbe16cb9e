import VarahaCache.Lib.Machine
import VarahaCache.Lib.Words

/-!
# The random director

`RandomDirector` of `rv-backend`. A counter that all calls share goes round the
backends a call finds healthy. A call has one `fetch_add` on it, so calls that
overlap are answered one after the other.
-/

namespace VarahaCache.Backend.RandomDirector

open Lib Words List

variable {B : Type*}

/-- `resolve`, with the counter after it, a `usize`. -/
def resolve (backends : List B) (counter : ℕ) (isHealthy : B → Bool) : Option B × ℕ :=
  let healthy := backends.filter isHealthy
  if healthy.isEmpty then (none, counter)
  else (healthy[counter % healthy.length]?, wrappingAdd 64 counter 1)

/-- Going round `k` places from `c` on, each is come to as often as any other,
or once more. -/
theorem count_place {k j : ℕ} (hj : j < k) (c m : ℕ) :
    m.count (fun i => (c + i) % k = j) = m / k ∨
      m.count (fun i => (c + i) % k = j) = m / k + 1 := by
  -- counted from `c` on, the turns of a place are a residue class
  have hplace : ∀ i, (c + i) % k = j ↔ i ≡ j + (k - 1) * c [MOD k] := by
    intro i
    have hsum : c + (j + (k - 1) * c) = j + k * c := by
      obtain ⟨n, rfl⟩ := Nat.exists_eq_succ_of_ne_zero (Nat.ne_zero_of_lt hj)
      rw [Nat.succ_sub_one, Nat.succ_mul]
      omega
    rw [← Nat.ModEq.add_iff_left (Nat.ModEq.refl c), hsum, Nat.ModEq, Nat.add_mul_mod_self_left,
      Nat.mod_eq_of_lt hj]
  simp only [hplace]
  rw [Nat.count_modEq_card _ (Nat.zero_lt_of_lt hj)]
  split
  · exact Or.inr rfl
  · exact Or.inl rfl

variable [DecidableEq B] {backends : List B} {isHealthy : B → Bool} {counter m : ℕ}

theorem count_record_resolve {healthy : List B} (hhealthy : backends.filter isHealthy = healthy)
    (hnodup : healthy.Nodup) {j : ℕ} (hj : j < healthy.length) (hwrap : counter + m < 2 ^ 64) :
    let run := record (resolve backends) counter (replicate m isHealthy)
    run.2 = counter + m ∧ (run.1.map Prod.snd).count (some healthy[j]) =
      m.count fun i => (counter + i) % healthy.length = j := by
  have hlt (p : ℕ) : p % healthy.length < healthy.length := Nat.mod_lt p (Nat.zero_lt_of_lt hj)
  induction m with
  | zero => exact ⟨rfl, rfl⟩
  | succ m ih =>
    obtain ⟨hcounter, hcount⟩ := ih (by omega)
    have hstep : resolve backends (counter + m) isHealthy =
        (healthy[(counter + m) % healthy.length]?, counter + m + 1) := by
      rw [resolve, hhealthy, if_neg (by simpa using ne_nil_of_length_pos (Nat.zero_lt_of_lt hj)),
        wrappingAdd_of_lt (by omega)]
    rw [replicate_succ', record_concat, hcounter, hstep]
    refine ⟨rfl, ?_⟩
    rw [map_append, count_append, hcount, Nat.count_succ]
    simp [count_singleton, hlt, hnodup.getElem_inj_iff]

end VarahaCache.Backend.RandomDirector
