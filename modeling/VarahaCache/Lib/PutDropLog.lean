import Mathlib

/-!
# Logs of puts and drops

A keyed store that forgets whole keys at a time, as a log: each entry first
drops some keys and then may put one binding. A binding is LIVE when its key
was not dropped by any later entry. `live_concat` is the recursion every store
is compared with.
-/

namespace VarahaCache.Lib

variable {K V : Type*}

/-- One entry of the log: the keys it drops, then the binding it puts. -/
structure LogEntry (K V : Type*) where
  drops : K → Prop
  puts : Option (K × V)

/-- `(k, v)` was put by some entry and no later entry drops `k`. -/
def Live (log : List (LogEntry K V)) (k : K) (v : V) : Prop :=
  ∃ before e after, log = before ++ e :: after ∧ e.puts = some (k, v) ∧ ∀ e' ∈ after, ¬ e'.drops k

theorem not_live_nil (k : K) (v : V) : ¬ Live [] k v := by
  intro hlive
  obtain ⟨before, e, after, h, _⟩ := hlive
  simp at h

theorem live_concat (log : List (LogEntry K V)) (e : LogEntry K V) (k : K) (v : V) :
    Live (log ++ [e]) k v ↔ e.puts = some (k, v) ∨ (Live log k v ∧ ¬ e.drops k) := by
  constructor
  · intro hlive
    obtain ⟨before, e', after, h, hput, hkeep⟩ := hlive
    -- the putting entry is the new one or an old one: split on the tail
    rcases List.eq_nil_or_concat after with rfl | ⟨front, last, rfl⟩
    · obtain ⟨rfl, he⟩ := List.append_inj' h rfl
      cases he
      exact .inl hput
    have h' : log ++ [e] = (before ++ e' :: front) ++ [last] := by simpa using h
    obtain ⟨rfl, he⟩ := List.append_inj' h' rfl
    cases he
    exact .inr ⟨⟨before, e', front, rfl, hput, fun x hx => hkeep x (by simp [hx])⟩,
      hkeep e (by simp)⟩
  · intro h
    rcases h with hput | ⟨⟨before, e', after, rfl, hput, hkeep⟩, hdrop⟩
    · exact ⟨log, e, [], rfl, hput, by simp⟩
    refine ⟨before, e', after ++ [e], by simp, hput, ?_⟩
    intro x hx
    rcases List.mem_append.mp hx with hx | hx
    · exact hkeep x hx
    · obtain rfl := List.mem_singleton.mp hx
      exact hdrop

end VarahaCache.Lib
