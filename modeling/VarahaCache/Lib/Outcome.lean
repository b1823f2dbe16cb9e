import Mathlib

/-!
# Computations that may fail

What the steps of a computation gave when it went well as a whole.
-/

namespace VarahaCache.Lib

variable {ε ε' α β : Type*} {x : Except ε α}

theorem exists_of_map_ok {f : α → β} {b : β} (h : x.map f = .ok b) : ∃ a, x = .ok a ∧ f a = b := by
  cases x with
  | error e => cases h
  | ok a => exact ⟨a, rfl, Except.ok.inj h⟩

theorem ok_of_mapError_ok {f : ε → ε'} {a : α} (h : x.mapError f = .ok a) : x = .ok a := by
  cases x with
  | error e => cases h
  | ok b => rw [Except.ok.inj h]

end VarahaCache.Lib
