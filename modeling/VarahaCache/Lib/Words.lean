import Mathlib

/-!
# Unsigned arithmetic that may fail

A subtraction of unsigned words below zero stops the program in a checked
build and wraps in another. A `Checked` computation is `.ok` exactly when none
of its subtractions went below zero.
-/

namespace VarahaCache.Words

/-- Why a checked computation stops. -/
inductive Overflow
  | underflow
deriving DecidableEq, Repr

abbrev Checked (α : Type) : Type := Except Overflow α

def checkedSub (a b : ℕ) : Checked ℕ := if b ≤ a then .ok (a - b) else .error .underflow

@[simp] theorem checkedSub_of_le {a b : ℕ} (h : b ≤ a) : checkedSub a b = .ok (a - b) := if_pos h

def wrappingAdd (w a b : ℕ) : ℕ := (a + b) % 2 ^ w

def wrappingSub (w a b : ℕ) : ℕ := (a + (2 ^ w - b % 2 ^ w)) % 2 ^ w

variable {w a b : ℕ}

theorem wrappingAdd_of_lt (h : a + b < 2 ^ w) : wrappingAdd w a b = a + b := Nat.mod_eq_of_lt h

theorem wrappingSub_of_le (h : b ≤ a) (ha : a < 2 ^ w) : wrappingSub w a b = a - b := by
  have hb : b % 2 ^ w = b := Nat.mod_eq_of_lt (h.trans_lt ha)
  have hsum : a + (2 ^ w - b) = a - b + 2 ^ w := by omega
  rw [wrappingSub, hb, hsum, Nat.add_mod_right, Nat.mod_eq_of_lt (by omega)]

theorem wrappingAdd_lt (w a b : ℕ) : wrappingAdd w a b < 2 ^ w := Nat.mod_lt _ (Nat.two_pow_pos w)

theorem wrappingSub_lt (w a b : ℕ) : wrappingSub w a b < 2 ^ w := Nat.mod_lt _ (Nat.two_pow_pos w)

theorem wrappingAdd_modEq (w a b : ℕ) : wrappingAdd w a b ≡ a + b [MOD 2 ^ w] := Nat.mod_modEq ..

theorem wrappingSub_modEq (w a b : ℕ) : wrappingSub w a b + b ≡ a [MOD 2 ^ w] := by
  have hle : b % 2 ^ w ≤ 2 ^ w := (Nat.mod_lt _ (Nat.two_pow_pos w)).le
  calc wrappingSub w a b + b ≡ a + (2 ^ w - b % 2 ^ w) + b % 2 ^ w [MOD 2 ^ w] :=
        (Nat.mod_modEq _ _).add (Nat.mod_modEq b _).symm
    _ = a + 2 ^ w := by rw [Nat.add_assoc, Nat.sub_add_cancel hle]
    _ ≡ a [MOD 2 ^ w] := Nat.add_modEq_right

theorem foldl_wrappingAdd {l : List ℕ} (h : a + l.sum < 2 ^ w) :
    l.foldl (wrappingAdd w) a = a + l.sum := by
  induction l generalizing a with
  | nil => rfl
  | cons b l ih =>
    rw [List.sum_cons] at h
    rw [List.foldl_cons, wrappingAdd_of_lt (by omega), ih (by omega), List.sum_cons, Nat.add_assoc]

end VarahaCache.Words
