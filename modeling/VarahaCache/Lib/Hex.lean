import Mathlib

/-!
# Hexadecimal text

Bytes as pairs of lower-case digits.
-/

namespace VarahaCache.Lib

def hexByte (b : UInt8) : List Char := [(b.toNat / 16).digitChar, (b.toNat % 16).digitChar]

def hexEncode (bytes : List UInt8) : String := String.ofList (bytes.flatMap hexByte)

theorem digitChar_inj : ∀ m < 16, ∀ n < 16, Nat.digitChar m = Nat.digitChar n → m = n := by decide

theorem hexByte_inj {a b : UInt8} (h : hexByte a = hexByte b) : a = b := by
  have ha := a.toNat_lt
  have hb := b.toNat_lt
  rw [hexByte, hexByte, List.cons.injEq, List.cons.injEq] at h
  have hhigh := digitChar_inj _ (by omega) _ (by omega) h.1
  have hlow := digitChar_inj _ (by omega) _ (by omega) h.2.1
  rw [← UInt8.toNat_inj]
  omega

theorem hexEncode_injective : Function.Injective hexEncode := by
  intro a b h
  have hlist : a.flatMap hexByte = b.flatMap hexByte := String.ofList_injective h
  clear h
  induction a generalizing b with
  | nil =>
    cases b with
    | nil => rfl
    | cons y ys => simp [hexByte] at hlist
  | cons x xs ih =>
    cases b with
    | nil => simp [hexByte] at hlist
    | cons y ys =>
      rw [List.flatMap_cons, List.flatMap_cons] at hlist
      obtain ⟨hbyte, hrest⟩ := List.append_inj hlist rfl
      rw [hexByte_inj hbyte, ih hrest]

theorem mem_hexEncode {bytes : List UInt8} {c : Char} (h : c ∈ (hexEncode bytes).toList) :
    ∃ n < 16, c = Nat.digitChar n := by
  rw [hexEncode, String.toList_ofList, List.mem_flatMap] at h
  obtain ⟨b, _, hc⟩ := h
  have hb := b.toNat_lt
  rcases List.mem_pair.mp hc with rfl | rfl
  · exact ⟨b.toNat / 16, by omega, rfl⟩
  · exact ⟨b.toNat % 16, by omega, rfl⟩

end VarahaCache.Lib
