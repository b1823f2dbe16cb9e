import VarahaCache.Lib.Hex
import VarahaCache.Text

/-!
# Authentication at the admin CLI

The server sends a challenge, and the client answers with the SHA-256 of the
secret between two copies of it. The hash is a parameter; what is proved of
the secret is proved of an injective one.
-/

namespace VarahaCache.Admin

open Text

/-- The differences of all bytes are collected, so that the time tells
nothing. -/
def constantTimeEq (a b : List UInt8) : Bool :=
  if a.length ≠ b.length then false
  else (a.zip b).foldl (fun diff byte => diff ||| (byte.1 ^^^ byte.2)) 0 == 0

theorem foldl_diff (pairs : List (UInt8 × UInt8)) (diff : UInt8) :
    pairs.foldl (fun diff byte => diff ||| (byte.1 ^^^ byte.2)) diff = 0 ↔
      diff = 0 ∧ ∀ byte ∈ pairs, byte.1 = byte.2 := by
  induction pairs generalizing diff with
  | nil => simp
  | cons byte pairs ih =>
    rw [List.foldl_cons, ih, UInt8.or_eq_zero_iff, UInt8.xor_eq_zero_iff, List.forall_mem_cons,
      and_assoc]

theorem constantTimeEq_iff (a b : List UInt8) : constantTimeEq a b = true ↔ a = b := by
  have hzip : a = b ↔ a.length = b.length ∧ ∀ byte ∈ a.zip b, byte.1 = byte.2 := by
    rw [← List.forall₂_eq_eq_eq, List.forall₂_iff_zip, Prod.forall]
  rw [constantTimeEq, hzip]
  split
  · rename_i hlength
    exact iff_of_false Bool.false_ne_true fun h => hlength h.1
  · rename_i hlength
    rw [beq_iff_eq, foldl_diff, and_iff_right rfl, and_iff_right (not_not.mp hlength)]

theorem not_isWhitespace_hexEncode {bytes : List UInt8} {c : Char}
    (h : c ∈ (Lib.hexEncode bytes).toList) : isWhitespace c = false := by
  obtain ⟨n, hn, rfl⟩ := Lib.mem_hexEncode h
  have hdigits : ∀ n < 16, isWhitespace (Nat.digitChar n) = false := by decide
  exact hdigits n hn

section Auth

variable (sha256 : List UInt8 → List UInt8)

def computeAuthResponse (challenge secret : List UInt8) : String :=
  Lib.hexEncode (sha256 (challenge ++ secret ++ challenge))

def verifyAuth (challenge secret : List UInt8) (response : String) : Bool :=
  constantTimeEq (asBytes (computeAuthResponse sha256 challenge secret)) (asBytes (trim response))

variable {sha256} {challenge secret : List UInt8}

theorem verifyAuth_iff {response : String} :
    verifyAuth sha256 challenge secret response = true ↔
      trim response = computeAuthResponse sha256 challenge secret := by
  rw [verifyAuth, constantTimeEq_iff, asBytes_injective.eq_iff, eq_comm]

theorem trim_computeAuthResponse :
    trim (computeAuthResponse sha256 challenge secret) =
      computeAuthResponse sha256 challenge secret :=
  trim_eq_self fun _ hc => not_isWhitespace_hexEncode hc

theorem verifyAuth_computeAuthResponse (hsha : Function.Injective sha256) (other : List UInt8) :
    verifyAuth sha256 challenge secret (computeAuthResponse sha256 challenge other) = true ↔
      other = secret := by
  rw [verifyAuth_iff, trim_computeAuthResponse, computeAuthResponse, computeAuthResponse,
    Lib.hexEncode_injective.eq_iff, hsha.eq_iff, List.append_left_inj, List.append_right_inj]

end Auth

end VarahaCache.Admin
