import Mathlib.Data.List.Basic

/-!
# The gzip fetch filter

`GzipDecompressVfp` is to hand out the decompressed data of its input piece by
piece. `flate2` is taken as correct: what one of its decoders has left to give
gets shorter with every read until it is used up.
-/

namespace VarahaCache.Filter

open List

inductive VfpStatus where
  | error
  | ok
  | end_
  | null
deriving DecidableEq

/-- `flate2::read::GzDecoder` over a byte slice. -/
structure GzDecoder where
  State : Type
  new : List UInt8 → State
  /-- The bytes put into a buffer of the given size; `none` is an error. -/
  read : State → ℕ → Option (List UInt8) × State
  /-- The decompressed content of valid gzip data. -/
  content : List UInt8 → Option (List UInt8)
  content_nil : content [] = none
  /-- The decoder still has these bytes to give. -/
  Left : State → List UInt8 → Prop
  left_new : ∀ {data p}, content data = some p → Left (new data) p
  left_read : ∀ {s p size}, Left s p → 0 < size → ∃ chunk rest, p = chunk ++ rest ∧
    chunk.length ≤ size ∧ (chunk = [] → p = []) ∧ (read s size).1 = some chunk ∧
      Left (read s size).2 rest

structure GzipDecompressVfp where
  buffer : List UInt8
  upstreamData : Option (List UInt8)
deriving DecidableEq

namespace GzipDecompressVfp

def new : GzipDecompressVfp := ⟨[], none⟩

def setInput (f : GzipDecompressVfp) (data : List UInt8) : GzipDecompressVfp :=
  { f with upstreamData := some data }

/-- The input that was set becomes the buffer. -/
def load (f : GzipDecompressVfp) : GzipDecompressVfp :=
  match f.upstreamData with
  | some data => ⟨data, none⟩
  | none => f

/-- The status and the bytes written, and the filter afterwards. -/
def pull (decoder : GzDecoder) (f : GzipDecompressVfp) (size : ℕ) :
    (VfpStatus × List UInt8) × GzipDecompressVfp :=
  if f.load.buffer = [] then ((.end_, []), f.load)
  else
    match (decoder.read (decoder.new f.load.buffer) size).1 with
    | some [] => ((.end_, []), f.load)
    | some chunk => ((.ok, chunk), f.load)
    | none => ((.error, []), f.load)

/-- The filter after so many pulls into buffers of the given sizes. -/
def run (decoder : GzDecoder) (f : GzipDecompressVfp) (sizes : ℕ → ℕ) : ℕ → GzipDecompressVfp
  | 0 => f
  | n + 1 => (pull decoder (run decoder f sizes n) (sizes n)).2

def output (decoder : GzDecoder) (f : GzipDecompressVfp) (sizes : ℕ → ℕ) (n : ℕ) :
    VfpStatus × List UInt8 :=
  (pull decoder (run decoder f sizes n) (sizes n)).1

/-- The content is delivered once: the pulls up to the first end give it, and there
are at most one more of them than the content has bytes. -/
def DeliversOnce (decoder : GzDecoder) (f : GzipDecompressVfp) (p : List UInt8) : Prop :=
  ∀ sizes : ℕ → ℕ, (∀ i, 0 < sizes i) → ∃ n ≤ p.length,
    (∀ i < n, (output decoder f sizes i).1 = .ok) ∧ (output decoder f sizes n).1 = .end_ ∧
      ((range (n + 1)).flatMap fun i => (output decoder f sizes i).2) = p

variable {decoder : GzDecoder} {f : GzipDecompressVfp} {data p : List UInt8}

theorem load_load (f : GzipDecompressVfp) : f.load.load = f.load := by
  obtain ⟨buffer, _ | data⟩ := f <;> rfl

theorem load_pull (decoder : GzDecoder) (f : GzipDecompressVfp) (size : ℕ) :
    (pull decoder f size).2 = f.load := by
  unfold pull
  split
  · rfl
  · split <;> rfl

theorem load_run (decoder : GzDecoder) (f : GzipDecompressVfp) (sizes : ℕ → ℕ) (n : ℕ) :
    (run decoder f sizes n).load = f.load := by
  induction n with
  | zero => rfl
  | succ n ih => rw [run, load_pull, load_load, ih]

/-- Every pull starts over: it gives the beginning of the content. -/
theorem output_setInput (f : GzipDecompressVfp) (hdata : decoder.content data = some p)
    (sizes : ℕ → ℕ) (n : ℕ) (hsize : 0 < sizes n) : ∃ chunk rest, p = chunk ++ rest ∧ (chunk = [] → p = []) ∧
      output decoder (f.setInput data) sizes n = (if chunk = [] then .end_ else .ok, chunk) := by
  obtain ⟨chunk, rest, hp, -, hempty, hread, -⟩ := decoder.left_read (decoder.left_new hdata) hsize
  have hne : data ≠ [] := by
    rintro rfl
    rw [decoder.content_nil] at hdata
    cases hdata
  have hload : (run decoder (f.setInput data) sizes n).load = ⟨data, none⟩ :=
    load_run decoder (f.setInput data) sizes n
  refine ⟨chunk, rest, hp, hempty, ?_⟩
  rw [output, pull, hload, if_neg hne, hread]
  cases chunk <;> rfl

theorem not_deliversOnce (hdata : decoder.content data = some p) (hp : p ≠ []) :
    ¬ DeliversOnce decoder (f.setInput data) p := by
  intro h
  obtain ⟨n, -, -, hend, -⟩ := h (fun _ => 1) fun _ => Nat.one_pos
  obtain ⟨chunk, rest, -, hempty, hout⟩ := output_setInput f hdata (fun _ => 1) n Nat.one_pos
  rw [hout, if_neg fun hchunk => hp (hempty hchunk)] at hend
  cases hend

theorem deliversOnce_iff (hdata : decoder.content data = some p) :
    DeliversOnce decoder (f.setInput data) p ↔ p = [] := by
  refine ⟨fun h => by_contra fun hp => not_deliversOnce hdata hp h, ?_⟩
  rintro rfl sizes hsizes
  obtain ⟨chunk, rest, hp, -, hout⟩ := output_setInput f hdata sizes 0 (hsizes 0)
  obtain ⟨rfl, -⟩ := nil_eq_append_iff.mp hp
  rw [if_pos rfl] at hout
  exact ⟨0, Nat.le_refl 0, fun i hi => absurd hi (Nat.not_lt_zero i), by rw [hout], by simp [hout]⟩

/-- The content of gzip data of one block that is stored without compression. -/
def storedContent : List UInt8 → Option (List UInt8)
  | 0x1f :: 0x8b :: 8 :: 0 :: _ :: _ :: _ :: _ :: _ :: _ :: 1 :: low :: high :: _ :: _ :: rest =>
    if rest.length = low.toNat + 256 * high.toNat + 8
    then some (rest.take (low.toNat + 256 * high.toNat)) else none
  | _ => none

def storedDecoder : GzDecoder where
  State := Option (List UInt8)
  new := storedContent
  read s size := (s.map (take size), s.map (drop size))
  content := storedContent
  content_nil := rfl
  Left s p := s = some p
  left_new h := h
  left_read := by
    rintro s p size rfl hsize
    refine ⟨p.take size, p.drop size, (take_append_drop size p).symm,
      length_take_le size p, fun h => ?_, rfl, rfl⟩
    rcases take_eq_nil_iff.mp h with h | h
    · omega
    · exact h

def storedHi : List UInt8 :=
  [0x1f, 0x8b, 8, 0, 0, 0, 0, 0, 0, 0xff, 1, 2, 0, 0xfd, 0xff, 0x68, 0x69, 0xac, 0x2a, 0x93, 0xd8,
    2, 0, 0, 0]

theorem deliversOnce_iff_hi :
    DeliversOnce storedDecoder (new.setInput storedHi) [0x68, 0x69] ↔ ([0x68, 0x69] : List UInt8) = [] :=
  deliversOnce_iff (by decide)

/-- Into a large buffer both bytes are written by the first pull, and again by every
later one. -/
theorem output_repeats : storedDecoder.content storedHi = some [0x68, 0x69] ∧
    output storedDecoder (new.setInput storedHi) (fun _ => 1024) 0 = (.ok, [0x68, 0x69]) ∧
    output storedDecoder (new.setInput storedHi) (fun _ => 1024) 1 = (.ok, [0x68, 0x69]) ∧
    ¬ DeliversOnce storedDecoder (new.setInput storedHi) [0x68, 0x69] :=
  ⟨by decide, by decide, by decide, not_deliversOnce (by decide) (by decide)⟩

end GzipDecompressVfp

end VarahaCache.Filter
