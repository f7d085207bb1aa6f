import LaneGraph.Word.Single

/-!
# Hashes of 64 bits

Nodes are grouped by a 64-bit FNV-1a fingerprint of their structure. The state
is a plain value, so the same structure has the same fingerprint in every run.
Numbers are mixed by their little-endian bytes.

A random draw must not depend on how instances are grouped, so there is no
advancing state: a draw hashes its own seed and index. The hash is built from
one invertible mixing function on 64-bit words.
-/

namespace LaneGraph

/-- The state of a fingerprint. -/
structure Fingerprint where
  /-- The current 64-bit state, which is also the result. -/
  state : UInt64
deriving DecidableEq, Repr

namespace Fingerprint

/-- The state before anything was mixed. -/
def start : Fingerprint := ⟨0xcbf29ce484222325⟩

instance : Inhabited Fingerprint := ⟨start⟩

/-- Mix one byte: exclusive or, then multiply by the FNV prime. -/
def byte (f : Fingerprint) (b : UInt8) : Fingerprint :=
  ⟨(f.state ^^^ b.toUInt64) * 0x100000001B3⟩

/-- Mix bytes in order. -/
def bytes (f : Fingerprint) (bs : List UInt8) : Fingerprint := bs.foldl byte f

-- Powers are those of the core library, whatever else is known of the numbers.
attribute [local instance (2000)] instPowNat

/-- Mix the low `count` bytes of a number, lowest first. -/
def littleEndian (f : Fingerprint) (count value : Nat) : Fingerprint :=
  f.bytes ((List.range count).map fun i => UInt8.ofNat (value / 2 ^ (8 * i)))

/-- Mix a 32-bit word. -/
def word32 (f : Fingerprint) (w : UInt32) : Fingerprint := f.littleEndian 4 w.toNat

/-- Mix a 64-bit word. -/
def word64 (f : Fingerprint) (w : UInt64) : Fingerprint := f.littleEndian 8 w.toNat

/-- Mix a text by its UTF-8 bytes and close it with a byte that no text
contains, so that neighbouring texts cannot run together. -/
def text (f : Fingerprint) (s : String) : Fingerprint :=
  (f.bytes s.toUTF8.data.toList).byte 0xff

end Fingerprint

namespace Mixer

/-- The odd constant added to an index before mixing: `2 ^ 64` divided by the
golden ratio. -/
def gamma : UInt64 := 0x9E3779B97F4A7C15

/-- Mix a word by xor-shifts and odd multipliers. -/
def mix (z : UInt64) : UInt64 :=
  let z := (z ^^^ (z >>> 30)) * 0xBF58476D1CE4E5B9
  let z := (z ^^^ (z >>> 27)) * 0x94D049BB133111EB
  z ^^^ (z >>> 31)

/-- Hash a seed and an index. -/
def pairHash (seed index : UInt64) : UInt64 := mix (seed ^^^ mix (index + gamma))

/-- The upper twenty-four bits of a hash as a fraction in `[0, 1)`. -/
def unitOfHash (hash : UInt64) : Single :=
  (Single.ofNat (hash >>> 40).toNat).mul ⟨0x33800000⟩

/-- A 32-bit integer as the unsigned low half of a 64-bit word. -/
def widen (n : Int32) : UInt64 := n.toUInt32.toUInt64

/-- Uniform draw from `[0, 1)`. -/
def unit (seed index : Int32) : Single := unitOfHash (pairHash (widen seed) (widen index))

/-- Uniform draw from the non-negative 32-bit integers. -/
def nonNegative (seed index : Int32) : Int32 :=
  (pairHash (widen seed) (widen index) >>> 33).toUInt32.toInt32

end Mixer

end LaneGraph
