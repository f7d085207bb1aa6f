import LaneGraph.Decimal.Text
import LaneGraph.Stream.Format
import LaneGraph.Word.Half

/-!
# Stream buffers

A stream is a buffer of bytes seen through a channel: leading bytes may be skipped,
and the values of consecutive instances lie a stride apart. Elements are stored
with their lowest byte first. Loading a short integer extends its sign and
loading a half widens it; storing keeps the low bits of an integer and rounds a
number to a half.

The bytes that a stream has to have are counted in 64 bits. A count that does not
fit breaks off where overflows are checked, and wraps around where they are not.
An access that does not lie in the visible bytes is refused.

Tables show one text per value, its components separated by commas. Numbers
have four places. Bytes after the last whole value are left out.
-/

namespace LaneGraph

/-- The number whose bytes are listed lowest first. -/
def natOfBytes : List UInt8 → Nat
  | [] => 0
  | b :: rest => b.toNat + 256 * natOfBytes rest

/-- The low bytes of a number, lowest first. -/
def bytesOfNat : Nat → Nat → List UInt8
  | 0, _ => []
  | count + 1, n => UInt8.ofNat n :: bytesOfNat count (n / 256)

namespace Encoding

/-- The lane pattern of a stored element. -/
def decode (e : Encoding) (bytes : List UInt8) : UInt32 :=
  let n := natOfBytes bytes
  match e with
  | float | int => UInt32.ofNat n
  | half => (Half.toSingle ⟨UInt16.ofNat n⟩).bits
  | short => (UInt16.ofNat n).toInt16.toInt32.toUInt32
  | byte => (UInt8.ofNat n).toInt8.toInt32.toUInt32

/-- The number that is stored for a lane pattern. -/
def stored (e : Encoding) (bits : UInt32) : Nat :=
  match e with
  | half => (Half.ofSingle ⟨bits⟩).bits.toNat
  | _ => bits.toNat

/-- The bytes stored for a lane pattern. -/
def encode (e : Encoding) (bits : UInt32) : List UInt8 := bytesOfNat e.size (e.stored bits)

end Encoding

/-- The number of addresses. -/
abbrev addressSpace : Nat := 2 ^ 64

/-- What becomes of a computation of addresses that does not fit into 64 bits. -/
inductive Overflow where
  /-- It breaks off. -/
  | faults
  /-- It wraps around. -/
  | wraps
deriving DecidableEq, Repr

/-- An address as it is computed; nothing where the computation breaks off. -/
def Overflow.address? (o : Overflow) (n : Nat) : Option Nat :=
  match o with
  | faults => if n < addressSpace then some n else none
  | wraps => some (n % addressSpace)

/-- A buffer of bytes seen through a channel. -/
structure Stream where
  /-- Name and format of the stream. -/
  channel : Channel
  /-- The whole buffer. -/
  bytes : Array UInt8
  /-- How many leading bytes are skipped. -/
  start : Nat
  /-- Bytes from one instance to the next. -/
  stride : Nat
deriving DecidableEq, Repr

namespace Stream

/-- A tightly packed stream. -/
def ofBytes (channel : Channel) (bytes : Array UInt8) : Stream :=
  ⟨channel, bytes, 0, channel.format.size⟩

/-- Skip leading bytes. Nothing is left of a buffer that is too short. -/
def withOffset (s : Stream) (offset : Nat) : Stream :=
  { s with start := min (s.start + offset) s.bytes.size }

/-- Put instances a given number of bytes apart. -/
def withStride (s : Stream) (stride : Nat) : Stream := { s with stride }

/-- How many bytes are visible. -/
def length (s : Stream) : Nat := s.bytes.size - s.start

end Stream

/-- Replace bytes from a position on. -/
def writeBytes (buffer : Array UInt8) (position : Nat) : List UInt8 → Array UInt8
  | [] => buffer
  | b :: rest => writeBytes (buffer.setIfInBounds position b) (position + 1) rest

/-- Bytes that `count` instances need: the last one starts `(count - 1)` strides
after the first and is one element long. No partial result is larger than the
sum, so it is the sum alone that has to fit. -/
def requiredBytes? (o : Overflow) (count stride offset size : Nat) : Option Nat :=
  if count = 0 then some 0 else o.address? (offset + (count - 1) * stride + size)

/-- One element per instance of a stream, or of one component of it. -/
structure ElementView where
  /-- Bytes from the first visible byte to the first element. -/
  offset : Nat
  /-- Bytes from one instance to the next. -/
  stride : Nat
  /-- How the elements are stored. -/
  encoding : Encoding
deriving DecidableEq, Repr

namespace ElementView

/-- Position of the element of an instance, from the first visible byte. -/
def position (v : ElementView) (instance_ : Nat) : Nat :=
  v.offset + instance_ * v.stride

/-- The element of an instance lies within `length` visible bytes. -/
def inBounds (v : ElementView) (length instance_ : Nat) : Bool :=
  v.position instance_ + v.encoding.size ≤ length

/-- The elements of all of `count` instances lie within `length` visible
bytes. -/
def allInBounds (v : ElementView) (length count : Nat) : Bool :=
  (List.range count).all (v.inBounds length)

/-- The lane pattern of an instance. -/
def read (v : ElementView) (s : Stream) (instance_ : Nat) : UInt32 :=
  let first := s.start + v.position instance_
  v.encoding.decode (s.bytes.extract first (first + v.encoding.size)).toList

/-- Store a lane pattern for an instance. -/
def write (v : ElementView) (s : Stream) (instance_ : Nat) (bits : UInt32) : Stream :=
  { s with bytes := writeBytes s.bytes (s.start + v.position instance_) (v.encoding.encode bits) }

end ElementView

/-! ## Values as texts -/

/-- The text of one stored element. -/
def Encoding.text (e : Encoding) (bytes : List UInt8) : String :=
  match e.kind with
  | .float => (Single.mk (e.decode bytes)).fixed 4
  | _ => toString (e.decode bytes).toInt32.toInt

/-- Pieces of `size` bytes each; a shorter rest is dropped. -/
def wholePieces (size : Nat) (bytes : List UInt8) : List (List UInt8) :=
  (List.range (bytes.length / size)).map fun i => (bytes.drop (i * size)).take size

/-- The text of one value. -/
def Format.valueText (f : Format) (bytes : List UInt8) : String :=
  String.intercalate ", " ((wholePieces f.encoding.size bytes).map f.encoding.text)

namespace Stream

/-- A tightly packed stream of elements. -/
def ofElements (channel : Channel) (elements : List UInt32) : Stream :=
  ofBytes channel (elements.flatMap channel.format.encoding.encode).toArray

/-- A tightly packed stream of zeros. -/
def zeros (channel : Channel) (instances : Nat) : Stream :=
  ofBytes channel (Array.replicate (channel.format.size * instances) 0)

/-- One text per value of the whole buffer. -/
def valueTexts (s : Stream) : List String :=
  (wholePieces s.channel.format.size s.bytes.toList).map s.channel.format.valueText

end Stream

end LaneGraph
