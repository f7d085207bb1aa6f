import LaneGraph.Decimal.Shortest
import LaneGraph.Word.Single

/-!
# Texts of numbers and words

Words and bytes are spelled in hexadecimal digits, lower case when written and
either case when read.

Listings show a single-precision number with the fewest digits that read back as the same
pattern, positionally from `1e-4` up to `1e16` and with an exponent outside.
Tables show a number with a fixed count of places, the exact value rounded to
nearest with ties to even.
-/

namespace LaneGraph

namespace Hex

/-- The digit of a number below sixteen. -/
def digit (n : Nat) : Char :=
  if n < 10 then Char.ofNat (48 + n) else Char.ofNat (87 + n)

/-- The low `count` hexadecimal digits of a number. -/
def digits : Nat → Nat → List Char
  | 0, _ => []
  | count + 1, n => digits count (n / 16) ++ [digit (n % 16)]

/-- A 32-bit word with its mark and all eight digits. -/
def word32 (w : UInt32) : String := "0x" ++ String.ofList (digits 8 w.toNat)

/-- A 64-bit word with its mark and all sixteen digits. -/
def word64 (w : UInt64) : String := "0x" ++ String.ofList (digits 16 w.toNat)

/-- Bytes as pairs of digits without a mark. -/
def bytes (bs : List UInt8) : String := String.ofList (bs.flatMap fun b => digits 2 b.toNat)

/-- The value of a digit, in either case. -/
def digit? (c : Char) : Option Nat :=
  if c.isDigit then some (c.toNat - 48)
  else if 'a' ≤ c && c ≤ 'f' then some (c.toNat - 87)
  else if 'A' ≤ c && c ≤ 'F' then some (c.toNat - 55)
  else none

/-- The number spelled by digits. -/
def nat? (cs : List Char) : Option Nat :=
  (cs.mapM digit?).map fun ds => ds.foldl (fun n d => 16 * n + d) 0

/-- The number spelled after a mark of two characters. -/
def marked? (s : String) : Option Nat := nat? (s.toList.drop 2)

/-- The bytes spelled by pairs of digits. -/
def bytesOf? : List Char → Option (List UInt8)
  | [] => some []
  | a :: b :: rest => do
    let n ← nat? [a, b]
    return UInt8.ofNat n :: (← bytesOf? rest)
  | [_] => none

end Hex

namespace Single

/-- The reals that round to a positive finite number. Below a power of two the
gap is half as wide; the ends belong to an even significand. -/
def interval (x : Single) : Decimal.Interval :=
  let m := 4 * x.significand
  let lower := if x.fraction = 0 && x.exponentField != 0 then 1 else 2
  let up := 2 ^ (x.scale - 152)
  let down := 2 ^ (152 - x.scale)
  { low := (m - lower) * up
    value := m * up
    high := (m + 2) * up
    denominator := down
    closed := x.significand % 2 == 0 }

/-- The shortest decimal of a positive finite number. Nine digits always
suffice. -/
def shortest (x : Single) : Decimal :=
  let i := x.interval
  i.shortest (i.leading (-46) 90) 9

/-- Digits with the point put `point` places after their start, at least one
digit on either side of it. -/
def positional (digits : List Char) (point : Int) : String :=
  let count := digits.length
  if point ≤ 0 then
    String.ofList ("0.".toList ++ List.replicate (-point).toNat '0' ++ digits)
  else if point.toNat < count then
    String.ofList (digits.take point.toNat ++ ['.'] ++ digits.drop point.toNat)
  else
    String.ofList (digits ++ List.replicate (point.toNat - count) '0' ++ ".0".toList)

/-- Digits with one before the point and an exponent. -/
def scientific (digits : List Char) (point : Int) : String :=
  let mantissa := match digits with
    | [] => []
    | [d] => [d]
    | d :: rest => d :: '.' :: rest
  String.ofList mantissa ++ "e" ++ toString (point - 1)

/-- The literal text of a number, as listings show it. -/
def literal (x : Single) : String :=
  if x.isNaN then "NaN"
  else
    let sign := if x.negative then "-" else ""
    if x.isInfinite then sign ++ "inf"
    else if x.magnitude = 0 then sign ++ "0.0"
    else
      let d := x.shortest
      let digits := (toString d.digits).toList
      let point : Int := d.exponent + digits.length
      -- The bounds are the patterns nearest to 1e-4 and 1e16.
      if x.magnitude < 0x38d1b717 || 0x5a0e1bca ≤ x.magnitude then
        sign ++ scientific digits point
      else
        sign ++ positional digits point

/-- A natural number with zeros in front up to a width. -/
def zeroPadded (width n : Nat) : String :=
  let digits := (toString n).toList
  String.ofList (List.replicate (width - digits.length) '0' ++ digits)

/-- The text with a fixed count of places after the point. -/
def fixed (places : Nat) (x : Single) : String :=
  if x.isNaN then "NaN"
  else
    let sign := if x.negative then "-" else ""
    if x.isInfinite then sign ++ "inf"
    else
      let unit := 10 ^ places
      let scaled :=
        if 150 ≤ x.scale then x.significand * 2 ^ (x.scale - 150) * unit
        else shiftRightEven (x.significand * unit) (150 - x.scale)
      sign ++ toString (scaled / unit) ++ "." ++ zeroPadded places (scaled % unit)

end Single

end LaneGraph
