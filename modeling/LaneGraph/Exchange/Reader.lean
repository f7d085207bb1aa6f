import LaneGraph.Decimal.Text
import LaneGraph.Exchange.Document

/-!
# Documents from text

Reading follows the JSON grammar and accepts blanks between tokens. Every reader
takes the characters that are left and returns what it read with those that are
left afterwards. Nested readers share a budget of steps; each step uses up a
character or ends a value, so twice the length of the text is enough.
-/

namespace LaneGraph.Document

/-- A blank between tokens. -/
def isBlank (c : Char) : Bool := c = ' ' || c = '\n' || c = '\r' || c = '\t'

/-- What follows leading blanks. -/
def skipBlanks (cs : List Char) : List Char := cs.dropWhile isBlank

/-- What follows a word, if the word comes first. -/
def afterWord? : List Char → List Char → Option (List Char)
  | [], cs => some cs
  | c :: word, d :: cs => if c = d then afterWord? word cs else none
  | _ :: _, [] => none

/-- The unit spelled by four digits in base sixteen. -/
def hexUnit? : List Char → Option (Nat × List Char)
  | a :: b :: c :: d :: rest => (Hex.nat? [a, b, c, d]).map fun n => (n, rest)
  | _ => none

/-- The character spelled after `\u`. Characters beyond the basic plane are
spelled by two surrogate units; a unit alone may not be a surrogate. -/
def unicodeEscape? (cs : List Char) : Option (Char × List Char) := do
  let (first, rest) ← hexUnit? cs
  if first < 0xd800 || 0xe000 ≤ first then
    return (Char.ofNat first, rest)
  else if first < 0xdc00 then
    match rest with
    | '\\' :: 'u' :: rest =>
      let (second, rest) ← hexUnit? rest
      if 0xdc00 ≤ second && second < 0xe000 then
        return (Char.ofNat (0x10000 + (first - 0xd800) * 0x400 + (second - 0xdc00)), rest)
      else none
    | _ => none
  else none

/-- The character spelled after a backslash. -/
def escape? : List Char → Option (Char × List Char)
  | '"' :: rest => some ('"', rest)
  | '\\' :: rest => some ('\\', rest)
  | '/' :: rest => some ('/', rest)
  | 'b' :: rest => some (Char.ofNat 8, rest)
  | 'f' :: rest => some (Char.ofNat 12, rest)
  | 'n' :: rest => some ('\n', rest)
  | 'r' :: rest => some ('\r', rest)
  | 't' :: rest => some ('\t', rest)
  | 'u' :: rest => unicodeEscape? rest
  | _ => none

/-- The characters up to the closing quote, after those read already, which are
listed last first. -/
def quotedRest? : Nat → List Char → List Char → Option (String × List Char)
  | 0, _, _ => none
  | _, _, [] => none
  | steps + 1, done, c :: rest =>
    if c = '"' then some (String.ofList done.reverse, rest)
    else if c = '\\' then
      match escape? rest with
      | some (d, rest) => quotedRest? steps (d :: done) rest
      | none => none
    else if c.toNat < 32 then none
    else quotedRest? steps (c :: done) rest

/-- The number spelled by digits. -/
def natOfDigits (digits : List Char) : Nat :=
  digits.foldl (fun n c => 10 * n + (c.toNat - 48)) 0

/-- One or more digits. -/
def digits? (cs : List Char) : Option (List Char × List Char) :=
  match cs.span Char.isDigit with
  | ([], _) => none
  | found => some found

/-- Digits without a needless zero in front. -/
def wholeDigits? (cs : List Char) : Option (List Char × List Char) := do
  let (ds, rest) ← digits? cs
  match ds with
  | '0' :: _ :: _ => none
  | _ => return (ds, rest)

/-- The digits after a point; none without a point. -/
def fraction? : List Char → Option (List Char × List Char)
  | '.' :: rest => digits? rest
  | cs => some ([], cs)

/-- The exponent after its mark; nothing without a mark. -/
def exponent? : List Char → Option (Option Int × List Char)
  | c :: rest => do
    if c = 'e' || c = 'E' then
      match rest with
      | '-' :: rest =>
        let (ds, rest) ← digits? rest
        return (some (-(natOfDigits ds : Int)), rest)
      | '+' :: rest =>
        let (ds, rest) ← digits? rest
        return (some (natOfDigits ds), rest)
      | _ =>
        let (ds, rest) ← digits? rest
        return (some (natOfDigits ds), rest)
    else return (none, c :: rest)
  | [] => some (none, [])

/-- Append digits to a number as long as it stays below `2 ^ 64`. The digits
from the first one that does not fit are left over. -/
def appendDigits (n : Nat) : List Char → Nat × List Char
  | [] => (n, [])
  | c :: rest =>
    let next := 10 * n + (c.toNat - 48)
    if next < 2 ^ 64 then appendDigits next rest else (n, c :: rest)

/-- The decimal spelled by the digits before and after the point and an exponent.
Digits that do not fit in 64 bits are dropped; before the point each of them
still counts as a place. -/
def spelled (whole fraction : List Char) (exponent : Int) : Decimal :=
  let (n, beyond) := appendDigits 0 whole
  let (digits, unused) := appendDigits n fraction
  ⟨digits, exponent + beyond.length - (fraction.length - unused.length : Nat)⟩

/-- The integer, if it fits in 64 bits. Minus zero is no integer. -/
def integer64? (negative : Bool) (n : Nat) : Option Int :=
  if negative then if n ≠ 0 ∧ n ≤ 2 ^ 63 then some (-(n : Int)) else none
  else if n < 2 ^ 64 then some n else none

/-- A number after its sign. A decimal beyond double precision is refused. -/
def unsigned? (negative : Bool) (cs : List Char) : Option (Document × List Char) := do
  let (whole, rest) ← wholeDigits? cs
  let (fraction, rest) ← fraction? rest
  let (exponent, rest) ← exponent? rest
  let plain := if fraction.isEmpty && exponent.isNone then
    integer64? negative (natOfDigits whole) else none
  match plain with
  | some n => return (integer n, rest)
  | none =>
    let d := spelled whole fraction (exponent.getD 0)
    if d.toDouble?.isNone then none
    else return (decimal negative d, rest)

/-- A number. -/
def number? : List Char → Option (Document × List Char)
  | '-' :: rest => unsigned? true rest
  | cs => unsigned? false cs

mutual

/-- A value; blanks before it are skipped. -/
def value? : Nat → List Char → Option (Document × List Char)
  | 0, _ => none
  | steps + 1, cs =>
    match skipBlanks cs with
    | '"' :: rest => (quotedRest? steps [] rest).map fun (s, rest) => (text s, rest)
    | '[' :: rest =>
      match skipBlanks rest with
      | ']' :: rest => some (list [], rest)
      | rest => (items? steps rest).map fun (items, rest) => (list items, rest)
    | '\x7b' :: rest =>
      match skipBlanks rest with
      | '\x7d' :: rest => some (record [], rest)
      | rest => (fields? steps rest).map fun (fields, rest) => (record fields, rest)
    | 't' :: rest => (afterWord? ['r', 'u', 'e'] rest).map fun rest => (bool true, rest)
    | 'f' :: rest => (afterWord? ['a', 'l', 's', 'e'] rest).map fun rest => (bool false, rest)
    | 'n' :: rest => (afterWord? ['u', 'l', 'l'] rest).map fun rest => (null, rest)
    | rest => number? rest

/-- Items up to the closing bracket. -/
def items? : Nat → List Char → Option (List Document × List Char)
  | 0, _ => none
  | steps + 1, cs =>
    match value? steps cs with
    | none => none
    | some (item, rest) =>
      match skipBlanks rest with
      | ']' :: rest => some ([item], rest)
      | ',' :: rest => (items? steps rest).map fun (items, rest) => (item :: items, rest)
      | _ => none

/-- Fields up to the closing brace. -/
def fields? : Nat → List Char → Option (List (String × Document) × List Char)
  | 0, _ => none
  | steps + 1, cs =>
    match skipBlanks cs with
    | '"' :: rest =>
      match quotedRest? steps [] rest with
      | none => none
      | some (name, rest) =>
        match skipBlanks rest with
        | ':' :: rest =>
          match value? steps rest with
          | none => none
          | some (value, rest) =>
            match skipBlanks rest with
            | '\x7d' :: rest => some ([(name, value)], rest)
            | ',' :: rest =>
              (fields? steps rest).map fun (fields, rest) => ((name, value) :: fields, rest)
            | _ => none
        | _ => none
    | _ => none

end

/-- The document written by a text. -/
def parse? (s : String) : Option Document :=
  let cs := s.toList
  match value? (2 * cs.length + 2) cs with
  | some (document, rest) => if (skipBlanks rest).isEmpty then some document else none
  | none => none

end LaneGraph.Document
