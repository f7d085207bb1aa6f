import LaneGraph.Decimal.Text
import LaneGraph.Exchange.Document

/-!
# Documents as text

A document is written on one line without blanks, or spread over lines with two
blanks per level. An empty list or record stays on its line.
-/

namespace LaneGraph.Document

/-- A character inside a quoted text. Quotes, backslashes and control characters
are escaped. -/
def escaped (c : Char) : List Char :=
  if c = '"' then ['\\', '"']
  else if c = '\\' then ['\\', '\\']
  else if c = '\n' then ['\\', 'n']
  else if c = '\r' then ['\\', 'r']
  else if c = '\t' then ['\\', 't']
  else if c.toNat = 8 then ['\\', 'b']
  else if c.toNat = 12 then ['\\', 'f']
  else if c.toNat < 32 then '\\' :: 'u' :: Hex.digits 4 c.toNat
  else [c]

/-- A quoted text. -/
def quoted (s : String) : String :=
  String.ofList ('"' :: s.toList.flatMap escaped ++ ['"'])

/-- A decimal, positionally, with at least one digit on either side of the
point. -/
def decimalText (negative : Bool) (magnitude : Decimal) : String :=
  let d := magnitude.trim
  let digits := (toString d.digits).toList
  let sign := if negative then "-" else ""
  if d.digits = 0 then sign ++ "0.0"
  else sign ++ Single.positional digits (digits.length + d.exponent)

/-- A value that has no parts. -/
def leafText : Document → String
  | bool true => "true"
  | bool false => "false"
  | integer n => toString n
  | decimal negative magnitude => decimalText negative magnitude
  | text s => quoted s
  | _ => "null"

mutual

/-- The document on one line. -/
def compact : Document → String
  | list items => "[" ++ compactItems items ++ "]"
  | record fields => "\x7b" ++ compactFields fields ++ "\x7d"
  | leaf => leaf.leafText

/-- Items with commas between them. -/
def compactItems : List Document → String
  | [] => ""
  | [item] => item.compact
  | item :: rest => item.compact ++ "," ++ compactItems rest

/-- Fields with commas between them. -/
def compactFields : List (String × Document) → String
  | [] => ""
  | [(name, value)] => quoted name ++ ":" ++ value.compact
  | (name, value) :: rest => quoted name ++ ":" ++ value.compact ++ "," ++ compactFields rest

end

/-- Lines one level deeper. -/
def indented (lines : List String) : List String := lines.map ("  " ++ ·)

/-- Put a text in front of the first line. -/
def startedWith (start : String) : List String → List String
  | [] => [start]
  | line :: rest => (start ++ line) :: rest

/-- Put a text after the last line. -/
def endedWith (stop : String) (lines : List String) : List String :=
  match lines.getLast? with
  | none => [stop]
  | some line => lines.dropLast ++ [line ++ stop]

mutual

/-- The document spread over lines. -/
def pretty : Document → List String
  | list (item :: rest) => ["["] ++ indented (prettyItems (item :: rest)) ++ ["]"]
  | record (field :: rest) => ["\x7b"] ++ indented (prettyFields (field :: rest)) ++ ["\x7d"]
  | list [] => ["[]"]
  | record [] => ["\x7b\x7d"]
  | leaf => [leaf.leafText]

/-- Items with a comma after each but the last. -/
def prettyItems : List Document → List String
  | [] => []
  | [item] => item.pretty
  | item :: rest => endedWith "," item.pretty ++ prettyItems rest

/-- Fields with a comma after each but the last. -/
def prettyFields : List (String × Document) → List String
  | [] => []
  | [(name, value)] => startedWith (quoted name ++ ": ") value.pretty
  | (name, value) :: rest =>
    endedWith "," (startedWith (quoted name ++ ": ") value.pretty) ++ prettyFields rest

end

end LaneGraph.Document
