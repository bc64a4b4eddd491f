import DomQuery.Json.Basic

/-!
# Writing JSON

Two layouts of a JSON value: on one line without any spacing, and indented by
two spaces for each level with every item and member on a line of its own.

Both write strings the same way. A quote and a backslash are escaped, so is
every character below the space, by its letter where it has one and by its code
otherwise; all other characters stand for themselves.

A value is written behind a text that is there already. Nothing that was written
is copied again on the way out of a nested value, so the effort is in proportion
to the text and does not grow with the depth.

## Main definitions

* `Json.quote`: A string between its quotes.
* `Json.compact`: The layout on one line.
* `Json.indented`: The layout on many lines.
-/

namespace DomQuery

namespace Json

/-- A digit of base sixteen, in lower case. -/
def hexDigit (n : Nat) : Char :=
  if n < 10 then Char.ofNat ('0'.toNat + n) else Char.ofNat ('a'.toNat + (n - 10))

/-- One character inside a string. -/
def escapeChars (c : Char) : List Char :=
  if c = '"' then ['\\', '"']
  else if c = '\\' then ['\\', '\\']
  else if c = '\x08' then ['\\', 'b']
  else if c = '\x0c' then ['\\', 'f']
  else if c = '\n' then ['\\', 'n']
  else if c = '\r' then ['\\', 'r']
  else if c = '\t' then ['\\', 't']
  else if c.toNat < 0x20 then
    ['\\', 'u', '0', '0', hexDigit (c.toNat / 16), hexDigit (c.toNat % 16)]
  else [c]

/-- A string between its quotes. -/
def quote (s : String) : String :=
  String.ofList ('"' :: s.toList.flatMap escapeChars ++ ['"'])

/-- A scalar behind a text; nothing for an array or object. -/
def writeScalar (out : String) : Json → String
  | null => out ++ "null"
  | bool true => out ++ "true"
  | bool false => out ++ "false"
  | num value => out ++ String.ofList value.chars
  | str value => out ++ quote value
  | _ => out

mutual

/-- A value on one line, behind a text. -/
def writeCompact (out : String) : Json → String
  | arr items => (writeItems (out.push '[') items).push ']'
  | obj members => (writeMembers (out.push '\x7b') members).push '\x7d'
  | scalar => writeScalar out scalar

/-- The items of an array with commas between them, behind a text. -/
def writeItems (out : String) : List Json → String
  | [] => out
  | [item] => writeCompact out item
  | item :: items => writeItems ((writeCompact out item).push ',') items

/-- The members of an object with commas between them, behind a text. -/
def writeMembers (out : String) : List (String × Json) → String
  | [] => out
  | [(name, value)] => writeCompact ((out ++ quote name).push ':') value
  | (name, value) :: members =>
    writeMembers ((writeCompact ((out ++ quote name).push ':') value).push ',') members

end

/-- A value on one line. -/
def compact (v : Json) : String := writeCompact "" v

/-- A line break and the indentation of a level, behind a text. -/
def newLine (out : String) (level : Nat) : String :=
  out ++ String.ofList ('\n' :: List.replicate (2 * level) ' ')

mutual

/-- A value on many lines, behind a text, its brackets standing at a level and
    what is between them one level further in. An empty array or object keeps
    its brackets together. -/
def writeIndented (level : Nat) (out : String) : Json → String
  | arr [] => out ++ "[]"
  | arr items => (newLine (writeItemLines (level + 1) (out.push '[') items) level).push ']'
  | obj [] => out ++ "\x7b\x7d"
  | obj members =>
    (newLine (writeMemberLines (level + 1) (out.push '\x7b') members) level).push '\x7d'
  | scalar => writeScalar out scalar

/-- The items of an array, each on a line of its own, behind a text. -/
def writeItemLines (level : Nat) (out : String) : List Json → String
  | [] => out
  | [item] => writeIndented level (newLine out level) item
  | item :: items =>
    writeItemLines level ((writeIndented level (newLine out level) item).push ',') items

/-- The members of an object, each on a line of its own, behind a text. -/
def writeMemberLines (level : Nat) (out : String) : List (String × Json) → String
  | [] => out
  | [(name, value)] => writeIndented level (newLine out level ++ quote name ++ ": ") value
  | (name, value) :: members =>
    writeMemberLines level
      ((writeIndented level (newLine out level ++ quote name ++ ": ") value).push ',') members

end

/-- A value on many lines. -/
def indented (v : Json) : String := writeIndented 0 "" v

end Json

end DomQuery
