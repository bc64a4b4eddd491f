import DomQuery.Text.Utf8

/-!
# Syntax Errors

Where a text stops being a selector, and why.

An error is a place, told in bytes of the text, and a cause. There is no partial
result beside it: a text either is a selector list or has one first place where
it stops being one. The wording of every cause is in one function, so an error
can be compared, counted and reasoned about without reading prose.

## Main definitions

* `SyntaxError.Cause`: The five ways in which a text fails.
* `SyntaxError`: A place and a cause.
* `SyntaxError.message`: The wording.
* `SyntaxError.fragment`: The text from the place on.
-/

namespace DomQuery

/-- Why a text is no selector list. -/
inductive SyntaxError.Cause where
  /-- There is nothing but spacing. -/
  | emptySelector
  /-- A compound had to start here; the character found instead, if the text
      did not end. -/
  | expectedSelector (found : Option Char)
  /-- This mark has no name behind it. -/
  | expectedIdentifier (after : Char)
  /-- One clause has more combinators than the limit. -/
  | tooManyCombinators (limit : Nat)
  /-- No compound goes on and no combinator or clause starts with this
      character. -/
  | unexpectedCharacter (found : Char)
  deriving DecidableEq, Repr

/-- The first place, in bytes, where a text stops being a selector list. -/
structure SyntaxError where
  offset : Nat
  cause : SyntaxError.Cause
  deriving DecidableEq, Repr

namespace SyntaxError

/-- A character as the messages show it. -/
def quoted (c : Char) : String := "'" ++ c.toString ++ "'"

/-- The wording of a cause. -/
def Cause.message : Cause → String
  | emptySelector => "empty selector"
  | expectedSelector none => "expected a selector, found end of input"
  | expectedSelector (some c) => "expected a selector, found " ++ quoted c
  | expectedIdentifier c => "expected an identifier after " ++ quoted c
  | tooManyCombinators limit => "more than " ++ toString limit ++ " combinators in one selector"
  | unexpectedCharacter c => "unexpected character " ++ quoted c

/-- The wording of an error: its cause and its place. -/
def message (e : SyntaxError) : String :=
  e.cause.message ++ " at offset " ++ toString e.offset

/-- The part of a text from the place of the error on. Empty when the place is
    the end of the text, or no place in it. -/
def fragment (e : SyntaxError) (text : String) : String :=
  String.ofList ((Text.dropBytes? e.offset text.toList).getD [])

/-- The number of characters in front of the place of the error, zero when it
    is no place in the text. -/
def column (e : SyntaxError) (text : String) : Nat :=
  match Text.dropBytes? e.offset text.toList with
  | some rest => text.toList.length - rest.length
  | none => 0

end SyntaxError

end DomQuery
