import DomQuery.Report.Palette
import DomQuery.Selector.SyntaxError
import DomQuery.Text.Blank

/-!
# Carets

A syntax error shown in its selector: the selector on one line, and under it a
caret at the place of the error.

A selector can hold line breaks and tabs. Every white space character of it is
shown as one space, so the selector stays on its line and its columns are its
characters. The place of an error is told in bytes and the caret stands under a
character; an error whose place is none in the selector has its caret in the
first column.

## Main definitions

* `SyntaxError.caretLines`: The two lines.
* `SyntaxError.rendered`: The two lines as one text.
-/

namespace DomQuery

namespace SyntaxError

/-- The selector as the first line shows it. -/
def shown (cs : List Char) : List Char := cs.map fun c => if Text.isBlank c then ' ' else c

/-- The two lines, each indented by two spaces. -/
def caretLines (e : SyntaxError) (text : String) (p : Palette) : List Char × List Char :=
  (' ' :: ' ' :: shown text.toList,
    ' ' :: ' ' :: List.replicate (e.column text) ' ' ++ p.error ['^'])

/-- The two lines with a line feed between them. -/
def rendered (e : SyntaxError) (text : String) (p : Palette) : String :=
  let (line, caret) := e.caretLines text p
  String.ofList (line ++ '\n' :: caret)

end SyntaxError

end DomQuery
