/-
**Lines and fields.**

A text is cut into lines at line feeds only.  A carriage return right before a line feed belongs to
the line end; anywhere else it is an ordinary character.  The text after the last line feed is a
line if it is not empty.

Main definitions:

* `Text.lineChars`, `Text.lines` — the lines of a text, without their ends;
* `Text.split` — the fields between single separator characters.
-/

set_option relaxedAutoImplicit false
set_option autoImplicit false

namespace LogicBlock

namespace Text

/-- Drops one carriage return at the end. -/
def dropReturn (cs : List Char) : List Char :=
  if cs.getLast? = some '\r' then cs.dropLast else cs

/-- The lines that the pieces between line feeds stand for: every piece but the last one was ended
by a line feed. -/
def endLines : List (List Char) → List (List Char)
  | [] => []
  | [last] => if last.isEmpty then [] else [last]
  | piece :: rest => dropReturn piece :: endLines rest

/-- The lines of a text, as characters. -/
def lineChars (cs : List Char) : List (List Char) :=
  endLines (cs.splitOn '\n')

/-- The lines of a text. -/
def lines (s : String) : List String :=
  (lineChars s.toList).map String.ofList

/-- The fields of a text between single separators; there is always at least one. -/
def split (separator : Char) (s : String) : List String :=
  (s.toList.splitOn separator).map String.ofList

end Text

end LogicBlock
