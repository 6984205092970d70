/-
**Reading JSON.**

The tokens of a text are put together with a stack of the arrays and objects that are still open.
Reading is one fold over the tokens, so it ends for every text and does not care how deep the
nesting is.  The grammar is strict: no trailing comma, no comment, nothing after the value.

Main definitions:

* `Json.Place` — what has been read, and what may come next;
* `Json.Place.step` — taking one token;
* `Json.read?` — the value that a text writes.
-/

import LogicBlock.Json.Token

set_option relaxedAutoImplicit false
set_option autoImplicit false

namespace LogicBlock

namespace Json

/-- An array or object that is still open, with its items or members so far in reverse.  An object
waits for the value of a key. -/
inductive Frame where
  | array (items : List Json)
  | object (members : List (Key × Json)) (key : Key)

/-- What may come next, inside the frames that are open. -/
inductive Place where
  /-- A value. -/
  | value (stack : List Frame)
  /-- The first item of an array, or its end. -/
  | firstItem (stack : List Frame)
  /-- The first key of an object, or its end. -/
  | firstKey (stack : List Frame)
  /-- A key. -/
  | key (stack : List Frame) (members : List (Key × Json))
  /-- The colon after a key. -/
  | colon (stack : List Frame) (members : List (Key × Json)) (key : Key)
  /-- After a value: a comma, the end of the innermost frame, or the end of the text. -/
  | complete (stack : List Frame) (v : Json)

namespace Place

/-- Takes the first token of a value. -/
def start (stack : List Frame) : Token → Option Place
  | .openArray => some (firstItem stack)
  | .openObject => some (firstKey stack)
  | .string text => some (complete stack (.string text))
  | .scalar v => some (complete stack v)
  | _ => none

/-- Takes one token. -/
def step : Place → Token → Option Place
  | value stack, t => start stack t
  | firstItem stack, .closeArray => some (complete stack (.array []))
  | firstItem stack, t => start (.array [] :: stack) t
  | firstKey stack, .closeObject => some (complete stack (.object []))
  | firstKey stack, .string k => some (colon stack [] k)
  | key stack members, .string k => some (colon stack members k)
  | colon stack members k, .colon => some (value (.object members k :: stack))
  | complete (.array items :: stack) v, .comma => some (value (.array (v :: items) :: stack))
  | complete (.array items :: stack) v, .closeArray =>
    some (complete stack (.array (v :: items).reverse))
  | complete (.object members k :: stack) v, .comma => some (key stack ((k, v) :: members))
  | complete (.object members k :: stack) v, .closeObject =>
    some (complete stack (.object ((k, v) :: members).reverse))
  | _, _ => none

/-- The value that has been read, if nothing is open. -/
def result? : Place → Option Json
  | complete [] v => some v
  | _ => none

end Place

/-- The value that a text writes. -/
def read? (text : String) : Option Json := do
  let place ← (← tokens? text).foldlM Place.step (.value [])
  place.result?

end Json

end LogicBlock
