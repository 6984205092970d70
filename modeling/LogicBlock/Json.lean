/-
**JSON values.**

A JSON value as it is read from a text: the members of an object keep their order and may repeat a
key, and a number that is not a plain natural number keeps its spelling.  A string literal can spell
half of a surrogate pair with an escape.  Such a literal is well formed but stands for no text, so
the text of a string or a key is optional.

Main definitions:

* `Json` — the values;
* `Json.Key` — the text of a key, if it has one;
* `Json.ofText`, `Json.ofMembers` — a string with a given text, an object with given members.
-/

set_option relaxedAutoImplicit false
set_option autoImplicit false

namespace LogicBlock

/-- A JSON value. -/
inductive Json where
  | null
  | bool (b : Bool)
  /-- A number written as digits only. -/
  | natural (n : Nat)
  /-- Any other number, as it is spelt. -/
  | number (spelling : String)
  /-- A string; `none` if it contains an unpaired surrogate. -/
  | string (text : Option String)
  | array (items : List Json)
  /-- An object, with its members in order.  A key is `none` as a string is. -/
  | object (members : List (Option String × Json))

namespace Json

/-- The text of a key, unless it contains an unpaired surrogate. -/
abbrev Key := Option String

instance : Inhabited Json := ⟨null⟩

/-- The string with a given text. -/
def ofText (text : String) : Json :=
  string (some text)

/-- The object with the given members. -/
def ofMembers (members : List (String × Json)) : Json :=
  object (members.map fun m => (some m.1, m.2))

end Json

end LogicBlock
