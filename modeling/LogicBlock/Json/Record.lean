/-
**The JSON forms of names, lists, maps and records.**

A record is written as an object with a member for every field.  It is also read from an array that
lists the fields in the order of their declaration, possibly without the last ones.  An object may
have members that are no fields, with any values; a field may be given once only.  A word from a
fixed set is written as a string, and is also read from an object with the word as its only key and
null as its value.

Main definitions:

* `Json.text?`, `Json.count?`, `Json.word?` — strings, counts, and words from a fixed set;
* `Json.list?`, `Json.nameMap?` — lists and maps;
* `Json.fields?`, `Json.required`, `Json.withDefault` — the fields of a record;
* `Json.ofList`, `Json.ofNameMap` — writing lists and maps.
-/

import LogicBlock.Json
import LogicBlock.NameMap

set_option relaxedAutoImplicit false
set_option autoImplicit false

namespace LogicBlock

namespace Json

variable {α : Type}

/-! ### Reading -/

/-- The text of a string. -/
def text? : Json → Option String
  | string text => text
  | _ => none

/-- Counts have to fit into a machine word of 64 bits. -/
def countBound : Nat :=
  UInt64.size

/-- A count: a number written as digits only, and within the bound. -/
def count? : Json → Option Nat
  | natural n => if n < countBound then some n else none
  | _ => none

/-- A word from a fixed set. -/
def word? (ofName? : String → Option α) : Json → Option α
  | string (some word) => ofName? word
  | object [(some word, null)] => ofName? word
  | _ => none

/-- A list of values of one kind. -/
def list? (item? : Json → Option α) : Json → Option (List α)
  | array items => items.mapM item?
  | _ => none

/-- A value or null. -/
def nullable? (value? : Json → Option α) : Json → Option (Option α)
  | null => some none
  | j => (value? j).map some

/-- The members of an object, if every key has a text. -/
def members? : Json → Option (List (String × Json))
  | object members => members.mapM fun m => m.1.map fun key => (key, m.2)
  | _ => none

/-- A map.  Of several members with one key the last one counts, but all of them have to be
right. -/
def nameMap? (value? : Json → Option α) (j : Json) : Option (NameMap α) := do
  let entries ← (← j.members?).mapM fun m => (value? m.2).map fun v => (m.1, v)
  return .ofList entries

/-- The value of the only member with a given key: the outer `none` means that there are several
members with the key, the inner one that there is none. -/
def onlyMember? (members : List (String × Json)) (key : String) : Option (Option Json) :=
  match members.filter (·.1 = key) with
  | [] => some none
  | [m] => some (some m.2)
  | _ => none

/-- The fields of a record with the given field names, as far as they are present. -/
def fields? (names : List String) : Json → Option (List (Option Json))
  | array items =>
    if items.length ≤ names.length then some ((List.range names.length).map (items[·]?)) else none
  | j => do names.mapM (onlyMember? (← j.members?))

/-- A field that has to be present. -/
def required (value? : Json → Option α) (field : Option Json) : Option α :=
  field.bind value?

/-- A field that may be left out. -/
def withDefault (d : α) (value? : Json → Option α) : Option Json → Option α
  | none => some d
  | some j => value? j

/-! ### Writing -/

/-- The JSON form of a list. -/
def ofList (item : α → Json) (l : List α) : Json :=
  array (l.map item)

/-- The JSON form of a map. -/
def ofNameMap (value : α → Json) (m : NameMap α) : Json :=
  ofMembers (m.entries.map fun e => (e.1, value e.2))

end Json

end LogicBlock
