/-
**The JSON form of test benches.**

A bench is written as a record with all its fields.  When it is read, every field but the name and
the netlist may be left out.  The source of a netlist is an object with one member, whose key says
which kind of source it is.

Main definitions:

* `Bench.toJson`, `Bench.ofJson?` — writing and reading benches;
* the same pair for `NetlistSource`, `LibraryEntry` and `TestVector`.
-/

import LogicBlock.Bench
import LogicBlock.Json.Netlist

set_option relaxedAutoImplicit false
set_option autoImplicit false

namespace LogicBlock

namespace NetlistSource

/-- The JSON form of a source. -/
def toJson : NetlistSource → Json
  | path p => .ofMembers [("path", .ofText p)]
  | inline text => .ofMembers [("inline", .ofText text)]

/-- The source that a JSON value stands for. -/
def ofJson? : Json → Option NetlistSource
  | .object [(some key, value)] =>
    if key = "path" then value.text?.map path
    else if key = "inline" then value.text?.map inline
    else none
  | _ => none

@[simp] theorem ofJson?_toJson (s : NetlistSource) : ofJson? s.toJson = some s := by
  cases s <;> rfl

end NetlistSource

namespace LibraryEntry

/-- The fields of a library entry. -/
def fieldNames : List String :=
  ["netlist", "limits"]

/-- The JSON form of a library entry. -/
def toJson (e : LibraryEntry) : Json :=
  .ofMembers [("netlist", e.netlist.toJson), ("limits", .natural e.limits)]

/-- The library entry that a JSON value stands for. -/
def ofJson? (j : Json) : Option LibraryEntry := do
  match ← j.fields? fieldNames with
  | [netlist, limits] =>
    return ⟨← Json.required NetlistSource.ofJson? netlist,
      ← Json.withDefault Bench.defaultLimits Json.count? limits⟩
  | _ => none

end LibraryEntry

namespace TestVector

/-- The fields of a test vector. -/
def fieldNames : List String :=
  ["inputs", "expect"]

/-- The JSON form of a test vector. -/
def toJson (v : TestVector) : Json :=
  .ofMembers [("inputs", v.inputs.toJson),
    ("expect", match v.expect with
      | some pins => pins.toJson
      | none => .null)]

/-- The test vector that a JSON value stands for. -/
def ofJson? (j : Json) : Option TestVector := do
  match ← j.fields? fieldNames with
  | [inputs, expect] =>
    return ⟨← Json.required PinMap.ofJson? inputs,
      ← Json.withDefault none (Json.nullable? PinMap.ofJson?) expect⟩
  | _ => none

end TestVector

namespace Bench

/-- The fields of a bench. -/
def fieldNames : List String :=
  ["name", "description", "limits", "nor_policy", "netlist", "library", "vectors"]

/-- The JSON form of a bench. -/
def toJson (b : Bench) : Json :=
  .ofMembers [("name", .ofText b.name), ("description", .ofText b.description),
    ("limits", .natural b.limits), ("nor_policy", b.policy.toJson),
    ("netlist", b.netlist.toJson), ("library", .ofNameMap LibraryEntry.toJson b.library),
    ("vectors", .ofList TestVector.toJson b.vectors)]

/-- The bench that a JSON value stands for. -/
def ofJson? (j : Json) : Option Bench := do
  match ← j.fields? fieldNames with
  | [name, description, limits, policy, netlist, library, vectors] =>
    return {
      name := ← Json.required Json.text? name
      description := ← Json.withDefault "" Json.text? description
      limits := ← Json.withDefault defaultLimits Json.count? limits
      policy := ← Json.withDefault .legacy NorPolicy.ofJson? policy
      netlist := ← Json.required NetlistSource.ofJson? netlist
      library := ← Json.withDefault .empty (Json.nameMap? LibraryEntry.ofJson?) library
      vectors := ← Json.withDefault [] (Json.list? TestVector.ofJson?) vectors }
  | _ => none

end Bench

end LogicBlock
