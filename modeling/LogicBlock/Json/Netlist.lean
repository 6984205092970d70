/-
**The JSON forms of levels, names and netlists.**

Each type has a pair of functions, `toJson` and `ofJson?`.  Levels, directions and gate kinds are
written as their upper-case names, nor policies as their lower-case names, and a netlist as a record
of its four sections.

Main results:

* `Voltage.ofJson?_toJson` and its companions — **what is written is read back**.
-/

import LogicBlock.Gate
import LogicBlock.Json.Record
import LogicBlock.Netlist

set_option relaxedAutoImplicit false
set_option autoImplicit false

namespace LogicBlock

/-! ### Words -/

namespace Voltage

/-- The JSON form of a level. -/
def toJson (v : Voltage) : Json :=
  .ofText v.name

/-- The level that a JSON value stands for. -/
def ofJson? : Json → Option Voltage :=
  Json.word? ofName?

@[simp] theorem ofJson?_toJson (v : Voltage) : ofJson? v.toJson = some v :=
  ofName?_name v

end Voltage

namespace Direction

/-- The JSON form of a direction. -/
def toJson (d : Direction) : Json :=
  .ofText d.name

/-- The direction that a JSON value stands for. -/
def ofJson? : Json → Option Direction :=
  Json.word? ofName?

@[simp] theorem ofJson?_toJson (d : Direction) : ofJson? d.toJson = some d :=
  ofName?_name d

end Direction

namespace GateKind

/-- The JSON form of a gate kind. -/
def toJson (k : GateKind) : Json :=
  .ofText k.name

/-- The gate kind that a JSON value stands for. -/
def ofJson? : Json → Option GateKind :=
  Json.word? ofName?

@[simp] theorem ofJson?_toJson (k : GateKind) : ofJson? k.toJson = some k :=
  ofName?_name k

end GateKind

namespace NorPolicy

/-- The JSON form of a nor policy. -/
def toJson (p : NorPolicy) : Json :=
  .ofText p.name

/-- The nor policy that a JSON value stands for. -/
def ofJson? : Json → Option NorPolicy :=
  Json.word? ofName?

@[simp] theorem ofJson?_toJson (p : NorPolicy) : ofJson? p.toJson = some p :=
  ofName?_name p

end NorPolicy

/-! ### Pin maps -/

namespace PinMap

/-- The JSON form of a pin map. -/
def toJson (m : PinMap) : Json :=
  .ofNameMap Voltage.toJson m

/-- The pin map that a JSON value stands for. -/
def ofJson? : Json → Option PinMap :=
  Json.nameMap? Voltage.ofJson?

end PinMap

/-! ### Netlists -/

namespace Model

/-- The fields of a model. -/
def fieldNames : List String :=
  ["name", "type"]

/-- The JSON form of a model. -/
def toJson (m : Model) : Json :=
  .ofMembers [("name", .ofText m.name), ("type", .ofText m.type)]

/-- The model that a JSON value stands for. -/
def ofJson? (j : Json) : Option Model := do
  match ← j.fields? fieldNames with
  | [name, type] => return ⟨← Json.required Json.text? name, ← Json.required Json.text? type⟩
  | _ => none

end Model

namespace Net

/-- The fields of a net. -/
def fieldNames : List String :=
  ["name", "source", "destination"]

/-- The JSON form of a net. -/
def toJson (n : Net) : Json :=
  .ofMembers [("name", .ofText n.name), ("source", .ofText n.source),
    ("destination", .ofText n.destination)]

/-- The net that a JSON value stands for. -/
def ofJson? (j : Json) : Option Net := do
  match ← j.fields? fieldNames with
  | [name, source, destination] =>
    return ⟨← Json.required Json.text? name, ← Json.required Json.text? source,
      ← Json.required Json.text? destination⟩
  | _ => none

end Net

namespace Netlist

/-- The fields of a netlist. -/
def fieldNames : List String :=
  ["inputs", "outputs", "models", "nets"]

/-- The JSON form of a netlist. -/
def toJson (n : Netlist) : Json :=
  .ofMembers [("inputs", .ofList Direction.toJson n.inputs),
    ("outputs", .ofList Direction.toJson n.outputs), ("models", .ofList Model.toJson n.models),
    ("nets", .ofList Net.toJson n.nets)]

/-- The netlist that a JSON value stands for. -/
def ofJson? (j : Json) : Option Netlist := do
  match ← j.fields? fieldNames with
  | [inputs, outputs, models, nets] =>
    return ⟨← Json.required (Json.list? Direction.ofJson?) inputs,
      ← Json.required (Json.list? Direction.ofJson?) outputs,
      ← Json.required (Json.list? Model.ofJson?) models,
      ← Json.required (Json.list? Net.ofJson?) nets⟩
  | _ => none

end Netlist

end LogicBlock
