/-
**Netlists.**

A netlist describes a logic block: the faces it takes signals from, the faces it drives, its named
models (gate instances and nested blocks) and the nets between pins.  A net carries the level at its
source to its destination.  Nothing is assumed about the names: models may repeat a name, and a net
may mention a pin that nothing has.

Main definitions:

* `Model`, `Net`, `Netlist` — the data;
* `Netlist.model?`, `Netlist.inputPins`, `Netlist.outputPins`, `Netlist.endpoints` — looking at it;
* `Marker` — the marker lines that frame the written form;
* `Netlist.render` — the written form of a netlist.
-/

import LogicBlock.Direction

set_option relaxedAutoImplicit false
set_option autoImplicit false

namespace LogicBlock

/-- A named element; its type is a gate kind or the name of a block type. -/
structure Model where
  name : String
  type : String
  deriving DecidableEq

/-- A named wire from a source pin to a destination pin. -/
structure Net where
  name : String
  source : String
  destination : String
  deriving DecidableEq

/-- The description of a logic block. -/
structure Netlist where
  inputs : List Direction := []
  outputs : List Direction := []
  models : List Model := []
  nets : List Net := []
  deriving DecidableEq

namespace Netlist

instance : Inhabited Netlist := ⟨{}⟩

/-- The first model with a given name. -/
def model? (n : Netlist) (name : String) : Option Model :=
  n.models.find? (·.name = name)

/-- The pins of the input ports, in the order of their declaration. -/
def inputPins (n : Netlist) : List String :=
  n.inputs.map Direction.name

/-- The pins of the output ports, in the order of their declaration. -/
def outputPins (n : Netlist) : List String :=
  n.outputs.map Direction.name

/-- The two ends of every net. -/
def endpoints (n : Netlist) : List String :=
  n.nets.flatMap fun net => [net.source, net.destination]

end Netlist

/-! ### The written form -/

/-- The lines that frame the sections of a written netlist, in the order in which they come. -/
inductive Marker where
  | netlist
  | inputs
  | outputs
  | models
  | nets
  | finish
  deriving DecidableEq

namespace Marker

/-- The markers. -/
def all : List Marker :=
  [netlist, inputs, outputs, models, nets, finish]

/-- The line that a marker is written as. -/
def text : Marker → String
  | netlist => "NETLIST"
  | inputs => "$INPUTS"
  | outputs => "$OUTPUTS"
  | models => "$MODELS"
  | nets => "$NETS"
  | finish => "$END"

/-- The marker that a line is, if it is one. -/
def ofText? (line : String) : Option Marker :=
  all.find? (·.text = line)

@[simp] theorem mem_all (m : Marker) : m ∈ all := by
  cases m <;> simp [all]

@[simp] theorem ofText?_text (m : Marker) : ofText? m.text = some m := by
  cases m <;> rfl

/-- **A line is a marker exactly when it is the marker's text.** -/
theorem ofText?_eq_some_iff {line : String} {m : Marker} :
    ofText? line = some m ↔ line = m.text := by
  constructor
  · intro h
    have := List.find?_some h
    exact (by simpa using this : m.text = line).symm
  · rintro rfl
    exact ofText?_text m

end Marker

/-- The line of a model: its name and its type. -/
def Model.render (m : Model) : String :=
  m.name ++ "; " ++ m.type

/-- The line of a net: its name, its source and its destination. -/
def Net.render (n : Net) : String :=
  n.name ++ "; " ++ n.source ++ " " ++ n.destination

namespace Netlist

/-- The lines of a written netlist: each marker, then the records of its section. -/
def lines (n : Netlist) : List String :=
  [Marker.netlist.text, Marker.inputs.text] ++ n.inputs.map Direction.name ++
    [Marker.outputs.text] ++ n.outputs.map Direction.name ++
    [Marker.models.text] ++ n.models.map Model.render ++
    [Marker.nets.text] ++ n.nets.map Net.render ++ [Marker.finish.text]

/-- The written form of a netlist.  The last line has no line feed. -/
def render (n : Netlist) : String :=
  "\n".intercalate n.lines

end Netlist

end LogicBlock
