/-
**Designs: what a logic block is made of.**

A design is the part of a logic block that never changes: its netlist, the elements that its models
stand for, and the number of passes it is given to settle.  An element is a gate or, in turn, a
block with a design of its own, whose ports appear among the pins of the enclosing block as
`<name>.<DIRECTION>`.

What does change is kept apart, in a `State`: the pin table of the block and the states of its
elements, in the order of the elements.  A gate has no state, so its entry is inert.

Main definitions:

* `Design`, `Element` — a block and the elements inside it;
* `Element.inputPins`, `Element.outputPins` — the pins that an element reads and writes;
* `State` — pin tables at every level of nesting;
* `Design.cold` — the state of a block that has just been built;
* `Design.reset` — a state with every pin at every level set back to undefined.
-/

import LogicBlock.Gate
import LogicBlock.Netlist

set_option relaxedAutoImplicit false
set_option autoImplicit false

namespace LogicBlock

mutual

/-- An element of a block. -/
inductive Element where
  | gate (g : Gate)
  | composite (name type : String) (block : Design)

/-- The unchanging part of a block. -/
structure Design where
  name : String
  netlist : Netlist
  limits : Nat
  elements : List Element

end

namespace Element

/-- The name of the model that the element stands for. -/
def name : Element → String
  | gate g => g.name
  | composite name _ _ => name

/-- The type of the model that the element stands for. -/
def type : Element → String
  | gate g => g.kind.name
  | composite _ type _ => type

/-- The pins that the element reads. -/
def inputPins : Element → List String
  | gate g => g.inputPins
  | composite name _ block => block.netlist.inputs.map (Pin.port name)

/-- The pins that the element writes. -/
def outputPins : Element → List String
  | gate g => [g.outputPin]
  | composite name _ block => block.netlist.outputs.map (Pin.port name)

/-- The design of a nested block; a gate has none. -/
def block? : Element → Option Design
  | gate _ => none
  | composite _ _ block => some block

end Element

/-! ### States -/

/-- The pin table of a block, and the states of its elements in the order of the elements. -/
structure State where
  pins : PinMap
  parts : List State

namespace State

/-- The state without pins and without parts.  It also stands for the state of a gate. -/
def inert : State :=
  ⟨.empty, []⟩

instance : Inhabited State := ⟨inert⟩

end State

/-- The pin table of a block that has just been built: the ends of its nets, all undefined. -/
def Netlist.coldPins (n : Netlist) : PinMap :=
  NameMap.ofList (n.endpoints.map fun pin => (pin, Voltage.undefined))

/-- **The table of a new block lists the ends of its nets**, each of them undefined. -/
@[simp] theorem Netlist.get?_coldPins (n : Netlist) (pin : String) :
    n.coldPins.get? pin = if pin ∈ n.endpoints then some .undefined else none :=
  NameMap.get?_ofList_const n.endpoints Voltage.undefined pin

mutual

/-- The state of a block that has just been built. -/
def Design.cold : Design → State
  | ⟨_, netlist, _, elements⟩ => ⟨netlist.coldPins, Element.coldAll elements⟩

/-- The state of an element that has just been built. -/
def Element.cold : Element → State
  | .gate _ => .inert
  | .composite _ _ block => block.cold

/-- The states of elements that have just been built. -/
def Element.coldAll : List Element → List State
  | [] => []
  | e :: rest => e.cold :: Element.coldAll rest

end

mutual

/-- The state with every pin at every level of nesting undefined, and no pin forgotten. -/
def State.reset : State → State
  | ⟨pins, parts⟩ => ⟨pins.clear, State.resetAll parts⟩

/-- Resets every state of a list. -/
def State.resetAll : List State → List State
  | [] => []
  | s :: rest => s.reset :: State.resetAll rest

end

theorem Element.coldAll_eq_map (l : List Element) : Element.coldAll l = l.map Element.cold := by
  induction l with
  | nil => rfl
  | cons e rest ih => simp [Element.coldAll, ih]

theorem State.resetAll_eq_map (l : List State) : State.resetAll l = l.map State.reset := by
  induction l with
  | nil => rfl
  | cons s rest ih => simp [State.resetAll, ih]

/-! ### Nested blocks -/

/-- The nested blocks of a design in the order of the elements, each with its name, its design and
its part of the state. -/
def Design.nested (d : Design) (s : State) : List (String × Design × State) :=
  (d.elements.zip s.parts).filterMap fun part => do
    let block ← part.1.block?
    return (part.1.name, block, part.2)

end LogicBlock
