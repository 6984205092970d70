/-
**Settlement: running a block for a fixed number of passes.**

To settle, a block writes an assignment into its pin table and then runs as many relaxation passes
as its design allows.  A pass evaluates the elements in their order, each one writing its outputs
back at once, and then copies every net from its source to its destination, in the order of the
nets.  Every write is seen by all that follows in the same pass.  Nothing checks whether the block
has settled: after the last pass it holds what it holds.

A nested block is evaluated by settling it in turn, so a pass of the outer block takes all the
passes of the inner one, and the inner pin table lives on from one pass to the next.

Main definitions:

* `Netlist.propagate` — the copying of the nets;
* `Design.settle` — the state of a block after settling under an assignment;
* `Element.evaluate` — what an element writes, and its state afterwards;
* `Element.evaluateAll` — the evaluation of the elements of a block, one after the other;
* `Design.relax` — one pass;
* `Design.outputs` — the output ports that have an entry in the pin table.

Main results:

* `Design.settle_eq` — **settling is assigning and then relaxing**, `limits` times;
* `Element.evaluateAll_cons` — the order of evaluation, element by element;
* `Netlist.get?_portAssignment_eq_some_iff`, `Netlist.get?_portResults_eq_some_iff` — what passes
  between a nested block and its surroundings.
-/

import LogicBlock.Design

set_option relaxedAutoImplicit false
set_option autoImplicit false

namespace LogicBlock

/-- Copies every net from its source to its destination, one net after the other. -/
def Netlist.propagate (n : Netlist) (pins : PinMap) : PinMap :=
  n.nets.foldl (fun pins net => pins.copy net.source net.destination) pins

namespace Netlist

/-- The assignment that a nested block called `name` receives: its input ports, with the levels of
its pins in the enclosing table. -/
def portAssignment (n : Netlist) (name : String) (pins : PinMap) : PinMap :=
  NameMap.ofList (n.inputs.map fun d => (d.name, pins.read (Pin.port name d)))

/-- What a nested block called `name` writes into the enclosing table: those of its output ports
that have an entry in its own table. -/
def portResults (n : Netlist) (name : String) (inner : PinMap) : PinMap :=
  NameMap.ofList (n.outputs.filterMap fun d =>
    (inner.get? d.name).map fun v => (Pin.port name d, v))

/-- A nested block is assigned its input ports, as the enclosing table reads. -/
theorem get?_portAssignment_eq_some_iff (n : Netlist) (name : String) (pins : PinMap)
    (key : String) (v : Voltage) :
    (n.portAssignment name pins).get? key = some v ↔
      ∃ d ∈ n.inputs, d.name = key ∧ pins.read (Pin.port name d) = v := by
  rw [portAssignment, NameMap.get?_ofList_eq_some_iff]
  · simp [List.mem_map]
  · intro k v w hv hw
    simp only [List.mem_map, Prod.mk.injEq] at hv hw
    obtain ⟨d, -, hd, rfl⟩ := hv
    obtain ⟨e, -, he, rfl⟩ := hw
    rw [Direction.name_injective (hd.trans he.symm)]

/-- A nested block writes its output ports, as far as they are in its own table. -/
theorem get?_portResults_eq_some_iff (n : Netlist) (name : String) (inner : PinMap) (key : String)
    (v : Voltage) :
    (n.portResults name inner).get? key = some v ↔
      ∃ d ∈ n.outputs, Pin.port name d = key ∧ inner.get? d.name = some v := by
  have hmem : ∀ k w, (k, w) ∈ (n.outputs.filterMap fun d =>
      (inner.get? d.name).map fun v => (Pin.port name d, v)) ↔
      ∃ d ∈ n.outputs, Pin.port name d = k ∧ inner.get? d.name = some w := by
    intro k w
    simp only [List.mem_filterMap, Option.map_eq_some_iff, Prod.mk.injEq]
    constructor
    · rintro ⟨d, hd, u, hu, rfl, rfl⟩
      exact ⟨d, hd, rfl, hu⟩
    · rintro ⟨d, hd, rfl, hu⟩
      exact ⟨d, hd, w, hu, rfl, rfl⟩
  rw [portResults, NameMap.get?_ofList_eq_some_iff, hmem]
  intro k v w hv hw
  obtain ⟨d, -, hd, hv⟩ := (hmem k v).1 hv
  obtain ⟨e, -, he, hw⟩ := (hmem k w).1 hw
  obtain ⟨-, rfl⟩ := Pin.port_inj.1 (hd.trans he.symm)
  exact Option.some.inj (hv.symm.trans hw)

end Netlist

mutual

/-- **The state of a block after settling** under an assignment. -/
def Design.settle : Design → PinMap → State → State
  | ⟨_, netlist, limits, elements⟩, assignment, state =>
    Nat.repeat
      (fun s =>
        let next := Element.evaluateAll elements s
        { next with pins := netlist.propagate next.pins })
      limits { state with pins := state.pins.assign assignment }

/-- What an element writes for the levels in the table of its block, and its state afterwards. -/
def Element.evaluate : Element → PinMap → State → PinMap × State
  | .gate g, pins, state => (g.evaluate pins, state)
  | .composite name _ block, pins, state =>
    let next := block.settle (block.netlist.portAssignment name pins) state
    (block.netlist.portResults name next.pins, next)

/-- Evaluates elements one after the other, each one writing its outputs back at once.  The parts of
the state belong to the elements in their order; where a part is missing it counts as inert. -/
def Element.evaluateAll : List Element → State → State
  | [], state => ⟨state.pins, []⟩
  | e :: rest, state =>
    let (results, part) := e.evaluate state.pins (state.parts.headD .inert)
    let next := Element.evaluateAll rest ⟨state.pins.assign results, state.parts.tail⟩
    ⟨next.pins, part :: next.parts⟩

end

namespace Design

/-- One pass: the elements, then the nets. -/
def relax (d : Design) (s : State) : State :=
  let next := Element.evaluateAll d.elements s
  { next with pins := d.netlist.propagate next.pins }

/-- **Settling is assigning and then relaxing**, as often as the design allows. -/
theorem settle_eq (d : Design) (assignment : PinMap) (s : State) :
    d.settle assignment s =
      Nat.repeat d.relax d.limits { s with pins := s.pins.assign assignment } := by
  cases d
  rfl

/-- The pins of the output ports, as far as the table has an entry for them. -/
def outputs (d : Design) (s : State) : PinMap :=
  s.pins.restrictTo d.netlist.outputPins

end Design

namespace Element

@[simp] theorem evaluate_gate (g : Gate) (pins : PinMap) (s : State) :
    (gate g).evaluate pins s = (g.evaluate pins, s) :=
  rfl

@[simp] theorem evaluateAll_nil (s : State) : evaluateAll [] s = ⟨s.pins, []⟩ :=
  rfl

/-- The first element writes its results before the others are evaluated. -/
theorem evaluateAll_cons (e : Element) (rest : List Element) (s : State) :
    evaluateAll (e :: rest) s =
      let r := e.evaluate s.pins (s.parts.headD .inert)
      let next := evaluateAll rest ⟨s.pins.assign r.1, s.parts.tail⟩
      ⟨next.pins, r.2 :: next.parts⟩ :=
  rfl

end Element

end LogicBlock
