/-
**Live blocks.**

A live block is a design together with its present state.  It takes assignments one after the other
and keeps its state in between, which is how latches remember.

Main definitions:

* `Block`, `Block.ofDesign` — live blocks, and the one that has just been built;
* `Block.settle` — applying an assignment;
* `Block.evaluate` — the same, as an element would: taking the input ports from a pin table;
* `Block.reset` — undefined pins at every level of nesting.
-/

import LogicBlock.Settlement

set_option relaxedAutoImplicit false
set_option autoImplicit false

namespace LogicBlock

/-- A design in use. -/
structure Block where
  design : Design
  state : State

namespace Block

/-- The block that has just been built. -/
def ofDesign (d : Design) : Block :=
  ⟨d, d.cold⟩

/-- The pin table of the block. -/
def pins (b : Block) : PinMap :=
  b.state.pins

/-- Settles under an assignment.  The result holds the output ports. -/
def settle (b : Block) (assignment : PinMap) : PinMap × Block :=
  let state := b.design.settle assignment b.state
  (b.design.outputs state, { b with state })

/-- Settles with those input ports that have an entry in a pin table. -/
def evaluate (b : Block) (pins : PinMap) : PinMap × Block :=
  b.settle (pins.restrictTo b.design.netlist.inputPins)

/-- Makes every pin undefined, at every level of nesting. -/
def reset (b : Block) : Block :=
  { b with state := b.state.reset }

@[simp] theorem settle_design (b : Block) (assignment : PinMap) :
    (b.settle assignment).2.design = b.design :=
  rfl

@[simp] theorem settle_state (b : Block) (assignment : PinMap) :
    (b.settle assignment).2.state = b.design.settle assignment b.state :=
  rfl

@[simp] theorem reset_design (b : Block) : b.reset.design = b.design :=
  rfl

end Block

end LogicBlock
