/-
**Running the vectors of a bench.**

The vectors are applied in order to one and the same block, so what one vector leaves behind is
there for the next.

Main definitions:

* `TestVector.apply` — one vector: its outcome, and the block afterwards;
* `LoadedBench.run`, `LoadedBench.reset` — all vectors, and a reset of the block.
-/

import LogicBlock.Bench.Build

set_option relaxedAutoImplicit false
set_option autoImplicit false

namespace LogicBlock

/-- Applies one vector to a block. -/
def TestVector.apply (v : TestVector) (b : Block) : Outcome × Block :=
  let (outputs, next) := b.settle v.inputs
  (⟨v.inputs, outputs, v.expect⟩, next)

/-- Applies vectors in order to one block. -/
def TestVector.applyAll (b : Block) : List TestVector → List Outcome × Block
  | [] => ([], b)
  | v :: rest =>
    let (outcome, next) := v.apply b
    let (outcomes, last) := applyAll next rest
    (outcome :: outcomes, last)

namespace LoadedBench

/-- Applies every vector of the bench. -/
def run (l : LoadedBench) : List Outcome × LoadedBench :=
  let (outcomes, block) := TestVector.applyAll l.block l.bench.vectors
  (outcomes, { l with block })

/-- Resets the block. -/
def reset (l : LoadedBench) : LoadedBench :=
  { l with block := l.block.reset }

end LoadedBench

end LogicBlock
