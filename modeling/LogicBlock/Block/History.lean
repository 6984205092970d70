/-
**Histories of calls.**

A live block is used by calling it: to settle under an assignment, to evaluate on the table of an
enclosing block, to reset.  A history is a list of calls, made one after the other on one block.

Main definitions:

* `Call`, `Block.call` — one call: what it returns, if anything, and the block afterwards;
* `Block.after` — the block after a history;
* `Block.answers` — what the calls of a history return.
-/

import LogicBlock.Block

set_option relaxedAutoImplicit false
set_option autoImplicit false

namespace LogicBlock

/-- A use of a block. -/
inductive Call where
  | settle (assignment : PinMap)
  | evaluate (pins : PinMap)
  | reset
  deriving DecidableEq

namespace Block

/-- Makes one call.  A reset returns nothing. -/
def call (b : Block) : Call → Option PinMap × Block
  | .settle assignment =>
    let (outputs, next) := b.settle assignment
    (some outputs, next)
  | .evaluate pins =>
    let (outputs, next) := b.evaluate pins
    (some outputs, next)
  | .reset => (none, b.reset)

/-- The block after a history. -/
def after (b : Block) (history : List Call) : Block :=
  history.foldl (fun b c => (b.call c).2) b

/-- What the calls of a history return, in order. -/
def answers (b : Block) : List Call → List (Option PinMap)
  | [] => []
  | c :: rest => (b.call c).1 :: (b.call c).2.answers rest

@[simp] theorem after_nil (b : Block) : b.after [] = b :=
  rfl

@[simp] theorem after_cons (b : Block) (c : Call) (rest : List Call) :
    b.after (c :: rest) = (b.call c).2.after rest :=
  rfl

theorem after_append (b : Block) (first second : List Call) :
    b.after (first ++ second) = (b.after first).after second :=
  List.foldl_append

/-- **No call changes the design of a block.** -/
@[simp] theorem call_design (b : Block) (c : Call) : (b.call c).2.design = b.design := by
  cases c <;> rfl

@[simp] theorem after_design (b : Block) (history : List Call) :
    (b.after history).design = b.design := by
  induction history generalizing b with
  | nil => rfl
  | cons c rest ih => rw [after_cons, ih, call_design]

end Block

end LogicBlock
