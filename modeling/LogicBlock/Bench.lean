/-
**Test benches.**

A bench describes a logic block together with the vectors that exercise it: the netlist of the
block, the number of passes it may take, the policy of its nor gates, a library of further blocks
that it may use as element types, and a list of test vectors.  A vector may state what it expects.

Main definitions:

* `NetlistSource`, `LibraryEntry`, `TestVector`, `Bench` — the data;
* `Outcome`, `Outcome.passed` — the result of a vector, and whether it is as expected.
-/

import LogicBlock.Gate

set_option relaxedAutoImplicit false
set_option autoImplicit false

namespace LogicBlock

/-- Where the text of a netlist is found. -/
inductive NetlistSource where
  /-- In a file. -/
  | path (p : String)
  /-- In the bench itself. -/
  | inline (text : String)
  deriving DecidableEq

/-- The number of passes where none is given. -/
def Bench.defaultLimits : Nat :=
  5

/-- A block that a bench makes available as an element type. -/
structure LibraryEntry where
  netlist : NetlistSource
  limits : Nat := Bench.defaultLimits
  deriving DecidableEq

/-- An assignment, and the outputs that it should lead to. -/
structure TestVector where
  inputs : PinMap
  expect : Option PinMap := none
  deriving DecidableEq

/-- The description of a block and of its tests. -/
structure Bench where
  name : String
  description : String := ""
  limits : Nat := Bench.defaultLimits
  policy : NorPolicy := .legacy
  netlist : NetlistSource
  library : NameMap LibraryEntry := .empty
  vectors : List TestVector := []
  deriving DecidableEq

/-- The result of applying a test vector. -/
structure Outcome where
  inputs : PinMap
  outputs : PinMap
  expected : Option PinMap
  deriving DecidableEq

/-- An outcome passes when every expected pin is an output with the expected level.  A vector that
expects nothing passes. -/
def Outcome.passed (o : Outcome) : Bool :=
  match o.expected with
  | some expected => expected.entries.all fun e => o.outputs.get? e.1 == some e.2
  | none => true

end LogicBlock
