/-
**The bundled benches.**

Three small blocks that need no files: a single gate, a one-bit full adder, and a latch of two
cross-coupled nor gates.

Main definitions:

* `Bundled.andGateText`, `Bundled.fullAdderText`, `Bundled.rsLatchText` — the netlists;
* `Bundled.latch` — what the text of the latch describes;
* `Bundled.benches` — the benches, in the order in which they run.
-/

import LogicBlock.Bench
import LogicBlock.Netlist

set_option relaxedAutoImplicit false
set_option autoImplicit false

namespace LogicBlock

namespace Bundled

/-- The netlist of a single and gate. -/
def andGateText : String :=
  "NETLIST\n$INPUTS\nNORTH\nSOUTH\n$OUTPUTS\nUP\n$MODELS\nAND1; AND\n$NETS\n" ++
    "NET1; NORTH AND1.0\nNET2; SOUTH AND1.1\nNET3; AND1.2 UP\n$END\n"

/-- The netlist of a full adder: two xor gates make the sum, two and gates and an or gate the
carry. -/
def fullAdderText : String :=
  "NETLIST\n$INPUTS\nNORTH\nSOUTH\nWEST\n$OUTPUTS\nEAST\nUP\n$MODELS\nXOR1; XOR\nXOR2; XOR\n" ++
    "AND1; AND\nAND2; AND\nOR1; OR\n$NETS\nNET1; NORTH XOR1.0\nNET2; SOUTH XOR1.1\n" ++
    "NET3; XOR1.2 XOR2.0\nNET4; WEST XOR2.1\nNET5; XOR2.2 EAST\nNET6; XOR1.2 AND1.0\n" ++
    "NET7; WEST AND1.1\nNET8; NORTH AND2.0\nNET9; SOUTH AND2.1\nNET10; AND1.2 OR1.0\n" ++
    "NET11; AND2.2 OR1.1\nNET12; OR1.2 UP\n$END\n"

/-- The netlist of a latch: two nor gates, each with the output of the other as an input. -/
def rsLatchText : String :=
  "NETLIST\n$INPUTS\nSOUTH\nWEST\n$OUTPUTS\nNORTH\nEAST\n$MODELS\nNOR1; NOR\nNOR2; NOR\n$NETS\n" ++
    "NET1; SOUTH NOR1.0\nNET2; WEST NOR2.1\nNET3; NOR1.2 NOR2.0\nNET4; NOR2.2 NOR1.1\n" ++
    "NET5; NOR1.2 NORTH\nNET6; NOR2.2 EAST\n"

/-- The netlist that the text of the latch describes. -/
def latch : Netlist where
  inputs := [.south, .west]
  outputs := [.north, .east]
  models := [⟨"NOR1", "NOR"⟩, ⟨"NOR2", "NOR"⟩]
  nets := [⟨"NET1", "SOUTH", "NOR1.0"⟩, ⟨"NET2", "WEST", "NOR2.1"⟩, ⟨"NET3", "NOR1.2", "NOR2.0"⟩,
    ⟨"NET4", "NOR2.2", "NOR1.1"⟩, ⟨"NET5", "NOR1.2", "NORTH"⟩, ⟨"NET6", "NOR2.2", "EAST"⟩]

/-- A vector of truth values: what is assigned, and what is expected. -/
def vector (inputs expect : List (Direction × Bool)) : TestVector :=
  ⟨pins inputs, some (pins expect)⟩
where
  /-- The pin map of truth values at ports. -/
  pins (ports : List (Direction × Bool)) : PinMap :=
    .ofList (ports.map fun p => (p.1.name, .ofBool p.2))

/-- The two truth values, in the order in which truth tables list them. -/
def bits : List Bool :=
  [false, true]

/-- The bench of the single and gate: its truth table. -/
def andGate : Bench where
  name := "and_gate"
  description := "Single AND gate between NORTH/SOUTH and UP"
  netlist := .inline andGateText
  vectors :=
    bits.flatMap fun a => bits.map fun b => vector [(.north, a), (.south, b)] [(.up, a && b)]

/-- The bench of the full adder: its truth table. -/
def fullAdder : Bench where
  name := "full_adder"
  description :=
    "One-bit full adder: NORTH + SOUTH + WEST (carry in) -> EAST (sum), UP (carry out)"
  netlist := .inline fullAdderText
  vectors :=
    bits.flatMap fun a => bits.flatMap fun b => bits.map fun c =>
      vector [(.north, a), (.south, b), (.west, c)]
        [(.east, (a ^^ b) ^^ c), (.up, a && b || a && c || b && c)]

/-- The bench of the latch: set, hold, reset, hold. -/
def rsLatch : Bench where
  name := "rs_latch"
  description := "Cross-coupled NOR latch: SOUTH = set, WEST = reset, EAST = Q, NORTH = not Q"
  netlist := .inline rsLatchText
  vectors := [step true false true, step false false true, step false true false,
    step false false false]
where
  /-- A vector that sets, resets or holds, and the state that it should lead to. -/
  step (set reset state : Bool) : TestVector :=
    vector [(.south, set), (.west, reset)] [(.north, !state), (.east, state)]

/-- The bundled benches. -/
def benches : List Bench :=
  [andGate, fullAdder, rsLatch]

end Bundled

end LogicBlock
