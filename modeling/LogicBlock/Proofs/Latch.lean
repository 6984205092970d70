/-
**The latch remembers.**

Two nor gates with the output of each among the inputs of the other form a loop that settles to what
its inputs call for only when one of them is high.  When both are low there are two ways to settle,
and the loop stays in the one in which it was.  That is the latch: a high level at one port stores a
bit, a high level at the other port stores the other bit, and low levels keep what is stored.

The two sides of the latch are mirror images, so what is said of a side is said once, with the side
as a Boolean: `true` is the side of the port that sets, `false` that of the port that resets.  Nor
is symmetric, also where it is not a Boolean function, so it does not matter that the two gates have
their inputs the other way round.

The invariant describes the loop and the outputs.  A low level at the port across the stored side
preserves it in every pass.  A high level at the port of a side, with a low one across, needs one
pass to reach the gate, one to get through it, and one to get through the gate across; then the
invariant holds, whatever the table has been before.  Two passes are not enough.

Main definitions:

* `Latch.Holds` — the invariant: the loop is in the state of a side, and shows it;
* `Latch.Command`, `Latch.stored`, `Latch.reading` — uses of a latch, what they store, and what the
  latch answers.

Main results:

* `Latch.parse_text` — the bundled text is read as `Bundled.latch`;
* `Latch.Holds.pass`, `Latch.holds_pass_three` — one pass keeps what is stored, three passes store;
* `Latch.holds_after` — **after every run** the loop holds what has been stored last;
* `Block.latch_remembers` — **the answers show what has been stored last**, under either policy and
  from any state.
-/

import LogicBlock.Bundled
import LogicBlock.Proofs.Readings
import LogicBlock.Proofs.RoundTrip
import LogicBlock.Proofs.Runs
import Mathlib.Data.List.Induction

set_option relaxedAutoImplicit false
set_option autoImplicit false

namespace LogicBlock

namespace Latch

/-! ### The bundled text -/

/-- **The bundled text describes the latch.**  It lacks the line that closes a netlist. -/
theorem parse_text : Netlist.parse Bundled.rsLatchText = .ok Bundled.latch := by
  have hwritable : Bundled.latch.Writable := by decide
  have htext : Bundled.rsLatchText = "\n".intercalate (Bundled.latch.lines.dropLast ++ [""]) := by
    decide +kernel
  rw [htext, hwritable.parse_unfinished]

/-! ### The two sides -/

/-- The port that a side listens to. -/
def port : Bool → String
  | true => "SOUTH"
  | false => "WEST"

/-- The pin of the gate of a side that the port leads to. -/
def input : Bool → String
  | true => "NOR1.0"
  | false => "NOR2.1"

/-- The pin of the gate of a side that the gate across leads to. -/
def feedback : Bool → String
  | true => "NOR1.1"
  | false => "NOR2.0"

/-- The port that shows what the gate of a side puts out. -/
def shown : Bool → String
  | true => "NORTH"
  | false => "EAST"

/-- The output pin of the gate of a side. -/
def output : Bool → String
  | true => "NOR1.2"
  | false => "NOR2.2"

/-- The gate of a side. -/
def gate (policy : NorPolicy) : Bool → Gate
  | true => ⟨"NOR1", .nor, policy⟩
  | false => ⟨"NOR2", .nor, policy⟩

theorem outputPin_gate (policy : NorPolicy) (q : Bool) : (gate policy q).outputPin = output q := by
  cases q <;> rfl

theorem nor_comm (policy : NorPolicy) (a b : Voltage) :
    GateKind.nor.apply policy a b = GateKind.nor.apply policy b a := by
  cases policy <;> cases a <;> cases b <;> rfl

@[simp] theorem nor_high (policy : NorPolicy) (a : Voltage) :
    GateKind.nor.apply policy .high a = .low := by
  cases policy <;> cases a <;> rfl

@[simp] theorem nor_high_right (policy : NorPolicy) (a : Voltage) :
    GateKind.nor.apply policy a .high = .low := by
  rw [nor_comm, nor_high]

@[simp] theorem nor_low_low (policy : NorPolicy) :
    GateKind.nor.apply policy .low .low = .high :=
  GateKind.apply_ofBool policy .nor false false

theorem level_gate (policy : NorPolicy) (q : Bool) (v : Valuation) :
    (gate policy q).level v = GateKind.nor.apply policy (v (input q)) (v (feedback q)) := by
  cases q with
  | true => rfl
  | false => exact nor_comm policy _ _

/-! ### One pass -/

section Pass

variable (c : Catalog) (name : String) (limits : Nat)

/-- The latch as a block, with the types of any catalog. -/
def design : Design :=
  c.design name Bundled.latch limits

theorem gatesOnly : (design c name limits).GatesOnly := by
  refine Netlist.GatesOnly.design (fun m hm _ => ?_) name limits
  have htype : ∀ m ∈ Bundled.latch.models, (GateKind.ofName? m.type).isSome := by decide
  exact htype m hm

theorem gates_design :
    (design c name limits).gates = [gate c.policy true, gate c.policy false] :=
  rfl

theorem fire_output (q : Bool) (v : Valuation) :
    Gate.fire (design c name limits).gates v (output q) =
      GateKind.nor.apply c.policy (v (input q)) (v (feedback q)) := by
  have hnames : ((design c name limits).gates.map Gate.name).Nodup :=
    (by decide : ["NOR1", "NOR2"].Nodup)
  have hgate : gate c.policy q ∈ (design c name limits).gates := by
    rw [gates_design]
    cases q <;> simp
  rw [← outputPin_gate c.policy q, Gate.fire_outputPin hnames hgate, level_gate]

theorem fire_port (q : Bool) (v : Valuation) :
    Gate.fire (design c name limits).gates v (port q) = v (port q) := by
  refine Gate.fire_of_notMem ?_ v
  rw [gates_design, List.map_cons, List.map_singleton, outputPin_gate, outputPin_gate]
  revert q
  decide

/-- The two ends of each net. -/
def ends : List (String × String) :=
  Bundled.latch.nets.map fun net => (net.source, net.destination)

/-- Every side has a net from its port, one from the gate across, and one to the port that shows
it. -/
theorem mem_ends : ∀ q, (port q, input q) ∈ ends ∧ (output !q, feedback q) ∈ ends ∧
    (output q, shown q) ∈ ends := by
  decide

/-- In a pass a net brings what is at its source when the gates have put out their levels. -/
theorem pass_destination {source destination : String} (h : (source, destination) ∈ ends)
    (v : Valuation) :
    (design c name limits).pass v destination =
      Gate.fire (design c name limits).gates v source := by
  obtain ⟨net, hnet, heq⟩ := List.mem_map.1 h
  cases heq
  have hdest : (Bundled.latch.nets.map Net.destination).Nodup := by decide
  have hsource : ∀ net ∈ Bundled.latch.nets,
      net.source ∉ Bundled.latch.nets.map Net.destination := by decide
  exact Net.carry_destination hdest hsource hnet _

/-- A pass leaves the ports alone that the latch listens to. -/
@[simp] theorem pass_port (q : Bool) (v : Valuation) :
    (design c name limits).pass v (port q) = v (port q) := by
  have hport : port q ∉ Bundled.latch.nets.map Net.destination := by
    revert q
    decide
  exact (Net.carry_of_notMem hport _).trans (fire_port c name limits q v)

@[simp] theorem pass_input (q : Bool) (v : Valuation) :
    (design c name limits).pass v (input q) = v (port q) := by
  rw [pass_destination c name limits (mem_ends q).1, fire_port]

@[simp] theorem pass_feedback (q : Bool) (v : Valuation) :
    (design c name limits).pass v (feedback q) =
      GateKind.nor.apply c.policy (v (input !q)) (v (feedback !q)) := by
  rw [pass_destination c name limits (mem_ends q).2.1, fire_output]

@[simp] theorem pass_shown (q : Bool) (v : Valuation) :
    (design c name limits).pass v (shown q) =
      GateKind.nor.apply c.policy (v (input q)) (v (feedback q)) := by
  rw [pass_destination c name limits (mem_ends q).2.2, fire_output]

end Pass

/-! ### The invariant -/

/-- The loop holds the bit of a side, and shows it: the gate across feeds back a high level, which
keeps the gate of the side low, and nothing but this low level arrives at the gate across. -/
structure Holds (q : Bool) (v : Valuation) : Prop where
  feedback : v (feedback q) = .high
  across : v (Latch.feedback !q) = .low
  idle : v (input !q) = .low
  shown : v (shown q) = .low
  shownAcross : v (Latch.shown !q) = .high

variable {c : Catalog} {name : String} {limits : Nat} {q : Bool} {v : Valuation}

/-- **One pass keeps what is stored**, as long as the port across is low. -/
theorem Holds.pass (h : Holds q v) (hport : v (port !q) = .low) :
    Holds q ((design c name limits).pass v) where
  feedback := by rw [pass_feedback, h.idle, h.across, nor_low_low]
  across := by rw [pass_feedback, Bool.not_not, h.feedback, nor_high_right]
  idle := by rw [pass_input, hport]
  shown := by rw [pass_shown, h.feedback, nor_high_right]
  shownAcross := by rw [pass_shown, h.idle, h.across, nor_low_low]

/-- **Three passes store** the bit of a side whose port is high, whatever there has been before. -/
theorem holds_pass_three (hport : v (port q) = .high) (hacross : v (port !q) = .low) :
    Holds q ((design c name limits).pass ((design c name limits).pass
      ((design c name limits).pass v))) := by
  -- the levels of the ports are at the gates after one pass, and stay there
  have hinput : (design c name limits).pass ((design c name limits).pass v) (input q) = .high := by
    rw [pass_input, pass_port, hport]
  have hidle : (design c name limits).pass ((design c name limits).pass v) (input !q) = .low := by
    rw [pass_input, pass_port, hacross]
  -- the gate of the side is low in the second pass, and so the gate across is high in the third
  have hlow : (design c name limits).pass ((design c name limits).pass v) (feedback !q) = .low := by
    rw [pass_feedback, Bool.not_not, pass_input, hport, nor_high]
  exact
    { feedback := by rw [pass_feedback, hidle, hlow, nor_low_low]
      across := by rw [pass_feedback, Bool.not_not, hinput, nor_high]
      idle := by rw [pass_input, pass_port, pass_port, hacross]
      shown := by rw [pass_shown, hinput, nor_high]
      shownAcross := by rw [pass_shown, hidle, hlow, nor_low_low] }

/-- Three passes or more store the bit. -/
theorem holds_repeat_pass (hport : v (port q) = .high) (hacross : v (port !q) = .low) {k : Nat}
    (hk : 3 ≤ k) : Holds q (Nat.repeat (design c name limits).pass k v) := by
  have hidle : ∀ k, Nat.repeat (design c name limits).pass k v (port !q) = .low := fun k =>
    repeat_induction (P := fun v : Valuation => v (port !q) = .low)
      (fun v hv => (pass_port c name limits (!q) v).trans hv) hacross k
  induction hk with
  | refl => exact holds_pass_three hport hacross
  | @step k _ ih => exact ih.pass (hidle k)

/-! ### Runs -/

/-- The three uses of a latch. -/
inductive Command where
  | set
  | reset
  | hold
  deriving DecidableEq

namespace Command

/-- The bit that a command stores, if any. -/
def bit? : Command → Option Bool
  | set => some true
  | reset => some false
  | hold => none

/-- The levels at the ports. -/
def assignment : Command → PinMap
  | set => .ofList [("SOUTH", .high), ("WEST", .low)]
  | reset => .ofList [("SOUTH", .low), ("WEST", .high)]
  | hold => .ofList [("SOUTH", .low), ("WEST", .low)]

/-- The call of a block. -/
def call (command : Command) : Call :=
  .settle command.assignment

end Command

/-- The bit that the last set or reset of a history has stored, if there has been one. -/
def stored (history : List Command) : Option Bool :=
  history.reverse.findSome? Command.bit?

/-- The answer of a latch that holds a bit: the bit itself, and its complement. -/
def reading (q : Bool) : PinMap :=
  .ofList [("EAST", .ofBool q), ("NORTH", .ofBool !q)]

theorem stored_concat (history : List Command) (command : Command) :
    stored (history ++ [command]) = command.bit?.or (stored history) := by
  rw [stored, List.reverse_append, List.reverse_singleton, List.findSome?_append]
  cases command <;> rfl

/-- A command assigns both ports, high to that of the bit that it stores. -/
theorem Command.get?_assignment_port (command : Command) (q : Bool) :
    command.assignment.get? (port q) = some (.ofBool (command.bit? = some q)) := by
  cases command <;> cases q <;> rfl

theorem Command.not_contains_assignment (command : Command) {pin : String}
    (hpin : ∀ q, pin ≠ port q) : ¬command.assignment.contains pin := by
  have hkeys : command.assignment.keys = [port true, port false] := by
    cases command <;> rfl
  rw [NameMap.contains, ← NameMap.mem_keys_iff, hkeys]
  simp [hpin]

/-- The invariant does not look at the ports that commands assign. -/
theorem Holds.congr (h : Holds q v) {w : Valuation}
    (hagree : ∀ pin, (∀ q, pin ≠ port q) → w pin = v pin) : Holds q w := by
  have hinner : ∀ q q',
      Latch.feedback q ≠ port q' ∧ input q ≠ port q' ∧ Latch.shown q ≠ port q' := by
    decide
  exact
    { feedback := (hagree _ fun q' => (hinner q q').1).trans h.feedback
      across := (hagree _ fun q' => (hinner (!q) q').1).trans h.across
      idle := (hagree _ fun q' => (hinner (!q) q').2.1).trans h.idle
      shown := (hagree _ fun q' => (hinner q q').2.2).trans h.shown
      shownAcross := (hagree _ fun q' => (hinner (!q) q').2.2).trans h.shownAcross }

/-- **A command that stores a bit** leaves the loop holding it, from any state. -/
theorem holds_settle (hlimits : 3 ≤ limits) {command : Command} (hbit : command.bit? = some q)
    (s : State) : Holds q ((design c name limits).settle command.assignment s).pins.read := by
  rw [Design.read_settle (gatesOnly c name limits)]
  refine holds_repeat_pass ?_ ?_ hlimits
  · rw [PinMap.read_assign, command.get?_assignment_port, hbit]
    simp [Voltage.ofBool]
  · rw [PinMap.read_assign, command.get?_assignment_port, hbit]
    simp [Voltage.ofBool]

/-- **A command that stores nothing** leaves the loop as it was. -/
theorem Holds.settle {command : Command} (hbit : command.bit? = none) {s : State}
    (h : Holds q s.pins.read) :
    Holds q ((design c name limits).settle command.assignment s).pins.read := by
  have hassigned : Holds q (s.pins.assign command.assignment).read :=
    h.congr fun pin hpin =>
      PinMap.read_assign_of_not_contains (command.not_contains_assignment hpin)
  have hport : (s.pins.assign command.assignment).read (port !q) = .low := by
    rw [PinMap.read_assign, command.get?_assignment_port, hbit]
    rfl
  rw [Design.read_settle (gatesOnly c name limits)]
  refine (repeat_induction (P := fun v : Valuation => Holds q v ∧ v (port !q) = .low)
    (fun v hv => ⟨hv.1.pass hv.2, ?_⟩) ⟨hassigned, hport⟩ _).1
  rw [pass_port, hv.2]

/-- **After every run the loop holds the bit that has been stored last.** -/
theorem holds_after (hlimits : 3 ≤ limits) (s : State) {history : List Command}
    (h : stored history = some q) :
    Holds q
      ((Block.mk (design c name limits) s).after (history.map Command.call)).state.pins.read := by
  induction history using List.reverseRecOn with
  | nil => cases h
  | append_singleton history command ih =>
      rw [stored_concat] at h
      rw [List.map_append, List.map_singleton, Command.call, Block.state_after_settle]
      cases hbit : command.bit? with
      | none =>
          rw [hbit] at h
          exact (ih h).settle hbit
      | some bit =>
          rw [hbit] at h
          exact holds_settle hlimits (hbit.trans h) _

/-! ### Answers -/

theorem Holds.read_shown (h : Holds q v) (side : Bool) :
    v (Latch.shown side) = .ofBool (side != q) := by
  by_cases hside : side = q
  · rw [hside, h.shown, bne_self_eq_false]
    rfl
  · rw [Bool.eq_not.2 hside, h.shownAcross, Bool.not_bne_self]
    rfl

/-- A reading has entries for the two output ports, and for nothing else. -/
theorem get?_reading (q side : Bool) :
    (reading q).get? (shown side) = some (.ofBool (side != q)) := by
  cases q <;> cases side <;> rfl

theorem get?_reading_of_ne {pin : String} (hpin : ∀ side, pin ≠ shown side) :
    (reading q).get? pin = none := by
  have hkeys : (reading q).keys = [shown false, shown true] := by
    cases q <;> rfl
  rw [← Option.not_isSome_iff_eq_none, ← NameMap.mem_keys_iff, hkeys]
  simp [hpin]

/-- **A loop that holds a bit shows it**, and nothing else. -/
theorem Holds.outputs_settle (hlimits : 0 < limits) {a : PinMap} {s : State}
    (h : Holds q ((design c name limits).settle a s).pins.read) :
    (design c name limits).outputs ((design c name limits).settle a s) = reading q := by
  have hports : (design c name limits).netlist.outputPins = [Latch.shown true, Latch.shown false] :=
    rfl
  refine NameMap.ext_get? fun pin => ?_
  rw [Design.outputs, PinMap.get?_restrictTo, hports]
  by_cases hpin : ∃ side, pin = Latch.shown side
  · obtain ⟨side, rfl⟩ := hpin
    have hdest : Latch.shown side ∈ (design c name limits).netlist.nets.map Net.destination :=
      (by decide : ∀ side, Latch.shown side ∈ Bundled.latch.nets.map Net.destination) side
    have hentry := Design.contains_settle_of_mem_destinations hlimits hdest a s
    rw [if_pos (by cases side <;> simp)]
    refine PinMap.get?_congr ?_ ?_
    · rw [hentry, NameMap.contains, get?_reading]
      rfl
    · rw [h.read_shown, PinMap.read, get?_reading]
      rfl
  · rw [not_exists] at hpin
    rw [get?_reading_of_ne hpin, if_neg (by simp [hpin])]

end Latch

/-- **The latch remembers.**  The bundled text describes it, and a block with this netlist and three
passes or more, under either policy and from any state, answers every call of a history, from the
first set or reset on, with the bit that the last set or reset has stored, and its complement. -/
theorem Block.latch_remembers (c : Catalog) (name : String) (limits : Nat) (hlimits : 3 ≤ limits)
    (s : State) :
    Netlist.parse Bundled.rsLatchText = .ok Bundled.latch ∧
      ∀ (history : List Latch.Command) (k : Nat) (q : Bool), k < history.length →
        Latch.stored (history.take (k + 1)) = some q →
        ((Block.mk (c.design name Bundled.latch limits) s).answers
          (history.map Latch.Command.call))[k]? = some (some (Latch.reading q)) := by
  refine ⟨Latch.parse_text, fun history k q hk hstored => ?_⟩
  have hholds : Latch.Holds q ((Block.mk (Latch.design c name limits) s).after
      ((history.take (k + 1)).map Latch.Command.call)).state.pins.read :=
    Latch.holds_after hlimits s hstored
  rw [List.take_succ_eq_append_getElem hk, List.map_append, List.map_singleton, Latch.Command.call,
    state_after_settle] at hholds
  have hcall : (history.map Latch.Command.call)[k]? = some (.settle history[k].assignment) := by
    rw [List.getElem?_map, List.getElem?_eq_getElem hk]
    rfl
  rw [getElem?_answers_of_settle _ hcall, ← List.map_take]
  exact congrArg (some ∘ some) (hholds.outputs_settle (Nat.lt_of_lt_of_le (by decide) hlimits))

namespace Latch

/-- A state in which both gates put out a high level. -/
def contradictory : State :=
  ⟨.ofList [("NOR1.2", .high), ("NOR2.2", .high)], []⟩

/-- A latch is held before anything is stored, then set, held twice and reset. -/
def history : List Command :=
  [.hold, .set, .hold, .hold, .reset]

end Latch

/-- The second hold after the set is answered with what was set. -/
theorem Block.latch_keeps_set :
    3 ≤ 4 ∧ 3 < Latch.history.length ∧ Latch.stored (Latch.history.take 4) = some true ∧
      ((Block.mk (Catalog.basic.design "latch" Bundled.latch 4) Latch.contradictory).answers
        (Latch.history.map Latch.Command.call))[3]? = some (some (Latch.reading true)) :=
  ⟨by decide, by decide, rfl,
    (latch_remembers Catalog.basic "latch" 4 (by decide) Latch.contradictory).2 Latch.history 3 true
      (by decide) rfl⟩

/-- Two passes are not enough: a reset after a set leaves both outputs low. -/
example : (Block.ofDesign (Catalog.basic.design "latch" Bundled.latch 2)).answers
    ([.set, .reset].map Latch.Command.call) =
      [some (Latch.reading true), some (.ofList [("EAST", .low), ("NORTH", .low)])] := by
  decide +kernel

end LogicBlock
