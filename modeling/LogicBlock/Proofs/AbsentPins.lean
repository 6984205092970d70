/-
**Pins that a table does not list.**

A pin without an entry reads as undefined.  So two tables can show the same level at every pin and
yet differ: where the one lists a pin as undefined, the other does not list it at all.  A gate and a
nested block read levels, and for them such tables are the same, in whatever state they are.

A block that is evaluated by itself does see a difference.  It is assigned those of its input ports
that the table lists.  A port that is listed as undefined becomes undefined, and a port that is
missing keeps what an earlier call has left there.  The two come to the same when the port is listed
as undefined in the table of the block anyway, as it is in a new block with a net at the port; and
if no net ends in an input port, they do not come to the same in any other case.

Main definitions:

* `Block.CannotTell` — where only one of two tables lists an input port, the block has it as
  undefined.

Main results:

* `PinMap.Alike.get?_assign_restrictTo_eq_iff` — when it makes no difference whether a missing pin
  is assigned;
* `Block.evaluate_eq_of_cannotTell`, `Block.cannotTell_of_evaluate_eq` — and when a block gives the
  same;
* `Block.alike_tables_evaluate_alike` — **elements never tell tables apart that read alike, and
  blocks do not as long as the ports that are missing are undefined**;
* `Block.warm_relay_tells_missing_port` — a block in use can tell them apart.
-/

import LogicBlock.Proofs.ColdStart
import LogicBlock.Proofs.Entries

set_option relaxedAutoImplicit false
set_option autoImplicit false

namespace LogicBlock

/-! ### Tables that read alike, assigned -/

namespace PinMap

variable {m m' : PinMap} {pin : String}

/-- To list a missing pin as undefined makes no difference to what is read. -/
theorem alike_insert_undefined (h : ¬m.contains pin) : m.Alike (m.insert pin .undefined) := by
  intro other
  rw [read_insert]
  split
  · rename_i heq
    rw [heq, read_of_not_contains h]
  · rfl

/-- A pin that reads the same in two tables makes the same entry in a third one, unless only one of
them lists it, and the third one does not have it as undefined. -/
theorem or_get?_eq_iff (hread : m.read pin = m'.read pin) (before : Option Voltage) :
    (m.get? pin).or before = (m'.get? pin).or before ↔
      (m.contains pin ≠ m'.contains pin → before = some .undefined) := by
  rw [read, read] at hread
  rw [NameMap.contains, NameMap.contains]
  cases hm : m.get? pin with
  | none =>
      cases hm' : m'.get? pin with
      | none => simp
      | some v =>
          rw [hm, hm', Option.getD_none, Option.getD_some] at hread
          simp [← hread]
  | some v =>
      cases hm' : m'.get? pin with
      | none =>
          rw [hm, hm', Option.getD_none, Option.getD_some] at hread
          simp [hread, eq_comm]
      | some w =>
          rw [hm, hm', Option.getD_some, Option.getD_some] at hread
          simp [hread]

/-- The same for the pins that are picked out of two tables and assigned. -/
theorem Alike.get?_assign_restrictTo_eq_iff (h : m.Alike m') (before : PinMap) {pins : List String}
    (hpin : pin ∈ pins) :
    (before.assign (m.restrictTo pins)).get? pin = (before.assign (m'.restrictTo pins)).get? pin ↔
      (m.contains pin ≠ m'.contains pin → before.get? pin = some .undefined) := by
  rw [get?_assign, get?_assign, get?_restrictTo, get?_restrictTo, if_pos hpin, if_pos hpin]
  exact or_get?_eq_iff (h pin) (before.get? pin)

/-- **Tables that read alike assign the same**, if each pin that only one of them lists is undefined
anyway. -/
theorem Alike.assign_restrictTo_eq (h : m.Alike m') {before : PinMap} {pins : List String}
    (hbefore : ∀ pin ∈ pins, m.contains pin ≠ m'.contains pin →
      before.get? pin = some .undefined) :
    before.assign (m.restrictTo pins) = before.assign (m'.restrictTo pins) := by
  refine NameMap.ext_get? fun pin => ?_
  by_cases hpin : pin ∈ pins
  · exact (h.get?_assign_restrictTo_eq_iff before hpin).2 (hbefore pin hpin)
  · rw [get?_assign, get?_assign, get?_restrictTo, get?_restrictTo, if_neg hpin, if_neg hpin]

end PinMap

/-! ### Blocks that are evaluated by themselves -/

namespace Block

/-- Where only one of the tables lists an input port, the block has the port as undefined. -/
def CannotTell (b : Block) (m m' : PinMap) : Prop :=
  ∀ pin ∈ b.design.netlist.inputPins, m.contains pin ≠ m'.contains pin →
    b.pins.get? pin = some .undefined

instance (b : Block) (m m' : PinMap) : Decidable (b.CannotTell m m') :=
  inferInstanceAs (Decidable (∀ pin ∈ b.design.netlist.inputPins,
    m.contains pin ≠ m'.contains pin → b.pins.get? pin = some .undefined))

variable {b : Block} {m m' : PinMap}

theorem evaluate_eq_of_cannotTell (h : m.Alike m') (hb : b.CannotTell m m') :
    b.evaluate m = b.evaluate m' := by
  have hassign : b.state.pins.assign (m.restrictTo b.design.netlist.inputPins) =
      b.state.pins.assign (m'.restrictTo b.design.netlist.inputPins) := h.assign_restrictTo_eq hb
  rw [evaluate, evaluate, settle, settle, Design.settle_eq, Design.settle_eq, hassign]

/-- An input port where no net ends shows in the end what it has been assigned. -/
theorem get?_evaluate_port {port : Direction}
    (hend : port.name ∉ b.design.netlist.nets.map Net.destination) (m : PinMap) :
    (b.evaluate m).2.pins.get? port.name =
      (b.pins.assign (m.restrictTo b.design.netlist.inputPins)).get? port.name := by
  refine Design.get?_settle_of_notMem (fun hwritten => ?_) _ b.state
  rcases List.mem_append.1 hwritten with hdest | hout
  · exact hend hdest
  · obtain ⟨e, -, hout⟩ := List.mem_flatMap.1 hout
    exact Element.name_notMem_outputPins port e hout

theorem cannotTell_of_evaluate_eq (h : m.Alike m')
    (hends : ∀ pin ∈ b.design.netlist.inputPins, pin ∉ b.design.netlist.nets.map Net.destination)
    (heq : (b.evaluate m).2.pins = (b.evaluate m').2.pins) : b.CannotTell m m' := by
  intro pin hpin
  rw [← h.get?_assign_restrictTo_eq_iff b.pins hpin]
  obtain ⟨port, -, rfl⟩ := List.mem_map.1 hpin
  rw [← get?_evaluate_port (hends _ hpin), ← get?_evaluate_port (hends _ hpin), heq]

/-- **Tables that read alike are evaluated alike** by every gate and every nested block, in every
state.  A block that is evaluated by itself does the same, and comes into the same state, if it has
as undefined every input port that only one of the tables lists; and if no net ends in an input
port, in no other case. -/
theorem alike_tables_evaluate_alike (m m' : PinMap) (h : m.Alike m') :
    (∀ (e : Element) (s : State), e.evaluate m s = e.evaluate m' s) ∧
    (∀ b : Block, b.CannotTell m m' → b.evaluate m = b.evaluate m') ∧
    ∀ b : Block,
      (∀ pin ∈ b.design.netlist.inputPins, pin ∉ b.design.netlist.nets.map Net.destination) →
        b.evaluate m = b.evaluate m' → b.CannotTell m m' := by
  refine ⟨fun e s => Element.evaluate_congr (fun pin _ => h pin) s,
    fun b => evaluate_eq_of_cannotTell h, fun b hends heq => ?_⟩
  exact cannotTell_of_evaluate_eq h hends (congrArg (fun result => result.2.pins) heq)

end Block

namespace Relay

/-- The port of the relay, listed as undefined. -/
def listed : PinMap :=
  NameMap.empty.insert "NORTH" .undefined

/-- A relay that has just been built. -/
def fresh : Block :=
  .ofDesign (Catalog.basic.design "relay" Stray.relay 1)

/-- The same relay after it has been evaluated with its port high. -/
def warm : Block :=
  fresh.after [.evaluate (.ofList [("NORTH", .high)])]

end Relay

/-- A new relay does not tell a missing port from an undefined one. -/
theorem Block.fresh_relay_cannot_tell :
    PinMap.Alike .empty Relay.listed ∧ Relay.fresh.CannotTell .empty Relay.listed ∧
      Relay.fresh.evaluate .empty = Relay.fresh.evaluate Relay.listed :=
  have halike : PinMap.Alike .empty Relay.listed := PinMap.alike_insert_undefined (by decide)
  have hcannot : Relay.fresh.CannotTell .empty Relay.listed := by decide +kernel
  ⟨halike, hcannot, (alike_tables_evaluate_alike _ _ halike).2.1 Relay.fresh hcannot⟩

/-- **A relay in use tells them apart**: the port that is missing is still high, and so is what the
relay puts out. -/
theorem Block.warm_relay_tells_missing_port :
    PinMap.Alike .empty Relay.listed ∧
      (Relay.warm.evaluate .empty).1 = .ofList [("SOUTH", .high)] ∧
      (Relay.warm.evaluate Relay.listed).1 = .ofList [("SOUTH", .undefined)] := by
  refine ⟨PinMap.alike_insert_undefined (by decide), ?_, ?_⟩
  · decide +kernel
  · decide +kernel

end LogicBlock
