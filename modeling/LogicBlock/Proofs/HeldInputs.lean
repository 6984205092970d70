/-
**Inputs that are held.**

Mostly it is the inputs of a block that are assigned, pins where nothing inside the block puts
anything out.  Such a pin keeps the level that it has been assigned, through all passes, until it is
assigned again: no net ends there, and no element writes there, be it a gate or a nested block.  So
to assign it the same level once more changes nothing.

It follows that a block need not be told again what it knows.  To settle several times under one
assignment is to make all the passes in one go, whether or not the block ever comes to rest: in
between nothing happens to the table, to the nested blocks or to what is returned.

Main definitions:

* `Design.LeavesAlone` — an assignment to pins that nothing in the block writes;
* `Design.withLimits` — the same design with another number of passes.

Main results:

* `PinMap.assign_eq_self_iff` — assigning what a table shows;
* `Design.LeavesAlone.settle_holds` — **what is assigned to such pins is held**;
* `Design.LeavesAlone.settle_settle` — to settle again is to go on with the passes;
* `Block.repeating_adds_passes` — **repeating a call adds up its passes**.
-/

import LogicBlock.Proofs.Entries

set_option relaxedAutoImplicit false
set_option autoImplicit false

namespace LogicBlock

/-! ### Pins that are left alone -/

/-- **An assignment changes nothing** exactly if the table shows all of it. -/
theorem PinMap.assign_eq_self_iff {m a : PinMap} :
    m.assign a = m ↔ ∀ pin v, a.get? pin = some v → m.get? pin = some v := by
  constructor
  · intro h pin v hv
    rw [← h, get?_assign, hv, Option.some_or]
  · intro h
    refine NameMap.ext_get? fun pin => ?_
    rw [get?_assign]
    cases hv : a.get? pin with
    | none => rw [Option.none_or]
    | some v => rw [h pin v hv, Option.some_or]

namespace Design

/-- Nothing in the block writes the pins of the assignment: no net ends there, and no element puts
anything out there. -/
def LeavesAlone (d : Design) (a : PinMap) : Prop :=
  ∀ pin, a.contains pin → pin ∉ d.writtenPins

instance (d : Design) (a : PinMap) : Decidable (d.LeavesAlone a) :=
  decidable_of_iff (∀ pin ∈ a.keys, pin ∉ d.writtenPins)
    (forall_congr' fun pin => imp_congr_left (a.mem_keys_iff pin))

/-- **What is assigned to such pins is held** while the block settles: after the passes the table
still shows all of the assignment. -/
theorem LeavesAlone.settle_holds {d : Design} {a : PinMap} (ha : d.LeavesAlone a) (s : State) :
    (d.settle a s).pins.assign a = (d.settle a s).pins := by
  rw [PinMap.assign_eq_self_iff]
  intro pin v hv
  have hpin : pin ∉ d.writtenPins := ha pin (Option.isSome_iff_exists.2 ⟨v, hv⟩)
  rw [get?_settle_of_notMem hpin, PinMap.get?_assign, hv, Option.some_or]

end Design

/-! ### Going on with the passes -/

/-- Repeating goes on where repeating has stopped. -/
theorem repeat_add {α : Type} (f : α → α) (i j : Nat) (a : α) :
    Nat.repeat f (i + j) a = Nat.repeat f j (Nat.repeat f i a) := by
  induction j with
  | zero => rfl
  | succ j ih => exact congrArg f ih

theorem State.with_pins_eq_self {s : State} {m : PinMap} (h : m = s.pins) :
    { s with pins := m } = s := by
  cases s
  rw [h]

namespace Design

/-- The design with another number of passes. -/
def withLimits (d : Design) (limits : Nat) : Design :=
  { d with limits }

@[simp] theorem withLimits_self (d : Design) : d.withLimits d.limits = d := by
  cases d
  rfl

theorem settle_withLimits (d : Design) (limits : Nat) (a : PinMap) (s : State) :
    (d.withLimits limits).settle a s =
      Nat.repeat d.relax limits { s with pins := s.pins.assign a } :=
  settle_eq (d.withLimits limits) a s

/-- **To settle again is to go on with the passes**: nothing is assigned anew. -/
theorem LeavesAlone.settle_settle {d : Design} {a : PinMap} (ha : d.LeavesAlone a) (s : State)
    (i j : Nat) :
    (d.withLimits j).settle a ((d.withLimits i).settle a s) =
      (d.withLimits (i + j)).settle a s := by
  have hleaves : (d.withLimits i).LeavesAlone a := ha
  have hheld := hleaves.settle_holds s
  rw [settle_withLimits d j, State.with_pins_eq_self hheld, settle_withLimits d (i + j),
    repeat_add, settle_withLimits d i]

end Design

/-! ### Repeating a call -/

namespace Block

theorem answers_append (b : Block) (first second : List Call) :
    b.answers (first ++ second) = b.answers first ++ (b.after first).answers second := by
  induction first generalizing b with
  | nil => rfl
  | cons c rest ih => exact congrArg ((b.call c).1 :: ·) (ih (b.call c).2)

/-- The last call of a history, if it settles, is answered by the output ports at the end. -/
theorem getLast?_answers_of_settle (b : Block) (history : List Call) (a : PinMap) :
    (b.answers (history ++ [.settle a])).getLast? =
      some (some (b.design.outputs (b.after (history ++ [.settle a])).state)) := by
  rw [answers_append, state_after_settle, ← b.after_design history]
  exact List.getLast?_concat

/-- A block that settles several times under one assignment makes all the passes. -/
theorem state_after_replicate {d : Design} {a : PinMap} (ha : d.LeavesAlone a) (s : State)
    (k : Nat) :
    ((mk d s).after (List.replicate (k + 1) (.settle a))).state =
      (d.withLimits ((k + 1) * d.limits)).settle a s := by
  induction k with
  | zero =>
      rw [Nat.zero_add, Nat.one_mul, Design.withLimits_self]
      rfl
  | succ k ih =>
      have hagain := ha.settle_settle s ((k + 1) * d.limits) d.limits
      rw [Design.withLimits_self, ← Nat.succ_mul] at hagain
      rw [List.replicate_succ', state_after_settle, ih]
      exact hagain

/-- **Repeating a call adds up its passes.**  Where nothing in the block writes the pins that are
assigned, to settle `k` times with `m` passes each is to settle once with `k * m` passes: the tables
are the same at every level of nesting, and so is what the last call returns.  The block may
oscillate all the while. -/
theorem repeating_adds_passes (c : Catalog) (name : String) (n : Netlist) (m k : Nat) (hk : 1 ≤ k)
    (s : State) (a : PinMap) (ha : (c.design name n m).LeavesAlone a) :
    let short : Block := ⟨c.design name n m, s⟩
    let long : Block := ⟨c.design name n (k * m), s⟩
    let calls := List.replicate k (Call.settle a)
    (short.after calls).state = (long.settle a).2.state ∧
      (short.answers calls).getLast? = some (some (long.settle a).1) := by
  intro short long calls
  obtain ⟨j, rfl⟩ := Nat.exists_eq_add_of_le' hk
  have hstate : (short.after calls).state = (long.settle a).2.state :=
    state_after_replicate ha s j
  refine ⟨hstate, ?_⟩
  -- the one design has the ports of the other
  have hports : short.design.outputs (short.after calls).state = (long.settle a).1 :=
    congrArg short.design.outputs hstate
  have hcalls : calls = List.replicate j (.settle a) ++ [.settle a] := List.replicate_succ'
  rw [hcalls] at hports ⊢
  rw [getLast?_answers_of_settle, hports]

end Block

namespace Ring

/-- A nor gate that reads its own output. -/
def inner : Netlist where
  inputs := [.north]
  outputs := [.south]
  models := [⟨"R", "NOR"⟩]
  nets := [⟨"1", "NORTH", "R.0"⟩, ⟨"2", "R.2", "R.1"⟩, ⟨"3", "R.2", "SOUTH"⟩]

/-- The gates, and the ring as a type of its own, with one pass. -/
def catalog : Catalog :=
  { Catalog.basic with
    blocks := NameMap.empty.insert "RING" (Catalog.basic.design "RING" inner 1) }

/-- The ring inside a block. -/
def netlist : Netlist where
  inputs := [.north]
  outputs := [.up]
  models := [⟨"O", "RING"⟩]
  nets := [⟨"1", "NORTH", "O.NORTH"⟩, ⟨"2", "O.SOUTH", "UP"⟩]

/-- The state of the block while its ring is held at low. -/
def stopped : State :=
  ((Block.ofDesign (catalog.design "ring" netlist 3)).settle (.ofList [("NORTH", .high)])).2.state

/-- What lets the ring go. -/
def start : PinMap :=
  .ofList [("NORTH", .low)]

/-- The ring does not come to rest: every call finds it at the other level. -/
example :
    (Block.answers ⟨catalog.design "ring" netlist 3, stopped⟩
        (List.replicate 3 (.settle start))).map (Option.map (·.read "UP")) =
      [some .high, some .low, some .high] := by
  decide +kernel

end Ring

/-- Three calls with three passes each do what one call with nine passes does, though the nested
ring oscillates. -/
theorem Block.ring_oscillates_alike :
    1 ≤ 3 ∧ (Ring.catalog.design "ring" Ring.netlist 3).LeavesAlone Ring.start ∧
      ((mk (Ring.catalog.design "ring" Ring.netlist 3) Ring.stopped).after
          (List.replicate 3 (.settle Ring.start))).state =
        ((mk (Ring.catalog.design "ring" Ring.netlist (3 * 3)) Ring.stopped).settle
          Ring.start).2.state ∧
      ((mk (Ring.catalog.design "ring" Ring.netlist 3) Ring.stopped).answers
          (List.replicate 3 (.settle Ring.start))).getLast? =
        some (some ((mk (Ring.catalog.design "ring" Ring.netlist (3 * 3)) Ring.stopped).settle
          Ring.start).1) :=
  have hleaves : (Ring.catalog.design "ring" Ring.netlist 3).LeavesAlone Ring.start := by
    decide +kernel
  ⟨by decide, hleaves,
    repeating_adds_passes Ring.catalog "ring" Ring.netlist 3 3 (by decide) Ring.stopped Ring.start
      hleaves⟩

end LogicBlock
