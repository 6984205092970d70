/-
**Drive, and the pins that it never reaches.**

The wiring report follows drive along the nets, from the input ports and from the output pins of the
elements, without running anything.  A run writes levels to pins in the same three ways: an
assignment to the input ports, an element to its output pins, a net to its destination.  So a pin
that drive does not reach keeps the level that it has in a new block, which is undefined, whatever
the nets look like and whatever the nested blocks do.

Main definitions:

* `Wiring.ReportsUndriven` — the report says that no drive reaches a pin;
* `Call.AssignsPorts` — a call assigns declared input ports only.

Main results:

* `Netlist.undrivenPin_mem_warnings`, `Netlist.unconnectedOutput_mem_warnings` — when the report
  holds these warnings;
* `Netlist.contains_drivenPins_cases` — a driven pin is an input port, an output pin, or the
  destination of a net;
* `Block.undriven_stays_undefined` — **a pin that is reported as undriven is undefined for ever.**
-/

import LogicBlock.Proofs.Runs

set_option relaxedAutoImplicit false
set_option autoImplicit false

namespace LogicBlock

namespace Netlist

variable {n : Netlist} {c : Catalog}

/-! ### The warnings about drive -/

theorem mem_undrivenPins_iff {pin : String} :
    pin ∈ n.undrivenPins c ↔ pin ∈ n.readPins c ∧ ¬(n.drivenPins c).contains pin := by
  rw [undrivenPins, NameMap.mem_keys_iff]
  change (NameSet.ofNames _).contains pin = true ↔ _
  rw [NameSet.contains_ofNames, List.mem_filter]
  simp

theorem undrivenPin_mem_warnings {pin : String} :
    .undrivenPin pin ∈ n.warnings c ↔ pin ∈ n.readPins c ∧ ¬(n.drivenPins c).contains pin := by
  rw [← mem_undrivenPins_iff]
  simp [warnings, unknownTypes, danglingReferences, unusedInputs]

theorem unconnectedOutput_mem_warnings {d : Direction} :
    .unconnectedOutput d ∈ n.warnings c ↔
      d ∈ n.outputs ∧ ¬(n.drivenPins c).contains d.name := by
  simp [warnings, unknownTypes, danglingReferences, unconnectedOutputs]

/-- Without a warning about it, an output port is driven. -/
theorem contains_drivenPins_of_mem_outputs (h : ∀ d, .unconnectedOutput d ∉ n.warnings c)
    {d : Direction} (hd : d ∈ n.outputs) : (n.drivenPins c).contains d.name := by
  refine Decidable.byContradiction fun hundriven => ?_
  exact h d (unconnectedOutput_mem_warnings.2 ⟨hd, hundriven⟩)

/-- Without a warning about it, a pin that is read is driven. -/
theorem contains_drivenPins_of_mem_readPins (h : ∀ pin, .undrivenPin pin ∉ n.warnings c)
    {pin : String} (hpin : pin ∈ n.readPins c) : (n.drivenPins c).contains pin := by
  refine Decidable.byContradiction fun hundriven => ?_
  exact h pin (undrivenPin_mem_warnings.2 ⟨hpin, hundriven⟩)

/-! ### What drive reaches -/

theorem contains_drivenPins_of_mem_driverPins {pin : String} (h : pin ∈ n.driverPins c) :
    (n.drivenPins c).contains pin :=
  (n.contains_drivenPins_iff c pin).2 (.start h)

/-- Drive follows every net. -/
theorem contains_drivenPins_destination {net : Net} (hnet : net ∈ n.nets)
    (h : (n.drivenPins c).contains net.source) : (n.drivenPins c).contains net.destination := by
  rw [contains_drivenPins_iff] at h ⊢
  exact h.step (List.mem_map_of_mem hnet)

/-- A driven pin is an input port, an output pin of an element, or the destination of a net. -/
theorem contains_drivenPins_cases {pin : String} (h : (n.drivenPins c).contains pin) :
    pin ∈ n.inputPins ∨ pin ∈ (n.modelElements c).flatMap Element.outputPins ∨
      pin ∈ n.nets.map Net.destination := by
  rw [contains_drivenPins_iff] at h
  cases h with
  | start h =>
      rcases List.mem_append.1 h with h | h
      · exact .inl h
      · exact .inr (.inl h)
  | step _ he =>
      obtain ⟨net, hnet, hends⟩ := List.mem_map.1 he
      refine .inr (.inr (List.mem_map.2 ⟨net, hnet, ?_⟩))
      exact congrArg Prod.snd hends

/-- The elements of the block put out nothing but driven pins. -/
theorem contains_drivenPins_of_mem_outputPins {pin : String}
    (h : pin ∈ (c.elementsOf n.models).flatMap Element.outputPins) :
    (n.drivenPins c).contains pin := by
  obtain ⟨e, he, hpin⟩ := List.mem_flatMap.1 h
  refine contains_drivenPins_of_mem_driverPins (List.mem_append_right _ ?_)
  exact List.mem_flatMap.2 ⟨e, Catalog.mem_modelElements_of_mem_elementsOf he, hpin⟩

end Netlist

/-! ### Undriven pins during a run -/

/-- No drive reaches the pin, says the report. -/
def Wiring.ReportsUndriven (w : Wiring) (pin : String) : Prop :=
  .undrivenPin pin ∈ w.warnings ∨ ∃ d : Direction, pin = d.name ∧ .unconnectedOutput d ∈ w.warnings

/-- The call assigns no pins but declared input ports. -/
def Call.AssignsPorts (n : Netlist) (c : Call) : Prop :=
  ∀ a, c.assignment? n = some a → ∀ pin, a.contains pin → pin ∈ n.inputPins

namespace Call

theorem assignsPorts_settle_iff {n : Netlist} {a : PinMap} :
    (settle a).AssignsPorts n ↔ ∀ pin ∈ a.keys, pin ∈ n.inputPins := by
  constructor
  · intro h pin hpin
    exact h a rfl pin ((a.mem_keys_iff pin).1 hpin)
  · rintro h _ ⟨⟩ pin hpin
    exact h pin ((a.mem_keys_iff pin).2 hpin)

/-- An evaluation takes nothing but the declared input ports. -/
theorem assignsPorts_evaluate (n : Netlist) (pins : PinMap) : (evaluate pins).AssignsPorts n := by
  rintro _ ⟨⟩ pin hpin
  rw [NameMap.contains, PinMap.get?_restrictTo] at hpin
  split at hpin
  · assumption
  · cases hpin

theorem assignsPorts_reset (n : Netlist) : reset.AssignsPorts n := by
  rintro _ ⟨⟩

instance (n : Netlist) : (c : Call) → Decidable (c.AssignsPorts n)
  | settle _ => decidable_of_iff _ assignsPorts_settle_iff.symm
  | evaluate pins => .isTrue (assignsPorts_evaluate n pins)
  | reset => .isTrue (assignsPorts_reset n)

end Call

/-- All pins that drive does not reach are undefined in the table. -/
def Netlist.UndrivenUndefined (n : Netlist) (c : Catalog) (pins : PinMap) : Prop :=
  ∀ pin, ¬(n.drivenPins c).contains pin → pins.read pin = .undefined

namespace Netlist

variable {n : Netlist} {c : Catalog}

theorem undrivenUndefined_coldPins : n.UndrivenUndefined c n.coldPins := by
  intro pin _
  exact n.read_coldPins pin

theorem UndrivenUndefined.assign {pins a : PinMap} (h : n.UndrivenUndefined c pins)
    (ha : ∀ pin, a.contains pin → pin ∈ n.inputPins) : n.UndrivenUndefined c (pins.assign a) := by
  intro pin hpin
  have hnone : a.get? pin = none := by
    cases hv : a.get? pin with
    | none => rfl
    | some v =>
        have hin : pin ∈ n.inputPins := ha pin (by simp [NameMap.contains, hv])
        exact absurd (contains_drivenPins_of_mem_driverPins (List.mem_append_left _ hin)) hpin
  rw [PinMap.read_assign, hnone, Option.getD_none, h pin hpin]

theorem UndrivenUndefined.evaluateAll {s : State} (h : n.UndrivenUndefined c s.pins) :
    n.UndrivenUndefined c (Element.evaluateAll (c.elementsOf n.models) s).pins := by
  intro pin hpin
  have hframe : pin ∉ (c.elementsOf n.models).flatMap Element.outputPins :=
    fun hmem => hpin (contains_drivenPins_of_mem_outputPins hmem)
  rw [PinMap.read, Element.get?_evaluateAll_of_notMem hframe]
  exact h pin hpin

/-- A net to an undriven pin comes from an undriven pin, so it carries undefined. -/
theorem UndrivenUndefined.propagate {pins : PinMap} (h : n.UndrivenUndefined c pins) :
    n.UndrivenUndefined c (n.propagate pins) := by
  refine propagate_induction (fun net hnet m hm pin hpin => ?_) h
  rw [PinMap.read_copy]
  split
  · rename_i hdest
    subst hdest
    -- drive would follow the net, so there is none at its source
    have hsource : ¬(n.drivenPins c).contains net.source :=
      fun hsource => hpin (contains_drivenPins_destination hnet hsource)
    exact hm net.source hsource
  · exact hm pin hpin

/-- **What drive does not reach stays undefined** under assignments to input ports. -/
theorem invariant_undrivenUndefined (n : Netlist) (c : Catalog) (name : String) (limits : Nat) :
    (c.design name n limits).Invariant (fun a => ∀ pin, a.contains pin → pin ∈ n.inputPins)
      fun s => n.UndrivenUndefined c s.pins where
  assign _ _ ha hs := hs.assign ha
  relax _ hs := hs.evaluateAll.propagate
  reset s _ := by
    cases s
    exact fun pin _ => PinMap.read_clear _ pin

theorem not_contains_drivenPins_of_reportsUndriven {pin : String}
    (h : (Wiring.ofNetlist c n).ReportsUndriven pin) : ¬(n.drivenPins c).contains pin := by
  rcases h with h | ⟨d, rfl, h⟩
  · exact (undrivenPin_mem_warnings.1 h).2
  · exact (unconnectedOutput_mem_warnings.1 h).2

end Netlist

/-- **A pin that is reported as undriven is undefined for ever**: in a new block, and after every
run that assigns input ports only, in the table and in all that the calls return. -/
theorem Block.undriven_stays_undefined (c : Catalog) (name : String) (n : Netlist) (limits : Nat)
    (history : List Call) (hports : ∀ call ∈ history, call.AssignsPorts n) (pin : String)
    (hpin : (Wiring.ofNetlist c n).ReportsUndriven pin) :
    ((Block.ofDesign (c.design name n limits)).after history).pins.read pin = .undefined ∧
      ∀ out, some out ∈ (Block.ofDesign (c.design name n limits)).answers history →
        out.get? pin = none ∨ out.get? pin = some .undefined := by
  have hundriven := Netlist.not_contains_drivenPins_of_reportsUndriven hpin
  have hruns : ∀ run : List Call, (∀ call ∈ run, call.AssignsPorts n) →
      ((Block.ofDesign (c.design name n limits)).after run).pins.read pin = .undefined := by
    intro run hrun
    have hinv := n.invariant_undrivenUndefined c name limits
    exact hinv.after (s := (c.design name n limits).cold) hrun
      Netlist.undrivenUndefined_coldPins pin hundriven
  refine ⟨hruns history hports, fun out hout => ?_⟩
  obtain ⟨done, hdone, rfl⟩ := exists_prefix_of_mem_answers hout
  have hread := hruns done fun call hcall => hports call (hdone.subset hcall)
  rw [Design.outputs, PinMap.get?_restrictTo]
  split
  · cases hv : ((Block.ofDesign (c.design name n limits)).after done).state.pins.get? pin with
    | none => exact .inl rfl
    | some v =>
        right
        rw [Block.pins, PinMap.read, hv, Option.getD_some] at hread
        rw [hread]
  · exact .inl rfl

namespace Stray

/-- A block with an output port that nothing drives. -/
def relay : Netlist where
  inputs := [.north]
  outputs := [.south, .up]
  nets := [⟨"W", "NORTH", "SOUTH"⟩]

/-- The gates, and the relay as a type of its own. -/
def catalog : Catalog :=
  { Catalog.basic with
    blocks := NameMap.empty.insert "RELAY" (Catalog.basic.design "RELAY" relay 1) }

/-- A netlist with a repeated name, an unknown type, a dangling pin, a loop of two pins, and a
nested block that drives one of its two output ports only. -/
def netlist : Netlist where
  inputs := [.north, .west]
  outputs := [.up, .east, .down]
  models := [⟨"A", "AND"⟩, ⟨"B.1", "RELAY"⟩, ⟨"A", "NAND"⟩, ⟨"A", "OR"⟩]
  nets := [⟨"1", "NORTH", "A.0"⟩, ⟨"2", "C.2", "A.1"⟩, ⟨"3", "A.2", "B.1.NORTH"⟩,
    ⟨"4", "B.1.UP", "UP"⟩, ⟨"5", "X", "Y"⟩, ⟨"6", "Y", "X"⟩, ⟨"7", "Y", "EAST"⟩,
    ⟨"8", "A.2", "DOWN"⟩]

/-- A run with an evaluation on a table that offers more than the ports. -/
def run : List Call :=
  [.settle (.ofList [("NORTH", .high), ("WEST", .low)]),
    .evaluate (.ofList [("Y", .high), ("NORTH", .low)]), .reset,
    .settle (.ofList [("NORTH", .high)])]

end Stray

/-- The loop of two pins, and the port behind it, stay undefined. -/
theorem Block.stray_port_stays_undefined :
    (∀ call ∈ Stray.run, call.AssignsPorts Stray.netlist) ∧
      (Wiring.ofNetlist Stray.catalog Stray.netlist).ReportsUndriven "EAST" ∧
      ((Block.ofDesign (Stray.catalog.design "stray" Stray.netlist 4)).after
        Stray.run).pins.read "EAST" = .undefined :=
  have hports : ∀ call ∈ Stray.run, call.AssignsPorts Stray.netlist := by decide +kernel
  have hpin : (Wiring.ofNetlist Stray.catalog Stray.netlist).ReportsUndriven "EAST" :=
    .inr ⟨.east, rfl, by decide +kernel⟩
  ⟨hports, hpin, (undriven_stays_undefined _ "stray" _ 4 _ hports "EAST" hpin).1⟩

end LogicBlock
