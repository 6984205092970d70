/-
**A reset block behaves like a new one.**

To reset a block makes all pins undefined at every level, but it takes no entry out of any table.
So the tables of a reset block and of a new one read alike, and may differ in their entries.  The
question is whether a run can tell.  Gates and nets see levels only.  A nested block looks at
entries in one place: it puts out those of its output ports that have one.  But whenever it is
evaluated, all its input ports are assigned, and from then on it is settled which ports have
entries, whatever has happened before.

So two states of a block that read alike at every level, and whose parts the elements have come
into, go on reading alike.  What the block itself returns is filtered by entries too, and there a
trace can be left: an output port that no net is connected to has an entry as soon as it has been
assigned.

Main definitions:

* `PinMap.Alike` — two tables show the same level at every pin;
* `Element.IgnoresEntries`, `Design.IgnoresEntries` — in states that read alike, an element puts out
  the same, and a block goes on reading alike;
* `Design.ReadAlike` — two states of a block that read alike at every level;
* `Design.Fits` — a state with a table for every nested block, at every depth.

Main results:

* `Design.ignoresEntries` — **no block looks at entries**, by induction on the nesting;
* `Design.reset_cold`, `Design.Fits.reset_alike` — a reset changes nothing in a new block, and makes
  any other state read like it;
* `Block.reset_restores_cold` — **a reset block behaves like a new one**, and returns the same maps
  if no output port without a net has been assigned.
-/

import LogicBlock.Proofs.Nesting
import LogicBlock.Proofs.Reached

set_option relaxedAutoImplicit false
set_option autoImplicit false

namespace LogicBlock

/-! ### Tables that read alike -/

/-- The two tables show the same level at every pin, whether or not it has an entry. -/
def PinMap.Alike (m m' : PinMap) : Prop :=
  ∀ pin, m.read pin = m'.read pin

namespace PinMap.Alike

variable {m m' : PinMap}

protected theorem refl (m : PinMap) : m.Alike m :=
  fun _ => rfl

theorem assign (h : m.Alike m') (a : PinMap) : (m.assign a).Alike (m'.assign a) := by
  intro pin
  rw [read_assign, read_assign, h pin]

theorem clear (m m' : PinMap) : m.clear.Alike m'.clear := by
  intro pin
  rw [read_clear, read_clear]

theorem restrictTo (h : m.Alike m') (pins : List String) :
    (m.restrictTo pins).Alike (m'.restrictTo pins) := by
  intro pin
  rw [read_restrictTo, read_restrictTo, h pin]

theorem propagate (h : m.Alike m') (n : Netlist) : (n.propagate m).Alike (n.propagate m') := by
  intro pin
  rw [Net.read_propagate, Net.read_propagate, funext h]

end PinMap.Alike

/-! ### Entries make no difference -/

/-- Two states of the block that read alike at every level, and whose parts the elements have come
into. -/
structure Design.ReadAlike (d : Design) (s s' : State) : Prop where
  levels : State.Related PinMap.Alike s s'
  left : Element.AllReached d.elements s
  right : Element.AllReached d.elements s'

/-- Settled under the same assignment, states that read alike lead to states that read alike. -/
def Design.IgnoresEntries (d : Design) : Prop :=
  ∀ a s s', d.ReadAlike s s' → State.Related PinMap.Alike (d.settle a s) (d.settle a s')

/-- In states that read alike, and for tables that read alike, the element puts out the same. -/
def Element.IgnoresEntries (e : Element) : Prop :=
  ∀ m m' s s', PinMap.Alike m m' → e.Reached s → e.Reached s' → State.Related PinMap.Alike s s' →
    (e.evaluate m s).1 = (e.evaluate m' s').1 ∧
      State.Related PinMap.Alike (e.evaluate m s).2 (e.evaluate m' s').2

namespace Element

theorem ignoresEntries_gate (g : Gate) : (gate g).IgnoresEntries := by
  intro m m' s s' hm _ _ hs
  refine ⟨?_, hs⟩
  rw [evaluate_congr (fun pin _ => hm pin) s]
  rfl

/-- **A nested block puts out the same**: once its input ports have been assigned, both tables have
entries for the same ports. -/
theorem ignoresEntries_composite {name type : String} {block : Design}
    (h : block.IgnoresEntries) : (composite name type block).IgnoresEntries := by
  intro m m' s s' hm hs hs' hlevels
  have hports : block.netlist.portAssignment name m = block.netlist.portAssignment name m' :=
    Netlist.portAssignment_congr fun d _ => hm _
  have hassigned : ∀ pin, (block.netlist.portAssignment name m').contains pin ↔
      pin ∈ block.netlist.inputPins := fun _ => Netlist.contains_portAssignment_iff
  have hnext := h (block.netlist.portAssignment name m') s s'
    ⟨hlevels, Design.Reached.parts hs, Design.Reached.parts hs'⟩
  rw [evaluate, evaluate, hports]
  refine ⟨Netlist.portResults_congr fun d _ => PinMap.get?_congr ?_ (hnext.pins d.name), hnext⟩
  rw [Bool.eq_iff_iff, Design.Reached.contains_settle_port_iff hs hassigned,
    Design.Reached.contains_settle_port_iff hs' hassigned]

/-- Elements that put out the same lead from states that read alike to states that read alike. -/
theorem evaluateAll_alike {l : List Element} (h : ∀ e ∈ l, e.IgnoresEntries) {s s' : State}
    (hs : AllReached l s) (hs' : AllReached l s') (hlevels : State.Related PinMap.Alike s s') :
    State.Related PinMap.Alike (evaluateAll l s) (evaluateAll l s') := by
  induction l generalizing s s' with
  | nil => exact .intro hlevels.pins .nil
  | cons e rest ih =>
      rw [AllReached, withParts, List.forall_mem_cons] at hs hs'
      rw [List.forall_mem_cons] at h
      obtain ⟨hresults, hpart⟩ := h.1 _ _ _ _ hlevels.pins hs.1 hs'.1
        (hlevels.headD_parts (PinMap.Alike.refl _))
      have hassigned : (s.pins.assign (e.evaluate s.pins (s.parts.headD .inert)).1).Alike
          (s'.pins.assign (e.evaluate s'.pins (s'.parts.headD .inert)).1) := by
        rw [hresults]
        exact hlevels.pins.assign _
      have hrest := @ih h.2 ⟨_, s.parts.tail⟩ ⟨_, s'.parts.tail⟩ hs.2 hs'.2
        (.intro hassigned hlevels.tail_parts)
      rw [evaluateAll_cons, evaluateAll_cons]
      exact .intro hrest.pins (.cons hpart hrest.parts)

end Element

namespace Design

/-- One pass keeps states reading alike. -/
theorem ReadAlike.relax {d : Design} (h : ∀ e ∈ d.elements, e.IgnoresEntries) {s s' : State}
    (hs : d.ReadAlike s s') : d.ReadAlike (d.relax s) (d.relax s') where
  levels := by
    have hnext := Element.evaluateAll_alike h hs.left hs.right hs.levels
    exact .intro (hnext.pins.propagate d.netlist) hnext.parts
  left := (d.invariant_parts fun _ => True).relax s hs.left
  right := (d.invariant_parts fun _ => True).relax s' hs.right

theorem ReadAlike.settle {d : Design} (h : ∀ e ∈ d.elements, e.IgnoresEntries) {s s' : State}
    (hs : d.ReadAlike s s') (a : PinMap) : d.ReadAlike (d.settle a s) (d.settle a s') := by
  have hassigned : d.ReadAlike { s with pins := s.pins.assign a }
      { s' with pins := s'.pins.assign a } :=
    ⟨.intro (hs.levels.pins.assign a) hs.levels.parts, hs.left, hs.right⟩
  exact settle_related (R := d.ReadAlike) rfl (fun _ _ => ReadAlike.relax h) hassigned

/-- **No block looks at entries**: the induction over the nesting. -/
theorem ignoresEntries (d : Design) : d.IgnoresEntries := by
  induction d using nested_induction with
  | h d ih =>
      intro a s s' hs
      refine (hs.settle (fun e he => ?_) a).levels
      cases e with
      | gate g => exact Element.ignoresEntries_gate g
      | composite name type block => exact Element.ignoresEntries_composite (ih name type block he)

end Design

theorem Element.ignoresEntries (e : Element) : e.IgnoresEntries := by
  cases e with
  | gate g => exact ignoresEntries_gate g
  | composite name type block => exact ignoresEntries_composite block.ignoresEntries

/-! ### States with a table for every nested block -/

/-- The state has a table for the block and for every block inside it, at every depth. -/
def Design.Fits (d : Design) (s : State) : Prop :=
  State.Related (fun _ _ => True) s d.cold

/-- The state has a table for the element, if it is a nested block, and for every block inside. -/
def Element.Fits (e : Element) (s : State) : Prop :=
  State.Related (fun _ _ => True) s e.cold

theorem Element.fits_evaluateAll {l : List Element}
    (h : ∀ e ∈ l, ∀ m s, e.Fits s → e.Fits (e.evaluate m s).2) {s : State}
    (hs : List.Forall₂ (State.Related fun _ _ => True) s.parts (coldAll l)) :
    List.Forall₂ (State.Related fun _ _ => True) (evaluateAll l s).parts (coldAll l) := by
  induction l generalizing s with
  | nil => exact .nil
  | cons e rest ih =>
      obtain ⟨pins, parts⟩ := s
      rw [List.forall_mem_cons] at h
      cases hs with
      | @cons part _ parts _ hpart hparts =>
          rw [evaluateAll_cons]
          exact .cons (h.1 pins part hpart) (ih h.2 (s := ⟨_, parts⟩) hparts)

namespace Design

/-- A reset changes nothing in a new block. -/
theorem reset_cold (d : Design) : d.cold.reset = d.cold := by
  induction d using nested_induction with
  | h d ih =>
      obtain ⟨name, netlist, limits, elements⟩ := d
      have hpins : netlist.coldPins.clear = netlist.coldPins := by
        refine PinMap.ext_read (fun pin => ?_) fun pin => ?_
        · rw [Bool.eq_iff_iff, PinMap.contains_clear_iff]
        · rw [PinMap.read_clear, Netlist.read_coldPins]
      have hparts : State.resetAll (Element.coldAll elements) = Element.coldAll elements := by
        rw [State.resetAll_eq_map, Element.coldAll_eq_map, List.map_map]
        refine List.map_congr_left fun e he => ?_
        cases e with
        | gate g => rfl
        | composite name type block => exact ih name type block he
      rw [cold, State.reset, hpins, hparts]

/-- No run changes for which nested blocks there are tables. -/
theorem invariant_fits (d : Design) : d.Invariant (fun _ => True) d.Fits := by
  induction d using nested_induction with
  | h d ih =>
      have helements : ∀ e ∈ d.elements, ∀ m s, e.Fits s → e.Fits (e.evaluate m s).2 := by
        intro e he m s hs
        cases e with
        | gate g => exact hs
        | composite name type block => exact (ih name type block he).settle trivial hs
      have hcold : d.cold.parts = Element.coldAll d.elements := by
        cases d
        rfl
      refine ⟨fun a s _ hs => .intro trivial hs.parts, fun s hs => ?_, fun s hs => ?_⟩
      · refine .intro trivial ?_
        rw [hcold]
        exact Element.fits_evaluateAll helements (hcold ▸ hs.parts)
      · rw [Fits, ← d.reset_cold]
        exact State.Related.reset (fun _ _ _ => trivial) s d.cold hs

/-- **A reset makes any state read like that of a new block.** -/
theorem Fits.reset_alike {d : Design} {s : State} (h : d.Fits s) :
    State.Related PinMap.Alike s.reset d.cold := by
  have hreset := State.Related.reset (fun m m' _ => PinMap.Alike.clear m m') s d.cold h
  rwa [d.reset_cold] at hreset

end Design

/-! ### Runs after a reset -/

namespace Design

/-- Two runs of a block whose states read alike go on that way, and so do the maps that they
return. -/
theorem coupling_readAlike (d : Design) : d.Coupling d Eq d.ReadAlike PinMap.Alike where
  settle a _ _ _ ha hs := ha ▸ hs.settle (fun e _ => e.ignoresEntries) a
  reset _ _ hs :=
    ⟨State.Related.reset (fun m m' _ => PinMap.Alike.clear m m') _ _ hs.levels,
      (d.invariant_parts fun _ => True).reset _ hs.left,
      (d.invariant_parts fun _ => True).reset _ hs.right⟩
  outputs _ _ hs := hs.levels.pins.restrictTo d.netlist.outputPins

/-- If moreover both have entries for the same output ports, this remains so, and the maps that they
return are the same. -/
theorem coupling_readAlike_ports (d : Design) :
    d.Coupling d Eq (fun s s' => d.ReadAlike s s' ∧
      ∀ pin ∈ d.netlist.outputPins, s.pins.contains pin ↔ s'.pins.contains pin) Eq where
  settle a _ s s' ha hs := by
    subst ha
    refine ⟨d.coupling_readAlike.settle a a s s' rfl hs.1, fun pin hpin => ?_⟩
    rw [contains_settle_iff hs.1.left, contains_settle_iff hs.1.right, hs.2 pin hpin]
  reset s s' hs := by
    refine ⟨d.coupling_readAlike.reset s s' hs.1, fun pin hpin => ?_⟩
    rw [State.contains_reset_iff, State.contains_reset_iff, hs.2 pin hpin]
  outputs s s' hs := by
    refine PinMap.ext_read (fun pin => ?_) (d.coupling_readAlike.outputs s s' hs.1)
    rw [Bool.eq_iff_iff, outputs, outputs, PinMap.contains_restrictTo_iff,
      PinMap.contains_restrictTo_iff]
    exact and_congr_right (hs.2 pin)

end Design

/-- Among the output ports, the call assigns only those that are the end of some net. -/
def Call.SparesLooseOutputs (n : Netlist) (call : Call) : Prop :=
  ∀ a ∈ call.assignment? n, ∀ port ∈ n.outputs, a.contains port.name → port.name ∈ n.endpoints

instance (n : Netlist) (call : Call) : Decidable (call.SparesLooseOutputs n) :=
  inferInstanceAs (Decidable (∀ a ∈ call.assignment? n, ∀ port ∈ n.outputs,
    a.contains port.name → port.name ∈ n.endpoints))

namespace Block

/-- After calls that spare loose output ports, those have an entry that some net is connected to. -/
theorem contains_after_output_iff {d : Design} {past : List Call}
    (hpast : ∀ call ∈ past, call.SparesLooseOutputs d.netlist) {port : Direction}
    (hport : port ∈ d.netlist.outputs) :
    ((ofDesign d).after past).pins.contains port.name ↔ port.name ∈ d.netlist.endpoints := by
  constructor
  · have hinv : d.Invariant (fun a => a.contains port.name → port.name ∈ d.netlist.endpoints)
        fun s => s.pins.contains port.name → port.name ∈ d.netlist.endpoints :=
      d.invariant_port port (fun _ ha => ha) id
    refine hinv.after (s := d.cold) (fun call hcall a ha => ?_)
      (d.mem_endpoints_of_contains_cold port)
    exact hpast call hcall a ha port hport
  · exact fun hend => contains_after_of_mem_endpoints hend past

/-- **A reset block behaves like a new one.**  Whatever calls a block has served, if it is reset and
then serves the same calls as a new one, after each of them all pins at every level read as in the
new block, and the maps that the two return read alike.  They are the same maps if no call before
the reset has assigned an output port that no net is connected to. -/
theorem reset_restores_cold (c : Catalog) (name : String) (n : Netlist) (limits : Nat)
    (past future : List Call) :
    let fresh := ofDesign (c.design name n limits)
    let used := (fresh.after past).reset
    (∀ k, State.Related PinMap.Alike (used.after (future.take k)).state
        (fresh.after (future.take k)).state) ∧
      List.Forall₂ (Option.Rel PinMap.Alike) (used.answers future) (fresh.answers future) ∧
      ((∀ call ∈ past, call.SparesLooseOutputs n) →
        used.answers future = fresh.answers future) := by
  intro fresh used
  let d := c.design name n limits
  have hused : used = ⟨d, (fresh.after past).state.reset⟩ := by
    have hdesign : (fresh.after past).design = d := after_design fresh past
    rw [← hdesign]
    rfl
  have hparts : Element.AllReached d.elements (fresh.after past).state :=
    (d.invariant_parts fun _ => True).after (s := d.cold) (fun _ _ _ _ => trivial)
      d.allReached_cold
  have hfits : d.Fits (fresh.after past).state :=
    d.invariant_fits.after (s := d.cold) (fun _ _ _ _ => trivial)
      (State.related_refl (fun _ => trivial) d.cold)
  have hstart : d.ReadAlike (fresh.after past).state.reset d.cold :=
    ⟨hfits.reset_alike, (d.invariant_parts fun _ => True).reset _ hparts, d.allReached_cold⟩
  have hcalls : List.Forall₂ (Call.Matches Eq d.netlist d.netlist) future future :=
    List.forall₂_same.2 fun call _ => Call.matches_refl (fun _ => rfl) d.netlist call
  rw [hused]
  refine ⟨fun k => (d.coupling_readAlike.after_take hcalls hstart k).levels,
    (d.coupling_readAlike.answers_and_after hcalls hstart).1, fun hpast => ?_⟩
  -- the reset leaves an output port with an entry only if it has one in a new block
  have hports : ∀ pin ∈ d.netlist.outputPins,
      (fresh.after past).state.reset.pins.contains pin ↔ d.cold.pins.contains pin := by
    intro pin hpin
    obtain ⟨port, hport, rfl⟩ := List.mem_map.1 hpin
    rw [State.contains_reset_iff, d.cold_pins, Netlist.contains_coldPins_iff]
    exact contains_after_output_iff hpast hport
  exact d.coupling_readAlike_ports.answers_eq hcalls ⟨hstart, hports⟩

/-- An output port that no net is connected to keeps the entry that an assignment has made. -/
example :
    let fresh := ofDesign (Catalog.basic.design "loose" { outputs := [.up] } 1)
    let used := (fresh.after [.settle (.ofList [("UP", .high)])]).reset
    used.answers [.settle .empty] = [some (.ofList [("UP", .undefined)])] ∧
      fresh.answers [.settle .empty] = [some .empty] := by
  decide +kernel

end Block

namespace Crossed

/-- The loop through three elements, with a second output port that no net is connected to. -/
def loose : Netlist :=
  { netlist with outputs := [.up, .down] }

/-- Calls to be made after a reset. -/
def later : List Call :=
  [.settle (.ofList [("NORTH", .low)]), .evaluate (.ofList [("NORTH", .high), ("A.1", .high)]),
    .settle .empty]

end Crossed

/-- After a run that forces inner pins, a reset makes the loop return what a new one returns. -/
theorem Block.crossed_reset_restores_cold :
    (∀ call ∈ Crossed.run, call.SparesLooseOutputs Crossed.loose) ∧
      ((ofDesign (Crossed.catalog.design "crossed" Crossed.loose 2)).after
          Crossed.run).reset.answers Crossed.later =
        (ofDesign (Crossed.catalog.design "crossed" Crossed.loose 2)).answers Crossed.later :=
  have hpast : ∀ call ∈ Crossed.run, call.SparesLooseOutputs Crossed.loose := by decide +kernel
  ⟨hpast, (reset_restores_cold Crossed.catalog "crossed" Crossed.loose 2 Crossed.run
    Crossed.later).2.2 hpast⟩

end LogicBlock
