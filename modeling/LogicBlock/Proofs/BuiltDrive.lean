/-
**The report and the block that is built.**

The wiring report is made from the netlist, with an element for every model of known type.  The
block that is built from the netlist may have fewer elements: of models with one name only the last
one counts, and the element of an earlier one is displaced.  The report takes no notice of that.  It
lets drive start from the output pins of displaced elements too, and counts their input pins among
the pins that are read.

So the report is cautious in one respect: whatever it calls undriven, the block does not drive.  It
describes the block exactly as long as displaced elements drive no pin that matters to the block,
and have no undriven input pin of their own.  This is so if the element that displaces another one
has the same pins, as one gate has that displaces another gate; and it is not so in general.

Main definitions:

* `Design.Drives` — drive reaches a pin in the block that is built;
* `Wiring.Describes` — the report calls undriven what drive does not reach in the block.

Main results:

* `Design.contains_drivenPins_of_drives` — the report follows drive at least as far as the block;
* `Wiring.describes_iff` — **when a report describes a block**;
* `Wiring.describes_of_pins_subset` — displaced elements with the same pins do no harm;
* `Wiring.report_describes_block_iff` — all of this for the report and the block of a netlist;
* `Wiring.displaced_gate_is_reported` — a gate that is displaced by a nested block does harm.
-/

import LogicBlock.Proofs.Drive

set_option relaxedAutoImplicit false
set_option autoImplicit false

namespace LogicBlock

/-! ### Drive in a block -/

/-- Elements whose pins of some kind are among those of other elements add no pin to a list that the
others do not add. -/
theorem Element.mem_append_pins_mono {pin : String} {ports : List String}
    {pinsOf : Element → List String} {l l' : List Element}
    (h : ∀ e ∈ l, pinsOf e ⊆ l'.flatMap pinsOf) (hpin : pin ∈ ports ++ l.flatMap pinsOf) :
    pin ∈ ports ++ l'.flatMap pinsOf := by
  rcases List.mem_append.1 hpin with hport | hpin
  · exact List.mem_append_left _ hport
  · obtain ⟨e, he, hpin⟩ := List.mem_flatMap.1 hpin
    exact List.mem_append_right _ (h e he hpin)

namespace Design

/-- The pins that drive starts from: the input ports and the output pins of the elements. -/
def driverPins (d : Design) : List String :=
  d.netlist.inputPins ++ d.elements.flatMap Element.outputPins

/-- The pins whose level is read by a net or by an element. -/
def readPins (d : Design) : List String :=
  d.netlist.nets.map Net.source ++ d.elements.flatMap Element.inputPins

/-- **Drive reaches the pin** along nets, from an input port or an output pin of an element. -/
def Drives (d : Design) (pin : String) : Prop :=
  Reach.Reachable d.netlist.edges (fun p => p ∈ d.driverPins) pin

theorem contains_closure_driverPins_iff (d : Design) (pin : String) :
    (Reach.closure d.netlist.edges (.ofNames d.driverPins)).contains pin ↔ d.Drives pin := by
  simp [Drives, Reach.contains_closure_iff]

instance (d : Design) (pin : String) : Decidable (d.Drives pin) :=
  decidable_of_iff _ (d.contains_closure_driverPins_iff pin)

variable {c : Catalog} {name : String} {n : Netlist} {limits : Nat} {pin : String}

/-- Every element of the block is an element for the report. -/
theorem subset_pins_modelElements (pinsOf : Element → List String) :
    ∀ e ∈ (c.design name n limits).elements, pinsOf e ⊆ (n.modelElements c).flatMap pinsOf :=
  fun e he _ hpin =>
    List.mem_flatMap.2 ⟨e, Catalog.mem_modelElements_of_mem_elementsOf he, hpin⟩

/-- **The report follows drive at least as far** as it goes in the block. -/
theorem contains_drivenPins_of_drives (h : (c.design name n limits).Drives pin) :
    (n.drivenPins c).contains pin := by
  rw [Netlist.contains_drivenPins_iff]
  exact Reach.Reachable.mono (fun _ => Element.mem_append_pins_mono (subset_pins_modelElements _)) h

/-- What the block reads is read as the report sees it. -/
theorem mem_readPins_of_mem_readPins (h : pin ∈ (c.design name n limits).readPins) :
    pin ∈ n.readPins c :=
  Element.mem_append_pins_mono (subset_pins_modelElements _) h

end Design

/-! ### Reports that describe a block -/

namespace Wiring

/-- The report calls undriven exactly the pins that the block reads, and the output ports, where
drive does not reach in the block. -/
structure Describes (w : Wiring) (d : Design) : Prop where
  pins : ∀ pin, .undrivenPin pin ∈ w.warnings ↔ pin ∈ d.readPins ∧ ¬d.Drives pin
  outputs : ∀ port, .unconnectedOutput port ∈ w.warnings ↔
    port ∈ d.netlist.outputs ∧ ¬d.Drives port.name

variable {c : Catalog} {name : String} {n : Netlist} {limits : Nat}

/-- **When a report describes a block**: where the block reads or puts something out, drive reaches
as far as in the report, and the report counts no further undriven pins among those that are
read. -/
theorem describes_iff :
    (ofNetlist c n).Describes (c.design name n limits) ↔
      (∀ pin, pin ∈ (c.design name n limits).readPins ∨ pin ∈ n.outputPins →
        (n.drivenPins c).contains pin → (c.design name n limits).Drives pin) ∧
      ∀ pin ∈ n.readPins c, pin ∉ (c.design name n limits).readPins →
        (n.drivenPins c).contains pin := by
  constructor
  · intro h
    refine ⟨fun pin hpin hdriven => ?_, fun pin hread hpin => ?_⟩
    · refine Decidable.byContradiction fun hnot => ?_
      rcases hpin with hread | hout
      · exact (Netlist.undrivenPin_mem_warnings.1 ((h.pins pin).2 ⟨hread, hnot⟩)).2 hdriven
      · obtain ⟨port, hport, rfl⟩ := List.mem_map.1 hout
        have hwarned := (h.outputs port).2 ⟨hport, hnot⟩
        exact (Netlist.unconnectedOutput_mem_warnings.1 hwarned).2 hdriven
    · refine Decidable.byContradiction fun hnot => hpin ?_
      exact ((h.pins pin).1 (Netlist.undrivenPin_mem_warnings.2 ⟨hread, hnot⟩)).1
  · rintro ⟨hdrives, hreads⟩
    refine ⟨fun pin => Netlist.undrivenPin_mem_warnings.trans ?_,
      fun port => Netlist.unconnectedOutput_mem_warnings.trans ?_⟩
    · constructor
      · rintro ⟨hread, hnot⟩
        refine ⟨?_, fun h => hnot (Design.contains_drivenPins_of_drives h)⟩
        exact Decidable.byContradiction fun hpin => hnot (hreads pin hread hpin)
      · rintro ⟨hread, hnot⟩
        exact ⟨Design.mem_readPins_of_mem_readPins hread,
          fun hdriven => hnot (hdrives pin (.inl hread) hdriven)⟩
    · refine and_congr_right fun hport => not_congr ⟨fun hdriven => ?_, ?_⟩
      · exact hdrives port.name (.inr (List.mem_map_of_mem hport)) hdriven
      · exact Design.contains_drivenPins_of_drives

/-- **Displaced elements do no harm** if all their pins are pins of the same kind of elements that
the block has. -/
theorem describes_of_pins_subset
    (h : ∀ e ∈ n.modelElements c,
      e.inputPins ⊆ (c.elementsOf n.models).flatMap Element.inputPins ∧
        e.outputPins ⊆ (c.elementsOf n.models).flatMap Element.outputPins) :
    (ofNetlist c n).Describes (c.design name n limits) := by
  refine describes_iff.2 ⟨fun pin _ hdriven => ?_, fun pin hread hpin => absurd ?_ hpin⟩
  · rw [Netlist.contains_drivenPins_iff] at hdriven
    exact Reach.Reachable.mono
      (fun _ => Element.mem_append_pins_mono fun e he => (h e he).2) hdriven
  · exact Element.mem_append_pins_mono (fun e he => (h e he).1) hread

/-- **The report and the block.**  Whatever the report calls undriven, drive does not reach in the
block that is built.  The report describes the block exactly if displaced elements drive no pin that
the block reads or puts out, and have no undriven input pin that the block does not read; and so it
does if they have the pins of those that displace them. -/
theorem report_describes_block_iff (c : Catalog) (name : String) (n : Netlist) (limits : Nat) :
    let d := c.design name n limits
    (∀ pin, (ofNetlist c n).ReportsUndriven pin → ¬d.Drives pin) ∧
    ((ofNetlist c n).Describes d ↔
      (∀ pin, pin ∈ d.readPins ∨ pin ∈ n.outputPins → (n.drivenPins c).contains pin →
        d.Drives pin) ∧
      ∀ pin ∈ n.readPins c, pin ∉ d.readPins → (n.drivenPins c).contains pin) ∧
    ((∀ e ∈ n.modelElements c, e.inputPins ⊆ d.elements.flatMap Element.inputPins ∧
        e.outputPins ⊆ d.elements.flatMap Element.outputPins) →
      (ofNetlist c n).Describes d) := by
  intro d
  refine ⟨fun pin hpin hdrives => ?_, describes_iff, describes_of_pins_subset⟩
  exact Netlist.not_contains_drivenPins_of_reportsUndriven hpin
    (Design.contains_drivenPins_of_drives hdrives)

end Wiring

namespace Displaced

/-- A netlist with a gate and a nested block of one name, of which the nested block counts.  The net
starts from the output pin that the gate would have. -/
def netlist : Netlist where
  outputs := [.up]
  models := [⟨"A", "AND"⟩, ⟨"A", "RELAY"⟩]
  nets := [⟨"1", "A.2", "UP"⟩]

/-- The block that is built from it. -/
def design : Design :=
  Stray.catalog.design "displaced" netlist 1

/-- A gate that is displaced by another gate does no harm. -/
example :
    (Wiring.ofNetlist Stray.catalog
      { netlist with models := [⟨"A", "AND"⟩, ⟨"A", "OR"⟩] }).Describes
      (Stray.catalog.design "displaced" { netlist with models := [⟨"A", "AND"⟩, ⟨"A", "OR"⟩] } 1) :=
  Wiring.describes_of_pins_subset (by decide +kernel)

end Displaced

/-- **A displaced gate is reported on.**  Nothing drives the pin where the net starts, nor the
output port where it ends, and the report does not say so; instead it says so of an input pin that
nothing in the block reads. -/
theorem Wiring.displaced_gate_is_reported :
    (.undrivenPin "A.2" ∉ (ofNetlist Stray.catalog Displaced.netlist).warnings ∧
      "A.2" ∈ Displaced.design.readPins ∧ ¬Displaced.design.Drives "A.2") ∧
    (.unconnectedOutput .up ∉ (ofNetlist Stray.catalog Displaced.netlist).warnings ∧
      ¬Displaced.design.Drives "UP") ∧
    (.undrivenPin "A.0" ∈ (ofNetlist Stray.catalog Displaced.netlist).warnings ∧
      "A.0" ∉ Displaced.design.readPins) := by
  decide +kernel

end LogicBlock
