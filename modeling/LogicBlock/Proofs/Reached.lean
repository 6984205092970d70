/-
**The states that a block can come into.**

A nested block is used by its surroundings only: it is evaluated, which assigns all of its input
ports and nothing else, or it is reset.  The states that a block can come into when only input ports
are ever assigned are much more restricted than states in general.  Its table has entries for the
ends of the nets, and of the ports it has no others but those that have been assigned.  So it is
known, without knowing any level, which of its output ports a nested block puts out; the pins where
nothing is put out, and where no net ends, stay undefined.

Main definitions:

* `Netlist.Takes` — an assignment to input ports;
* `Design.Reached`, `Element.Reached` — the states of a block, or of an element, after some history;
* `Element.AllReached` — the elements can be in the parts of a state;
* `Element.livePins` — the pins where an element puts something out, whenever it is evaluated;
* `Design.activePins` — the pins that a pass writes, in a state that can be reached.

Main results:

* `Design.invariant_port` — a port gets an entry by being assigned or from a net;
* `Design.Reached.of_invariant` — an invariant holds in every state that can be reached;
* `Design.Reached.parts` — **the parts of a reached state are reached** by the elements;
* `Element.Reached.contains_evaluate_iff` — **what an element puts out is known beforehand**;
* `Design.contains_settle_iff` — the entries after settling;
* `Design.Reached.read_of_idle` — a pin that nothing writes is undefined.
-/

import LogicBlock.Proofs.Drive
import LogicBlock.Proofs.ElementOrder
import LogicBlock.Proofs.Readings

set_option relaxedAutoImplicit false
set_option autoImplicit false

namespace LogicBlock

/-! ### Reached states -/

/-- The assignment names input ports of the block only. -/
def Netlist.Takes (n : Netlist) (a : PinMap) : Prop :=
  ∀ pin, a.contains pin → pin ∈ n.inputPins

theorem Netlist.takes_portAssignment (n : Netlist) (name : String) (pins : PinMap) :
    n.Takes (n.portAssignment name pins) :=
  fun _ hpin => contains_portAssignment_iff.1 hpin

/-- The block is in this state after some history of calls that assign input ports only. -/
def Design.Reached (d : Design) (s : State) : Prop :=
  ∃ history : List Call, (∀ call ∈ history, call.AssignsPorts d.netlist) ∧
    ((Block.ofDesign d).after history).state = s

/-- The element can be in this state: any state will do for a gate, which does not look at it. -/
def Element.Reached : Element → State → Prop
  | gate _, _ => True
  | composite _ _ block, s => block.Reached s

/-- Every element can be in the state that is its part of the state of the block. -/
def Element.AllReached (l : List Element) (s : State) : Prop :=
  ∀ p ∈ withParts l s.parts, p.1.Reached p.2

namespace Design.Reached

variable {d : Design} {s : State}

protected theorem cold (d : Design) : d.Reached d.cold :=
  ⟨[], by simp, rfl⟩

/-- A call that assigns input ports only leads to a reached state again. -/
theorem call (h : d.Reached s) {call : Call} (hcall : call.AssignsPorts d.netlist) :
    d.Reached ((Block.mk d s).call call).2.state := by
  obtain ⟨history, hports, rfl⟩ := h
  refine ⟨history ++ [call], fun c hc => ?_, ?_⟩
  · rcases List.mem_append.1 hc with hc | hc
    · exact hports c hc
    · rwa [List.mem_singleton.1 hc]
  · have hdesign : ((Block.ofDesign d).after history).design = d := Block.after_design _ _
    rw [Block.after_append, Block.after_cons, Block.after_nil]
    generalize (Block.ofDesign d).after history = b at hdesign
    cases hdesign
    rfl

theorem settle (h : d.Reached s) {a : PinMap} (ha : d.netlist.Takes a) :
    d.Reached (d.settle a s) := by
  have hcall : (Call.settle a).AssignsPorts d.netlist := fun _ ha' => Option.some.inj ha' ▸ ha
  exact h.call hcall

theorem reset (h : d.Reached s) : d.Reached s.reset :=
  h.call (Call.assignsPorts_reset d.netlist)

/-- **An invariant holds in every state that can be reached.** -/
theorem of_invariant {P : State → Prop} (hinv : d.Invariant d.netlist.Takes P)
    (hcold : P d.cold) (h : d.Reached s) : P s := by
  obtain ⟨history, hports, rfl⟩ := h
  exact hinv.after (s := d.cold) hports hcold

end Design.Reached

namespace Element.Reached

variable {e : Element} {s : State}

protected theorem cold (e : Element) : e.Reached e.cold := by
  cases e with
  | gate g => trivial
  | composite name type block => exact Design.Reached.cold block

theorem evaluate (h : e.Reached s) (m : PinMap) : e.Reached (e.evaluate m s).2 := by
  cases e with
  | gate g => trivial
  | composite name type block =>
      exact Design.Reached.settle h (block.netlist.takes_portAssignment name m)

theorem reset (h : e.Reached s) : e.Reached s.reset := by
  cases e with
  | gate g => trivial
  | composite name type block => exact Design.Reached.reset h

end Element.Reached

/-! ### Entries for ports -/

namespace Design

variable (d : Design) (port : Direction) {P : Prop}

/-- A port comes to have an entry by being assigned, or else it is the end of a net. -/
theorem invariant_port {ok : PinMap → Prop} (hassigned : ∀ a, ok a → a.contains port.name → P)
    (hend : port.name ∈ d.netlist.endpoints → P) :
    d.Invariant ok fun s => s.pins.contains port.name → P := by
  refine ⟨fun a s ha hs hcontains => ?_, fun s hs hcontains => ?_, fun s hs hcontains => ?_⟩
  · exact (PinMap.contains_assign_iff.1 hcontains).elim (hassigned a ha) hs
  · rcases Netlist.contains_propagate_iff.1 hcontains with hdest | hcontains
    · obtain ⟨net, hnet, hname⟩ := List.mem_map.1 hdest
      refine hend (List.mem_flatMap.2 ⟨net, hnet, ?_⟩)
      rw [← hname]
      exact List.mem_cons_of_mem _ List.mem_cons_self
    · -- the elements write pins of their own, which are no ports
      refine hs ?_
      rwa [NameMap.contains, Element.get?_evaluateAll_of_notMem] at hcontains
      intro hmem
      obtain ⟨e, -, hpin⟩ := List.mem_flatMap.1 hmem
      exact Element.name_notMem_outputPins port e hpin
  · cases s
    exact hs (PinMap.contains_clear_iff.1 hcontains)

theorem mem_endpoints_of_contains_cold (h : d.cold.pins.contains port.name) :
    port.name ∈ d.netlist.endpoints := by
  rwa [d.cold_pins, Netlist.contains_coldPins_iff] at h

end Design

namespace Design.Reached

variable {d : Design} {s : State}

theorem contains_endpoint (h : d.Reached s) {pin : String} (hpin : pin ∈ d.netlist.endpoints) :
    s.pins.contains pin := by
  obtain ⟨history, -, rfl⟩ := h
  exact Block.contains_after_of_mem_endpoints hpin history

/-- Of the ports, only those have entries that are assigned or that are ends of nets. -/
theorem of_contains_port (h : d.Reached s) {port : Direction} (hport : s.pins.contains port.name) :
    port.name ∈ d.netlist.inputPins ∨ port.name ∈ d.netlist.endpoints := by
  have hinv : d.Invariant d.netlist.Takes fun s => s.pins.contains port.name →
      port.name ∈ d.netlist.inputPins ∨ port.name ∈ d.netlist.endpoints :=
    d.invariant_port port (fun _ ha hcontains => .inl (ha _ hcontains)) .inr
  exact h.of_invariant hinv (fun hcold => .inr (d.mem_endpoints_of_contains_cold port hcold)) hport

/-- A port that is not assigned has an entry if it is the end of a net. -/
theorem contains_port_iff (h : d.Reached s) {port : Direction}
    (hport : port ∈ d.netlist.inputs → port.name ∈ d.netlist.endpoints) :
    s.pins.contains port.name ↔ port.name ∈ d.netlist.endpoints := by
  refine ⟨fun hcontains => (h.of_contains_port hcontains).elim (fun hin => ?_) id,
    h.contains_endpoint⟩
  obtain ⟨i, hi, hname⟩ := List.mem_map.1 hin
  exact hport (Direction.name_injective hname ▸ hi)

/-- States with the same levels have the same output ports to show, unless some input port is an
output port too and no net ends there. -/
theorem outputs_congr {s' : State} (h : d.Reached s) (h' : d.Reached s')
    (hread : s.pins.read = s'.pins.read)
    (hports : ∀ i ∈ d.netlist.outputs, i ∈ d.netlist.inputs → i.name ∈ d.netlist.endpoints) :
    d.outputs s = d.outputs s' := by
  refine PinMap.ext_read (fun pin => ?_) fun pin => ?_
  · rw [Bool.eq_iff_iff, outputs, outputs, PinMap.contains_restrictTo_iff,
      PinMap.contains_restrictTo_iff]
    refine and_congr_right fun hpin => ?_
    obtain ⟨i, hi, rfl⟩ := List.mem_map.1 hpin
    rw [h.contains_port_iff (hports i hi), h'.contains_port_iff (hports i hi)]
  · rw [outputs, outputs, PinMap.read_restrictTo, PinMap.read_restrictTo, hread]

/-- After all input ports have been assigned, a port has an entry if it is an input port or the end
of a net. -/
theorem contains_settle_port_iff (h : d.Reached s) {a : PinMap}
    (ha : ∀ pin, a.contains pin ↔ pin ∈ d.netlist.inputPins) {port : Direction} :
    (d.settle a s).pins.contains port.name ↔
      port.name ∈ d.netlist.inputPins ∨ port.name ∈ d.netlist.endpoints := by
  have hnext := h.settle fun pin hpin => (ha pin).1 hpin
  constructor
  · exact hnext.of_contains_port
  · rintro (hin | hend)
    · exact contains_settle_of_contains_assign (PinMap.contains_assign_iff.2 (.inl ((ha _).2 hin)))
    · exact hnext.contains_endpoint hend

end Design.Reached

/-! ### What elements put out -/

/-- The output ports that a nested block puts out: those that have an entry in its table once all
its input ports have been assigned. -/
def Netlist.livePorts (n : Netlist) : List Direction :=
  n.outputs.filter fun d => d.name ∈ n.inputPins ∨ d.name ∈ n.endpoints

/-- The pins where an element puts something out whenever it is evaluated. -/
def Element.livePins : Element → List String
  | gate g => [g.outputPin]
  | composite name _ block => block.netlist.livePorts.map (Pin.port name)

theorem Element.mem_outputPins_of_mem_livePins {e : Element} {pin : String}
    (h : pin ∈ e.livePins) : pin ∈ e.outputPins := by
  cases e with
  | gate g => exact h
  | composite name type block =>
      obtain ⟨d, hd, rfl⟩ := List.mem_map.1 h
      exact List.mem_map_of_mem (List.mem_filter.1 hd).1

/-- **It is known beforehand which pins an element puts out.** -/
theorem Element.Reached.contains_evaluate_iff {e : Element} {s : State} (h : e.Reached s)
    {m : PinMap} {pin : String} : (e.evaluate m s).1.contains pin ↔ pin ∈ e.livePins := by
  cases e with
  | gate g =>
      rw [evaluate_gate, Gate.evaluate, NameMap.contains, NameMap.get?_insert, livePins,
        List.mem_singleton]
      split <;> simp_all
  | composite name type block =>
      rw [Element.evaluate, Netlist.contains_portResults_iff, livePins, List.mem_map]
      simp only [Netlist.livePorts, List.mem_filter, decide_eq_true_eq]
      have hassigned : ∀ pin, (block.netlist.portAssignment name m).contains pin ↔
          pin ∈ block.netlist.inputPins := fun _ => Netlist.contains_portAssignment_iff
      have hports := fun port => @Design.Reached.contains_settle_port_iff _ _ h _ hassigned port
      constructor
      · rintro ⟨d, hd, hkey, hcontains⟩
        exact ⟨d, ⟨hd, (hports d).1 hcontains⟩, hkey⟩
      · rintro ⟨d, ⟨hd, hlive⟩, hkey⟩
        exact ⟨d, hd, hkey, (hports d).2 hlive⟩

/-! ### What a pass writes -/

namespace Design

/-- The pins that a pass writes: the destinations of nets, and what the elements put out. -/
def activePins (d : Design) : List String :=
  d.netlist.nets.map Net.destination ++ d.elements.flatMap Element.livePins

variable {d : Design} {s : State}

theorem mem_writtenPins_of_mem_activePins {pin : String} (h : pin ∈ d.activePins) :
    pin ∈ d.writtenPins := by
  rcases List.mem_append.1 h with h | h
  · exact List.mem_append_left _ h
  · obtain ⟨e, he, hpin⟩ := List.mem_flatMap.1 h
    refine List.mem_append_right _ (List.mem_flatMap.2 ⟨e, he, ?_⟩)
    exact Element.mem_outputPins_of_mem_livePins hpin

/-- In a block of gates all that can be written is. -/
theorem GatesOnly.activePins_eq (h : d.GatesOnly) : d.activePins = d.writtenPins := by
  have hlive : d.elements.flatMap Element.livePins = d.elements.flatMap Element.outputPins := by
    refine List.flatMap_congr fun e he => ?_
    obtain ⟨g, rfl⟩ := h e he
    rfl
  rw [activePins, writtenPins, hlive]

/-- A pass leaves alone the other pins. -/
theorem read_relax_of_idle (hparts : Element.AllReached d.elements s) {pin : String}
    (hpin : pin ∉ d.activePins) : (d.relax s).pins.read pin = s.pins.read pin := by
  rw [activePins, List.mem_append, not_or] at hpin
  rw [relax, Net.read_propagate, Net.carry_of_notMem hpin.1]
  refine Element.read_evaluateAll_of_silent fun p hp m hcontains => hpin.2 ?_
  have hlive := (hparts p hp).contains_evaluate_iff.1 hcontains
  exact List.mem_flatMap.2 ⟨p.1, Element.mem_of_mem_withParts hp, hlive⟩

/-- The parts of the state are reached by their elements. -/
theorem invariant_parts (d : Design) (ok : PinMap → Prop) :
    d.Invariant ok fun s => Element.AllReached d.elements s where
  assign _ _ _ hs := hs
  relax _ hs := Element.forall_withParts_evaluateAll (fun _ m _ h => h.evaluate m) hs
  reset s hs := by
    cases s
    intro p hp
    rw [State.reset, Element.withParts_resetAll] at hp
    obtain ⟨q, hq, rfl⟩ := List.mem_map.1 hp
    exact (hs q hq).reset

theorem allReached_cold (d : Design) : Element.AllReached d.elements d.cold := by
  cases d with
  | mk name netlist limits elements =>
      intro p hp
      rw [cold, Element.withParts_coldAll] at hp
      obtain ⟨e, -, rfl⟩ := List.mem_map.1 hp
      exact .cold e

/-- A pass makes entries for all that it writes. -/
theorem contains_relax_iff (hparts : Element.AllReached d.elements s) {pin : String} :
    (d.relax s).pins.contains pin ↔ pin ∈ d.activePins ∨ s.pins.contains pin := by
  have helements : (Element.evaluateAll d.elements s).pins.contains pin ↔
      pin ∈ d.elements.flatMap Element.livePins ∨ s.pins.contains pin :=
    Element.contains_evaluateAll_iff fun p hp _ _ => (hparts p hp).contains_evaluate_iff
  rw [relax, Netlist.contains_propagate_iff, helements, activePins, List.mem_append, or_assoc]

/-- **The entries after settling**: those that were there, what was assigned, and all that a pass
writes, if there was one. -/
theorem contains_settle_iff (hparts : Element.AllReached d.elements s) {a : PinMap} {pin : String} :
    (d.settle a s).pins.contains pin ↔
      (d.limits ≠ 0 ∧ pin ∈ d.activePins) ∨ a.contains pin ∨ s.pins.contains pin := by
  have hpasses : ∀ k t, Element.AllReached d.elements t →
      ((Nat.repeat d.relax k t).pins.contains pin ↔
        (k ≠ 0 ∧ pin ∈ d.activePins) ∨ t.pins.contains pin) := by
    intro k t ht
    induction k with
    | zero => simp [Nat.repeat]
    | succ k ih =>
        have hk := repeat_induction (d.invariant_parts fun _ => True).relax ht k
        rw [Nat.repeat, contains_relax_iff hk, ih, ← or_assoc]
        refine or_congr_left ⟨fun h => ?_, fun h => .inl h.2⟩
        exact ⟨k.succ_ne_zero, h.elim id And.right⟩
  rw [settle_eq, hpasses d.limits { s with pins := s.pins.assign a } hparts,
    PinMap.contains_assign_iff]

/-- **The parts of a reached state are reached** by the elements. -/
theorem Reached.parts (h : d.Reached s) : Element.AllReached d.elements s :=
  h.of_invariant (d.invariant_parts _) d.allReached_cold

/-- **A pin that is neither assigned nor written is undefined.** -/
theorem Reached.read_of_idle (h : d.Reached s) {pin : String}
    (hin : pin ∉ d.netlist.inputPins) (hpin : pin ∉ d.activePins) :
    s.pins.read pin = .undefined := by
  have hparts := d.invariant_parts d.netlist.Takes
  have hinv : d.Invariant d.netlist.Takes fun s =>
      Element.AllReached d.elements s ∧ s.pins.read pin = .undefined := by
    refine ⟨fun a s ha hs => ⟨hparts.assign a s ha hs.1, ?_⟩,
      fun s hs => ⟨hparts.relax s hs.1, ?_⟩, fun s hs => ⟨hparts.reset s hs.1, ?_⟩⟩
    · rw [PinMap.read_assign_of_not_contains (mt (ha pin) hin)]
      exact hs.2
    · rw [read_relax_of_idle hs.1 hpin]
      exact hs.2
    · cases s
      exact PinMap.read_clear _ pin
  have hcold : d.cold.pins.read pin = .undefined := by
    rw [d.cold_pins, Netlist.read_coldPins]
  exact (h.of_invariant hinv ⟨d.allReached_cold, hcold⟩).2

end Design

end LogicBlock
