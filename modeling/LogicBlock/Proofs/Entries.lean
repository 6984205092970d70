/-
**Which pins a table lists, and which of them can change.**

The table of a block gets its entries in three ways.  The ends of the nets are there from the start.
An assignment adds the pins that it names.  A pass adds the pins where the elements put something
out: the output pin of every gate, and those output ports of a nested block that its own table
lists.  Nothing takes an entry out again.  What a nested block lists has a history of its own, but
all its input ports are assigned whenever it is evaluated, so that this history leaves no trace in
what it puts out.  Hence the entries of the table after a run can be told from the netlist and the
calls, without knowing a single level.

The levels change at fewer pins than that.  A call leaves alone every pin that it does not assign,
unless a net ends there or an element puts something out there.

Main definitions:

* `Call.Names` — the call assigns a pin.

Main results:

* `Design.get?_relax_of_notMem`, `Design.get?_settle_of_notMem` — the pins that a pass leaves alone,
  and what settling makes of them;
* `Block.contains_after_iff` — **the entries after a run**;
* `Block.contains_after_port_iff` — the ports among them, which are what a call returns;
* `Block.entries_and_changes` — **which pins exist, and which can change**.
-/

import LogicBlock.Proofs.Reached

set_option relaxedAutoImplicit false
set_option autoImplicit false

namespace LogicBlock

/-! ### Pins that are left alone -/

/-- The nets leave alone all pins but their destinations. -/
theorem Netlist.get?_propagate_of_notMem {n : Netlist} {pin : String}
    (hpin : pin ∉ n.nets.map Net.destination) (pins : PinMap) :
    (n.propagate pins).get? pin = pins.get? pin := by
  refine n.propagate_induction (P := fun m => m.get? pin = pins.get? pin)
    (fun net hnet m hm => ?_) rfl
  have hne : pin ≠ net.destination := fun heq => hpin (heq ▸ List.mem_map_of_mem hnet)
  rw [PinMap.get?_copy, if_neg hne, hm]

namespace Design

variable {d : Design} {pin : String}

/-- A pass leaves alone all pins but those where a net ends or an element puts something out. -/
theorem get?_relax_of_notMem (hpin : pin ∉ d.writtenPins) (s : State) :
    (d.relax s).pins.get? pin = s.pins.get? pin := by
  rw [writtenPins, List.mem_append, not_or] at hpin
  rw [relax, Netlist.get?_propagate_of_notMem hpin.1, Element.get?_evaluateAll_of_notMem hpin.2]

/-- **Such a pin is left by settling as the assignment makes it.** -/
theorem get?_settle_of_notMem (hpin : pin ∉ d.writtenPins) (a : PinMap) (s : State) :
    (d.settle a s).pins.get? pin = (s.pins.assign a).get? pin := by
  rw [settle_eq]
  exact repeat_induction (P := fun t : State => t.pins.get? pin = (s.pins.assign a).get? pin)
    (fun t ht => (get?_relax_of_notMem hpin t).trans ht) rfl d.limits

end Design

/-! ### Entries after a run -/

/-- The call assigns the pin.  To evaluate assigns those input ports that its table lists. -/
def Call.Names (n : Netlist) (call : Call) (pin : String) : Prop :=
  ∃ a ∈ call.assignment? n, a.contains pin

theorem Netlist.mem_endpoints_of_mem_destinations {n : Netlist} {pin : String}
    (h : pin ∈ n.nets.map Net.destination) : pin ∈ n.endpoints := by
  obtain ⟨net, hnet, rfl⟩ := List.mem_map.1 h
  exact List.mem_flatMap.2 ⟨net, hnet, List.mem_cons_of_mem _ List.mem_cons_self⟩

namespace Call

variable {n : Netlist} {call : Call} {a : PinMap} {pin : String}

theorem names_iff_of_assignment (h : call.assignment? n = some a) :
    call.Names n pin ↔ a.contains pin := by
  constructor
  · rintro ⟨a', ha', hpin⟩
    rw [h] at ha'
    exact Option.some.inj ha' ▸ hpin
  · exact fun hpin => ⟨a, h, hpin⟩

theorem not_names_of_assignment_none (h : call.assignment? n = none) : ¬call.Names n pin := by
  rintro ⟨a, ha, -⟩
  rw [h] at ha
  cases ha

/-- A reset is the call that assigns nothing. -/
theorem assignment?_eq_none_iff : call.assignment? n = none ↔ call = .reset := by
  cases call <;> simp [assignment?]

end Call

namespace Block

/-- What a run adds to the entries of the table: the pins that are assigned, and, once a pass has
been made, the pins that a pass writes. -/
theorem contains_after_iff_of_allReached {d : Design} {s : State}
    (hs : Element.AllReached d.elements s) (history : List Call) (pin : String) :
    ((Block.mk d s).after history).pins.contains pin ↔
      s.pins.contains pin ∨ (∃ call ∈ history, call.Names d.netlist pin) ∨
        (d.limits ≠ 0 ∧ (∃ call ∈ history, call ≠ .reset) ∧ pin ∈ d.activePins) := by
  induction history generalizing s with
  | nil => simp [pins]
  | cons call rest ih =>
      have hinv := d.invariant_parts fun _ => True
      rw [after_cons, List.exists_mem_cons_iff, List.exists_mem_cons_iff]
      cases ha : call.assignment? d.netlist with
      | none =>
          have hreset : call = .reset := Call.assignment?_eq_none_iff.1 ha
          have hnames : ¬call.Names d.netlist pin := Call.not_names_of_assignment_none ha
          rw [call_of_assignment_none ha, reset, ih (hinv.reset s hs), State.contains_reset_iff]
          grind
      | some a =>
          have hne : call ≠ .reset := fun hreset => by
            rw [Call.assignment?_eq_none_iff.2 hreset] at ha
            cases ha
          rw [call_of_assignment ha, ih (hinv.settle trivial hs), Design.contains_settle_iff hs,
            Call.names_iff_of_assignment ha]
          grind

/-- **The entries after a run**: the ends of the nets, all pins that have been assigned, and, once a
pass has been made, the pins where the elements put something out. -/
theorem contains_after_iff (d : Design) (history : List Call) (pin : String) :
    ((ofDesign d).after history).pins.contains pin ↔
      pin ∈ d.netlist.endpoints ∨ (∃ call ∈ history, call.Names d.netlist pin) ∨
        (d.limits ≠ 0 ∧ (∃ call ∈ history, call ≠ .reset) ∧
          pin ∈ d.elements.flatMap Element.livePins) := by
  have hcold := contains_after_iff_of_allReached d.allReached_cold history pin
  rw [d.cold_pins, Netlist.contains_coldPins_iff, Design.activePins, List.mem_append] at hcold
  -- the destinations of the nets are among their ends
  have hends := @Netlist.mem_endpoints_of_mem_destinations d.netlist pin
  rw [ofDesign, hcold]
  grind

/-- A port has an entry if it is the end of a net or has been assigned: no element puts anything out
there. -/
theorem contains_after_port_iff (d : Design) (history : List Call) (port : Direction) :
    ((ofDesign d).after history).pins.contains port.name ↔
      port.name ∈ d.netlist.endpoints ∨ ∃ call ∈ history, call.Names d.netlist port.name := by
  rw [contains_after_iff]
  refine or_congr_right (or_iff_left ?_)
  rintro ⟨-, -, hlive⟩
  obtain ⟨e, -, hlive⟩ := List.mem_flatMap.1 hlive
  exact Element.name_notMem_outputPins port e (Element.mem_outputPins_of_mem_livePins hlive)

/-- **Which pins exist, and which can change.**  After any run the table lists the ends of the nets,
the pins that the calls have assigned, and, once a pass has been made, the pins where the elements
put something out; these are the output pin of every gate, and of every nested block those output
ports that are among its input ports or are ends of its nets.  A further call returns those output
ports that are ends of nets or have been assigned, whatever the levels are.  It leaves alone every
pin that it does not assign, where no net ends, and that is no output pin of an element. -/
theorem entries_and_changes (c : Catalog) (name : String) (n : Netlist) (limits : Nat)
    (history : List Call) :
    let d := c.design name n limits
    let b := (ofDesign d).after history
    (∀ pin, pin ∈ b.pins.keys ↔
      pin ∈ n.endpoints ∨ (∃ call ∈ history, call.Names n pin) ∨
        (1 ≤ limits ∧ (∃ call ∈ history, call ≠ .reset) ∧ ∃ e ∈ d.elements, pin ∈ e.livePins)) ∧
    ∀ a,
      (∀ pin, pin ∈ (b.settle a).1.keys ↔
        pin ∈ n.outputPins ∧
          (pin ∈ n.endpoints ∨ a.contains pin ∨ ∃ call ∈ history, call.Names n pin)) ∧
      ∀ pin, ¬a.contains pin → pin ∉ n.nets.map Net.destination →
        (∀ e ∈ d.elements, pin ∉ e.outputPins) →
        (b.settle a).2.pins.get? pin = b.pins.get? pin := by
  intro d b
  have hdesign : b.design = d := after_design (ofDesign d) history
  refine ⟨fun pin => ?_, fun a => ⟨fun pin => ?_, fun pin ha hdest hout => ?_⟩⟩
  · rw [NameMap.mem_keys_iff, ← List.mem_flatMap, Nat.one_le_iff_ne_zero]
    exact contains_after_iff d history pin
  · -- the map shows the output ports after one more call
    have hanswer : (b.settle a).1 =
        ((ofDesign d).after (history ++ [.settle a])).pins.restrictTo
          b.design.netlist.outputPins := by
      rw [after_append]
      rfl
    rw [hanswer, hdesign, NameMap.mem_keys_iff]
    refine PinMap.contains_restrictTo_iff.trans (and_congr_right fun hpin => ?_)
    obtain ⟨port, -, rfl⟩ := List.mem_map.1 hpin
    have hnames : (Call.settle a).Names n port.name ↔ a.contains port.name :=
      Call.names_iff_of_assignment rfl
    have hcalls : (∃ call ∈ history ++ [.settle a], call.Names n port.name) ↔
        (∃ call ∈ history, call.Names n port.name) ∨ a.contains port.name := by
      simp only [List.mem_append, List.mem_singleton, or_and_right, exists_or, exists_eq_left,
        hnames]
    exact (contains_after_port_iff d _ port).trans (or_congr_right (hcalls.trans or_comm))
  · have hwritten : pin ∉ b.design.writtenPins := by
      rw [hdesign, Design.writtenPins, List.mem_append, not_or, List.mem_flatMap]
      refine ⟨hdest, ?_⟩
      rintro ⟨e, he, hpin⟩
      exact hout e he hpin
    have hnone : a.get? pin = none := by
      rwa [NameMap.contains, Option.not_isSome_iff_eq_none] at ha
    have hsettle := Design.get?_settle_of_notMem hwritten a b.state
    rwa [PinMap.assign, NameMap.get?_override, hnone, Option.none_or] at hsettle

/-- Of a nested block only those output ports get an entry that its own table can list. -/
example :
    let n : Netlist :=
      { models := [⟨"R", "RELAY"⟩, ⟨"G", "OR"⟩], nets := [⟨"1", "G.2", "R.NORTH"⟩] }
    ((ofDesign (Stray.catalog.design "listed" n 1)).after [.reset, .settle .empty]).pins.keys =
      ["G.2", "R.NORTH", "R.SOUTH"] := by
  decide +kernel

end Block

end LogicBlock
