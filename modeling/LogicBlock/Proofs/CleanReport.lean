/-
**A clean report promises defined outputs.**

The wiring report is made without running the block: it only follows drive along the nets.  It says
nothing about how long a level takes to arrive, and nothing about what a pin held before.  If there
is no feedback, it is enough all the same.  A driven pin that no pass writes is an input port, and
holds what it was assigned.  Every other driven pin is written in each pass by gates and nets that
read driven pins of a lower rank, so after as many passes as its rank it holds a defined level, and
it no longer matters how many drivers it has.

Main results:

* `GateKind.isDefined_apply` — defined inputs give a defined output;
* `Netlist.mem_outputPins_elementsOf` — of gates with one name, the one that stays in the block has
  the output pin of them all;
* `Design.Climbs.ranked` — ranks that every net and every gate raises are ranks in the weaker sense;
* `Block.settle_outputs_defined` — **if the report finds nothing undriven, then all outputs are
  defined** as soon as all inputs are.
-/

import LogicBlock.Proofs.Acyclic
import LogicBlock.Proofs.Drive

set_option relaxedAutoImplicit false
set_option autoImplicit false

namespace LogicBlock

/-! ### Defined levels -/

theorem Voltage.isDefined_iff {v : Voltage} : v.isDefined ↔ v = .high ∨ v = .low := by
  cases v <;> decide

@[simp] theorem Voltage.isDefined_ofBool (b : Bool) : (ofBool b).isDefined := by
  cases b <;> rfl

theorem Voltage.exists_ofBool_of_isDefined {v : Voltage} (h : v.isDefined) : ∃ b, v = ofBool b := by
  rcases isDefined_iff.1 h with rfl | rfl
  · exact ⟨true, rfl⟩
  · exact ⟨false, rfl⟩

/-- **Defined inputs give a defined output**, whatever the kind of the gate and the policy. -/
theorem GateKind.isDefined_apply (policy : NorPolicy) (k : GateKind) {a b : Voltage}
    (ha : a.isDefined) (hb : b.isDefined) : (k.apply policy a b).isDefined := by
  obtain ⟨x, rfl⟩ := Voltage.exists_ofBool_of_isDefined ha
  obtain ⟨y, rfl⟩ := Voltage.exists_ofBool_of_isDefined hb
  rw [apply_ofBool]
  exact Voltage.isDefined_ofBool _

/-! ### Ranks that rise everywhere -/

/-- The rank rises along every net, and from the inputs of an element to its outputs. -/
structure Design.Climbs (d : Design) (rank : String → Nat) : Prop where
  net : ∀ net ∈ d.netlist.nets, rank net.source < rank net.destination
  element : ∀ e ∈ d.elements, ∀ i ∈ e.inputPins, ∀ o ∈ e.outputPins, rank i < rank o

theorem Design.Climbs.ranked {d : Design} {rank : String → Nat} (h : d.Climbs rank)
    (hgates : d.GatesOnly) : d.Ranked rank where
  written p hp := by
    rcases List.mem_append.1 hp with hp | hp
    · obtain ⟨net, hnet, rfl⟩ := List.mem_map.1 hp
      have hlt := h.net net hnet
      omega
    · obtain ⟨e, he, hout⟩ := List.mem_flatMap.1 hp
      obtain ⟨g, rfl⟩ := hgates e he
      have hlt := h.element _ he (Pin.terminal g.name 0)
        (by simp [Element.inputPins, Gate.inputPins]) p hout
      omega
  element := h.element
  net net hnet := Nat.le_of_lt (h.net net hnet)
  self net hnet _ := h.net net hnet
  late := by
    have hall : d.netlist.nets.Pairwise fun _ _ => True :=
      List.pairwise_of_forall fun _ _ => trivial
    exact hall.imp_of_mem fun hnet _ _ _ => h.net _ hnet

/-! ### What a report without undriven pins says -/

namespace Netlist

variable {n : Netlist} {c : Catalog}

/-- A gate that a later one of the same name replaces has the output pin of that one. -/
theorem mem_outputPins_elementsOf (h : n.GatesOnly c) {pin : String}
    (hpin : pin ∈ (n.modelElements c).flatMap Element.outputPins) :
    pin ∈ (c.elementsOf n.models).flatMap Element.outputPins := by
  obtain ⟨e, he, hout⟩ := List.mem_flatMap.1 hpin
  have hname : e.name ∈ (c.elementsOf n.models).map Element.name :=
    Catalog.mem_names_elementsOf.2 (List.mem_map_of_mem he)
  obtain ⟨e', he', heq⟩ := List.mem_map.1 hname
  obtain ⟨g, rfl⟩ := h.modelElements e he
  obtain ⟨g', rfl⟩ := h.modelElements e' (Catalog.mem_modelElements_of_mem_elementsOf he')
  refine List.mem_flatMap.2 ⟨.gate g', he', ?_⟩
  rw [Element.outputPins, List.mem_singleton] at hout ⊢
  rw [hout]
  exact Gate.outputPin_inj.2 heq.symm

/-- A driven pin is an input port, or a pass writes it. -/
theorem mem_inputPins_or_mem_writtenPins (h : n.GatesOnly c) (name : String) (limits : Nat)
    {pin : String} (hpin : (n.drivenPins c).contains pin) :
    pin ∈ n.inputPins ∨ pin ∈ (c.design name n limits).writtenPins := by
  rcases contains_drivenPins_cases hpin with hin | hout | hdest
  · exact .inl hin
  · exact .inr (List.mem_append_right _ (mem_outputPins_elementsOf h hout))
  · exact .inr (List.mem_append_left _ hdest)

/-- Where the report finds no undriven pin, gates and nets read driven pins only, and defined levels
give defined levels. -/
theorem respects_isDefined (hclean : ∀ pin, .undrivenPin pin ∉ n.warnings c) (name : String)
    (limits : Nat) :
    (c.design name n limits).Respects (fun a _ => a.isDefined)
      fun pin => (n.drivenPins c).contains pin := by
  have hread : ∀ pin ∈ n.readPins c, (n.drivenPins c).contains pin :=
    fun _ => contains_drivenPins_of_mem_readPins hclean
  refine ⟨fun net hnet => ?_, fun g hg pin hpin => ?_, fun g _ a a' b b' ha hb => ?_⟩
  · exact hread _ (List.mem_append_left _ (List.mem_map_of_mem hnet))
  · have hmem := Catalog.mem_modelElements_of_mem_elementsOf (Design.mem_gates.1 hg)
    exact hread pin (List.mem_append_right _ (List.mem_flatMap.2 ⟨_, hmem, hpin⟩))
  · exact GateKind.isDefined_apply g.policy g.kind ha hb

end Netlist

/-! ### Defined outputs -/

section Settled

variable {n : Netlist} {c : Catalog} {name : String} {limits : Nat} {assignment : PinMap}

/-- **Every driven pin is defined** after as many passes as its rank. -/
theorem Design.isDefined_settle {rank : String → Nat} (hgates : n.GatesOnly c)
    (hclean : ∀ pin, .undrivenPin pin ∉ n.warnings c)
    (hrank : (c.design name n limits).Climbs rank)
    (hinputs : ∀ i ∈ n.inputs, assignment.get? i.name = some .high ∨
      assignment.get? i.name = some .low) (s : State) {pin : String}
    (hpin : (n.drivenPins c).contains pin) (hlimits : rank pin ≤ limits) :
    (((c.design name n limits).settle assignment s).pins.read pin).isDefined := by
  have honly := hgates.design name limits
  have hstart : ∀ p, (n.drivenPins c).contains p → p ∉ (c.design name n limits).writtenPins →
      ((s.pins.assign assignment).read p).isDefined := by
    intro p hp hfree
    have hcases := Netlist.mem_inputPins_or_mem_writtenPins hgates name limits hp
    have hport : p ∈ n.inputPins := hcases.resolve_right hfree
    obtain ⟨i, hi, rfl⟩ := List.mem_map.1 hport
    rw [PinMap.read_assign]
    rcases hinputs i hi with h | h <;> rw [h] <;> rfl
  rw [read_settle honly]
  exact (hrank.ranked honly).repeat_related honly (c.nodup_names_elementsOf n.models)
    (Netlist.respects_isDefined hclean name limits) (w := (s.pins.assign assignment).read)
    hstart limits pin hpin hlimits

/-- **Every driven port has an entry** when all input ports are assigned, once the ends of the nets
have one. -/
theorem Design.contains_settle {i : Direction} (hport : (n.drivenPins c).contains i.name)
    (hinputs : ∀ i ∈ n.inputs, assignment.contains i.name) {s : State}
    (hends : ∀ pin ∈ n.endpoints, s.pins.contains pin) :
    ((c.design name n limits).settle assignment s).pins.contains i.name := by
  refine contains_settle_of_contains_assign (PinMap.contains_assign_iff.2 ?_)
  rcases Netlist.contains_drivenPins_cases hport with hin | hout | hdest
  · obtain ⟨j, hj, heq⟩ := List.mem_map.1 hin
    rw [← heq]
    exact .inl (hinputs j hj)
  · obtain ⟨e, -, hout⟩ := List.mem_flatMap.1 hout
    exact absurd hout (Element.name_notMem_outputPins i e)
  · obtain ⟨net, hnet, heq⟩ := List.mem_map.1 hdest
    refine .inr (hends _ (List.mem_flatMap.2 ⟨net, hnet, ?_⟩))
    simp [heq]

end Settled

/-- **A clean report promises defined outputs.**  When the report finds no undriven pin and no
unconnected output, and some rank rises along every net and through every gate, then a block gives a
defined level at every declared output, whatever has been done to it before, as soon as the
assignment gives one to every declared input and there are as many passes as the outputs rank. -/
theorem Block.settle_outputs_defined (c : Catalog) (name : String) (n : Netlist) (limits : Nat)
    (rank : String → Nat) (hgates : n.GatesOnly c)
    (hpins : ∀ pin, .undrivenPin pin ∉ (Wiring.ofNetlist c n).warnings)
    (hports : ∀ o, .unconnectedOutput o ∉ (Wiring.ofNetlist c n).warnings)
    (hrank : (c.design name n limits).Climbs rank)
    (hlimits : ∀ o ∈ n.outputs, rank o.name ≤ limits) (history : List Call) (assignment : PinMap)
    (hinputs : ∀ i ∈ n.inputs, assignment.get? i.name = some .high ∨
      assignment.get? i.name = some .low) :
    let answer := (((Block.ofDesign (c.design name n limits)).after history).settle assignment).1
    (∀ o ∈ n.outputs, answer.contains o.name) ∧
      ∀ pin v, answer.get? pin = some v → v = .high ∨ v = .low := by
  intro answer
  have hdriven : ∀ o ∈ n.outputs, (n.drivenPins c).contains o.name :=
    fun _ => Netlist.contains_drivenPins_of_mem_outputs hports
  -- of the run before, it matters only that the table still has the ends of the nets
  obtain ⟨s, hs, hanswer⟩ : ∃ s : State, (∀ pin ∈ n.endpoints, s.pins.contains pin) ∧
      answer = ((c.design name n limits).settle assignment s).pins.restrictTo n.outputPins := by
    refine ⟨((Block.ofDesign (c.design name n limits)).after history).state, fun pin hpin => ?_, ?_⟩
    · exact contains_after_of_mem_endpoints (d := c.design name n limits) hpin history
    · change ((Block.after _ history).settle assignment).1 = _
      rw [settle, after_design]
      rfl
  constructor
  · intro o ho
    have hassigned : ∀ i ∈ n.inputs, assignment.contains i.name := by
      intro i hi
      rcases hinputs i hi with h | h <;> rw [NameMap.contains, h] <;> rfl
    have hentry : ((c.design name n limits).settle assignment s).pins.contains o.name :=
      Design.contains_settle (hdriven o ho) hassigned hs
    have hport : o.name ∈ n.outputPins := List.mem_map_of_mem ho
    rw [hanswer, NameMap.contains, PinMap.get?_restrictTo, if_pos hport]
    exact hentry
  · intro pin v hv
    rw [hanswer, PinMap.get?_restrictTo] at hv
    split at hv
    · rename_i hpin
      obtain ⟨o, ho, rfl⟩ := List.mem_map.1 hpin
      have hdefined := Design.isDefined_settle hgates hpins hrank hinputs s (hdriven o ho)
        (hlimits o ho)
      rw [PinMap.read, hv, Option.getD_some] at hdefined
      exact Voltage.isDefined_iff.1 hdefined
    · cases hv

namespace Merged

/-- A netlist with a repeated name, two nets into one pin and into one output port, and a net into
an input port. -/
def netlist : Netlist where
  inputs := [.north, .west]
  outputs := [.east, .west]
  models := [⟨"A", "AND"⟩, ⟨"B", "NOR"⟩, ⟨"A", "OR"⟩]
  nets := [⟨"1", "B.2", "EAST"⟩, ⟨"2", "A.2", "EAST"⟩, ⟨"3", "A.2", "B.0"⟩,
    ⟨"4", "NORTH", "B.0"⟩, ⟨"5", "WEST", "B.1"⟩, ⟨"6", "WEST", "A.0"⟩, ⟨"7", "NORTH", "A.1"⟩,
    ⟨"8", "NORTH", "WEST"⟩]

/-- The number of nets and gates on the longest way to a pin. -/
def rank (p : String) : Nat :=
  if p ∈ ["EAST"] then 6
  else if p ∈ ["B.2"] then 5
  else if p ∈ ["B.0", "B.1"] then 4
  else if p ∈ ["A.2"] then 3
  else if p ∈ ["A.0", "A.1"] then 2
  else if p ∈ ["WEST"] then 1
  else 0

/-- The design of a block that has as many passes as its output ports rank. -/
def design : Design :=
  Catalog.basic.design "merged" netlist 6

/-- An assignment to both input ports. -/
def assignment : PinMap :=
  .ofList [("NORTH", .low), ("WEST", .high)]

theorem warnings_eq : (Wiring.ofNetlist Catalog.basic netlist).warnings = [] := by
  decide +kernel

theorem climbs : design.Climbs rank where
  net := by decide +kernel
  element := by decide +kernel

end Merged

/-- Six passes are enough for defined outputs, also after a run that has left pins undefined. -/
theorem Block.merged_outputs_defined :
    Merged.netlist.GatesOnly Catalog.basic ∧
      (Wiring.ofNetlist Catalog.basic Merged.netlist).warnings = [] ∧
      Merged.design.Climbs Merged.rank ∧
      (∀ o ∈ Merged.netlist.outputs, Merged.rank o.name ≤ 6) ∧
      ∀ o ∈ Merged.netlist.outputs,
        (((Block.ofDesign Merged.design).after
          [.settle (.ofList [("NORTH", .high), ("B.1", .undefined)]), .reset]).settle
            Merged.assignment).1.contains o.name :=
  have hgates : Merged.netlist.GatesOnly Catalog.basic := by decide +kernel
  have hnone : ∀ w, w ∉ (Wiring.ofNetlist Catalog.basic Merged.netlist).warnings := by
    rw [Merged.warnings_eq]
    exact fun _ => List.not_mem_nil
  have hlimits : ∀ o ∈ Merged.netlist.outputs, Merged.rank o.name ≤ 6 := by decide +kernel
  have hinputs : ∀ i ∈ Merged.netlist.inputs,
      Merged.assignment.get? i.name = some .high ∨ Merged.assignment.get? i.name = some .low := by
    decide +kernel
  ⟨hgates, Merged.warnings_eq, Merged.climbs, hlimits,
    (settle_outputs_defined Catalog.basic "merged" Merged.netlist 6 Merged.rank hgates
      (fun _ => hnone _) (fun _ => hnone _) Merged.climbs hlimits _ _ hinputs).1⟩

end LogicBlock
