/-
**The cone of influence.**

Take a set of pins that is closed backwards: a net that ends in it starts in it, and an element with
an output pin in it has all its input pins in it.  Nothing outside can influence these pins.  The
nets that end elsewhere, and the elements that write elsewhere only, may be taken out of the
netlist, and what is assigned to pins outside the set may be anything at all.

The two blocks are not in step entry by entry: a pin may have an entry in the one table and none in
the other, if it is the end of a net that has been taken out.  It reads as undefined in both.  What
is kept in step are the levels at the pins of the set, and the states of the elements that have been
left in: in a pass of the whole block these see what they see in the other one, and between two of
them the whole block evaluates elements whose writing does not touch the set.

The least such set that contains given pins is their fan-in.

Main definitions:

* `Netlist.BackwardClosed` — the sets that nothing outside writes to;
* `Netlist.cone` — the part of a netlist that writes to such a set;
* `Netlist.fanIn` — all that some pins depend on.

Main results:

* `Element.evaluateAll_inStep`, `Netlist.propagate_cone` — one pass of both blocks;
* `Netlist.backwardClosed_fanIn`, `Netlist.fanIn_subset` — **the fan-in is the least set** that is
  closed backwards;
* `Block.nothing_outside_has_influence` — **the whole block and its cone show the same levels**,
  after every call.
-/

import LogicBlock.Proofs.ElementOrder
import Mathlib.Data.Set.Function

set_option relaxedAutoImplicit false
set_option autoImplicit false

namespace LogicBlock

variable {C : Set String}

/-! ### Sets that are closed backwards -/

/-- The element has an output pin in the set. -/
def Element.WritesTo (C : Set String) (e : Element) : Prop :=
  ∃ pin ∈ e.outputPins, pin ∈ C

instance (C : Set String) [DecidablePred (· ∈ C)] : DecidablePred (Element.WritesTo C) :=
  fun e => inferInstanceAs (Decidable (∃ pin ∈ e.outputPins, pin ∈ C))

namespace Netlist

/-- **A net or an element that writes to the set reads nothing outside**. -/
structure BackwardClosed (n : Netlist) (c : Catalog) (C : Set String) : Prop where
  net : ∀ net ∈ n.nets, net.destination ∈ C → net.source ∈ C
  element : ∀ e ∈ n.modelElements c, e.WritesTo C → ∀ pin ∈ e.inputPins, pin ∈ C

/-- The netlist without the nets that end outside the set, and without the models whose elements
have no output pin in it. -/
def cone (n : Netlist) (c : Catalog) (C : Set String) [DecidablePred (· ∈ C)] : Netlist :=
  { n with
    models := n.models.filter fun m => ∀ e ∈ c.create? m, e.WritesTo C
    nets := n.nets.filter fun net => net.destination ∈ C }

end Netlist

/-! ### The fan-in -/

namespace Netlist

variable {n : Netlist} {c : Catalog}

/-- The pins of the nets and the elements, each pin that is written with one that is read for it. -/
def dependencies (n : Netlist) (c : Catalog) : List (String × String) :=
  n.nets.map (fun net => (net.destination, net.source)) ++
    (n.modelElements c).flatMap fun e => e.outputPins ×ˢ e.inputPins

/-- The given pins, and all that they depend on. -/
def fanIn (n : Netlist) (c : Catalog) (pins : List String) : NameSet :=
  Reach.closure (n.dependencies c) (.ofNames pins)

theorem backwardClosed_iff :
    n.BackwardClosed c C ↔ ∀ d ∈ n.dependencies c, d.1 ∈ C → d.2 ∈ C := by
  constructor
  · intro h d hd hwritten
    rcases List.mem_append.1 hd with hd | hd
    · obtain ⟨net, hnet, rfl⟩ := List.mem_map.1 hd
      exact h.net net hnet hwritten
    · obtain ⟨e, he, hd⟩ := List.mem_flatMap.1 hd
      obtain ⟨hout, hin⟩ := List.pair_mem_product.1 hd
      exact h.element e he ⟨d.1, hout, hwritten⟩ d.2 hin
  · intro h
    refine ⟨fun net hnet => ?_, ?_⟩
    · exact h (net.destination, net.source) (List.mem_append_left _ (List.mem_map_of_mem hnet))
    · rintro e he ⟨out, hout, hwritten⟩ pin hpin
      exact h (out, pin) (List.mem_append_right _
        (List.mem_flatMap.2 ⟨e, he, List.pair_mem_product.2 ⟨hout, hpin⟩⟩)) hwritten

/-- **The fan-in is closed backwards**. -/
theorem backwardClosed_fanIn (n : Netlist) (c : Catalog) (pins : List String) :
    n.BackwardClosed c {pin | (n.fanIn c pins).contains pin} := by
  refine backwardClosed_iff.2 fun d hd hwritten => ?_
  rw [Set.mem_ofPred_eq, fanIn, Reach.contains_closure_iff] at hwritten ⊢
  exact .step hwritten hd

/-- The fan-in is part of every set that is closed backwards and contains the given pins. -/
theorem fanIn_subset (h : n.BackwardClosed c C) {pins : List String}
    (hpins : ∀ pin ∈ pins, pin ∈ C) : {pin | (n.fanIn c pins).contains pin} ⊆ C := by
  intro pin hpin
  rw [Set.mem_ofPred_eq, fanIn, Reach.contains_closure_iff] at hpin
  induction hpin with
  | start hstart => exact hpins _ ((NameSet.contains_ofNames _ _).1 hstart)
  | step _ hd ih => exact backwardClosed_iff.1 h _ hd ih

end Netlist

/-! ### The elements of the cone -/

/-- The elements that the cone is left with are those that write to the set. -/
theorem Catalog.elementsOf_cone (c : Catalog) {n : Netlist} [DecidablePred (· ∈ C)]
    (hnames : (n.models.map Model.name).Nodup) :
    c.elementsOf (n.cone c C).models = (c.elementsOf n.models).filter (Element.WritesTo C) := by
  have hcone : ((n.cone c C).models.map Model.name).Nodup :=
    hnames.sublist (List.filter_sublist.map _)
  rw [c.elementsOf_eq_filterMap hcone, c.elementsOf_eq_filterMap hnames]
  change (n.models.filter fun m => ∀ e ∈ c.create? m, e.WritesTo C).filterMap c.create? = _
  induction n.models with
  | nil => rfl
  | cons m rest ih =>
      cases hm : c.create? m with
      | none => simpa [hm] using ih
      | some e => by_cases he : e.WritesTo C <;> simpa [hm, he] using ih

/-! ### One pass of a block and of its cone -/

/-- Tables that read alike in the set do so after assignments with the same entries in the set. -/
theorem PinMap.eqOn_read_assign {m m' a a' : PinMap} (hm : Set.EqOn m.read m'.read C)
    (ha : Set.EqOn a.get? a'.get? C) : Set.EqOn (m.assign a).read (m'.assign a').read C := by
  intro pin hpin
  rw [PinMap.read_assign, PinMap.read_assign, ha hpin, hm hpin]

/-- A net that ends in the set is copied alike in tables that read alike in the set. -/
theorem PinMap.eqOn_read_copy {m m' : PinMap} (hm : Set.EqOn m.read m'.read C)
    {source : String} (hsource : source ∈ C) (destination : String) :
    Set.EqOn (m.copy source destination).read (m'.copy source destination).read C := by
  intro pin hpin
  rw [PinMap.read_copy, PinMap.read_copy, hm hsource, hm hpin]

variable [DecidablePred (· ∈ C)]

/-- **The nets keep in step**: one that ends outside the set does not touch it. -/
theorem Netlist.propagate_cone {n : Netlist} {c : Catalog} (h : n.BackwardClosed c C)
    {m m' : PinMap} (hm : Set.EqOn m.read m'.read C) :
    Set.EqOn (n.propagate m).read ((n.cone c C).propagate m').read C := by
  have hnets := h.net
  rw [propagate, propagate, cone]
  generalize n.nets = nets at hnets
  induction nets generalizing m m' with
  | nil => exact hm
  | cons net rest ih =>
      rw [List.forall_mem_cons] at hnets
      rw [List.foldl_cons]
      by_cases hnet : net.destination ∈ C
      · rw [List.filter_cons_of_pos (by simpa using hnet), List.foldl_cons]
        exact ih (PinMap.eqOn_read_copy hm (hnets.1 hnet) _) hnets.2
      · rw [List.filter_cons_of_neg (by simpa using hnet)]
        refine ih (fun pin hpin => ?_) hnets.2
        have hne : pin ≠ net.destination := fun heq => hnet (heq ▸ hpin)
        rw [PinMap.read_copy, if_neg hne, hm hpin]

/-- A state of a block with the elements `l`, and a state of the block that is left with those that
write to the set: the tables read alike in the set, and these elements have the same parts. -/
structure State.InStep (C : Set String) [DecidablePred (· ∈ C)] (l : List Element)
    (s s' : State) : Prop where
  pins : Set.EqOn s.pins.read s'.pins.read C
  parts : (Element.withParts l s.parts).filter (fun p => p.1.WritesTo C) =
    Element.withParts (l.filter (Element.WritesTo C)) s'.parts

namespace State.InStep

variable {l : List Element} {e : Element} {s s' : State}

/-- An element that writes to the set stands first in both blocks, with the same part. -/
theorem cons_iff_of_writesTo (he : e.WritesTo C) :
    InStep C (e :: l) s s' ↔ s.parts.headD .inert = s'.parts.headD .inert ∧
      InStep C l ⟨s.pins, s.parts.tail⟩ ⟨s'.pins, s'.parts.tail⟩ := by
  have hparts : (Element.withParts (e :: l) s.parts).filter (fun p => p.1.WritesTo C) =
        Element.withParts ((e :: l).filter (Element.WritesTo C)) s'.parts ↔
      s.parts.headD .inert = s'.parts.headD .inert ∧
        (Element.withParts l s.parts.tail).filter (fun p => p.1.WritesTo C) =
          Element.withParts (l.filter (Element.WritesTo C)) s'.parts.tail := by
    rw [Element.withParts, List.filter_cons_of_pos (by simpa using he),
      List.filter_cons_of_pos (by simpa using he), Element.withParts, List.cons_eq_cons,
      Prod.mk.injEq, and_iff_right rfl]
  exact ⟨fun h => ⟨(hparts.1 h.parts).1, h.pins, (hparts.1 h.parts).2⟩,
    fun h => ⟨h.2.pins, hparts.2 ⟨h.1, h.2.parts⟩⟩⟩

/-- Any other element stands first in the whole block only. -/
theorem cons_iff_of_not_writesTo (he : ¬e.WritesTo C) :
    InStep C (e :: l) s s' ↔ InStep C l ⟨s.pins, s.parts.tail⟩ s' := by
  have hparts : (Element.withParts (e :: l) s.parts).filter (fun p => p.1.WritesTo C) =
        Element.withParts ((e :: l).filter (Element.WritesTo C)) s'.parts ↔
      (Element.withParts l s.parts.tail).filter (fun p => p.1.WritesTo C) =
        Element.withParts (l.filter (Element.WritesTo C)) s'.parts := by
    rw [Element.withParts, List.filter_cons_of_neg (by simpa using he),
      List.filter_cons_of_neg (by simpa using he)]
  exact ⟨fun h => ⟨h.pins, hparts.1 h.parts⟩, fun h => ⟨h.pins, hparts.2 h.parts⟩⟩

theorem assign (h : InStep C l s s') {a a' : PinMap} (ha : Set.EqOn a.get? a'.get? C) :
    InStep C l { s with pins := s.pins.assign a } { s' with pins := s'.pins.assign a' } :=
  ⟨PinMap.eqOn_read_assign h.pins ha, h.parts⟩

theorem cold (n : Netlist) (c : Catalog) (l : List Element) :
    InStep C l ⟨n.coldPins, Element.coldAll l⟩
      ⟨(n.cone c C).coldPins, Element.coldAll (l.filter (Element.WritesTo C))⟩ := by
  refine ⟨fun pin _ => ?_, ?_⟩
  · rw [Netlist.read_coldPins, Netlist.read_coldPins]
  · rw [Element.withParts_coldAll, Element.withParts_coldAll, List.filter_map]
    rfl

theorem reset (h : InStep C l s s') : InStep C l s.reset s'.reset := by
  obtain ⟨pins, parts⟩ := s
  obtain ⟨pins', parts'⟩ := s'
  refine ⟨fun pin _ => ?_, ?_⟩
  · rw [State.reset, State.reset, PinMap.read_clear, PinMap.read_clear]
  · rw [State.reset, State.reset, Element.withParts_resetAll, Element.withParts_resetAll,
      List.filter_map]
    exact congrArg (List.map _) h.parts

end State.InStep

/-- **The elements keep in step**: those that write to the set see the same in both blocks, and the
others leave the set alone. -/
theorem Element.evaluateAll_inStep {l : List Element}
    (h : ∀ e ∈ l, e.WritesTo C → ∀ pin ∈ e.inputPins, pin ∈ C) {s s' : State}
    (hs : State.InStep C l s s') :
    State.InStep C l (evaluateAll l s) (evaluateAll (l.filter (WritesTo C)) s') := by
  induction l generalizing s s' with
  | nil => exact ⟨hs.pins, rfl⟩
  | cons e rest ih =>
      rw [List.forall_mem_cons] at h
      by_cases he : e.WritesTo C
      · -- the element is evaluated in both blocks, on tables that it cannot tell apart
        obtain ⟨hpart, hrest⟩ := (State.InStep.cons_iff_of_writesTo he).1 hs
        have hsame : e.evaluate s.pins (s.parts.headD .inert) =
            e.evaluate s'.pins (s'.parts.headD .inert) := by
          rw [hpart]
          exact evaluate_congr (fun pin hpin => hs.pins (h.1 he pin hpin)) _
        have hnext := ih h.2 (hrest.assign (Set.eqOn_refl
          (e.evaluate s.pins (s.parts.headD .inert)).1.get? C))
        rw [List.filter_cons_of_pos (by simpa using he), evaluateAll_cons, evaluateAll_cons,
          State.InStep.cons_iff_of_writesTo he, ← hsame]
        exact ⟨rfl, hnext.pins, hnext.parts⟩
      · -- the element is evaluated in the whole block only, and leaves the set alone
        have hrest := (State.InStep.cons_iff_of_not_writesTo he).1 hs
        have hassigned : State.InStep C rest
            ⟨s.pins.assign (e.evaluate s.pins (s.parts.headD .inert)).1, s.parts.tail⟩ s' := by
          refine ⟨fun pin hpin => ?_, hrest.parts⟩
          have hframe := get?_evaluate_of_notMem (fun hout => he ⟨pin, hout, hpin⟩) s.pins
            (s.parts.headD .inert)
          rw [PinMap.read_assign, hframe, Option.getD_none, hs.pins hpin]
        have hnext := ih h.2 hassigned
        rw [List.filter_cons_of_neg (by simpa using he), evaluateAll_cons,
          State.InStep.cons_iff_of_not_writesTo he]
        exact ⟨hnext.pins, hnext.parts⟩

/-! ### Runs of a block and of its cone -/

/-- A block and its cone keep in step, when what is assigned to them has the same entries in the
set. -/
theorem Catalog.coupling_cone (c : Catalog) (name : String) {n : Netlist} (limits : Nat)
    (hnames : (n.models.map Model.name).Nodup) (h : n.BackwardClosed c C) :
    (c.design name n limits).Coupling (c.design name (n.cone c C) limits)
      (fun a a' => Set.EqOn a.get? a'.get? C) (State.InStep C (c.elementsOf n.models))
      (fun m m' => Set.EqOn m.read m'.read C) where
  settle a a' s s' ha hs := by
    have hlimits : (c.design name n limits).limits = (c.design name (n.cone c C) limits).limits :=
      rfl
    refine Design.settle_related (R := State.InStep C (c.elementsOf n.models)) hlimits
      (fun t t' ht => ?_) (hs.assign ha)
    have hnext := Element.evaluateAll_inStep (fun e he => h.element e
      (Catalog.mem_modelElements_of_mem_elementsOf he)) ht
    rw [Design.relax, Design.relax, Catalog.design, Catalog.design, c.elementsOf_cone hnames]
    exact ⟨Netlist.propagate_cone h hnext.pins, hnext.parts⟩
  reset _ _ hs := hs.reset
  outputs s s' hs := by
    intro pin hpin
    rw [Design.outputs, Design.outputs, PinMap.read_restrictTo, PinMap.read_restrictTo,
      hs.pins hpin]
    rfl

/-- The same call with nothing assigned outside the set. -/
def Call.within (C : Set String) [DecidablePred (· ∈ C)] : Call → Call
  | .settle assignment => .settle (assignment.restrict (· ∈ C))
  | .evaluate pins => .evaluate (pins.restrict (· ∈ C))
  | .reset => .reset

/-- What is assigned outside the set may be left out in the other run. -/
theorem Call.forall₂_matches_within (n n' : Netlist) (hinputs : n.inputs = n'.inputs)
    (history : List Call) :
    List.Forall₂ (Call.Matches (fun a a' => Set.EqOn a.get? a'.get? C) n n') history
      (history.map (within C)) := by
  refine List.forall₂_map_right_iff.2 (List.forall₂_same.2 fun call _ => ?_)
  have hrestrict : ∀ a : PinMap, Set.EqOn a.get? (a.restrict (· ∈ C)).get? C := by
    intro a pin hpin
    rw [NameMap.get?_restrict, if_pos (by simpa using hpin)]
  cases call with
  | settle assignment => exact .some (hrestrict assignment)
  | evaluate pins =>
      refine .some fun pin hpin => ?_
      rw [PinMap.get?_restrictTo, PinMap.get?_restrictTo, Netlist.inputPins, Netlist.inputPins,
        hinputs, hrestrict pins hpin]
  | reset => exact .none

namespace Block

/-- **Nothing outside the cone has any influence.**  A set of pins is closed backwards; a block is
built from a netlist, and another one from the cone, without the nets that end outside the set and
the models that have no output pin in it.  The same calls are made on both, with assignments that
have the same entries in the set and may differ elsewhere.  Then after every call all pins of the
set read the same, the elements that both blocks have are in the same states, and the maps that the
two return read alike in the set. -/
theorem nothing_outside_has_influence (c : Catalog) (name : String) (n : Netlist) (limits : Nat)
    (C : Set String) [DecidablePred (· ∈ C)] (hnames : (n.models.map Model.name).Nodup)
    (hclosed : n.BackwardClosed c C) (history history' : List Call)
    (hcalls : List.Forall₂ (Call.Matches (fun a a' => Set.EqOn a.get? a'.get? C) n (n.cone c C))
      history history') :
    let whole := ofDesign (c.design name n limits)
    let cone := ofDesign (c.design name (n.cone c C) limits)
    (∀ k, Set.EqOn (whole.after (history.take k)).pins.read
        (cone.after (history'.take k)).pins.read C ∧
      (whole.after (history.take k)).instances.filter (fun p => p.1.WritesTo C) =
        (cone.after (history'.take k)).instances) ∧
      List.Forall₂ (Option.Rel fun m m' => Set.EqOn m.read m'.read C) (whole.answers history)
        (cone.answers history') := by
  intro whole cone
  have hcoupling := c.coupling_cone name limits hnames hclosed
  have hcold : State.InStep C (c.elementsOf n.models) (c.design name n limits).cold
      (c.design name (n.cone c C) limits).cold := by
    rw [Catalog.design, Catalog.design, Design.cold, Design.cold, c.elementsOf_cone hnames]
    exact .cold n c _
  refine ⟨fun k => ?_, (hcoupling.answers_and_after hcalls hcold).1⟩
  have hafter := hcoupling.after_take hcalls hcold k
  refine ⟨hafter.pins, ?_⟩
  rw [instances, instances, after_design, after_design]
  change _ = Element.withParts (c.elementsOf (n.cone c C).models) _
  rw [c.elementsOf_cone hnames]
  exact hafter.parts

end Block

namespace Crossed

/-- The loop with a second driver for its output port, and a gate that only watches. -/
def watched : Netlist where
  inputs := [.north, .south]
  outputs := [.up, .down]
  models := ⟨"B", "AND"⟩ :: netlist.models
  nets := [⟨"8", ".2", "B.0"⟩, ⟨"9", "SOUTH", "B.1"⟩, ⟨"10", "B.2", "DOWN"⟩] ++ netlist.nets ++
    [⟨"11", "A.2", "UP"⟩]

/-- All that its first output port depends on. -/
def watchedCone : Set String :=
  {pin | (watched.fanIn catalog ["UP"]).contains pin}

instance : DecidablePred (· ∈ watchedCone) :=
  fun pin => inferInstanceAs (Decidable ((watched.fanIn catalog ["UP"]).contains pin = true))

/-- A run that assigns pins inside and outside. -/
def watchedRun : List Call :=
  [.settle (.ofList [("NORTH", .high), ("A.0.WEST", .low), ("SOUTH", .high), ("B.0", .low)]),
    .evaluate (.ofList [("NORTH", .low), ("SOUTH", .low)]), .reset,
    .settle (.ofList [("NORTH", .low), ("DOWN", .high)])]

/-- The gate that only watches is not in the cone, and the rest is. -/
example : (watched.cone catalog watchedCone).models = netlist.models := by decide +kernel

end Crossed

/-- What the watching gate does, and what is assigned to it, makes no difference to the loop. -/
theorem Block.watched_loop_is_not_influenced :
    (Crossed.watched.models.map Model.name).Nodup ∧
      Crossed.watched.BackwardClosed Crossed.catalog Crossed.watchedCone ∧
      ∀ k, Set.EqOn
        ((ofDesign (Crossed.catalog.design "watched" Crossed.watched 2)).after
          (Crossed.watchedRun.take k)).pins.read
        ((ofDesign (Crossed.catalog.design "watched"
          (Crossed.watched.cone Crossed.catalog Crossed.watchedCone) 2)).after
            ((Crossed.watchedRun.map (Call.within Crossed.watchedCone)).take k)).pins.read
        Crossed.watchedCone :=
  have hnames : (Crossed.watched.models.map Model.name).Nodup := by decide +kernel
  have hclosed := Crossed.watched.backwardClosed_fanIn Crossed.catalog ["UP"]
  ⟨hnames, hclosed, fun k => ((nothing_outside_has_influence Crossed.catalog "watched"
    Crossed.watched 2 Crossed.watchedCone hnames hclosed Crossed.watchedRun _
    (Call.forall₂_matches_within Crossed.watched _ rfl Crossed.watchedRun)).1 k).1⟩

end LogicBlock
