/-
**The order of the elements does not matter.**

In a pass every element writes its outputs back at once, so it seems that the elements that come
later see them.  They do not: an element writes pins of its own only, and reads pins of its own
only.  So the elements of a block might as well all be evaluated for the table at the start of the
pass, and the order in which they stand leaves no trace, neither in the table nor in the states of
the nested blocks, however far the block is from having settled.

The nets, in contrast, do see each other: a net may carry on what an earlier one has brought.  Their
order does not matter either when no net ends where another one ends or starts.

Main definitions:

* `Element.evaluateAtOnce` — the evaluation of all elements for one and the same table;
* `Block.instances` — the elements of a block with their parts of its state;
* `Block.AlikeThrough` — a run tells two blocks apart by the order of their elements at most.

Main results:

* `Element.evaluateAll_eq_evaluateAtOnce` — **one after the other is at once**, for elements with
  distinct names;
* `Element.evaluateAtOnce_perm` — at once, the order does not matter;
* `Netlist.propagate_perm` — the same for nets that keep out of each other's way;
* `Block.order_is_immaterial` — **no run tells the order of models**, nor that of such nets.
-/

import LogicBlock.Bundled
import LogicBlock.Proofs.Runs
import Mathlib.Data.List.Nodup

set_option relaxedAutoImplicit false
set_option autoImplicit false

namespace LogicBlock

namespace Element

/-! ### All elements at once -/

/-- The elements with their parts of a state; a part that is missing counts as inert. -/
def withParts : List Element → List State → List (Element × State)
  | [], _ => []
  | e :: rest, parts => (e, parts.headD .inert) :: withParts rest parts.tail

/-- What each element writes for a table, and its state afterwards. -/
def outcome (pins : PinMap) (p : Element × State) : PinMap × State :=
  p.1.evaluate pins p.2

/-- **Evaluates all elements for the table as it stands**, and then writes all that they put out. -/
def evaluateAtOnce (l : List Element) (s : State) : State :=
  let outcomes := (withParts l s.parts).map (outcome s.pins)
  ⟨(outcomes.map Prod.fst).foldl PinMap.assign s.pins, outcomes.map Prod.snd⟩

theorem map_fst_withParts (l : List Element) (parts : List State) :
    (withParts l parts).map Prod.fst = l := by
  induction l generalizing parts with
  | nil => rfl
  | cons e rest ih => rw [withParts, List.map_cons, ih]

theorem withParts_map (l : List Element) (parts : List State) (f : Element × State → State) :
    withParts l ((withParts l parts).map f) = (withParts l parts).map fun p => (p.1, f p) := by
  induction l generalizing parts with
  | nil => rfl
  | cons e rest ih =>
      simp only [withParts, List.map_cons, List.headD_cons, List.tail_cons, ih]

theorem mem_of_mem_withParts {l : List Element} {parts : List State} {p : Element × State}
    (h : p ∈ withParts l parts) : p.1 ∈ l := by
  have hmem := List.mem_map_of_mem (f := Prod.fst) h
  rwa [map_fst_withParts] at hmem

theorem withParts_coldAll (l : List Element) :
    withParts l (coldAll l) = l.map fun e => (e, e.cold) := by
  induction l with
  | nil => rfl
  | cons e rest ih => simp [coldAll, withParts, ih]

/-- A part that is missing counts as inert, and so it does after a reset. -/
theorem withParts_resetAll (l : List Element) (parts : List State) :
    withParts l (State.resetAll parts) = (withParts l parts).map fun p => (p.1, p.2.reset) := by
  induction l generalizing parts with
  | nil => rfl
  | cons e rest ih =>
      cases parts with
      | nil => simpa [withParts] using ⟨rfl, ih []⟩
      | cons s parts => simp [State.resetAll, withParts, ih]

/-- What holds of all parts, and survives every evaluation, holds of them after all elements have
been evaluated. -/
theorem forall_withParts_evaluateAll {P : Element → State → Prop}
    (hP : ∀ e m t, P e t → P e (e.evaluate m t).2) {l : List Element} {s : State}
    (h : ∀ p ∈ withParts l s.parts, P p.1 p.2) :
    ∀ p ∈ withParts l (evaluateAll l s).parts, P p.1 p.2 := by
  induction l generalizing s with
  | nil => simp [withParts]
  | cons e rest ih =>
      rw [withParts, List.forall_mem_cons] at h
      rw [evaluateAll_cons, withParts, List.forall_mem_cons]
      exact ⟨hP e s.pins _ h.1, ih (s := ⟨_, s.parts.tail⟩) h.2⟩

/-- If it is known which pins each element makes entries for, whatever it reads, it is known which
entries they make together. -/
theorem contains_evaluateAll_iff {l : List Element} {s : State} {live : Element → List String}
    (h : ∀ p ∈ withParts l s.parts, ∀ m pin, (outcome m p).1.contains pin ↔ pin ∈ live p.1)
    {pin : String} :
    (evaluateAll l s).pins.contains pin ↔ pin ∈ l.flatMap live ∨ s.pins.contains pin := by
  induction l generalizing s with
  | nil => simp
  | cons e rest ih =>
      rw [withParts, List.forall_mem_cons] at h
      rw [evaluateAll_cons, ih (s := ⟨_, s.parts.tail⟩) h.2, PinMap.contains_assign_iff,
        List.flatMap_cons, List.mem_append, or_assoc]
      have hfirst := h.1 s.pins pin
      rw [outcome] at hfirst
      rw [hfirst]
      exact or_left_comm

/-- A pin that no element has an entry for, whatever it reads, keeps its level. -/
theorem read_evaluateAll_of_silent {l : List Element} {s : State} {pin : String}
    (h : ∀ p ∈ withParts l s.parts, ∀ m, ¬(outcome m p).1.contains pin) :
    (evaluateAll l s).pins.read pin = s.pins.read pin := by
  induction l generalizing s with
  | nil => rfl
  | cons e rest ih =>
      rw [withParts, List.forall_mem_cons] at h
      rw [evaluateAll_cons]
      refine (ih (s := ⟨_, s.parts.tail⟩) h.2).trans ?_
      exact PinMap.read_assign_of_not_contains (h.1 s.pins)

/-- What an element writes makes no difference to elements with other names. -/
theorem outcome_assign {e : Element} {p : Element × State} (hne : e.name ≠ p.1.name) (m : PinMap)
    (s : State) : outcome (m.assign (e.evaluate m s).1) p = outcome m p := by
  refine evaluate_congr (fun pin hpin => ?_) p.2
  have hframe : (e.evaluate m s).1.get? pin = none :=
    get?_evaluate_of_notMem (fun hout => notMem_inputPins_of_name_ne hne hout hpin) m s
  rw [PinMap.read_assign, hframe, Option.getD_none]

/-- **One after the other is at once**: with distinct names no element sees what another one has
written in the same pass. -/
theorem evaluateAll_eq_evaluateAtOnce {l : List Element} (h : (l.map name).Nodup) (s : State) :
    evaluateAll l s = evaluateAtOnce l s := by
  induction l generalizing s with
  | nil => rfl
  | cons e rest ih =>
      rw [List.map_cons, List.nodup_cons] at h
      -- the rest sees the table after `e` has written, which makes no difference to it
      have hrest : ∀ parts : List State,
          (withParts rest parts).map
              (outcome (s.pins.assign (e.evaluate s.pins (s.parts.headD .inert)).1)) =
            (withParts rest parts).map (outcome s.pins) := by
        intro parts
        refine List.map_congr_left fun p hp => outcome_assign (fun hname => h.1 ?_) _ _
        rw [hname]
        exact List.mem_map_of_mem (mem_of_mem_withParts hp)
      simp only [evaluateAll_cons, ih h.2, evaluateAtOnce, hrest]
      rfl

/-! ### Permuted elements -/

/-- Two maps without a common entry may be written in either order. -/
theorem assign_comm {m a b : PinMap} (h : ∀ pin, a.get? pin = none ∨ b.get? pin = none) :
    (m.assign a).assign b = (m.assign b).assign a := by
  refine NameMap.ext_get? fun pin => ?_
  simp only [PinMap.get?_assign]
  rcases h pin with h | h <;> simp [h]

/-- What two elements with different names write has no common entry. -/
theorem evaluate_disjoint {e e' : Element} (hne : e.name ≠ e'.name) (m m' : PinMap)
    (s s' : State) (pin : String) :
    (e.evaluate m s).1.get? pin = none ∨ (e'.evaluate m' s').1.get? pin = none := by
  by_cases hpin : pin ∈ e.outputPins
  · exact .inr (get?_evaluate_of_notMem (notMem_outputPins_of_name_ne hne hpin) m' s')
  · exact .inl (get?_evaluate_of_notMem hpin m s)

/-- **At once, the order does not matter**: permuted elements with the same parts leave the same
table, and every element the same part. -/
theorem evaluateAtOnce_perm {l l' : List Element} (hnames : (l.map name).Nodup) {s s' : State}
    (hpins : s.pins = s'.pins) (hparts : (withParts l s.parts).Perm (withParts l' s'.parts)) :
    (evaluateAtOnce l s).pins = (evaluateAtOnce l' s').pins ∧
      (withParts l (evaluateAtOnce l s).parts).Perm
        (withParts l' (evaluateAtOnce l' s').parts) := by
  constructor
  · simp only [evaluateAtOnce, ← hpins]
    refine List.Perm.foldl_eq' ((hparts.map _).map _) ?_ s.pins
    intro a ha b hb m
    simp only [List.mem_map, exists_exists_and_eq_and] at ha hb
    obtain ⟨p, hp, rfl⟩ := ha
    obtain ⟨q, hq, rfl⟩ := hb
    -- two different elements have different names, so they write different pins
    by_cases hpq : p = q
    · rw [hpq]
    · refine assign_comm (evaluate_disjoint (fun hname => hpq ?_) _ _ _ _)
      have hnodup : ((withParts l s.parts).map (name ∘ Prod.fst)).Nodup := by
        rwa [← List.map_map, map_fst_withParts]
      exact List.inj_on_of_nodup_map hnodup hp hq hname
  · simp only [evaluateAtOnce, List.map_map, withParts_map, ← hpins]
    exact hparts.map _

end Element

/-! ### Permuted nets -/

namespace Netlist

/-- No two nets end in one pin, and no net ends where another one starts. -/
structure NetsApart (n : Netlist) : Prop where
  destinations : (n.nets.map Net.destination).Nodup
  sources : ∀ net ∈ n.nets, ∀ other ∈ n.nets, net ≠ other → net.destination ≠ other.source

/-- Two nets that keep out of each other's way may be copied in either order. -/
theorem copy_comm {m : PinMap} {net other : Net} (hdest : net.destination ≠ other.destination)
    (h : net.destination ≠ other.source) (h' : other.destination ≠ net.source) :
    (m.copy net.source net.destination).copy other.source other.destination =
      (m.copy other.source other.destination).copy net.source net.destination := by
  refine NameMap.ext_get? fun pin => ?_
  have hsource : (m.copy net.source net.destination).read other.source = m.read other.source := by
    rw [PinMap.read_copy, if_neg (Ne.symm h)]
  have hsource' : (m.copy other.source other.destination).read net.source = m.read net.source := by
    rw [PinMap.read_copy, if_neg (Ne.symm h')]
  rw [PinMap.copy, hsource, PinMap.copy, PinMap.copy, hsource', PinMap.copy]
  simp only [NameMap.get?_insert]
  by_cases hpin : pin = net.destination
  · rw [if_pos hpin, if_neg (by rw [hpin]; exact hdest), if_pos hpin]
  · rw [if_neg hpin, if_neg hpin]

/-- **The order of nets does not matter** when no net ends where another one ends or starts. -/
theorem propagate_perm {n n' : Netlist} (h : n.NetsApart) (hperm : n.nets.Perm n'.nets)
    (pins : PinMap) : n.propagate pins = n'.propagate pins := by
  refine hperm.foldl_eq' (fun net hnet other hother m => ?_) pins
  by_cases heq : net = other
  · rw [heq]
  · refine copy_comm (fun hdest => heq ?_) (h.sources net hnet other hother heq)
      (h.sources other hother net hnet (Ne.symm heq))
    exact List.inj_on_of_nodup_map h.destinations hnet hother hdest

theorem coldPins_perm {n n' : Netlist} (hperm : n.nets.Perm n'.nets) :
    n.coldPins = n'.coldPins := by
  refine NameMap.ext_get? fun pin => ?_
  have hends : pin ∈ n.endpoints ↔ pin ∈ n'.endpoints := by
    simp only [endpoints, List.mem_flatMap, hperm.mem_iff]
  simp only [get?_coldPins, hends]

end Netlist

/-! ### Blocks whose elements stand in another order -/

/-- Two states of blocks with the elements `l` and `l'`: one and the same table, and every element
with the same part. -/
structure State.SameUpTo (l l' : List Element) (s s' : State) : Prop where
  pins : s.pins = s'.pins
  parts : (Element.withParts l s.parts).Perm (Element.withParts l' s'.parts)

namespace State.SameUpTo

variable {l l' : List Element}

theorem cold (h : l.Perm l') {pins pins' : PinMap} (hpins : pins = pins') :
    SameUpTo l l' ⟨pins, Element.coldAll l⟩ ⟨pins', Element.coldAll l'⟩ := by
  refine ⟨hpins, ?_⟩
  rw [Element.withParts_coldAll, Element.withParts_coldAll]
  exact h.map _

theorem reset {s s' : State} (h : SameUpTo l l' s s') : SameUpTo l l' s.reset s'.reset := by
  cases s
  cases s'
  refine ⟨congrArg PinMap.clear h.pins, ?_⟩
  simp only [State.reset, Element.withParts_resetAll]
  exact h.parts.map _

end State.SameUpTo

/-- Blocks that differ in the order of their elements only, and whose nets do the same to every
table, simulate each other. -/
theorem Design.simulation_of_perm {name : String} {n n' : Netlist} {limits : Nat}
    {l l' : List Element} (hperm : l.Perm l') (hnames : (l.map Element.name).Nodup)
    (hinputs : n.inputs = n'.inputs) (houtputs : n.outputs = n'.outputs)
    (hnets : ∀ pins, n.propagate pins = n'.propagate pins) :
    Design.Simulation ⟨name, n, limits, l⟩ ⟨name, n', limits, l'⟩ (State.SameUpTo l l') where
  limits := rfl
  inputs := congrArg (List.map Direction.name) hinputs
  assign _ _ _ hs := ⟨congrArg (PinMap.assign · _) hs.pins, hs.parts⟩
  relax s s' hs := by
    have hnames' : (l'.map Element.name).Nodup := (hperm.map _).nodup_iff.1 hnames
    obtain ⟨hpins, hparts⟩ := Element.evaluateAtOnce_perm hnames hs.pins hs.parts
    rw [← Element.evaluateAll_eq_evaluateAtOnce hnames,
      ← Element.evaluateAll_eq_evaluateAtOnce hnames'] at hpins hparts
    exact ⟨(hnets _).trans (congrArg n'.propagate hpins), hparts⟩
  reset _ _ hs := hs.reset
  outputs s s' hs := by
    simp only [Design.outputs, Netlist.outputPins, houtputs, hs.pins]

namespace Block

/-- The elements of a block, each with its part of the state. -/
def instances (b : Block) : List (Element × State) :=
  Element.withParts b.design.elements b.state.parts

/-- A run cannot tell two blocks apart, except by the order of their elements: all its calls return
the same, and it ends in the same table, with every element in the same state. -/
structure AlikeThrough (b b' : Block) (history : List Call) : Prop where
  answers : b.answers history = b'.answers history
  pins : (b.after history).pins = (b'.after history).pins
  instances : (b.after history).instances.Perm (b'.after history).instances

theorem alikeThrough_of_perm (c : Catalog) (name : String) (n n' : Netlist) (limits : Nat)
    (hnames : (n.models.map Model.name).Nodup) (hmodels : n'.models.Perm n.models)
    (hinputs : n.inputs = n'.inputs) (houtputs : n.outputs = n'.outputs)
    (hcold : n.coldPins = n'.coldPins) (hnets : ∀ pins, n.propagate pins = n'.propagate pins)
    (history : List Call) :
    (ofDesign (c.design name n limits)).AlikeThrough (ofDesign (c.design name n' limits))
      history := by
  have hperm : (c.elementsOf n.models).Perm (c.elementsOf n'.models) :=
    (c.elementsOf_perm hnames hmodels).symm
  have hsim : (c.design name n limits).Simulation (c.design name n' limits)
      (State.SameUpTo (c.elementsOf n.models) (c.elementsOf n'.models)) :=
    Design.simulation_of_perm hperm (c.nodup_names_elementsOf n.models) hinputs houtputs hnets
  obtain ⟨hanswers, hafter⟩ := hsim.answers_eq_and_after history (.cold hperm hcold)
  refine ⟨hanswers, hafter.pins, ?_⟩
  rw [instances, instances, after_design, after_design]
  exact hafter.parts

/-- **The order of the models is immaterial.**  In every pass, evaluating the elements one after the
other comes to evaluating them all at once; so no run can tell in which order models with distinct
names stand, and not the order of the nets either, if no net ends where another one ends or
starts. -/
theorem order_is_immaterial (c : Catalog) (name : String) (n : Netlist) (limits : Nat)
    (hnames : (n.models.map Model.name).Nodup) :
    (∀ s, Element.evaluateAll (c.design name n limits).elements s =
      Element.evaluateAtOnce (c.design name n limits).elements s) ∧
    (∀ models, models.Perm n.models → ∀ history,
      (ofDesign (c.design name n limits)).AlikeThrough
        (ofDesign (c.design name { n with models := models } limits)) history) ∧
    (n.NetsApart → ∀ models nets, models.Perm n.models → nets.Perm n.nets → ∀ history,
      (ofDesign (c.design name n limits)).AlikeThrough
        (ofDesign (c.design name { n with models := models, nets := nets } limits)) history) := by
  refine ⟨fun s => ?_, fun models hmodels history => ?_, ?_⟩
  · exact Element.evaluateAll_eq_evaluateAtOnce (c.nodup_names_elementsOf n.models) s
  · exact alikeThrough_of_perm c name n { n with models := models } limits hnames hmodels
      rfl rfl rfl (fun _ => rfl) history
  · intro hapart models nets hmodels hnets history
    exact alikeThrough_of_perm c name n { n with models := models, nets := nets } limits hnames
      hmodels rfl rfl (Netlist.coldPins_perm hnets.symm)
      (Netlist.propagate_perm hapart hnets.symm) history

end Block

namespace Crossed

/-- The gates, and the latch as a type of its own. -/
def catalog : Catalog :=
  { Catalog.basic with
    blocks := NameMap.empty.insert "LATCH" (Catalog.basic.design "LATCH" Bundled.latch 3) }

/-- A loop through three elements, one with no name, and one with a name that looks like a pin. -/
def netlist : Netlist where
  inputs := [.north]
  outputs := [.up]
  models := [⟨"A", "NOR"⟩, ⟨"A.0", "LATCH"⟩, ⟨"", "XOR"⟩]
  nets := [⟨"1", "A.2", "A.0.SOUTH"⟩, ⟨"2", "A.0.NORTH", "A.0"⟩, ⟨"3", "NORTH", "A.1"⟩,
    ⟨"4", "A.2", ".0"⟩, ⟨"5", "A.0.EAST", ".1"⟩, ⟨"6", ".2", "A.0.WEST"⟩, ⟨"7", ".2", "UP"⟩]

/-- A run that forces inner pins and takes every kind of call. -/
def run : List Call :=
  [.settle (.ofList [("NORTH", .high), ("A.0.WEST", .low), ("A.0", .low)]),
    .evaluate (.ofList [("NORTH", .low)]), .reset, .settle (.ofList [("NORTH", .high)])]

theorem netsApart : netlist.NetsApart :=
  ⟨by decide +kernel, by decide +kernel⟩

end Crossed

/-- Models and nets the other way round make no difference to the loop, even with two passes. -/
theorem Block.crossed_order_is_immaterial :
    (Crossed.netlist.models.map Model.name).Nodup ∧ Crossed.netlist.NetsApart ∧
      (ofDesign (Crossed.catalog.design "crossed" Crossed.netlist 2)).AlikeThrough
        (ofDesign (Crossed.catalog.design "crossed" { Crossed.netlist with
          models := Crossed.netlist.models.reverse, nets := Crossed.netlist.nets.reverse } 2))
        Crossed.run :=
  have hnames : (Crossed.netlist.models.map Model.name).Nodup := by decide +kernel
  ⟨hnames, Crossed.netsApart,
    (order_is_immaterial Crossed.catalog "crossed" Crossed.netlist 2 hnames).2.2 Crossed.netsApart
      _ _ (List.reverse_perm _) (List.reverse_perm _) Crossed.run⟩

end LogicBlock
