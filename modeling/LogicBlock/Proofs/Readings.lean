/-
**The readings of a block of gates.**

A gate has no state of its own, so a block whose elements are gates is determined by what its pins
read.  Forgetting which pins have an entry, a table is a function from pins to levels, and a pass is
a map on such functions: the gates put out their levels one after the other, then the nets carry
levels one after the other.  No pass writes a pin that is neither the destination of a net nor an
output pin.

A valuation of the pins solves the block when every gate puts out what its inputs call for and every
net has one level at both ends.  When no pin has two drivers, the solutions are the valuations that
a pass does not change.

Main definitions:

* `Netlist.GatesOnly`, `Design.GatesOnly` — all models of known type, all elements, are gates;
* `Design.writtenPins`, `Design.SingleDrivers` — the pins that a pass writes, and that each of them
  is written once;
* `Design.pass` — a pass as a map on valuations;
* `Design.Solves` — the equations of the gates and the nets.

Main results:

* `Design.read_relax`, `Design.read_settle` — **tables read as passes on valuations say**;
* `Design.pass_of_notMem` — a pass leaves all other pins alone;
* `Design.solves_iff_pass_eq` — **the solutions are the fixed points of a pass**.
-/

import LogicBlock.Proofs.Runs
import Mathlib.Logic.Function.Basic

set_option relaxedAutoImplicit false
set_option autoImplicit false

namespace LogicBlock

/-- Levels for all pins. -/
abbrev Valuation := String → Voltage

/-! ### Blocks of gates -/

/-- Every model of known type is a gate. -/
def Netlist.GatesOnly (n : Netlist) (c : Catalog) : Prop :=
  ∀ m ∈ n.models, c.isKnown m.type → (GateKind.ofName? m.type).isSome

instance (n : Netlist) (c : Catalog) : Decidable (n.GatesOnly c) :=
  inferInstanceAs (Decidable (∀ m ∈ n.models, c.isKnown m.type → (GateKind.ofName? m.type).isSome))

/-- The gate that an element is, if it is one. -/
def Element.gate? : Element → Option Gate
  | gate g => some g
  | composite _ _ _ => none

namespace Design

/-- Every element is a gate. -/
def GatesOnly (d : Design) : Prop :=
  ∀ e ∈ d.elements, ∃ g, e = .gate g

/-- The gates among the elements, in their order. -/
def gates (d : Design) : List Gate :=
  d.elements.filterMap Element.gate?

/-- The pins that a pass writes: destinations of nets and output pins of elements. -/
def writtenPins (d : Design) : List String :=
  d.netlist.nets.map Net.destination ++ d.elements.flatMap Element.outputPins

/-- No two nets share a destination, and no net ends in an output pin of an element. -/
structure SingleDrivers (d : Design) : Prop where
  nets : (d.netlist.nets.map Net.destination).Nodup
  elements : ∀ net ∈ d.netlist.nets, net.destination ∉ d.elements.flatMap Element.outputPins

theorem mem_gates {d : Design} {g : Gate} : g ∈ d.gates ↔ .gate g ∈ d.elements := by
  rw [gates, List.mem_filterMap]
  constructor
  · rintro ⟨e, he, hg⟩
    cases e with
    | gate g' =>
        cases hg
        exact he
    | composite name type block => cases hg
  · exact fun h => ⟨.gate g, h, rfl⟩

theorem elements_eq_map_gates {d : Design} (h : d.GatesOnly) : d.elements = d.gates.map .gate := by
  have hmap : ∀ l : List Element, (∀ e ∈ l, ∃ g, e = .gate g) →
      l = (l.filterMap Element.gate?).map .gate := by
    intro l hl
    induction l with
    | nil => rfl
    | cons e rest ih =>
        obtain ⟨g, rfl⟩ := hl e List.mem_cons_self
        have hrest := ih fun e' he' => hl e' (List.mem_cons_of_mem _ he')
        rw [List.filterMap_cons_some (by rfl), List.map_cons, ← hrest]
  exact hmap d.elements h

theorem nodup_names_gates {d : Design} (h : d.GatesOnly)
    (hnames : (d.elements.map Element.name).Nodup) : (d.gates.map Gate.name).Nodup := by
  rwa [elements_eq_map_gates h, List.map_map] at hnames

theorem flatMap_outputPins_eq {d : Design} (h : d.GatesOnly) :
    d.elements.flatMap Element.outputPins = d.gates.map Gate.outputPin := by
  rw [elements_eq_map_gates h, List.flatMap_map, List.map_eq_flatMap]
  rfl

end Design

theorem Netlist.GatesOnly.modelElements {n : Netlist} {c : Catalog} (h : n.GatesOnly c) :
    ∀ e ∈ n.modelElements c, ∃ g, e = .gate g := by
  intro e he
  obtain ⟨m, hm, hcreate⟩ := List.mem_filterMap.1 he
  have hknown : c.isKnown m.type := by rw [← c.isSome_create? m, hcreate]; rfl
  obtain ⟨kind, hkind⟩ := Option.isSome_iff_exists.1 (h m hm hknown)
  rw [Catalog.create?, hkind] at hcreate
  exact ⟨_, (Option.some.inj hcreate).symm⟩

theorem Netlist.GatesOnly.design {n : Netlist} {c : Catalog} (h : n.GatesOnly c) (name : String)
    (limits : Nat) : (c.design name n limits).GatesOnly :=
  fun e he => h.modelElements e (Catalog.mem_modelElements_of_mem_elementsOf he)

/-! ### The pins of gates -/

namespace Gate

/-- The output pin of a gate is no input pin of any gate, whatever their names. -/
theorem outputPin_notMem_inputPins (g g' : Gate) : g.outputPin ∉ g'.inputPins := by
  -- the name ends at the last dot; after it stands a 2 in the one pin, a 0 or a 1 in the other
  have hsuffix : ∀ i, i < 2 → g.outputPin ≠ Pin.terminal g'.name i := by
    intro i hi heq
    rw [outputPin, Pin.terminal, Pin.terminal,
      Pin.ofOwner_inj (Pin.dot_notMem_repr 2) (Pin.dot_notMem_repr i)] at heq
    rcases Nat.le_one_iff_eq_zero_or_eq_one.1 (Nat.le_of_lt_succ hi) with rfl | rfl
    · exact absurd heq.2 (by decide)
    · exact absurd heq.2 (by decide)
  intro h
  simp only [inputPins, List.mem_cons, List.not_mem_nil, or_false] at h
  exact h.elim (hsuffix 0 (by decide)) (hsuffix 1 (by decide))

theorem outputPin_inj {g g' : Gate} : g.outputPin = g'.outputPin ↔ g.name = g'.name := by
  rw [outputPin, outputPin, Pin.terminal, Pin.terminal,
    Pin.ofOwner_inj (Pin.dot_notMem_repr 2) (Pin.dot_notMem_repr 2)]
  exact and_iff_left rfl

/-- The level that a gate puts out under a valuation. -/
def level (g : Gate) (v : Valuation) : Voltage :=
  g.kind.apply g.policy (v (Pin.terminal g.name 0)) (v (Pin.terminal g.name 1))

theorem level_congr {g : Gate} {v w : Valuation} (h : ∀ p ∈ g.inputPins, v p = w p) :
    g.level v = g.level w := by
  rw [level, level, h _ (by simp [inputPins]), h _ (by simp [inputPins])]

/-! ### Gates and nets acting on valuations -/

/-- Every gate puts its level on its output pin, one gate after the other. -/
def fire (gates : List Gate) (v : Valuation) : Valuation :=
  gates.foldl (fun v g => Function.update v g.outputPin (g.level v)) v

theorem fire_of_notMem {gates : List Gate} {p : String} (h : p ∉ gates.map outputPin)
    (v : Valuation) : fire gates v p = v p := by
  induction gates generalizing v with
  | nil => rfl
  | cons g rest ih =>
      rw [List.map_cons, List.mem_cons, not_or] at h
      rw [fire, List.foldl_cons]
      exact (ih h.2 _).trans (Function.update_of_ne h.1 _ _)

/-- No gate sees what another one puts out in the same pass. -/
theorem level_update (g g' : Gate) (v : Valuation) (a : Voltage) :
    g'.level (Function.update v g.outputPin a) = g'.level v := by
  refine level_congr fun p hp => Function.update_of_ne ?_ _ _
  rintro rfl
  exact outputPin_notMem_inputPins g g' hp

/-- **Each gate puts out what its inputs call for** at the start of the pass. -/
theorem fire_outputPin {gates : List Gate} (hnames : (gates.map name).Nodup) {g : Gate}
    (hg : g ∈ gates) (v : Valuation) : fire gates v g.outputPin = g.level v := by
  induction gates generalizing v with
  | nil => cases hg
  | cons g' rest ih =>
      rw [List.map_cons, List.nodup_cons] at hnames
      rw [fire, List.foldl_cons]
      rcases List.mem_cons.1 hg with rfl | hg
      · have hlater : g.outputPin ∉ rest.map outputPin := by
          intro hmem
          obtain ⟨g', hg', heq⟩ := List.mem_map.1 hmem
          exact hnames.1 (List.mem_map.2 ⟨g', hg', outputPin_inj.1 heq⟩)
        exact (fire_of_notMem hlater _).trans (Function.update_self _ _ _)
      · exact (ih hnames.2 hg _).trans (level_update g' g v _)

theorem read_evaluateAll (gates : List Gate) (s : State) :
    (Element.evaluateAll (gates.map .gate) s).pins.read = fire gates s.pins.read := by
  induction gates generalizing s with
  | nil => rfl
  | cons g rest ih =>
      rw [List.map_cons, Element.evaluateAll_cons]
      refine (ih _).trans ?_
      rw [fire, fire, List.foldl_cons]
      congr 1
      funext p
      simp only [Element.evaluate_gate, evaluate, PinMap.read_assign, NameMap.get?_insert,
        NameMap.get?_empty, Function.update_apply]
      split <;> rfl

end Gate

/-- The nets carry levels from their sources to their destinations, one net after the other. -/
def Net.carry (nets : List Net) (v : Valuation) : Valuation :=
  nets.foldl (fun v net => Function.update v net.destination (v net.source)) v

namespace Net

theorem carry_cons (net : Net) (rest : List Net) (v : Valuation) :
    carry (net :: rest) v = carry rest (Function.update v net.destination (v net.source)) :=
  rfl

theorem carry_of_notMem {nets : List Net} {p : String} (h : p ∉ nets.map destination)
    (v : Valuation) : carry nets v p = v p := by
  induction nets generalizing v with
  | nil => rfl
  | cons net rest ih =>
      rw [List.map_cons, List.mem_cons, not_or] at h
      rw [carry_cons, ih h.2, Function.update_of_ne h.1]

theorem read_propagate (n : Netlist) (pins : PinMap) :
    (n.propagate pins).read = carry n.nets pins.read := by
  unfold Netlist.propagate
  induction n.nets generalizing pins with
  | nil => rfl
  | cons net rest ih =>
      rw [List.foldl_cons, ih, carry_cons]
      congr 1
      funext p
      rw [PinMap.read_copy, Function.update_apply]

/-- **Each net carries the level of its source**, if no two nets share a destination and none starts
where one ends. -/
theorem carry_destination {nets : List Net} (hdest : (nets.map destination).Nodup)
    (hsource : ∀ net ∈ nets, net.source ∉ nets.map destination) {net : Net} (hnet : net ∈ nets)
    (v : Valuation) : carry nets v net.destination = v net.source := by
  induction nets generalizing v with
  | nil => cases hnet
  | cons first rest ih =>
      rw [List.map_cons, List.nodup_cons] at hdest
      rw [carry_cons]
      rcases List.mem_cons.1 hnet with rfl | hrest
      · rw [carry_of_notMem hdest.1, Function.update_self]
      · have hne : net.source ≠ first.destination := fun heq =>
          hsource net hnet (heq ▸ List.mem_cons_self)
        have hsource' : ∀ net' ∈ rest, net'.source ∉ rest.map destination := fun net' hnet' hmem =>
          hsource net' (List.mem_cons_of_mem _ hnet') (List.mem_cons_of_mem _ hmem)
        rw [ih hdest.2 hsource' hrest, Function.update_of_ne hne]

/-- Nets with the same level at both ends carry nothing new. -/
theorem carry_of_consistent {nets : List Net} {v : Valuation}
    (h : ∀ net ∈ nets, v net.destination = v net.source) : carry nets v = v := by
  induction nets with
  | nil => rfl
  | cons net rest ih =>
      rw [carry_cons, ← h net List.mem_cons_self, Function.update_eq_self]
      exact ih fun net' hnet' => h net' (List.mem_cons_of_mem _ hnet')

/-- Nets with distinct destinations that carry nothing new have the same level at both ends. -/
theorem consistent_of_carry_eq {nets : List Net} (hdest : (nets.map destination).Nodup)
    {v : Valuation} (h : carry nets v = v) : ∀ net ∈ nets, v net.destination = v net.source := by
  induction nets with
  | nil => simp
  | cons net rest ih =>
      rw [List.map_cons, List.nodup_cons] at hdest
      rw [carry_cons] at h
      -- the first destination keeps what the first net brings, as no later net writes it
      have hfirst : v net.destination = v net.source := by
        have hread := congrFun h net.destination
        rw [carry_of_notMem hdest.1, Function.update_self] at hread
        exact hread.symm
      have hrest : carry rest v = v := by
        rwa [← hfirst, Function.update_eq_self] at h
      intro net' hnet'
      rcases List.mem_cons.1 hnet' with rfl | hnet'
      · exact hfirst
      · exact ih hdest.2 hrest net' hnet'

end Net

/-! ### Passes on valuations -/

namespace Design

/-- **A pass as a map on valuations**: the gates, then the nets. -/
def pass (d : Design) (v : Valuation) : Valuation :=
  Net.carry d.netlist.nets (Gate.fire d.gates v)

theorem read_relax {d : Design} (h : d.GatesOnly) (s : State) :
    (d.relax s).pins.read = d.pass s.pins.read := by
  rw [relax, pass, ← Gate.read_evaluateAll, ← elements_eq_map_gates h]
  exact Net.read_propagate d.netlist _

/-- **Settling is as many passes as the design allows**, on what the assigned table reads. -/
theorem read_settle {d : Design} (h : d.GatesOnly) (a : PinMap) (s : State) :
    (d.settle a s).pins.read = Nat.repeat d.pass d.limits (s.pins.assign a).read := by
  rw [settle_eq]
  induction d.limits with
  | zero => rfl
  | succ k ih =>
      change (d.relax _).pins.read = d.pass _
      rw [read_relax h, ih]

theorem notMem_writtenPins {d : Design} (h : d.GatesOnly) {p : String} :
    p ∉ d.writtenPins ↔
      p ∉ d.netlist.nets.map Net.destination ∧ p ∉ d.gates.map Gate.outputPin := by
  rw [writtenPins, flatMap_outputPins_eq h, List.mem_append, not_or]

/-- **A pass leaves alone what it does not write.** -/
theorem pass_of_notMem {d : Design} (h : d.GatesOnly) {p : String} (hp : p ∉ d.writtenPins)
    (v : Valuation) : d.pass v p = v p := by
  obtain ⟨hnets, hgates⟩ := (notMem_writtenPins h).1 hp
  rw [pass, Net.carry_of_notMem hnets, Gate.fire_of_notMem hgates]

theorem repeat_pass_of_notMem {d : Design} (h : d.GatesOnly) {p : String} (hp : p ∉ d.writtenPins)
    (k : Nat) (v : Valuation) : Nat.repeat d.pass k v p = v p := by
  induction k with
  | zero => rfl
  | succ k ih => exact (pass_of_notMem h hp _).trans ih

/-! ### Solutions -/

/-- **The equations of a block of gates**: every gate puts out what its inputs call for, and every
net has one level at both ends. -/
structure Solves (d : Design) (v : Valuation) : Prop where
  gate : ∀ g, .gate g ∈ d.elements → v g.outputPin =
    g.kind.apply g.policy (v (Pin.terminal g.name 0)) (v (Pin.terminal g.name 1))
  net : ∀ net ∈ d.netlist.nets, v net.destination = v net.source

theorem Solves.fire_eq {d : Design} {v : Valuation} (h : d.Solves v) : Gate.fire d.gates v = v := by
  have hfire : ∀ l : List Gate, (∀ g ∈ l, v g.outputPin = g.level v) → Gate.fire l v = v := by
    intro l hl
    induction l with
    | nil => rfl
    | cons g rest ih =>
        rw [Gate.fire, List.foldl_cons, ← hl g List.mem_cons_self, Function.update_eq_self]
        exact ih fun g' hg' => hl g' (List.mem_cons_of_mem _ hg')
  exact hfire d.gates fun g hg => h.gate g (mem_gates.1 hg)

/-- **The solutions are the valuations that a pass does not change**, if no pin has two drivers. -/
theorem solves_iff_pass_eq {d : Design} (h : d.GatesOnly) (hdrivers : d.SingleDrivers)
    (hnames : (d.elements.map Element.name).Nodup) {v : Valuation} :
    d.Solves v ↔ d.pass v = v := by
  constructor
  · intro hv
    rw [pass, hv.fire_eq]
    exact Net.carry_of_consistent hv.net
  · intro hv
    have hgatenames := nodup_names_gates h hnames
    have hlevel : ∀ g ∈ d.gates, v g.outputPin = g.level v := by
      intro g hg
      -- no net ends in the output pin, so the level that the gate puts there survives the pass
      have hframe : g.outputPin ∉ d.netlist.nets.map Net.destination := by
        intro hmem
        obtain ⟨net, hnet, hdest⟩ := List.mem_map.1 hmem
        refine hdrivers.elements net hnet ?_
        rw [flatMap_outputPins_eq h, hdest]
        exact List.mem_map_of_mem hg
      have hread := congrFun hv g.outputPin
      rw [pass, Net.carry_of_notMem hframe, Gate.fire_outputPin hgatenames hg] at hread
      exact hread.symm
    have hfire : Gate.fire d.gates v = v := by
      funext p
      by_cases hp : p ∈ d.gates.map Gate.outputPin
      · obtain ⟨g, hg, rfl⟩ := List.mem_map.1 hp
        rw [Gate.fire_outputPin hgatenames hg, hlevel g hg]
      · exact Gate.fire_of_notMem hp v
    rw [pass, hfire] at hv
    exact ⟨fun g hg => hlevel g (mem_gates.2 hg), Net.consistent_of_carry_eq hdrivers.nets hv⟩

end Design

end LogicBlock
