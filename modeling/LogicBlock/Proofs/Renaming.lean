/-
**Names are only labels.**

Elements, ports and pins share one space of names: a pin of an element has the name of the element,
a dot and a suffix, the table of a block is kept in the order of the pin ids, and any string may be
the name of an element, with dots in it or with nothing in it.  All the same the names carry no
meaning.  Rename the elements, no two of them alike, and rename the pins along with their owners,
where the owner of a pin id is the part before its last dot; then the block behaves as before, up to
the names in its table.  The names of nets are not even looked at.

The reason is that renaming the owners is one-to-one on pin ids, keeps the ports where they are, and
takes the pins of an element to the pins of the renamed one.  So it commutes with every operation on
tables, hence with the evaluation of an element, with a pass, and with a call.

Main definitions:

* `Pin.rename`, `PinMap.rename`, `Element.rename`, `Call.rename` — renaming the owners of pins, in
  pin ids, in tables and in all that mentions them;
* `Netlist.RenamedTo` — a netlist with other names for its models and its nets.

Main results:

* `Pin.rename_injective` — renaming the owners one-to-one is one-to-one on pin ids;
* `PinMap.get?_rename`, `PinMap.eq_rename` — what a renamed table shows, and that this is all;
* `Element.evaluateAll_rename`, `Netlist.RenamedTo.propagate` — **renaming commutes with a pass**;
* `Block.names_are_labels` — **no run depends on the names**.
-/

import LogicBlock.Proofs.ElementOrder

set_option relaxedAutoImplicit false
set_option autoImplicit false

namespace LogicBlock

variable {f : String → String}

/-! ### Pin ids -/

namespace Pin

/-- The pin id with its owner renamed.  A pin id without a dot has no owner and stays as it is. -/
def rename (f : String → String) (pin : String) : String :=
  match owner? pin with
  | some owner => f owner ++ String.ofList (pin.toList.drop owner.length)
  | none => pin

theorem rename_ofOwner {owner suffix : String} (h : '.' ∉ suffix.toList) :
    rename f (ofOwner owner suffix) = ofOwner (f owner) suffix := by
  have hdrop : (ofOwner owner suffix).toList.drop owner.length = '.' :: suffix.toList := by
    simp [ofOwner, ← String.length_toList]
  rw [rename, owner?_ofOwner owner suffix h]
  simp only [hdrop]
  apply String.toList_inj.1
  simp [ofOwner]

@[simp] theorem rename_terminal (owner : String) (index : Nat) :
    rename f (terminal owner index) = terminal (f owner) index :=
  rename_ofOwner (dot_notMem_repr index)

@[simp] theorem rename_port (owner : String) (d : Direction) :
    rename f (port owner d) = port (f owner) d :=
  rename_ofOwner (dot_notMem_direction d)

/-- A pin without an owner keeps its id. -/
theorem rename_of_owner?_eq_none {pin : String} (h : owner? pin = none) : rename f pin = pin := by
  rw [rename, h]

@[simp] theorem rename_direction (d : Direction) : rename f d.name = d.name :=
  rename_of_owner?_eq_none (owner?_direction d)

theorem owner?_rename (pin : String) : owner? (rename f pin) = (owner? pin).map f := by
  cases h : owner? pin with
  | none => rw [rename_of_owner?_eq_none h, h, Option.map_none]
  | some owner =>
      obtain ⟨suffix, hdot, rfl⟩ := owner?_eq_some_iff.1 h
      rw [rename_ofOwner hdot, owner?_ofOwner _ _ hdot, Option.map_some]

/-- **Renaming the owners one-to-one is one-to-one on pin ids**, whatever dots are in them. -/
theorem rename_injective (hf : f.Injective) : (rename f).Injective := by
  intro pin pin' heq
  have howner : owner? pin = owner? pin' := by
    have hmap := congrArg owner? heq
    rw [owner?_rename, owner?_rename] at hmap
    exact Option.map_injective hf hmap
  cases h : owner? pin with
  | none =>
      rwa [rename_of_owner?_eq_none h, rename_of_owner?_eq_none (howner ▸ h)] at heq
  | some owner =>
      obtain ⟨suffix, hdot, rfl⟩ := owner?_eq_some_iff.1 h
      obtain ⟨suffix', hdot', rfl⟩ := owner?_eq_some_iff.1 (howner ▸ h)
      rw [rename_ofOwner hdot, rename_ofOwner hdot', ofOwner_inj hdot hdot'] at heq
      rw [heq.2]

end Pin

/-! ### Tables -/

namespace PinMap

/-- The table with the owners of its pins renamed. -/
def rename (f : String → String) (m : PinMap) : PinMap :=
  .ofList (m.entries.map fun e => (Pin.rename f e.1, e.2))

section Injective

variable (hf : f.Injective)

include hf

theorem get?_rename_eq_some_iff {m : PinMap} {key : String} {v : Voltage} :
    (m.rename f).get? key = some v ↔ ∃ pin, Pin.rename f pin = key ∧ m.get? pin = some v := by
  have hmem : ∀ k w, (k, w) ∈ m.entries.map (fun e => (Pin.rename f e.1, e.2)) ↔
      ∃ pin, Pin.rename f pin = k ∧ m.get? pin = some w := by
    intro k w
    constructor
    · intro h
      obtain ⟨⟨pin, u⟩, he, heq⟩ := List.mem_map.1 h
      cases heq
      exact ⟨pin, rfl, (m.mem_entries_iff pin u).1 he⟩
    · rintro ⟨pin, rfl, hw⟩
      exact List.mem_map.2 ⟨(pin, w), (m.mem_entries_iff pin w).2 hw, rfl⟩
  rw [rename, NameMap.get?_ofList_eq_some_iff, hmem]
  -- no key has two values, as no two pins get the same id
  intro k v w hv hw
  obtain ⟨pin, rfl, hpin⟩ := (hmem k v).1 hv
  obtain ⟨pin', heq, hpin'⟩ := (hmem _ w).1 hw
  obtain rfl := Pin.rename_injective hf heq
  exact Option.some.inj (hpin.symm.trans hpin')

/-- **A renamed table shows at a renamed pin what the table shows at the pin.** -/
theorem get?_rename (m : PinMap) (pin : String) :
    (m.rename f).get? (Pin.rename f pin) = m.get? pin := by
  refine Option.ext fun v => ?_
  rw [get?_rename_eq_some_iff hf]
  constructor
  · rintro ⟨pin', heq, hv⟩
    rwa [Pin.rename_injective hf heq] at hv
  · exact fun hv => ⟨pin, rfl, hv⟩

/-- A renamed table has entries for renamed pins only. -/
theorem get?_rename_of_ne (m : PinMap) {key : String} (h : ∀ pin, Pin.rename f pin ≠ key) :
    (m.rename f).get? key = none := by
  cases hkey : (m.rename f).get? key with
  | none => rfl
  | some v =>
      obtain ⟨pin, heq, -⟩ := (get?_rename_eq_some_iff hf).1 hkey
      exact absurd heq (h pin)

theorem read_rename (m : PinMap) (pin : String) :
    (m.rename f).read (Pin.rename f pin) = m.read pin := by
  rw [read, read, get?_rename hf]

/-- **A table with the same entries at renamed pins, and no others, is the renamed table.** -/
theorem eq_rename {m m' : PinMap} (h : ∀ pin, m'.get? (Pin.rename f pin) = m.get? pin)
    (hrest : ∀ key, (∀ pin, Pin.rename f pin ≠ key) → m'.get? key = none) : m' = m.rename f := by
  refine NameMap.ext_get? fun key => ?_
  by_cases hkey : ∃ pin, Pin.rename f pin = key
  · obtain ⟨pin, rfl⟩ := hkey
    rw [h, get?_rename hf]
  · rw [not_exists] at hkey
    rw [hrest key hkey, get?_rename_of_ne hf m hkey]

theorem insert_rename (m : PinMap) (pin : String) (v : Voltage) :
    (m.rename f).insert (Pin.rename f pin) v = rename f (m.insert pin v) := by
  refine eq_rename hf (fun other => ?_) fun key hkey => ?_
  · simp only [NameMap.get?_insert, get?_rename hf, (Pin.rename_injective hf).eq_iff]
  · rw [NameMap.get?_insert, if_neg (Ne.symm (hkey pin)), get?_rename_of_ne hf m hkey]

theorem assign_rename (m a : PinMap) :
    (m.rename f).assign (a.rename f) = (m.assign a).rename f := by
  refine eq_rename hf (fun pin => ?_) fun key hkey => ?_
  · simp only [get?_assign, get?_rename hf]
  · rw [get?_assign, get?_rename_of_ne hf a hkey, get?_rename_of_ne hf m hkey, Option.none_or]

theorem copy_rename (m : PinMap) (source destination : String) :
    (m.rename f).copy (Pin.rename f source) (Pin.rename f destination) =
      (m.copy source destination).rename f := by
  rw [copy, read_rename hf, insert_rename hf, copy]

theorem clear_rename (m : PinMap) : (m.rename f).clear = m.clear.rename f := by
  refine eq_rename hf (fun pin => ?_) fun key hkey => ?_
  · rw [get?_clear, get?_rename hf, get?_clear]
  · rw [get?_clear, get?_rename_of_ne hf m hkey, Option.map_none]

theorem restrictTo_rename (m : PinMap) (pins : List String) :
    (m.rename f).restrictTo (pins.map (Pin.rename f)) = (m.restrictTo pins).rename f := by
  refine eq_rename hf (fun pin => ?_) fun key hkey => ?_
  · simp only [get?_restrictTo, List.mem_map_of_injective (Pin.rename_injective hf), get?_rename hf]
  · rw [get?_restrictTo, get?_rename_of_ne hf m hkey, ite_self]

/-- **Renaming owners leaves the ports of the block alone.** -/
theorem restrictTo_ports_rename (m : PinMap) (ports : List Direction) :
    (m.rename f).restrictTo (ports.map Direction.name) =
      m.restrictTo (ports.map Direction.name) := by
  refine NameMap.ext_get? fun key => ?_
  rw [get?_restrictTo, get?_restrictTo]
  split
  · rename_i hkey
    obtain ⟨d, -, rfl⟩ := List.mem_map.1 hkey
    rw [← get?_rename hf m, Pin.rename_direction]
  · rfl

end Injective

end PinMap

/-! ### Elements -/

/-- The model with its name renamed. -/
def Model.rename (f : String → String) (m : Model) : Model :=
  { m with name := f m.name }

/-- The state with the owners of the pins in the table of the block renamed.  The tables of nested
blocks are their own. -/
def State.rename (f : String → String) (s : State) : State :=
  ⟨s.pins.rename f, s.parts⟩

namespace Element

/-- The element under another name.  What is inside a nested block is not touched. -/
def rename (f : String → String) : Element → Element
  | gate g => .gate { g with name := f g.name }
  | composite name type block => .composite (f name) type block

@[simp] theorem name_rename (e : Element) : (e.rename f).name = f e.name := by
  cases e <;> rfl

theorem coldAll_map_rename (l : List Element) : coldAll (l.map (rename f)) = coldAll l := by
  rw [coldAll_eq_map, coldAll_eq_map, List.map_map]
  exact List.map_congr_left fun e _ => by cases e <;> rfl

/-- The renamed elements have the same parts of a state. -/
theorem withParts_map_rename (l : List Element) (parts : List State) :
    withParts (l.map (rename f)) parts = (withParts l parts).map fun p => (p.1.rename f, p.2) := by
  induction l generalizing parts with
  | nil => rfl
  | cons e rest ih => rw [List.map_cons, withParts, withParts, List.map_cons, ih]

end Element

section Injective

variable (hf : f.Injective)

include hf

theorem Gate.evaluate_rename (g : Gate) (m : PinMap) :
    Gate.evaluate { g with name := f g.name } (m.rename f) = (g.evaluate m).rename f := by
  have hlevel : ∀ i, (m.rename f).read (Pin.terminal (f g.name) i) =
      m.read (Pin.terminal g.name i) := by
    intro i
    rw [← PinMap.read_rename hf m, Pin.rename_terminal]
  have hvalue : Gate.outputValue { g with name := f g.name } (m.rename f) = g.outputValue m := by
    rw [outputValue, hlevel, hlevel, outputValue]
  have hpin : Gate.outputPin { g with name := f g.name } = Pin.rename f g.outputPin := by
    rw [outputPin, outputPin, Pin.rename_terminal]
  rw [evaluate, hvalue, hpin, evaluate, ← PinMap.insert_rename hf]
  rfl

namespace Netlist

/-- A nested block sees the same at its ports when it has another name. -/
theorem portAssignment_rename (n : Netlist) (name : String) (m : PinMap) :
    n.portAssignment (f name) (m.rename f) = n.portAssignment name m := by
  have hlevel : ∀ d, (m.rename f).read (Pin.port (f name) d) = m.read (Pin.port name d) := by
    intro d
    rw [← PinMap.read_rename hf m, Pin.rename_port]
  simp only [portAssignment, hlevel]

/-- A nested block puts out the same, at the ports of its other name. -/
theorem portResults_rename (n : Netlist) (name : String) (inner : PinMap) :
    n.portResults (f name) inner = (n.portResults name inner).rename f := by
  refine NameMap.ext_get? fun key => Option.ext fun v => ?_
  rw [get?_portResults_eq_some_iff, PinMap.get?_rename_eq_some_iff hf]
  constructor
  · rintro ⟨d, hd, rfl, hv⟩
    refine ⟨Pin.port name d, Pin.rename_port name d, ?_⟩
    rw [get?_portResults_port, if_pos hd, hv]
  · rintro ⟨pin, rfl, hpin⟩
    obtain ⟨d, hd, rfl, hv⟩ := (get?_portResults_eq_some_iff n name inner pin v).1 hpin
    exact ⟨d, hd, (Pin.rename_port name d).symm, hv⟩

end Netlist

namespace Element

/-- **A renamed element does the same with a renamed table**, and comes into the same state. -/
theorem evaluate_rename (e : Element) (m : PinMap) (s : State) :
    (e.rename f).evaluate (m.rename f) s = ((e.evaluate m s).1.rename f, (e.evaluate m s).2) := by
  cases e with
  | gate g => rw [rename, evaluate_gate, evaluate_gate, Gate.evaluate_rename hf]
  | composite name type block =>
      rw [rename, evaluate, evaluate, Netlist.portAssignment_rename hf,
        Netlist.portResults_rename hf]

/-- **Renaming commutes with the evaluation of all elements.** -/
theorem evaluateAll_rename (l : List Element) (s : State) :
    evaluateAll (l.map (rename f)) (s.rename f) = (evaluateAll l s).rename f := by
  induction l generalizing s with
  | nil => rfl
  | cons e rest ih =>
      have hfirst := evaluate_rename hf e s.pins (s.parts.headD .inert)
      have hrest := ih ⟨s.pins.assign (e.evaluate s.pins (s.parts.headD .inert)).1, s.parts.tail⟩
      simp only [State.rename] at hrest ⊢
      simp only [List.map_cons, evaluateAll_cons, hfirst, PinMap.assign_rename hf, hrest]

end Element

end Injective

/-! ### Netlists -/

namespace Catalog

theorem create?_rename (c : Catalog) (m : Model) :
    c.create? (m.rename f) = (c.create? m).map (Element.rename f) := by
  rw [create?, create?, Model.rename]
  cases GateKind.ofName? m.type with
  | some kind => rfl
  | none =>
      simp only [Option.map_map]
      rfl

/-- **Renamed models have the renamed elements**, since they share names as before. -/
theorem elementsOf_map_rename (c : Catalog) (hf : f.Injective) (models : List Model) :
    c.elementsOf (models.map (Model.rename f)) = (c.elementsOf models).map (Element.rename f) :=
  elementsOf_map c.create?_rename (fun e e' => by simp [hf.eq_iff]) models

end Catalog

namespace Netlist

/-- The nets matter through their ends only. -/
theorem propagate_eq_foldl_edges (n : Netlist) (pins : PinMap) :
    n.propagate pins = n.edges.foldl (fun pins edge => pins.copy edge.1 edge.2) pins := by
  rw [propagate, edges, List.foldl_map]

theorem endpoints_eq_flatMap_edges (n : Netlist) :
    n.endpoints = n.edges.flatMap fun edge => [edge.1, edge.2] := by
  rw [endpoints, edges, List.flatMap_map]

/-- `n'` is the netlist `n` with the names of its models changed by `f`, and the owners of the pins
at the ends of its nets along with them.  Its nets may be labelled as one likes. -/
structure RenamedTo (f : String → String) (n n' : Netlist) : Prop where
  inputs : n'.inputs = n.inputs
  outputs : n'.outputs = n.outputs
  models : n'.models = n.models.map (Model.rename f)
  edges : n'.edges = n.edges.map (Prod.map (Pin.rename f) (Pin.rename f))

namespace RenamedTo

variable {n n' : Netlist}

theorem endpoints (h : n.RenamedTo f n') : n'.endpoints = n.endpoints.map (Pin.rename f) := by
  rw [endpoints_eq_flatMap_edges, endpoints_eq_flatMap_edges, h.edges, List.flatMap_map,
    List.map_flatMap]
  rfl

section Injective

variable (h : n.RenamedTo f n') (hf : f.Injective)

include h hf

/-- **Renaming commutes with the copying of the nets.** -/
theorem propagate (m : PinMap) : n'.propagate (m.rename f) = (n.propagate m).rename f := by
  rw [propagate_eq_foldl_edges, propagate_eq_foldl_edges, h.edges]
  generalize n.edges = edges
  induction edges generalizing m with
  | nil => rfl
  | cons edge rest ih =>
      rw [List.map_cons, List.foldl_cons, List.foldl_cons, Prod.map_fst, Prod.map_snd,
        PinMap.copy_rename hf, ih]

theorem coldPins : n'.coldPins = n.coldPins.rename f := by
  refine PinMap.eq_rename hf (fun pin => ?_) fun key hkey => ?_
  · simp only [get?_coldPins, h.endpoints, List.mem_map_of_injective (Pin.rename_injective hf)]
  · rw [get?_coldPins, h.endpoints, if_neg]
    intro hmem
    obtain ⟨pin, -, heq⟩ := List.mem_map.1 hmem
    exact hkey pin heq

end Injective

end RenamedTo

end Netlist

/-! ### Runs -/

theorem State.reset_rename (hf : f.Injective) (s : State) :
    (s.rename f).reset = s.reset.rename f := by
  cases s
  exact congrArg (State.mk · _) (PinMap.clear_rename hf _)

/-- The call with the owners of the pins that it mentions renamed. -/
def Call.rename (f : String → String) : Call → Call
  | .settle assignment => .settle (assignment.rename f)
  | .evaluate pins => .evaluate (pins.rename f)
  | .reset => .reset

section Injective

variable {n n' : Netlist} (h : n.RenamedTo f n') (hf : f.Injective)

include h hf

/-- **A renamed call assigns the renamed pins.** -/
theorem Call.matches_rename (call : Call) :
    Matches (fun a a' => a' = a.rename f) n n' call (call.rename f) := by
  cases call with
  | settle assignment => exact .some rfl
  | evaluate pins =>
      -- both of them take the input ports, which have no owner
      have hports : n.inputPins.map (Pin.rename f) = n.inputPins := by
        simp [Netlist.inputPins, Function.comp_def]
      refine .some ?_
      rw [← PinMap.restrictTo_rename hf, hports, Netlist.inputPins, h.inputs, Netlist.inputPins]
  | reset => exact .none

namespace Catalog

variable (c : Catalog) (name : String) (limits : Nat)

/-- A new block has the renamed table, and nested blocks in the same states. -/
theorem cold_design_rename :
    (c.design name n' limits).cold = (c.design name n limits).cold.rename f := by
  rw [design, design, Design.cold, Design.cold, State.rename, h.coldPins hf, h.models,
    c.elementsOf_map_rename hf, Element.coldAll_map_rename]

/-- **A pass of the renamed block** is the pass of the block, with the table renamed. -/
theorem relax_design_rename (s : State) :
    (c.design name n' limits).relax (s.rename f) = ((c.design name n limits).relax s).rename f := by
  simp only [Design.relax, design, h.models, c.elementsOf_map_rename hf,
    Element.evaluateAll_rename hf]
  exact congrArg (State.mk · _) (h.propagate hf _)

/-- The two blocks stay the same up to the names, whatever is done to both of them. -/
theorem coupling_rename :
    (c.design name n limits).Coupling (c.design name n' limits) (fun a a' => a' = a.rename f)
      (fun s s' => s' = s.rename f) Eq where
  settle a a' s s' ha hs := by
    subst ha hs
    have hlimits : (c.design name n limits).limits = (c.design name n' limits).limits := rfl
    refine Design.settle_related (R := fun s s' => s' = s.rename f) hlimits (fun t t' ht => ?_) ?_
    · rw [ht]
      exact c.relax_design_rename h hf name limits t
    · exact congrArg (State.mk · _) (PinMap.assign_rename hf s.pins a)
  reset s s' hs := by
    subst hs
    exact s.reset_rename hf
  outputs s s' hs := by
    subst hs
    have hports := PinMap.restrictTo_ports_rename hf s.pins n.outputs
    simp only [Design.outputs, design, Netlist.outputPins, h.outputs]
    exact hports.symm

end Catalog

end Injective

namespace Block

/-- **Names are only labels.**  The models of a netlist get other names, no two of them alike, the
owners of pins get other names along with them, and the nets get any labels.  If the same calls are
made on the two blocks, with the owners of pins renamed in what is assigned, they return the same;
and after every call the table is the renamed one, and the elements are the renamed ones, in their
order and in the same states. -/
theorem names_are_labels (c : Catalog) (name : String) (n n' : Netlist) (limits : Nat)
    (f : String → String) (hf : f.Injective) (hn : n.RenamedTo f n') (history : List Call) :
    let b := ofDesign (c.design name n limits)
    let b' := ofDesign (c.design name n' limits)
    let history' := history.map (Call.rename f)
    b'.answers history' = b.answers history ∧
      ∀ k, (b'.after (history'.take k)).pins = (b.after (history.take k)).pins.rename f ∧
        (b'.after (history'.take k)).instances =
          (b.after (history.take k)).instances.map fun p => (p.1.rename f, p.2) := by
  intro b b' history'
  have hcoupling := c.coupling_rename hn hf name limits
  have hcalls : List.Forall₂ (Call.Matches (fun a a' => a' = a.rename f) n n') history history' :=
    List.forall₂_map_right_iff.2 (List.forall₂_same.2 fun call _ => call.matches_rename hn hf)
  have hcold := c.cold_design_rename hn hf name limits
  refine ⟨(hcoupling.answers_eq hcalls hcold).symm, fun k => ?_⟩
  have hafter := hcoupling.after_take hcalls hcold k
  refine ⟨congrArg State.pins hafter, ?_⟩
  have helements : b'.design.elements = b.design.elements.map (Element.rename f) := by
    simp only [b, b', ofDesign, Catalog.design, hn.models, c.elementsOf_map_rename hf]
  rw [instances, instances, after_design, after_design, helements, ← Element.withParts_map_rename]
  exact congrArg (fun s => Element.withParts _ s.parts) hafter

end Block

namespace Crossed

/-- Other names for the elements of the loop.  Still one of them is the id of a pin of another
element, and one ends with a dot. -/
def nickname (name : String) : String :=
  "A." ++ name

theorem nickname_injective : nickname.Injective := by
  intro name name' h
  simpa [nickname, ← String.toList_inj] using h

/-- The loop with other names, and with nets that are not told apart. -/
def renamed : Netlist where
  inputs := [.north]
  outputs := [.up]
  models := [⟨"A.A", "NOR"⟩, ⟨"A.A.0", "LATCH"⟩, ⟨"A.", "XOR"⟩]
  nets := [⟨"", "A.A.2", "A.A.0.SOUTH"⟩, ⟨"", "A.A.0.NORTH", "A.A.0"⟩, ⟨"", "NORTH", "A.A.1"⟩,
    ⟨"", "A.A.2", "A..0"⟩, ⟨"", "A.A.0.EAST", "A..1"⟩, ⟨"", "A..2", "A.A.0.WEST"⟩,
    ⟨"", "A..2", "UP"⟩]

theorem renamedTo_renamed : netlist.RenamedTo nickname renamed :=
  ⟨rfl, rfl, by decide +kernel, by decide +kernel⟩

end Crossed

/-- The loop does the same under its other names. -/
theorem Block.loop_has_other_names :
    Crossed.nickname.Injective ∧ Crossed.netlist.RenamedTo Crossed.nickname Crossed.renamed ∧
      (ofDesign (Crossed.catalog.design "crossed" Crossed.renamed 2)).answers
          (Crossed.run.map (Call.rename Crossed.nickname)) =
        (ofDesign (Crossed.catalog.design "crossed" Crossed.netlist 2)).answers Crossed.run ∧
      ∀ k, ((ofDesign (Crossed.catalog.design "crossed" Crossed.renamed 2)).after
          ((Crossed.run.map (Call.rename Crossed.nickname)).take k)).pins =
        ((ofDesign (Crossed.catalog.design "crossed" Crossed.netlist 2)).after
          (Crossed.run.take k)).pins.rename Crossed.nickname :=
  have hlabels := names_are_labels Crossed.catalog "crossed" Crossed.netlist Crossed.renamed 2
    Crossed.nickname Crossed.nickname_injective Crossed.renamedTo_renamed Crossed.run
  ⟨Crossed.nickname_injective, Crossed.renamedTo_renamed, hlabels.1, fun k => (hlabels.2 k).1⟩

end LogicBlock
