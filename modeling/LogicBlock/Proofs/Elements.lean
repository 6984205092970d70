/-
**What an element reads and what it writes.**

An element sees the table of its block through its input pins only, and changes it at its output
pins only; a nested block is no different from a gate in this respect, whatever goes on inside.
All pins of an element carry its name, and the elements of a block have distinct names, so what one
element writes is neither read nor written by any other.

Main results:

* `Netlist.contains_portAssignment_iff`, `Netlist.get?_portResults_port` — what a nested block is
  assigned, and what it puts out;
* `Element.evaluate_congr`, `Element.get?_evaluate_of_notMem` — **the two frames**: what an element
  does depends on its input pins, and it leaves alone all but its output pins;
* `Element.notMem_inputPins_of_name_ne`, `Element.notMem_outputPins_of_name_ne` — the output pins of
  an element are no pins of an element with another name;
* `Catalog.nodup_names_elementsOf` — **the elements of a netlist have distinct names**, also where
  the models have not;
* `Catalog.elementsOf_eq_filterMap` — with distinct names every model of known type has its element.
-/

import LogicBlock.Settlement
import LogicBlock.Wiring

set_option relaxedAutoImplicit false
set_option autoImplicit false

namespace LogicBlock

/-! ### The ports of a nested block -/

namespace Netlist

variable {n : Netlist} {name : String}

/-- A nested block is assigned its input ports and nothing else. -/
theorem contains_portAssignment_iff {pins : PinMap} {key : String} :
    (n.portAssignment name pins).contains key ↔ key ∈ n.inputPins := by
  rw [NameMap.contains, Option.isSome_iff_exists, inputPins, List.mem_map]
  constructor
  · rintro ⟨v, hv⟩
    obtain ⟨d, hd, hkey, -⟩ := (n.get?_portAssignment_eq_some_iff name pins key v).1 hv
    exact ⟨d, hd, hkey⟩
  · rintro ⟨d, hd, hkey⟩
    exact ⟨_, (n.get?_portAssignment_eq_some_iff name pins key _).2 ⟨d, hd, hkey, rfl⟩⟩

theorem read_portAssignment {pins : PinMap} {d : Direction} (hd : d ∈ n.inputs) :
    (n.portAssignment name pins).read d.name = pins.read (Pin.port name d) := by
  rw [PinMap.read, (n.get?_portAssignment_eq_some_iff name pins d.name _).2 ⟨d, hd, rfl, rfl⟩]
  rfl

/-- The assignment shows the levels at the pins of the nested block and nothing else. -/
theorem portAssignment_congr {m m' : PinMap}
    (h : ∀ d ∈ n.inputs, m.read (Pin.port name d) = m'.read (Pin.port name d)) :
    n.portAssignment name m = n.portAssignment name m' := by
  unfold portAssignment
  congr 1
  refine List.map_congr_left fun d hd => ?_
  rw [h d hd]

/-- What a nested block puts out is what its own table shows at the output ports. -/
theorem portResults_congr {inner inner' : PinMap}
    (h : ∀ d ∈ n.outputs, inner.get? d.name = inner'.get? d.name) :
    n.portResults name inner = n.portResults name inner' := by
  refine NameMap.ext_get? fun key => Option.ext fun v => ?_
  rw [get?_portResults_eq_some_iff, get?_portResults_eq_some_iff]
  refine exists_congr fun d => and_congr_right fun hd => ?_
  rw [h d hd]

/-- A nested block puts out those of its output ports that its own table has an entry for. -/
theorem get?_portResults_port {inner : PinMap} {d : Direction} :
    (n.portResults name inner).get? (Pin.port name d) =
      if d ∈ n.outputs then inner.get? d.name else none := by
  refine Option.ext fun v => ?_
  rw [get?_portResults_eq_some_iff]
  constructor
  · rintro ⟨d', hd', hkey, hv⟩
    obtain ⟨-, rfl⟩ := Pin.port_inj.1 hkey
    rw [if_pos hd', hv]
  · intro hv
    split at hv
    · rename_i hd
      exact ⟨d, hd, rfl, hv⟩
    · cases hv

theorem contains_portResults_iff {inner : PinMap} {pin : String} :
    (n.portResults name inner).contains pin ↔
      ∃ d ∈ n.outputs, Pin.port name d = pin ∧ inner.contains d.name := by
  rw [NameMap.contains, Option.isSome_iff_exists]
  constructor
  · rintro ⟨v, hv⟩
    obtain ⟨d, hd, hkey, hinner⟩ := (n.get?_portResults_eq_some_iff name inner pin v).1 hv
    exact ⟨d, hd, hkey, Option.isSome_iff_exists.2 ⟨v, hinner⟩⟩
  · rintro ⟨d, hd, hkey, hinner⟩
    obtain ⟨v, hv⟩ := Option.isSome_iff_exists.1 hinner
    exact ⟨v, (n.get?_portResults_eq_some_iff name inner pin v).2 ⟨d, hd, hkey, hv⟩⟩

end Netlist

namespace Element

/-! ### The pins of an element -/

theorem owner?_of_mem_inputPins {e : Element} {pin : String} (h : pin ∈ e.inputPins) :
    Pin.owner? pin = some e.name := by
  cases e with
  | gate g =>
      simp only [inputPins, Gate.inputPins, List.mem_cons, List.not_mem_nil, or_false] at h
      rcases h with rfl | rfl
      · exact Pin.owner?_terminal g.name 0
      · exact Pin.owner?_terminal g.name 1
  | composite name type block =>
      obtain ⟨d, -, rfl⟩ := List.mem_map.1 h
      exact Pin.owner?_port name d

theorem owner?_of_mem_outputPins {e : Element} {pin : String} (h : pin ∈ e.outputPins) :
    Pin.owner? pin = some e.name := by
  cases e with
  | gate g =>
      rw [outputPins, List.mem_singleton] at h
      subst h
      exact Pin.owner?_terminal g.name 2
  | composite name type block =>
      obtain ⟨d, -, rfl⟩ := List.mem_map.1 h
      exact Pin.owner?_port name d

/-- An element reads nothing that an element of another name writes. -/
theorem notMem_inputPins_of_name_ne {e e' : Element} (hne : e.name ≠ e'.name) {pin : String}
    (h : pin ∈ e.outputPins) : pin ∉ e'.inputPins := by
  intro h'
  have howner := owner?_of_mem_outputPins h
  rw [owner?_of_mem_inputPins h'] at howner
  exact hne (Option.some.inj howner).symm

/-- An element writes nothing that an element of another name writes. -/
theorem notMem_outputPins_of_name_ne {e e' : Element} (hne : e.name ≠ e'.name) {pin : String}
    (h : pin ∈ e.outputPins) : pin ∉ e'.outputPins := by
  intro h'
  have howner := owner?_of_mem_outputPins h
  rw [owner?_of_mem_outputPins h'] at howner
  exact hne (Option.some.inj howner).symm

/-- A port of the block itself is no pin of an element. -/
theorem name_notMem_outputPins (d : Direction) (e : Element) : d.name ∉ e.outputPins := by
  intro h
  have howner := owner?_of_mem_outputPins h
  rw [Pin.owner?_direction] at howner
  cases howner

/-! ### The two frames of an evaluation -/

/-- **An element sees its input pins only.** -/
theorem evaluate_congr {e : Element} {m m' : PinMap}
    (h : ∀ pin ∈ e.inputPins, m.read pin = m'.read pin) (s : State) :
    e.evaluate m s = e.evaluate m' s := by
  cases e with
  | gate g =>
      have h₀ : m.read (Pin.terminal g.name 0) = m'.read (Pin.terminal g.name 0) :=
        h _ (by simp [inputPins, Gate.inputPins])
      have h₁ : m.read (Pin.terminal g.name 1) = m'.read (Pin.terminal g.name 1) :=
        h _ (by simp [inputPins, Gate.inputPins])
      simp only [evaluate_gate, Gate.evaluate, Gate.outputValue, h₀, h₁]
  | composite name type block =>
      -- a nested block sees the table through the assignment to its ports
      have hports : block.netlist.portAssignment name m = block.netlist.portAssignment name m' :=
        Netlist.portAssignment_congr fun d hd => h (Pin.port name d) (List.mem_map_of_mem hd)
      rw [evaluate, evaluate, hports]

/-- What an element writes are output pins of its own. -/
theorem mem_outputPins_of_get?_evaluate {e : Element} {m : PinMap} {s : State} {pin : String}
    {v : Voltage} (h : (e.evaluate m s).1.get? pin = some v) : pin ∈ e.outputPins := by
  cases e with
  | gate g =>
      by_cases hp : pin = g.outputPin
      · simp [outputPins, hp]
      · simp [Gate.evaluate, hp] at h
  | composite name type block =>
      rw [evaluate, Netlist.get?_portResults_eq_some_iff] at h
      obtain ⟨d, hd, rfl, -⟩ := h
      exact List.mem_map_of_mem hd

/-- **An element leaves alone all but its output pins.** -/
theorem get?_evaluate_of_notMem {e : Element} {pin : String} (h : pin ∉ e.outputPins) (m : PinMap)
    (s : State) : (e.evaluate m s).1.get? pin = none := by
  cases hv : (e.evaluate m s).1.get? pin with
  | none => rfl
  | some v => exact absurd (mem_outputPins_of_get?_evaluate hv) h

/-! ### All elements of a block -/

/-- The elements together leave alone all but their output pins. -/
theorem get?_evaluateAll_of_notMem {l : List Element} {pin : String}
    (h : pin ∉ l.flatMap outputPins) (s : State) :
    (evaluateAll l s).pins.get? pin = s.pins.get? pin := by
  induction l generalizing s with
  | nil => rfl
  | cons e rest ih =>
      rw [List.flatMap_cons, List.mem_append, not_or] at h
      rw [evaluateAll_cons]
      simp only [ih h.2, PinMap.get?_assign, get?_evaluate_of_notMem h.1,
        Option.none_or]

theorem contains_evaluateAll {l : List Element} {s : State} {pin : String}
    (h : s.pins.contains pin) : (evaluateAll l s).pins.contains pin := by
  induction l generalizing s with
  | nil => exact h
  | cons e rest ih =>
      rw [evaluateAll_cons]
      exact ih (s := ⟨_, _⟩) (PinMap.contains_assign_iff.2 (.inr h))

/-! ### Placing an element in a list -/

theorem mem_or_eq_of_mem_place {e x : Element} {l : List Element} (h : x ∈ e.place l) :
    x = e ∨ x ∈ l := by
  induction l with
  | nil => exact .inl (List.mem_singleton.1 h)
  | cons other rest ih =>
      rw [place] at h
      split at h
      · rcases List.mem_cons.1 h with rfl | h
        · exact .inl rfl
        · exact .inr (List.mem_cons_of_mem _ h)
      · rcases List.mem_cons.1 h with rfl | h
        · exact .inr List.mem_cons_self
        · exact (ih h).imp id (List.mem_cons_of_mem _)

/-- A new name goes to the end of a list. -/
theorem place_of_notMem {e : Element} {l : List Element} (h : e.name ∉ l.map name) :
    e.place l = l ++ [e] := by
  induction l with
  | nil => rfl
  | cons other rest ih =>
      rw [List.map_cons, List.mem_cons, not_or] at h
      rw [place, if_neg (Ne.symm h.1), ih h.2, List.cons_append]

/-- A name that is there keeps its place. -/
theorem map_name_place_of_mem {e : Element} {l : List Element} (h : e.name ∈ l.map name) :
    (e.place l).map name = l.map name := by
  induction l with
  | nil => cases h
  | cons other rest ih =>
      rw [place]
      split
      · rename_i heq
        rw [List.map_cons, List.map_cons, heq]
      · rename_i hne
        rw [List.map_cons, List.map_cons, ih]
        exact (List.mem_cons.1 h).resolve_left (Ne.symm hne)

theorem nodup_names_place {e : Element} {l : List Element} (h : (l.map name).Nodup) :
    ((e.place l).map name).Nodup := by
  by_cases he : e.name ∈ l.map name
  · rwa [map_name_place_of_mem he]
  · rw [place_of_notMem he, List.map_append, List.nodup_append]
    refine ⟨h, by simp, ?_⟩
    rintro a ha b hb rfl
    rw [List.map_singleton, List.mem_singleton] at hb
    exact he (hb ▸ ha)

theorem mem_names_place {e : Element} {l : List Element} {a : String} :
    a ∈ (e.place l).map name ↔ a = e.name ∨ a ∈ l.map name := by
  by_cases he : e.name ∈ l.map name
  · rw [map_name_place_of_mem he]
    exact ⟨.inr, fun h => h.elim (fun h => h ▸ he) id⟩
  · rw [place_of_notMem he, List.map_append, List.mem_append, List.map_singleton,
      List.mem_singleton, or_comm]

/-- Places elements into a list, one after the other. -/
def placeAll (placed l : List Element) : List Element :=
  l.foldl (fun placed e => e.place placed) placed

theorem mem_or_mem_of_mem_placeAll {placed l : List Element} {x : Element}
    (h : x ∈ placeAll placed l) : x ∈ placed ∨ x ∈ l := by
  induction l generalizing placed with
  | nil => exact .inl h
  | cons e rest ih =>
      rcases @ih (e.place placed) h with h | h
      · rcases mem_or_eq_of_mem_place h with rfl | h
        · exact .inr List.mem_cons_self
        · exact .inl h
      · exact .inr (List.mem_cons_of_mem _ h)

theorem nodup_names_placeAll {placed : List Element} (h : (placed.map name).Nodup)
    (l : List Element) : ((placeAll placed l).map name).Nodup := by
  induction l generalizing placed with
  | nil => exact h
  | cons e rest ih => exact ih (nodup_names_place h)

theorem mem_names_placeAll {placed l : List Element} {a : String} :
    a ∈ (placeAll placed l).map name ↔ a ∈ placed.map name ∨ a ∈ l.map name := by
  induction l generalizing placed with
  | nil => simp [placeAll]
  | cons e rest ih =>
      have hstep : placeAll placed (e :: rest) = placeAll (e.place placed) rest := rfl
      rw [hstep, ih, mem_names_place, List.map_cons, List.mem_cons, or_assoc]
      exact or_left_comm

/-- Elements with distinct names are put one behind the other. -/
theorem placeAll_of_nodup {placed l : List Element} (h : ((placed ++ l).map name).Nodup) :
    placeAll placed l = placed ++ l := by
  induction l generalizing placed with
  | nil => simp [placeAll]
  | cons e rest ih =>
      have hstep : placeAll placed (e :: rest) = placeAll (e.place placed) rest := rfl
      have hnew : e.name ∉ placed.map name := by
        intro hmem
        rw [List.map_append, List.nodup_append] at h
        exact h.2.2 _ hmem _ List.mem_cons_self rfl
      rw [hstep, place_of_notMem hnew, ih (by simpa using h), List.append_assoc,
        List.singleton_append]

/-- To place elements depends on nothing about them but which of them share a name. -/
theorem place_map {g : Element → Element} (hg : ∀ e e', (g e).name = (g e').name ↔ e.name = e'.name)
    (e : Element) (l : List Element) : (g e).place (l.map g) = (e.place l).map g := by
  induction l with
  | nil => rfl
  | cons other rest ih =>
      rw [List.map_cons, place, place]
      by_cases heq : other.name = e.name
      · rw [if_pos heq, if_pos ((hg other e).2 heq), List.map_cons]
      · rw [if_neg heq, if_neg (mt (hg other e).1 heq), List.map_cons, ih]

theorem placeAll_map {g : Element → Element}
    (hg : ∀ e e', (g e).name = (g e').name ↔ e.name = e'.name) (placed l : List Element) :
    placeAll (placed.map g) (l.map g) = (placeAll placed l).map g := by
  induction l generalizing placed with
  | nil => rfl
  | cons e rest ih =>
      have hstep := ih (e.place placed)
      rw [← place_map hg] at hstep
      exact hstep

end Element

/-! ### The elements of a netlist -/

namespace Catalog

theorem elementsOf_eq_placeAll (c : Catalog) (models : List Model) :
    c.elementsOf models = Element.placeAll [] (models.filterMap c.create?) :=
  rfl

/-- **The elements of a netlist have distinct names**, also where its models have not. -/
theorem nodup_names_elementsOf (c : Catalog) (models : List Model) :
    ((c.elementsOf models).map Element.name).Nodup :=
  @Element.nodup_names_placeAll [] List.nodup_nil _

/-- Every element of a block is the element of one of its models. -/
theorem mem_modelElements_of_mem_elementsOf {c : Catalog} {n : Netlist} {e : Element}
    (h : e ∈ c.elementsOf n.models) : e ∈ n.modelElements c :=
  (Element.mem_or_mem_of_mem_placeAll h).resolve_left List.not_mem_nil

/-- Every model of known type has an element of its name in the block. -/
theorem mem_names_elementsOf {c : Catalog} {n : Netlist} {a : String} :
    a ∈ (c.elementsOf n.models).map Element.name ↔ a ∈ (n.modelElements c).map Element.name := by
  rw [elementsOf_eq_placeAll, Element.mem_names_placeAll, Netlist.modelElements]
  simp

theorem map_name_filterMap_create? (c : Catalog) (models : List Model) :
    (models.filterMap c.create?).map Element.name =
      (models.filter fun m => (c.create? m).isSome).map Model.name := by
  induction models with
  | nil => rfl
  | cons m rest ih =>
      cases hm : c.create? m with
      | none => simp [hm, ih]
      | some e => simp [hm, ih, (name_type_of_create? hm).1]

/-- **Models with distinct names keep their elements**, in the order of the models. -/
theorem elementsOf_eq_filterMap (c : Catalog) {models : List Model}
    (h : (models.map Model.name).Nodup) : c.elementsOf models = models.filterMap c.create? := by
  refine Element.placeAll_of_nodup ?_
  rw [List.nil_append, map_name_filterMap_create?]
  exact h.sublist (List.filter_sublist.map _)

/-- If every model has its element up to `g`, a netlist has its elements up to `g`. -/
theorem elementsOf_map {c c' : Catalog} {r : Model → Model} {g : Element → Element}
    (hcreate : ∀ m, c'.create? (r m) = (c.create? m).map g)
    (hg : ∀ e e', (g e).name = (g e').name ↔ e.name = e'.name) (models : List Model) :
    c'.elementsOf (models.map r) = (c.elementsOf models).map g := by
  have hmodels : (models.map r).filterMap c'.create? = (models.filterMap c.create?).map g := by
    rw [List.filterMap_map, List.map_filterMap]
    exact congrArg (List.filterMap · models) (funext hcreate)
  rw [elementsOf_eq_placeAll, elementsOf_eq_placeAll, hmodels]
  exact Element.placeAll_map hg [] _

theorem elementsOf_perm (c : Catalog) {models models' : List Model}
    (hnames : (models.map Model.name).Nodup) (h : models'.Perm models) :
    (c.elementsOf models').Perm (c.elementsOf models) := by
  have hnames' : (models'.map Model.name).Nodup := (h.map _).nodup_iff.2 hnames
  rw [c.elementsOf_eq_filterMap hnames, c.elementsOf_eq_filterMap hnames']
  exact h.filterMap _

end Catalog

end LogicBlock
