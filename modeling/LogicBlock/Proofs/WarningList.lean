/-
**The list of warnings, warning by warning.**

The wiring report is found by a loop over the nets and a few scans.  Here its list of warnings is
given without them: what drive reaches is the least set of pins that holds the input ports and the
output pins of the elements and is closed under the nets, and every warning is about a model, a net,
a pin or a port that this set and the netlist alone decide on.

The loop that finds the set stops after the first sweep over the nets that adds nothing.  Nothing
keeps it from going round in circles but the size of the set: every sweep before the last puts in
the destination of a net, so there are at most as many of them as nets, in whatever order the nets
are listed.

Main definitions:

* `Reach.Sweeps` — the loop, without a bound on its rounds;
* `Netlist.Carries` — a set of pins holds what drives and is closed under the nets;
* `Netlist.Reads`, `Netlist.Refers` — a pin is read by a net or an element; a pin is a port, or
  belongs to a model.

Main results:

* `Reach.exists_sweeps` — **the loop ends** as soon as no head of an edge is missing;
* `Netlist.isLeast_drivenPins` — **the driven pins are the least set** that drive is carried in;
* `Netlist.warnings_in_order` — **the list of warnings**, for every netlist and every catalog.
-/

import LogicBlock.Proofs.Drive
import Mathlib.Order.Bounds.Basic

set_option relaxedAutoImplicit false
set_option autoImplicit false

namespace LogicBlock

/-! ### The loop -/

namespace Reach

variable {edges : List (String × String)}

/-- **The loop over the edges**, which follows every edge once in a round and ends after a round
that has not made the set larger: from a set it takes a number of rounds and ends in a set. -/
inductive Sweeps (edges : List (String × String)) : NameSet → Nat → NameSet → Prop where
  | last {s : NameSet} (h : (sweep edges s).size = s.size) : Sweeps edges s 1 (sweep edges s)
  | more {s t : NameSet} {rounds : Nat} (h : (sweep edges s).size ≠ s.size)
      (hrest : Sweeps edges (sweep edges s) rounds t) : Sweeps edges s (rounds + 1) t

/-- A round that follows no edge to a new name leaves the set as it is. -/
theorem sweep_eq_self {s : NameSet} (h : ∀ e ∈ edges, follow s e = s) : sweep edges s = s := by
  induction edges with
  | nil => rfl
  | cons e rest ih =>
      rw [sweep, List.foldl_cons, h e List.mem_cons_self]
      exact ih fun e' he' => h e' (List.mem_cons_of_mem e he')

/-- A round that has not made the set larger has not changed it. -/
theorem Sweeps.of_size_eq {s : NameSet} (h : (sweep edges s).size = s.size) :
    Sweeps edges s 1 s := by
  have hlast := Sweeps.last h
  rwa [sweep_eq_self (sweep_eq_of_size_eq h)] at hlast

/-- **The loop ends**, with at most one round more than there are heads missing, in the set that
the bounded sweeps find. -/
theorem exists_sweeps {bound : Nat} {s : NameSet} (h : missing edges s ≤ bound) :
    ∃ rounds ≤ bound + 1, Sweeps edges s rounds (sweeps edges bound s) := by
  induction bound generalizing s with
  | zero =>
      have hsize : (sweep edges s).size = s.size := by
        refine Decidable.byContradiction fun hne => ?_
        have hlt := missing_sweep_lt hne
        omega
      exact ⟨1, Nat.le_refl 1, .of_size_eq hsize⟩
  | succ bound ih =>
      by_cases hsize : (sweep edges s).size = s.size
      · rw [sweeps, if_pos hsize]
        exact ⟨1, by omega, .of_size_eq hsize⟩
      · have hlt := missing_sweep_lt hsize
        obtain ⟨rounds, hrounds, hrest⟩ := ih (s := sweep edges s) (by omega)
        rw [sweeps, if_neg hsize]
        exact ⟨rounds + 1, by omega, .more hsize hrest⟩

end Reach

namespace Netlist

variable {n : Netlist} {c : Catalog}

/-! ### The pins that drive reaches -/

/-- A set of pins that drive does not leave: it holds the input ports and the output pins of the
elements, and with the source of a net its destination. -/
structure Carries (n : Netlist) (c : Catalog) (pins : Set String) : Prop where
  input : ∀ d ∈ n.inputs, d.name ∈ pins
  output : ∀ m ∈ n.models, ∀ e, c.create? m = some e → ∀ pin ∈ e.outputPins, pin ∈ pins
  net : ∀ net ∈ n.nets, net.source ∈ pins → net.destination ∈ pins

theorem mem_modelElements_iff {e : Element} :
    e ∈ n.modelElements c ↔ ∃ m ∈ n.models, c.create? m = some e :=
  List.mem_filterMap

theorem carries_drivenPins (n : Netlist) (c : Catalog) :
    n.Carries c {pin | (n.drivenPins c).contains pin} where
  input _ hd :=
    contains_drivenPins_of_mem_driverPins (List.mem_append_left _ (List.mem_map_of_mem hd))
  output m hm e he pin hpin := by
    refine contains_drivenPins_of_mem_driverPins (List.mem_append_right _ ?_)
    exact List.mem_flatMap.2 ⟨e, mem_modelElements_iff.2 ⟨m, hm, he⟩, hpin⟩
  net _ hnet hsource := contains_drivenPins_destination hnet hsource

/-- Drive stays inside every set that it does not leave. -/
theorem Carries.mem_of_contains {pins : Set String} (h : n.Carries c pins) {pin : String}
    (hpin : (n.drivenPins c).contains pin) : pin ∈ pins := by
  rw [contains_drivenPins_iff] at hpin
  induction hpin with
  | start hstart =>
      rcases List.mem_append.1 hstart with hin | hout
      · obtain ⟨d, hd, rfl⟩ := List.mem_map.1 hin
        exact h.input d hd
      · obtain ⟨e, he, hpin⟩ := List.mem_flatMap.1 hout
        obtain ⟨m, hm, hcreate⟩ := mem_modelElements_iff.1 he
        exact h.output m hm e hcreate _ hpin
  | step _ hedge ih =>
      obtain ⟨net, hnet, hends⟩ := List.mem_map.1 hedge
      obtain ⟨rfl, rfl⟩ := Prod.mk.inj hends
      exact h.net net hnet ih

/-- **The driven pins are the least set of pins that drive does not leave.** -/
theorem isLeast_drivenPins (n : Netlist) (c : Catalog) :
    IsLeast {pins : Set String | n.Carries c pins} {pin | (n.drivenPins c).contains pin} :=
  ⟨n.carries_drivenPins c, fun _ hpins _ hpin => hpins.mem_of_contains hpin⟩

/-- **The loop that finds the driven pins ends**, after one round more than there are nets at the
latest. -/
theorem exists_sweeps_drivenPins (n : Netlist) (c : Catalog) :
    ∃ rounds ≤ n.nets.length + 1,
      Reach.Sweeps n.edges (.ofNames (n.driverPins c)) rounds (n.drivenPins c) := by
  have hlength : n.edges.length = n.nets.length := List.length_map _
  rw [← hlength]
  exact Reach.exists_sweeps (List.length_filter_le _ _)

/-! ### What the warnings are about -/

/-- The level of a pin is read: by a net, or by the element of a model. -/
def Reads (n : Netlist) (c : Catalog) (pin : String) : Prop :=
  (∃ net ∈ n.nets, pin = net.source) ∨
    ∃ m ∈ n.models, ∃ e, c.create? m = some e ∧ pin ∈ e.inputPins

/-- A pin is named after a face, or it has the name of a model before its last dot. -/
def Refers (n : Netlist) (pin : String) : Prop :=
  (∃ d : Direction, pin = d.name) ∨
    ∃ m ∈ n.models, ∃ suffix : String, '.' ∉ suffix.toList ∧ pin = m.name ++ "." ++ suffix

theorem mem_readPins_iff {pin : String} : pin ∈ n.readPins c ↔ n.Reads c pin := by
  rw [readPins, List.mem_append, List.mem_map, List.mem_flatMap, Reads]
  refine or_congr (exists_congr fun net => and_congr_right fun _ => eq_comm) ⟨?_, ?_⟩
  · rintro ⟨e, he, hpin⟩
    obtain ⟨m, hm, hcreate⟩ := mem_modelElements_iff.1 he
    exact ⟨m, hm, e, hcreate, hpin⟩
  · rintro ⟨m, hm, e, hcreate, hpin⟩
    exact ⟨e, mem_modelElements_iff.2 ⟨m, hm, hcreate⟩, hpin⟩

theorem hasPin_iff {pin : String} : n.hasPin pin ↔ n.Refers pin := by
  have hface : (Direction.ofName? pin).isSome ↔ ∃ d : Direction, pin = d.name := by
    rw [Option.isSome_iff_exists]
    exact exists_congr fun d => Direction.ofName?_eq_some_iff
  have howner : (∃ owner, Pin.owner? pin = some owner ∧ ∃ m ∈ n.models, m.name = owner) ↔
      ∃ m ∈ n.models, ∃ suffix : String, '.' ∉ suffix.toList ∧ pin = m.name ++ "." ++ suffix := by
    constructor
    · rintro ⟨_, hpin, m, hm, rfl⟩
      exact ⟨m, hm, Pin.owner?_eq_some_iff.1 hpin⟩
    · rintro ⟨m, hm, hpin⟩
      exact ⟨m.name, Pin.owner?_eq_some_iff.2 hpin, m, hm, rfl⟩
  rw [Refers, ← hface, ← howner, hasPin, Bool.or_eq_true]
  refine or_congr_right ?_
  cases Pin.owner? pin with
  | none => simp
  | some owner =>
      simp only [List.any_eq_true, decide_eq_true_eq, Option.some.injEq, exists_eq_left']

instance (n : Netlist) : DecidablePred n.Refers :=
  fun _ => decidable_of_iff _ hasPin_iff

/-! ### The list -/

theorem unknownTypes_eq (n : Netlist) (c : Catalog) :
    n.unknownTypes c =
      (n.models.filter fun m => ¬c.isKnown m.type).map fun m =>
        .unknownModelType m.name m.type := by
  rw [unknownTypes]
  congr 1
  refine List.filter_congr fun m _ => ?_
  rw [← Catalog.isSome_create?]
  cases c.create? m <;> rfl

theorem danglingReferences_eq (n : Netlist) :
    n.danglingReferences =
      n.nets.flatMap fun net =>
        ([net.source, net.destination].filter fun pin => ¬n.Refers pin).map
          (.danglingReference net.name) := by
  have hrefers : ∀ pin, (!n.hasPin pin) = decide ¬n.Refers pin := fun pin => by
    rw [Bool.eq_iff_iff]
    simp [← hasPin_iff]
  simp only [danglingReferences, hrefers]

theorem unusedInputs_eq (n : Netlist) :
    n.unusedInputs = n.inputs.filter fun d => ∀ net ∈ n.nets, net.source ≠ d.name := by
  refine List.filter_congr fun d _ => ?_
  rw [Bool.eq_iff_iff]
  simp

theorem unconnectedOutputs_eq (n : Netlist) (c : Catalog) :
    n.unconnectedOutputs c = n.outputs.filter fun d => ¬(n.drivenPins c).contains d.name := by
  refine List.filter_congr fun d _ => ?_
  rw [Bool.eq_iff_iff]
  simp

/-- **The warnings about a netlist, one by one**: the models of unknown type; the ends of nets that
are neither ports nor pins of a model; in the order of names the pins that are read and lie outside
the least set that drive does not leave; the input ports that no net starts from; the output ports
outside that set.  The loop that finds the set ends on every netlist. -/
theorem warnings_in_order (n : Netlist) (c : Catalog) :
    ∃ (driven : NameSet) (undriven : List String),
      IsLeast {pins : Set String | n.Carries c pins} {pin | driven.contains pin} ∧
      (∃ rounds ≤ n.nets.length + 1,
        Reach.Sweeps n.edges (.ofNames (n.driverPins c)) rounds driven) ∧
      undriven.Pairwise (· < ·) ∧
      (∀ pin, pin ∈ undriven ↔ n.Reads c pin ∧ ¬driven.contains pin) ∧
      (Wiring.ofNetlist c n).warnings =
        ((n.models.filter fun m => ¬c.isKnown m.type).map fun m =>
          .unknownModelType m.name m.type) ++
        (n.nets.flatMap fun net =>
          ([net.source, net.destination].filter fun pin => ¬n.Refers pin).map
            (.danglingReference net.name)) ++
        undriven.map .undrivenPin ++
        (n.inputs.filter fun d => ∀ net ∈ n.nets, net.source ≠ d.name).map .unusedInput ++
        (n.outputs.filter fun d => ¬driven.contains d.name).map .unconnectedOutput := by
  refine ⟨n.drivenPins c, n.undrivenPins c, n.isLeast_drivenPins c, n.exists_sweeps_drivenPins c,
    NameMap.pairwise_keys _, fun pin => ?_, ?_⟩
  · rw [mem_undrivenPins_iff, mem_readPins_iff]
  · rw [← unknownTypes_eq, ← danglingReferences_eq, ← unusedInputs_eq, ← unconnectedOutputs_eq]
    rfl

end Netlist

end LogicBlock
