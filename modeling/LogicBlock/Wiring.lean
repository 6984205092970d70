/-
**The wiring of a netlist.**

Some faults in a netlist do not keep it from running: a model of unknown type, a net to a pin that
nothing has, a pin that nothing drives.  The pins concerned simply stay undefined.  The wiring
report lists these faults, and shows which pins are joined by nets.

A pin is driven when drive reaches it along nets, from the input ports of the block or from the
output pins of its elements.

Main definitions:

* `WiringWarning`, `WiringWarning.message` — the faults;
* `Netlist.drivenPins` — the pins that drive reaches;
* `Wiring`, `Wiring.ofNetlist` — the report: warnings, and the pins that share a net;
* `Wiring.areConnected` — pins on one net;
* `Search`, `Search.step`, `Search.run` — a search along the nets, first found, first looked at;
* `Wiring.groups` — pins joined by chains of nets, found by searches that share what they have seen.

Main results:

* `Netlist.contains_drivenPins_iff` — the driven pins are those that drive can reach;
* `Search.step_decreases` — why a search ends, on any nets.
-/

import LogicBlock.Catalog
import LogicBlock.Reach

set_option relaxedAutoImplicit false
set_option autoImplicit false

namespace LogicBlock

/-- A fault in the wiring. -/
inductive WiringWarning where
  /-- The type of a model is unknown, so the model does nothing. -/
  | unknownModelType (model type : String)
  /-- A net ends in a pin that belongs neither to the block nor to a model. -/
  | danglingReference (net pin : String)
  /-- No drive reaches a pin that is read. -/
  | undrivenPin (pin : String)
  /-- An input port is the source of no net. -/
  | unusedInput (d : Direction)
  /-- No drive reaches an output port. -/
  | unconnectedOutput (d : Direction)
  deriving DecidableEq

/-- The text of a warning. -/
def WiringWarning.message : WiringWarning → String
  | unknownModelType model type =>
    "model " ++ model ++ " has unknown type '" ++ type ++ "' and is inert"
  | danglingReference net pin => "net " ++ net ++ " references unknown pin " ++ pin
  | undrivenPin pin => "pin " ++ pin ++ " has no driver"
  | unusedInput d => "input " ++ d.name ++ " is not connected"
  | unconnectedOutput d => "output " ++ d.name ++ " is never driven"

namespace Netlist

/-- Whether a pin is a port, or belongs to one of the models. -/
def hasPin (n : Netlist) (pin : String) : Bool :=
  (Direction.ofName? pin).isSome ||
    match Pin.owner? pin with
    | some owner => n.models.any (·.name = owner)
    | none => false

/-- The directed edges that the nets make. -/
def edges (n : Netlist) : List (String × String) :=
  n.nets.map fun net => (net.source, net.destination)

/-- The elements that a catalog makes for the models, one for each model of known type. -/
def modelElements (n : Netlist) (c : Catalog) : List Element :=
  n.models.filterMap c.create?

/-- The pins that drive starts from: the input ports and the output pins of the elements. -/
def driverPins (n : Netlist) (c : Catalog) : List String :=
  n.inputPins ++ (n.modelElements c).flatMap Element.outputPins

/-- The pins that drive reaches. -/
def drivenPins (n : Netlist) (c : Catalog) : NameSet :=
  Reach.closure n.edges (.ofNames (n.driverPins c))

/-- **A pin is driven exactly when it can be reached along nets** from an input port or an output
pin of an element. -/
theorem contains_drivenPins_iff (n : Netlist) (c : Catalog) (pin : String) :
    (n.drivenPins c).contains pin ↔
      Reach.Reachable n.edges (fun p => p ∈ n.driverPins c) pin := by
  simp [drivenPins, Reach.contains_closure_iff]

/-- The pins whose level is read by a net or by an element. -/
def readPins (n : Netlist) (c : Catalog) : List String :=
  n.nets.map Net.source ++ (n.modelElements c).flatMap Element.inputPins

/-- A warning for every model of unknown type, in the order of the models. -/
def unknownTypes (n : Netlist) (c : Catalog) : List WiringWarning :=
  (n.models.filter fun m => (c.create? m).isNone).map fun m => .unknownModelType m.name m.type

/-- A warning for every end of a net that is a pin of nothing, in the order of the nets. -/
def danglingReferences (n : Netlist) : List WiringWarning :=
  n.nets.flatMap fun net =>
    ([net.source, net.destination].filter fun pin => !n.hasPin pin).map
      (.danglingReference net.name)

/-- The pins that are read but not driven, in the order of their names. -/
def undrivenPins (n : Netlist) (c : Catalog) : List String :=
  let driven := n.drivenPins c
  (NameSet.ofNames ((n.readPins c).filter fun pin => !driven.contains pin)).keys

/-- The input ports that are the source of no net. -/
def unusedInputs (n : Netlist) : List Direction :=
  n.inputs.filter fun d => !n.nets.any (·.source = d.name)

/-- The output ports that drive does not reach. -/
def unconnectedOutputs (n : Netlist) (c : Catalog) : List Direction :=
  let driven := n.drivenPins c
  n.outputs.filter fun d => !driven.contains d.name

/-- All warnings, kind by kind. -/
def warnings (n : Netlist) (c : Catalog) : List WiringWarning :=
  n.unknownTypes c ++ n.danglingReferences ++
    (n.undrivenPins c).map .undrivenPin ++ n.unusedInputs.map .unusedInput ++
    (n.unconnectedOutputs c).map .unconnectedOutput

/-- For every end of a net the opposite ends, in the order of the nets.  A net from a pin to itself
counts at both of its ends. -/
def links (n : Netlist) : NameMap (List String) :=
  n.nets.foldl (fun links net => join (join links net.source net.destination)
    net.destination net.source) .empty
where
  /-- Adds a pin to those that are linked with another one. -/
  join (links : NameMap (List String)) (pin other : String) : NameMap (List String) :=
    links.insert pin ((links.get? pin).getD [] ++ [other])

end Netlist

/-- The wiring report of a netlist. -/
structure Wiring where
  warnings : List WiringWarning
  links : NameMap (List String)

namespace Wiring

/-- The report of a netlist, for the types that a catalog knows. -/
def ofNetlist (c : Catalog) (n : Netlist) : Wiring :=
  ⟨n.warnings c, n.links⟩

/-- Whether there is nothing to warn of. -/
def isClean (w : Wiring) : Bool :=
  w.warnings.isEmpty

/-- The pins that share a net with a pin, if it is the end of any net. -/
def connectedPins? (w : Wiring) (pin : String) : Option (List String) :=
  w.links.get? pin

/-- Whether two pins are the ends of one net. -/
def areConnected (w : Wiring) (pin other : String) : Bool :=
  match w.links.get? pin with
  | some others => others.contains other
  | none => false

/-- The pins that share a net with a pin; none if the pin is the end of no net. -/
def linked (w : Wiring) (pin : String) : List String :=
  (w.links.get? pin).getD []

end Wiring

/-! ### Groups of pins -/

/-- A search along links: the pins that have been seen, those of them that this search has found, in
the order of finding, and the queue of those that wait to be looked at. -/
structure Search where
  seen : NameSet
  found : List String := []
  queue : List String

namespace Search

/-- Looks at the pin that has waited longest.  A pin that has not been seen is found, and the unseen
pins that it is linked with join the queue.  A pin may wait more than once. -/
def step (w : Wiring) (s : Search) : Option Search :=
  match s.queue with
  | [] => none
  | pin :: rest =>
    if s.seen.contains pin then some { s with queue := rest }
    else
      let seen := s.seen.add pin
      let next := (w.linked pin).filter fun other => !seen.contains other
      some ⟨seen, s.found ++ [pin], rest ++ next⟩

variable {w : Wiring} {s next : Search}

/-- **All that a step can do**: drop a pin that has been seen, or find a new one. -/
theorem step_cases (h : s.step w = some next) :
    ∃ pin rest, s.queue = pin :: rest ∧
      ((s.seen.contains pin ∧ next = { s with queue := rest }) ∨
        (¬s.seen.contains pin ∧ next = ⟨s.seen.add pin, s.found ++ [pin],
          rest ++ (w.linked pin).filter fun other => !(s.seen.add pin).contains other⟩)) := by
  obtain ⟨seen, found, queue⟩ := s
  cases queue with
  | nil => cases h
  | cons pin rest =>
      simp only [step] at h
      split at h
      · rename_i hpin
        exact ⟨pin, rest, rfl, .inl ⟨hpin, (Option.some.inj h).symm⟩⟩
      · rename_i hpin
        exact ⟨pin, rest, rfl, .inr ⟨hpin, (Option.some.inj h).symm⟩⟩

/-- A search is over when no pin waits. -/
theorem step_eq_none_iff : s.step w = none ↔ s.queue = [] := by
  obtain ⟨seen, found, queue⟩ := s
  cases queue with
  | nil => simp [step]
  | cons pin rest =>
      simp only [step]
      split <;> simp

/-- The number of pins with links that a search has not seen. -/
def unseen (w : Wiring) (s : Search) : Nat :=
  s.seen.absent w.links.keys

/-- **A step gets nearer to the end**: fewer pins with links are unseen, or no fewer are and the
queue is shorter. -/
theorem step_decreases (h : s.step w = some next) :
    Prod.Lex (· < ·) (· < ·) (next.unseen w, next.queue.length) (s.unseen w, s.queue.length) := by
  obtain ⟨pin, rest, hqueue, ⟨-, rfl⟩ | ⟨hpin, rfl⟩⟩ := step_cases h
  · rw [hqueue]
    exact .right _ (Nat.lt_succ_self _)
  · have hsub : ∀ name, s.seen.contains name → (s.seen.add pin).contains name :=
      fun name hname => (NameSet.contains_add s.seen pin name).2 (.inr hname)
    by_cases hlinks : w.links.contains pin
    · have hmem : pin ∈ w.links.keys := (NameMap.mem_keys_iff w.links pin).2 hlinks
      exact .left _ _ (NameSet.absent_lt hsub hmem hpin
        ((NameSet.contains_add s.seen pin pin).2 (.inl rfl)))
    · -- nothing joins the queue, as the pin has no links
      have hnone : w.linked pin = [] := by
        rw [NameMap.contains, Option.not_isSome_iff_eq_none] at hlinks
        rw [Wiring.linked, hlinks, Option.getD_none]
      rw [hnone, List.filter_nil, List.append_nil, hqueue, Prod.lex_def]
      exact (Nat.lt_or_eq_of_le (NameSet.absent_le hsub w.links.keys)).imp_right
        fun heq => ⟨heq, Nat.lt_succ_self _⟩

/-- Searches until no pin waits. -/
def run (w : Wiring) (s : Search) : Search :=
  match _h : s.step w with
  | none => s
  | some next => next.run w
termination_by (s.unseen w, s.queue.length)
decreasing_by exact step_decreases _h

end Search

namespace Wiring

/-- The groups of the given pins, leaving out the pins that have been seen and the groups of a
single pin. -/
def groupsFrom (w : Wiring) (seen : NameSet) : List String → List (List String)
  | [] => []
  | pin :: rest =>
    if seen.contains pin then w.groupsFrom seen rest
    else
      let search := Search.run w { seen, queue := [pin] }
      let others := w.groupsFrom search.seen rest
      if 1 < search.found.length then search.found.mergeSort :: others else others

/-- **The groups of pins that nets join**, each in the order of names, by their first pins. -/
def groups (w : Wiring) : List (List String) :=
  w.groupsFrom .empty w.links.keys

end Wiring

end LogicBlock
