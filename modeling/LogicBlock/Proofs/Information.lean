/-
**Unknown inputs.**

The third level says that nothing is known.  A gate that never guesses puts out no more than its
inputs allow: if less is known about the inputs, less is known about the output, but what is known
stays true.  All gates are of this kind but a nor gate that follows the legacy policy, which takes
two unknown inputs for a low output.

Everything else in a block moves levels about without looking at them.  So two copies of a block
that are run side by side, one of them with some of the inputs unknown, never contradict each other:
at every level of nesting, and after any number of passes, settled or not, each pin of the one is
undefined or reads as in the other.

The relation between the two runs is stated for two elements or two blocks that need not be the
same, as long as their gates respect it.

Main definitions:

* `Gate.Cautious` — the gate never guesses;
* `PinMap.Below` — one table knows no more than another one, about the same pins;
* `Element.Approximates`, `Design.Approximates` — evaluating, or settling, keeps that relation.

Main results:

* `GateKind.apply_below` — **a gate that never guesses respects the information order**;
* `Element.evaluateAll_below`, `Design.approximates` — elements hand the relation on to a pass, and
  a pass to a run;
* `Design.Approximates.coupling` — the relation survives matching calls of every kind;
* `Block.unknown_inputs_are_sound` — **what is known with some inputs unknown is true** for all that
  these inputs may turn out to be.
-/

import LogicBlock.Bundled
import LogicBlock.Proofs.Nesting
import LogicBlock.Proofs.Runs

set_option relaxedAutoImplicit false
set_option autoImplicit false

namespace LogicBlock

/-! ### Gates -/

theorem GateKind.apply_undefined_left {policy : NorPolicy} {k : GateKind} (h : k ≠ .nor)
    (b : Voltage) : k.apply policy .undefined b = .undefined := by
  cases k with
  | and => rfl
  | or => rfl
  | xor => rfl
  | nor => exact absurd rfl h

theorem GateKind.apply_undefined_right {policy : NorPolicy} {k : GateKind} (h : k ≠ .nor)
    (a : Voltage) : k.apply policy a .undefined = .undefined := by
  cases k with
  | and => cases a <;> rfl
  | or => cases a <;> rfl
  | xor => cases a <;> rfl
  | nor => exact absurd rfl h

theorem GateKind.nor_strict_below {a a' b b' : Voltage} (ha : a.Below a') (hb : b.Below b') :
    (nor.apply .strict a b).Below (nor.apply .strict a' b') := by
  rcases ha with rfl | rfl
  · rcases hb with rfl | rfl
    · exact Voltage.undefined_below _
    · -- one high input is enough to know the output
      cases a' <;> cases b <;> decide
  · rcases hb with rfl | rfl
    · cases a <;> cases b' <;> decide
    · exact Voltage.Below.refl _

/-- **A gate that never guesses respects the information order**: less about the inputs gives less
about the output, and no contradiction. -/
theorem GateKind.apply_below {policy : NorPolicy} {k : GateKind} (h : k = .nor → policy = .strict)
    {a a' b b' : Voltage} (ha : a.Below a') (hb : b.Below b') :
    (k.apply policy a b).Below (k.apply policy a' b') := by
  by_cases hk : k = .nor
  · obtain rfl := h hk
    obtain rfl := hk
    exact nor_strict_below ha hb
  · rcases ha with rfl | rfl
    · rw [apply_undefined_left hk]
      exact Voltage.undefined_below _
    · rcases hb with rfl | rfl
      · rw [apply_undefined_right hk]
        exact Voltage.undefined_below _
      · exact Voltage.Below.refl _

/-- The gate never guesses: if it is a nor gate, it follows the strict policy. -/
def Gate.Cautious (g : Gate) : Prop :=
  g.kind = .nor → g.policy = .strict

instance (g : Gate) : Decidable g.Cautious :=
  inferInstanceAs (Decidable (g.kind = .nor → g.policy = .strict))

/-! ### Tables -/

/-- The first table has the same entries as the second one, each of them undefined or equal. -/
structure PinMap.Below (m m' : PinMap) : Prop where
  entries : ∀ pin, m.contains pin = m'.contains pin
  levels : ∀ pin, (m.read pin).Below (m'.read pin)

instance (m m' : PinMap) : Decidable (m.Below m') :=
  decidable_of_iff (m.keys = m'.keys ∧ ∀ pin ∈ m.keys, (m.read pin).Below (m'.read pin)) <| by
    constructor
    · rintro ⟨hkeys, hlevels⟩
      refine ⟨NameMap.keys_eq_iff.1 hkeys, fun pin => ?_⟩
      by_cases hpin : pin ∈ m.keys
      · exact hlevels pin hpin
      · rw [NameMap.mem_keys_iff] at hpin
        rw [PinMap.read_of_not_contains hpin]
        exact Voltage.undefined_below _
    · intro h
      exact ⟨NameMap.keys_eq_iff.2 h.entries, fun pin _ => h.levels pin⟩

namespace PinMap.Below

variable {m m' : PinMap}

theorem refl (m : PinMap) : m.Below m :=
  ⟨fun _ => rfl, fun pin => Voltage.Below.refl (m.read pin)⟩

/-- A defined entry of the first table is an entry of the second one. -/
theorem get?_eq (h : m.Below m') {pin : String} {v : Voltage} (hv : v ≠ .undefined)
    (hpin : m.get? pin = some v) : m'.get? pin = some v := by
  have hentry := h.entries pin
  have hlevel := h.levels pin
  rw [NameMap.contains, NameMap.contains, hpin] at hentry
  obtain ⟨w, hw⟩ := Option.isSome_iff_exists.1 hentry.symm
  rw [PinMap.read, PinMap.read, hpin, hw] at hlevel
  rcases hlevel with hundef | heq
  · exact absurd hundef hv
  · rw [hw]
    exact congrArg some heq.symm

theorem assign (h : m.Below m') {a a' : PinMap} (ha : a.Below a') :
    (m.assign a).Below (m'.assign a') where
  entries pin := by
    rw [Bool.eq_iff_iff, contains_assign_iff, contains_assign_iff, h.entries, ha.entries]
  levels pin := by
    by_cases hpin : a.contains pin
    · rw [read_assign_of_contains hpin, read_assign_of_contains (ha.entries pin ▸ hpin)]
      exact ha.levels pin
    · rw [read_assign_of_not_contains hpin, read_assign_of_not_contains (ha.entries pin ▸ hpin)]
      exact h.levels pin

theorem copy (h : m.Below m') (source destination : String) :
    (m.copy source destination).Below (m'.copy source destination) where
  entries pin := by
    rw [Bool.eq_iff_iff, contains_copy_iff, contains_copy_iff, h.entries]
  levels pin := by
    rw [read_copy, read_copy]
    split
    · exact h.levels source
    · exact h.levels pin

theorem clear (h : m.Below m') : m.clear.Below m'.clear where
  entries pin := by
    rw [Bool.eq_iff_iff, contains_clear_iff, contains_clear_iff, h.entries]
  levels pin := by
    rw [read_clear, read_clear]
    exact Voltage.Below.refl _

theorem restrictTo (h : m.Below m') (pins : List String) :
    (m.restrictTo pins).Below (m'.restrictTo pins) where
  entries pin := by
    rw [Bool.eq_iff_iff, contains_restrictTo_iff, contains_restrictTo_iff, h.entries]
  levels pin := by
    rw [read_restrictTo, read_restrictTo]
    split
    · exact h.levels pin
    · exact Voltage.undefined_below _

end PinMap.Below

namespace Netlist

theorem propagate_below (n : Netlist) {m m' : PinMap} (h : m.Below m') :
    (n.propagate m).Below (n.propagate m') := by
  unfold propagate
  induction n.nets generalizing m m' with
  | nil => exact h
  | cons net rest ih => exact ih (h.copy net.source net.destination)

theorem portAssignment_below (n : Netlist) (name : String) {m m' : PinMap} (h : m.Below m') :
    (n.portAssignment name m).Below (n.portAssignment name m') where
  entries key := by
    rw [Bool.eq_iff_iff, contains_portAssignment_iff, contains_portAssignment_iff]
  levels key := by
    by_cases hkey : key ∈ n.inputPins
    · obtain ⟨d, hd, rfl⟩ := List.mem_map.1 hkey
      rw [read_portAssignment hd, read_portAssignment hd]
      exact h.levels _
    · rw [PinMap.read_of_not_contains (mt contains_portAssignment_iff.1 hkey)]
      exact Voltage.undefined_below _

theorem portResults_below (n : Netlist) (name : String) {m m' : PinMap} (h : m.Below m') :
    (n.portResults name m).Below (n.portResults name m') := by
  -- what is put out is, port by port, what the inner tables show at the output ports
  have hports : ∀ pin, (∃ d, pin = Pin.port name d) ∨
      ∀ inner, (n.portResults name inner).get? pin = none := by
    intro pin
    by_cases hpin : ∃ d, pin = Pin.port name d
    · exact .inl hpin
    · refine .inr fun inner => Option.eq_none_iff_forall_ne_some.2 fun v hv => hpin ?_
      obtain ⟨d, -, hkey, -⟩ := (n.get?_portResults_eq_some_iff name inner pin v).1 hv
      exact ⟨d, hkey.symm⟩
  constructor
  · intro pin
    rcases hports pin with ⟨d, rfl⟩ | hnone
    · rw [NameMap.contains, NameMap.contains, get?_portResults_port, get?_portResults_port]
      split
      · exact h.entries d.name
      · rfl
    · rw [NameMap.contains, NameMap.contains, hnone, hnone]
  · intro pin
    rcases hports pin with ⟨d, rfl⟩ | hnone
    · rw [PinMap.read, PinMap.read, get?_portResults_port, get?_portResults_port]
      split
      · exact h.levels d.name
      · exact Voltage.Below.refl _
    · rw [PinMap.read, PinMap.read, hnone, hnone]
      exact Voltage.Below.refl _

end Netlist

/-! ### Elements and designs side by side -/

/-- Evaluated side by side, the first element knows no more than the second one, and goes on that
way. -/
def Element.Approximates (e e' : Element) : Prop :=
  ∀ m m' s s', PinMap.Below m m' → State.Related PinMap.Below s s' →
    (e.evaluate m s).1.Below (e'.evaluate m' s').1 ∧
      State.Related PinMap.Below (e.evaluate m s).2 (e'.evaluate m' s').2

/-- Settled side by side, the first block knows no more than the second one, at every level. -/
def Design.Approximates (d d' : Design) : Prop :=
  ∀ a a' s s', PinMap.Below a a' → State.Related PinMap.Below s s' →
    State.Related PinMap.Below (d.settle a s) (d'.settle a' s')

namespace Element

/-- Two gates of one name approximate each other as their functions do. -/
theorem approximates_gate {g g' : Gate} (hname : g.name = g'.name)
    (happly : ∀ {a a' b b' : Voltage}, a.Below a' → b.Below b' →
      (g.kind.apply g.policy a b).Below (g'.kind.apply g'.policy a' b')) :
    (gate g).Approximates (gate g') := by
  intro m m' s s' hm hs
  have hout : (g.outputValue m).Below (g'.outputValue m') := by
    rw [Gate.outputValue, Gate.outputValue, hname]
    exact happly (hm.levels _) (hm.levels _)
  refine ⟨⟨fun pin => ?_, fun pin => ?_⟩, hs⟩
  · simp only [evaluate_gate, Gate.evaluate, Gate.outputPin, hname, NameMap.contains,
      NameMap.get?_insert]
    split
    · rfl
    · rfl
  · simp only [evaluate_gate, Gate.evaluate, Gate.outputPin, hname, PinMap.read_insert]
    split
    · exact hout
    · exact Voltage.Below.refl _

/-- Nested blocks of one name and with one netlist approximate each other as their designs do. -/
theorem approximates_composite {name type type' : String} {block block' : Design}
    (hnetlist : block.netlist = block'.netlist) (hblock : block.Approximates block') :
    (composite name type block).Approximates (composite name type' block') := by
  intro m m' s s' hm hs
  have hnext := hblock _ _ s s' (block.netlist.portAssignment_below name hm) hs
  rw [evaluate, evaluate, ← hnetlist]
  exact ⟨block.netlist.portResults_below name hnext.pins, hnext⟩

/-- **Elements side by side**: every write keeps the relation, so all of them do. -/
theorem evaluateAll_below {l l' : List Element} (h : List.Forall₂ Approximates l l') {s s' : State}
    (hs : State.Related PinMap.Below s s') :
    State.Related PinMap.Below (evaluateAll l s) (evaluateAll l' s') := by
  induction h generalizing s s' with
  | nil => exact .intro hs.pins .nil
  | @cons e e' l l' he _ ih =>
      obtain ⟨hresults, hpart⟩ := he _ _ _ _ hs.pins (hs.headD_parts (PinMap.Below.refl _))
      have hrest := @ih ⟨_, s.parts.tail⟩ ⟨_, s'.parts.tail⟩
        (.intro (hs.pins.assign hresults) hs.tail_parts)
      rw [evaluateAll_cons, evaluateAll_cons]
      exact .intro hrest.pins (.cons hpart hrest.parts)

end Element

/-- **Blocks side by side**: if their elements approximate each other and their nets are the same, a
pass keeps the relation, and so does settling. -/
theorem Design.approximates {d d' : Design} (hnetlist : d.netlist = d'.netlist)
    (hlimits : d.limits = d'.limits)
    (helements : List.Forall₂ Element.Approximates d.elements d'.elements) :
    d.Approximates d' := by
  intro a a' s s' ha hs
  have hrelax : ∀ t t', State.Related PinMap.Below t t' →
      State.Related PinMap.Below (d.relax t) (d'.relax t') := by
    intro t t' ht
    have hnext := Element.evaluateAll_below helements ht
    rw [relax, relax, ← hnetlist]
    exact .intro (d.netlist.propagate_below hnext.pins) hnext.parts
  exact settle_related hlimits hrelax (.intro (hs.pins.assign ha) hs.parts)

/-! ### Blocks that never guess -/

/-- No element of the block is a nor gate. -/
def Design.NorFree (d : Design) : Prop :=
  ∀ g, .gate g ∈ d.elements → g.kind ≠ .nor

/-- The gates of the block never guess. -/
def Design.Cautious (d : Design) : Prop :=
  ∀ g, .gate g ∈ d.elements → g.Cautious

/-- **A block whose gates never guess, at any depth, approximates itself.** -/
theorem Design.Everywhere.approximates_self {d : Design} (h : d.Everywhere Design.Cautious) :
    d.Approximates d := by
  induction h with
  | @intro d hcautious _ ih =>
      refine Design.approximates rfl rfl (List.forall₂_same.2 fun e he => ?_)
      cases e with
      | gate g => exact Element.approximates_gate rfl (GateKind.apply_below (hcautious g he))
      | composite name type block =>
          exact Element.approximates_composite rfl (ih name type block he)

/-- With the strict policy no gate guesses, and without nor gates none does under either policy. -/
theorem Catalog.Grown.everywhere_cautious {policy : NorPolicy} {c : Catalog} (hc : c.Grown policy)
    {name : String} {n : Netlist} {limits : Nat}
    (h : policy = .strict ∨ (c.design name n limits).Everywhere Design.NorFree) :
    (c.design name n limits).Everywhere Design.Cautious := by
  rcases h with rfl | hfree
  · exact (hc.everywhere_policy name n limits).mono fun d hd g hg _ => hd g hg
  · exact hfree.mono fun d hd g hg hnor => absurd hnor (hd g hg)

/-! ### Runs side by side -/

/-- Blocks that approximate each other go on doing so through matching calls, and so do their
answers. -/
theorem Design.Approximates.coupling {d d' : Design} (h : d.Approximates d')
    (hnetlist : d.netlist = d'.netlist) :
    d.Coupling d' PinMap.Below (State.Related PinMap.Below) PinMap.Below where
  settle := h
  reset := State.Related.reset fun _ _ hm => hm.clear
  outputs s s' hs := by
    rw [outputs, outputs, ← hnetlist]
    exact hs.pins.restrictTo d.netlist.outputPins

namespace Block

/-- **Two runs side by side** stay related if the block approximates itself and the assignments are
related one by one, and so do their answers. -/
theorem after_below {d : Design} (hd : d.Approximates d) {run : List (PinMap × PinMap)}
    (hrun : ∀ p ∈ run, p.1.Below p.2) {s s' : State} (hs : State.Related PinMap.Below s s') :
    State.Related PinMap.Below ((mk d s).after (run.map fun p => .settle p.1)).state
        ((mk d s').after (run.map fun p => .settle p.2)).state ∧
      List.Forall₂ (Option.Rel PinMap.Below) ((mk d s).answers (run.map fun p => .settle p.1))
        ((mk d s').answers (run.map fun p => .settle p.2)) := by
  have hcalls : List.Forall₂ (Call.Matches PinMap.Below d.netlist d.netlist)
      (run.map fun p => .settle p.1) (run.map fun p => .settle p.2) := by
    rw [List.forall₂_map_left_iff, List.forall₂_map_right_iff]
    exact List.forall₂_same.2 fun p hp => .some (hrun p hp)
  exact ((hd.coupling rfl).answers_and_after hcalls hs).symm

/-- **What is known with some inputs unknown is true.**  Two new copies of a block are settled side
by side, under assignments to the same pins, where those to the first copy are undefined or the
same.  If no gate guesses, then after every call and at every level each pin of the first copy is
undefined or reads as in the second copy, and the two copies return the same entries; so a level
that the first copy returns is the level that the second one returns. -/
theorem unknown_inputs_are_sound {policy : NorPolicy} (c : Catalog) (hc : c.Grown policy)
    (name : String) (n : Netlist) (limits : Nat)
    (hnor : policy = .strict ∨ (c.design name n limits).Everywhere Design.NorFree)
    (run : List (PinMap × PinMap)) (hrun : ∀ p ∈ run, p.1.Below p.2) :
    let b := ofDesign (c.design name n limits)
    let vague := run.map fun p => Call.settle p.1
    let sharp := run.map fun p => Call.settle p.2
    State.Related PinMap.Below (b.after vague).state (b.after sharp).state ∧
      List.Forall₂ (Option.Rel PinMap.Below) (b.answers vague) (b.answers sharp) ∧
      ∀ (i : Nat) (out out' : PinMap), (b.answers vague)[i]? = some (some out) →
        (b.answers sharp)[i]? = some (some out') →
        ∀ pin v, v ≠ .undefined → out.get? pin = some v → out'.get? pin = some v := by
  intro b vague sharp
  have hself := (hc.everywhere_cautious hnor).approximates_self
  obtain ⟨hstate, hanswers⟩ := after_below hself hrun
    (State.related_refl PinMap.Below.refl (c.design name n limits).cold)
  refine ⟨hstate, hanswers, fun i out out' hout hout' pin v hv hpin => ?_⟩
  obtain ⟨hi, hget⟩ := List.getElem?_eq_some_iff.1 hout
  obtain ⟨hi', hget'⟩ := List.getElem?_eq_some_iff.1 hout'
  have hrel : Option.Rel PinMap.Below (some out) (some out') := by
    rw [← hget, ← hget']
    exact hanswers.get hi hi'
  cases hrel with
  | some hbelow => exact hbelow.get?_eq hv hpin

end Block

namespace Undecided

/-- The gates under the strict policy, and the latch as a type of its own. -/
def catalog : Catalog :=
  { Catalog.ofPolicy .strict with
    blocks := NameMap.empty.insert "LATCH"
      ((Catalog.ofPolicy .strict).design "LATCH" Bundled.latch 3) }

/-- A latch and a loop through a gate, both of which drive the output. -/
def netlist : Netlist where
  inputs := [.north, .west]
  outputs := [.up]
  models := [⟨"L", "LATCH"⟩, ⟨"X", "OR"⟩]
  nets := [⟨"1", "NORTH", "L.SOUTH"⟩, ⟨"2", "WEST", "L.WEST"⟩, ⟨"3", "L.EAST", "X.0"⟩,
    ⟨"4", "X.2", "X.1"⟩, ⟨"5", "X.2", "UP"⟩, ⟨"6", "L.EAST", "UP"⟩]

/-- Two runs: what the first one leaves unknown, the second one gives a level. -/
def run : List (PinMap × PinMap) :=
  [(.ofList [("NORTH", .undefined), ("WEST", .high)], .ofList [("NORTH", .high), ("WEST", .high)]),
    (.ofList [("NORTH", .low), ("X.1", .undefined)], .ofList [("NORTH", .low), ("X.1", .low)])]

theorem grown : catalog.Grown .strict :=
  .register "LATCH" Bundled.latch 3 .ofPolicy rfl

end Undecided

/-- The latch is reset although it is not known whether it is also set. -/
theorem Block.undecided_latch_is_reset :
    Undecided.catalog.Grown .strict ∧ (∀ p ∈ Undecided.run, p.1.Below p.2) ∧
      State.Related PinMap.Below
        ((ofDesign (Undecided.catalog.design "undecided" Undecided.netlist 3)).after
          (Undecided.run.map fun p => .settle p.1)).state
        ((ofDesign (Undecided.catalog.design "undecided" Undecided.netlist 3)).after
          (Undecided.run.map fun p => .settle p.2)).state :=
  have hrun : ∀ p ∈ Undecided.run, p.1.Below p.2 := by decide +kernel
  ⟨Undecided.grown, hrun,
    (unknown_inputs_are_sound Undecided.catalog Undecided.grown "undecided" Undecided.netlist 3
      (.inl rfl) Undecided.run hrun).1⟩

end LogicBlock
