/-
**Runs of a block.**

A call either settles the block under some assignment or resets it: to evaluate a block is to settle
it under the part of the table that lies on its input ports.  So a property of states holds after
every run as soon as it holds at the start and survives an assignment, a pass, and a reset.

Two runs are made side by side by making matching calls on two blocks.  A relation between the
states holds after every such call as soon as it holds at the start and survives one call on each
side; what the calls return is then related as well, be it equal or less than that.

Main definitions:

* `Call.assignment?` — the assignment that a call applies, if any;
* `Design.Invariant` — what an invariant has to satisfy;
* `Call.Matches` — calls on two blocks whose assignments are related;
* `Design.Coupling`, `Design.Simulation` — what a relation between two blocks has to satisfy, for
  such calls and for the same calls.

Main results:

* `Design.Invariant.settle`, `Design.Invariant.after` — **an invariant holds after every run**;
* `Design.Coupling.after_take`, `Design.Coupling.answers_and_after` — **coupled blocks stay
  related** after every call, and so do their answers;
* `Design.Simulation.answers_eq_and_after` — **blocks that simulate each other give the same answers
  and stay related**;
* `Block.exists_prefix_of_mem_answers`, `Block.getElem?_answers_of_settle` — an answer shows the
  output ports after a part of the run, or after its own call;
* `Block.contains_after` — no run takes an entry out of the table;
* `Netlist.read_assign_coldPins` — a new block shows what it has been assigned.
-/

import LogicBlock.Block.History
import LogicBlock.Proofs.Elements
import Mathlib.Data.List.Forall2

set_option relaxedAutoImplicit false
set_option autoImplicit false

namespace LogicBlock

/-! ### What a call does -/

/-- The assignment that a call applies to a block with the ports of `n`; a reset applies none. -/
def Call.assignment? (n : Netlist) : Call → Option PinMap
  | .settle assignment => some assignment
  | .evaluate pins => some (pins.restrictTo n.inputPins)
  | .reset => none

namespace Block

theorem call_of_assignment {b : Block} {c : Call} {a : PinMap}
    (h : c.assignment? b.design.netlist = some a) :
    b.call c = (some (b.design.outputs (b.design.settle a b.state)),
      ⟨b.design, b.design.settle a b.state⟩) := by
  cases c with
  | settle assignment => cases h; rfl
  | evaluate pins => cases h; rfl
  | reset => cases h

theorem call_of_assignment_none {b : Block} {c : Call}
    (h : c.assignment? b.design.netlist = none) : b.call c = (none, b.reset) := by
  cases c with
  | settle assignment => cases h
  | evaluate pins => cases h
  | reset => rfl

/-- **An answer shows the output ports after a part of the run.** -/
theorem exists_prefix_of_mem_answers {b : Block} {history : List Call} {out : PinMap}
    (h : some out ∈ b.answers history) :
    ∃ done, done <+: history ∧ out = b.design.outputs (b.after done).state := by
  induction history generalizing b with
  | nil => cases h
  | cons c rest ih =>
      rw [answers] at h
      rcases List.mem_cons.1 h with h | h
      -- the first answer shows the ports after the first call, the others those after later ones
      · refine ⟨[c], List.prefix_append [c] rest, ?_⟩
        cases ha : c.assignment? b.design.netlist with
        | none => rw [call_of_assignment_none ha] at h; cases h
        | some a =>
            rw [after_cons, after_nil, call_of_assignment ha]
            rw [call_of_assignment ha] at h
            exact Option.some.inj h
      · obtain ⟨done, hdone, rfl⟩ := ih h
        refine ⟨c :: done, List.cons_prefix_cons.2 ⟨rfl, hdone⟩, ?_⟩
        rw [call_design, after_cons]

/-- The state of a block that is settled after a history. -/
theorem state_after_settle (b : Block) (history : List Call) (a : PinMap) :
    (b.after (history ++ [.settle a])).state = b.design.settle a (b.after history).state := by
  rw [after_append, after_cons, after_nil, ← b.after_design history]
  rfl

/-- **A call that settles is answered** by the output ports after it. -/
theorem getElem?_answers_of_settle (b : Block) {history : List Call} {k : Nat} {a : PinMap}
    (hk : history[k]? = some (.settle a)) :
    (b.answers history)[k]? = some (some (b.design.outputs
      (b.design.settle a (b.after (history.take k)).state))) := by
  induction history generalizing b k with
  | nil => cases hk
  | cons c rest ih =>
      cases k with
      | zero =>
          cases hk
          rfl
      | succ k =>
          have hrest := ih (b.call c).2 hk
          rw [call_design] at hrest
          exact hrest

end Block

/-! ### Invariants -/

theorem repeat_induction {α : Type} {P : α → Prop} {f : α → α} (hf : ∀ a, P a → P (f a)) {a : α}
    (ha : P a) (k : Nat) : P (Nat.repeat f k a) := by
  induction k with
  | zero => exact ha
  | succ k ih => exact hf _ ih

theorem repeat_induction₂ {α β : Type} {R : α → β → Prop} {f : α → α} {g : β → β}
    (hfg : ∀ a b, R a b → R (f a) (g b)) {a : α} {b : β} (h : R a b) (k : Nat) :
    R (Nat.repeat f k a) (Nat.repeat g k b) := by
  induction k with
  | zero => exact h
  | succ k ih => exact hfg _ _ ih

theorem Netlist.propagate_induction {n : Netlist} {P : PinMap → Prop}
    (h : ∀ net ∈ n.nets, ∀ m, P m → P (m.copy net.source net.destination)) {pins : PinMap}
    (hpins : P pins) : P (n.propagate pins) :=
  List.foldlRecOn n.nets _ hpins fun m hm net hnet => h net hnet m hm

/-- A property of states that survives every assignment of a certain kind, every pass and every
reset. -/
structure Design.Invariant (d : Design) (ok : PinMap → Prop) (P : State → Prop) : Prop where
  assign : ∀ a s, ok a → P s → P { s with pins := s.pins.assign a }
  relax : ∀ s, P s → P (d.relax s)
  reset : ∀ s, P s → P s.reset

namespace Design.Invariant

variable {d : Design} {ok : PinMap → Prop} {P : State → Prop}

theorem settle (h : d.Invariant ok P) {a : PinMap} (ha : ok a) {s : State} (hs : P s) :
    P (d.settle a s) := by
  rw [settle_eq]
  exact repeat_induction h.relax (h.assign a s ha hs) d.limits

/-- **An invariant holds after every run.** -/
theorem after (h : d.Invariant ok P) {history : List Call}
    (hc : ∀ c ∈ history, ∀ a, c.assignment? d.netlist = some a → ok a) {s : State} (hs : P s) :
    P ((Block.mk d s).after history).state := by
  induction history generalizing s with
  | nil => exact hs
  | cons c rest ih =>
      have hrest := fun c' hc' => hc c' (List.mem_cons_of_mem c hc')
      rw [Block.after_cons]
      cases ha : c.assignment? d.netlist with
      | none =>
          rw [Block.call_of_assignment_none ha]
          exact ih hrest (h.reset s hs)
      | some a =>
          rw [Block.call_of_assignment ha]
          exact ih hrest (h.settle (hc c List.mem_cons_self a ha) hs)

end Design.Invariant

/-! ### Two runs side by side -/

/-- Two blocks that make the same number of passes stay related when they settle, if the relation
survives a pass. -/
theorem Design.settle_related {d d' : Design} {R : State → State → Prop}
    (hlimits : d.limits = d'.limits) (hrelax : ∀ s s', R s s' → R (d.relax s) (d'.relax s'))
    {a a' : PinMap} {s s' : State}
    (h : R { s with pins := s.pins.assign a } { s' with pins := s'.pins.assign a' }) :
    R (d.settle a s) (d'.settle a' s') := by
  rw [settle_eq, settle_eq, hlimits]
  exact repeat_induction₂ hrelax h d'.limits

/-- Two calls, one of a block with the ports of `n` and one of a block with the ports of `n'`: what
they assign is related, or neither of them assigns anything. -/
def Call.Matches (ok : PinMap → PinMap → Prop) (n n' : Netlist) (c c' : Call) : Prop :=
  Option.Rel ok (c.assignment? n) (c'.assignment? n')

theorem Call.matches_refl {ok : PinMap → PinMap → Prop} (hok : ∀ a, ok a a) (n : Netlist)
    (c : Call) : Matches ok n n c c := by
  rw [Matches]
  cases c.assignment? n with
  | none => exact .none
  | some a => exact .some (hok a)

/-- A relation between the states of two blocks that survives what matching calls do to them, and
that relates what they return. -/
structure Design.Coupling (d d' : Design) (ok : PinMap → PinMap → Prop) (R : State → State → Prop)
    (Q : PinMap → PinMap → Prop) : Prop where
  settle : ∀ a a' s s', ok a a' → R s s' → R (d.settle a s) (d'.settle a' s')
  reset : ∀ s s', R s s' → R s.reset s'.reset
  outputs : ∀ s s', R s s' → Q (d.outputs s) (d'.outputs s')

namespace Design.Coupling

variable {d d' : Design} {ok : PinMap → PinMap → Prop} {R : State → State → Prop}
  {Q : PinMap → PinMap → Prop} {s s' : State}

/-- **One call on each side** keeps the relation. -/
theorem call (h : d.Coupling d' ok R Q) {c c' : Call}
    (hc : Call.Matches ok d.netlist d'.netlist c c') (hs : R s s') :
    Option.Rel Q ((Block.mk d s).call c).1 ((Block.mk d' s').call c').1 ∧
      R ((Block.mk d s).call c).2.state ((Block.mk d' s').call c').2.state := by
  rw [Call.Matches] at hc
  generalize hx : c.assignment? d.netlist = x at hc
  generalize hy : c'.assignment? d'.netlist = y at hc
  cases hc with
  | none =>
      rw [Block.call_of_assignment_none hx, Block.call_of_assignment_none hy]
      exact ⟨.none, h.reset s s' hs⟩
  | some hok =>
      rw [Block.call_of_assignment hx, Block.call_of_assignment hy]
      have hnext := h.settle _ _ s s' hok hs
      exact ⟨.some (h.outputs _ _ hnext), hnext⟩

/-- **Two runs of matching calls** keep the relation, and return related maps. -/
theorem answers_and_after (h : d.Coupling d' ok R Q) {history history' : List Call}
    (hcalls : List.Forall₂ (Call.Matches ok d.netlist d'.netlist) history history')
    (hs : R s s') :
    List.Forall₂ (Option.Rel Q) ((Block.mk d s).answers history)
        ((Block.mk d' s').answers history') ∧
      R ((Block.mk d s).after history).state ((Block.mk d' s').after history').state := by
  induction hcalls generalizing s s' with
  | nil => exact ⟨.nil, hs⟩
  | @cons c c' rest rest' hc _ ih =>
      obtain ⟨hanswer, hnext⟩ := h.call hc hs
      obtain ⟨hanswers, hlast⟩ := ih hnext
      have hblock : ((Block.mk d s).call c).2 = ⟨d, ((Block.mk d s).call c).2.state⟩ := by
        cases c <;> rfl
      have hblock' : ((Block.mk d' s').call c').2 = ⟨d', ((Block.mk d' s').call c').2.state⟩ := by
        cases c' <;> rfl
      rw [Block.answers, Block.answers, Block.after_cons, Block.after_cons, hblock, hblock']
      exact ⟨.cons hanswer hanswers, hlast⟩

/-- **After every call** of two such runs the blocks are related. -/
theorem after_take (h : d.Coupling d' ok R Q) {history history' : List Call}
    (hcalls : List.Forall₂ (Call.Matches ok d.netlist d'.netlist) history history')
    (hs : R s s') (k : Nat) :
    R ((Block.mk d s).after (history.take k)).state
      ((Block.mk d' s').after (history'.take k)).state :=
  (h.answers_and_after (List.forall₂_take k hcalls) hs).2

/-- Blocks that return equal maps call by call give the same answers. -/
theorem answers_eq (h : d.Coupling d' ok R Eq) {history history' : List Call}
    (hcalls : List.Forall₂ (Call.Matches ok d.netlist d'.netlist) history history')
    (hs : R s s') : (Block.mk d s).answers history = (Block.mk d' s').answers history' := by
  rw [← List.forall₂_eq_eq_eq]
  refine (h.answers_and_after hcalls hs).1.imp fun answer answer' hanswer => ?_
  cases hanswer with
  | none => rfl
  | some heq => rw [heq]

end Design.Coupling

/-! ### Simulations -/

/-- A relation between the states of two blocks that survives what happens to both of them, and that
the output ports do not tell apart. -/
structure Design.Simulation (d d' : Design) (R : State → State → Prop) : Prop where
  limits : d.limits = d'.limits
  inputs : d.netlist.inputPins = d'.netlist.inputPins
  assign : ∀ a s s', R s s' →
    R { s with pins := s.pins.assign a } { s' with pins := s'.pins.assign a }
  relax : ∀ s s', R s s' → R (d.relax s) (d'.relax s')
  reset : ∀ s s', R s s' → R s.reset s'.reset
  outputs : ∀ s s', R s s' → d.outputs s = d'.outputs s'

namespace Design.Simulation

variable {d d' : Design} {R : State → State → Prop}

theorem coupling (h : d.Simulation d' R) : d.Coupling d' Eq R Eq where
  settle a _ s s' ha hs := ha ▸ settle_related h.limits h.relax (h.assign a s s' hs)
  reset := h.reset
  outputs := h.outputs

theorem assignment?_eq (h : d.Simulation d' R) (c : Call) :
    c.assignment? d.netlist = c.assignment? d'.netlist := by
  cases c <;> simp [Call.assignment?, h.inputs]

/-- **Blocks that simulate each other answer alike**, and stay related. -/
theorem answers_eq_and_after (h : d.Simulation d' R) (history : List Call) {s s' : State}
    (hs : R s s') :
    (Block.mk d s).answers history = (Block.mk d' s').answers history ∧
      R ((Block.mk d s).after history).state ((Block.mk d' s').after history).state := by
  have hcalls : List.Forall₂ (Call.Matches Eq d.netlist d'.netlist) history history := by
    refine List.forall₂_same.2 fun c _ => ?_
    rw [Call.Matches, ← h.assignment?_eq c]
    exact Call.matches_refl (fun _ => rfl) d.netlist c
  exact ⟨h.coupling.answers_eq hcalls hs, (h.coupling.answers_and_after hcalls hs).2⟩

end Design.Simulation

/-! ### Entries of the table -/

/-- The nets make entries for their destinations and for nothing else. -/
theorem Netlist.contains_propagate_iff {n : Netlist} {pins : PinMap} {pin : String} :
    (n.propagate pins).contains pin ↔ pin ∈ n.nets.map Net.destination ∨ pins.contains pin := by
  unfold propagate
  induction n.nets generalizing pins with
  | nil => simp
  | cons net rest ih =>
      rw [List.foldl_cons, ih, PinMap.contains_copy_iff, List.map_cons, List.mem_cons, or_assoc]
      exact or_left_comm

/-- A reset takes no entry out of the table and adds none. -/
theorem State.contains_reset_iff {s : State} {pin : String} :
    s.reset.pins.contains pin ↔ s.pins.contains pin := by
  cases s
  exact PinMap.contains_clear_iff

theorem Design.invariant_contains (d : Design) (pin : String) :
    d.Invariant (fun _ => True) fun s => s.pins.contains pin where
  assign _ _ _ hs := PinMap.contains_assign_iff.2 (.inr hs)
  relax _ hs := Netlist.contains_propagate_iff.2 (.inr (Element.contains_evaluateAll hs))
  reset _ hs := State.contains_reset_iff.2 hs

theorem Design.contains_settle_of_contains_assign {d : Design} {a : PinMap} {s : State}
    {pin : String} (h : (s.pins.assign a).contains pin) : (d.settle a s).pins.contains pin := by
  rw [settle_eq]
  exact repeat_induction (P := fun s : State => s.pins.contains pin)
    (d.invariant_contains pin).relax h d.limits

/-- A block that makes a pass has entries for the ends of its nets that are destinations. -/
theorem Design.contains_settle_of_mem_destinations {d : Design} (hlimits : 0 < d.limits)
    {pin : String} (h : pin ∈ d.netlist.nets.map Net.destination) (a : PinMap) (s : State) :
    (d.settle a s).pins.contains pin := by
  obtain ⟨k, hk⟩ := Nat.exists_eq_add_of_lt hlimits
  rw [settle_eq, hk, Nat.zero_add]
  exact Netlist.contains_propagate_iff.2 (.inl h)

/-- **No run takes an entry out of the table.** -/
theorem Block.contains_after {b : Block} {pin : String} (h : b.pins.contains pin)
    (history : List Call) : (b.after history).pins.contains pin :=
  (b.design.invariant_contains pin).after (s := b.state) (fun _ _ _ _ => trivial) h

/-! ### The table of a new block -/

theorem Design.cold_pins (d : Design) : d.cold.pins = d.netlist.coldPins := by
  cases d
  rfl

theorem Netlist.contains_coldPins_iff {n : Netlist} {pin : String} :
    n.coldPins.contains pin ↔ pin ∈ n.endpoints := by
  rw [NameMap.contains, get?_coldPins]
  split <;> simp_all

theorem Netlist.read_coldPins (n : Netlist) (pin : String) : n.coldPins.read pin = .undefined := by
  rw [PinMap.read, get?_coldPins]
  split <;> rfl

/-- A new block shows an assignment and nothing else. -/
theorem Netlist.read_assign_coldPins (n : Netlist) (a : PinMap) :
    (n.coldPins.assign a).read = a.read := by
  funext pin
  by_cases hpin : a.contains pin
  · exact PinMap.read_assign_of_contains hpin
  · rw [PinMap.read_assign_of_not_contains hpin, PinMap.read_of_not_contains hpin, read_coldPins]

/-- The ends of the nets have entries from the start. -/
theorem Block.contains_after_of_mem_endpoints {d : Design} {pin : String}
    (h : pin ∈ d.netlist.endpoints) (history : List Call) :
    ((ofDesign d).after history).pins.contains pin := by
  refine contains_after (b := ofDesign d) ?_ history
  change d.cold.pins.contains pin
  rw [d.cold_pins, Netlist.contains_coldPins_iff]
  exact h

end LogicBlock
