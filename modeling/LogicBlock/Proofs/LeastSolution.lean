/-
**A new block settles to the least solution of its equations.**

With feedback the equations of the gates and the nets may have several solutions, or the only one
may leave pins undefined.  A block that starts out with all driven pins undefined does not have to
choose.  If no gate guesses, a pass keeps the information order, and the first pass cannot lose
anything; so from pass to pass pins become defined and then stay as they are.  A pass that changes
anything defines a pin more, so after as many passes as there are driven pins nothing changes any
more.  What has been reached solves the equations, and it lies below every other solution, since the
start does and passes keep it there.

It follows that it makes no difference in which order models and nets are listed: the equations are
the same, and so is the least solution.

Main definitions:

* `Valuation.Below` — the information order, pin by pin;
* `Design.definedPins` — the written pins that are defined;
* `Design.IsLeastSolution` — the least solution of the equations with given levels at the pins that
  no pass writes;
* `Design.Orderly` — blocks of gates that never guess, where no pin has two drivers.

Main results:

* `Design.pass_below` — **a pass keeps the information order**;
* `Design.repeat_pass_below` — from a start that a pass only adds to, the passes go up;
* `Design.repeat_pass_fixed_of_card_le` — as many passes as there are written pins are enough;
* `Design.IsLeastSolution.perm`, `Design.Orderly.settle_cold_perm` — **the order of elements and
  nets is immaterial** for the least solution, and for the table of a new block;
* `Block.cold_settlement_is_least` — **a new block settles to the least solution**.
-/

import LogicBlock.Proofs.Information
import LogicBlock.Proofs.Reached
import Mathlib.Data.Finset.Card
import Mathlib.Data.Finset.Dedup

set_option relaxedAutoImplicit false
set_option autoImplicit false

namespace LogicBlock

/-! ### The information order on valuations -/

/-- Every pin is undefined in the first valuation, or has the same level in both. -/
def Valuation.Below (v w : Valuation) : Prop :=
  ∀ p, (v p).Below (w p)

namespace Valuation

variable {u v w : Valuation}

theorem Below.refl (v : Valuation) : Below v v :=
  fun p => Voltage.Below.refl (v p)

theorem Below.trans (huv : Below u v) (hvw : Below v w) : Below u w :=
  fun p => (huv p).trans (hvw p)

theorem Below.antisymm (hvw : Below v w) (hwv : Below w v) : v = w :=
  funext fun p => (hvw p).antisymm (hwv p)

theorem Below.update (h : Below v w) {a b : Voltage} (hab : a.Below b) (p : String) :
    Below (Function.update v p a) (Function.update w p b) := by
  intro q
  rw [Function.update_apply, Function.update_apply]
  split
  · exact hab
  · exact h q

end Valuation

/-! ### Passes keep the order -/

theorem Gate.fire_below {gates : List Gate} (hcautious : ∀ g ∈ gates, g.Cautious) {v w : Valuation}
    (h : Valuation.Below v w) : Valuation.Below (fire gates v) (fire gates w) := by
  induction gates generalizing v w with
  | nil => exact h
  | cons g rest ih =>
      have hlevel : (g.level v).Below (g.level w) :=
        GateKind.apply_below (hcautious g List.mem_cons_self) (h _) (h _)
      exact ih (fun g' hg' => hcautious g' (List.mem_cons_of_mem _ hg')) (h.update hlevel _)

theorem Net.carry_below {nets : List Net} {v w : Valuation} (h : Valuation.Below v w) :
    Valuation.Below (carry nets v) (carry nets w) := by
  induction nets generalizing v w with
  | nil => exact h
  | cons net rest ih => exact ih (h.update (h net.source) net.destination)

namespace Design

variable {d : Design}

/-- **A pass keeps the information order**, if no gate guesses. -/
theorem pass_below (hcautious : d.Cautious) {v w : Valuation} (h : Valuation.Below v w) :
    Valuation.Below (d.pass v) (d.pass w) :=
  Net.carry_below (Gate.fire_below (fun g hg => hcautious g (mem_gates.1 hg)) h)

/-- A pass only adds to a valuation in which nothing that it writes is defined. -/
theorem below_pass (hgates : d.GatesOnly) {v : Valuation}
    (hcold : ∀ p ∈ d.writtenPins, v p = .undefined) : Valuation.Below v (d.pass v) := by
  intro p
  by_cases hp : p ∈ d.writtenPins
  · rw [hcold p hp]
    exact Voltage.undefined_below _
  · rw [pass_of_notMem hgates hp]
    exact Voltage.Below.refl _

section Ascent

variable {v : Valuation}

theorem repeat_pass_below_succ (hcautious : d.Cautious)
    (hv : Valuation.Below v (d.pass v)) (k : Nat) :
    Valuation.Below (Nat.repeat d.pass k v) (d.pass (Nat.repeat d.pass k v)) := by
  induction k with
  | zero => exact hv
  | succ k ih => exact pass_below hcautious ih

/-- **The passes go up** from a valuation that the first of them only adds to. -/
theorem repeat_pass_below (hcautious : d.Cautious)
    (hv : Valuation.Below v (d.pass v)) {k k' : Nat} (hk : k ≤ k') :
    Valuation.Below (Nat.repeat d.pass k v) (Nat.repeat d.pass k' v) := by
  induction hk with
  | refl => exact Valuation.Below.refl _
  | step _ ih => exact ih.trans (repeat_pass_below_succ hcautious hv _)

/-- The passes stay below every solution that lies above the start. -/
theorem repeat_pass_below_of_fixed (hcautious : d.Cautious) {w : Valuation}
    (hw : d.pass w = w) (hv : Valuation.Below v w) (k : Nat) :
    Valuation.Below (Nat.repeat d.pass k v) w := by
  induction k with
  | zero => exact hv
  | succ k ih =>
      have hnext := pass_below hcautious ih
      rwa [hw] at hnext

/-! ### Counting the defined pins -/

/-- The written pins that are defined. -/
def definedPins (d : Design) (v : Valuation) : Finset String :=
  d.writtenPins.toFinset.filter fun p => v p ≠ .undefined

/-- A pass that adds anything defines a pin more. -/
theorem card_definedPins_lt (hgates : d.GatesOnly) (hup : Valuation.Below v (d.pass v))
    (hne : d.pass v ≠ v) : (d.definedPins v).card < (d.definedPins (d.pass v)).card := by
  refine Finset.card_lt_card (Finset.ssubset_iff_subset_ne.2 ⟨fun p hp => ?_, fun heq => hne ?_⟩)
  · -- what is defined stays as it is
    obtain ⟨hmem, hdef⟩ := Finset.mem_filter.1 hp
    refine Finset.mem_filter.2 ⟨hmem, ?_⟩
    rcases hup p with hundef | hsame
    · exact absurd hundef hdef
    · rwa [← hsame]
  · -- if no written pin has become defined, none has changed at all
    funext p
    rcases hup p with hundef | hsame
    · by_cases hp : p ∈ d.writtenPins
      · by_contra hchange
        have hdef : p ∈ d.definedPins (d.pass v) :=
          Finset.mem_filter.2 ⟨List.mem_toFinset.2 hp, fun h => hchange (h.trans hundef.symm)⟩
        rw [← heq] at hdef
        exact (Finset.mem_filter.1 hdef).2 hundef
      · exact pass_of_notMem hgates hp v
    · exact hsame.symm

/-- After `k` passes nothing moves any more, or `k` pins are defined. -/
theorem repeat_pass_fixed_or_le_card (hgates : d.GatesOnly) (hcautious : d.Cautious)
    (hv : Valuation.Below v (d.pass v)) (k : Nat) :
    d.pass (Nat.repeat d.pass k v) = Nat.repeat d.pass k v ∨
      k ≤ (d.definedPins (Nat.repeat d.pass k v)).card := by
  induction k with
  | zero => exact .inr (Nat.zero_le _)
  | succ k ih =>
      by_cases hfixed : d.pass (Nat.repeat d.pass k v) = Nat.repeat d.pass k v
      · left
        change d.pass (d.pass _) = d.pass _
        rw [hfixed, hfixed]
      · right
        have hlt := card_definedPins_lt hgates (repeat_pass_below_succ hcautious hv k) hfixed
        have hle := ih.resolve_left hfixed
        change k + 1 ≤ (d.definedPins (d.pass (Nat.repeat d.pass k v))).card
        omega

/-- **As many passes as there are written pins are enough**: then nothing moves any more. -/
theorem repeat_pass_fixed_of_card_le (hgates : d.GatesOnly)
    (hcautious : d.Cautious) (hv : Valuation.Below v (d.pass v)) {k : Nat}
    (hk : d.writtenPins.toFinset.card ≤ k) :
    d.pass (Nat.repeat d.pass k v) = Nat.repeat d.pass k v := by
  by_contra hmoves
  have hle := (repeat_pass_fixed_or_le_card hgates hcautious hv k).resolve_left hmoves
  have hlt := card_definedPins_lt hgates (repeat_pass_below_succ hcautious hv k) hmoves
  have hall : (d.definedPins (d.pass (Nat.repeat d.pass k v))).card ≤ d.writtenPins.toFinset.card :=
    Finset.card_filter_le _ _
  omega

end Ascent

/-! ### The least solution -/

/-- The least solution of the equations among those that have given levels at the pins that no pass
writes. -/
structure IsLeastSolution (d : Design) (given v : Valuation) : Prop where
  solves : d.Solves v
  free : ∀ p, p ∉ d.writtenPins → v p = given p
  least : ∀ w, d.Solves w → (∀ p, p ∉ d.writtenPins → w p = given p) → Valuation.Below v w

theorem IsLeastSolution.unique {given v w : Valuation} (hv : d.IsLeastSolution given v)
    (hw : d.IsLeastSolution given w) : v = w :=
  (hv.least w hw.solves hw.free).antisymm (hw.least v hv.solves hv.free)

/-- A block of gates with distinct names, none of which guesses, where no pin has two drivers. -/
structure Orderly (d : Design) : Prop where
  gates : d.GatesOnly
  cautious : d.Cautious
  drivers : d.SingleDrivers
  names : (d.elements.map Element.name).Nodup

/-- **The passes reach the least solution** from a start in which no written pin is defined. -/
theorem Orderly.isLeastSolution_repeat_pass (h : d.Orderly) {v : Valuation}
    (hcold : ∀ p ∈ d.writtenPins, v p = .undefined) {k : Nat}
    (hk : d.writtenPins.toFinset.card ≤ k) : d.IsLeastSolution v (Nat.repeat d.pass k v) where
  solves := by
    rw [solves_iff_pass_eq h.gates h.drivers h.names]
    exact repeat_pass_fixed_of_card_le h.gates h.cautious (below_pass h.gates hcold) hk
  free p hp := repeat_pass_of_notMem h.gates hp k v
  least w hw hfree := by
    rw [solves_iff_pass_eq h.gates h.drivers h.names] at hw
    refine repeat_pass_below_of_fixed h.cautious hw (fun p => ?_) k
    by_cases hp : p ∈ d.writtenPins
    · rw [hcold p hp]
      exact Voltage.undefined_below _
    · rw [hfree p hp]
      exact Voltage.Below.refl _

/-! ### Designs that differ in the order of elements and nets -/

section Permuted

variable {d' : Design} (helements : d'.elements.Perm d.elements)
  (hnets : d'.netlist.nets.Perm d.netlist.nets)

include helements hnets

theorem writtenPins_perm : d'.writtenPins.Perm d.writtenPins :=
  (hnets.map _).append (helements.flatMap_right _)

theorem SingleDrivers.perm (h : d.SingleDrivers) : d'.SingleDrivers where
  nets := (hnets.map _).nodup_iff.2 h.nets
  elements net hnet := by
    rw [(helements.flatMap_right Element.outputPins).mem_iff]
    exact h.elements net (hnets.mem_iff.1 hnet)

theorem solves_perm {v : Valuation} : d'.Solves v ↔ d.Solves v := by
  constructor
  · intro h
    exact ⟨fun g hg => h.gate g (helements.mem_iff.2 hg),
      fun net hnet => h.net net (hnets.mem_iff.2 hnet)⟩
  · intro h
    exact ⟨fun g hg => h.gate g (helements.mem_iff.1 hg),
      fun net hnet => h.net net (hnets.mem_iff.1 hnet)⟩

/-- **The least solution does not depend on the order** of elements and nets. -/
theorem IsLeastSolution.perm {given v : Valuation} (h : d.IsLeastSolution given v) :
    d'.IsLeastSolution given v where
  solves := (solves_perm helements hnets).2 h.solves
  free p hp := h.free p (mt (writtenPins_perm helements hnets).mem_iff.2 hp)
  least w hw hfree := by
    refine h.least w ((solves_perm helements hnets).1 hw) fun p hp => hfree p ?_
    exact mt (writtenPins_perm helements hnets).mem_iff.1 hp

theorem Orderly.perm (h : d.Orderly) : d'.Orderly where
  gates e he := h.gates e (helements.mem_iff.1 he)
  cautious g hg := h.cautious g (helements.mem_iff.1 hg)
  drivers := h.drivers.perm helements hnets
  names := (helements.map _).nodup_iff.2 h.names

end Permuted

/-! ### Settling a new block -/

/-- A new block settles by passes over what it has been assigned. -/
theorem read_settle_cold (hgates : d.GatesOnly) (a : PinMap) :
    (d.settle a d.cold).pins.read = Nat.repeat d.pass d.limits a.read := by
  rw [read_settle hgates, d.cold_pins, Netlist.read_assign_coldPins]

section Cold

variable {a : PinMap}

theorem Orderly.isLeastSolution_settle_cold (h : d.Orderly)
    (hfree : ∀ pin ∈ d.writtenPins, ¬a.contains pin)
    (hlimits : d.writtenPins.toFinset.card ≤ d.limits) :
    d.IsLeastSolution a.read (d.settle a d.cold).pins.read := by
  rw [read_settle_cold h.gates]
  refine h.isLeastSolution_repeat_pass (fun pin hpin => ?_) hlimits
  exact PinMap.read_of_not_contains (hfree pin hpin)

/-- **New blocks that differ in order settle to one table**, given enough passes, and be it not the
same number for both. -/
theorem Orderly.settle_cold_perm (h : d.Orderly) (hfree : ∀ pin ∈ d.writtenPins, ¬a.contains pin)
    (hlimits : d.writtenPins.toFinset.card ≤ d.limits) {d' : Design}
    (helements : d'.elements.Perm d.elements) (hnets : d'.netlist.nets.Perm d.netlist.nets)
    (hlimits' : d.writtenPins.toFinset.card ≤ d'.limits) :
    (d'.settle a d'.cold).pins = (d.settle a d.cold).pins := by
  have hwritten := writtenPins_perm helements hnets
  have hcard : d'.writtenPins.toFinset.card ≤ d'.limits := by
    rwa [List.toFinset_eq_of_perm _ _ hwritten]
  have h' := h.perm helements hnets
  refine PinMap.ext_read (fun pin => ?_) fun pin => ?_
  · -- if anything is written, neither block has settled without a pass
    have hpos : ∀ k, d.writtenPins.toFinset.card ≤ k → pin ∈ d.writtenPins → k ≠ 0 := by
      rintro k hk hpin rfl
      exact Finset.card_ne_zero_of_mem (List.mem_toFinset.2 hpin) (Nat.le_zero.1 hk)
    rw [Bool.eq_iff_iff, contains_settle_iff d'.allReached_cold,
      contains_settle_iff d.allReached_cold, h'.gates.activePins_eq, h.gates.activePins_eq,
      hwritten.mem_iff, d'.cold_pins, d.cold_pins, Netlist.coldPins_perm hnets]
    exact or_congr_left (and_congr_left fun hpin =>
      iff_of_true (hpos _ hlimits' hpin) (hpos _ hlimits hpin))
  · -- both tables are the least solution of the same equations
    have hleast := (h.isLeastSolution_settle_cold hfree hlimits).perm helements hnets
    have hleast' := h'.isLeastSolution_settle_cold
      (fun pin hpin => hfree pin (hwritten.mem_iff.1 hpin)) hcard
    exact congrFun (hleast'.unique hleast) pin

end Cold

end Design

/-- A block has no gate that guesses if the policy is strict, or if no model is a nor gate. -/
theorem Netlist.cautious_design {c : Catalog} {n : Netlist}
    (h : c.policy = .strict ∨ ∀ m ∈ n.models, m.type ≠ GateKind.nor.name) (name : String)
    (limits : Nat) : (c.design name n limits).Cautious := by
  intro g hg hnor
  obtain ⟨m, hm, hcreate⟩ := List.mem_filterMap.1 (Catalog.mem_modelElements_of_mem_elementsOf hg)
  rcases h with hstrict | hfree
  · rw [Catalog.create?_eq_some_gate hcreate, hstrict]
  · have htype := (Catalog.name_type_of_create? hcreate).2
    refine absurd htype.symm ?_
    rw [Element.type, hnor]
    exact hfree m hm

/-- **A new block of gates settles to the least solution of its equations**, feedback or not, if no
gate guesses, no pin has two drivers, and the assignment names no pin that has one.  From pass to
pass a pin becomes defined at most, and keeps its level from then on.  With as many passes as there
are driven pins the table is the least solution with the other pins as assigned; further passes
leave it alone, and so does another order of models, if their names are distinct, and of nets. -/
theorem Block.cold_settlement_is_least (c : Catalog) (name : String) (n : Netlist) (limits : Nat)
    (assignment : PinMap) (hgates : n.GatesOnly c)
    (hnor : c.policy = .strict ∨ ∀ m ∈ n.models, m.type ≠ GateKind.nor.name)
    (hdrivers : (c.design name n limits).SingleDrivers)
    (hfree : ∀ pin ∈ (c.design name n limits).writtenPins, ¬assignment.contains pin) :
    let d := c.design name n limits
    let table := fun netlist passes =>
      ((ofDesign (c.design name netlist passes)).settle assignment).2.pins
    (∀ k k', k ≤ k' → ∀ pin, ((table n k).read pin).Below ((table n k').read pin)) ∧
      (d.writtenPins.toFinset.card ≤ limits →
        d.IsLeastSolution assignment.read (table n limits).read ∧
          (∀ k, limits ≤ k → table n k = table n limits) ∧
          ((n.models.map Model.name).Nodup → ∀ models nets, models.Perm n.models →
            nets.Perm n.nets →
            table { n with models := models, nets := nets } limits = table n limits)) := by
  intro d table
  have horderly : d.Orderly :=
    ⟨hgates.design name limits, n.cautious_design hnor name limits, hdrivers,
      c.nodup_names_elementsOf n.models⟩
  have hread : ∀ k, (table n k).read = Nat.repeat d.pass k assignment.read :=
    fun k => Design.read_settle_cold (hgates.design name k) assignment
  have hcold : ∀ pin ∈ d.writtenPins, assignment.read pin = .undefined :=
    fun pin hpin => PinMap.read_of_not_contains (hfree pin hpin)
  refine ⟨fun k k' hk => ?_, fun hlimits => ⟨?_, fun k hk => ?_, ?_⟩⟩
  · rw [hread, hread]
    exact Design.repeat_pass_below horderly.cautious (Design.below_pass horderly.gates hcold) hk
  · exact horderly.isLeastSolution_settle_cold hfree hlimits
  · exact horderly.settle_cold_perm hfree hlimits (.refl _) (.refl _) (hlimits.trans hk)
  · intro hnames models nets hmodels hnets
    have helements := c.elementsOf_perm hnames hmodels
    exact horderly.settle_cold_perm hfree hlimits helements hnets hlimits

namespace Undecided

/-- The latch as a block that is given as many passes as it has driven pins. -/
def latchDesign : Design :=
  (Catalog.ofPolicy .strict).design "latch" Bundled.latch 8

theorem singleDrivers_latchDesign : latchDesign.SingleDrivers :=
  ⟨by decide +kernel, by decide +kernel⟩

/-- One input of the latch is high, and nothing is known about the other one. -/
def assignment : PinMap :=
  .ofList [("WEST", .high), ("SOUTH", .undefined)]

end Undecided

/-- The latch settles to the least solution of its equations, in which one of the two gates has no
level. -/
theorem Block.latch_settles_to_least :
    Bundled.latch.GatesOnly (.ofPolicy .strict) ∧ Undecided.latchDesign.SingleDrivers ∧
      (∀ pin ∈ Undecided.latchDesign.writtenPins, ¬Undecided.assignment.contains pin) ∧
      Undecided.latchDesign.writtenPins.toFinset.card ≤ 8 ∧
      Undecided.latchDesign.IsLeastSolution Undecided.assignment.read
        ((ofDesign Undecided.latchDesign).settle Undecided.assignment).2.pins.read ∧
      ((ofDesign Undecided.latchDesign).settle Undecided.assignment).2.pins.read "NOR1.2" =
        .undefined :=
  have hgates : Bundled.latch.GatesOnly (.ofPolicy .strict) := by decide +kernel
  have hfree : ∀ pin ∈ Undecided.latchDesign.writtenPins, ¬Undecided.assignment.contains pin := by
    decide +kernel
  have hcard : Undecided.latchDesign.writtenPins.toFinset.card ≤ 8 := by decide +kernel
  have hleast := (cold_settlement_is_least (.ofPolicy .strict) "latch" Bundled.latch 8
    Undecided.assignment hgates (.inl rfl) Undecided.singleDrivers_latchDesign hfree).2 hcard
  ⟨hgates, Undecided.singleDrivers_latchDesign, hfree, hcard, hleast.1, by decide +kernel⟩

end LogicBlock
