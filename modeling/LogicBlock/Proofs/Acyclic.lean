/-
**Blocks of gates without feedback settle to the one solution of their equations.**

A rank counts the passes that a level needs to arrive at a pin.  Every pin that a pass writes has a
rank of at least one; the output of a gate ranks above its inputs, since a gate sees what its inputs
held before the pass; a net costs nothing, unless its source is the destination of a net that is not
listed earlier, which brings its level too late for the same pass.

After `k` passes the pins of rank at most `k` no longer depend on what the table held at the start,
apart from the pins that no pass writes.  So with as many passes as the largest rank everything
stale is flushed, forced pins included, and a further pass would change nothing: the table has
arrived at the solution, and there is no other one.

The argument is carried out for any relation between levels that the gates respect, and for two runs
side by side; equality of levels gives the convergence.

Main definitions:

* `Design.Ranked` — a rank of the pins, as described;
* `Design.Respects` — a relation between levels that gates hand on, on pins that matter.

Main results:

* `Design.Ranked.pass_related`, `Design.Ranked.repeat_related` — **one pass reaches one rank more**;
* `Design.Ranked.repeat_pass_fixed` — after as many passes as the largest rank nothing moves;
* `Block.settle_solves_uniquely` — **settling solves the equations**, from every state and under
  every assignment.
-/

import LogicBlock.Proofs.Readings

set_option relaxedAutoImplicit false
set_option autoImplicit false

namespace LogicBlock

/-! ### Ranks -/

/-- **A rank of the pins.**  A net leads strictly upwards when its source is the destination of a
net that is not listed earlier, be it the net itself (`self`) or a later one (`late`). -/
structure Design.Ranked (d : Design) (rank : String → Nat) : Prop where
  written : ∀ p ∈ d.writtenPins, 1 ≤ rank p
  element : ∀ e ∈ d.elements, ∀ i ∈ e.inputPins, ∀ o ∈ e.outputPins, rank i < rank o
  net : ∀ net ∈ d.netlist.nets, rank net.source ≤ rank net.destination
  self : ∀ net ∈ d.netlist.nets, net.destination = net.source →
    rank net.source < rank net.destination
  late : d.netlist.nets.Pairwise fun net later => later.destination = net.source →
    rank net.source < rank net.destination

/-- The gates of a block hand on the relation `R` between levels, and it is asked for on pins
where `good` holds, which are all that the gates and the nets read. -/
structure Design.Respects (d : Design) (R : Voltage → Voltage → Prop) (good : String → Prop) :
    Prop where
  sources : ∀ net ∈ d.netlist.nets, good net.source
  inputs : ∀ g ∈ d.gates, ∀ p ∈ g.inputPins, good p
  apply : ∀ g ∈ d.gates, ∀ a a' b b', R a a' → R b b' →
    R (g.kind.apply g.policy a b) (g.kind.apply g.policy a' b')

/-! ### One pass reaches one rank more -/

section Related

variable {R : Voltage → Voltage → Prop} {good : String → Prop} {rank : String → Nat}

/-- While the nets are being carried, the pins up to rank `k + 1` are related, except those of rank
`k + 1` that are still to be written. -/
theorem Net.carry_related {k : Nat} {nets : List Net} (hgood : ∀ net ∈ nets, good net.source)
    (hnet : ∀ net ∈ nets, rank net.source ≤ rank net.destination)
    (hself : ∀ net ∈ nets, net.destination = net.source → rank net.source < rank net.destination)
    (hlate : nets.Pairwise fun net later => later.destination = net.source →
      rank net.source < rank net.destination)
    {v w : Valuation}
    (h : ∀ p, good p → rank p ≤ k + 1 → (p ∈ nets.map destination → rank p ≤ k) → R (v p) (w p))
    {p : String} (hp : good p) (hrank : rank p ≤ k + 1) : R (carry nets v p) (carry nets w p) := by
  induction nets generalizing v w with
  | nil => exact h p hp hrank (fun hmem => absurd hmem List.not_mem_nil)
  | cons net rest ih =>
      have hlate := List.pairwise_cons.1 hlate
      have hsource : rank net.destination ≤ k + 1 → R (v net.source) (w net.source) := by
        intro hdest
        have hle := hnet net List.mem_cons_self
        refine h _ (hgood net List.mem_cons_self) (by omega) fun hmem => ?_
        -- the source is still to be written, so it ranks strictly below the destination
        have hlt : rank net.source < rank net.destination := by
          obtain ⟨later, hlater, heq⟩ := List.mem_map.1 hmem
          rcases List.mem_cons.1 hlater with rfl | hlater
          · exact hself later List.mem_cons_self heq
          · exact hlate.1 later hlater heq
        omega
      rw [carry_cons, carry_cons]
      refine ih (fun net' hnet' => hgood net' (List.mem_cons_of_mem _ hnet'))
        (fun net' hnet' => hnet net' (List.mem_cons_of_mem _ hnet'))
        (fun net' hnet' => hself net' (List.mem_cons_of_mem _ hnet')) hlate.2 ?_
      intro q hq hqrank hqdest
      by_cases heq : q = net.destination
      · subst heq
        rw [Function.update_self, Function.update_self]
        exact hsource hqrank
      · rw [Function.update_of_ne heq, Function.update_of_ne heq]
        refine h q hq hqrank fun hmem => hqdest ?_
        rw [List.map_cons, List.mem_cons] at hmem
        exact hmem.resolve_left heq

namespace Design.Ranked

variable {d : Design}

/-- **One pass reaches one rank more**: what is related up to rank `k`, and on all pins that are not
written, is related up to rank `k + 1` after a pass. -/
theorem pass_related (hrank : d.Ranked rank) (hgates : d.GatesOnly)
    (hnames : (d.elements.map Element.name).Nodup) (hR : d.Respects R good) {v w : Valuation}
    (hfree : ∀ p, good p → p ∉ d.writtenPins → R (v p) (w p)) {k : Nat}
    (hlow : ∀ p, good p → rank p ≤ k → R (v p) (w p)) :
    ∀ p, good p → rank p ≤ k + 1 → R (d.pass v p) (d.pass w p) := by
  have hgatenames := nodup_names_gates hgates hnames
  intro p hp hpk
  refine Net.carry_related hR.sources hrank.net hrank.self hrank.late ?_ hp hpk
  -- what the gates leave behind: the outputs see inputs of a lower rank
  intro q hq hqrank hqdest
  by_cases hout : q ∈ d.gates.map Gate.outputPin
  · obtain ⟨g, hg, rfl⟩ := List.mem_map.1 hout
    have hinput : ∀ i ∈ g.inputPins, R (v i) (w i) := by
      intro i hi
      have hlt : rank i < rank g.outputPin :=
        hrank.element _ (mem_gates.1 hg) i hi _ (List.mem_singleton_self _)
      exact hlow i (hR.inputs g hg i hi) (by omega)
    rw [Gate.fire_outputPin hgatenames hg, Gate.fire_outputPin hgatenames hg]
    exact hR.apply g hg _ _ _ _ (hinput _ (by simp [Gate.inputPins]))
      (hinput _ (by simp [Gate.inputPins]))
  · rw [Gate.fire_of_notMem hout, Gate.fire_of_notMem hout]
    by_cases hdest : q ∈ d.netlist.nets.map Net.destination
    · exact hlow q hq (hqdest hdest)
    · exact hfree q hq ((notMem_writtenPins hgates).2 ⟨hdest, hout⟩)

/-- **After `k` passes the pins up to rank `k` are related**, if the pins that no pass writes are
related at the start. -/
theorem repeat_related (hrank : d.Ranked rank) (hgates : d.GatesOnly)
    (hnames : (d.elements.map Element.name).Nodup) (hR : d.Respects R good) {v w : Valuation}
    (hfree : ∀ p, good p → p ∉ d.writtenPins → R (v p) (w p)) (k : Nat) :
    ∀ p, good p → rank p ≤ k → R (Nat.repeat d.pass k v p) (Nat.repeat d.pass k w p) := by
  induction k with
  | zero =>
      -- only pins that no pass writes have rank zero
      intro p hp hpk
      refine hfree p hp fun hmem => ?_
      have hpos := hrank.written p hmem
      omega
  | succ k ih =>
      refine pass_related hrank hgates hnames hR (fun p hp hfreep => ?_) ih
      rw [repeat_pass_of_notMem hgates hfreep, repeat_pass_of_notMem hgates hfreep]
      exact hfree p hp hfreep

end Design.Ranked

end Related

/-! ### Convergence -/

theorem repeat_apply_comm {α : Type} (f : α → α) (k : Nat) (a : α) :
    Nat.repeat f k (f a) = f (Nat.repeat f k a) := by
  induction k with
  | zero => rfl
  | succ k ih => exact congrArg f ih

namespace Design

variable {d : Design} {rank : String → Nat}

theorem respects_eq (d : Design) : d.Respects (· = ·) fun _ => True where
  sources _ _ := trivial
  inputs _ _ _ _ := trivial
  apply _ _ _ _ _ _ ha hb := by rw [ha, hb]

namespace Ranked

/-- **The start is forgotten** after as many passes as the largest rank, except for the pins that no
pass writes. -/
theorem repeat_pass_eq (hrank : d.Ranked rank) (hgates : d.GatesOnly)
    (hnames : (d.elements.map Element.name).Nodup) {k : Nat}
    (hk : ∀ p ∈ d.writtenPins, rank p ≤ k) {v w : Valuation}
    (hfree : ∀ p, p ∉ d.writtenPins → v p = w p) :
    Nat.repeat d.pass k v = Nat.repeat d.pass k w := by
  funext p
  by_cases hp : p ∈ d.writtenPins
  · exact repeat_related hrank hgates hnames d.respects_eq (fun p _ => hfree p) k p trivial
      (hk p hp)
  · rw [repeat_pass_of_notMem hgates hp, repeat_pass_of_notMem hgates hp, hfree p hp]

/-- After as many passes as the largest rank nothing moves any more. -/
theorem repeat_pass_fixed (hrank : d.Ranked rank) (hgates : d.GatesOnly)
    (hnames : (d.elements.map Element.name).Nodup) {k : Nat}
    (hk : ∀ p ∈ d.writtenPins, rank p ≤ k) (v : Valuation) :
    d.pass (Nat.repeat d.pass k v) = Nat.repeat d.pass k v := by
  rw [← repeat_apply_comm d.pass k v]
  exact repeat_pass_eq hrank hgates hnames hk fun p hp => pass_of_notMem hgates hp v

/-- **A valuation that a pass does not change is where the passes lead**, from every start that it
agrees with on the pins that no pass writes. -/
theorem eq_repeat_pass_of_fixed (hrank : d.Ranked rank) (hgates : d.GatesOnly)
    (hnames : (d.elements.map Element.name).Nodup) {k : Nat}
    (hk : ∀ p ∈ d.writtenPins, rank p ≤ k) {v w : Valuation} (hfixed : d.pass w = w)
    (hfree : ∀ p, p ∉ d.writtenPins → w p = v p) : w = Nat.repeat d.pass k v := by
  have hstill : Nat.repeat d.pass k w = w :=
    repeat_induction (P := fun w' => w' = w) (fun _ h => by rw [h, hfixed]) rfl k
  rw [← hstill]
  exact repeat_pass_eq hrank hgates hnames hk hfree

end Ranked

/-- **Settling solves the equations**, leaves the other pins as they were assigned, and leaves no
choice: the statement for a block in any state whatsoever. -/
theorem settle_solves (hrank : d.Ranked rank) (hgates : d.GatesOnly) (hdrivers : d.SingleDrivers)
    (hnames : (d.elements.map Element.name).Nodup)
    (hlimits : ∀ p ∈ d.writtenPins, rank p ≤ d.limits) (a : PinMap) (s : State) :
    d.Solves (d.settle a s).pins.read ∧
      (∀ p, p ∉ d.writtenPins → (d.settle a s).pins.read p = (s.pins.assign a).read p) ∧
      ∀ v, d.Solves v → (∀ p, p ∉ d.writtenPins → v p = (s.pins.assign a).read p) →
        v = (d.settle a s).pins.read := by
  rw [read_settle hgates]
  refine ⟨?_, fun p hp => repeat_pass_of_notMem hgates hp _ _, fun v hv hfree => ?_⟩
  · rw [solves_iff_pass_eq hgates hdrivers hnames]
    exact hrank.repeat_pass_fixed hgates hnames hlimits _
  · rw [solves_iff_pass_eq hgates hdrivers hnames] at hv
    exact hrank.eq_repeat_pass_of_fixed hgates hnames hlimits hv hfree

end Design

/-- **A block of gates without feedback settles to the unique solution of its equations.**  Whatever
calls have been made before, and whatever pins the assignment forces: with as many passes as the
largest rank of a written pin, the table solves the equations of gates and nets, the pins that no
pass writes are as assigned, and no other valuation does both. -/
theorem Block.settle_solves_uniquely (c : Catalog) (name : String) (n : Netlist) (limits : Nat)
    (rank : String → Nat) (hgates : n.GatesOnly c)
    (hdrivers : (c.design name n limits).SingleDrivers)
    (hrank : (c.design name n limits).Ranked rank)
    (hlimits : ∀ p ∈ (c.design name n limits).writtenPins, rank p ≤ limits)
    (history : List Call) (assignment : PinMap) :
    let d := c.design name n limits
    let b := (Block.ofDesign d).after history
    let assigned := (b.pins.assign assignment).read
    let settled := (b.settle assignment).2.pins.read
    d.Solves settled ∧ (∀ p, p ∉ d.writtenPins → settled p = assigned p) ∧
      ∀ v, d.Solves v → (∀ p, p ∉ d.writtenPins → v p = assigned p) → v = settled := by
  intro d b assigned settled
  have hdesign : b.design = d := after_design _ _
  have hsettled : settled = (d.settle assignment b.state).pins.read := by
    change (b.settle assignment).2.state.pins.read = _
    rw [settle_state, hdesign]
  rw [hsettled]
  exact Design.settle_solves hrank (hgates.design name limits) hdrivers
    (c.nodup_names_elementsOf n.models) hlimits assignment b.state

namespace FullAdder

/-- Two xor gates make the sum, two and gates and an or gate the carry. -/
def netlist : Netlist where
  inputs := [.north, .south, .west]
  outputs := [.east, .up]
  models := [⟨"XOR1", "XOR"⟩, ⟨"XOR2", "XOR"⟩, ⟨"AND1", "AND"⟩, ⟨"AND2", "AND"⟩, ⟨"OR1", "OR"⟩]
  nets := [⟨"NET1", "NORTH", "XOR1.0"⟩, ⟨"NET2", "SOUTH", "XOR1.1"⟩,
    ⟨"NET3", "XOR1.2", "XOR2.0"⟩, ⟨"NET4", "WEST", "XOR2.1"⟩, ⟨"NET5", "XOR2.2", "EAST"⟩,
    ⟨"NET6", "XOR1.2", "AND1.0"⟩, ⟨"NET7", "WEST", "AND1.1"⟩, ⟨"NET8", "NORTH", "AND2.0"⟩,
    ⟨"NET9", "SOUTH", "AND2.1"⟩, ⟨"NET10", "AND1.2", "OR1.0"⟩, ⟨"NET11", "AND2.2", "OR1.1"⟩,
    ⟨"NET12", "OR1.2", "UP"⟩]

/-- The number of passes after which a pin of the adder has its final level. -/
def rank (p : String) : Nat :=
  if p ∈ ["XOR1.0", "XOR1.1", "XOR2.1", "AND1.1", "AND2.0", "AND2.1"] then 1
  else if p ∈ ["XOR1.2", "XOR2.0", "AND1.0", "AND2.2", "OR1.1"] then 2
  else if p ∈ ["XOR2.2", "EAST", "AND1.2", "OR1.0"] then 3
  else if p ∈ ["OR1.2", "UP"] then 4
  else 0

/-- The adder as a block that takes four passes to settle. -/
def design : Design :=
  Catalog.basic.design "full_adder" netlist 4

theorem singleDrivers : design.SingleDrivers :=
  ⟨by decide +kernel, by decide +kernel⟩

theorem ranked : design.Ranked rank where
  written := by decide +kernel
  element := by decide +kernel
  net := by decide +kernel
  self := by decide +kernel
  late := by decide +kernel

end FullAdder

/-- Four passes are enough for the full adder, also after another addition and with inner pins
forced. -/
theorem Block.fullAdder_settle_solves :
    FullAdder.netlist.GatesOnly Catalog.basic ∧ FullAdder.design.SingleDrivers ∧
      FullAdder.design.Ranked FullAdder.rank ∧
      (∀ p ∈ FullAdder.design.writtenPins, FullAdder.rank p ≤ 4) ∧
      FullAdder.design.Solves
        (((Block.ofDesign FullAdder.design).after
          [.settle (.ofList [("NORTH", .high), ("SOUTH", .high)])]).settle (.ofList
            [("NORTH", .low), ("WEST", .high), ("XOR1.2", .low), ("UP", .low)])).2.pins.read :=
  have hgates : FullAdder.netlist.GatesOnly Catalog.basic := by decide +kernel
  have hlimits : ∀ p ∈ FullAdder.design.writtenPins, FullAdder.rank p ≤ 4 := by decide +kernel
  ⟨hgates, FullAdder.singleDrivers, FullAdder.ranked, hlimits,
    (settle_solves_uniquely Catalog.basic "full_adder" FullAdder.netlist 4 FullAdder.rank hgates
      FullAdder.singleDrivers FullAdder.ranked hlimits _ _).1⟩

end LogicBlock
