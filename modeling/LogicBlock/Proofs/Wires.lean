/-
**Wires after a settlement.**

The nets of a block are copied one after the other, so a net may be undone as soon as it has been
copied: a later net may lead to the pin where it ends, or to the pin where it starts.  Nothing else
can undo it.  A net that is not undone reads the same level at both ends when all nets have been
copied, and since every pass ends with this, also when the block has settled.  It makes no
difference what the elements are, what the block held before, or whether it has come to rest.

Main definitions:

* `Net.Consistent` — a net reads the same level at both of its ends.

Main results:

* `Net.consistent_copy`, `Net.Consistent.copy` — **one copy**: it makes its own net consistent, and
  keeps others consistent if it writes to neither of their ends;
* `Netlist.consistent_propagate` — all copies of a pass, by induction on the nets that are left;
* `Design.pins_settle_of_propagate` — a settlement ends with the copying of the nets;
* `Block.wires_are_consistent` — **a net that is not undone is consistent** after every settlement.
-/

import LogicBlock.Proofs.Runs

set_option relaxedAutoImplicit false
set_option autoImplicit false

namespace LogicBlock

/-! ### One net after the other -/

/-- The net reads the same level at both of its ends. -/
def Net.Consistent (net : Net) (pins : PinMap) : Prop :=
  pins.read net.destination = pins.read net.source

instance (net : Net) (pins : PinMap) : Decidable (net.Consistent pins) :=
  inferInstanceAs (Decidable (_ = _))

namespace Net

variable {net later : Net} {pins : PinMap}

/-- A net is consistent when it has just been copied, also if it starts where it ends. -/
theorem consistent_copy (net : Net) (pins : PinMap) :
    net.Consistent (pins.copy net.source net.destination) := by
  rw [Consistent, PinMap.read_copy, PinMap.read_copy, if_pos rfl, ite_self]

/-- **A copy that writes to neither end** of a net keeps it consistent. -/
theorem Consistent.copy (h : net.Consistent pins)
    (hlater : later.destination ≠ net.source ∧ later.destination ≠ net.destination) :
    net.Consistent (pins.copy later.source later.destination) := by
  rw [Consistent, PinMap.read_copy, PinMap.read_copy, if_neg hlater.2.symm, if_neg hlater.1.symm]
  exact h

end Net

/-- **After all copies** a net is consistent if no net behind it leads to one of its ends. -/
theorem Netlist.consistent_propagate {n : Netlist} {before after : List Net} {net : Net}
    (hn : n.nets = before ++ net :: after)
    (hafter : ∀ later ∈ after,
      later.destination ≠ net.source ∧ later.destination ≠ net.destination) (pins : PinMap) :
    net.Consistent (n.propagate pins) := by
  rw [propagate, hn, List.foldl_append, List.foldl_cons]
  -- the copy of the net makes it consistent, and each of the copies that are left keeps it so
  exact List.foldlRecOn after _ (net.consistent_copy _) fun _ hpins later hlater =>
    hpins.copy (hafter later hlater)

/-- If no two nets share a destination and none starts where a later one ends, no net is undone. -/
theorem Netlist.consistent_propagate_of_orderly {n : Netlist}
    (hdestinations : (n.nets.map Net.destination).Nodup)
    (hsources : n.nets.Pairwise fun net later => net.source ≠ later.destination) {net : Net}
    (hnet : net ∈ n.nets) (pins : PinMap) : net.Consistent (n.propagate pins) := by
  obtain ⟨before, after, hn⟩ := List.append_of_mem hnet
  rw [hn, List.map_append, List.map_cons] at hdestinations
  rw [hn] at hsources
  have hdestination := (List.nodup_cons.1 (List.nodup_append.1 hdestinations).2.1).1
  have hsource := (List.pairwise_cons.1 (List.pairwise_append.1 hsources).2.1).1
  refine consistent_propagate hn (fun later hlater => ⟨(hsource later hlater).symm, ?_⟩) pins
  exact fun heq => hdestination (heq ▸ List.mem_map_of_mem hlater)

/-! ### Settlements -/

/-- **A settlement ends with the copying of the nets**, if it makes a pass, so what this leads to
from any table holds of the table in the end. -/
theorem Design.pins_settle_of_propagate {P : PinMap → Prop} {d : Design} (hlimits : 1 ≤ d.limits)
    (h : ∀ pins, P (d.netlist.propagate pins)) (a : PinMap) (s : State) :
    P (d.settle a s).pins := by
  obtain ⟨k, hk⟩ := Nat.exists_eq_add_of_le' hlimits
  rw [settle_eq, hk]
  exact h _

namespace Block

/-- The same after every call of a run, except after a reset. -/
theorem pins_after_take_of_propagate {P : PinMap → Prop} {b : Block} (hlimits : 1 ≤ b.design.limits)
    (h : ∀ pins, P (b.design.netlist.propagate pins)) {history : List Call} {k : Nat} {c : Call}
    (hc : history[k]? = some c) (hreset : c ≠ .reset) :
    P (b.after (history.take (k + 1))).pins := by
  rw [List.take_add_one, hc, Option.toList_some, after_append, after_cons, after_nil]
  have hdesign : (b.after (history.take k)).design = b.design := b.after_design _
  generalize b.after (history.take k) = b' at hdesign
  rw [← hdesign] at hlimits h
  cases c with
  | settle a => exact Design.pins_settle_of_propagate hlimits h a b'.state
  | evaluate pins => exact Design.pins_settle_of_propagate hlimits h _ b'.state
  | reset => exact absurd rfl hreset

/-- **Wires are consistent when a block has settled.**  A block that makes at least one pass has
been settled from any state under any assignment.  Then every net reads the same level at both of
its ends, if no net that is listed behind it leads to either of them.  So if no two nets share a
destination, and none starts where a later one ends, all nets are consistent after every call of a
run that settles the block. -/
theorem wires_are_consistent (b : Block) (hlimits : 1 ≤ b.design.limits) :
    (∀ a before net after, b.design.netlist.nets = before ++ net :: after →
      (∀ later ∈ after, later.destination ≠ net.source ∧ later.destination ≠ net.destination) →
      net.Consistent (b.settle a).2.pins) ∧
    ((b.design.netlist.nets.map Net.destination).Nodup →
      b.design.netlist.nets.Pairwise (fun net later => net.source ≠ later.destination) →
      ∀ (history : List Call) k c, history[k]? = some c → c ≠ .reset →
        ∀ net ∈ b.design.netlist.nets, net.Consistent (b.after (history.take (k + 1))).pins) := by
  refine ⟨fun a before net after hn hafter => ?_,
    fun hdestinations hsources history k c hc hreset net hnet => ?_⟩
  · exact Design.pins_settle_of_propagate hlimits (Netlist.consistent_propagate hn hafter) a b.state
  · exact pins_after_take_of_propagate hlimits
      (Netlist.consistent_propagate_of_orderly hdestinations hsources hnet) hc hreset

end Block

namespace Undone

/-- A gate that listens to itself.  Two nets lead to its other input, and one from a port to the
port itself. -/
def netlist : Netlist where
  inputs := [.north, .south]
  outputs := [.up]
  models := [⟨"G", "NOR"⟩]
  nets := [⟨"1", "NORTH", "G.0"⟩, ⟨"2", "SOUTH", "G.0"⟩, ⟨"3", "G.2", "G.1"⟩, ⟨"4", "G.2", "UP"⟩,
    ⟨"5", "UP", "UP"⟩]

/-- The same without the net that is undone and the net that does nothing. -/
def orderly : Netlist :=
  { netlist with nets := [⟨"2", "SOUTH", "G.0"⟩, ⟨"3", "G.2", "G.1"⟩, ⟨"4", "G.2", "UP"⟩] }

/-- The gate is held at low and then let go, so that it oscillates. -/
def run : List Call :=
  [.settle (.ofList [("NORTH", .high), ("SOUTH", .high)]), .settle (.ofList [("SOUTH", .low)])]

/-- The first net is undone by the second one. -/
example : ((Block.ofDesign (Catalog.basic.design "undone" netlist 3)).after run).pins.read "NORTH" =
      .high ∧
    ((Block.ofDesign (Catalog.basic.design "undone" netlist 3)).after run).pins.read "G.0" =
      .low := by
  decide +kernel

end Undone

/-- The second net into a pin is consistent, from whatever state, and without the first one all nets
are consistent while the gate oscillates. -/
theorem Block.oscillating_wires_are_consistent :
    1 ≤ (Catalog.basic.design "undone" Undone.netlist 3).limits ∧
      (∀ s a, (Net.mk "2" "SOUTH" "G.0").Consistent
        ((mk (Catalog.basic.design "undone" Undone.netlist 3) s).settle a).2.pins) ∧
      ∀ net ∈ Undone.orderly.nets, net.Consistent
        ((ofDesign (Catalog.basic.design "orderly" Undone.orderly 3)).after
          (Undone.run.take 2)).pins := by
  have hlimits : 1 ≤ (Catalog.basic.design "undone" Undone.netlist 3).limits := by decide
  refine ⟨hlimits, fun s a => ?_, ?_⟩
  · exact (wires_are_consistent ⟨Catalog.basic.design "undone" Undone.netlist 3, s⟩ hlimits).1 a
      [⟨"1", "NORTH", "G.0"⟩] ⟨"2", "SOUTH", "G.0"⟩
      [⟨"3", "G.2", "G.1"⟩, ⟨"4", "G.2", "UP"⟩, ⟨"5", "UP", "UP"⟩] rfl (by decide)
  · exact (wires_are_consistent (ofDesign (Catalog.basic.design "orderly" Undone.orderly 3))
      (by decide)).2 (by decide) (by decide) Undone.run 1 _ rfl (by decide)

end LogicBlock
