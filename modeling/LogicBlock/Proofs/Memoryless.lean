/-
**A hierarchy of blocks without feedback has no memory.**

A nested block keeps its pin table from one evaluation to the next, and the enclosing block
evaluates it in every pass, at first with levels at its input ports that are not the final ones.
Nevertheless, if there is no feedback inside it and it is given passes enough, whatever is left in
its table is flushed, and it puts out what a new block would.  So in a pass of the enclosing block
its elements might as well be new, and the pass is a map on the pin table of that block alone, to
which the argument by ranks applies in turn.

The induction is on the nesting, and inside each block on the passes.  For a block it is shown that
any two states that it can come into, and that show the same levels at the input ports, settle to
the same levels at all pins.  That a pin has one driver only is not needed for this.

Main definitions:

* `Element.fresh` — what a new element puts out;
* `Element.Memoryless`, `Design.Memoryless` — earlier evaluations make no difference;
* `Design.Combinational` — without feedback, and with passes enough, at every depth;
* `Design.AgreeUpTo` — the states of two runs agree on the pins up to some rank.

Main results:

* `Element.pins_evaluateAll`, `Element.read_evaluateAll_congr` — elements without memory might as
  well be new, and write the same levels wherever they see the same;
* `Design.AgreeUpTo.relax` — **one pass reaches one rank more**;
* `Design.Ranked.memoryless`, `Element.memoryless_composite` — from the elements to the block, and
  from the block to the element;
* `Block.hierarchy_has_no_memory` — **a combinational block has no memory**.
-/

import LogicBlock.Proofs.Acyclic
import LogicBlock.Proofs.Nesting
import LogicBlock.Proofs.Reached

set_option relaxedAutoImplicit false
set_option autoImplicit false

namespace LogicBlock

/-! ### Writing many maps -/

namespace PinMap

variable {α : Type} {l : List α} {f f' : α → PinMap} {pin : String}

/-- A pin reads the same after maps with the same entries for it have been written, if one of them
has an entry or the pin has read the same before. -/
theorem read_foldl_assign_congr (h : ∀ x ∈ l, (f x).get? pin = (f' x).get? pin) {m m' : PinMap}
    (hpin : (∃ x ∈ l, (f x).contains pin) ∨ m.read pin = m'.read pin) :
    ((l.map f).foldl assign m).read pin = ((l.map f').foldl assign m').read pin := by
  induction l generalizing m m' with
  | nil => exact hpin.resolve_left (by simp)
  | cons x rest ih =>
      rw [List.forall_mem_cons] at h
      rw [List.map_cons, List.map_cons, List.foldl_cons, List.foldl_cons]
      refine ih h.2 ?_
      by_cases hrest : ∃ y ∈ rest, (f y).contains pin
      · exact .inl hrest
      · right
        rw [read_assign, read_assign, ← h.1]
        cases hx : (f x).get? pin with
        | some v => rfl
        | none =>
            -- no map has an entry for the pin, so it has to have read the same before
            refine hpin.resolve_left ?_
            rintro ⟨y, hy, hcontains⟩
            rcases List.mem_cons.1 hy with rfl | hy
            · rw [NameMap.contains, hx] at hcontains
              cases hcontains
            · exact hrest ⟨y, hy, hcontains⟩

end PinMap

/-! ### Elements without memory -/

namespace Element

/-- What the element puts out when it is new. -/
def fresh (e : Element) (m : PinMap) : PinMap :=
  (e.evaluate m e.cold).1

/-- The element puts out what a new one would, whatever state it has come into. -/
def Memoryless (e : Element) : Prop :=
  ∀ m s, e.Reached s → (e.evaluate m s).1 = e.fresh m

theorem fresh_congr {e : Element} {m m' : PinMap}
    (h : ∀ pin ∈ e.inputPins, m.read pin = m'.read pin) : e.fresh m = e.fresh m' :=
  congrArg Prod.fst (evaluate_congr h e.cold)

theorem contains_fresh_iff {e : Element} {m : PinMap} {pin : String} :
    (e.fresh m).contains pin ↔ pin ∈ e.livePins :=
  (Reached.cold e).contains_evaluate_iff

theorem memoryless_gate (g : Gate) : (gate g).Memoryless :=
  fun _ _ _ => rfl

/-- **Elements without memory might as well be new**: what they do to a table does not depend on the
states that they have come into. -/
theorem pins_evaluateAll {l : List Element} (hnames : (l.map name).Nodup)
    (hmemoryless : ∀ e ∈ l, e.Memoryless) {s : State}
    (hparts : AllReached l s) :
    (evaluateAll l s).pins = (l.map fun e => e.fresh s.pins).foldl PinMap.assign s.pins := by
  have hwrites : ((withParts l s.parts).map (outcome s.pins)).map Prod.fst =
      l.map fun e => e.fresh s.pins := by
    conv_rhs => rw [← map_fst_withParts l s.parts]
    rw [List.map_map, List.map_map]
    refine List.map_congr_left fun p hp => ?_
    exact hmemoryless p.1 (mem_of_mem_withParts hp) s.pins p.2 (hparts p hp)
  rw [evaluateAll_eq_evaluateAtOnce hnames, evaluateAtOnce, hwrites]

/-- **Elements without memory write the same levels** if those that write to a pin see the same on
both sides, and so does the pin itself if none of them writes to it. -/
theorem read_evaluateAll_congr {l : List Element} (hnames : (l.map name).Nodup)
    (hmemoryless : ∀ e ∈ l, e.Memoryless) {s s' : State}
    (hparts : AllReached l s)
    (hparts' : AllReached l s') {pin : String}
    (hinputs : ∀ e ∈ l, pin ∈ e.outputPins → ∀ i ∈ e.inputPins, s.pins.read i = s'.pins.read i)
    (hidle : pin ∉ l.flatMap livePins → s.pins.read pin = s'.pins.read pin) :
    (evaluateAll l s).pins.read pin = (evaluateAll l s').pins.read pin := by
  rw [pins_evaluateAll hnames hmemoryless hparts, pins_evaluateAll hnames hmemoryless hparts']
  refine PinMap.read_foldl_assign_congr (fun e he => ?_) ?_
  · by_cases hout : pin ∈ e.outputPins
    · rw [fresh_congr (hinputs e he hout)]
    · rw [fresh, fresh, get?_evaluate_of_notMem hout, get?_evaluate_of_notMem hout]
  · by_cases hlive : pin ∈ l.flatMap livePins
    · obtain ⟨e, he, hpin⟩ := List.mem_flatMap.1 hlive
      exact .inl ⟨e, he, contains_fresh_iff.2 hpin⟩
    · exact .inr (hidle hlive)

end Element

/-! ### Blocks without memory -/

/-- Two states of the block that show the same levels at the input ports, once these have been
assigned, settle to the same levels at all pins. -/
def Design.Memoryless (d : Design) : Prop :=
  ∀ a a' s s', d.Reached s → d.Reached s' → d.netlist.Takes a → d.netlist.Takes a' →
    (∀ pin ∈ d.netlist.inputPins, (s.pins.assign a).read pin = (s'.pins.assign a').read pin) →
    (d.settle a s).pins.read = (d.settle a' s').pins.read

/-- **A block without memory is an element without memory.** -/
theorem Element.memoryless_composite {name type : String} {block : Design}
    (h : block.Memoryless) : (composite name type block).Memoryless := by
  intro m s hs
  have htakes := block.netlist.takes_portAssignment name m
  have hassigned : ∀ pin, (block.netlist.portAssignment name m).contains pin ↔
      pin ∈ block.netlist.inputPins := fun _ => Netlist.contains_portAssignment_iff
  have hcold : block.Reached block.cold := .cold block
  have hread : (block.settle (block.netlist.portAssignment name m) s).pins.read =
      (block.settle (block.netlist.portAssignment name m) block.cold).pins.read := by
    refine h _ _ s block.cold hs hcold htakes htakes fun pin hpin => ?_
    rw [PinMap.read_assign_of_contains ((hassigned pin).2 hpin),
      PinMap.read_assign_of_contains ((hassigned pin).2 hpin)]
  refine Netlist.portResults_congr fun d _ => PinMap.get?_congr ?_ (congrFun hread d.name)
  exact Bool.eq_iff_iff.2 ((Design.Reached.contains_settle_port_iff hs hassigned).trans
    (hcold.contains_settle_port_iff hassigned).symm)

namespace Design

variable {d : Design} {rank : String → Nat}

/-- Two states, whose parts the elements have come into, agree on the pins up to rank `k` and on
those that no pass writes. -/
structure AgreeUpTo (d : Design) (rank : String → Nat) (k : Nat) (s s' : State) : Prop where
  left : Element.AllReached d.elements s
  right : Element.AllReached d.elements s'
  idle : ∀ pin, pin ∉ d.activePins → s.pins.read pin = s'.pins.read pin
  low : ∀ pin, rank pin ≤ k → s.pins.read pin = s'.pins.read pin

/-- **One pass reaches one rank more.** -/
theorem AgreeUpTo.relax (hrank : d.Ranked rank) (hnames : (d.elements.map Element.name).Nodup)
    (hmemoryless : ∀ e ∈ d.elements, e.Memoryless) {k : Nat} {s s' : State}
    (h : d.AgreeUpTo rank k s s') : d.AgreeUpTo rank (k + 1) (d.relax s) (d.relax s') where
  left := (d.invariant_parts fun _ => True).relax s h.left
  right := (d.invariant_parts fun _ => True).relax s' h.right
  idle pin hpin := by
    rw [read_relax_of_idle h.left hpin, read_relax_of_idle h.right hpin]
    exact h.idle pin hpin
  low pin hpin := by
    rw [Design.relax, Design.relax, Net.read_propagate, Net.read_propagate]
    refine @Net.carry_related (· = ·) (fun _ => True) rank k d.netlist.nets (fun _ _ => trivial)
      hrank.net hrank.self hrank.late _ _ (fun q _ hq hdest => ?_) pin trivial hpin
    refine Element.read_evaluateAll_congr hnames hmemoryless h.left h.right ?_ fun hlive => ?_
    · -- the input pins rank below the output pin
      intro e he hout i hi
      have hlt := hrank.element e he i hi q hout
      exact h.low i (by omega)
    · by_cases hnet : q ∈ d.netlist.nets.map Net.destination
      · exact h.low q (hdest hnet)
      · exact h.idle q fun hactive => (List.mem_append.1 hactive).elim hnet hlive

theorem AgreeUpTo.repeat_relax (hrank : d.Ranked rank)
    (hnames : (d.elements.map Element.name).Nodup) (hmemoryless : ∀ e ∈ d.elements, e.Memoryless)
    {s s' : State} (h : d.AgreeUpTo rank 0 s s') (k : Nat) :
    d.AgreeUpTo rank k (Nat.repeat d.relax k s) (Nat.repeat d.relax k s') := by
  induction k with
  | zero => exact h
  | succ k ih => exact ih.relax hrank hnames hmemoryless

/-- Assigned states agree on all pins that no pass writes, if they agree on the input ports. -/
theorem Ranked.agreeUpTo_zero (hrank : d.Ranked rank) {a a' : PinMap} {s s' : State}
    (hs : d.Reached s) (hs' : d.Reached s') (ha : d.netlist.Takes a) (ha' : d.netlist.Takes a')
    (hports : ∀ pin ∈ d.netlist.inputPins,
      (s.pins.assign a).read pin = (s'.pins.assign a').read pin) :
    d.AgreeUpTo rank 0 { s with pins := s.pins.assign a }
      { s' with pins := s'.pins.assign a' } := by
  have hidle : ∀ pin, pin ∉ d.activePins →
      (s.pins.assign a).read pin = (s'.pins.assign a').read pin := by
    intro pin hpin
    by_cases hin : pin ∈ d.netlist.inputPins
    · exact hports pin hin
    · rw [PinMap.read_assign_of_not_contains (mt (ha pin) hin),
        PinMap.read_assign_of_not_contains (mt (ha' pin) hin), hs.read_of_idle hin hpin,
        hs'.read_of_idle hin hpin]
  refine ⟨hs.parts, hs'.parts, hidle, fun pin hpin => hidle pin fun hactive => ?_⟩
  -- what a pass writes ranks above zero
  have hpos := hrank.written pin (mem_writtenPins_of_mem_activePins hactive)
  omega

/-- **A block of elements without memory has no memory**, if there are as many passes as its written
pins rank. -/
theorem Ranked.memoryless (hrank : d.Ranked rank) (hnames : (d.elements.map Element.name).Nodup)
    (hlimits : ∀ pin ∈ d.writtenPins, rank pin ≤ d.limits)
    (hmemoryless : ∀ e ∈ d.elements, e.Memoryless) : d.Memoryless := by
  intro a a' s s' hs hs' ha ha' hports
  have hagree := (hrank.agreeUpTo_zero hs hs' ha ha' hports).repeat_relax hrank hnames hmemoryless
    d.limits
  rw [settle_eq, settle_eq]
  funext pin
  by_cases hpin : pin ∈ d.activePins
  · exact hagree.low pin (hlimits pin (mem_writtenPins_of_mem_activePins hpin))
  · exact hagree.idle pin hpin

/-! ### Hierarchies -/

/-- **A block is combinational** if ranks of its pins rule out feedback, and it is given as many
passes as the pins that it writes rank, and if so it is with all blocks inside it. -/
def Combinational (d : Design) : Prop :=
  d.Everywhere fun d => ∃ rank, d.Ranked rank ∧ ∀ pin ∈ d.writtenPins, rank pin ≤ d.limits

/-- **A combinational block has no memory**: the induction over the nesting. -/
theorem Combinational.memoryless (h : d.Combinational)
    (hnames : d.Everywhere fun d => (d.elements.map Element.name).Nodup) : d.Memoryless := by
  unfold Combinational at h
  induction h with
  | @intro d hranked _ ih =>
      obtain ⟨rank, hrank, hlimits⟩ := hranked
      refine hrank.memoryless hnames.here hlimits fun e he => ?_
      cases e with
      | gate g => exact Element.memoryless_gate g
      | composite name type block =>
          exact Element.memoryless_composite (ih name type block he (hnames.nested he))

end Design

/-- The state of an element after evaluations on some tables, one after the other. -/
def Element.after (e : Element) (earlier : List PinMap) : State :=
  earlier.foldl (fun s m => (e.evaluate m s).2) e.cold

theorem Element.reached_after (e : Element) (earlier : List PinMap) : e.Reached (e.after earlier) :=
  List.foldlRecOn earlier _ (.cold e) fun _ hs m _ => hs.evaluate m

/-- **A combinational block has no memory**, neither as an element nor on its own.  As an element it
puts out what a new one of its name would, whatever tables it has been evaluated on before, so this
depends on the levels at its input ports only.  On its own, two histories that end with the same
levels assigned to the input ports leave the same levels at all pins; what the last calls return
reads the same, and is the same unless an input port is an output port too and no net ends there. -/
theorem Block.hierarchy_has_no_memory {policy : NorPolicy} (c : Catalog) (hc : c.Grown policy)
    (name : String) (n : Netlist) (limits : Nat) (hcomb : (c.design name n limits).Combinational) :
    (∀ (label type : String) (earlier : List PinMap) (pins pins' : PinMap),
      (∀ i ∈ n.inputs, pins.read (Pin.port label i) = pins'.read (Pin.port label i)) →
      let e := Element.composite label type (c.design name n limits)
      (e.evaluate pins (e.after earlier)).1 = (e.evaluate pins' e.cold).1) ∧
    ∀ (first second : List Call) (a a' : PinMap),
      (∀ call ∈ first ++ [.settle a], call.AssignsPorts n) →
      (∀ call ∈ second ++ [.settle a'], call.AssignsPorts n) →
      let b := (ofDesign (c.design name n limits)).after first
      let b' := (ofDesign (c.design name n limits)).after second
      (∀ i ∈ n.inputs, (b.pins.assign a).read i.name = (b'.pins.assign a').read i.name) →
      (b.settle a).2.pins.read = (b'.settle a').2.pins.read ∧
        (b.settle a).1.read = (b'.settle a').1.read ∧
        ((∀ i ∈ n.outputs, i ∈ n.inputs → i.name ∈ n.endpoints) →
          (b.settle a).1 = (b'.settle a').1) := by
  have hmemoryless := hcomb.memoryless (hc.everywhere_nodup_names name n limits)
  constructor
  · intro label type earlier pins pins' hports e
    rw [Element.memoryless_composite hmemoryless pins _ (e.reached_after earlier)]
    refine Element.fresh_congr fun pin hpin => ?_
    obtain ⟨i, hi, rfl⟩ := List.mem_map.1 hpin
    exact hports i hi
  · intro first second a a' hfirst hsecond b b' hports
    have hdesign : b.design = c.design name n limits := after_design _ first
    have hdesign' : b'.design = c.design name n limits := after_design _ second
    have hs : (c.design name n limits).Reached b.state :=
      ⟨first, fun call hcall => hfirst call (List.mem_append_left _ hcall), rfl⟩
    have hs' : (c.design name n limits).Reached b'.state :=
      ⟨second, fun call hcall => hsecond call (List.mem_append_left _ hcall), rfl⟩
    have ha : n.Takes a := hfirst (.settle a) (by simp) a rfl
    have ha' : n.Takes a' := hsecond (.settle a') (by simp) a' rfl
    have hread := hmemoryless a a' b.state b'.state hs hs' ha ha' fun pin hpin => by
      obtain ⟨i, hi, rfl⟩ := List.mem_map.1 hpin
      exact hports i hi
    simp only [settle, pins, hdesign, hdesign']
    refine ⟨hread, funext fun pin => ?_, (hs.settle ha).outputs_congr (hs'.settle ha') hread⟩
    rw [Design.outputs, Design.outputs, PinMap.read_restrictTo, PinMap.read_restrictTo, hread]

namespace HalfAdders

/-- Two bits are added by one gate for the sum and one for the carry. -/
def half : Netlist where
  inputs := [.north, .south]
  outputs := [.east, .up]
  models := [⟨"X", "XOR"⟩, ⟨"A", "AND"⟩]
  nets := [⟨"N1", "NORTH", "X.0"⟩, ⟨"N2", "SOUTH", "X.1"⟩, ⟨"N3", "NORTH", "A.0"⟩,
    ⟨"N4", "SOUTH", "A.1"⟩, ⟨"N5", "X.2", "EAST"⟩, ⟨"N6", "A.2", "UP"⟩]

def halfDesign : Design :=
  Catalog.basic.design "HALF" half 2

/-- The gates, and the half adder as a type of its own. -/
def catalog : Catalog :=
  { Catalog.basic with blocks := NameMap.empty.insert "HALF" halfDesign }

/-- A full adder from two half adders. -/
def netlist : Netlist where
  inputs := [.north, .south, .west]
  outputs := [.east, .up]
  models := [⟨"HA1", "HALF"⟩, ⟨"HA2", "HALF"⟩, ⟨"OR1", "OR"⟩]
  nets := [⟨"N1", "NORTH", "HA1.NORTH"⟩, ⟨"N2", "SOUTH", "HA1.SOUTH"⟩,
    ⟨"N3", "HA1.EAST", "HA2.NORTH"⟩, ⟨"N4", "WEST", "HA2.SOUTH"⟩, ⟨"N5", "HA2.EAST", "EAST"⟩,
    ⟨"N6", "HA1.UP", "OR1.0"⟩, ⟨"N7", "HA2.UP", "OR1.1"⟩, ⟨"N8", "OR1.2", "UP"⟩]

def halfRank (p : String) : Nat :=
  if p ∈ ["X.0", "X.1", "A.0", "A.1"] then 1
  else if p ∈ ["X.2", "A.2", "EAST", "UP"] then 2
  else 0

def rank (p : String) : Nat :=
  if p ∈ ["HA1.NORTH", "HA1.SOUTH", "HA2.SOUTH"] then 1
  else if p ∈ ["HA1.EAST", "HA1.UP", "HA2.NORTH", "OR1.0"] then 2
  else if p ∈ ["HA2.EAST", "HA2.UP", "OR1.1", "EAST"] then 3
  else if p ∈ ["OR1.2", "UP"] then 4
  else 0

theorem grown : catalog.Grown default :=
  .register "HALF" half 2 .ofPolicy rfl

theorem ranked_half : halfDesign.Ranked halfRank where
  written := by decide +kernel
  element := by decide +kernel
  net := by decide +kernel
  self := by decide +kernel
  late := by decide +kernel

theorem ranked : (catalog.design "adder" netlist 4).Ranked rank where
  written := by decide +kernel
  element := by decide +kernel
  net := by decide +kernel
  self := by decide +kernel
  late := by decide +kernel

theorem combinational_half : halfDesign.Combinational :=
  Catalog.everywhere_design ⟨halfRank, ranked_half, by decide +kernel⟩
    fun _ _ hblock => by cases hblock

theorem combinational : (catalog.design "adder" netlist 4).Combinational := by
  refine Catalog.everywhere_design ⟨rank, ranked, by decide +kernel⟩ fun type block hblock => ?_
  rw [catalog, NameMap.get?_insert] at hblock
  split at hblock
  · cases hblock
    exact combinational_half
  · cases hblock

/-- Another addition. -/
def earlier : List Call :=
  [.settle (.ofList [("NORTH", .high), ("SOUTH", .high), ("WEST", .high)])]

/-- The first addend is still there. -/
def assignment : PinMap :=
  .ofList [("SOUTH", .low), ("WEST", .high)]

/-- The same addends, all of them assigned. -/
def fullAssignment : PinMap :=
  .ofList [("NORTH", .high), ("SOUTH", .low), ("WEST", .high)]

end HalfAdders

/-- An adder from two half adders adds as if it were new. -/
theorem Block.halfAdders_have_no_memory :
    HalfAdders.catalog.Grown default ∧
      (HalfAdders.catalog.design "adder" HalfAdders.netlist 4).Combinational ∧
      ((((ofDesign (HalfAdders.catalog.design "adder" HalfAdders.netlist 4)).after
        HalfAdders.earlier).settle HalfAdders.assignment).1 =
        ((ofDesign (HalfAdders.catalog.design "adder" HalfAdders.netlist 4)).settle
          HalfAdders.fullAssignment).1) :=
  have hmemory := hierarchy_has_no_memory HalfAdders.catalog HalfAdders.grown "adder"
    HalfAdders.netlist 4 HalfAdders.combinational
  ⟨HalfAdders.grown, HalfAdders.combinational,
    (hmemory.2 HalfAdders.earlier [] HalfAdders.assignment HalfAdders.fullAssignment
      (by decide +kernel) (by decide +kernel) (by decide +kernel)).2.2 (by decide +kernel)⟩

end LogicBlock
