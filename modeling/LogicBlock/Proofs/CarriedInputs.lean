/-
**Inputs that are carried over.**

A test vector need not name all inputs: what it omits keeps the level that an earlier vector has
given it.  So the vectors of a bench can be completed, each with the levels that have been given
before and that it does not give itself, and the bench runs as it did.

What makes this true is that the block holds all that the vectors have assigned so far.  That is the
invariant of the run: one more vector is assigned on top of it, and since nothing in the block
writes the pins that the vectors name, it is all there again after the passes.

Main definitions:

* `TestVector.latest?` — the level that the most recent of some vectors gives a pin;
* `TestVector.completeAll`, `Bench.completed`, `LoadedBench.completed` — vectors that omit nothing.

Main results:

* `TestVector.getElem?_completeAll` — what the completed vectors assign;
* `Block.settle_assign` — a block that holds levels need not be told them;
* `TestVector.applyAll_completeAll` — **completed vectors do the same**, one by one;
* `LoadedBench.omitted_inputs_carry_over` — **a bench runs as with its completed vectors**.
-/

import LogicBlock.Bench.Run
import LogicBlock.Proofs.HeldInputs
import LogicBlock.Proofs.RoundTrip

set_option relaxedAutoImplicit false
set_option autoImplicit false

namespace LogicBlock

/-! ### Completed vectors -/

namespace TestVector

/-- The level of a pin in the last of the vectors that name it. -/
def latest? (vectors : List TestVector) (pin : String) : Option Voltage :=
  vectors.reverse.findSome? fun v => v.inputs.get? pin

@[simp] theorem latest?_nil (pin : String) : latest? [] pin = none :=
  rfl

theorem latest?_cons (v : TestVector) (rest : List TestVector) (pin : String) :
    latest? (v :: rest) pin = (latest? rest pin).or (v.inputs.get? pin) := by
  rw [latest?, List.reverse_cons, List.findSome?_append, List.findSome?_singleton]
  rfl

/-- The vectors with all that has been assigned: to begin with `carried`, and then what the vectors
assign on top of it. -/
def completeAll (carried : PinMap) : List TestVector → List TestVector
  | [] => []
  | v :: rest =>
    let inputs := carried.assign v.inputs
    { v with inputs } :: completeAll inputs rest

/-- **A completed vector** expects what it did, and assigns what it did and, besides, the latest
levels of the pins that it omits. -/
theorem getElem?_completeAll {vectors : List TestVector} {k : Nat} {v : TestVector}
    (carried : PinMap) (hv : vectors[k]? = some v) :
    ∃ v', (completeAll carried vectors)[k]? = some v' ∧ v'.expect = v.expect ∧
      ∀ pin, v'.inputs.get? pin =
        (v.inputs.get? pin).or ((latest? (vectors.take k) pin).or (carried.get? pin)) := by
  induction vectors generalizing carried k with
  | nil => cases hv
  | cons first rest ih =>
      cases k with
      | zero =>
          cases hv
          refine ⟨{ v with inputs := carried.assign v.inputs }, rfl, rfl, fun pin => ?_⟩
          rw [List.take_zero, latest?_nil, Option.none_or, PinMap.get?_assign]
      | succ k =>
          obtain ⟨v', hv', hexpect, hinputs⟩ := ih (carried.assign first.inputs) hv
          refine ⟨v', hv', hexpect, fun pin => ?_⟩
          rw [hinputs, List.take_succ_cons, latest?_cons, Option.or_assoc,
            PinMap.get?_assign]

end TestVector

/-- The bench with its vectors completed. -/
def Bench.completed (b : Bench) : Bench :=
  { b with vectors := TestVector.completeAll .empty b.vectors }

namespace LoadedBench

/-- The bench with its vectors completed, and the same block. -/
def completed (l : LoadedBench) : LoadedBench :=
  { l with bench := l.bench.completed }

/-- The vectors have no part in the building of the block. -/
theorem ofBench_completed {read : FileReader} {base : String} {l : LoadedBench}
    (h : ofBench read base l.bench = .ok l) :
    ofBench read base l.bench.completed = .ok l.completed := by
  have hdesign : l.bench.completed.design read base = l.bench.design read base := rfl
  unfold ofBench at h ⊢
  rw [hdesign]
  cases hd : l.bench.design read base with
  | error e => rw [hd] at h; cases h
  | ok d =>
      rw [hd] at h
      have hblock : Block.ofDesign d = l.block := congrArg LoadedBench.block (Except.ok.inj h)
      rw [completed, ← hblock]

end LoadedBench

/-! ### The run -/

/-- To make one assignment after another is to make them at once, where the later one counts. -/
theorem PinMap.assign_assoc (m a b : PinMap) :
    (m.assign a).assign b = m.assign (a.assign b) := by
  refine NameMap.ext_get? fun pin => ?_
  simp only [get?_assign, Option.or_assoc]

theorem Design.LeavesAlone.assign {d : Design} {a b : PinMap} (ha : d.LeavesAlone a)
    (hb : d.LeavesAlone b) : d.LeavesAlone (a.assign b) := by
  intro pin hpin
  rcases PinMap.contains_assign_iff.1 hpin with h | h
  · exact hb pin h
  · exact ha pin h

/-- **A block that holds levels need not be told them** along with an assignment. -/
theorem Block.settle_assign {b : Block} {carried : PinMap} (hheld : b.pins.assign carried = b.pins)
    (a : PinMap) : b.settle (carried.assign a) = b.settle a := by
  have hassign : b.pins.assign (carried.assign a) = b.pins.assign a := by
    rw [← PinMap.assign_assoc, hheld]
  have hstate : b.design.settle (carried.assign a) b.state = b.design.settle a b.state := by
    rw [Design.settle_eq, Design.settle_eq]
    exact congrArg (fun pins => Nat.repeat b.design.relax b.design.limits { b.state with pins })
      hassign
  rw [settle, settle, hstate]

namespace TestVector

/-- **Completed vectors do the same** to a block that holds what is carried, and lead to the same
outputs and the same verdicts. -/
theorem applyAll_completeAll {vectors : List TestVector} {b : Block} {carried : PinMap}
    (hcarried : b.design.LeavesAlone carried) (hheld : b.pins.assign carried = b.pins)
    (hleaves : ∀ v ∈ vectors, b.design.LeavesAlone v.inputs) :
    List.Forall₂ (fun o o' => o.outputs = o'.outputs ∧ o.passed = o'.passed)
        (applyAll b (completeAll carried vectors)).1 (applyAll b vectors).1 ∧
      (applyAll b (completeAll carried vectors)).2 = (applyAll b vectors).2 := by
  induction vectors generalizing b carried with
  | nil => exact ⟨.nil, rfl⟩
  | cons v rest ih =>
      have hsettle := Block.settle_assign hheld v.inputs
      have hnext : b.design.LeavesAlone (carried.assign v.inputs) :=
        hcarried.assign (hleaves v List.mem_cons_self)
      -- after the vector the block holds what was carried, and what the vector has assigned
      have hagain := hnext.settle_holds b.state
      rw [← Block.settle_state, hsettle] at hagain
      have hrest := ih (b := (b.settle v.inputs).2) hnext hagain fun v' hv' =>
        hleaves v' (List.mem_cons_of_mem v hv')
      simp only [completeAll, applyAll, apply, hsettle]
      exact ⟨.cons ⟨rfl, rfl⟩ hrest.1, hrest.2⟩

end TestVector

namespace LoadedBench

/-- **Omitted inputs carry over.**  Where nothing in the block writes the pins that the vectors of a
bench name, the bench may be completed: each vector assigns, besides its own inputs, every pin that
earlier vectors name and it does not, with its latest level.  Every vector has the outputs and the
verdict that it had, and the block is in the same state in the end. -/
theorem omitted_inputs_carry_over (l : LoadedBench)
    (hleaves : ∀ v ∈ l.bench.vectors, l.block.design.LeavesAlone v.inputs) :
    (∀ read base, ofBench read base l.bench = .ok l →
      ofBench read base l.bench.completed = .ok l.completed) ∧
    (∀ (k : Nat) (v : TestVector), l.bench.vectors[k]? = some v →
      ∃ v', l.bench.completed.vectors[k]? = some v' ∧ v'.expect = v.expect ∧
        ∀ pin, v'.inputs.get? pin =
          (v.inputs.get? pin).or (TestVector.latest? (l.bench.vectors.take k) pin)) ∧
    List.Forall₂ (fun o o' => o.outputs = o'.outputs ∧ o.passed = o'.passed)
      l.completed.run.1 l.run.1 ∧
    l.completed.run.2.block = l.run.2.block := by
  have hnothing : l.block.design.LeavesAlone .empty := fun pin h => by cases h
  have hheld : l.block.pins.assign .empty = l.block.pins := rfl
  refine ⟨fun _ _ => ofBench_completed, fun k v hv => ?_,
    TestVector.applyAll_completeAll hnothing hheld hleaves⟩
  obtain ⟨v', hv', hexpect, hinputs⟩ := TestVector.getElem?_completeAll .empty hv
  refine ⟨v', hv', hexpect, fun pin => ?_⟩
  rw [hinputs, NameMap.get?_empty, Option.or_none]

end LoadedBench

namespace Latched

/-- A block with a latch inside. -/
def netlist : Netlist where
  inputs := [.south, .west]
  outputs := [.up]
  models := [⟨"L", "LATCH"⟩]
  nets := [⟨"1", "SOUTH", "L.SOUTH"⟩, ⟨"2", "WEST", "L.WEST"⟩, ⟨"3", "L.NORTH", "UP"⟩]

/-- A bench for it, given the texts of the block and of the latch.  After the first vector, each one
names the input that changes, if any; the last one does not pass. -/
def bench (block latch : String) : Bench where
  name := "latched"
  netlist := .inline block
  library := .ofList [("LATCH", { netlist := .inline latch, limits := 3 })]
  vectors := [
    { inputs := .ofList [("SOUTH", .high), ("WEST", .low)] },
    { inputs := .ofList [("SOUTH", .low)], expect := some (.ofList [("UP", .low)]) },
    { inputs := .ofList [("WEST", .high)], expect := some (.ofList [("UP", .high)]) },
    { inputs := .empty, expect := some (.ofList [("UP", .low)]) }]

/-- The bench with its block. -/
def loaded (block latch : String) : LoadedBench :=
  ⟨bench block latch, .ofDesign (Crossed.catalog.design "latched" netlist 5)⟩

theorem ofBench_bench {block latch : String} (hblock : Netlist.parse block = .ok netlist)
    (hlatch : Netlist.parse latch = .ok Bundled.latch) :
    LoadedBench.ofBench .none "" (bench block latch) = .ok (loaded block latch) := by
  have hcatalog : (bench block latch).catalog .none "" = .ok Crossed.catalog := by
    change Bench.registerAll .none "" (.ofPolicy .legacy)
      [("LATCH", { netlist := .inline latch, limits := 3 })] = _
    simp only [Bench.registerAll, LibraryEntry.register, NetlistSource.load, NetlistSource.text,
      hlatch]
    rfl
  have hload : (bench block latch).netlist.load .none "" (bench block latch).name =
      .ok netlist := by
    simp only [bench, NetlistSource.load, NetlistSource.text, hblock]
  rw [LoadedBench.ofBench, Bench.design, hcatalog, hload]
  rfl

/-- The bench with the texts as they are written. -/
def written : LoadedBench :=
  loaded netlist.render Bundled.latch.render

end Latched

/-- The latch is tested alike by vectors that name both inputs. -/
theorem LoadedBench.latched_inputs_carry_over :
    (∀ v ∈ Latched.written.bench.vectors, Latched.written.block.design.LeavesAlone v.inputs) ∧
      ofBench .none "" Latched.written.bench.completed = .ok Latched.written.completed ∧
      List.Forall₂ (fun o o' => o.outputs = o'.outputs ∧ o.passed = o'.passed)
        Latched.written.completed.run.1 Latched.written.run.1 ∧
      Latched.written.completed.run.2.block = Latched.written.run.2.block := by
  have hblock : Netlist.parse Latched.netlist.render = .ok Latched.netlist :=
    Netlist.Writable.parse_render (by decide)
  have hlatch : Netlist.parse Bundled.latch.render = .ok Bundled.latch :=
    Netlist.Writable.parse_render (by decide)
  have hleaves : ∀ v ∈ Latched.written.bench.vectors,
      Latched.written.block.design.LeavesAlone v.inputs := by
    decide +kernel
  obtain ⟨hbuilt, -, hrun⟩ := omitted_inputs_carry_over Latched.written hleaves
  exact ⟨hleaves, hbuilt .none "" (Latched.ofBench_bench hblock hlatch), hrun⟩

end LogicBlock
