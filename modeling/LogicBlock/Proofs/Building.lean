/-
**Building, check by check.**

A bench is built in one sweep that ends at the first fault.  Apart from the building, the faults are
those of a list of checks: for each entry of the library, in the order of the type names, that it
takes a pass, that its text can be read, that the text is that of a netlist, and that its name is
not that of a gate kind; and then the first three for the block itself.  No check depends on what
has been built before.  That a name may be taken by an earlier entry need not be checked, since the
names ascend.

A property of outcomes says for each function of the building that it ends with the first fault of
its checks or, if there is none, with a value as it should be.  For the library this value is the
catalog after registrations that have all been accepted, so what is known of histories applies: what
stands inside a block of some type is of a type that comes before it.

A bench in a file is built in the directory of the file.  Before that, there has to be a text, and
the text has to be that of a bench.

Main definitions:

* `Bench.Check`, `Bench.Check.fault?` — the checks, each with its fault;
* `Bench.checks`, `Bench.fault?` — the checks of a bench in their order, and the first fault;
* `Bench.FaultOr` — the fault, or a value with a property;
* `Design.IsEntry` — what is said of blocks of some type;
* `Bench.IsAt`, `LoadedBench.FaultAt` — the bench at a path, and why there is none that runs.

Main results:

* `LibraryEntry.faultOr_register`, `Bench.faultOr_registerAll`, `Bench.faultOr_design` — the
  functions of the building, one by one;
* `Catalog.blocks_offerAll` — **what every registration hands on** holds of all blocks of a catalog;
* `LoadedBench.building_outcome` — **the outcome of building a bench**: the first fault decides, and
  without a fault the blocks at every depth are as the bench says;
* `LoadedBench.ofFile_eq_error_iff`, `LoadedBench.exists_ofFile_eq_ok_iff` — **the outcome of
  loading a file**.
-/

import LogicBlock.Bench.Build
import LogicBlock.Proofs.Registrations
import LogicBlock.Proofs.RoundTrip

set_option relaxedAutoImplicit false
set_option autoImplicit false

namespace LogicBlock

/-! ### Checks -/

namespace Bench

/-- What is checked of a bench. -/
inductive Check where
  /-- A block takes at least one pass. -/
  | passes (name : String) (limits : Nat)
  /-- The text at a source can be read. -/
  | readable (source : NetlistSource)
  /-- The text at a source is that of a netlist. -/
  | wellFormed (context : String) (source : NetlistSource)
  /-- A type is not called like a gate kind. -/
  | noGate (type : String)

namespace Check

variable (read : FileReader) (base : String)

/-- What is wrong with a text that should be that of a netlist. -/
def textFault? (context text : String) : Option BenchError :=
  match Netlist.parse text with
  | .ok _ => none
  | .error cause => some (.format context cause)

/-- The fault of a check, if it fails.  A text that cannot be read has no fault of its own. -/
def fault? : Check → Option BenchError
  | passes name limits => if limits = 0 then some (.noPasses name) else none
  | readable (.inline _) => none
  | readable (.path p) =>
    match read (Path.join base p) with
    | .ok _ => none
    | .error cause => some (.unreadable (Path.join base p) cause)
  | wellFormed context (.inline text) => textFault? context text
  | wellFormed context (.path p) =>
    match read (Path.join base p) with
    | .ok text => textFault? context text
    | .error _ => none
  | noGate type => if type ∈ ["AND", "OR", "XOR", "NOR"] then some (.duplicateType ⟨type⟩) else none

/-- The checks of a block: its passes, and the text of its netlist. -/
def ofBlock (name : String) (limits : Nat) (source : NetlistSource) : List Check :=
  [passes name limits, readable source, wellFormed name source]

/-- The checks of a library entry. -/
def ofEntry (type : String) (entry : LibraryEntry) : List Check :=
  ofBlock type entry.limits entry.netlist ++ [noGate type]

/-- The first fault of a list of checks. -/
def firstFault? (checks : List Check) : Option BenchError :=
  checks.findSome? (fault? read base)

theorem firstFault?_cons (check : Check) (rest : List Check) :
    firstFault? read base (check :: rest) =
      (check.fault? read base).or (firstFault? read base rest) := by
  rw [firstFault?, firstFault?, List.findSome?_cons]
  cases check.fault? read base <;> rfl

theorem firstFault?_append (first last : List Check) :
    firstFault? read base (first ++ last) =
      (firstFault? read base first).or (firstFault? read base last) :=
  List.findSome?_append

theorem firstFault?_singleton (check : Check) :
    firstFault? read base [check] = check.fault? read base :=
  List.findSome?_singleton

end Check

/-- **The checks of a bench, in their order**: the library by type names, and then the block. -/
def checks (b : Bench) : List Check :=
  b.library.entries.flatMap (fun entry => Check.ofEntry entry.1 entry.2) ++
    Check.ofBlock b.name b.limits b.netlist

/-! ### Outcomes -/

/-- The outcome is the error of a fault, or, if there is no fault, a value with a property. -/
def FaultOr {α : Type} (fault : Option BenchError) (P : α → Prop) (x : Except BenchError α) :
    Prop :=
  match fault with
  | some e => x = .error e
  | none => ∃ a, x = .ok a ∧ P a

namespace FaultOr

variable {α : Type} {fault : Option BenchError} {P : α → Prop} {x : Except BenchError α}

theorem eq_error_iff (h : FaultOr fault P x) {e : BenchError} : x = .error e ↔ fault = some e := by
  cases fault with
  | some e' =>
      rw [FaultOr] at h
      rw [h, Except.error.injEq, Option.some.injEq]
  | none =>
      obtain ⟨a, rfl, -⟩ := h
      simp

theorem exists_ok_iff (h : FaultOr fault P x) : (∃ a, x = .ok a) ↔ fault = none := by
  cases fault with
  | some e =>
      rw [FaultOr] at h
      simp [h]
  | none =>
      obtain ⟨a, rfl, -⟩ := h
      simp

theorem of_ok (h : FaultOr fault P x) {a : α} (ha : x = .ok a) : P a := by
  cases fault with
  | some e =>
      rw [FaultOr, ha] at h
      cases h
  | none =>
      obtain ⟨a', ha', hP⟩ := h
      rw [ha] at ha'
      exact Except.ok.inj ha' ▸ hP

theorem mono {Q : α → Prop} (h : FaultOr fault P x) (hPQ : ∀ a, P a → Q a) : FaultOr fault Q x := by
  cases fault with
  | some e => exact h
  | none =>
      obtain ⟨a, ha, hP⟩ := h
      exact ⟨a, ha, hPQ a hP⟩

/-- The value that has the property is the outcome. -/
theorem self (h : FaultOr fault P x) : FaultOr fault (fun a => x = .ok a ∧ P a) x := by
  cases fault with
  | some e => exact h
  | none =>
      obtain ⟨a, ha, hP⟩ := h
      exact ⟨a, ha, ha, hP⟩

theorem map {β : Type} {Q : β → Prop} {f : α → β} (h : FaultOr fault P x)
    (hf : ∀ a, P a → Q (f a)) : FaultOr fault Q (x.map f) := by
  cases fault with
  | some e =>
      rw [FaultOr] at h
      rw [h]
      rfl
  | none =>
      obtain ⟨a, rfl, hP⟩ := h
      exact ⟨f a, rfl, hf a hP⟩

/-- **One outcome after the other**: the faults of the second one count if there is none before. -/
theorem bind {β : Type} {fault' : Option BenchError} {Q : β → Prop} {f : α → Except BenchError β}
    (h : FaultOr fault P x) (hf : ∀ a, P a → FaultOr fault' Q (f a)) :
    FaultOr (fault.or fault') Q (x.bind f) := by
  cases fault with
  | some e =>
      rw [FaultOr] at h
      rw [h]
      rfl
  | none =>
      obtain ⟨a, rfl, hP⟩ := h
      rw [Option.none_or]
      exact hf a hP

end FaultOr

end Bench

/-! ### The functions of the building -/

section Build

variable (read : FileReader) (base : String)

open Bench Bench.Check

/-- A text that cannot be read is a fault; the text of any other source is what is parsed. -/
theorem NetlistSource.faultOr_text (context : String) (source : NetlistSource) :
    FaultOr ((readable source).fault? read base)
      (fun text => (wellFormed context source).fault? read base = textFault? context text)
      (source.text read base) := by
  cases source with
  | inline text => exact ⟨text, rfl, rfl⟩
  | path p =>
      rw [fault?, fault?, NetlistSource.text]
      cases read (Path.join base p) with
      | ok text => exact ⟨text, rfl, rfl⟩
      | error cause => rfl

theorem Netlist.faultOr_parse (context text : String) :
    FaultOr (textFault? context text) (fun _ => True)
      ((Netlist.parse text).mapError (.format context)) := by
  rw [textFault?]
  cases Netlist.parse text with
  | ok n => exact ⟨n, rfl, trivial⟩
  | error cause => rfl

theorem NetlistSource.load_eq_bind (context : String) (source : NetlistSource) :
    source.load read base context = (source.text read base).bind fun text =>
      (Netlist.parse text).mapError (.format context) := by
  rw [load]
  cases source.text read base with
  | error e => rfl
  | ok text =>
      dsimp only [Except.bind]
      cases Netlist.parse text <;> rfl

/-- Loading a netlist fails if its text cannot be read or is not that of a netlist. -/
theorem NetlistSource.faultOr_load (context : String) (source : NetlistSource) :
    FaultOr (firstFault? read base [readable source, wellFormed context source]) (fun _ => True)
      (source.load read base context) := by
  rw [load_eq_bind, firstFault?_cons, firstFault?_singleton]
  refine (source.faultOr_text read base context).bind fun text htext => ?_
  rw [htext]
  exact Netlist.faultOr_parse context text

/-- The netlist of a block that takes a pass. -/
def Bench.netlistOf (name : String) (limits : Nat) (source : NetlistSource) :
    Except BenchError Netlist :=
  if limits = 0 then .error (.noPasses name) else source.load read base name

/-- A block is ready to be built if it takes a pass and its netlist can be loaded. -/
theorem Bench.faultOr_netlistOf (name : String) (limits : Nat) (source : NetlistSource) :
    FaultOr (firstFault? read base (ofBlock name limits source)) (fun _ => 0 < limits)
      (netlistOf read base name limits source) := by
  rw [ofBlock, firstFault?_cons, netlistOf, fault?]
  split
  · rfl
  · rename_i hlimits
    rw [Option.none_or]
    exact (source.faultOr_load read base name).mono fun _ _ => Nat.pos_of_ne_zero hlimits

variable {c : Catalog} {type : String}

theorem LibraryEntry.register_eq_bind (entry : LibraryEntry) :
    entry.register read base c type =
      (netlistOf read base type entry.limits entry.netlist).bind fun n =>
        (c.register type n entry.limits).mapError .duplicateType := by
  rw [register, netlistOf]
  split
  · rfl
  · cases entry.netlist.load read base type with
    | error e => rfl
    | ok n =>
        dsimp only [Except.bind]
        cases c.register type n entry.limits <;> rfl

/-- **A library entry** that passes its checks extends the catalog. -/
theorem LibraryEntry.faultOr_register (hnew : ¬c.blocks.contains type) (entry : LibraryEntry) :
    FaultOr (firstFault? read base (ofEntry type entry))
      (fun c' => ∃ r : Catalog.Registration, r.type = type ∧ 0 < r.limits ∧ ¬c.isKnown type ∧
        c' = c.extend r)
      (entry.register read base c type) := by
  rw [ofEntry, firstFault?_append, firstFault?_singleton, register_eq_bind]
  refine (faultOr_netlistOf read base type entry.limits entry.netlist).bind fun n hlimits => ?_
  let r : Catalog.Registration := ⟨type, n, entry.limits⟩
  rw [fault?]
  split
  · rename_i hgate
    have hknown : c.isKnown r.type := (Catalog.isKnown_iff_of_not_contains hnew).2 hgate
    have hregister := Catalog.register_of_isKnown hknown
    exact congrArg (Except.mapError BenchError.duplicateType) hregister
  · rename_i hgate
    have hknown : ¬c.isKnown r.type := mt (Catalog.isKnown_iff_of_not_contains hnew).1 hgate
    have hregister := Catalog.register_of_not_isKnown hknown
    exact ⟨c.extend r, congrArg (Except.mapError BenchError.duplicateType) hregister, r, rfl,
      hlimits, hknown, rfl⟩

/-- The catalog comes from registrations of these types, all of them accepted, with a pass each. -/
def Catalog.Registers (c : Catalog) (types : List String) (c' : Catalog) : Prop :=
  ∃ history, c' = c.offerAll history ∧ c.acceptedTypes history = types ∧
    ∀ r ∈ history, 0 < r.limits

theorem Bench.registerAll_cons_eq_bind (c : Catalog) (type : String) (entry : LibraryEntry)
    (rest : List (String × LibraryEntry)) :
    registerAll read base c ((type, entry) :: rest) =
      (entry.register read base c type).bind fun next => registerAll read base next rest := by
  rw [registerAll]
  cases entry.register read base c type <;> rfl

/-- **A library** whose entries pass their checks is registered as a whole, entry by entry. -/
theorem Bench.faultOr_registerAll {entries : List (String × LibraryEntry)}
    (hascending : entries.Pairwise (·.1 < ·.1)) (c : Catalog)
    (hnew : ∀ entry ∈ entries, ¬c.blocks.contains entry.1) :
    FaultOr (firstFault? read base (entries.flatMap fun entry => ofEntry entry.1 entry.2))
      (Catalog.Registers c (entries.map (·.1))) (registerAll read base c entries) := by
  induction entries generalizing c with
  | nil => exact ⟨c, rfl, [], rfl, rfl, fun r hr => absurd hr List.not_mem_nil⟩
  | cons first rest ih =>
      obtain ⟨type, entry⟩ := first
      rw [List.pairwise_cons] at hascending
      rw [List.forall_mem_cons] at hnew
      rw [List.flatMap_cons, firstFault?_append, registerAll_cons_eq_bind]
      refine (entry.faultOr_register read base hnew.1).bind fun next hnext => ?_
      obtain ⟨r, rfl, hlimits, hknown, rfl⟩ := hnext
      -- the types that are still to come are larger, so they are no more in the catalog than before
      have hnew' : ∀ entry ∈ rest, ¬(c.extend r).blocks.contains entry.1 := by
        intro later hlater hcontains
        rcases Catalog.contains_extend_iff.1 hcontains with heq | hcontains
        · exact String.lt_irrefl r.type (heq ▸ hascending.1 later hlater)
        · exact hnew.2 later hlater hcontains
      refine (ih hascending.2 (c.extend r) hnew').mono fun c' hc' => ?_
      obtain ⟨history, rfl, htypes, hpasses⟩ := hc'
      refine ⟨r :: history, (Catalog.offerAll_cons_of_not_isKnown hknown history).symm, ?_, ?_⟩
      · rw [Catalog.acceptedTypes_cons_of_not_isKnown hknown, htypes]
        rfl
      · exact List.forall_mem_cons.2 ⟨hlimits, hpasses⟩

theorem Bench.design_eq_bind (b : Bench) :
    b.design read base = (b.catalog read base).bind fun c =>
      (netlistOf read base b.name b.limits b.netlist).map fun n =>
        c.design b.name n b.limits := by
  rw [design]
  cases b.catalog read base with
  | error e => rfl
  | ok c =>
      dsimp only [Except.bind]
      rw [netlistOf]
      split
      · rfl
      · cases b.netlist.load read base b.name <;> rfl

/-- **The design of a bench** that passes its checks is built from the catalog of its library. -/
theorem Bench.faultOr_design (b : Bench) :
    FaultOr (firstFault? read base b.checks)
      (fun d => ∃ c n, (b.catalog read base = .ok c ∧
        Catalog.Registers (.ofPolicy b.policy) b.library.keys c) ∧ 0 < b.limits ∧
        d = c.design b.name n b.limits)
      (b.design read base) := by
  have hcatalog : FaultOr _ _ (b.catalog read base) :=
    faultOr_registerAll read base b.library.ascending (.ofPolicy b.policy)
      fun _ _ => Bool.false_ne_true
  rw [checks, firstFault?_append, design_eq_bind]
  refine hcatalog.self.bind fun c hc => ?_
  exact (faultOr_netlistOf read base b.name b.limits b.netlist).map fun n hlimits =>
    ⟨c, n, hc, hlimits, rfl⟩

end Build

/-! ### Blocks of a library -/

/-- A block that a library makes available as a type: it is called like the type, takes a pass, and
holds blocks of types with smaller names only, at any depth. -/
structure Design.IsEntry (type : String) (d : Design) : Prop where
  name : d.name = type
  passes : 1 ≤ d.limits
  smaller : ∀ e ∈ d.elements, ∀ name' type' block', e.Holds (.composite name' type' block') →
    type' < type

namespace Catalog.Registers

variable {policy : NorPolicy} {types : List String} {c : Catalog}

theorem contains_iff (h : Registers (.ofPolicy policy) types c) {type : String} :
    c.blocks.contains type ↔ type ∈ types := by
  obtain ⟨history, rfl, rfl, -⟩ := h
  rw [Catalog.contains_offerAll_iff]
  exact or_iff_right Bool.false_ne_true

theorem closed (h : Registers (.ofPolicy policy) types c) : c.Closed := by
  obtain ⟨history, rfl, -, -⟩ := h
  exact (Catalog.closed_ofPolicy policy).offerAll history

/-- **The blocks of a library** that is registered in ascending order. -/
theorem isEntry (h : Registers (.ofPolicy policy) types c) (hascending : types.Pairwise (· < ·))
    {type : String} {block : Design} (hblock : c.blocks.get? type = some block) :
    block.IsEntry type := by
  obtain ⟨history, rfl, rfl, hpasses⟩ := h
  have hbuilt : block.name = type ∧ 1 ≤ block.limits :=
    Catalog.blocks_offerAll (P := fun type block => block.name = type ∧ 1 ≤ block.limits)
      (fun r hr c => ⟨rfl, hpasses r hr⟩) (fun _ _ h => by cases h) type block hblock
  refine ⟨hbuilt.1, hbuilt.2, fun e he name' type' block' hheld => ?_⟩
  obtain ⟨before, after, htypes, hinside⟩ :=
    (Catalog.lists_ofPolicy policy).offerAll history type block hblock
  rw [List.nil_append] at htypes
  rw [htypes, List.pairwise_append] at hascending
  exact hascending.2.2 type' ((hinside e he).mem_of_holds hheld) type List.mem_cons_self

end Catalog.Registers

namespace LoadedBench

theorem ofBench_eq_ok_iff {read : FileReader} {base : String} {b : Bench} {l : LoadedBench} :
    ofBench read base b = .ok l ↔ ∃ d, b.design read base = .ok d ∧ l = ⟨b, .ofDesign d⟩ := by
  rw [ofBench]
  cases b.design read base with
  | error e => simp
  | ok d => simp [eq_comm]

/-- Building a bench ends with the first fault of its checks or, if there is none, with a block. -/
theorem faultOr_ofBench (read : FileReader) (base : String) (b : Bench) :
    Bench.FaultOr (Bench.Check.firstFault? read base b.checks) (fun _ => True)
      (ofBench read base b) := by
  have hmap : ofBench read base b = (b.design read base).map fun d => ⟨b, .ofDesign d⟩ := by
    rw [ofBench]
    cases b.design read base <;> rfl
  rw [hmap]
  exact (b.faultOr_design read base).map fun _ _ => trivial

/-- A bench can be built exactly if no check fails. -/
theorem exists_ofBench_eq_ok_iff {read : FileReader} {base : String} {b : Bench} :
    (∃ l, ofBench read base b = .ok l) ↔ ∀ check ∈ b.checks, check.fault? read base = none :=
  (faultOr_ofBench read base b).exists_ok_iff.trans List.findSome?_eq_none_iff

/-- **The outcome of building a bench.**  It is the first fault of the checks of the bench, and
there is a block exactly if no check fails.  The block is called like the bench and takes a pass.
At every depth the blocks inside it are as they should be for their types: they are called like
their type, take a pass, and hold blocks of types with smaller names only.  The same goes for every
entry of the library, whether it is used or not. -/
theorem building_outcome (read : FileReader) (base : String) (b : Bench) :
    (∀ e, ofBench read base b = .error e ↔ Bench.Check.firstFault? read base b.checks = some e) ∧
    ((∃ l, ofBench read base b = .ok l) ↔ ∀ check ∈ b.checks, check.fault? read base = none) ∧
    ∀ l, ofBench read base b = .ok l →
      l.bench = b ∧ l.block.design.name = b.name ∧ 1 ≤ l.block.design.limits ∧
      (∀ e ∈ l.block.design.elements, ∀ name type block, e.Holds (.composite name type block) →
        block.IsEntry type) ∧
      ∃ c, b.catalog read base = .ok c ∧
        (∀ type, c.blocks.contains type ↔ type ∈ b.library.keys) ∧
        ∀ type block, c.blocks.get? type = some block → block.IsEntry type := by
  refine ⟨fun e => (faultOr_ofBench read base b).eq_error_iff, exists_ofBench_eq_ok_iff,
    fun l hl => ?_⟩
  obtain ⟨d, hd, rfl⟩ := ofBench_eq_ok_iff.1 hl
  obtain ⟨c, n, ⟨hc, hregisters⟩, hlimits, rfl⟩ := (b.faultOr_design read base).of_ok hd
  have hentry : ∀ type block, c.blocks.get? type = some block → block.IsEntry type :=
    fun type block hblock => hregisters.isEntry (List.pairwise_map.2 b.library.ascending) hblock
  refine ⟨rfl, rfl, hlimits, fun e he name type block hheld => ?_, c, hc,
    fun type => hregisters.contains_iff, hentry⟩
  exact hentry type block (hregisters.closed.provides_of_mem_elementsOf he _ _ _ hheld)

end LoadedBench

namespace Stacked

/-- A block with a gate, and a model of its own type. -/
def inner : Netlist where
  models := [⟨"G", "AND"⟩, ⟨"I", "INNER"⟩]

/-- A block with a block inside. -/
def outer : Netlist where
  models := [⟨"I", "INNER"⟩]

/-- A block with a block inside, with a block inside. -/
def top : Netlist where
  models := [⟨"O", "OUTER"⟩]

/-- The bench: one text is in a file, the others are in the bench. -/
def bench : Bench where
  name := "top"
  netlist := .inline top.render
  library := .ofList [("OUTER", { netlist := .inline outer.render }),
    ("INNER", { netlist := .path "inner.net", limits := 1 })]

/-- The files: there is one. -/
def reader : FileReader :=
  fun path => if path = "nets/inner.net" then .ok inner.render else .error .notFound

/-- What is checked of the bench. -/
theorem checks_bench : bench.checks =
    [.passes "INNER" 1, .readable (.path "inner.net"), .wellFormed "INNER" (.path "inner.net"),
      .noGate "INNER", .passes "OUTER" 5, .readable (.inline outer.render),
      .wellFormed "OUTER" (.inline outer.render), .noGate "OUTER", .passes "top" 5,
      .readable (.inline top.render), .wellFormed "top" (.inline top.render)] :=
  rfl

theorem no_fault : ∀ check ∈ bench.checks, check.fault? reader "nets" = none := by
  have htext : ∀ n : Netlist, n.Writable → ∀ context,
      Bench.Check.textFault? context n.render = none := by
    intro n hn context
    rw [Bench.Check.textFault?, hn.parse_render]
  have hread : reader (Path.join "nets" "inner.net") = .ok inner.render := rfl
  rw [checks_bench]
  simp [Bench.Check.fault?, hread, htext inner (by decide), htext outer (by decide),
    htext top (by decide)]

end Stacked

/-- The bench is built, and the entry with a block inside is as it should be. -/
theorem LoadedBench.stacked_is_built :
    (∀ check ∈ Stacked.bench.checks, check.fault? Stacked.reader "nets" = none) ∧
      ∃ l, LoadedBench.ofBench Stacked.reader "nets" Stacked.bench = .ok l ∧
        l.block.design.name = "top" ∧
        ∃ c, Stacked.bench.catalog Stacked.reader "nets" = .ok c ∧ c.blocks.contains "OUTER" ∧
          ∀ block, c.blocks.get? "OUTER" = some block → block.IsEntry "OUTER" := by
  obtain ⟨-, hok, hbuilt⟩ := building_outcome Stacked.reader "nets" Stacked.bench
  obtain ⟨l, hl⟩ := hok.2 Stacked.no_fault
  obtain ⟨-, hname, -, -, c, hc, hcontains, hentry⟩ := hbuilt l hl
  exact ⟨Stacked.no_fault, l, hl, hname, c, hc, (hcontains "OUTER").2 (by decide),
    hentry "OUTER"⟩

/-- A text that cannot be read is found before the name of a gate kind, and both before what is
wrong with the block itself. -/
example : Bench.Check.firstFault? .none "nets" (Bench.checks
    { name := "top"
      limits := 0
      netlist := .inline ""
      library := .ofList [("AND", { netlist := .path "and.net" })] }) =
    some (.unreadable "nets/and.net" .notFound) :=
  rfl

/-! ### Benches in files -/

/-- The text at a path is the JSON form of the bench. -/
def Bench.IsAt (read : FileReader) (path : String) (b : Bench) : Prop :=
  ∃ text, read path = .ok text ∧ (Json.read? text).bind Bench.ofJson? = some b

/-- There is no text at a path, or one that is not that of a bench, or a bench. -/
theorem Bench.cases_at (read : FileReader) (path : String) :
    (∃ cause, read path = .error cause) ∨
      (∃ text, read path = .ok text ∧ (Json.read? text).bind Bench.ofJson? = none) ∨
      ∃ b : Bench, b.IsAt read path := by
  cases hread : read path with
  | error cause => exact .inl ⟨cause, rfl⟩
  | ok text =>
      cases hbench : (Json.read? text).bind Bench.ofJson? with
      | none => exact .inr (.inl ⟨text, rfl, hbench⟩)
      | some b => exact .inr (.inr ⟨b, text, hread, hbench⟩)

namespace LoadedBench

/-- **Why a path does not lead to a bench that runs**: there is no text to read, or the text is not
that of a bench, or a check of the bench fails, when paths are seen from the directory of the file.
The first check that fails counts. -/
inductive FaultAt (read : FileReader) (path : String) : BenchError → Prop
  | unreadable {cause : ReadError} (hread : read path = .error cause) :
      FaultAt read path (.unreadable path cause)
  | notABench {text : String} (hread : read path = .ok text)
      (hbench : (Json.read? text).bind Bench.ofJson? = none) : FaultAt read path (.notABench path)
  | check {b : Bench} {e : BenchError} (hbench : b.IsAt read path)
      (hfault : Bench.Check.firstFault? read (Path.parent path) b.checks = some e) :
      FaultAt read path e

variable {read : FileReader} {path : String}

theorem ofFile_of_unreadable {cause : ReadError} (hread : read path = .error cause) :
    ofFile read path = .error (.unreadable path cause) := by
  rw [ofFile, hread]

theorem ofFile_of_notABench {text : String} (hread : read path = .ok text)
    (hbench : (Json.read? text).bind Bench.ofJson? = none) :
    ofFile read path = .error (.notABench path) := by
  rw [ofFile, hread]
  simp only [Bench.read?, hbench]

/-- The bench at a path is built in the directory of its file. -/
theorem ofFile_of_isAt {b : Bench} (h : b.IsAt read path) :
    ofFile read path = ofBench read (Path.parent path) b := by
  obtain ⟨text, hread, hbench⟩ := h
  rw [ofFile, hread]
  simp only [Bench.read?, hbench]

/-- **Loading a file fails** exactly for the reasons that there are. -/
theorem ofFile_eq_error_iff {e : BenchError} :
    ofFile read path = .error e ↔ FaultAt read path e := by
  constructor
  · intro h
    rcases Bench.cases_at read path with ⟨cause, hread⟩ | ⟨text, hread, hbench⟩ | ⟨b, hbench⟩
    · rw [ofFile_of_unreadable hread] at h
      cases h
      exact .unreadable hread
    · rw [ofFile_of_notABench hread hbench] at h
      cases h
      exact .notABench hread hbench
    · rw [ofFile_of_isAt hbench] at h
      exact .check hbench ((faultOr_ofBench _ _ b).eq_error_iff.1 h)
  · intro h
    cases h with
    | unreadable hread => exact ofFile_of_unreadable hread
    | notABench hread hbench => exact ofFile_of_notABench hread hbench
    | check hbench hfault =>
        rw [ofFile_of_isAt hbench]
        exact (faultOr_ofBench _ _ _).eq_error_iff.2 hfault

/-- **Loading a file gives a bench** exactly if there is one that passes its checks. -/
theorem exists_ofFile_eq_ok_iff :
    (∃ l, ofFile read path = .ok l) ↔
      ∃ b : Bench, b.IsAt read path ∧
        ∀ check ∈ b.checks, check.fault? read (Path.parent path) = none := by
  constructor
  · rintro ⟨l, hl⟩
    rcases Bench.cases_at read path with ⟨cause, hread⟩ | ⟨text, hread, hbench⟩ | ⟨b, hbench⟩
    · rw [ofFile_of_unreadable hread] at hl
      cases hl
    · rw [ofFile_of_notABench hread hbench] at hl
      cases hl
    · rw [ofFile_of_isAt hbench] at hl
      exact ⟨b, hbench, exists_ofBench_eq_ok_iff.1 ⟨l, hl⟩⟩
  · rintro ⟨b, hbench, hchecks⟩
    rw [ofFile_of_isAt hbench]
    exact exists_ofBench_eq_ok_iff.2 hchecks

end LoadedBench

end LogicBlock
