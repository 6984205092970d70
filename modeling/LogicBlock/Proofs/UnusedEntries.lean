/-
**Unused library entries are inert.**

The entries of a library are built one after the other, and each block is built with the types known
so far.  An entry whose type no model has, neither in the other entries nor in the block itself, can
be left out: everything else is built as before, with the same reports on its wiring.

A catalog matters to a netlist through the elements that it makes for the models.  Two catalogs that
differ in one type make the same elements for a netlist that does not mention this type.  So, while
the library is registered with the entry and without it, the two catalogs differ in the type of the
entry at most, and nothing else that is registered notices.

Main definitions:

* `Netlist.Mentions` — a model of the netlist has the type;
* `Catalog.without`, `Bench.without` — without a type, and without the entry for it;
* `Bench.IsUnused` — nothing but the entry itself mentions its type;
* `Bench.reports` — the wiring reports of a library, each for the types known at the time.

Main results:

* `Catalog.design_without`, `Wiring.ofNetlist_without` — **a type that is not mentioned does not
  matter**;
* `LibraryEntry.register_without` — registering an entry commutes with leaving out another type;
* `Bench.registerAll_without`, `Bench.reports_without` — and so does registering a library;
* `LoadedBench.unused_entry_is_inert` — **an unused entry is inert**.
-/

import LogicBlock.Proofs.Building
import LogicBlock.Proofs.Embedding
import LogicBlock.Wiring

set_option relaxedAutoImplicit false
set_option autoImplicit false

namespace LogicBlock

/-! ### Types that are not mentioned -/

/-- A model of the netlist has the type. -/
def Netlist.Mentions (n : Netlist) (type : String) : Prop :=
  ∃ m ∈ n.models, m.type = type

instance (n : Netlist) (type : String) : Decidable (n.Mentions type) :=
  inferInstanceAs (Decidable (∃ m ∈ n.models, m.type = type))

/-- **A catalog matters to the report of a netlist** through the elements of its models only. -/
theorem Wiring.ofNetlist_congr {c c' : Catalog} {n : Netlist}
    (h : ∀ m ∈ n.models, c'.create? m = c.create? m) : ofNetlist c' n = ofNetlist c n := by
  have helements : n.modelElements c' = n.modelElements c := List.filterMap_congr h
  have hunknown : n.unknownTypes c' = n.unknownTypes c := by
    rw [Netlist.unknownTypes, Netlist.unknownTypes, List.filter_congr fun m hm => by rw [h m hm]]
  have hdriven : n.drivenPins c' = n.drivenPins c := by
    rw [Netlist.drivenPins, Netlist.drivenPins, Netlist.driverPins, Netlist.driverPins, helements]
  have hread : n.readPins c' = n.readPins c := by
    rw [Netlist.readPins, Netlist.readPins, helements]
  rw [ofNetlist, ofNetlist, Netlist.warnings, Netlist.warnings, Netlist.undrivenPins,
    Netlist.undrivenPins, Netlist.unconnectedOutputs, Netlist.unconnectedOutputs, hunknown, hdriven,
    hread]

namespace Catalog

/-- The catalog without a block type. -/
def without (c : Catalog) (type : String) : Catalog :=
  { c with blocks := c.blocks.restrict (· ≠ type) }

variable {c : Catalog} {r : Registration} {type other : String} {n : Netlist}

theorem create?_without {m : Model} (h : m.type ≠ type) :
    (c.without type).create? m = c.create? m := by
  rw [create?, create?, without, NameMap.get?_restrict, if_pos (decide_eq_true h)]

theorem isKnown_without (h : other ≠ type) : (c.without type).isKnown other = c.isKnown other := by
  rw [isKnown, isKnown, without, NameMap.contains, NameMap.get?_restrict,
    if_pos (decide_eq_true h), NameMap.contains]

theorem create?_without_of_not_mentions (h : ¬n.Mentions type) :
    ∀ m ∈ n.models, (c.without type).create? m = c.create? m :=
  fun m hm => create?_without fun htype => h ⟨m, hm, htype⟩

/-- **A type that is not mentioned** does not matter to the block of a netlist. -/
theorem design_without (h : ¬n.Mentions type) (name : String) (limits : Nat) :
    (c.without type).design name n limits = c.design name n limits := by
  rw [design, design, elementsOf, elementsOf,
    List.filterMap_congr (create?_without_of_not_mentions h)]

theorem without_extend_self (c : Catalog) (r : Registration) :
    (c.extend r).without r.type = c.without r.type := by
  rw [without, extend, NameMap.restrict_insert_of_neg (by simp), without]

theorem without_extend (hne : r.type ≠ type) (h : ¬r.netlist.Mentions type) :
    (c.extend r).without type = (c.without type).extend r := by
  rw [extend, extend, design_without h, without,
    NameMap.restrict_insert_of_pos (decide_eq_true hne)]
  rfl

end Catalog

theorem Wiring.ofNetlist_without {n : Netlist} {type : String} (h : ¬n.Mentions type)
    (c : Catalog) : ofNetlist (c.without type) n = ofNetlist c n :=
  ofNetlist_congr (Catalog.create?_without_of_not_mentions h)

/-! ### Libraries without an entry -/

section Libraries

variable {read : FileReader} {base : String} {c next : Catalog} {type other : String}

theorem LibraryEntry.register_eq_ok_iff {entry : LibraryEntry} :
    entry.register read base c type = .ok next ↔
      entry.limits ≠ 0 ∧ ∃ n, entry.netlist.load read base type = .ok n ∧ ¬c.isKnown type ∧
        next = c.extend ⟨type, n, entry.limits⟩ := by
  rw [register]
  by_cases hlimits : entry.limits = 0
  · simp [hlimits]
  · rw [if_neg hlimits]
    cases entry.netlist.load read base type with
    | error e => simp
    | ok n =>
        by_cases hknown : c.isKnown type
        · have hregister := Catalog.register_of_isKnown (r := ⟨type, n, entry.limits⟩) hknown
          simp [hregister, hknown]
        · have hregister := Catalog.register_of_not_isKnown (r := ⟨type, n, entry.limits⟩) hknown
          simp [hregister, hknown, hlimits, eq_comm]

/-- The source, if it can be loaded for a block of this name, does not mention the type. -/
def NetlistSource.Avoids (read : FileReader) (base context type : String)
    (source : NetlistSource) : Prop :=
  ∀ n, source.load read base context = .ok n → ¬n.Mentions type

/-- **Registering an entry** is the same without a type that it does not mention. -/
theorem LibraryEntry.register_without {entry : LibraryEntry} (hne : other ≠ type)
    (havoids : entry.netlist.Avoids read base other type)
    (h : entry.register read base c other = .ok next) :
    entry.register read base (c.without type) other = .ok (next.without type) := by
  obtain ⟨hlimits, n, hload, hknown, rfl⟩ := register_eq_ok_iff.1 h
  refine register_eq_ok_iff.2 ⟨hlimits, n, hload, ?_, ?_⟩
  · rw [Catalog.isKnown_without hne]
    exact hknown
  · exact Catalog.without_extend hne (havoids n hload)

/-- Without the type of an entry it makes no difference that the entry is registered. -/
theorem LibraryEntry.without_of_register {entry : LibraryEntry}
    (h : entry.register read base c type = .ok next) : next.without type = c.without type := by
  obtain ⟨-, n, -, -, rfl⟩ := register_eq_ok_iff.1 h
  exact c.without_extend_self ⟨type, n, entry.limits⟩

namespace Bench

/-- The wiring reports of library entries that are registered one after the other, each for the
types known at the time. -/
def reports (read : FileReader) (base : String) (c : Catalog) :
    List (String × LibraryEntry) → List (String × Wiring)
  | [] => []
  | (type, entry) :: rest =>
    match entry.netlist.load read base type, entry.register read base c type with
    | .ok n, .ok next => (type, .ofNetlist c n) :: reports read base next rest
    | _, _ => []

variable {entries : List (String × LibraryEntry)} {last : Catalog}

theorem reports_cons {entry : LibraryEntry} {n : Netlist}
    (hload : entry.netlist.load read base type = .ok n)
    (hnext : entry.register read base c type = .ok next) :
    reports read base c ((type, entry) :: entries) =
      (type, .ofNetlist c n) :: reports read base next entries := by
  rw [reports, hload, hnext]

theorem registerAll_cons {entry : LibraryEntry}
    (hnext : entry.register read base c type = .ok next) :
    registerAll read base c ((type, entry) :: entries) = registerAll read base next entries := by
  rw [registerAll, hnext]

/-- **Registering a library** is the same without an entry that the others do not mention: what is
built differs in the type of the entry at most, and the reports of the others stay the same. -/
theorem registerAll_without
    (havoids : ∀ e ∈ entries, e.1 ≠ type → e.2.netlist.Avoids read base e.1 type)
    (h : registerAll read base c entries = .ok last) :
    registerAll read base (c.without type) (entries.filter (·.1 ≠ type)) =
        .ok (last.without type) ∧
      reports read base (c.without type) (entries.filter (·.1 ≠ type)) =
        (reports read base c entries).filter (·.1 ≠ type) := by
  induction entries generalizing c with
  | nil =>
      cases h
      exact ⟨rfl, rfl⟩
  | cons first rest ih =>
      obtain ⟨other, entry⟩ := first
      rw [List.forall_mem_cons] at havoids
      rw [registerAll_cons_eq_bind] at h
      obtain ⟨next, hnext, hrest⟩ := exists_of_bind_eq_ok h
      obtain ⟨n, hload⟩ : ∃ n, entry.netlist.load read base other = .ok n := by
        obtain ⟨-, n, hload, -⟩ := LibraryEntry.register_eq_ok_iff.1 hnext
        exact ⟨n, hload⟩
      obtain ⟨hlast, hreports⟩ := ih havoids.2 hrest
      rw [reports_cons hload hnext]
      by_cases hother : other = type
      · -- this is the entry that is left out
        subst hother
        rw [List.filter_cons_of_neg (by simp), List.filter_cons_of_neg (by simp),
          ← LibraryEntry.without_of_register hnext]
        exact ⟨hlast, hreports⟩
      · have hregister := LibraryEntry.register_without hother (havoids.1 hother) hnext
        have hwiring := Wiring.ofNetlist_without (havoids.1 hother n hload) c
        rw [List.filter_cons_of_pos (by simpa using hother),
          List.filter_cons_of_pos (by simpa using hother), registerAll_cons hregister,
          reports_cons hload hregister, hwiring, hreports]
        exact ⟨hlast, rfl⟩

end Bench

end Libraries

/-! ### Benches without an entry -/

namespace Bench

/-- The bench without the library entry for a type. -/
def without (b : Bench) (type : String) : Bench :=
  { b with library := b.library.restrict (· ≠ type) }

/-- The type is mentioned neither by the block of the bench nor by any library entry but the one
for the type itself. -/
structure IsUnused (read : FileReader) (base : String) (b : Bench) (type : String) : Prop where
  block : b.netlist.Avoids read base b.name type
  library : ∀ e ∈ b.library.entries, e.1 ≠ type → e.2.netlist.Avoids read base e.1 type

variable {read : FileReader} {base : String} {b : Bench} {type : String} {c : Catalog}

theorem IsUnused.catalog_without (h : b.IsUnused read base type)
    (hc : b.catalog read base = .ok c) :
    (b.without type).catalog read base = .ok (c.without type) :=
  (registerAll_without h.library hc).1

theorem IsUnused.reports_without (h : b.IsUnused read base type)
    (hc : b.catalog read base = .ok c) :
    reports read base (.ofPolicy b.policy) (b.without type).library.entries =
      (reports read base (.ofPolicy b.policy) b.library.entries).filter (·.1 ≠ type) :=
  (registerAll_without h.library hc).2

theorem design_eq_ok_iff {d : Design} :
    b.design read base = .ok d ↔
      ∃ c n, b.catalog read base = .ok c ∧ b.limits ≠ 0 ∧
        b.netlist.load read base b.name = .ok n ∧ d = c.design b.name n b.limits := by
  rw [design]
  cases b.catalog read base with
  | error e => simp
  | ok c =>
      by_cases hlimits : b.limits = 0
      · simp [hlimits]
      · cases b.netlist.load read base b.name <;> simp [hlimits, eq_comm]

end Bench

namespace LoadedBench

theorem vectors_use (l : LoadedBench) (u : Use) : (l.use u).2.bench.vectors = l.bench.vectors := by
  cases u with
  | run => rfl
  | reset => rfl

/-- **What a use of a bench leads to** depends on its block and on its vectors only. -/
theorem use_congr {l l' : LoadedBench} (hblock : l'.block = l.block)
    (hvectors : l'.bench.vectors = l.bench.vectors) (u : Use) :
    (l'.use u).1 = (l.use u).1 ∧ (l'.use u).2.block = (l.use u).2.block := by
  cases u with
  | run => simp only [use, run, hblock, hvectors, and_self]
  | reset => simp only [use, reset, hblock, and_self]

theorem useAll_congr {l l' : LoadedBench} (hblock : l'.block = l.block)
    (hvectors : l'.bench.vectors = l.bench.vectors) (uses : List Use) :
    (l'.useAll uses).1 = (l.useAll uses).1 ∧
      (l'.useAll uses).2.block = (l.useAll uses).2.block := by
  induction uses generalizing l l' with
  | nil => exact ⟨rfl, hblock⟩
  | cons u rest ih =>
      obtain ⟨houtcomes, hnext⟩ := use_congr hblock hvectors u
      have hsame : (l'.use u).2.bench.vectors = (l.use u).2.bench.vectors := by
        rw [vectors_use, vectors_use, hvectors]
      obtain ⟨hall, hlast⟩ := ih hnext hsame
      rw [useAll_cons, useAll_cons, houtcomes, hall]
      exact ⟨rfl, hlast⟩

/-- **An unused entry is inert.**  If a bench is built, and the type of a library entry is mentioned
neither by the block nor by another entry, then the bench is built without this entry as well.  The
block has the same design, with all that is nested in it, and the same tables at every level.  The
wiring of the block and of every other entry is reported as before, each for the types known at its
time.  And any uses of the two benches have the same outcomes and leave the same block. -/
theorem unused_entry_is_inert (read : FileReader) (base : String) (b : Bench) (l : LoadedBench)
    (type : String) (hl : ofBench read base b = .ok l) (hunused : b.IsUnused read base type) :
    ∃ l', ofBench read base (b.without type) = .ok l' ∧ l'.bench = b.without type ∧
      l'.block.design = l.block.design ∧ l'.block.state = l.block.state ∧
      (∃ c c', b.catalog read base = .ok c ∧ (b.without type).catalog read base = .ok c' ∧
        Wiring.ofNetlist c' l'.block.design.netlist =
          Wiring.ofNetlist c l.block.design.netlist) ∧
      Bench.reports read base (.ofPolicy b.policy) (b.without type).library.entries =
        (Bench.reports read base (.ofPolicy b.policy) b.library.entries).filter (·.1 ≠ type) ∧
      ∀ uses, (l'.useAll uses).1 = (l.useAll uses).1 ∧
        (l'.useAll uses).2.block = (l.useAll uses).2.block := by
  obtain ⟨d, hd, rfl⟩ := ofBench_eq_ok_iff.1 hl
  obtain ⟨c, n, hc, hlimits, hload, rfl⟩ := Bench.design_eq_ok_iff.1 hd
  have hwithout : (c.without type).design b.name n b.limits = c.design b.name n b.limits :=
    Catalog.design_without (hunused.block n hload) b.name b.limits
  have hdesign : (b.without type).design read base = .ok (c.design b.name n b.limits) :=
    Bench.design_eq_ok_iff.2
      ⟨c.without type, n, hunused.catalog_without hc, hlimits, hload, hwithout.symm⟩
  refine ⟨_, ofBench_eq_ok_iff.2 ⟨_, hdesign, rfl⟩, rfl, rfl, rfl, ?_, ?_, ?_⟩
  · exact ⟨c, c.without type, hc, hunused.catalog_without hc,
      Wiring.ofNetlist_without (hunused.block n hload) c⟩
  · exact hunused.reports_without hc
  · exact useAll_congr rfl rfl

end LoadedBench

namespace Spare

/-- A block that mentions the type before its own, its own type, and the one after it. -/
def netlist : Netlist where
  models := [⟨"I", "INNER"⟩, ⟨"M", "MIDDLE"⟩, ⟨"O", "OUTER"⟩]

/-- A bench whose library has this block in the middle. -/
def bench : Bench :=
  { Stacked.bench with
    library := Stacked.bench.library.insert "MIDDLE" { netlist := .inline netlist.render }
    vectors := [{ inputs := .ofList [("O.UP", .high)] }] }

theorem isOk_ofBench : (LoadedBench.ofBench Stacked.reader "nets" bench).isOk := by
  decide +kernel

theorem avoids_of_render {n : Netlist} {source : NetlistSource} {context : String}
    (htext : source.text Stacked.reader "nets" = .ok n.render) (hn : n.Writable)
    (h : ¬n.Mentions "MIDDLE") : source.Avoids Stacked.reader "nets" context "MIDDLE" := by
  intro loaded hload
  rw [NetlistSource.load, htext] at hload
  simp only [hn.parse_render] at hload
  cases hload
  exact h

theorem isUnused : bench.IsUnused Stacked.reader "nets" "MIDDLE" where
  block := avoids_of_render rfl (by decide : Stacked.top.Writable) (by decide)
  library := by
    have hentries : bench.library.entries =
        [("INNER", { netlist := .path "inner.net", limits := 1 }),
          ("MIDDLE", { netlist := .inline netlist.render }),
          ("OUTER", { netlist := .inline Stacked.outer.render })] := rfl
    rw [hentries]
    simp only [List.forall_mem_cons]
    refine ⟨fun _ => ?_, fun h => absurd rfl h, fun _ => ?_, nofun⟩
    · exact avoids_of_render rfl (by decide : Stacked.inner.Writable) (by decide)
    · exact avoids_of_render rfl (by decide : Stacked.outer.Writable) (by decide)

end Spare

/-- The block in the middle of the library can be left out. -/
theorem LoadedBench.spare_block_is_inert :
    Spare.bench.library.contains "MIDDLE" ∧
      Spare.bench.IsUnused Stacked.reader "nets" "MIDDLE" ∧
      ∃ l l', ofBench Stacked.reader "nets" Spare.bench = .ok l ∧
        ofBench Stacked.reader "nets" (Spare.bench.without "MIDDLE") = .ok l' ∧
        l'.block.design = l.block.design ∧
        (l'.useAll [.run, .reset, .run]).1 = (l.useAll [.run, .reset, .run]).1 := by
  refine ⟨by decide, Spare.isUnused, ?_⟩
  cases hl : ofBench Stacked.reader "nets" Spare.bench with
  | error e =>
      have hok := Spare.isOk_ofBench
      rw [hl] at hok
      cases hok
  | ok l =>
      obtain ⟨l', hl', -, hdesign, -, -, -, huses⟩ :=
        unused_entry_is_inert Stacked.reader "nets" Spare.bench l "MIDDLE" hl Spare.isUnused
      exact ⟨l, l', rfl, hl', hdesign, (huses _).1⟩

end LogicBlock
