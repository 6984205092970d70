/-
**One element for each name.**

A netlist may give several models one name, and it may name types that nobody knows.  The block that
is built from it has one element for each name all the same: every name has a slot, which it is
given by the first model of known type that has the name, and each further one puts its own element
into that slot.  So the order of the slots comes from the first models and what is in them from the
last ones.  A model of unknown type neither takes a slot nor clears one.

That the names are distinct keeps the pins apart.  A pin id can be read in one way only, whatever
the names are: the owner stands before its last dot.  Hence no element writes what another one reads
or writes, and this is what the settling of a block rests on.

Main definitions:

* `Element.Apart` — two elements of which neither writes a pin of the other.

Main results:

* `Element.map_name_placeAll`, `Element.mem_placeAll_iff` — **the order is that of the first
  occurrences, the content that of the last ones**;
* `Catalog.mem_elementsOf_iff`, `Catalog.elementsOf_remove` — which models have their element in a
  block, and which might as well be missing;
* `Catalog.one_element_for_each_name` — the elements of a block, all in all.
-/

import LogicBlock.Proofs.Elements
import Mathlib.Data.List.Induction
import Mathlib.Data.List.Nodup

set_option relaxedAutoImplicit false
set_option autoImplicit false

namespace LogicBlock

/-! ### Slots -/

/-- A name at the end of a list counts if it has not come before. -/
theorem eraseDups_concat (l : List String) (a : String) :
    (l ++ [a]).eraseDups = if a ∈ l then l.eraseDups else l.eraseDups ++ [a] := by
  rw [List.eraseDups_append]
  by_cases ha : a ∈ l <;> simp [List.removeAll, ha, List.eraseDups_cons]

namespace Element

theorem mem_place_self (e : Element) (l : List Element) : e ∈ e.place l := by
  induction l with
  | nil => simp [place]
  | cons other rest ih =>
      rw [place]
      split
      · exact List.mem_cons_self
      · exact List.mem_cons_of_mem _ ih

/-- An element stays where it is when one of another name is placed. -/
theorem mem_place_of_name_ne {e x : Element} {l : List Element} (hx : x ∈ l)
    (hne : x.name ≠ e.name) : x ∈ e.place l := by
  induction l with
  | nil => cases hx
  | cons other rest ih =>
      rw [place]
      rcases List.mem_cons.1 hx with rfl | hx
      · rw [if_neg hne]
        exact List.mem_cons_self
      · split
        · exact List.mem_cons_of_mem _ hx
        · exact List.mem_cons_of_mem _ (ih hx)

/-- No other element keeps the name of one that is placed. -/
theorem eq_of_mem_place {e x : Element} {l : List Element} (h : (l.map name).Nodup)
    (hx : x ∈ e.place l) (hname : x.name = e.name) : x = e := by
  have hnodup := nodup_names_place (e := e) h
  exact List.inj_on_of_nodup_map hnodup hx (mem_place_self e l) hname

/-- **Placing an element drives out the one that has its name**, and no other. -/
theorem mem_place_iff {e x : Element} {l : List Element} (h : (l.map name).Nodup) :
    x ∈ e.place l ↔ x = e ∨ (x ∈ l ∧ x.name ≠ e.name) := by
  constructor
  · intro hx
    by_cases hname : x.name = e.name
    · exact .inl (eq_of_mem_place h hx hname)
    · rcases mem_or_eq_of_mem_place hx with rfl | hx
      · exact .inl rfl
      · exact .inr ⟨hx, hname⟩
  · rintro (rfl | ⟨hx, hname⟩)
    · exact mem_place_self x l
    · exact mem_place_of_name_ne hx hname

theorem placeAll_concat (l : List Element) (e : Element) :
    placeAll [] (l ++ [e]) = e.place (placeAll [] l) :=
  List.foldl_append

/-- **The slots stand in the order in which their names first occur.** -/
theorem map_name_placeAll (l : List Element) :
    (placeAll [] l).map name = (l.map name).eraseDups := by
  induction l using List.reverseRecOn with
  | nil => rfl
  | append_singleton l e ih =>
      have hslot : e.name ∈ (placeAll [] l).map name ↔ e.name ∈ l.map name := by
        rw [ih, List.mem_eraseDups]
      rw [placeAll_concat, List.map_append, List.map_singleton, eraseDups_concat, ← ih]
      split
      · rename_i he
        exact map_name_place_of_mem (hslot.2 he)
      · rename_i he
        rw [place_of_notMem (fun h => he (hslot.1 h)), List.map_append, List.map_singleton]

/-- **In a slot is the last element of its name.** -/
theorem mem_placeAll_iff {l : List Element} {x : Element} :
    x ∈ placeAll [] l ↔ ∃ before after, l = before ++ x :: after ∧ x.name ∉ after.map name := by
  induction l using List.reverseRecOn with
  | nil => simp [placeAll]
  | append_singleton l e ih =>
      rw [placeAll_concat, mem_place_iff (@nodup_names_placeAll [] List.nodup_nil l), ih]
      constructor
      · rintro (rfl | ⟨⟨before, after, rfl, hlast⟩, hne⟩)
        · exact ⟨l, [], rfl, by simp⟩
        · refine ⟨before, after ++ [e], by simp, ?_⟩
          rw [List.map_append, List.mem_append, not_or]
          exact ⟨hlast, by simpa using hne⟩
      · rintro ⟨before, after, hsplit, hlast⟩
        -- the last element is either the one in question or one of those behind it
        cases after using List.reverseRecOn with
        | nil =>
            have heq := (List.append_inj' hsplit rfl).2
            exact .inl (List.singleton_inj.1 heq).symm
        | append_singleton after e' =>
            rw [← List.cons_append, ← List.append_assoc] at hsplit
            obtain ⟨hl, he⟩ := List.append_inj' hsplit rfl
            obtain rfl := List.singleton_inj.1 he
            rw [List.map_append, List.mem_append, not_or] at hlast
            exact .inr ⟨⟨before, after, hl, hlast.1⟩, by simpa using hlast.2⟩

/-! ### Pins that are kept apart -/

/-- Neither of two elements writes a pin that the other one writes or reads. -/
structure Apart (e e' : Element) : Prop where
  outputs : e.outputPins.Disjoint e'.outputPins
  inputs : e.outputPins.Disjoint e'.inputPins
  inputs' : e'.outputPins.Disjoint e.inputPins

theorem apart_of_name_ne {e e' : Element} (h : e.name ≠ e'.name) : e.Apart e' where
  outputs _ hpin := notMem_outputPins_of_name_ne h hpin
  inputs _ hpin := notMem_inputPins_of_name_ne h hpin
  inputs' _ hpin := notMem_inputPins_of_name_ne (Ne.symm h) hpin

end Element

namespace Catalog

/-! ### The models behind the elements -/

/-- **Which models have their element in a block**: those that are the last ones of known type with
their name. -/
theorem mem_elementsOf_iff {c : Catalog} {models : List Model} {e : Element} :
    e ∈ c.elementsOf models ↔ ∃ before m after, models = before ++ m :: after ∧
      c.create? m = some e ∧ ∀ later ∈ after, c.isKnown later.type → later.name ≠ m.name := by
  rw [elementsOf_eq_placeAll, Element.mem_placeAll_iff]
  constructor
  · rintro ⟨first, last, hsplit, hlast⟩
    obtain ⟨before₁, rest, rfl, -, hrest⟩ := List.filterMap_eq_append_iff.1 hsplit
    obtain ⟨before₂, m, after, rfl, -, hm, rfl⟩ := List.filterMap_eq_cons_iff.1 hrest
    refine ⟨before₁ ++ before₂, m, after, by simp, hm, fun later hlater hknown hname => hlast ?_⟩
    rw [← c.isSome_create?] at hknown
    rw [map_name_filterMap_create?, (name_type_of_create? hm).1, ← hname]
    exact List.mem_map_of_mem (List.mem_filter.2 ⟨hlater, hknown⟩)
  · rintro ⟨before, m, after, rfl, hm, hlast⟩
    refine ⟨before.filterMap c.create?, after.filterMap c.create?, ?_, fun hname => ?_⟩
    · rw [List.filterMap_append, List.filterMap_cons_some hm]
    · rw [map_name_filterMap_create?, (name_type_of_create? hm).1] at hname
      obtain ⟨later, hlater, heq⟩ := List.mem_map.1 hname
      obtain ⟨hmem, hsome⟩ := List.mem_filter.1 hlater
      exact hlast later hmem (by rwa [← c.isSome_create?]) heq

/-- **A model of unknown type might as well be missing**, wherever it stands and whatever its name
is. -/
theorem elementsOf_remove {c : Catalog} {m : Model} (hm : ¬c.isKnown m.type)
    (before after : List Model) :
    c.elementsOf (before ++ m :: after) = c.elementsOf (before ++ after) := by
  rw [← c.isSome_create?, Option.not_isSome_iff_eq_none] at hm
  rw [elementsOf_eq_placeAll, elementsOf_eq_placeAll, List.filterMap_append, List.filterMap_append,
    List.filterMap_cons_none hm]

/-- **A block has one element for each name.**  Its elements have distinct names, in the order in
which the names first occur among the models of known type; each of them is the element of the last
such model of its name, and a model of unknown type displaces nothing; and none of them writes a pin
that another one writes or reads. -/
theorem one_element_for_each_name (c : Catalog) (name : String) (n : Netlist) (limits : Nat) :
    let elements := (c.design name n limits).elements
    (elements.map Element.name).Nodup ∧
      elements.map Element.name =
        ((n.models.filter fun m => c.isKnown m.type).map Model.name).eraseDups ∧
      (∀ e, e ∈ elements ↔ ∃ before m after, n.models = before ++ m :: after ∧
        c.create? m = some e ∧ ∀ later ∈ after, c.isKnown later.type → later.name ≠ m.name) ∧
      (∀ before m after, n.models = before ++ m :: after → ¬c.isKnown m.type →
        (c.design name { n with models := before ++ after } limits).elements = elements) ∧
      elements.Pairwise Element.Apart := by
  intro elements
  have hnodup : (elements.map Element.name).Nodup := c.nodup_names_elementsOf n.models
  refine ⟨hnodup, ?_, fun e => mem_elementsOf_iff, fun before m after hmodels hm => ?_, ?_⟩
  · have hslots := Element.map_name_placeAll (n.models.filterMap c.create?)
    rw [map_name_filterMap_create?] at hslots
    simp only [isSome_create?] at hslots
    exact hslots
  · have hremove := elementsOf_remove hm before after
    rw [← hmodels] at hremove
    exact hremove.symm
  · have hnames : elements.Pairwise fun e e' => e.name ≠ e'.name := List.pairwise_map.1 hnodup
    exact hnames.imp Element.apart_of_name_ne

/-- The slot of a repeated name stays in front, with the last gate in it. -/
example :
    (basic.elementsOf [⟨"A", "AND"⟩, ⟨".", "OR"⟩, ⟨"A", "XOR"⟩, ⟨"A", "NAND"⟩, ⟨"", "NOR"⟩]).map
        (fun e => (e.name, e.type)) = [("A", "XOR"), (".", "OR"), ("", "NOR")] := by
  decide

end Catalog

end LogicBlock
