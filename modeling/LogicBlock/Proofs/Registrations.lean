/-
**The history of a catalog.**

A catalog grows by registrations, some of which are refused.  It is refused to register a name that
is known already, be it the name of a gate kind or of an earlier block type, and a refusal leaves no
trace.  A registration that is accepted builds a block with the types known at the time, and what is
built is never touched again: whatever is registered later, a model of known type gets the same
element.

So the accepted types stand in a list, and the nested blocks in a block of one of them, at any
depth, are of types that stand before it.  No type contains itself, a model that names its own type
or a later one has no element, and blocks are nested no deeper than there are types.

Main definitions:

* `Catalog.Accepts`, `Catalog.accepted` — which registrations are accepted, one and in a row;
* `Element.Holds` — an element stands inside another one, at some depth;
* `Element.Founded` — all nested blocks at any depth are of types that come early enough in a list;
* `Element.depth` — how deep blocks are nested in an element;
* `Catalog.Lists` — a list has the types of a catalog in the order of their registration;
* `Catalog.Closed` — what stands in the blocks of a catalog is in the catalog as well.

Main results:

* `Catalog.history_induction`, `Catalog.offerAll_induction` — **the induction over a history**;
* `Catalog.isKnown_offerAll_iff` — the types known after it;
* `Catalog.create?_offerAll_of_isKnown` — **known types never change**;
* `Catalog.not_isKnown_of_accepts` — **no block refers forward**, nor to itself;
* `Catalog.Lists.offerAll` — **every type is founded on those accepted before**;
* `Element.Founded.of_holds`, `Element.Founded.depth_le` — what this says of every depth;
* `Catalog.Closed.offerAll`, `Catalog.blocks_offerAll` — **the blocks of a catalog** hold blocks of
  the catalog, and have what every registration hands on;
* `Catalog.registration_history` — all of it, for the catalog after any history.
-/

import LogicBlock.Proofs.Nesting

set_option relaxedAutoImplicit false
set_option autoImplicit false

namespace LogicBlock

namespace Catalog

/-! ### Accepted and refused -/

/-- The registration succeeds. -/
def Accepts (c : Catalog) (r : Registration) : Prop :=
  ∃ c', c.register r.type r.netlist r.limits = .ok c'

/-- The registrations that are accepted when they are made one after the other, in this order. -/
def accepted (c : Catalog) : List Registration → List Registration
  | [] => []
  | r :: rest =>
    match c.register r.type r.netlist r.limits with
    | .ok c' => r :: c'.accepted rest
    | .error _ => c.accepted rest

/-- The types that are accepted, in the order of their registration. -/
def acceptedTypes (c : Catalog) (history : List Registration) : List String :=
  (c.accepted history).map Registration.type

variable {c : Catalog} {r : Registration}

/-- The catalog with one more block type. -/
def extend (c : Catalog) (r : Registration) : Catalog :=
  { c with blocks := c.blocks.insert r.type (c.design r.type r.netlist r.limits) }

theorem register_of_isKnown (h : c.isKnown r.type) :
    c.register r.type r.netlist r.limits = .error ⟨r.type⟩ := by
  rw [register, if_pos h]

theorem register_of_not_isKnown (h : ¬c.isKnown r.type) :
    c.register r.type r.netlist r.limits = .ok (c.extend r) := by
  rw [register, if_neg h]
  rfl

/-- **A known type is refused** with an error that names it. -/
theorem register_eq_error_iff :
    c.register r.type r.netlist r.limits = .error ⟨r.type⟩ ↔ c.isKnown r.type := by
  by_cases h : c.isKnown r.type
  · simp [register_of_isKnown h, h]
  · simp [register_of_not_isKnown h, h]

/-- **Any other type is accepted**. -/
theorem accepts_iff : c.Accepts r ↔ ¬c.isKnown r.type := by
  rw [Accepts]
  by_cases h : c.isKnown r.type
  · simp [register_of_isKnown h, h]
  · simp [register_of_not_isKnown h, h]

theorem offer_of_isKnown (h : c.isKnown r.type) : c.offer r = c := by
  rw [offer, register_of_isKnown h]

theorem offer_of_not_isKnown (h : ¬c.isKnown r.type) : c.offer r = c.extend r := by
  rw [offer, register_of_not_isKnown h]

/-- **The induction over a history**: the first registration is refused and forgotten, or it is
accepted and extends the catalog. -/
theorem history_induction {P : Catalog → List Registration → Prop} (nil : ∀ c, P c [])
    (refused : ∀ (c : Catalog) r rest, c.isKnown r.type → P c rest → P c (r :: rest))
    (accepted : ∀ (c : Catalog) r rest, ¬c.isKnown r.type → P (c.extend r) rest → P c (r :: rest))
    (c : Catalog) (history : List Registration) : P c history := by
  induction history generalizing c with
  | nil => exact nil c
  | cons r rest ih =>
      by_cases h : c.isKnown r.type
      · exact refused c r rest h (ih c)
      · exact accepted c r rest h (ih (c.extend r))

theorem offerAll_cons_of_isKnown (h : c.isKnown r.type) (rest : List Registration) :
    c.offerAll (r :: rest) = c.offerAll rest := by
  rw [offerAll, List.foldl_cons, offer_of_isKnown h, ← offerAll]

theorem offerAll_cons_of_not_isKnown (h : ¬c.isKnown r.type) (rest : List Registration) :
    c.offerAll (r :: rest) = (c.extend r).offerAll rest := by
  rw [offerAll, List.foldl_cons, offer_of_not_isKnown h, ← offerAll]

/-- **What every accepted registration keeps** holds after a history. -/
theorem offerAll_induction {P : Catalog → Prop} {history : List Registration}
    (hextend : ∀ (c : Catalog), ∀ r ∈ history, ¬c.isKnown r.type → P c → P (c.extend r)) (h : P c) :
    P (c.offerAll history) := by
  induction c, history using history_induction with
  | nil c => exact h
  | refused c r rest hr ih =>
      rw [offerAll_cons_of_isKnown hr]
      exact ih (fun c' r' hr' => hextend c' r' (List.mem_cons_of_mem r hr')) h
  | accepted c r rest hr ih =>
      rw [offerAll_cons_of_not_isKnown hr]
      exact ih (fun c' r' hr' => hextend c' r' (List.mem_cons_of_mem r hr'))
        (hextend c r List.mem_cons_self hr h)

theorem acceptedTypes_cons_of_isKnown (h : c.isKnown r.type) (rest : List Registration) :
    c.acceptedTypes (r :: rest) = c.acceptedTypes rest := by
  rw [acceptedTypes, accepted, register_of_isKnown h]
  rfl

theorem acceptedTypes_cons_of_not_isKnown (h : ¬c.isKnown r.type) (rest : List Registration) :
    c.acceptedTypes (r :: rest) = r.type :: (c.extend r).acceptedTypes rest := by
  rw [acceptedTypes, accepted, register_of_not_isKnown h]
  rfl

/-! ### Known types -/

theorem contains_extend_iff {type : String} :
    (c.extend r).blocks.contains type ↔ type = r.type ∨ c.blocks.contains type := by
  rw [extend, NameMap.contains, NameMap.get?_insert]
  by_cases h : type = r.type
  · simp [h]
  · simp [h, NameMap.contains]

/-- The block types after a history are those before it and those that are accepted. -/
theorem contains_offerAll_iff {history : List Registration} {type : String} :
    (c.offerAll history).blocks.contains type ↔
      c.blocks.contains type ∨ type ∈ c.acceptedTypes history := by
  induction c, history using history_induction with
  | nil c => simp [offerAll, acceptedTypes, accepted]
  | refused c r rest h ih =>
      rw [offerAll_cons_of_isKnown h, acceptedTypes_cons_of_isKnown h, ih]
  | accepted c r rest h ih =>
      rw [offerAll_cons_of_not_isKnown h, acceptedTypes_cons_of_not_isKnown h, ih,
        contains_extend_iff, List.mem_cons, or_assoc]
      exact or_left_comm

theorem isKnown_extend_iff {type : String} :
    (c.extend r).isKnown type ↔ type = r.type ∨ c.isKnown type := by
  rw [isKnown, isKnown, Bool.or_eq_true, Bool.or_eq_true, contains_extend_iff]
  exact or_left_comm

/-- **The types known after a history** are those known before and those that are accepted. -/
theorem isKnown_offerAll_iff {history : List Registration} {type : String} :
    (c.offerAll history).isKnown type ↔ c.isKnown type ∨ type ∈ c.acceptedTypes history := by
  rw [isKnown, isKnown, Bool.or_eq_true, Bool.or_eq_true, contains_offerAll_iff, or_assoc]

theorem not_isKnown_of_mem_acceptedTypes {history : List Registration} {type : String}
    (h : type ∈ c.acceptedTypes history) : ¬c.isKnown type := by
  induction c, history using history_induction with
  | nil c => cases h
  | refused c r rest hr ih =>
      rw [acceptedTypes_cons_of_isKnown hr] at h
      exact ih h
  | accepted c r rest hr ih =>
      rw [acceptedTypes_cons_of_not_isKnown hr] at h
      rcases List.mem_cons.1 h with rfl | h
      · exact hr
      · exact fun hknown => ih h (isKnown_extend_iff.2 (.inr hknown))

/-- No type is accepted twice. -/
theorem nodup_acceptedTypes (c : Catalog) (history : List Registration) :
    (c.acceptedTypes history).Nodup := by
  induction c, history using history_induction with
  | nil c => exact List.nodup_nil
  | refused c r rest h ih =>
      rw [acceptedTypes_cons_of_isKnown h]
      exact ih
  | accepted c r rest h ih =>
      rw [acceptedTypes_cons_of_not_isKnown h]
      refine List.nodup_cons.2 ⟨fun hmem => ?_, ih⟩
      exact not_isKnown_of_mem_acceptedTypes hmem (isKnown_extend_iff.2 (.inl rfl))

/-- The refused registrations might as well not have been made. -/
theorem offerAll_accepted (c : Catalog) (history : List Registration) :
    c.offerAll (c.accepted history) = c.offerAll history := by
  induction c, history using history_induction with
  | nil c => rfl
  | refused c r rest h ih =>
      rw [accepted, register_of_isKnown h, offerAll_cons_of_isKnown h]
      exact ih
  | accepted c r rest h ih =>
      rw [accepted, register_of_not_isKnown h, offerAll_cons_of_not_isKnown h,
        offerAll_cons_of_not_isKnown h]
      exact ih

/-- What is not a block type is known only as a gate kind. -/
theorem isKnown_iff_of_not_contains {type : String} (h : ¬c.blocks.contains type) :
    c.isKnown type ↔ type ∈ ["AND", "OR", "XOR", "NOR"] := by
  rw [Bool.not_eq_true] at h
  rw [isKnown, h, Bool.or_false, GateKind.ofName?, List.find?_isSome]
  simp [GateKind.all, GateKind.name, eq_comm]

/-- A catalog that knows the gates only knows nothing else. -/
theorem isKnown_ofPolicy_iff {policy : NorPolicy} {type : String} :
    (ofPolicy policy).isKnown type ↔ type ∈ ["AND", "OR", "XOR", "NOR"] :=
  isKnown_iff_of_not_contains Bool.false_ne_true

/-! ### Elements -/

theorem create?_extend (h : ¬c.isKnown r.type) {m : Model} (hm : c.isKnown m.type) :
    (c.extend r).create? m = c.create? m := by
  have hne : m.type ≠ r.type := fun heq => h (heq ▸ hm)
  rw [create?, create?, extend, NameMap.get?_insert, if_neg hne]

/-- **Known types never change**: the element of a model is the same, whatever is registered
later. -/
theorem create?_offerAll_of_isKnown {m : Model} (hm : c.isKnown m.type)
    (later : List Registration) : (c.offerAll later).create? m = c.create? m := by
  induction c, later using history_induction with
  | nil c => rfl
  | refused c r rest h ih => rw [offerAll_cons_of_isKnown h, ih hm]
  | accepted c r rest h ih =>
      rw [offerAll_cons_of_not_isKnown h, ih (isKnown_extend_iff.2 (.inr hm)), create?_extend h hm]

/-- A model has no element exactly when its type is not known. -/
theorem create?_eq_none_iff {m : Model} : c.create? m = none ↔ ¬c.isKnown m.type := by
  rw [← isSome_create?, Bool.not_eq_true, Option.isSome_eq_false_iff, Option.isNone_iff_eq_none]

/-- The elements of a netlist are of known types. -/
theorem isKnown_type_of_mem_elementsOf {n : Netlist} {e : Element}
    (he : e ∈ c.elementsOf n.models) : c.isKnown e.type := by
  obtain ⟨m, -, hm⟩ := List.mem_filterMap.1 (mem_modelElements_of_mem_elementsOf he)
  rw [(name_type_of_create? hm).2, ← isSome_create?, hm]
  rfl

/-- **An accepted type stands for the block that was built for it**, with the types known then,
whatever is registered later. -/
theorem create?_offerAll_of_accepts (hr : c.Accepts r) {m : Model} (hm : m.type = r.type)
    (later : List Registration) :
    ((c.offer r).offerAll later).create? m =
      some (.composite m.name r.type (c.design r.type r.netlist r.limits)) := by
  have hnew : ¬c.isKnown r.type := accepts_iff.1 hr
  have hkind : GateKind.ofName? r.type = none := by
    rw [isKnown, Bool.or_eq_true, not_or] at hnew
    simpa using hnew.1
  rw [offer_of_not_isKnown hnew,
    create?_offerAll_of_isKnown (isKnown_extend_iff.2 (.inl hm)) later, create?, hm, hkind]
  simp [extend, NameMap.get?_insert]

/-- **No forward references**: when a type is accepted, neither the type itself nor one that is
accepted later is known to the block that is built for it. -/
theorem not_isKnown_of_accepts (hr : c.Accepts r) {type : String} {later : List Registration}
    (htype : type = r.type ∨ type ∈ (c.offer r).acceptedTypes later) : ¬c.isKnown type := by
  have hnew : ¬c.isKnown r.type := accepts_iff.1 hr
  rcases htype with rfl | hlater
  · exact hnew
  · rw [offer_of_not_isKnown hnew] at hlater
    exact fun hknown => not_isKnown_of_mem_acceptedTypes hlater (isKnown_extend_iff.2 (.inr hknown))

end Catalog

/-! ### Nested blocks at every depth -/

mutual

/-- How deep blocks are nested in a design. -/
def Design.depth : Design → Nat
  | ⟨_, _, _, elements⟩ => Element.depthAll elements

/-- How deep blocks are nested in an element, itself included. -/
def Element.depth : Element → Nat
  | .gate _ => 0
  | .composite _ _ block => block.depth + 1

/-- The depth of the deepest element. -/
def Element.depthAll : List Element → Nat
  | [] => 0
  | e :: rest => max e.depth (Element.depthAll rest)

end

namespace Element

/-- The second element is the first one, or stands inside it, at any depth. -/
inductive Holds : Element → Element → Prop
  | self (e : Element) : Holds e e
  | nested {name type : String} {block : Design} {x y : Element} (hx : x ∈ block.elements)
      (h : Holds x y) : Holds (composite name type block) y

/-- A gate is founded on any types.  A nested block is founded on a list of types if its own type is
in the list, and all elements inside are founded on the types that stand before it. -/
inductive Founded : List String → Element → Prop
  | gate (types : List String) (g : Gate) : Founded types (gate g)
  | composite {before : List String} (after : List String) (name type : String) {block : Design}
      (h : ∀ x ∈ block.elements, Founded before x) :
      Founded (before ++ type :: after) (composite name type block)

theorem depthAll_le {l : List Element} {k : Nat} (h : ∀ e ∈ l, e.depth ≤ k) : depthAll l ≤ k := by
  induction l with
  | nil => exact Nat.zero_le k
  | cons e rest ih =>
      rw [List.forall_mem_cons] at h
      exact Nat.max_le.2 ⟨h.1, ih h.2⟩

namespace Founded

variable {types : List String} {e y : Element} {name type : String} {block : Design}

theorem composite_inv (h : Founded types (Element.composite name type block)) :
    ∃ before after, types = before ++ type :: after ∧ ∀ x ∈ block.elements, Founded before x := by
  cases h with
  | @composite before after _ _ _ h => exact ⟨before, after, rfl, h⟩

/-- **What stands inside is founded** on the types at the beginning of the list. -/
theorem of_holds (h : Founded types e) (hy : e.Holds y) :
    ∃ first, first <+: types ∧ Founded first y := by
  induction hy generalizing types with
  | self e => exact ⟨types, List.prefix_refl types, h⟩
  | nested hx _ ih =>
      obtain ⟨before, after, rfl, hinside⟩ := h.composite_inv
      obtain ⟨first, hfirst, hy⟩ := ih (hinside _ hx)
      exact ⟨first, hfirst.trans (List.prefix_append before _), hy⟩

theorem mem_of_holds (h : Founded types e) (hy : e.Holds (Element.composite name type block)) :
    type ∈ types := by
  obtain ⟨first, hfirst, hy⟩ := h.of_holds hy
  obtain ⟨before, after, rfl, -⟩ := hy.composite_inv
  exact hfirst.subset (List.mem_append_right before List.mem_cons_self)

/-- **Blocks are nested no deeper** than there are types. -/
theorem depth_le (h : Founded types e) : e.depth ≤ types.length := by
  induction h with
  | gate types g => exact Nat.zero_le _
  | @composite before after name type block _ ih =>
      have hinside : block.depth ≤ before.length := by
        cases block with
        | mk _ _ _ elements => exact depthAll_le ih
      rw [Element.depth, List.length_append, List.length_cons]
      omega

end Founded

end Element

/-! ### The types of a catalog -/

namespace Catalog

/-- The block types of the catalog have been registered in this order, each of them built with the
types before it. -/
def Lists (c : Catalog) (types : List String) : Prop :=
  ∀ type block, c.blocks.get? type = some block →
    ∃ before after, types = before ++ type :: after ∧ ∀ x ∈ block.elements, x.Founded before

variable {c : Catalog} {r : Registration} {types : List String}

/-- **Every element is founded** on the types of the catalog. -/
theorem Lists.founded_of_create? (h : c.Lists types) {m : Model} {e : Element}
    (he : c.create? m = some e) : e.Founded types := by
  cases e with
  | gate g => exact .gate types g
  | composite name type block =>
      obtain ⟨before, after, rfl, hinside⟩ := h type block (create?_eq_some_composite he)
      exact .composite after name type hinside

/-- A new type is founded on all types before it. -/
theorem Lists.extend (h : c.Lists types) (r : Registration) :
    (c.extend r).Lists (types ++ [r.type]) := by
  intro type block hblock
  rw [Catalog.extend, NameMap.get?_insert] at hblock
  split at hblock
  · rename_i heq
    cases hblock
    refine ⟨types, [], heq ▸ rfl, fun x hx => ?_⟩
    obtain ⟨m, -, hcreate⟩ := List.mem_filterMap.1
      (mem_modelElements_of_mem_elementsOf (n := r.netlist) hx)
    exact h.founded_of_create? hcreate
  · obtain ⟨before, after, rfl, hinside⟩ := h type block hblock
    exact ⟨before, after ++ [r.type], by simp, hinside⟩

/-- **Every type is founded on those accepted before it.** -/
theorem Lists.offerAll (h : c.Lists types) (history : List Registration) :
    (c.offerAll history).Lists (types ++ c.acceptedTypes history) := by
  induction c, history using history_induction generalizing types with
  | nil c => simpa [acceptedTypes, accepted, Catalog.offerAll] using h
  | refused c r rest hr ih =>
      rw [offerAll_cons_of_isKnown hr, acceptedTypes_cons_of_isKnown hr]
      exact ih h
  | accepted c r rest hr ih =>
      rw [offerAll_cons_of_not_isKnown hr, acceptedTypes_cons_of_not_isKnown hr, List.append_cons]
      exact ih (h.extend r)

theorem lists_ofPolicy (policy : NorPolicy) : (ofPolicy policy).Lists [] := by
  intro type block hblock
  cases hblock

/-- **What stands inside a block** of some type, at any depth, is of a type that was accepted
before. -/
theorem Lists.exists_before_of_holds (h : c.Lists types) {m : Model} {e : Element}
    (he : c.create? m = some e) {name type : String} {block : Design}
    (hblock : e.Holds (.composite name type block)) :
    ∃ before after, types = before ++ type :: after ∧
      ∀ x ∈ block.elements, ∀ name' type' block', x.Holds (.composite name' type' block') →
        type' ∈ before := by
  obtain ⟨first, ⟨rest, rfl⟩, hfounded⟩ := (h.founded_of_create? he).of_holds hblock
  obtain ⟨before, after, rfl, hinside⟩ := hfounded.composite_inv
  refine ⟨before, after ++ rest, by simp, fun x hx name' type' block' hheld => ?_⟩
  exact (hinside x hx).mem_of_holds hheld

/-- What stands in an element, at any depth, is the block that the catalog has for its type. -/
def Provides (c : Catalog) (e : Element) : Prop :=
  ∀ name type block, e.Holds (.composite name type block) → c.blocks.get? type = some block

/-- What stands in the blocks of the catalog is in the catalog as well. -/
def Closed (c : Catalog) : Prop :=
  ∀ type block, c.blocks.get? type = some block → ∀ x ∈ block.elements, c.Provides x

theorem Closed.provides_of_create? (h : c.Closed) {m : Model} {e : Element}
    (he : c.create? m = some e) : c.Provides e := by
  intro name type block hblock
  cases hblock with
  | self => exact create?_eq_some_composite he
  | nested hx hinside => exact h _ _ (create?_eq_some_composite he) _ hx name type block hinside

/-- The elements of a block that is built from the catalog hold blocks of the catalog. -/
theorem Closed.provides_of_mem_elementsOf (h : c.Closed) {n : Netlist} {e : Element}
    (he : e ∈ c.elementsOf n.models) : c.Provides e := by
  obtain ⟨m, -, hm⟩ := List.mem_filterMap.1 (mem_modelElements_of_mem_elementsOf he)
  exact h.provides_of_create? hm

theorem get?_extend_of_get? (hnew : ¬c.isKnown r.type) {type : String} {block : Design}
    (h : c.blocks.get? type = some block) : (c.extend r).blocks.get? type = some block := by
  have hne : type ≠ r.type := by
    rintro rfl
    exact hnew (by rw [isKnown, NameMap.contains, h, Option.isSome_some, Bool.or_true])
  rw [Catalog.extend, NameMap.get?_insert, if_neg hne, h]

theorem Closed.extend (h : c.Closed) (hnew : ¬c.isKnown r.type) : (c.extend r).Closed := by
  intro type block hblock x hx name' type' block' hheld
  refine get?_extend_of_get? hnew ?_
  rw [Catalog.extend, NameMap.get?_insert] at hblock
  split at hblock
  · cases hblock
    exact h.provides_of_mem_elementsOf hx name' type' block' hheld
  · exact h type block hblock x hx name' type' block' hheld

/-- **The blocks of a catalog hold blocks of the catalog**, since known types never change. -/
theorem Closed.offerAll (h : c.Closed) (history : List Registration) :
    (c.offerAll history).Closed :=
  offerAll_induction (fun _ _ _ hnew hc => hc.extend hnew) h

theorem closed_ofPolicy (policy : NorPolicy) : (ofPolicy policy).Closed := by
  intro type block hblock
  cases hblock

/-- **What every registration hands on** to the block that it builds holds of all blocks. -/
theorem blocks_offerAll {P : String → Design → Prop} {history : List Registration}
    (hbuilt : ∀ r ∈ history, ∀ c : Catalog, P r.type (c.design r.type r.netlist r.limits))
    (h : ∀ type block, c.blocks.get? type = some block → P type block) :
    ∀ type block, (c.offerAll history).blocks.get? type = some block → P type block := by
  refine offerAll_induction (P := fun c => ∀ type block, c.blocks.get? type = some block →
    P type block) (fun c r hr _ hc type block hblock => ?_) h
  rw [Catalog.extend, NameMap.get?_insert] at hblock
  split at hblock
  · rename_i heq
    cases hblock
    exact heq ▸ hbuilt r hr c
  · exact hc type block hblock

/-- **The history of a catalog.**  After any registrations, a further one is refused exactly when it
names a gate kind or a type accepted before, and then it might as well not have been made.  A known
type keeps its elements for good.  In every element, at every depth, what stands inside a block of
some type is of a type accepted earlier, so that blocks are nested no deeper than there are types;
a model whose type is the one being registered, or one accepted later, has no element in the block
that is built. -/
theorem registration_history (policy : NorPolicy) (history : List Registration) :
    let c := (ofPolicy policy).offerAll history
    let types := (ofPolicy policy).acceptedTypes history
    types.Nodup ∧
    (ofPolicy policy).offerAll ((ofPolicy policy).accepted history) = c ∧
    (∀ r, (c.register r.type r.netlist r.limits = .error ⟨r.type⟩ ↔
        r.type ∈ ["AND", "OR", "XOR", "NOR"] ∨ r.type ∈ types) ∧
      (¬c.Accepts r ↔ c.register r.type r.netlist r.limits = .error ⟨r.type⟩) ∧
      (¬c.Accepts r → ∀ later, c.offerAll (r :: later) = c.offerAll later)) ∧
    (∀ m later, c.isKnown m.type →
      ∃ e, c.create? m = some e ∧ (c.offerAll later).create? m = some e) ∧
    (∀ m e, c.create? m = some e →
      e.depth ≤ types.length ∧
      ∀ name type block, e.Holds (.composite name type block) →
        ∃ before after, types = before ++ type :: after ∧
          ∀ x ∈ block.elements, ∀ name' type' block', x.Holds (.composite name' type' block') →
            type' ∈ before) ∧
    (∀ r later, c.Accepts r → ∀ m ∈ r.netlist.models,
      m.type = r.type ∨ m.type ∈ (c.offer r).acceptedTypes later →
      c.create? m = none ∧
      ∀ x, x.type = r.type →
        ∃ block, ((c.offer r).offerAll later).create? x = some (.composite x.name r.type block) ∧
          block.netlist = r.netlist ∧ ∀ y ∈ block.elements, y.type ≠ m.type) := by
  intro c types
  have hlists : c.Lists types := (lists_ofPolicy policy).offerAll history
  refine ⟨nodup_acceptedTypes _ history, offerAll_accepted _ history, fun r => ⟨?_, ?_, ?_⟩,
    fun m later hm => ?_, fun m e he => ⟨?_, fun name type block hblock => ?_⟩,
    fun r later hr m _ htype => ?_⟩
  · -- a refusal, by the types known after the history
    rw [register_eq_error_iff, isKnown_offerAll_iff, isKnown_ofPolicy_iff]
  · rw [register_eq_error_iff, accepts_iff, not_not]
  · -- and it leaves no trace
    intro hr later
    exact offerAll_cons_of_isKnown (not_not.1 (accepts_iff.not.1 hr)) later
  · -- known types
    obtain ⟨e, he⟩ := Option.isSome_iff_exists.1 ((isSome_create? c m).trans hm)
    exact ⟨e, he, (create?_offerAll_of_isKnown hm later).trans he⟩
  · exact (hlists.founded_of_create? he).depth_le
  · exact hlists.exists_before_of_holds he hblock
  · -- no forward references
    have hunknown : ¬c.isKnown m.type := not_isKnown_of_accepts hr htype
    refine ⟨create?_eq_none_iff.2 hunknown, fun x hx =>
      ⟨_, create?_offerAll_of_accepts hr hx later, rfl, fun y hy heq => ?_⟩⟩
    exact hunknown (heq ▸ isKnown_type_of_mem_elementsOf hy)

/-- Two refusals: the name of a gate kind, and a name that is taken. -/
example :
    (ofPolicy default).acceptedTypes
      [⟨"AND", ⟨[], [], [], []⟩, 1⟩, ⟨"A", ⟨[], [], [], []⟩, 1⟩, ⟨"A", ⟨[], [], [], []⟩, 2⟩] =
      ["A"] := by
  decide +kernel

end Catalog

end LogicBlock
