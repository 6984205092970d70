/-
**The catalog of element types.**

A catalog knows the types that a model may have: the four gate kinds, always, and the blocks that
have been registered under names of their own.  A block is built from its netlist with the types
known at the time, so a netlist that names its own type, or one registered later, gets no element
for that model.

Main definitions:

* `Catalog`, `Catalog.ofPolicy` — the known types and the policy that every nor gate follows;
* `Catalog.create?` — the element for a model, if its type is known;
* `Catalog.elementsOf` — the elements of a netlist: of models with one name the last counts, in the
  place of the first;
* `Catalog.design` — the design of a block;
* `Catalog.register` — a catalog with one more block type, or `DuplicateType`.
-/

import LogicBlock.Design

set_option relaxedAutoImplicit false
set_option autoImplicit false

namespace LogicBlock

/-- The element types that are known. -/
structure Catalog where
  policy : NorPolicy
  blocks : NameMap Design

/-- A block type is registered under a name that is taken. -/
structure DuplicateType where
  type : String

/-- The text of the error. -/
def DuplicateType.message (e : DuplicateType) : String :=
  "element type '" ++ e.type ++ "' is already registered"

/-- Puts an element into a list: in the place of the element with its name, or else at the end. -/
def Element.place (e : Element) : List Element → List Element
  | [] => [e]
  | other :: rest => if other.name = e.name then e :: rest else other :: e.place rest

namespace Catalog

/-- The catalog that knows the gate kinds only. -/
def ofPolicy (policy : NorPolicy) : Catalog :=
  ⟨policy, .empty⟩

/-- The catalog that knows the gate kinds only, with the policy that is used where none is named. -/
def basic : Catalog :=
  ofPolicy default

/-- The element for a model, if the type of the model is known. -/
def create? (c : Catalog) (m : Model) : Option Element :=
  match GateKind.ofName? m.type with
  | some kind => some (.gate ⟨m.name, kind, c.policy⟩)
  | none => (c.blocks.get? m.type).map (.composite m.name m.type)

/-- Whether a type is known. -/
def isKnown (c : Catalog) (type : String) : Bool :=
  (GateKind.ofName? type).isSome || c.blocks.contains type

/-- The names of the known types, in ascending order. -/
def typeNames (c : Catalog) : List String :=
  ((c.blocks.map fun _ => ()).insertAll (GateKind.all.map fun k => (k.name, ()))).keys

/-- The elements of a list of models.  A model of unknown type has no element; a repeated name
replaces the element in its place. -/
def elementsOf (c : Catalog) (models : List Model) : List Element :=
  (models.filterMap c.create?).foldl (fun placed e => e.place placed) []

/-- The name of a block that has not been given one. -/
def unnamed : String :=
  "block"

/-- The design of a block. -/
def design (c : Catalog) (name : String) (netlist : Netlist) (limits : Nat) : Design :=
  ⟨name, netlist, limits, c.elementsOf netlist.models⟩

/-- Makes a block available as an element type.  The block is named after the type and is built
with the types known so far. -/
def register (c : Catalog) (type : String) (netlist : Netlist) (limits : Nat) :
    Except DuplicateType Catalog :=
  if c.isKnown type then .error ⟨type⟩
  else .ok { c with blocks := c.blocks.insert type (c.design type netlist limits) }

/-- A model has an element exactly when its type is known. -/
theorem isSome_create? (c : Catalog) (m : Model) : (c.create? m).isSome = c.isKnown m.type := by
  unfold create? isKnown NameMap.contains
  cases GateKind.ofName? m.type <;> simp

/-- **The element of a model has the name of the model and its type.** -/
theorem name_type_of_create? {c : Catalog} {m : Model} {e : Element} (h : c.create? m = some e) :
    e.name = m.name ∧ e.type = m.type := by
  unfold create? at h
  split at h
  · rename_i kind hk
    cases h
    have := List.find?_some hk
    exact ⟨rfl, by simpa [Element.type] using this⟩
  · obtain ⟨d, -, rfl⟩ := Option.map_eq_some_iff.1 h
    exact ⟨rfl, rfl⟩

end Catalog

end LogicBlock
