/-
**Blocks inside blocks.**

A design is a tree: among its elements are nested blocks with designs of their own.  Nothing is
shared between the branches, and the states follow the tree.  So a property of all blocks at every
depth is a predicate on single designs that is handed down, and two states are compared by comparing
the tables at every place of the tree.

The designs that a catalog gives have been built from netlists, one registered type after the other.
What holds of every design that is built this way, with the types known at the time, holds at every
depth of each of them.

Main definitions:

* `Design.Everywhere` — a predicate holds of a design and of all blocks inside it;
* `State.Related` — a relation holds between the tables of two states at every level;
* `Catalog.Grown` — the catalogs that registering types leads to;
* `Catalog.offer`, `Catalog.offerAll` — registering with refusals, one type after the other.

Main results:

* `Design.nested_induction` — **the induction over the nesting**;
* `State.related_refl`, `State.Related.reset` — a reflexive relation between tables is one between
  states, and related states stay related when they are reset;
* `Catalog.Grown.everywhere` — **what holds of every built design holds at every depth**;
* `Catalog.Grown.everywhere_nodup_names`, `Catalog.Grown.everywhere_policy` — at every depth the
  elements have distinct names, and the gates the policy of the catalog.
-/

import LogicBlock.Proofs.Elements
import Mathlib.Data.List.Forall2

set_option relaxedAutoImplicit false
set_option autoImplicit false

namespace LogicBlock

/-! ### All designs of a tree -/

/-- The predicate holds of a design and of every block inside it, at any depth. -/
inductive Design.Everywhere (P : Design → Prop) : Design → Prop
  | intro {d : Design} (here : P d)
      (nested : ∀ name type block, .composite name type block ∈ d.elements →
        Everywhere P block) :
      Everywhere P d

mutual

/-- What holds of a design as soon as it holds of the nested blocks among its elements, holds of
every design. -/
theorem Design.nested_induction {P : Design → Prop}
    (h : ∀ d : Design, (∀ name type block, .composite name type block ∈ d.elements → P block) →
      P d) : (d : Design) → P d
  | ⟨_, _, _, elements⟩ => h _ (Element.nested_induction h elements)

/-- The same for the nested blocks among some elements. -/
theorem Element.nested_induction {P : Design → Prop}
    (h : ∀ d : Design, (∀ name type block, .composite name type block ∈ d.elements → P block) →
      P d) :
    (l : List Element) → ∀ name type block, .composite name type block ∈ l → P block
  | [], _, _, _, hmem => absurd hmem List.not_mem_nil
  | .gate _ :: rest, name, type, block, hmem =>
      Element.nested_induction h rest name type block
        ((List.mem_cons.1 hmem).resolve_left Element.noConfusion)
  | .composite _ _ block' :: rest, name, type, block, hmem => by
      rcases List.mem_cons.1 hmem with heq | hmem
      · cases heq
        exact Design.nested_induction h block'
      · exact Element.nested_induction h rest name type block hmem

end

namespace Design.Everywhere

variable {P Q : Design → Prop} {d : Design}

theorem here (h : d.Everywhere P) : P d := by
  cases h
  assumption

theorem nested (h : d.Everywhere P) {name type : String} {block : Design}
    (hblock : .composite name type block ∈ d.elements) : block.Everywhere P := by
  cases h with
  | intro _ hnested => exact hnested name type block hblock

theorem mono (h : d.Everywhere P) (hPQ : ∀ d, P d → Q d) : d.Everywhere Q := by
  induction h with
  | intro hhere _ ih => exact .intro (hPQ _ hhere) ih

end Design.Everywhere

/-! ### States, level by level -/

/-- The tables of two states are related, and so are those of their parts at every level. -/
inductive State.Related (R : PinMap → PinMap → Prop) : State → State → Prop
  | intro {s s' : State} (pins : R s.pins s'.pins)
      (parts : List.Forall₂ (State.Related R) s.parts s'.parts) : State.Related R s s'

namespace State

variable {R : PinMap → PinMap → Prop} {s s' : State}

theorem Related.pins (h : Related R s s') : R s.pins s'.pins := by
  cases h
  assumption

theorem Related.parts (h : Related R s s') : List.Forall₂ (Related R) s.parts s'.parts := by
  cases h
  assumption

/-- Related parts have related first parts, where a part that is missing counts as inert. -/
theorem Related.headD_parts (h : Related R s s') (hinert : R .empty .empty) :
    Related R (s.parts.headD .inert) (s'.parts.headD .inert) := by
  obtain ⟨pins, parts⟩ := s
  obtain ⟨pins', parts'⟩ := s'
  have hparts : List.Forall₂ (Related R) parts parts' := h.parts
  cases hparts with
  | nil => exact .intro hinert .nil
  | cons hhead _ => exact hhead

theorem Related.tail_parts (h : Related R s s') :
    List.Forall₂ (Related R) s.parts.tail s'.parts.tail := by
  obtain ⟨pins, parts⟩ := s
  obtain ⟨pins', parts'⟩ := s'
  have hparts : List.Forall₂ (Related R) parts parts' := h.parts
  cases hparts with
  | nil => exact .nil
  | cons _ htail => exact htail

mutual

theorem related_refl (hR : ∀ pins, R pins pins) : (s : State) → Related R s s
  | ⟨pins, parts⟩ => .intro (hR pins) (forall₂_related_refl hR parts)

theorem forall₂_related_refl (hR : ∀ pins, R pins pins) :
    (l : List State) → List.Forall₂ (Related R) l l
  | [] => .nil
  | s :: rest => .cons (related_refl hR s) (forall₂_related_refl hR rest)

end

mutual

/-- Related states stay related when both are reset, perhaps more closely than before. -/
theorem Related.reset {R' : PinMap → PinMap → Prop}
    (hclear : ∀ m m', R m m' → R' m.clear m'.clear) :
    (s s' : State) → Related R s s' → Related R' s.reset s'.reset
  | ⟨_, parts⟩, ⟨_, parts'⟩, h =>
      .intro (hclear _ _ h.pins) (forall₂_related_reset hclear parts parts' h.parts)

theorem forall₂_related_reset {R' : PinMap → PinMap → Prop}
    (hclear : ∀ m m', R m m' → R' m.clear m'.clear) :
    (l l' : List State) → List.Forall₂ (Related R) l l' →
      List.Forall₂ (Related R') (resetAll l) (resetAll l')
  | [], [], _ => .nil
  | s :: l, s' :: l', h => by
      cases h with
      | cons hhead htail =>
          exact .cons (Related.reset hclear s s' hhead) (forall₂_related_reset hclear l l' htail)

end

end State

/-! ### Catalogs that have been put together by registering -/

/-- The catalogs that registering block types leads to, from the one that knows the gates only. -/
inductive Catalog.Grown (policy : NorPolicy) : Catalog → Prop
  | ofPolicy : Grown policy (Catalog.ofPolicy policy)
  | register {c c' : Catalog} (type : String) (netlist : Netlist) (limits : Nat)
      (hc : Grown policy c) (h : c.register type netlist limits = .ok c') : Grown policy c'

namespace Catalog

theorem create?_eq_some_gate {c : Catalog} {m : Model} {g : Gate}
    (h : c.create? m = some (.gate g)) : g.policy = c.policy := by
  rw [create?] at h
  split at h
  · cases h
    rfl
  · obtain ⟨d, -, heq⟩ := Option.map_eq_some_iff.1 h
    cases heq

theorem create?_eq_some_composite {c : Catalog} {m : Model} {name type : String} {block : Design}
    (h : c.create? m = some (.composite name type block)) : c.blocks.get? type = some block := by
  rw [create?] at h
  split at h
  · cases h
  · obtain ⟨d, hd, heq⟩ := Option.map_eq_some_iff.1 h
    cases heq
    exact hd

/-- A new type is a block with the types known before; all other types stay as they are. -/
theorem register_eq_ok {c c' : Catalog} {type : String} {netlist : Netlist} {limits : Nat}
    (h : c.register type netlist limits = .ok c') :
    c' = { c with blocks := c.blocks.insert type (c.design type netlist limits) } := by
  rw [register] at h
  split at h
  · cases h
  · cases h
    rfl

/-- What holds of a design whose nested blocks come from a catalog, and at every depth of these,
holds at every depth. -/
theorem everywhere_design {c : Catalog} {P : Design → Prop} {name : String} {n : Netlist}
    {limits : Nat} (hP : P (c.design name n limits))
    (hblocks : ∀ type block, c.blocks.get? type = some block → block.Everywhere P) :
    (c.design name n limits).Everywhere P := by
  refine .intro hP fun label type block hblock => ?_
  obtain ⟨m, -, hcreate⟩ := List.mem_filterMap.1 (mem_modelElements_of_mem_elementsOf hblock)
  exact hblocks type block (create?_eq_some_composite hcreate)

/-- A block type to be registered: its name, the netlist of its blocks, and the passes that they are
given. -/
structure Registration where
  type : String
  netlist : Netlist
  limits : Nat
  deriving DecidableEq

/-- Registers a block type and goes on after a refusal, with the catalog as it was before. -/
def offer (c : Catalog) (r : Registration) : Catalog :=
  match c.register r.type r.netlist r.limits with
  | .ok c' => c'
  | .error _ => c

/-- Registers block types, one after the other. -/
def offerAll (c : Catalog) (library : List Registration) : Catalog :=
  library.foldl offer c

namespace Grown

variable {policy : NorPolicy} {c : Catalog}

/-- A catalog that types are registered with, some of them perhaps in vain, is put together by
registering. -/
theorem offerAll (h : c.Grown policy) (library : List Registration) :
    (c.offerAll library).Grown policy := by
  refine List.foldlRecOn library Catalog.offer h fun c hc r _ => ?_
  rw [offer]
  split
  · rename_i hregister
    exact .register r.type r.netlist r.limits hc hregister
  · exact hc

theorem policy_eq (h : c.Grown policy) : c.policy = policy := by
  induction h with
  | ofPolicy => rfl
  | register type netlist limits _ hregister ih =>
      rw [register_eq_ok hregister]
      exact ih

/-- **What holds of every built design holds at every depth.** -/
theorem everywhere (h : c.Grown policy) {P : Design → Prop}
    (hP : ∀ c, Grown policy c → ∀ name n limits, P (c.design name n limits)) (name : String)
    (n : Netlist) (limits : Nat) : (c.design name n limits).Everywhere P := by
  have hblocks : ∀ type block, c.blocks.get? type = some block → block.Everywhere P := by
    induction h with
    | ofPolicy =>
        intro type block hblock
        cases hblock
    | @register c c' type netlist limits hc hregister ih =>
        intro type' block hblock
        rw [register_eq_ok hregister, NameMap.get?_insert] at hblock
        split at hblock
        · cases hblock
          exact everywhere_design (hP c hc type netlist limits) ih
        · exact ih type' block hblock
  exact everywhere_design (hP c h name n limits) hblocks

/-- At every depth the elements have distinct names. -/
theorem everywhere_nodup_names (h : c.Grown policy) (name : String) (n : Netlist) (limits : Nat) :
    (c.design name n limits).Everywhere fun d => (d.elements.map Element.name).Nodup :=
  h.everywhere (fun c _ _ n _ => c.nodup_names_elementsOf n.models) name n limits

/-- At every depth the gates have the policy of the catalog. -/
theorem everywhere_policy (h : c.Grown policy) (name : String) (n : Netlist) (limits : Nat) :
    (c.design name n limits).Everywhere fun d => ∀ g, .gate g ∈ d.elements → g.policy = policy := by
  refine h.everywhere (fun c hc _ n _ g hg => ?_) name n limits
  obtain ⟨m, -, hcreate⟩ := List.mem_filterMap.1 (mem_modelElements_of_mem_elementsOf hg)
  rw [create?_eq_some_gate hcreate, hc.policy_eq]

end Grown

end Catalog

end LogicBlock
