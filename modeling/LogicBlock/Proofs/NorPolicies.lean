/-
**The two policies for nor gates.**

A nor gate under the legacy policy guesses: it takes two unknown inputs for a low output.  Under the
strict policy it never does.  So a block whose gates follow the strict policy knows less than the
same block whose gates follow the legacy policy, but the two never contradict each other.

The legacy gate alone does not respect the information order, so the comparison cannot be made gate
by gate on one table.  It goes through the strict gate, which does: what the strict gate puts out
for what the one table shows is below what it would put out for what the other table shows, and this
is below what the legacy gate puts out there.

That the two blocks are the same but for the policy is a function, which replaces the policy of all
gates at every depth.  To register types with two catalogs that differ in the policy leads to two
catalogs that differ in the policy, since no refusal depends on it.

Main definitions:

* `Design.withPolicy`, `Catalog.withPolicy` — all gates, at any depth, with another policy.

Main results:

* `Design.cold_withPolicy` — a new block does not show the policy of its gates;
* `Catalog.offerAll_withPolicy` — **the same registrations under another policy**;
* `GateKind.apply_below_apply` — a gate that never guesses, beside a gate that may;
* `Design.Everywhere.approximates_withPolicy` — a block that never guesses, beside one that may;
* `Block.strict_approximates_legacy` — **what is known under the strict policy is what the legacy
  policy gives**, at every level and after every call.
-/

import LogicBlock.Proofs.Information

set_option relaxedAutoImplicit false
set_option autoImplicit false

namespace LogicBlock

/-! ### The same design under another policy -/

mutual

/-- The design with another policy for all gates, at any depth. -/
def Design.withPolicy (policy : NorPolicy) : Design → Design
  | ⟨name, netlist, limits, elements⟩ =>
    ⟨name, netlist, limits, Element.withPolicyAll policy elements⟩

/-- The element with another policy: for itself if it is a gate, or else for all gates inside. -/
def Element.withPolicy (policy : NorPolicy) : Element → Element
  | .gate g => .gate { g with policy }
  | .composite name type block => .composite name type (block.withPolicy policy)

/-- Elements with another policy. -/
def Element.withPolicyAll (policy : NorPolicy) : List Element → List Element
  | [] => []
  | e :: rest => e.withPolicy policy :: Element.withPolicyAll policy rest

end

theorem Element.withPolicyAll_eq_map (policy : NorPolicy) (l : List Element) :
    withPolicyAll policy l = l.map (withPolicy policy) := by
  induction l with
  | nil => rfl
  | cons e rest ih => simp [withPolicyAll, ih]

namespace Design

@[simp] theorem netlist_withPolicy (policy : NorPolicy) (d : Design) :
    (d.withPolicy policy).netlist = d.netlist := by
  cases d
  rfl

@[simp] theorem limits_withPolicy (policy : NorPolicy) (d : Design) :
    (d.withPolicy policy).limits = d.limits := by
  cases d
  rfl

@[simp] theorem elements_withPolicy (policy : NorPolicy) (d : Design) :
    (d.withPolicy policy).elements = d.elements.map (Element.withPolicy policy) := by
  cases d with
  | mk name netlist limits elements => exact Element.withPolicyAll_eq_map policy elements

end Design

@[simp] theorem Element.name_withPolicy (policy : NorPolicy) (e : Element) :
    (e.withPolicy policy).name = e.name := by
  cases e <;> rfl

mutual

/-- **A new block does not show the policy of its gates.** -/
theorem Design.cold_withPolicy (policy : NorPolicy) :
    (d : Design) → (d.withPolicy policy).cold = d.cold
  | ⟨_, _, _, elements⟩ => congrArg (State.mk _) (Element.coldAll_withPolicyAll policy elements)

theorem Element.cold_withPolicy (policy : NorPolicy) :
    (e : Element) → (e.withPolicy policy).cold = e.cold
  | .gate _ => rfl
  | .composite _ _ block => Design.cold_withPolicy policy block

theorem Element.coldAll_withPolicyAll (policy : NorPolicy) :
    (l : List Element) → Element.coldAll (Element.withPolicyAll policy l) = Element.coldAll l
  | [] => rfl
  | e :: rest =>
      congrArg₂ List.cons (Element.cold_withPolicy policy e)
        (Element.coldAll_withPolicyAll policy rest)

end

/-! ### The same catalog under another policy -/

namespace NameMap

variable {α β : Type}

theorem map_insert (f : α → β) (m : NameMap α) (key : String) (value : α) :
    (m.insert key value).map f = (m.map f).insert key (f value) := by
  refine ext_get? fun other => ?_
  rw [get?_map, get?_insert, get?_insert, get?_map]
  split
  · rfl
  · rfl

theorem contains_map (f : α → β) (m : NameMap α) (key : String) :
    (m.map f).contains key = m.contains key := by
  rw [contains, contains, get?_map, Option.isSome_map]

end NameMap

namespace Catalog

/-- The catalog with another policy for all gates, of its own and inside the blocks. -/
def withPolicy (policy : NorPolicy) (c : Catalog) : Catalog :=
  ⟨policy, c.blocks.map (Design.withPolicy policy)⟩

theorem ofPolicy_withPolicy (policy policy' : NorPolicy) :
    (ofPolicy policy).withPolicy policy' = ofPolicy policy' :=
  rfl

theorem isKnown_withPolicy (policy : NorPolicy) (c : Catalog) (type : String) :
    (c.withPolicy policy).isKnown type = c.isKnown type := by
  rw [isKnown, isKnown, withPolicy, NameMap.contains_map]

theorem create?_withPolicy (policy : NorPolicy) (c : Catalog) (m : Model) :
    (c.withPolicy policy).create? m = (c.create? m).map (Element.withPolicy policy) := by
  rw [create?, create?]
  cases GateKind.ofName? m.type with
  | some kind => rfl
  | none =>
      simp only [withPolicy, NameMap.get?_map, Option.map_map]
      rfl

/-- The elements of a netlist have the policy of the catalog, and nothing else depends on it. -/
theorem elementsOf_withPolicy (policy : NorPolicy) (c : Catalog) (models : List Model) :
    (c.withPolicy policy).elementsOf models =
      (c.elementsOf models).map (Element.withPolicy policy) := by
  have hmap := elementsOf_map (r := id) (create?_withPolicy policy c) (by simp) models
  rwa [List.map_id] at hmap

theorem design_withPolicy (policy : NorPolicy) (c : Catalog) (name : String) (n : Netlist)
    (limits : Nat) :
    (c.withPolicy policy).design name n limits = (c.design name n limits).withPolicy policy := by
  rw [design, elementsOf_withPolicy, design, Design.withPolicy, Element.withPolicyAll_eq_map]

/-- **A type is refused under one policy exactly if it is under another**, and else the two catalogs
go on being the same but for the policy. -/
theorem offer_withPolicy (policy : NorPolicy) (c : Catalog) (r : Registration) :
    (c.withPolicy policy).offer r = (c.offer r).withPolicy policy := by
  rw [offer, offer, register, register, isKnown_withPolicy, design_withPolicy]
  cases c.isKnown r.type with
  | true => rfl
  | false => exact congrArg (mk policy) (NameMap.map_insert _ _ _ _).symm

/-- **The same registrations under another policy** lead to the same catalog but for the policy. -/
theorem offerAll_withPolicy (policy : NorPolicy) (c : Catalog) (library : List Registration) :
    (c.withPolicy policy).offerAll library = (c.offerAll library).withPolicy policy := by
  induction library generalizing c with
  | nil => rfl
  | cons r rest ih =>
      rw [offerAll, offerAll, List.foldl_cons, List.foldl_cons, offer_withPolicy]
      exact ih (c.offer r)

end Catalog

/-! ### Gates and blocks under two policies -/

theorem GateKind.apply_congr_policy {k : GateKind} (h : k ≠ .nor) (policy policy' : NorPolicy)
    (a b : Voltage) : k.apply policy a b = k.apply policy' a b := by
  cases k with
  | and => cases a <;> cases b <;> rfl
  | or => cases a <;> cases b <;> rfl
  | xor => cases a <;> cases b <;> rfl
  | nor => exact absurd rfl h

/-- **A gate that never guesses, beside a gate that may**: if less is known about the inputs of the
first one, less is known about its output, whatever the policy of the second one. -/
theorem GateKind.apply_below_apply {policy : NorPolicy} (policy' : NorPolicy) {k : GateKind}
    (h : k = .nor → policy = .strict) {a a' b b' : Voltage} (ha : a.Below a') (hb : b.Below b') :
    (k.apply policy a b).Below (k.apply policy' a' b') := by
  -- the policies are compared for the same inputs
  have hpolicies : (k.apply policy a' b').Below (k.apply policy' a' b') := by
    by_cases hk : k = .nor
    · rw [h hk, hk]
      cases policy' <;> cases a' <;> cases b' <;> decide
    · rw [apply_congr_policy hk policy policy']
      exact Voltage.Below.refl _
  exact (apply_below h ha hb).trans hpolicies

/-- Beside a legacy gate itself this fails: it puts out low for two unknown inputs, and high as soon
as both turn out to be low. -/
example : ¬(GateKind.nor.apply .legacy .undefined .undefined).Below
    (GateKind.nor.apply .legacy .low .low) := by decide

/-- **A block that never guesses, beside the same block under any policy.** -/
theorem Design.Everywhere.approximates_withPolicy {d : Design}
    (h : d.Everywhere Design.Cautious) (policy : NorPolicy) :
    d.Approximates (d.withPolicy policy) := by
  induction h with
  | @intro d hcautious _ ih =>
      refine Design.approximates (d.netlist_withPolicy policy).symm
        (d.limits_withPolicy policy).symm ?_
      rw [Design.elements_withPolicy, List.forall₂_map_right_iff]
      refine List.forall₂_same.2 fun e he => ?_
      cases e with
      | gate g =>
          exact Element.approximates_gate rfl (GateKind.apply_below_apply policy (hcautious g he))
      | composite name type block =>
          exact Element.approximates_composite (block.netlist_withPolicy policy).symm
            (ih name type block he)

/-! ### Runs under two policies -/

/-- What one of two runs has answered, the other has answered too. -/
theorem exists_answer_of_forall₂ {Q : PinMap → PinMap → Prop}
    {answers answers' : List (Option PinMap)}
    (h : List.Forall₂ (Option.Rel Q) answers answers') {i : Nat} {out : PinMap}
    (hout : answers[i]? = some (some out)) :
    ∃ out', answers'[i]? = some (some out') ∧ Q out out' := by
  induction h generalizing i with
  | nil => cases hout
  | cons hanswer _ ih =>
      cases i with
      | zero =>
          cases hout
          cases hanswer with
          | some hQ => exact ⟨_, rfl, hQ⟩
      | succ i => exact ih hout

/-- **What is known under the strict policy is what the legacy policy gives.**  The same types are
registered under both policies, one block is built under each, and the same calls are made on both.
After every call and at every level the two blocks have entries for the same pins, and each pin of
the strict block is undefined or reads as in the legacy block; every map that the strict block
returns has its defined entries in common with the one that the legacy block returns. -/
theorem Block.strict_approximates_legacy (library : List Catalog.Registration) (name : String)
    (n : Netlist) (limits : Nat) (history : List Call) :
    let strict := ofDesign (((Catalog.ofPolicy .strict).offerAll library).design name n limits)
    let legacy := ofDesign (((Catalog.ofPolicy .legacy).offerAll library).design name n limits)
    (∀ k, State.Related PinMap.Below (strict.after (history.take k)).state
        (legacy.after (history.take k)).state) ∧
      ∀ (i : Nat) (out : PinMap), (strict.answers history)[i]? = some (some out) →
        ∃ out', (legacy.answers history)[i]? = some (some out') ∧ out.keys = out'.keys ∧
          ∀ pin v, v ≠ .undefined → out.get? pin = some v → out'.get? pin = some v := by
  intro strict legacy
  let c := (Catalog.ofPolicy .strict).offerAll library
  have hgrown : c.Grown .strict := Catalog.Grown.ofPolicy.offerAll library
  have hlegacy : ((Catalog.ofPolicy .legacy).offerAll library).design name n limits =
      (c.design name n limits).withPolicy .legacy := by
    rw [← Catalog.ofPolicy_withPolicy .strict .legacy, Catalog.offerAll_withPolicy,
      Catalog.design_withPolicy]
  have hcautious : (c.design name n limits).Everywhere Design.Cautious :=
    hgrown.everywhere_cautious (.inl rfl)
  have hcoupling := (hcautious.approximates_withPolicy .legacy).coupling
    (Design.netlist_withPolicy _ _).symm
  have hcold : State.Related PinMap.Below (c.design name n limits).cold
      ((c.design name n limits).withPolicy .legacy).cold := by
    rw [Design.cold_withPolicy]
    exact State.related_refl PinMap.Below.refl _
  have hcalls : List.Forall₂ (Call.Matches PinMap.Below (c.design name n limits).netlist
      ((c.design name n limits).withPolicy .legacy).netlist) history history := by
    rw [Design.netlist_withPolicy]
    exact List.forall₂_same.2 fun call _ => Call.matches_refl PinMap.Below.refl _ call
  rw [← hlegacy] at hcoupling hcold hcalls
  refine ⟨hcoupling.after_take hcalls hcold, fun i out hout => ?_⟩
  obtain ⟨out', hout', hbelow⟩ :=
    exists_answer_of_forall₂ (hcoupling.answers_and_after hcalls hcold).1 hout
  exact ⟨out', hout', NameMap.keys_eq_iff.2 hbelow.entries, fun pin v => hbelow.get?_eq⟩

end LogicBlock
