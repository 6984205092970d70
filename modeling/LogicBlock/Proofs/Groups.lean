/-
**Groups of joined pins.**

Nets join pins whichever way they point.  The groups of the wiring report are found by searches: one
starts at every pin that no earlier search has seen, and follows the nets from pin to pin.  A pin
may join the queue of a search several times, the nets may make cycles, and a net may lead from a
pin to itself.  Still a search ends, since a step that adds to the queue sees a pin for the first
time, and what it finds is what a chain of nets leads to.

The searches share the pins that have been seen.  What has been seen when a search starts is closed
under the nets, so no search runs into the pins of an earlier one, and every pin is found once.

Main definitions:

* `Net.opposites` — the pins at the other ends of a net;
* `Wiring.Joined` — pins that a chain of nets leads to;
* `Wiring.Mutual`, `Wiring.Closed` — nets lead both ways, and none leads out of a set of pins;
* `Search.Explores` — what a search from a pin keeps to.

Main results:

* `Netlist.get?_links` — the links of a pin are the other ends of its nets, in their order;
* `Search.reaches_run`, `Search.queue_run` — **a search ends**, and then no pin waits;
* `Search.Explores.step` — **what a step preserves**;
* `Search.Explores.mem_found_iff` — **a search finds the component** of its first pin;
* `Wiring.mem_groups_iff` — **the groups are the components** of at least two pins;
* `Wiring.groups_are_components` — all about the groups of a netlist.
-/

import LogicBlock.Wiring
import Mathlib.Data.List.Sort
import Mathlib.Logic.Relation

set_option relaxedAutoImplicit false
set_option autoImplicit false

namespace LogicBlock

/-! ### Links -/

/-- The pins at the other ends of a net, as seen from a pin.  From a pin to itself there are two. -/
def Net.opposites (net : Net) (pin : String) : List String :=
  (if net.source = pin then [net.destination] else []) ++
    if net.destination = pin then [net.source] else []

namespace Net

variable {net : Net} {pin other : String}

theorem mem_opposites_iff : other ∈ net.opposites pin ↔
    (net.source = pin ∧ net.destination = other) ∨
      (net.source = other ∧ net.destination = pin) := by
  rw [opposites, List.mem_append]
  refine or_congr ?_ ?_
  · split <;> simp_all [eq_comm]
  · split <;> simp_all [eq_comm]

end Net

namespace Netlist

open links (join)

theorem getD_join (links : NameMap (List String)) (pin other key : String) :
    ((join links pin other).get? key).getD [] =
      (links.get? key).getD [] ++ if pin = key then [other] else [] := by
  rw [join, NameMap.get?_insert]
  by_cases hkey : key = pin
  · subst hkey
    rw [if_pos rfl, if_pos rfl, Option.getD_some]
  · rw [if_neg hkey, if_neg (Ne.symm hkey), List.append_nil]

theorem contains_join_iff {links : NameMap (List String)} {pin other key : String} :
    (join links pin other).contains key ↔ key = pin ∨ links.contains key := by
  by_cases hkey : key = pin <;> simp [NameMap.contains, join, hkey]

/-- **Every net links each of its ends with the other one.** -/
theorem getD_get?_links (n : Netlist) (pin : String) :
    (n.links.get? pin).getD [] = n.nets.flatMap fun net => net.opposites pin := by
  have hfold : ∀ (nets : List Net) (links : NameMap (List String)),
      ((nets.foldl (fun links net =>
        join (join links net.source net.destination) net.destination net.source) links).get?
          pin).getD [] =
        (links.get? pin).getD [] ++ nets.flatMap fun net => net.opposites pin := by
    intro nets
    induction nets with
    | nil => intro links; rw [List.flatMap_nil, List.append_nil]; rfl
    | cons net rest ih =>
        intro links
        rw [List.foldl_cons, ih, getD_join, getD_join, List.flatMap_cons, Net.opposites,
          List.append_assoc, List.append_assoc, List.append_assoc]
  exact hfold n.nets .empty

/-- The pins with links are the ends of the nets. -/
theorem contains_links_iff {n : Netlist} {pin : String} :
    n.links.contains pin ↔ pin ∈ n.endpoints := by
  have hfold : ∀ (nets : List Net) (links : NameMap (List String)),
      (nets.foldl (fun links net =>
        join (join links net.source net.destination) net.destination net.source) links).contains
          pin ↔
        links.contains pin ∨ pin ∈ nets.flatMap fun net => [net.source, net.destination] := by
    intro nets
    induction nets with
    | nil => intro links; simp
    | cons net rest ih =>
        intro links
        rw [List.foldl_cons, ih, contains_join_iff, contains_join_iff, List.flatMap_cons,
          List.mem_append, List.mem_cons, List.mem_singleton]
        tauto
  exact (hfold n.nets .empty).trans (or_iff_right Bool.false_ne_true)

/-- **The links of a pin are the other ends of its nets**, in their order. -/
theorem get?_links (n : Netlist) (pin : String) :
    n.links.get? pin =
      if pin ∈ n.endpoints then some (n.nets.flatMap fun net => net.opposites pin) else none := by
  have hvalue := n.getD_get?_links pin
  have hentry : n.links.contains pin ↔ pin ∈ n.endpoints := n.contains_links_iff
  rw [NameMap.contains] at hentry
  cases hlinks : n.links.get? pin with
  | none =>
      rw [hlinks] at hentry
      rw [if_neg (mt hentry.2 Bool.false_ne_true)]
  | some others =>
      rw [hlinks] at hentry hvalue
      rw [if_pos (hentry.1 rfl), ← hvalue, Option.getD_some]

end Netlist

/-! ### Chains of nets -/

namespace Wiring

variable {w : Wiring} {a b : String}

theorem areConnected_iff : w.areConnected a b ↔ b ∈ w.linked a := by
  rw [areConnected, linked]
  cases w.links.get? a with
  | none => simp
  | some others => simp

/-- The second pin can be reached from the first one by a chain of nets. -/
def Joined (w : Wiring) (a b : String) : Prop :=
  Relation.ReflTransGen (fun a b => w.areConnected a b) a b

/-- Nets lead both ways. -/
def Mutual (w : Wiring) : Prop :=
  ∀ a b, w.areConnected a b → w.areConnected b a

theorem Mutual.joined_symm (hw : w.Mutual) (h : w.Joined a b) : w.Joined b a := by
  induction h with
  | refl => exact .refl
  | tail _ hstep ih => exact .head (hw _ _ hstep) ih

/-- A pin that is joined with another one is connected with another one. -/
theorem exists_ne_of_joined (hne : a ≠ b) (h : w.Joined a b) : ∃ c, c ≠ a ∧ w.areConnected a c := by
  induction h using Relation.ReflTransGen.head_induction_on with
  | refl => exact absurd rfl hne
  | @head a c hac _ ih =>
      by_cases hca : c = a
      · subst hca
        exact ih hne
      · exact ⟨c, hca, hac⟩

theorem contains_links_of_joined (hne : a ≠ b) (h : w.Joined a b) : w.links.contains a := by
  obtain ⟨c, -, hc⟩ := exists_ne_of_joined hne h
  rw [areConnected] at hc
  rw [NameMap.contains]
  cases hlinks : w.links.get? a with
  | none => rw [hlinks] at hc; cases hc
  | some others => rfl

/-- No net leads out of the set. -/
def Closed (w : Wiring) (s : NameSet) : Prop :=
  ∀ a b, s.contains a → w.areConnected a b → s.contains b

theorem Closed.contains_of_joined {s : NameSet} (hs : w.Closed s) (ha : s.contains a)
    (h : w.Joined a b) : s.contains b := by
  induction h with
  | refl => exact ha
  | tail _ hstep ih => exact hs _ _ ih hstep

/-- The links of a netlist: two pins are connected if they are the ends of a net. -/
theorem areConnected_ofNetlist_iff {c : Catalog} {n : Netlist} :
    (ofNetlist c n).areConnected a b ↔ ∃ net ∈ n.nets,
      (net.source = a ∧ net.destination = b) ∨ (net.source = b ∧ net.destination = a) := by
  have hlinked : (ofNetlist c n).linked a = n.nets.flatMap fun net => net.opposites a :=
    n.getD_get?_links a
  rw [areConnected_iff, hlinked, List.mem_flatMap]
  exact exists_congr fun net => and_congr_right fun _ => Net.mem_opposites_iff

theorem mutual_ofNetlist (c : Catalog) (n : Netlist) : (ofNetlist c n).Mutual := by
  intro a b h
  obtain ⟨net, hnet, h⟩ := areConnected_ofNetlist_iff.1 h
  exact areConnected_ofNetlist_iff.2 ⟨net, hnet, h.symm⟩

end Wiring

/-! ### Searches -/

namespace Search

variable {w : Wiring} {s next : Search}

/-- **A search ends**: after finitely many steps. -/
theorem reaches_run (w : Wiring) (s : Search) :
    Relation.ReflTransGen (fun s next : Search => s.step w = some next) s (s.run w) := by
  rw [run]
  split
  · exact .refl
  · rename_i next hnext
    exact .head hnext (reaches_run w next)
termination_by (s.unseen w, s.queue.length)
decreasing_by exact step_decreases ‹_›

/-- Then no pin waits. -/
theorem queue_run (w : Wiring) (s : Search) : (s.run w).queue = [] := by
  rw [run]
  split
  · rename_i hnone
    exact step_eq_none_iff.1 hnone
  · rename_i next hnext
    exact queue_run w next
termination_by (s.unseen w, s.queue.length)
decreasing_by exact step_decreases ‹_›

/-- **What a search keeps to** that starts at a pin when some pins have been seen: it has seen these
and what it has found, it finds new pins only and none twice, it goes along nets, and it has seen or
is going to look at all pins that it has met. -/
structure Explores (w : Wiring) (before : NameSet) (pin : String) (s : Search) : Prop where
  seen : ∀ b, s.seen.contains b ↔ before.contains b ∨ b ∈ s.found
  fresh : ∀ b ∈ s.found, ¬before.contains b
  nodup : s.found.Nodup
  joined : ∀ b, b ∈ s.found ∨ b ∈ s.queue → w.Joined pin b
  onward : ∀ a ∈ s.found, ∀ b, w.areConnected a b → s.seen.contains b ∨ b ∈ s.queue
  start : s.seen.contains pin ∨ pin ∈ s.queue

namespace Explores

variable {before : NameSet} {pin : String}

theorem init (w : Wiring) (before : NameSet) (pin : String) :
    Explores w before pin { seen := before, queue := [pin] } where
  seen b := by simp
  fresh b hb := absurd hb List.not_mem_nil
  nodup := List.nodup_nil
  joined b hb := by
    obtain rfl : b = pin := by simpa using hb
    exact .refl
  onward a ha := absurd ha List.not_mem_nil
  start := .inr List.mem_cons_self

/-- **A step keeps to it.** -/
theorem step (h : Explores w before pin s) (hstep : s.step w = some next) :
    Explores w before pin next := by
  obtain ⟨q, rest, hqueue, ⟨hq, rfl⟩ | ⟨hq, rfl⟩⟩ := step_cases hstep
  · -- the pin has been seen, so nothing is lost with it
    have hwaits : ∀ b, s.seen.contains b ∨ b ∈ s.queue → s.seen.contains b ∨ b ∈ rest := by
      intro b hb
      rw [hqueue, List.mem_cons] at hb
      rcases hb with hb | rfl | hb
      · exact .inl hb
      · exact .inl hq
      · exact .inr hb
    exact ⟨h.seen, h.fresh, h.nodup,
      fun b hb => h.joined b (hb.imp_right fun hb => hqueue ▸ List.mem_cons_of_mem q hb),
      fun a ha b hab => hwaits b (h.onward a ha b hab), hwaits pin h.start⟩
  · have hold : ¬(before.contains q ∨ q ∈ s.found) := mt (h.seen q).2 hq
    have hqueued : w.Joined pin q := h.joined q (.inr (hqueue ▸ List.mem_cons_self))
    have hwaits : ∀ b, s.seen.contains b ∨ b ∈ s.queue →
        (s.seen.add q).contains b ∨
          b ∈ rest ++ (w.linked q).filter fun other => !(s.seen.add q).contains other := by
      intro b hb
      rw [hqueue, List.mem_cons] at hb
      rw [NameSet.contains_add, List.mem_append]
      tauto
    refine ⟨fun b => ?_, fun b hb => ?_, ?_, fun b hb => ?_, fun a ha b hab => ?_, ?_⟩
    · rw [NameSet.contains_add, h.seen, List.mem_append, List.mem_singleton]
      tauto
    · rcases List.mem_append.1 hb with hb | hb
      · exact h.fresh b hb
      · rw [List.mem_singleton.1 hb]
        exact fun hbefore => hold (.inl hbefore)
    · refine h.nodup.append (List.nodup_singleton q) fun b hb hbq => ?_
      rw [List.mem_singleton.1 hbq] at hb
      exact hold (.inr hb)
    · simp only [List.mem_append, List.mem_singleton, List.mem_filter] at hb
      rcases hb with (hb | rfl) | hb | ⟨hb, -⟩
      · exact h.joined b (.inl hb)
      · exact hqueued
      · exact h.joined b (.inr (hqueue ▸ List.mem_cons_of_mem q hb))
      · exact hqueued.tail (Wiring.areConnected_iff.2 hb)
    · rcases List.mem_append.1 ha with ha | ha
      · exact hwaits b (h.onward a ha b hab)
      · -- the pins that the new one is linked with are seen or join the queue
        rw [List.mem_singleton.1 ha, Wiring.areConnected_iff] at hab
        by_cases hb : (s.seen.add q).contains b
        · exact .inl hb
        · exact .inr (List.mem_append_right rest (List.mem_filter.2 ⟨hab, by
            rw [Bool.eq_false_iff.2 hb, Bool.not_false]⟩))
    · exact hwaits pin h.start

/-- **What a whole search keeps to.** -/
theorem run (h : Explores w before pin s) : Explores w before pin (s.run w) := by
  have hreaches := reaches_run w s
  generalize s.run w = last at hreaches ⊢
  induction hreaches with
  | refl => exact h
  | tail _ hstep ih => exact ih.step hstep

/-- **A search that is over has found what its first pin is joined with**, if that pin is new and no
net leads from the pins seen before to others. -/
theorem mem_found_iff (h : Explores w before pin s) (hend : s.queue = []) (hw : w.Mutual)
    (hbefore : w.Closed before) (hpin : ¬before.contains pin) {b : String} :
    b ∈ s.found ↔ w.Joined pin b := by
  have hnotWaiting : ∀ a, ¬a ∈ s.queue := fun a ha => List.not_mem_nil (hend ▸ ha)
  constructor
  · exact fun hb => h.joined b (.inl hb)
  · intro hb
    induction hb with
    | refl =>
        have hseen := h.start.resolve_right (hnotWaiting pin)
        exact ((h.seen pin).1 hseen).resolve_left hpin
    | @tail a b _ hab ih =>
        have hseen := (h.onward a ih b hab).resolve_right (hnotWaiting b)
        -- a net back would lead from a pin seen before to one that was not
        refine ((h.seen b).1 hseen).resolve_left fun hb => h.fresh a ih ?_
        exact hbefore b a hb (hw a b hab)

end Explores

end Search

/-! ### Groups -/

namespace Wiring

variable {w : Wiring} {seen : NameSet} {pin : String} {pins : List String}

/-- Sorted names ascend if there is none twice. -/
theorem ascending_mergeSort {l : List String} (h : l.Nodup) : l.mergeSort.Pairwise (· < ·) := by
  have hle : l.mergeSort.Pairwise fun a b => decide (a ≤ b) = true := by
    refine List.pairwise_mergeSort (fun a b c hab hbc => ?_) (fun a b => ?_) l
    · exact decide_eq_true (String.le_trans (of_decide_eq_true hab) (of_decide_eq_true hbc))
    · rw [← Bool.decide_or]
      exact decide_eq_true (String.le_total a b)
  have hne : l.mergeSort.Pairwise (· ≠ ·) := (List.mergeSort_perm l _).nodup_iff.2 h
  refine (hle.and hne).imp fun hab => ?_
  exact NameMap.lt_of_not_lt_of_ne (of_decide_eq_true hab.1) hab.2.symm

/-- The first of some ascending names is the least. -/
theorem eq_or_lt_of_mem_head? {l : List String} (h : l.Pairwise (· < ·)) {a b : String}
    (ha : a ∈ l.head?) (hb : b ∈ l) : a = b ∨ a < b := by
  cases l with
  | nil => cases ha
  | cons first rest =>
      obtain rfl : first = a := Option.some.inj ha
      exact (List.mem_cons.1 hb).imp Eq.symm ((List.pairwise_cons.1 h).1 b)

section Search

variable (hw : w.Mutual) (hseen : w.Closed seen) (hpin : ¬seen.contains pin)

include hw hseen hpin

/-- **The group of a new pin** lists what the pin is joined with. -/
theorem mem_mergeSort_found_iff {b : String} :
    b ∈ (Search.run w { seen, queue := [pin] }).found.mergeSort ↔ w.Joined pin b := by
  rw [List.mem_mergeSort]
  exact (Search.Explores.init w seen pin).run.mem_found_iff (Search.queue_run w _) hw hseen hpin

/-- After the search the component of its first pin has been seen as well. -/
theorem contains_seen_run_iff {b : String} :
    (Search.run w { seen, queue := [pin] }).seen.contains b ↔
      seen.contains b ∨ w.Joined pin b := by
  rw [(Search.Explores.init w seen pin).run.seen b, ← List.mem_mergeSort,
    mem_mergeSort_found_iff hw hseen hpin]

/-- No net leads out of what has been seen after the search. -/
theorem closed_seen_run : w.Closed (Search.run w { seen, queue := [pin] }).seen := by
  intro a b ha hab
  rw [contains_seen_run_iff hw hseen hpin] at ha ⊢
  exact ha.imp (fun ha => hseen a b ha hab) fun ha => ha.tail hab

end Search

/-- **The groups of some pins are the components** of those that have not been seen, as far as they
have at least two pins. -/
theorem mem_groupsFrom_iff (hw : w.Mutual) (hseen : w.Closed seen) {g : List String} :
    g ∈ w.groupsFrom seen pins ↔ 2 ≤ g.length ∧ g.Pairwise (· < ·) ∧
      ∃ a ∈ pins, ¬seen.contains a ∧ ∀ b, b ∈ g ↔ w.Joined a b := by
  induction pins generalizing seen with
  | nil => simp [groupsFrom]
  | cons pin rest ih =>
      simp only [groupsFrom]
      split
      · rename_i hpin
        rw [ih hseen]
        simp [hpin]
      · rename_i hpin
        have hgroup := fun b => mem_mergeSort_found_iff hw hseen hpin (b := b)
        have hnodup := (Search.Explores.init w seen pin).run.nodup
        have hafter := fun b => contains_seen_run_iff hw hseen hpin (b := b)
        have ih := ih (closed_seen_run hw hseen hpin)
        have hcases : ∀ (found : List String) (others : List (List String)),
            g ∈ (if 1 < found.length then found.mergeSort :: others else others) ↔
              (2 ≤ found.length ∧ g = found.mergeSort) ∨ g ∈ others := by
          intro found others
          split
          · rename_i hlength
            rw [List.mem_cons, and_iff_right (Nat.succ_le_of_lt hlength)]
          · rename_i hlength
            exact ⟨.inr, fun hg => hg.resolve_left fun hg => hlength hg.1⟩
        rw [hcases, ih]
        constructor
        · rintro (⟨hlength, rfl⟩ | ⟨hlength, hascending, a, ha, hnew, hcomponent⟩)
          · exact ⟨(List.length_mergeSort _).symm ▸ hlength, ascending_mergeSort hnodup, pin,
              List.mem_cons_self, hpin, hgroup⟩
          · exact ⟨hlength, hascending, a, List.mem_cons_of_mem pin ha,
              fun hbefore => hnew ((hafter a).2 (.inl hbefore)), hcomponent⟩
        · rintro ⟨hlength, hascending, a, ha, hnew, hcomponent⟩
          by_cases hjoined : w.Joined pin a
          · -- a pin of the same component stands for the same group
            have hsame : ∀ b, b ∈ g ↔ w.Joined pin b := fun b =>
              (hcomponent b).trans ⟨hjoined.trans, (hw.joined_symm hjoined).trans⟩
            have heq := hascending.eq_of_mem_iff (ascending_mergeSort hnodup) fun b =>
              (hsame b).trans (hgroup b).symm
            exact .inl ⟨List.length_mergeSort _ ▸ heq ▸ hlength, heq⟩
          · have hrest : a ∈ rest := (List.mem_cons.1 ha).resolve_left fun heq =>
              hjoined (heq ▸ .refl)
            exact .inr ⟨hlength, hascending, a, hrest,
              fun hlater => ((hafter a).1 hlater).elim hnew hjoined, hcomponent⟩

/-- The pins of a group are among the given pins, if these are all the pins that have links and have
not been seen. -/
theorem mem_of_mem_groupsFrom (hw : w.Mutual) (hseen : w.Closed seen)
    (hpins : ∀ a, w.links.contains a → seen.contains a ∨ a ∈ pins) {g : List String}
    (hg : g ∈ w.groupsFrom seen pins) {b : String} (hb : b ∈ g) : b ∈ pins := by
  obtain ⟨-, -, a, ha, hnew, hcomponent⟩ := (mem_groupsFrom_iff hw hseen).1 hg
  have hjoined := (hcomponent b).1 hb
  by_cases heq : b = a
  · exact heq ▸ ha
  · have hback := hw.joined_symm hjoined
    exact (hpins b (contains_links_of_joined heq hback)).resolve_left fun hbefore =>
      hnew (hseen.contains_of_joined hbefore hback)

/-- **Groups come in the order of their first pins.** -/
theorem pairwise_head_groupsFrom (hw : w.Mutual) (hseen : w.Closed seen)
    (hascending : pins.Pairwise (· < ·))
    (hpins : ∀ a, w.links.contains a → seen.contains a ∨ a ∈ pins) :
    (w.groupsFrom seen pins).Pairwise fun g g' => ∀ a ∈ g.head?, ∀ b ∈ g'.head?, a < b := by
  induction pins generalizing seen with
  | nil => exact .nil
  | cons pin rest ih =>
      obtain ⟨hfirst, hrest⟩ := List.pairwise_cons.1 hascending
      simp only [groupsFrom]
      split
      · rename_i hpin
        refine ih hseen hrest fun a ha => ?_
        rcases hpins a ha with ha | ha
        · exact .inl ha
        · rcases List.mem_cons.1 ha with rfl | ha
          · exact .inl hpin
          · exact .inr ha
      · rename_i hpin
        have hlater : ∀ a, w.links.contains a →
            (Search.run w { seen, queue := [pin] }).seen.contains a ∨ a ∈ rest := by
          intro a ha
          rw [contains_seen_run_iff hw hseen hpin]
          rcases hpins a ha with ha | ha
          · exact .inl (.inl ha)
          · rcases List.mem_cons.1 ha with rfl | ha
            · exact .inl (.inr .refl)
            · exact .inr ha
        have hclosed := closed_seen_run hw hseen hpin
        have hothers := ih hclosed hrest hlater
        split
        · refine List.pairwise_cons.2 ⟨fun g' hg' a ha b hb => ?_, hothers⟩
          -- the pin that the search started from lies between the two first pins
          have hascending := ascending_mergeSort (Search.Explores.init w seen pin).run.nodup
          have hpin' := (mem_mergeSort_found_iff hw hseen hpin).2 (.refl : w.Joined pin pin)
          have hb' : b ∈ rest :=
            mem_of_mem_groupsFrom hw hclosed hlater hg' (List.mem_of_mem_head? hb)
          rcases eq_or_lt_of_mem_head? hascending ha hpin' with rfl | hlt
          · exact hfirst b hb'
          · exact String.lt_trans hlt (hfirst b hb')
        · exact hothers

/-! ### The groups of all pins -/

theorem closed_empty (w : Wiring) : w.Closed .empty := by
  intro a b ha
  cases ha

/-- Among two ascending names there is one that differs from a given one. -/
theorem exists_mem_ne {g : List String} (hlength : 2 ≤ g.length) (hascending : g.Pairwise (· < ·))
    (a : String) : ∃ b ∈ g, a ≠ b := by
  match g, hlength with
  | first :: second :: rest, _ =>
      have hlt : first < second := (List.pairwise_cons.1 hascending).1 second List.mem_cons_self
      by_cases hfirst : a = first
      · refine ⟨second, by simp, fun hsecond => ?_⟩
        rw [← hfirst, ← hsecond] at hlt
        exact String.lt_irrefl a hlt
      · exact ⟨first, List.mem_cons_self, hfirst⟩

/-- **The groups are the components** of at least two pins, in the order of names. -/
theorem mem_groups_iff (hw : w.Mutual) {g : List String} :
    g ∈ w.groups ↔
      2 ≤ g.length ∧ g.Pairwise (· < ·) ∧ ∃ a ∈ g, ∀ b, b ∈ g ↔ w.Joined a b := by
  rw [groups, mem_groupsFrom_iff hw w.closed_empty]
  refine and_congr_right fun hlength => and_congr_right fun hascending => ?_
  constructor
  · rintro ⟨a, -, -, hcomponent⟩
    exact ⟨a, (hcomponent a).2 .refl, hcomponent⟩
  · rintro ⟨a, ha, hcomponent⟩
    -- a pin of a group has links, since there is another pin in the group
    obtain ⟨b, hb, hne⟩ := exists_mem_ne hlength hascending a
    have hlinks := contains_links_of_joined hne ((hcomponent b).1 hb)
    exact ⟨a, (w.links.mem_keys_iff a).2 hlinks, Bool.false_ne_true, hcomponent⟩

/-- **Two pins are in one group** if they are joined. -/
theorem exists_mem_groups_iff (hw : w.Mutual) {a b : String} (hne : a ≠ b) :
    (∃ g ∈ w.groups, a ∈ g ∧ b ∈ g) ↔ w.Joined a b := by
  constructor
  · rintro ⟨g, hg, ha, hb⟩
    obtain ⟨-, -, c, -, hcomponent⟩ := (mem_groups_iff hw).1 hg
    exact (hw.joined_symm ((hcomponent a).1 ha)).trans ((hcomponent b).1 hb)
  · intro h
    classical
    -- the linked pins that the first pin is joined with, in the order of names
    let g := w.links.keys.filter fun c => decide (w.Joined a c)
    have hmem : ∀ c, c ∈ g ↔ w.Joined a c := by
      intro c
      rw [List.mem_filter, decide_eq_true_iff]
      refine and_iff_right_of_imp fun hc => (w.links.mem_keys_iff c).2 ?_
      by_cases hac : a = c
      · exact contains_links_of_joined (hac ▸ hne) (hac ▸ h)
      · exact contains_links_of_joined (Ne.symm hac) (hw.joined_symm hc)
    have ha : a ∈ g := (hmem a).2 .refl
    have hb : b ∈ g := (hmem b).2 h
    have hlength : 2 ≤ g.length := by
      have hsub : [a, b].Subperm g :=
        List.subperm_of_subset (by simpa using hne) (by simp [ha, hb])
      exact hsub.length_le
    exact ⟨g, (mem_groups_iff hw).2
      ⟨hlength, w.links.pairwise_keys.filter _, a, ha, hmem⟩, ha, hb⟩

theorem pairwise_head_groups (hw : w.Mutual) :
    w.groups.Pairwise fun g g' => ∀ a ∈ g.head?, ∀ b ∈ g'.head?, a < b :=
  pairwise_head_groupsFrom hw w.closed_empty w.links.pairwise_keys fun a ha =>
    .inr ((w.links.mem_keys_iff a).2 ha)

/-- **A pin is listed** if it is connected with another one. -/
theorem mem_flatten_groups_iff (hw : w.Mutual) {a : String} :
    a ∈ w.groups.flatten ↔ ∃ b, b ≠ a ∧ w.areConnected a b := by
  rw [List.mem_flatten]
  constructor
  · rintro ⟨g, hg, ha⟩
    obtain ⟨hlength, hascending, -⟩ := (mem_groups_iff hw).1 hg
    obtain ⟨b, hb, hne⟩ := exists_mem_ne hlength hascending a
    exact exists_ne_of_joined hne ((exists_mem_groups_iff hw hne).1 ⟨g, hg, ha, hb⟩)
  · rintro ⟨b, hne, hab⟩
    obtain ⟨g, hg, ha, -⟩ := (exists_mem_groups_iff hw (Ne.symm hne)).2 (.single hab)
    exact ⟨g, hg, ha⟩

/-- **No pin is listed twice.** -/
theorem nodup_flatten_groups (hw : w.Mutual) : w.groups.flatten.Nodup := by
  refine List.nodup_flatten.2 ⟨fun g hg => ?_, ?_⟩
  · obtain ⟨-, hascending, -⟩ := (mem_groups_iff hw).1 hg
    exact hascending.imp String.ne_of_lt
  · refine (pairwise_head_groups hw).imp_of_mem fun {g g'} hg hg' hheads a ha ha' => ?_
    -- groups that share a pin are equal, but their first pins differ
    obtain ⟨-, hascending, b, -, hcomponent⟩ := (mem_groups_iff hw).1 hg
    obtain ⟨-, hascending', b', -, hcomponent'⟩ := (mem_groups_iff hw).1 hg'
    have hjoined : w.Joined b b' :=
      ((hcomponent a).1 ha).trans (hw.joined_symm ((hcomponent' a).1 ha'))
    have heq : g = g' := hascending.eq_of_mem_iff hascending' fun c =>
      (hcomponent c).trans
        (⟨(hw.joined_symm hjoined).trans, hjoined.trans⟩ : w.Joined b c ↔ w.Joined b' c) |>.trans
        (hcomponent' c).symm
    obtain ⟨first, hfirst⟩ : ∃ first, first ∈ g.head? := by
      rw [List.head?_eq_some_head (List.ne_nil_of_mem ha)]
      exact ⟨_, rfl⟩
    exact String.lt_irrefl first (hheads first hfirst first (heq ▸ hfirst))

/-- **The groups of a netlist are its connected components** of at least two pins.

Two pins are connected if they are the ends of one net, whichever way it points, and the pins that a
pin is connected with are listed net by net, a net from the pin to itself twice.  The search for a
group ends, wherever it starts.  A list is a group exactly if it lists such a component in the order
of names, and the groups come in the order of their first pins.  So two pins are in one group if a
chain of connected pins leads from one to the other, an end of a net between two pins is listed
once, and a pin that is on no such net is not listed. -/
theorem groups_are_components (c : Catalog) (n : Netlist) :
    let w := ofNetlist c n
    let joined := Relation.ReflTransGen fun a b => w.areConnected a b = true
    (∀ a b, w.areConnected a b ↔ ∃ net ∈ n.nets,
      (net.source = a ∧ net.destination = b) ∨ (net.source = b ∧ net.destination = a)) ∧
    (∀ a b, w.areConnected a b = w.areConnected b a) ∧
    (∀ a, w.connectedPins? a =
      if a ∈ n.endpoints then some (n.nets.flatMap fun net => net.opposites a) else none) ∧
    (∀ s : Search, (s.run w).step w = none ∧
      Relation.ReflTransGen (fun s next : Search => s.step w = some next) s (s.run w)) ∧
    (∀ g, g ∈ w.groups ↔
      2 ≤ g.length ∧ g.Pairwise (· < ·) ∧ ∃ a ∈ g, ∀ b, b ∈ g ↔ joined a b) ∧
    w.groups.Pairwise (fun g g' => ∀ a ∈ g.head?, ∀ b ∈ g'.head?, a < b) ∧
    (∀ a b, a ≠ b → ((∃ g ∈ w.groups, a ∈ g ∧ b ∈ g) ↔ joined a b)) ∧
    (∀ net ∈ n.nets, net.source ≠ net.destination →
      ∀ pin ∈ [net.source, net.destination], w.groups.flatten.count pin = 1) ∧
    (∀ pin, (∀ net ∈ n.nets, pin ∈ [net.source, net.destination] →
      net.source = net.destination) → pin ∉ w.groups.flatten) := by
  intro w joined
  have hw : w.Mutual := mutual_ofNetlist c n
  refine ⟨fun a b => areConnected_ofNetlist_iff, fun a b => ?_, fun a => ?_,
    fun s => ⟨?_, s.reaches_run w⟩, fun g => mem_groups_iff hw, pairwise_head_groups hw,
    fun a b hne => exists_mem_groups_iff hw hne, fun net hnet hne pin hpin => ?_,
    fun pin hpin hlisted => ?_⟩
  · rw [Bool.eq_iff_iff]
    exact ⟨hw a b, hw b a⟩
  · exact n.get?_links a
  · rw [Search.step_eq_none_iff]
    exact s.queue_run w
  · -- both ends of the net are connected with another pin
    refine List.count_eq_one_of_mem (nodup_flatten_groups hw) ((mem_flatten_groups_iff hw).2 ?_)
    rcases List.mem_cons.1 hpin with rfl | hpin
    · exact ⟨net.destination, Ne.symm hne,
        areConnected_ofNetlist_iff.2 ⟨net, hnet, .inl ⟨rfl, rfl⟩⟩⟩
    · rw [List.mem_singleton.1 hpin]
      exact ⟨net.source, hne, areConnected_ofNetlist_iff.2 ⟨net, hnet, .inr ⟨rfl, rfl⟩⟩⟩
  · obtain ⟨b, hne, hb⟩ := (mem_flatten_groups_iff hw).1 hlisted
    obtain ⟨net, hnet, ⟨rfl, rfl⟩ | ⟨rfl, rfl⟩⟩ := areConnected_ofNetlist_iff.1 hb
    · exact hne (hpin net hnet List.mem_cons_self).symm
    · exact hne (hpin net hnet (by simp))

/-- A cycle with a parallel net, and two nets from a pin to itself. -/
example :
    (ofNetlist .basic { nets := [⟨"1", "D", "C"⟩, ⟨"2", "C", "B"⟩, ⟨"3", "B", "D"⟩, ⟨"4", "D", "B"⟩,
      ⟨"5", "A", "A"⟩, ⟨"6", "F", "F"⟩, ⟨"7", "E", "F"⟩] }).groups =
      [["B", "C", "D"], ["E", "F"]] := by
  cbv

end Wiring

end LogicBlock
