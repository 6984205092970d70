/-
**Finite sets of names.**

A set of names is a map that gives its members no value.

Main definitions:

* `NameSet` — the sets, with `NameMap.contains` for membership;
* `NameSet.add`, `NameSet.ofNames` — one more name, and the set of a list of names;
* `NameSet.absent` — how many names of a list are not in a set.

Main results:

* `NameSet.contains_add`, `NameSet.contains_ofNames` — who is a member;
* `NameSet.add_of_contains`, `NameSet.size_add_of_not_contains` — adding a name makes a set larger
  exactly if it was not a member;
* `NameSet.absent_lt` — a set that has gained a listed name leaves fewer of them out.
-/

import LogicBlock.NameMap.Lemmas

set_option relaxedAutoImplicit false
set_option autoImplicit false

namespace LogicBlock

/-- Finite sets of names, listed in ascending order by `NameMap.keys`. -/
abbrev NameSet := NameMap Unit

namespace NameSet

/-- The set with one more name. -/
def add (s : NameSet) (name : String) : NameSet :=
  s.insert name ()

/-- The set of the given names. -/
def ofNames (names : List String) : NameSet :=
  NameMap.ofList (names.map fun name => (name, ()))

/-- The number of listed names that are not in a set. -/
def absent (s : NameSet) (names : List String) : Nat :=
  names.countP fun name => !s.contains name

@[simp] theorem contains_add (s : NameSet) (name other : String) :
    (s.add name).contains other ↔ other = name ∨ s.contains other := by
  by_cases h : other = name <;> simp [NameMap.contains, add, h]

@[simp] theorem contains_ofNames (names : List String) (name : String) :
    (ofNames names).contains name ↔ name ∈ names := by
  by_cases h : name ∈ names <;> simp [NameMap.contains, ofNames, NameMap.get?_ofList_const, h]

/-- Adding a name that is there changes nothing. -/
theorem add_of_contains {s : NameSet} {name : String} (h : s.contains name) : s.add name = s := by
  refine NameMap.ext_get? fun key => ?_
  rw [add, NameMap.get?_insert]
  split
  · rename_i hk
    subst hk
    obtain ⟨u, hu⟩ := Option.isSome_iff_exists.1 h
    exact hu.symm
  · rfl

/-- Adding a name that is not there makes the set larger. -/
theorem size_add_of_not_contains {s : NameSet} {name : String} (h : ¬s.contains name) :
    (s.add name).size = s.size + 1 := by
  have hlen : ∀ l : List (String × Unit), NameMap.lookup name l = none →
      (NameMap.insertEntry name () l).length = l.length + 1 := by
    intro l hl
    induction l with
    | nil => rfl
    | cons e rest ih =>
      have hne : name ≠ e.1 := by
        rintro rfl
        simp [NameMap.lookup] at hl
      have hrest : NameMap.lookup name rest = none := by
        simpa [NameMap.lookup, hne] using hl
      simp only [NameMap.insertEntry]
      split
      · rfl
      · simp [ih hrest]
  have hnone : s.get? name = none := by
    simpa [NameMap.contains] using h
  exact hlen s.entries hnone

/-- A larger set leaves no more of the listed names out. -/
theorem absent_le {s t : NameSet} (hsub : ∀ name, s.contains name → t.contains name)
    (names : List String) : t.absent names ≤ s.absent names := by
  refine List.countP_mono_left fun name _ ht => ?_
  rw [Bool.not_eq_true'] at ht ⊢
  exact Bool.eq_false_iff.2 fun hs => Bool.eq_false_iff.1 ht (hsub name hs)

/-- **A larger set leaves fewer of the listed names out**, if it has gained one of them. -/
theorem absent_lt {s t : NameSet} (hsub : ∀ name, s.contains name → t.contains name)
    {names : List String} {name : String} (hname : name ∈ names) (hs : ¬s.contains name)
    (ht : t.contains name) : t.absent names < s.absent names := by
  induction names with
  | nil => cases hname
  | cons other rest ih =>
      have hle := absent_le hsub rest
      unfold absent at hle ih ⊢
      rw [List.countP_cons, List.countP_cons]
      rcases List.mem_cons.1 hname with rfl | hname
      · simp only [ht, hs]
        simpa using Nat.lt_succ_of_le hle
      · have hlt := ih hname
        by_cases hother : s.contains other
        · simp only [hother, hsub other hother]
          exact hlt
        · simp only [hother]
          split <;> simp <;> omega

end NameSet

end LogicBlock
