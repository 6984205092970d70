/-
**Pin maps.**

A pin map gives voltages to pins.  It serves as the assignment that is applied to a block, as the
result that comes out of it, and as the table in which a block keeps all its pins.  Reading a pin
that has no entry gives undefined, so a table need not list the pins that nothing has written.

Main definitions:

* `PinMap` — finite maps from pin ids to voltages;
* `PinMap.read` — the level of a pin, undefined if it has no entry;
* `PinMap.assign`, `PinMap.copy`, `PinMap.clear` — the ways a table changes;
* `PinMap.restrictTo` — the part of a table on given pins;
* `PinMap.render` — the table as text.

Main results:

* `PinMap.get?_assign`, `PinMap.get?_copy`, `PinMap.get?_clear`, `PinMap.get?_restrictTo` — one
  equation for each operation;
* `PinMap.read_insert`, `PinMap.read_assign`, `PinMap.read_copy`, `PinMap.read_clear`,
  `PinMap.read_restrictTo` — what each operation does to every reading;
* `PinMap.contains_assign_iff`, `PinMap.contains_copy_iff`, `PinMap.contains_clear_iff` — what each
  change does to the entries; none takes one away;
* `PinMap.ext_read` — a table is its entries and its readings.
-/

import LogicBlock.NameMap.Lemmas
import LogicBlock.Voltage

set_option relaxedAutoImplicit false
set_option autoImplicit false

namespace LogicBlock

/-- Voltages by pin id. -/
abbrev PinMap := NameMap Voltage

namespace PinMap

/-- The level of a pin.  A pin without an entry is undefined. -/
def read (m : PinMap) (pin : String) : Voltage :=
  (m.get? pin).getD .undefined

/-- Writes every entry of `values` into the table. -/
def assign (m values : PinMap) : PinMap :=
  m.override values

/-- Writes the level of `source` to `destination`. -/
def copy (m : PinMap) (source destination : String) : PinMap :=
  m.insert destination (m.read source)

/-- Sets every pin that has an entry to undefined. -/
def clear (m : PinMap) : PinMap :=
  m.map fun _ => .undefined

/-- The entries of the given pins.  A pin without an entry stays without one. -/
def restrictTo (m : PinMap) (pins : List String) : PinMap :=
  m.restrict pins.contains

/-- The table in braces, every pin with the symbol of its level. -/
def render (m : PinMap) : String :=
  "\x7b" ++ ", ".intercalate (m.entries.map fun e => e.1 ++ "=" ++ e.2.symbol.toString) ++ "\x7d"

/-! ### Lookup -/

/-- **An assignment has the entries of both tables**; at a pin in both, the assigned one. -/
@[simp] theorem get?_assign (m values : PinMap) (pin : String) :
    (m.assign values).get? pin = (values.get? pin).or (m.get? pin) :=
  NameMap.get?_override m values pin

@[simp] theorem get?_copy (m : PinMap) (source destination pin : String) :
    (m.copy source destination).get? pin =
      if pin = destination then some (m.read source) else m.get? pin :=
  NameMap.get?_insert m destination (m.read source) pin

@[simp] theorem get?_clear (m : PinMap) (pin : String) :
    m.clear.get? pin = (m.get? pin).map fun _ => .undefined :=
  NameMap.get?_map _ m pin

@[simp] theorem get?_restrictTo (m : PinMap) (pins : List String) (pin : String) :
    (m.restrictTo pins).get? pin = if pin ∈ pins then m.get? pin else none := by
  simp [restrictTo]

/-! ### Readings -/

@[simp] theorem read_empty (pin : String) : read .empty pin = .undefined :=
  rfl

@[simp] theorem read_insert (m : PinMap) (key : String) (v : Voltage) (pin : String) :
    read (m.insert key v) pin = if pin = key then v else m.read pin := by
  by_cases h : pin = key <;> simp [read, h]

/-- **An assigned pin reads as assigned, and any other pin as before.** -/
@[simp] theorem read_assign (m values : PinMap) (pin : String) :
    (m.assign values).read pin = ((values.get? pin).getD (m.read pin)) := by
  cases h : values.get? pin <;> simp [read, h]

@[simp] theorem read_copy (m : PinMap) (source destination pin : String) :
    (m.copy source destination).read pin =
      if pin = destination then m.read source else m.read pin :=
  read_insert m destination (m.read source) pin

@[simp] theorem read_clear (m : PinMap) (pin : String) : m.clear.read pin = .undefined := by
  cases h : m.get? pin <;> simp [read, h]

@[simp] theorem read_restrictTo (m : PinMap) (pins : List String) (pin : String) :
    (m.restrictTo pins).read pin = if pin ∈ pins then m.read pin else .undefined := by
  rw [read, get?_restrictTo]
  split <;> rfl

/-! ### Entries -/

theorem contains_assign_iff {m values : PinMap} {pin : String} :
    (m.assign values).contains pin ↔ values.contains pin ∨ m.contains pin := by
  cases hv : values.get? pin <;> simp [NameMap.contains, hv]

theorem contains_copy_iff {m : PinMap} {source destination pin : String} :
    (m.copy source destination).contains pin ↔ pin = destination ∨ m.contains pin := by
  by_cases hd : pin = destination <;> simp [NameMap.contains, hd]

theorem contains_clear_iff {m : PinMap} {pin : String} :
    m.clear.contains pin ↔ m.contains pin := by
  simp [NameMap.contains]

theorem contains_restrictTo_iff {m : PinMap} {pins : List String} {pin : String} :
    (m.restrictTo pins).contains pin ↔ pin ∈ pins ∧ m.contains pin := by
  by_cases hp : pin ∈ pins <;> simp [NameMap.contains, hp]

theorem read_of_not_contains {m : PinMap} {pin : String} (h : ¬m.contains pin) :
    m.read pin = .undefined := by
  rw [NameMap.contains, Option.not_isSome_iff_eq_none] at h
  rw [read, h]
  rfl

/-- What a pin reads after an assignment that has an entry for it, and after one that has none. -/
theorem read_assign_of_contains {m values : PinMap} {pin : String} (h : values.contains pin) :
    (m.assign values).read pin = values.read pin := by
  obtain ⟨v, hv⟩ := Option.isSome_iff_exists.1 h
  have hread : values.read pin = v := by
    rw [read, hv, Option.getD_some]
  rw [read_assign, hv, hread, Option.getD_some]

theorem read_assign_of_not_contains {m values : PinMap} {pin : String}
    (h : ¬values.contains pin) : (m.assign values).read pin = m.read pin := by
  rw [NameMap.contains, Option.not_isSome_iff_eq_none] at h
  rw [read_assign, h]
  rfl

theorem get?_congr {m n : PinMap} {pin : String}
    (hentry : m.contains pin = n.contains pin) (hread : m.read pin = n.read pin) :
    m.get? pin = n.get? pin := by
  rw [NameMap.contains, NameMap.contains] at hentry
  rw [read, read] at hread
  cases hm : m.get? pin <;> cases hn : n.get? pin <;> simp_all

/-- **Tables with the same entries and the same readings are equal.** -/
theorem ext_read {m n : PinMap} (hentries : ∀ pin, m.contains pin = n.contains pin)
    (hread : ∀ pin, m.read pin = n.read pin) : m = n :=
  NameMap.ext_get? fun pin => get?_congr (hentries pin) (hread pin)

end PinMap

end LogicBlock
