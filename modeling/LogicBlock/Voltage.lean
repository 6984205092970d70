/-
**Tri-state voltage levels.**

A pin of a logic block carries one of three levels: high, low, or undefined.  The third level
stands for "nothing is known yet": it is what a pin holds before anything drives it.

Main definitions:

* `Voltage` — the three levels, `Voltage.undefined` being the default;
* `Voltage.name`, `Voltage.ofName?` — the words `HIGH`, `UNDEFINED` and `LOW`;
* `Voltage.symbol` — the one-character form used when a pin table is printed;
* `Voltage.code`, `Voltage.ofCode?` — the integer level shown to the outside world;
* `Voltage.Below` — the information order: undefined lies below everything.
-/

set_option relaxedAutoImplicit false
set_option autoImplicit false

namespace LogicBlock

/-- The level of a pin. -/
inductive Voltage where
  | high
  | undefined
  | low
  deriving DecidableEq

namespace Voltage

instance : Inhabited Voltage := ⟨undefined⟩

/-- The word for a level. -/
def name : Voltage → String
  | high => "HIGH"
  | undefined => "UNDEFINED"
  | low => "LOW"

/-- The level that a word names; the spelling is exact. -/
def ofName? (word : String) : Option Voltage :=
  [high, undefined, low].find? (·.name = word)

@[simp] theorem ofName?_name (v : Voltage) : ofName? v.name = some v := by
  cases v <;> rfl

/-- The one-character form of a level. -/
def symbol : Voltage → Char
  | high => '1'
  | undefined => 'X'
  | low => '0'

/-- The integer level that stands for a voltage outside the block.  It carries no meaning for the
logic itself. -/
def code : Voltage → Nat
  | high => 14
  | undefined => 8
  | low => 2

/-- The level with a given integer code. -/
def ofCode? : Nat → Option Voltage
  | 14 => some high
  | 8 => some undefined
  | 2 => some low
  | _ => none

@[simp] theorem ofCode?_code (v : Voltage) : ofCode? v.code = some v := by
  cases v <;> rfl

/-- High for true, low for false. -/
def ofBool : Bool → Voltage
  | true => high
  | false => low

/-- The truth value of a level, if it has one. -/
def toBool? : Voltage → Option Bool
  | high => some true
  | undefined => none
  | low => some false

@[simp] theorem toBool?_ofBool (b : Bool) : (ofBool b).toBool? = some b := by
  cases b <;> rfl

/-- A level is defined when it is high or low. -/
def isDefined (v : Voltage) : Bool :=
  v != undefined

/-- The information order: `v.Below w` when `v` is undefined or equal to `w`. -/
def Below (v w : Voltage) : Prop :=
  v = undefined ∨ v = w

instance (v w : Voltage) : Decidable (v.Below w) :=
  inferInstanceAs (Decidable (_ ∨ _))

@[simp] theorem Below.refl (v : Voltage) : v.Below v :=
  Or.inr rfl

@[simp] theorem undefined_below (v : Voltage) : undefined.Below v :=
  Or.inl rfl

theorem Below.trans {u v w : Voltage} (huv : u.Below v) (hvw : v.Below w) : u.Below w := by
  rcases huv with rfl | rfl
  · exact undefined_below w
  · exact hvw

theorem Below.antisymm {v w : Voltage} (hvw : v.Below w) (hwv : w.Below v) : v = w := by
  rcases hvw with rfl | rfl
  · rcases hwv with rfl | rfl <;> rfl
  · rfl

end Voltage

end LogicBlock
