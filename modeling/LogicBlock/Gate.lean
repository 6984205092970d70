/-
**Two-input gates on three levels.**

A gate combines the levels of its two input pins into the level of its output pin.  And, or and
xor give undefined as soon as one input is undefined.  Nor follows a policy: the legacy one takes
two undefined inputs for low, the strict one never guesses.

Main definitions:

* `GateKind`, `NorPolicy` — which function a gate computes;
* `GateKind.apply` — the truth tables;
* `Gate`, `Gate.inputPins`, `Gate.outputPin` — a gate instance and its pins;
* `Gate.evaluate` — the level that a gate writes, given a pin table.
-/

import LogicBlock.Pin
import LogicBlock.PinMap

set_option relaxedAutoImplicit false
set_option autoImplicit false

namespace LogicBlock

/-- The gate kinds that a model type can name. -/
inductive GateKind where
  | and
  | or
  | xor
  | nor
  deriving DecidableEq

/-- How nor treats undefined inputs. -/
inductive NorPolicy where
  /-- Low beside undefined gives undefined; two undefined inputs give low. -/
  | legacy
  /-- A high input gives low, two low inputs give high, all else is undefined. -/
  | strict
  deriving DecidableEq

namespace NorPolicy

instance : Inhabited NorPolicy := ⟨legacy⟩

/-- The word for a policy. -/
def name : NorPolicy → String
  | legacy => "legacy"
  | strict => "strict"

/-- The policy that a word names. -/
def ofName? (word : String) : Option NorPolicy :=
  [legacy, strict].find? (·.name = word)

@[simp] theorem ofName?_name (p : NorPolicy) : ofName? p.name = some p := by
  cases p <;> rfl

end NorPolicy

namespace GateKind

/-- The four kinds. -/
def all : List GateKind :=
  [and, or, xor, nor]

/-- The type name of a kind. -/
def name : GateKind → String
  | and => "AND"
  | or => "OR"
  | xor => "XOR"
  | nor => "NOR"

/-- The kind with a given type name; the spelling is exact. -/
def ofName? (word : String) : Option GateKind :=
  all.find? (·.name = word)

@[simp] theorem mem_all (k : GateKind) : k ∈ all := by
  cases k <;> simp [all]

@[simp] theorem ofName?_name (k : GateKind) : ofName? k.name = some k := by
  cases k <;> rfl

/-- The output level of a gate. -/
def apply (policy : NorPolicy) : GateKind → Voltage → Voltage → Voltage
  | and, .high, .high => .high
  | and, .undefined, _ => .undefined
  | and, _, .undefined => .undefined
  | and, _, _ => .low
  | or, .undefined, _ => .undefined
  | or, _, .undefined => .undefined
  | or, .low, .low => .low
  | or, _, _ => .high
  | xor, .undefined, _ => .undefined
  | xor, _, .undefined => .undefined
  | xor, a, b => .ofBool (a != b)
  | nor, a, b =>
    match policy, a, b with
    | _, .low, .low => .high
    | .legacy, .low, .undefined => .undefined
    | .legacy, .undefined, .low => .undefined
    | .legacy, _, _ => .low
    | .strict, .high, _ => .low
    | .strict, _, .high => .low
    | .strict, _, _ => .undefined

/-- **On defined levels a gate computes its Boolean function**, under either policy. -/
theorem apply_ofBool (policy : NorPolicy) (k : GateKind) (a b : Bool) :
    k.apply policy (.ofBool a) (.ofBool b) =
      .ofBool (match k with
        | and => a && b
        | or => a || b
        | xor => a != b
        | nor => !(a || b)) := by
  cases policy <;> cases k <;> cases a <;> cases b <;> rfl

end GateKind

/-- A word that names no gate kind. -/
structure UnknownGateKind where
  word : String

/-- The text of the error. -/
def UnknownGateKind.message (e : UnknownGateKind) : String :=
  "Unknown gate kind: " ++ e.word

/-- Reads the type name of a gate. -/
def GateKind.read (word : String) : Except UnknownGateKind GateKind :=
  match GateKind.ofName? word with
  | some k => .ok k
  | none => .error ⟨word⟩

/-- A gate instance. -/
structure Gate where
  name : String
  kind : GateKind
  policy : NorPolicy := .legacy
  deriving DecidableEq

namespace Gate

/-- The two input pins. -/
def inputPins (g : Gate) : List String :=
  [Pin.terminal g.name 0, Pin.terminal g.name 1]

/-- The output pin. -/
def outputPin (g : Gate) : String :=
  Pin.terminal g.name 2

/-- The level that the gate puts out, given the levels in a pin table. -/
def outputValue (g : Gate) (pins : PinMap) : Voltage :=
  g.kind.apply g.policy (pins.read (Pin.terminal g.name 0)) (pins.read (Pin.terminal g.name 1))

/-- What the gate writes: its output level at its output pin. -/
def evaluate (g : Gate) (pins : PinMap) : PinMap :=
  NameMap.empty.insert g.outputPin (g.outputValue pins)

end Gate

end LogicBlock
