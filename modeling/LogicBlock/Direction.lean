/-
**The six ports of a logic block.**

A block is a cell in space: signals enter and leave through its six faces.  The name of a face is
also the id of its pin in the block's own pin table.

Main definitions:

* `Direction` — the six faces, with `Direction.all` listing them;
* `Direction.name`, `Direction.ofName?` — their upper-case names, which are case-sensitive;
* `Direction.read` — reading a name, with `UnknownDirection` for any other word.
-/

set_option relaxedAutoImplicit false
set_option autoImplicit false

namespace LogicBlock

/-- A face of a logic block. -/
inductive Direction where
  | north
  | south
  | east
  | west
  | up
  | down
  deriving DecidableEq

namespace Direction

/-- The six faces. -/
def all : List Direction :=
  [north, south, east, west, up, down]

/-- The name of a face. -/
def name : Direction → String
  | north => "NORTH"
  | south => "SOUTH"
  | east => "EAST"
  | west => "WEST"
  | up => "UP"
  | down => "DOWN"

/-- The face with a given name; the spelling is exact. -/
def ofName? (word : String) : Option Direction :=
  all.find? (·.name = word)

@[simp] theorem mem_all (d : Direction) : d ∈ all := by
  cases d <;> simp [all]

@[simp] theorem ofName?_name (d : Direction) : ofName? d.name = some d := by
  cases d <;> rfl

/-- **A word names a face exactly when it is the face's name.** -/
theorem ofName?_eq_some_iff {word : String} {d : Direction} :
    ofName? word = some d ↔ word = d.name := by
  constructor
  · intro h
    have := List.find?_some h
    simpa using (by simpa using this : d.name = word).symm
  · rintro rfl
    exact ofName?_name d

/-- Distinct faces have distinct names. -/
theorem name_injective {d e : Direction} (h : d.name = e.name) : d = e := by
  have := ofName?_name d
  rw [h, ofName?_name] at this
  exact (Option.some.inj this).symm

end Direction

/-- A word that names none of the six faces. -/
structure UnknownDirection where
  word : String

/-- The text of the error. -/
def UnknownDirection.message (e : UnknownDirection) : String :=
  "unknown direction '" ++ e.word ++ "'"

/-- Reads the name of a face. -/
def Direction.read (word : String) : Except UnknownDirection Direction :=
  match Direction.ofName? word with
  | some d => .ok d
  | none => .error ⟨word⟩

end LogicBlock
