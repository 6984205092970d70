/-
**Pin ids.**

A pin is named by a string.  A port of the block itself has the name of its direction; a pin of an
element has the name of the element, a dot, and a suffix: a terminal number for a gate, a direction
for a nested block.  Element names may contain dots, so a pin belongs to the part of its id before
the *last* dot.

Main definitions:

* `Pin.terminal`, `Pin.port` — the ids of a gate's terminals and of a nested block's ports;
* `Pin.owner?` — the element name in a pin id, if the id has a dot.

Main results:

* `Pin.owner?_terminal`, `Pin.owner?_port` — **the owner is read back**, whatever its name;
* `Pin.owner?_eq_some_iff` — the owner is what stands before the last dot;
* `Pin.owner?_direction` — a port of the block itself has no owner;
* `Pin.ofOwner_inj`, `Pin.port_inj` — pins of different owners, or with different suffixes, differ.
-/

import LogicBlock.Direction

set_option relaxedAutoImplicit false
set_option autoImplicit false

namespace LogicBlock

namespace Pin

/-- The pin of the element `owner` with the given suffix. -/
def ofOwner (owner suffix : String) : String :=
  owner ++ "." ++ suffix

/-- The id of terminal `index` of a gate: 0 and 1 are its inputs, 2 is its output. -/
def terminal (owner : String) (index : Nat) : String :=
  ofOwner owner index.repr

/-- The id of a port of a nested block. -/
def port (owner : String) (d : Direction) : String :=
  ofOwner owner d.name

/-- The characters before the last dot. -/
def beforeLastDot : List Char → Option (List Char)
  | [] => none
  | c :: cs =>
    match beforeLastDot cs with
    | some before => some (c :: before)
    | none => if c = '.' then some [] else none

/-- The name of the element that a pin id refers to: the part before the last dot. -/
def owner? (pin : String) : Option String :=
  (beforeLastDot pin.toList).map String.ofList

theorem beforeLastDot_eq_none_iff (cs : List Char) : beforeLastDot cs = none ↔ '.' ∉ cs := by
  induction cs with
  | nil => simp [beforeLastDot]
  | cons c cs ih =>
    by_cases hc : c = '.'
    · cases h : beforeLastDot cs <;> simp [beforeLastDot, h, hc]
    · cases h : beforeLastDot cs <;> simp [beforeLastDot, h, hc, Ne.symm hc, ← ih]

theorem beforeLastDot_append (owner suffix : List Char) (h : '.' ∉ suffix) :
    beforeLastDot (owner ++ '.' :: suffix) = some owner := by
  induction owner with
  | nil => simp [beforeLastDot, (beforeLastDot_eq_none_iff suffix).2 h]
  | cons c owner ih => simp [beforeLastDot, ih]

theorem exists_eq_of_beforeLastDot {cs owner : List Char} (h : beforeLastDot cs = some owner) :
    ∃ suffix, '.' ∉ suffix ∧ cs = owner ++ '.' :: suffix := by
  induction cs generalizing owner with
  | nil => cases h
  | cons c cs ih =>
    cases hcs : beforeLastDot cs with
    | some before =>
      obtain ⟨suffix, hdot, hsplit⟩ := ih hcs
      have howner : c :: before = owner := by simpa [beforeLastDot, hcs] using h
      exact ⟨suffix, hdot, by rw [← howner, hsplit, List.cons_append]⟩
    | none =>
      -- there is no dot behind the first character, so it is the last dot
      have hlast : c = '.' ∧ owner = [] := by simpa [beforeLastDot, hcs, eq_comm] using h
      obtain ⟨rfl, rfl⟩ := hlast
      exact ⟨cs, (beforeLastDot_eq_none_iff cs).1 hcs, rfl⟩

/-- **The owner of a pin is read back**, for any owner and any suffix without a dot. -/
theorem owner?_ofOwner (owner suffix : String) (h : '.' ∉ suffix.toList) :
    owner? (ofOwner owner suffix) = some owner := by
  have := beforeLastDot_append owner.toList suffix.toList h
  simp [owner?, ofOwner, this]

/-- **The owner stands before the last dot.** -/
theorem owner?_eq_some_iff {pin owner : String} :
    owner? pin = some owner ↔ ∃ suffix, '.' ∉ suffix.toList ∧ pin = ofOwner owner suffix := by
  constructor
  · intro h
    obtain ⟨before, hbefore, rfl⟩ := Option.map_eq_some_iff.1 h
    obtain ⟨suffix, hdot, hsplit⟩ := exists_eq_of_beforeLastDot hbefore
    refine ⟨String.ofList suffix, by simpa using hdot, String.toList_inj.1 ?_⟩
    simp [ofOwner, hsplit]
  · rintro ⟨suffix, hdot, rfl⟩
    exact owner?_ofOwner owner suffix hdot

/-- The name of a direction has no dot. -/
theorem dot_notMem_direction (d : Direction) : '.' ∉ d.name.toList := by
  cases d <;> decide

/-- A terminal number has no dot. -/
theorem dot_notMem_repr (n : Nat) : '.' ∉ n.repr.toList := by
  rw [Nat.repr_eq_ofList_toDigits, String.toList_ofList]
  intro h
  exact absurd (Nat.isDigit_of_mem_toDigits (by decide) (by decide) h) (by decide)

@[simp] theorem owner?_terminal (owner : String) (index : Nat) :
    owner? (terminal owner index) = some owner :=
  owner?_ofOwner owner index.repr (dot_notMem_repr index)

@[simp] theorem owner?_port (owner : String) (d : Direction) :
    owner? (port owner d) = some owner :=
  owner?_ofOwner owner d.name (dot_notMem_direction d)

/-- A port of the block itself belongs to no element. -/
@[simp] theorem owner?_direction (d : Direction) : owner? d.name = none := by
  rw [owner?, (beforeLastDot_eq_none_iff d.name.toList).2 (dot_notMem_direction d), Option.map_none]

/-- **A pin id determines its owner and its suffix**, for suffixes without a dot. -/
theorem ofOwner_inj {owner owner' suffix suffix' : String} (h : '.' ∉ suffix.toList)
    (h' : '.' ∉ suffix'.toList) :
    ofOwner owner suffix = ofOwner owner' suffix' ↔ owner = owner' ∧ suffix = suffix' := by
  constructor
  · intro heq
    have howner : owner = owner' := by
      have := owner?_ofOwner owner suffix h
      rw [heq, owner?_ofOwner owner' suffix' h'] at this
      exact (Option.some.inj this).symm
    subst howner
    have hlist := congrArg String.toList heq
    simp only [ofOwner, String.toList_append, List.append_cancel_left_eq] at hlist
    exact ⟨rfl, String.toList_inj.1 hlist⟩
  · rintro ⟨rfl, rfl⟩
    rfl

theorem port_inj {owner owner' : String} {d d' : Direction} :
    port owner d = port owner' d' ↔ owner = owner' ∧ d = d' := by
  rw [port, port, ofOwner_inj (dot_notMem_direction d) (dot_notMem_direction d')]
  exact and_congr_right fun _ => ⟨Direction.name_injective, fun h => h ▸ rfl⟩

end Pin

end LogicBlock
