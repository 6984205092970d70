/-
**Reading netlists line by line.**

A written netlist is scanned once, from top to bottom.  Marker lines lead from section to section
in a fixed order, and every other line is a record of the section that is open.  Blank lines mean
nothing, and neither does any line before the first marker or after the last one.

A line is read into the scan at hand, piece by piece, and a refusal undoes nothing.  A text is read
up to its first refusal, so that only the scans between the lines count; a scan that is fed line by
line goes on with whatever a refused line has left.

Main definitions:

* `Section` — where a scan stands, `Section.next?` being the marker that leads on;
* `FormatError`, `FormatError.message` — why a line or a text is refused;
* `Scan`, `Scan.take` — the scan, and one line that is read in place;
* `Scan.feed`, `Scan.offer` — what a line leads to, for a scan that ends at a refusal and for one
  that goes on;
* `Scan.finish`, `Netlist.parse` — the netlist that was read, and the one that a text describes.

Main results:

* `Scan.feed_of_blank`, `Scan.feed_of_marker`, `Scan.feed_of_record` — the three kinds of lines;
* `Scan.feedMarker_eq`, `Scan.feedRecord_inputs` and so on — what a marker does, and a record.
-/

import LogicBlock.Netlist
import LogicBlock.Text.Blank
import LogicBlock.Text.Lines

set_option relaxedAutoImplicit false
set_option autoImplicit false

namespace LogicBlock

/-! ### Errors -/

/-- Why a netlist text is refused.  Lines are counted from 1. -/
inductive FormatError where
  /-- A section is missing, or records stand before the first section. -/
  | missingSection (marker : Marker)
  /-- A marker stands where another one should come first. -/
  | unexpectedMarker (line : Nat) (marker : Marker)
  /-- A port record is no direction. -/
  | unknownDirection (line : Nat) (token : String)
  /-- A model record does not have the form of one. -/
  | malformedModel (line : Nat) (content : String)
  /-- A net record does not have the form of one. -/
  | malformedNet (line : Nat) (content : String)
  deriving DecidableEq

/-- The text of a format error. -/
def FormatError.message : FormatError → String
  | missingSection marker => "missing section marker '" ++ marker.text ++ "'"
  | unexpectedMarker line marker =>
    "line " ++ line.repr ++ ": marker '" ++ marker.text ++ "' is out of order"
  | unknownDirection line token =>
    "line " ++ line.repr ++ ": unknown direction '" ++ token ++ "'"
  | malformedModel line content =>
    "line " ++ line.repr ++ ": malformed model '" ++ content ++ "', expected '<name>; <type>'"
  | malformedNet line content =>
    "line " ++ line.repr ++ ": malformed net '" ++ content ++
      "', expected '<name>; <source> <destination>'"

/-- The line that a format error points at, if it points at one. -/
def FormatError.line? : FormatError → Option Nat
  | missingSection _ => none
  | unexpectedMarker line _ => some line
  | unknownDirection line _ => some line
  | malformedModel line _ => some line
  | malformedNet line _ => some line

/-! ### Records -/

/-- The direction that a port record names. -/
def Direction.ofRecord (line : Nat) (record : String) : Except FormatError Direction :=
  match Direction.ofName? record with
  | some d => .ok d
  | none => .error (.unknownDirection line record)

/-- The model that a record describes: two fields around one semicolon. -/
def Model.ofRecord? (record : String) : Option Model :=
  match (Text.split ';' record).map Text.trim with
  | [name, type] => some ⟨name, type⟩
  | _ => none

/-- The net that a record describes: a name, a semicolon, and two pins around one space. -/
def Net.ofRecord? (record : String) : Option Net :=
  match (Text.split ';' record).map Text.trim with
  | [name, connection] =>
    match Text.split ' ' connection with
    | [source, destination] =>
      if source.isEmpty || destination.isEmpty then none else some ⟨name, source, destination⟩
    | _ => none
  | _ => none

/-- The model of a record, or the error that names the record. -/
def Model.ofRecord (line : Nat) (record : String) : Except FormatError Model :=
  match Model.ofRecord? record with
  | some m => .ok m
  | none => .error (.malformedModel line record)

/-- The net of a record, or the error that names the record. -/
def Net.ofRecord (line : Nat) (record : String) : Except FormatError Net :=
  match Net.ofRecord? record with
  | some n => .ok n
  | none => .error (.malformedNet line record)

/-! ### Sections -/

/-- Where a scan stands: before the netlist, in one of its sections, or after it. -/
inductive Section where
  | beforeStart
  | header
  | inputs
  | outputs
  | models
  | nets
  | ended
  deriving DecidableEq

namespace Section

/-- The marker that ends a section. -/
def next? : Section → Option Marker
  | beforeStart => some .netlist
  | header => some .inputs
  | inputs => some .outputs
  | outputs => some .models
  | models => some .nets
  | nets => some .finish
  | ended => none

/-- The section that a marker opens. -/
def after : Marker → Section
  | .netlist => header
  | .inputs => inputs
  | .outputs => outputs
  | .models => models
  | .nets => nets
  | .finish => ended

/-- The marker without which a netlist is incomplete.  The last section may stay open. -/
def pending? : Section → Option Marker
  | nets => none
  | s => s.next?

/-- Outside the netlist no line means anything. -/
def isOutside (s : Section) : Bool :=
  s = beforeStart || s = ended

end Section

/-! ### The scan -/

/-- A scan under way: where it stands and what it has collected. -/
structure Scan where
  current : Section := .beforeStart
  netlist : Netlist := {}
  deriving DecidableEq

namespace Scan

/-! ### Reading in place -/

/-- Reads a marker line into the scan at hand.  Out of its turn it is refused, unless the scan is
outside the netlist. -/
def takeMarker (line : Nat) (marker : Marker) : EStateM FormatError Scan Unit := do
  let s ← get
  if s.current.next? = some marker then
    set { s with current := .after marker }
  else if s.current.isOutside then
    return
  else
    throw (.unexpectedMarker line marker)

/-- Adds what has been read from a record to the netlist, if it could be read. -/
def collect {α : Type} (item : Except FormatError α) (put : Netlist → α → Netlist) :
    EStateM FormatError Scan Unit := do
  let a ← MonadExcept.ofExcept item
  modify fun s => { s with netlist := put s.netlist a }

/-- Reads a record into the scan at hand.  It counts for the section that is open. -/
def takeRecord (line : Nat) (record : String) : EStateM FormatError Scan Unit := do
  match (← get).current with
  | .beforeStart | .ended => return
  | .header => throw (.missingSection .inputs)
  | .inputs =>
    collect (Direction.ofRecord line record) fun n d => { n with inputs := n.inputs ++ [d] }
  | .outputs =>
    collect (Direction.ofRecord line record) fun n d => { n with outputs := n.outputs ++ [d] }
  | .models =>
    collect (Model.ofRecord line record) fun n m => { n with models := n.models ++ [m] }
  | .nets =>
    collect (Net.ofRecord line record) fun n net => { n with nets := n.nets ++ [net] }

/-- Reads one line into the scan at hand.  The blanks at its ends do not count.  A refusal does not
undo what was done before it. -/
def take (line : Nat) (raw : String) : EStateM FormatError Scan Unit := do
  let content := Text.trim raw
  if content.isEmpty then
    return
  match Marker.ofText? content with
  | some marker => takeMarker line marker
  | none => takeRecord line content

/-! ### What a line leads to -/

/-- The scan that a reading in place leads to, or its refusal. -/
def result (reading : EStateM FormatError Scan Unit) (s : Scan) : Except FormatError Scan :=
  match reading.run s with
  | .ok _ s' => .ok s'
  | .error e _ => .error e

/-- The scan after a marker line. -/
def feedMarker (s : Scan) (line : Nat) (marker : Marker) : Except FormatError Scan :=
  result (takeMarker line marker) s

/-- The scan after a record. -/
def feedRecord (s : Scan) (line : Nat) (record : String) : Except FormatError Scan :=
  result (takeRecord line record) s

/-- The scan after one line. -/
def feed (s : Scan) (line : Nat) (raw : String) : Except FormatError Scan :=
  result (take line raw) s

/-- Reads lines that are numbered from `line` on, up to the first refusal. -/
def feedLines (s : Scan) (line : Nat) : List String → Except FormatError Scan
  | [] => .ok s
  | raw :: rest =>
    match s.feed line raw with
    | .ok s' => s'.feedLines (line + 1) rest
    | .error e => .error e

/-- Reads one line and goes on, whether it is refused or not: the scan as the line has left it, and
the refusal. -/
def offer (s : Scan) (line : Nat) (raw : String) : Scan × Option FormatError :=
  match (take line raw).run s with
  | .ok _ s' => (s', none)
  | .error e s' => (s', some e)

/-- The netlist that was read, if no marker is missing. -/
def finish (s : Scan) : Except FormatError Netlist :=
  match s.current.pending? with
  | some marker => .error (.missingSection marker)
  | none => .ok s.netlist

/-! ### The kinds of lines -/

section

variable {raw : String} (s : Scan) (n : Netlist) (line : Nat) (record : String)

/-- Blank lines mean nothing. -/
theorem feed_of_blank (h : Text.trim raw = "") : s.feed line raw = .ok s := by
  rw [feed, take, h]
  rfl

theorem feed_of_marker {marker : Marker} (h : Marker.ofText? (Text.trim raw) = some marker) :
    s.feed line raw = s.feedMarker line marker := by
  rw [Marker.ofText?_eq_some_iff] at h
  rw [feed, take, h]
  cases marker <;> rfl

/-- A line that is no marker is a record. -/
theorem feed_of_record (hraw : Text.trim raw ≠ "") (h : Marker.ofText? (Text.trim raw) = none) :
    s.feed line raw = s.feedRecord line (Text.trim raw) := by
  have hempty : ¬(Text.trim raw).isEmpty := by simpa using hraw
  rw [feed, take, if_neg hempty, h]
  rfl

/-- A reading that looks at the scan looks at the one at hand. -/
theorem result_get_bind (reading : Scan → EStateM FormatError Scan Unit) :
    result (get >>= reading) s = result (reading s) s :=
  rfl

theorem feedMarker_eq (marker : Marker) :
    s.feedMarker line marker =
      if s.current.next? = some marker then .ok { s with current := .after marker }
      else if s.current.isOutside then .ok s
      else .error (.unexpectedMarker line marker) := by
  rw [feedMarker, takeMarker, result_get_bind]
  split
  · rfl
  · split
    · rfl
    · rfl

/-- Outside the netlist a line that is no marker means nothing. -/
theorem feedRecord_of_isOutside (houtside : s.current.isOutside) :
    s.feedRecord line record = .ok s := by
  obtain ⟨current, netlist⟩ := s
  cases current with
  | beforeStart => rfl
  | ended => rfl
  | header | inputs | outputs | models | nets => cases houtside

/-- Between the start of the netlist and its first section there are no records. -/
theorem feedRecord_header :
    (Scan.mk .header n).feedRecord line record = .error (.missingSection .inputs) :=
  rfl

/-- What can be read from a record is put into the netlist. -/
theorem result_collect {α : Type} (item : Except FormatError α) (put : Netlist → α → Netlist)
    (current : Section) :
    result (collect item put) ⟨current, n⟩ = do
      let a ← item
      return ⟨current, put n a⟩ := by
  cases item with
  | error e => rfl
  | ok a => rfl

theorem feedRecord_inputs :
    (Scan.mk .inputs n).feedRecord line record = do
      let d ← Direction.ofRecord line record
      return ⟨.inputs, { n with inputs := n.inputs ++ [d] }⟩ := by
  rw [feedRecord, takeRecord, result_get_bind]
  exact result_collect n _ _ _

theorem feedRecord_outputs :
    (Scan.mk .outputs n).feedRecord line record = do
      let d ← Direction.ofRecord line record
      return ⟨.outputs, { n with outputs := n.outputs ++ [d] }⟩ := by
  rw [feedRecord, takeRecord, result_get_bind]
  exact result_collect n _ _ _

theorem feedRecord_models :
    (Scan.mk .models n).feedRecord line record = do
      let m ← Model.ofRecord line record
      return ⟨.models, { n with models := n.models ++ [m] }⟩ := by
  rw [feedRecord, takeRecord, result_get_bind]
  exact result_collect n _ _ _

theorem feedRecord_nets :
    (Scan.mk .nets n).feedRecord line record = do
      let net ← Net.ofRecord line record
      return ⟨.nets, { n with nets := n.nets ++ [net] }⟩ := by
  rw [feedRecord, takeRecord, result_get_bind]
  exact result_collect n _ _ _

end

end Scan

/-- The netlist that a text describes. -/
def Netlist.parse (text : String) : Except FormatError Netlist :=
  match ({} : Scan).feedLines 1 (Text.lines text) with
  | .ok s => s.finish
  | .error e => .error e

end LogicBlock
