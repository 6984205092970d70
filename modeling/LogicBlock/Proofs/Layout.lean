/-
**Layout does not matter.**

A line counts for what it is without its blank ends, and a blank line counts for nothing.  So what
is read from a text can be said with the pieces between its line feeds, without their blank ends.
A carriage return in front of a line feed is the blank end of a piece.  The lines of a text are
these pieces, but for carriage returns at the ends and an empty piece behind the last line feed; and
that makes no difference.

Blank lines that are put in shift the lines behind them.  A number of a line is used for nothing but
the error that points at it, so the error is the same but for the shift.

Main definitions:

* `Text.Edit` — one change of the line ends or of the blanks at the ends of a line;
* `Text.pieces` — the pieces between line feeds, without their blank ends;
* `Text.spread`, `Text.blanksBefore` — blank lines that are put in, and how many of them stand
  before a line;
* `FormatError.renumber` — the same error at another line.

Main results:

* `Text.Edit.pieces_eq` — a change of the layout keeps the pieces;
* `Scan.feedLines_congr`, `Scan.feedLines_lines` — lines are read as the pieces between line feeds;
* `Scan.feed_renumber`, `Scan.feedLines_spread` — **errors move with the lines that they point at**;
* `Netlist.layout_does_not_matter` — **layout does not matter**.
-/

import LogicBlock.Proofs.Refusals
import Mathlib.Logic.Relation

set_option relaxedAutoImplicit false
set_option autoImplicit false

namespace LogicBlock

/-! ### Blank ends of lines -/

namespace Text

/-- Blank characters other than line feeds. -/
def AreBlanks (blanks : String) : Prop :=
  ∀ c ∈ blanks.toList, isBlank c ∧ c ≠ '\n'

-- over the list, since there is also an instance that goes through all characters
instance (blanks : String) : Decidable (AreBlanks blanks) :=
  List.decidableBAll (fun c => isBlank c ∧ c ≠ '\n') blanks.toList

/-- One change of the layout of a text: a carriage return in front of a line feed, or blanks at the
start of a line or at its end.  The end of a line is in front of a line feed, with or without a
carriage return, or at the end of the text. -/
inductive Edit : String → String → Prop
  | carriageReturn (before after : String) :
      Edit (before ++ "\n" ++ after) (before ++ "\r\n" ++ after)
  | lineStart {before after blanks : String} (hblanks : AreBlanks blanks)
      (hbefore : before = "" ∨ ∃ text, before = text ++ "\n") :
      Edit (before ++ after) (before ++ blanks ++ after)
  | lineEnd {before after blanks : String} (hblanks : AreBlanks blanks)
      (hafter : after = "" ∨ ∃ text, after = "\n" ++ text ∨ after = "\r\n" ++ text) :
      Edit (before ++ after) (before ++ blanks ++ after)

/-- The pieces of a text between line feeds, without their blank ends. -/
def pieces (cs : List Char) : List (List Char) :=
  (cs.splitOn '\n').map trimChars

theorem pieces_append_lineFeed (before after : List Char) :
    pieces (before ++ '\n' :: after) = pieces before ++ pieces after := by
  rw [pieces, List.splitOn_append_cons_self, List.map_append, pieces, pieces]

theorem pieces_of_notMem {cs : List Char} (h : '\n' ∉ cs) : pieces cs = [trimChars cs] := by
  rw [pieces, List.splitOn_eq_singleton h, List.map_singleton]

variable {blanks : List Char}

/-- **Blanks in front of a text** are blanks in front of its first line. -/
theorem pieces_blanks_append (hblanks : ∀ c ∈ blanks, isBlank c ∧ c ≠ '\n') (cs : List Char) :
    pieces (blanks ++ cs) = pieces cs := by
  have hblank : ∀ c ∈ blanks, isBlank c := fun c hc => (hblanks c hc).1
  have hfeed : '\n' ∉ blanks := fun h => (hblanks _ h).2 rfl
  by_cases hcs : '\n' ∈ cs
  · obtain ⟨line, rest, rfl, hline⟩ := List.eq_append_cons_of_mem hcs
    have hfirst : '\n' ∉ blanks ++ line := by simp [hfeed, hline]
    rw [← List.append_assoc, pieces_append_lineFeed, pieces_append_lineFeed,
      pieces_of_notMem hfirst, pieces_of_notMem hline, trimChars_blanks_append hblank]
  · have hfirst : '\n' ∉ blanks ++ cs := by simp [hfeed, hcs]
    rw [pieces_of_notMem hfirst, pieces_of_notMem hcs, trimChars_blanks_append hblank]

/-- **Blanks behind a text** are blanks behind its last line. -/
theorem pieces_append_blanks (hblanks : ∀ c ∈ blanks, isBlank c ∧ c ≠ '\n') (cs : List Char) :
    pieces (cs ++ blanks) = pieces cs := by
  have hblank : ∀ c ∈ blanks, isBlank c := fun c hc => (hblanks c hc).1
  have hfeed : '\n' ∉ blanks := fun h => (hblanks _ h).2 rfl
  by_cases hcs : '\n' ∈ cs
  · -- the last line is the first one from behind
    obtain ⟨line, rest, hsplit, hline⟩ := List.eq_append_cons_of_mem (List.mem_reverse.2 hcs)
    obtain rfl : cs = rest.reverse ++ '\n' :: line.reverse := by
      rw [← List.reverse_reverse cs, hsplit]
      simp
    have hbefore : '\n' ∉ line.reverse := by simpa using hline
    have hlast : '\n' ∉ line.reverse ++ blanks := by simp [hfeed, hline]
    rw [List.append_assoc, List.cons_append, pieces_append_lineFeed, pieces_append_lineFeed,
      pieces_of_notMem hlast, pieces_of_notMem hbefore, trimChars_append_blanks hblank]
  · have hlast : '\n' ∉ cs ++ blanks := by simp [hfeed, hcs]
    rw [pieces_of_notMem hlast, pieces_of_notMem hcs, trimChars_append_blanks hblank]

/-- A carriage return in front of a line feed is a blank at the end of a line. -/
theorem pieces_append_return (before : List Char) :
    pieces (before ++ ['\r']) = pieces before := by
  refine pieces_append_blanks (fun c hc => ?_) before
  rw [List.mem_singleton.1 hc]
  decide

/-- **A change of the layout** changes no piece between line feeds but its blank ends. -/
theorem Edit.pieces_eq {t t' : String} (h : Edit t t') :
    pieces t'.toList = pieces t.toList := by
  cases h with
  | carriageReturn before after =>
      have hedited : (before ++ "\r\n" ++ after).toList =
          (before.toList ++ ['\r']) ++ '\n' :: after.toList := by simp
      have horiginal : (before ++ "\n" ++ after).toList =
          before.toList ++ '\n' :: after.toList := by simp
      rw [hedited, horiginal, pieces_append_lineFeed, pieces_append_lineFeed,
        pieces_append_return]
  | @lineStart before after blanks hblanks hbefore =>
      rcases hbefore with rfl | ⟨text, rfl⟩
      · simpa using pieces_blanks_append hblanks after.toList
      · have hedited : (text ++ "\n" ++ blanks ++ after).toList =
            text.toList ++ '\n' :: (blanks.toList ++ after.toList) := by simp
        have horiginal : (text ++ "\n" ++ after).toList =
            text.toList ++ '\n' :: after.toList := by simp
        rw [hedited, horiginal, pieces_append_lineFeed, pieces_append_lineFeed,
          pieces_blanks_append hblanks]
  | @lineEnd before after blanks hblanks hafter =>
      rcases hafter with rfl | ⟨text, rfl | rfl⟩
      · simpa using pieces_append_blanks hblanks before.toList
      · have hedited : (before ++ blanks ++ ("\n" ++ text)).toList =
            (before.toList ++ blanks.toList) ++ '\n' :: text.toList := by simp
        have horiginal : (before ++ ("\n" ++ text)).toList =
            before.toList ++ '\n' :: text.toList := by simp
        rw [hedited, horiginal, pieces_append_lineFeed, pieces_append_lineFeed,
          pieces_append_blanks hblanks]
      · have hedited : (before ++ blanks ++ ("\r\n" ++ text)).toList =
            (before.toList ++ blanks.toList ++ ['\r']) ++ '\n' :: text.toList := by simp
        have horiginal : (before ++ ("\r\n" ++ text)).toList =
            (before.toList ++ ['\r']) ++ '\n' :: text.toList := by simp
        rw [hedited, horiginal, pieces_append_lineFeed, pieces_append_lineFeed,
          pieces_append_return, pieces_append_return, pieces_append_blanks hblanks]

theorem map_trim_split_lineFeed (t : String) :
    (split '\n' t).map trim = (pieces t.toList).map String.ofList := by
  rw [split, pieces, List.map_map, List.map_map]
  refine List.map_congr_left fun cs _ => ?_
  rw [Function.comp, Function.comp, trim, String.toList_ofList]

/-! ### Blank lines -/

/-- Blank lines in front of each of some lines, and behind the last. -/
def spread : List (List String × String) → List String → List String
  | [], behind => behind
  | (blanks, line) :: rest, behind => blanks ++ line :: spread rest behind

/-- How many blank lines are put in before the line with a number, counted from 1. -/
def blanksBefore (spacing : List (List String × String)) (line : Nat) : Nat :=
  ((spacing.take line).flatMap (·.1)).length

theorem blanksBefore_cons (blanks : List String) (line : String)
    (rest : List (List String × String)) (n : Nat) :
    blanksBefore ((blanks, line) :: rest) (n + 1) = blanks.length + blanksBefore rest n := by
  rw [blanksBefore, List.take_succ_cons, List.flatMap_cons, List.length_append, blanksBefore]

end Text

/-- The same error at another line. -/
def FormatError.renumber (f : Nat → Nat) : FormatError → FormatError
  | missingSection marker => missingSection marker
  | unexpectedMarker line marker => unexpectedMarker (f line) marker
  | unknownDirection line token => unknownDirection (f line) token
  | malformedModel line content => malformedModel (f line) content
  | malformedNet line content => malformedNet (f line) content

section Records

variable (f : Nat → Nat) (line : Nat) (record : String)

theorem Direction.ofRecord_renumber :
    ofRecord (f line) record = (ofRecord line record).mapError (.renumber f) := by
  rw [ofRecord, ofRecord]
  cases ofName? record <;> rfl

theorem Model.ofRecord_renumber :
    ofRecord (f line) record = (ofRecord line record).mapError (.renumber f) := by
  rw [ofRecord, ofRecord]
  cases ofRecord? record <;> rfl

theorem Net.ofRecord_renumber :
    ofRecord (f line) record = (ofRecord line record).mapError (.renumber f) := by
  rw [ofRecord, ofRecord]
  cases ofRecord? record <;> rfl

end Records

namespace Scan

variable {f : Nat → Nat}

/-- A line counts for what it is without its blank ends. -/
theorem feed_congr {raw raw' : String} (h : Text.trim raw' = Text.trim raw) (s : Scan)
    (line : Nat) : s.feed line raw' = s.feed line raw := by
  rw [feed, feed, take, take, h]

theorem feedLines_cons_of_blank {raw : String} (h : Text.trim raw = "") (s : Scan) (line : Nat)
    (rest : List String) : s.feedLines line (raw :: rest) = s.feedLines (line + 1) rest := by
  rw [feedLines, s.feed_of_blank line h]

/-- Blank lines are only counted. -/
theorem feedLines_blanks_append {blanks : List String}
    (hblanks : ∀ line ∈ blanks, Text.trim line = "") (s : Scan) (line : Nat)
    (rest : List String) :
    s.feedLines line (blanks ++ rest) = s.feedLines (line + blanks.length) rest := by
  induction blanks generalizing line with
  | nil => rfl
  | cons raw blanks ih =>
      rw [List.cons_append, feedLines_cons_of_blank (hblanks raw List.mem_cons_self),
        ih fun blank hblank => hblanks blank (List.mem_cons_of_mem _ hblank), List.length_cons,
        Nat.add_right_comm, Nat.add_assoc]

/-- Lines count for what they are without their blank ends. -/
theorem feedLines_congr {l l' : List String} (h : l'.map Text.trim = l.map Text.trim) (s : Scan)
    (line : Nat) : s.feedLines line l' = s.feedLines line l := by
  induction l generalizing l' s line with
  | nil => rw [List.map_eq_nil_iff.1 h]
  | cons raw rest ih =>
      obtain ⟨raw', rest', rfl, hraw, hrest⟩ := List.map_eq_cons_iff.1 h
      rw [feedLines, feedLines, feed_congr hraw]
      cases s.feed line raw with
      | error e => rfl
      | ok next => exact ih hrest next (line + 1)

/-- The lines of a text are read as the pieces between its line feeds. -/
theorem feedLines_endLines (pieces : List (List Char)) (s : Scan) (line : Nat) :
    s.feedLines line ((Text.endLines pieces).map String.ofList) =
      s.feedLines line (pieces.map String.ofList) := by
  induction pieces generalizing s line with
  | nil => rfl
  | cons piece rest ih =>
      cases rest with
      | nil =>
          rw [Text.endLines]
          split
          · rename_i hempty
            rw [List.isEmpty_iff.1 hempty, List.map_nil, List.map_singleton,
              feedLines_cons_of_blank (by decide)]
            rfl
          · rfl
      | cons next rest =>
          have hpiece : Text.trim (String.ofList (Text.dropReturn piece)) =
              Text.trim (String.ofList piece) := by
            rw [Text.trim, Text.trim, String.toList_ofList, String.toList_ofList,
              Text.trimChars_dropReturn]
          rw [Text.endLines_cons_cons, List.map_cons, List.map_cons, feedLines, feedLines,
            feed_congr hpiece]
          cases s.feed line (String.ofList piece) with
          | error e => rfl
          | ok s' => exact ih s' (line + 1)

theorem feedLines_lines (t : String) (s : Scan) (line : Nat) :
    s.feedLines line (Text.lines t) = s.feedLines line (Text.split '\n' t) :=
  feedLines_endLines _ s line

/-- Putting away what has been read does not change why nothing has been read. -/
theorem collect_mapError {α : Type} (x : Except FormatError α) (put : α → Scan) :
    (do let a ← x.mapError (FormatError.renumber f); return put a) =
      (do let a ← x; return put a : Except FormatError Scan).mapError (.renumber f) := by
  cases x with
  | error e => rfl
  | ok a => rfl

theorem feedMarker_renumber (s : Scan) (line : Nat) (marker : Marker) :
    s.feedMarker (f line) marker = (s.feedMarker line marker).mapError (.renumber f) := by
  rw [feedMarker_eq, feedMarker_eq]
  split
  · rfl
  · split
    · rfl
    · rfl

theorem feedRecord_renumber (s : Scan) (line : Nat) (record : String) :
    s.feedRecord (f line) record = (s.feedRecord line record).mapError (.renumber f) := by
  obtain ⟨current, netlist⟩ := s
  cases current with
  | beforeStart | header | ended => rfl
  | inputs =>
      rw [feedRecord_inputs, feedRecord_inputs, Direction.ofRecord_renumber]
      exact collect_mapError _ _
  | outputs =>
      rw [feedRecord_outputs, feedRecord_outputs, Direction.ofRecord_renumber]
      exact collect_mapError _ _
  | models =>
      rw [feedRecord_models, feedRecord_models, Model.ofRecord_renumber]
      exact collect_mapError _ _
  | nets =>
      rw [feedRecord_nets, feedRecord_nets, Net.ofRecord_renumber]
      exact collect_mapError _ _

/-- **A line with another number is refused for the same reason.** -/
theorem feed_renumber (s : Scan) (line : Nat) (raw : String) :
    s.feed (f line) raw = (s.feed line raw).mapError (.renumber f) := by
  by_cases hraw : Text.trim raw = ""
  · rw [s.feed_of_blank _ hraw, s.feed_of_blank _ hraw]
    rfl
  · cases hmarker : Marker.ofText? (Text.trim raw) with
    | some marker =>
        rw [s.feed_of_marker _ hmarker, s.feed_of_marker _ hmarker]
        exact s.feedMarker_renumber line marker
    | none =>
        rw [s.feed_of_record _ hraw hmarker, s.feed_of_record _ hraw hmarker]
        exact s.feedRecord_renumber line _

/-- **Blank lines that are put in** are only counted, up to the line that is refused. -/
theorem feedLines_spread (f : Nat → Nat) {spacing : List (List String × String)}
    {behind : List String} (hspacing : ∀ chunk ∈ spacing, ∀ blank ∈ chunk.1, Text.trim blank = "")
    (hbehind : ∀ blank ∈ behind, Text.trim blank = "") (s : Scan) (line line' : Nat)
    (hf : ∀ k < spacing.length, f (line + k) = line' + k + Text.blanksBefore spacing (k + 1)) :
    s.feedLines line' (Text.spread spacing behind) =
      (s.feedLines line (spacing.map (·.2))).mapError (.renumber f) := by
  induction spacing generalizing s line line' with
  | nil =>
      have hskip := s.feedLines_blanks_append hbehind line' []
      rw [List.append_nil] at hskip
      exact hskip
  | cons chunk rest ih =>
      obtain ⟨blanks, raw⟩ := chunk
      rw [List.forall_mem_cons] at hspacing
      have hfirst : line' + blanks.length = f line := by
        have h := hf 0 (Nat.succ_pos _)
        rw [Text.blanksBefore_cons] at h
        exact h.symm
      have hrest : ∀ k < rest.length,
          f (line + 1 + k) = line' + blanks.length + 1 + k + Text.blanksBefore rest (k + 1) := by
        intro k hk
        have h := hf (k + 1) (Nat.succ_lt_succ hk)
        rw [Text.blanksBefore_cons] at h
        rw [Nat.add_right_comm, Nat.add_assoc, h]
        omega
      rw [Text.spread, feedLines_blanks_append hspacing.1, feedLines, hfirst, feed_renumber,
        List.map_cons, feedLines]
      cases s.feed line raw with
      | error e => rfl
      | ok next =>
          rw [← hfirst]
          exact ih hspacing.2 next (line + 1) (line' + blanks.length + 1) hrest

end Scan

namespace Netlist

/-- A text is read as the pieces between its line feeds. -/
theorem parse_eq (t : String) :
    parse t = ({} : Scan).feedLines 1 (Text.split '\n' t) >>= Scan.finish := by
  rw [parse, Scan.feedLines_lines]
  cases ({} : Scan).feedLines 1 (Text.split '\n' t) <;> rfl

theorem parse_edit {t t' : String} (h : Text.Edit t t') : parse t' = parse t := by
  have hpieces : (Text.split '\n' t').map Text.trim = (Text.split '\n' t).map Text.trim := by
    rw [Text.map_trim_split_lineFeed, Text.map_trim_split_lineFeed, h.pieces_eq]
  rw [parse_eq, parse_eq, Scan.feedLines_congr hpieces]

/-- At the end of a text no line is refused, so nothing has a number. -/
theorem finish_mapError (s : Scan) (f : Nat → Nat) :
    s.finish.mapError (.renumber f) = s.finish := by
  rw [Scan.finish]
  split
  · rfl
  · rfl

/-- **Layout does not matter.**  The result of reading a text, be it a netlist or an error, does not
change when carriage returns are put in front of line feeds and blanks at the ends of lines, any
number of times.  When blank lines are put in, a netlist that is read stays the same, and so does an
error, except that the number of its line, if it has one, grows by the number of blank lines that
were put in before this line. -/
theorem layout_does_not_matter (t t' : String) :
    (Relation.ReflTransGen Text.Edit t t' → parse t' = parse t) ∧
      ∀ (spacing : List (List String × String)) (behind : List String),
        (∀ chunk ∈ spacing, ∀ blank ∈ chunk.1, Text.trim blank = "") →
        (∀ blank ∈ behind, Text.trim blank = "") →
        Text.split '\n' t = spacing.map (·.2) → Text.split '\n' t' = Text.spread spacing behind →
        parse t' = (parse t).mapError
          (.renumber fun line => line + Text.blanksBefore spacing line) := by
  refine ⟨fun hedits => ?_, fun spacing behind hspacing hbehind ht ht' => ?_⟩
  · induction hedits with
    | refl => rfl
    | tail _ hedit ih => rw [parse_edit hedit, ih]
  · have hspread := Scan.feedLines_spread (fun line => line + Text.blanksBefore spacing line)
      hspacing hbehind {} 1 1 fun k _ => by rw [Nat.add_comm 1 k]
    rw [parse_eq, parse_eq, ht, ht', hspread]
    cases ({} : Scan).feedLines 1 (spacing.map (·.2)) with
    | error e => rfl
    | ok s => exact (finish_mapError s _).symm

namespace Spaced

/-- A text with a word in its third line that is no direction. -/
def plain : String :=
  "NETLIST\n$INPUTS\nNorth"

/-- The text with other line ends, and with blanks at both ends of a line and at its end. -/
def indented : String :=
  "NETLIST\r\n\t $INPUTS\t\nNorth\u3000"

/-- The changes that lead there. -/
theorem edits : Relation.ReflTransGen Text.Edit plain indented := by
  have hreturn : Text.Edit plain "NETLIST\r\n$INPUTS\nNorth" :=
    .carriageReturn "NETLIST" "$INPUTS\nNorth"
  have hstart : Text.Edit "NETLIST\r\n$INPUTS\nNorth" "NETLIST\r\n\t $INPUTS\nNorth" :=
    @Text.Edit.lineStart "NETLIST\r\n" "$INPUTS\nNorth" "\t " (by decide)
      (.inr ⟨"NETLIST\r", by decide⟩)
  have hend : Text.Edit "NETLIST\r\n\t $INPUTS\nNorth" "NETLIST\r\n\t $INPUTS\t\nNorth" :=
    @Text.Edit.lineEnd "NETLIST\r\n\t $INPUTS" "\nNorth" "\t" (by decide)
      (.inr ⟨"North", .inl (by decide)⟩)
  have hlast : Text.Edit "NETLIST\r\n\t $INPUTS\t\nNorth" indented :=
    @Text.Edit.lineEnd "NETLIST\r\n\t $INPUTS\t\nNorth" "" "\u3000" (by decide) (.inl rfl)
  exact .tail (.tail (.tail (.single hreturn) hstart) hend) hlast

/-- Three blank lines that are put in before lines of the text. -/
def spacing : List (List String × String) :=
  [(["", " "], "NETLIST"), ([], "$INPUTS"), (["\r"], "North")]

/-- The text with these blank lines, and one more behind its last line. -/
def stretched : String :=
  "\n \nNETLIST\n$INPUTS\n\r\nNorth\n\t"

end Spaced

/-- The word is found in the third line, and in the sixth after three blank lines. -/
theorem spaced_text_is_refused :
    parse Spaced.plain = .error (.unknownDirection 3 "North") ∧
      parse Spaced.indented = .error (.unknownDirection 3 "North") ∧
      parse Spaced.stretched = .error (.unknownDirection 6 "North") := by
  have hplain : parse Spaced.plain = .error (.unknownDirection 3 "North") := by decide +kernel
  refine ⟨hplain, ?_, ?_⟩
  · rw [(layout_does_not_matter Spaced.plain Spaced.indented).1 Spaced.edits, hplain]
  · rw [(layout_does_not_matter Spaced.plain Spaced.stretched).2 Spaced.spacing ["\t"]
      (by decide +kernel) (by decide +kernel) (by decide +kernel) (by decide +kernel), hplain]
    rfl

end Netlist

end LogicBlock
