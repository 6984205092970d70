/-
**Where an error points.**

A text is refused at the first line that cannot be right, or at its end.  Every refusal of a line
carries the number of the line and what stands there, except one: a record between the start of the
netlist and its first section is reported as the missing of that section.  At the end of a text
there is nothing to point at, and what is missing is the marker whose turn it is.

Which marker that is can be said without a scan.  The markers come in a fixed order, and a line
counts as a marker if it is the one whose turn it is.  A scan that has refused nothing has passed
exactly these markers, and those that are still to come are the others.

Main definitions:

* `Section.ahead`, `Marker.inTurn` — the markers that are still to come in a section, and those that
  come in their turn in some lines;
* `FormatError.carried` — what an error shows of the line that it points at;
* `Netlist.FailsAt` — the first line of a text that is refused.

Main results:

* `Scan.feed_eq_error` — **why a line is refused**, and what the error says about it;
* `Scan.inTurn_append_ahead` — the markers that have come, and those that are still to come;
* `Netlist.exists_failsAt_or_finish` — a text is refused at a line or at its end;
* `Netlist.errors_point_at_lines` — **an error points at the first line that is refused.**
-/

import LogicBlock.Proofs.Sections

set_option relaxedAutoImplicit false
set_option autoImplicit false

namespace LogicBlock

/-! ### Markers in their turn -/

/-- The markers that are still to come. -/
def Section.ahead : Section → List Marker
  | beforeStart => [.netlist, .inputs, .outputs, .models, .nets, .finish]
  | header => [.inputs, .outputs, .models, .nets, .finish]
  | inputs => [.outputs, .models, .nets, .finish]
  | outputs => [.models, .nets, .finish]
  | models => [.nets, .finish]
  | nets => [.finish]
  | ended => []

/-- A marker in its turn is the first of those that are still to come, and then the others are. -/
theorem Section.ahead_eq_cons {s : Section} {marker : Marker} (h : s.next? = some marker) :
    s.ahead = marker :: (after marker).ahead := by
  cases s <;> cases h <;> rfl

theorem Section.next?_eq_head?_ahead (s : Section) : s.next? = s.ahead.head? := by
  cases s <;> rfl

/-- The marker that is missed at the end of a text is the next one, and never the last. -/
theorem Section.next?_of_pending? {s : Section} {marker : Marker} (h : s.pending? = some marker) :
    s.next? = some marker ∧ marker ≠ .finish := by
  cases s <;> cases h <;> exact ⟨rfl, by decide⟩

namespace Marker

/-- The markers that come in their turn in the lines, of those that are expected. -/
def inTurn : List Marker → List String → List Marker
  | [], _ => []
  | _, [] => []
  | marker :: later, line :: rest =>
    if line = marker.text then marker :: inTurn later rest else inTurn (marker :: later) rest

theorem inTurn_nil (expected : List Marker) : inTurn expected [] = [] := by
  cases expected <;> rfl

theorem inTurn_cons_text (marker : Marker) (later : List Marker) (rest : List String) :
    inTurn (marker :: later) (marker.text :: rest) = marker :: inTurn later rest := by
  rw [inTurn, if_pos rfl]

/-- A line that is not the marker whose turn it is does not count. -/
theorem inTurn_cons_of_ne {expected : List Marker} {line : String}
    (h : ∀ marker ∈ expected.head?, line ≠ marker.text) (rest : List String) :
    inTurn expected (line :: rest) = inTurn expected rest := by
  cases expected with
  | nil => rw [inTurn, inTurn]
  | cons marker later => rw [inTurn, if_neg (h marker rfl)]

end Marker

/-! ### Refused lines -/

/-- What an error shows of the line that it points at, or the marker that it misses. -/
def FormatError.carried : FormatError → String
  | missingSection marker => marker.text
  | unexpectedMarker _ marker => marker.text
  | unknownDirection _ token => token
  | malformedModel _ content => content
  | malformedNet _ content => content

/-- The error points at the line, and shows what stands there. -/
structure FormatError.PointsAt (e : FormatError) (line : Nat) (content : String) : Prop where
  line : e.line? = some line
  carried : e.carried = content

section Records

variable {line : Nat} {record : String} {e : FormatError}

theorem Direction.eq_of_ofRecord_eq_error (h : ofRecord line record = .error e) :
    e = .unknownDirection line record := by
  rw [ofRecord] at h
  split at h
  · cases h
  · exact (Except.error.inj h).symm

theorem Model.eq_of_ofRecord_eq_error (h : ofRecord line record = .error e) :
    e = .malformedModel line record := by
  rw [ofRecord] at h
  split at h
  · cases h
  · exact (Except.error.inj h).symm

theorem Net.eq_of_ofRecord_eq_error (h : ofRecord line record = .error e) :
    e = .malformedNet line record := by
  rw [ofRecord] at h
  split at h
  · cases h
  · exact (Except.error.inj h).symm

end Records

namespace Scan

variable {s s' : Scan} {line : Nat} {raw : String} {e : FormatError}

/-- Putting away what has been read from a record is never refused. -/
theorem eq_error_of_collect {α : Type} {x : Except FormatError α} {current : Section}
    {put : α → Netlist}
    (h : (do let a ← x; return Scan.mk current (put a)) = Except.error e) : x = .error e := by
  cases x with
  | error e' =>
      cases h
      rfl
  | ok a => cases h

/-- **A record is refused** for what it is, except before the first section. -/
theorem feedRecord_eq_error {record : String} (h : s.feedRecord line record = .error e) :
    e.PointsAt line record ∨ e = .missingSection .inputs ∧ s.current = .header := by
  obtain ⟨current, netlist⟩ := s
  cases current with
  | beforeStart | ended =>
      rw [feedRecord_of_isOutside _ _ _ rfl] at h
      cases h
  | header =>
      rw [feedRecord_header] at h
      cases h
      exact .inr ⟨rfl, rfl⟩
  | inputs =>
      rw [feedRecord_inputs] at h
      obtain rfl := Direction.eq_of_ofRecord_eq_error (eq_error_of_collect h)
      exact .inl ⟨rfl, rfl⟩
  | outputs =>
      rw [feedRecord_outputs] at h
      obtain rfl := Direction.eq_of_ofRecord_eq_error (eq_error_of_collect h)
      exact .inl ⟨rfl, rfl⟩
  | models =>
      rw [feedRecord_models] at h
      obtain rfl := Model.eq_of_ofRecord_eq_error (eq_error_of_collect h)
      exact .inl ⟨rfl, rfl⟩
  | nets =>
      rw [feedRecord_nets] at h
      obtain rfl := Net.eq_of_ofRecord_eq_error (eq_error_of_collect h)
      exact .inl ⟨rfl, rfl⟩

theorem feedMarker_eq_error {marker : Marker} (h : s.feedMarker line marker = .error e) :
    e.PointsAt line marker.text := by
  rw [feedMarker_eq] at h
  split at h
  · cases h
  · split at h
    · cases h
    · cases h
      exact ⟨rfl, rfl⟩

/-- **Why a line is refused**: it is not blank, and the error points at it and shows it; or it is no
marker and stands between the start of the netlist and the first section. -/
theorem feed_eq_error (h : s.feed line raw = .error e) :
    e.PointsAt line (Text.trim raw) ∨
      e = .missingSection .inputs ∧ s.current = .header ∧ Text.trim raw ≠ "" ∧
        ∀ marker : Marker, Text.trim raw ≠ marker.text := by
  by_cases hraw : Text.trim raw = ""
  · rw [feed_of_blank s line hraw] at h
    cases h
  · cases hmarker : Marker.ofText? (Text.trim raw) with
    | some marker =>
        rw [feed_of_marker s line hmarker] at h
        rw [Marker.ofText?_eq_some_iff.1 hmarker]
        exact .inl (feedMarker_eq_error h)
    | none =>
        rw [feed_of_record s line hraw hmarker] at h
        rcases feedRecord_eq_error h with hpoints | ⟨he, hheader⟩
        · exact .inl hpoints
        · refine .inr ⟨he, hheader, hraw, fun marker htext => ?_⟩
          rw [htext, Marker.ofText?_text] at hmarker
          cases hmarker

/-! ### Accepted lines -/

/-- An accepted line is the marker whose turn it is, and then the others are still to come; or it is
another line, and nothing has changed about the markers. -/
theorem ahead_of_feed_eq_ok (h : s.feed line raw = .ok s') :
    (∃ marker : Marker, Text.trim raw = marker.text ∧
        s.current.ahead = marker :: s'.current.ahead) ∨
      s'.current = s.current ∧ ∀ marker ∈ s.current.ahead.head?, Text.trim raw ≠ marker.text := by
  by_cases hraw : Text.trim raw = ""
  · rw [feed_of_blank s line hraw] at h
    cases h
    refine .inr ⟨rfl, fun marker _ htext => ?_⟩
    rw [hraw] at htext
    cases marker <;> exact absurd htext (by decide)
  · rw [feed_eq_ok_iff hraw] at h
    generalize Text.trim raw = content at h
    cases h with
    | marker marker hnext => exact .inl ⟨marker, rfl, Section.ahead_eq_cons hnext⟩
    | outside _ hcontent =>
        refine .inr ⟨rfl, fun marker hmarker => hcontent marker ?_⟩
        rw [Section.next?_eq_head?_ahead]
        exact hmarker
    | record hadds =>
        refine .inr ⟨rfl, fun marker _ htext => ?_⟩
        have hrecord := (inside_of_adds hadds).2
        rw [htext, Marker.ofText?_text] at hrecord
        cases hrecord

/-- **The markers that have come in their turn**, and those that are still to come. -/
theorem inTurn_append_ahead {l : List String} (h : s.feedLines line l = .ok s') :
    Marker.inTurn s.current.ahead (l.map Text.trim) ++ s'.current.ahead = s.current.ahead := by
  induction l generalizing s line with
  | nil =>
      cases h
      rw [List.map_nil, Marker.inTurn_nil, List.nil_append]
  | cons raw l ih =>
      rw [feedLines] at h
      cases hraw : s.feed line raw with
      | error e => rw [hraw] at h; cases h
      | ok next =>
          rw [hraw] at h
          have hrest := ih h
          rw [List.map_cons]
          rcases ahead_of_feed_eq_ok hraw with ⟨marker, htext, hahead⟩ | ⟨hsame, hne⟩
          · rw [hahead, htext, Marker.inTurn_cons_text, List.cons_append, hrest]
          · rw [Marker.inTurn_cons_of_ne hne, ← hsame, hrest]

/-- **Lines are refused at one of them**, when the lines before it have been accepted. -/
theorem feedLines_eq_error_iff {l : List String} :
    s.feedLines line l = .error e ↔
      ∃ k raw next, l[k]? = some raw ∧ s.feedLines line (l.take k) = .ok next ∧
        next.feed (line + k) raw = .error e := by
  induction l generalizing s line with
  | nil =>
      refine ⟨fun h => ?_, fun h => ?_⟩
      · cases h
      · obtain ⟨k, raw, next, hraw, -⟩ := h
        cases hraw
  | cons first rest ih =>
      rw [feedLines]
      cases hfirst : s.feed line first with
      | error e' =>
          constructor
          · intro h
            cases h
            exact ⟨0, first, s, rfl, rfl, hfirst⟩
          · rintro ⟨k, raw, next, hraw, hbefore, hfails⟩
            cases k with
            | zero =>
                cases hraw
                cases hbefore
                exact hfirst.symm.trans hfails
            | succ k =>
                rw [List.take_succ_cons, feedLines, hfirst] at hbefore
                cases hbefore
      | ok s' =>
          refine ih.trans ⟨?_, ?_⟩
          · rintro ⟨k, raw, next, hraw, hbefore, hfails⟩
            refine ⟨k + 1, raw, next, hraw, ?_, ?_⟩
            · rw [List.take_succ_cons, feedLines, hfirst]
              exact hbefore
            · rw [← Nat.add_assoc, Nat.add_right_comm]
              exact hfails
          · rintro ⟨k, raw, next, hraw, hbefore, hfails⟩
            cases k with
            | zero =>
                cases hraw
                cases hbefore
                rw [Nat.add_zero, hfirst] at hfails
                cases hfails
            | succ k =>
                rw [List.take_succ_cons, feedLines, hfirst] at hbefore
                refine ⟨k, raw, next, hraw, hbefore, ?_⟩
                rw [Nat.add_right_comm, Nat.add_assoc]
                exact hfails

end Scan

/-! ### Refused texts -/

namespace Netlist

/-- The first line of the text that is refused is the one with `k` lines before it, and so it is in
every text that is the same up to this line. -/
structure FailsAt (text : String) (k : Nat) (raw : String) (e : FormatError) : Prop where
  line : (Text.lines text)[k]? = some raw
  refused : ∃ s, ({} : Scan).feedLines 1 ((Text.lines text).take k) = .ok s ∧
    s.feed (k + 1) raw = .error e
  always : ∀ other, (Text.lines other).take (k + 1) = (Text.lines text).take (k + 1) →
    parse other = .error e

variable {text : String} {e : FormatError}

/-- A refused line is refused in every text that is the same up to it. -/
theorem failsAt_of_feed {k : Nat} {raw : String} {s : Scan}
    (hraw : (Text.lines text)[k]? = some raw)
    (hbefore : ({} : Scan).feedLines 1 ((Text.lines text).take k) = .ok s)
    (hfails : s.feed (k + 1) raw = .error e) : FailsAt text k raw e := by
  refine ⟨hraw, ⟨s, hbefore, hfails⟩, fun other hother => ?_⟩
  have hline : (Text.lines other)[k]? = some raw := by
    rw [← hraw, ← List.getElem?_take_of_lt (Nat.lt_succ_self k), hother,
      List.getElem?_take_of_lt (Nat.lt_succ_self k)]
  have htake : (Text.lines other).take k = (Text.lines text).take k := by
    have h := congrArg (List.take k) hother
    rwa [List.take_take, List.take_take, Nat.min_eq_left (Nat.le_succ k)] at h
  have hother : ({} : Scan).feedLines 1 (Text.lines other) = .error e := by
    refine Scan.feedLines_eq_error_iff.2 ⟨k, raw, s, hline, ?_, ?_⟩
    · rw [htake]
      exact hbefore
    · rw [Nat.add_comm]
      exact hfails
  rw [parse, hother]

/-- **A text is refused at a line, or at its end.** -/
theorem exists_failsAt_or_finish (h : parse text = .error e) :
    (∃ k raw, FailsAt text k raw e) ∨
      ∃ s, ({} : Scan).feedLines 1 (Text.lines text) = .ok s ∧ s.finish = .error e := by
  rw [parse] at h
  cases hlines : ({} : Scan).feedLines 1 (Text.lines text) with
  | ok s =>
      rw [hlines] at h
      exact .inr ⟨s, rfl, h⟩
  | error e' =>
      rw [hlines] at h
      cases h
      obtain ⟨k, raw, s, hraw, hbefore, hfails⟩ := Scan.feedLines_eq_error_iff.1 hlines
      rw [Nat.add_comm] at hfails
      exact .inl ⟨k, raw, failsAt_of_feed hraw hbefore hfails⟩

/-- At the end of a text the next marker is missed, if it is not the last one. -/
theorem missing_of_finish_eq_error {s : Scan}
    (hlines : ({} : Scan).feedLines 1 (Text.lines text) = .ok s) (h : s.finish = .error e) :
    ∃ marker later, e = .missingSection marker ∧ marker ≠ .finish ∧
      Marker.inTurn Marker.all ((Text.lines text).map Text.trim) ++ marker :: later =
        Marker.all := by
  rw [Scan.finish] at h
  split at h
  · rename_i marker hpending
    cases h
    obtain ⟨hnext, hne⟩ := Section.next?_of_pending? hpending
    refine ⟨marker, (Section.after marker).ahead, rfl, hne, ?_⟩
    rw [← Section.ahead_eq_cons hnext]
    exact Scan.inTurn_append_ahead hlines
  · cases h

/-- **An error points at the first line that is refused.**  If it has a number, this is the number
of the line, from 1 on, and the error shows the line without its blank ends.  If it has none, then a
marker is missing.  Either a record stands between the start of the netlist and the first section,
and this line is the first one that is refused; or no line is refused, and the marker is the one
that comes next after those that have come in their turn, but never the last.  What stands behind
the line that is refused does not matter in any case. -/
theorem errors_point_at_lines (text : String) (e : FormatError) (h : parse text = .error e) :
    (∀ line, e.line? = some line → 1 ≤ line ∧ line ≤ (Text.lines text).length ∧
      ∃ raw, FailsAt text (line - 1) raw e ∧ e.carried = Text.trim raw) ∧
    (e.line? = none → ∃ marker, e = .missingSection marker ∧
      ((marker = .inputs ∧ ∃ k raw, FailsAt text k raw e ∧ Text.trim raw ≠ "" ∧
          (∀ other : Marker, Text.trim raw ≠ other.text) ∧
          Marker.inTurn Marker.all (((Text.lines text).take k).map Text.trim) = [.netlist]) ∨
        marker ≠ .finish ∧ (∃ s, ({} : Scan).feedLines 1 (Text.lines text) = .ok s) ∧
          ∃ later, Marker.inTurn Marker.all ((Text.lines text).map Text.trim) ++ marker :: later =
            Marker.all)) := by
  rcases exists_failsAt_or_finish h with ⟨k, raw, hfails⟩ | ⟨s, hlines, hfinish⟩
  · obtain ⟨s, hbefore, hfeed⟩ := hfails.refused
    rcases Scan.feed_eq_error hfeed with hpoints | ⟨rfl, hheader, hblank, hmarker⟩
    · refine ⟨fun line hline => ?_, fun hline => ?_⟩
      · obtain rfl : k + 1 = line := Option.some.inj (hpoints.line.symm.trans hline)
        have hk := (List.getElem?_eq_some_iff.1 hfails.line).1
        exact ⟨Nat.le_add_left 1 k, hk, raw, hfails, hpoints.carried⟩
      · rw [hpoints.line] at hline
        cases hline
    · refine ⟨fun line hline => (nomatch hline), fun _ =>
        ⟨.inputs, rfl, .inl ⟨rfl, k, raw, hfails, hblank, hmarker, ?_⟩⟩⟩
      have hturn := Scan.inTurn_append_ahead hbefore
      rw [hheader] at hturn
      change _ = [Marker.netlist] ++ Section.header.ahead at hturn
      exact List.append_cancel_right hturn
  · obtain ⟨marker, later, rfl, hne, hturn⟩ := missing_of_finish_eq_error hlines hfinish
    exact ⟨fun line hline => (nomatch hline), fun _ =>
      ⟨marker, rfl, .inr ⟨hne, ⟨s, hlines⟩, later, hturn⟩⟩⟩

namespace Refused

/-- A text with a word in its fifth line that is no direction, after a marker out of turn that does
not matter, and a line that is blank. -/
def misspelt : String :=
  "$OUTPUTS\nNETLIST\r\n\n$INPUTS\n\tNorth \nNETLIST"

/-- A text with a record before its first section. -/
def headless : String :=
  " \nNETLIST\n\nUP\n$INPUTS"

/-- A text that is over before its last two sections. -/
def unfinished : String :=
  "NETLIST\n$INPUTS\nUP\n$OUTPUTS\n"

end Refused

/-- The three kinds of refusals: at a line with its number, at a line without, and at the end. -/
theorem refused_texts_are_pointed_at :
    (parse Refused.misspelt = .error (.unknownDirection 5 "North") ∧
      ∃ raw, FailsAt Refused.misspelt 4 raw (.unknownDirection 5 "North") ∧
        "North" = Text.trim raw) ∧
    (parse Refused.headless = .error (.missingSection .inputs) ∧
      ∃ k raw, FailsAt Refused.headless k raw (.missingSection .inputs)) ∧
    (parse Refused.unfinished = .error (.missingSection .models) ∧
      ∃ later, Marker.inTurn Marker.all ((Text.lines Refused.unfinished).map Text.trim) ++
        .models :: later = Marker.all) := by
  have hmisspelt : parse Refused.misspelt = .error (.unknownDirection 5 "North") := by
    decide +kernel
  have hheadless : parse Refused.headless = .error (.missingSection .inputs) := by decide +kernel
  have hunfinished : parse Refused.unfinished = .error (.missingSection .models) := by
    decide +kernel
  refine ⟨⟨hmisspelt, ?_⟩, ⟨hheadless, ?_⟩, hunfinished, ?_⟩
  · exact ((errors_point_at_lines _ _ hmisspelt).1 5 rfl).2.2
  · have hstop : ({} : Scan).feedLines 1 (Text.lines Refused.headless) =
        .error (.missingSection .inputs) := by decide +kernel
    obtain ⟨_, -, ⟨-, k, raw, hfails, -⟩ | ⟨-, ⟨s, hlines⟩, -⟩⟩ :=
      (errors_point_at_lines _ _ hheadless).2 rfl
    · exact ⟨k, raw, hfails⟩
    · rw [hstop] at hlines
      cases hlines
  · obtain ⟨marker, hmarker, ⟨rfl, -⟩ | ⟨-, -, hturn⟩⟩ :=
      (errors_point_at_lines _ _ hunfinished).2 rfl
    · cases hmarker
    · cases hmarker
      exact hturn

end Netlist

end LogicBlock
