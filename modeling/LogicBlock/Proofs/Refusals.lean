/-
**Refused lines leave no trace.**

A scan can be fed line by line, and goes on after a line that it has refused.  Reading a line writes
to the scan in place, and a refusal undoes nothing.  But whatever a line can be refused for is
looked at before anything is written, so a refused line has written nothing: the scan stands where
it stood and has collected what it had collected.  With that, a line does the same to a scan that
goes on after refusals as to one that ends there.

So the refused lines can be left out.  The lines that remain are accepted one after the other,
whatever their numbers are, since a number is only ever used in a refusal.  They are also accepted
if they are read from one text, where the ends of lines that the text adds are blank.

Main definitions:

* `Scan.offerAll` — lines that are fed one after the other, each with a number of its own;
* `Scan.accepted` — those of them that are not refused.

Main results:

* `Scan.eq_of_run_take_eq_error` — **a refused line has written nothing**;
* `Scan.offer_eq` — an accepted line leads on, and a refused one leaves the scan as it was;
* `Scan.offerAll_accepted` — without the refused lines, nothing is refused and the scan is the same;
* `Text.content_intercalate` — the lines that count are read back from a text;
* `Scan.refused_lines_leave_no_trace` — **the lines that are accepted, as a text, give the result**.
-/

import LogicBlock.Proofs.Sections

set_option relaxedAutoImplicit false
set_option autoImplicit false

namespace LogicBlock

/-! ### Joined lines -/

namespace Text

/-- A carriage return at the end is blank. -/
theorem trimChars_dropReturn (cs : List Char) : trimChars (dropReturn cs) = trimChars cs := by
  rw [dropReturn]
  split
  · rename_i hlast
    obtain ⟨before, rfl⟩ := List.getLast?_eq_some_iff.1 hlast
    have hreturn : ∀ c ∈ ['\r'], isBlank c := by
      intro c hc
      rw [List.mem_singleton.1 hc]
      decide
    rw [List.dropLast_concat, trimChars_append_blanks hreturn]
  · rfl

/-- The pieces that are left out and the characters that are dropped are blank. -/
theorem filter_map_trimChars_endLines (pieces : List (List Char)) :
    ((endLines pieces).map trimChars).filter (· ≠ []) =
      (pieces.map trimChars).filter (· ≠ []) := by
  induction pieces with
  | nil => rfl
  | cons piece rest ih =>
      cases rest with
      | nil =>
          rw [endLines]
          split
          · rename_i hempty
            rw [List.isEmpty_iff.1 hempty]
            rfl
          · rfl
      | cons next rest =>
          rw [endLines_cons_cons, List.map_cons, List.map_cons, trimChars_dropReturn,
            List.filter_cons, List.filter_cons, ih]

theorem filter_map_trim_map_ofList (pieces : List (List Char)) :
    ((pieces.map String.ofList).map trim).filter (· ≠ "") =
      ((pieces.map trimChars).filter (· ≠ [])).map String.ofList := by
  rw [List.map_map, List.filter_map, List.filter_map, List.map_map]
  have htrim : trim ∘ String.ofList = String.ofList ∘ trimChars := by
    funext cs
    rw [Function.comp, Function.comp, trim, String.toList_ofList]
  rw [htrim]
  congr 1
  refine List.filter_congr fun cs _ => ?_
  simp [String.ofList_eq_empty_iff]

/-- **The lines that count are read back** from a text, if there is no line feed in any of them. -/
theorem content_intercalate {l : List String} (hfeed : ∀ line ∈ l, '\n' ∉ line.toList) :
    content ("\n".intercalate l) = (l.map trim).filter (· ≠ "") := by
  by_cases hl : l = []
  · rw [hl]
    rfl
  · have hpieces : l = (l.map String.toList).map String.ofList := by
      simp [Function.comp_def]
    rw [content, lines, lineChars, splitOn_intercalate_lineFeed hl hfeed,
      filter_map_trim_map_ofList, filter_map_trimChars_endLines, ← filter_map_trim_map_ofList,
      ← hpieces]

end Text

/-! ### Refusals -/

namespace Scan

variable {s s' : Scan} {line : Nat} {raw : String} {e : FormatError}

/-- What cannot be read from a record is not put anywhere. -/
theorem eq_of_run_collect_eq_error {α : Type} {item : Except FormatError α}
    {put : Netlist → α → Netlist} (h : (collect item put).run s = .error e s') : s' = s := by
  cases item with
  | error e' =>
      cases h
      rfl
  | ok a => cases h

theorem eq_of_run_takeMarker_eq_error {marker : Marker}
    (h : (takeMarker line marker).run s = .error e s') : s' = s := by
  rw [takeMarker, EStateM.run_bind, EStateM.run_get] at h
  dsimp only at h
  split at h
  · cases h
  · split at h
    · cases h
    · cases h
      rfl

theorem eq_of_run_takeRecord_eq_error {record : String}
    (h : (takeRecord line record).run s = .error e s') : s' = s := by
  rw [takeRecord, EStateM.run_bind, EStateM.run_get] at h
  dsimp only at h
  split at h
  · cases h
  · cases h
  · cases h
    rfl
  · exact eq_of_run_collect_eq_error h
  · exact eq_of_run_collect_eq_error h
  · exact eq_of_run_collect_eq_error h
  · exact eq_of_run_collect_eq_error h

/-- **A refused line has written nothing.** -/
theorem eq_of_run_take_eq_error (h : (take line raw).run s = .error e s') : s' = s := by
  rw [take] at h
  split at h
  · cases h
  · split at h
    · exact eq_of_run_takeMarker_eq_error h
    · exact eq_of_run_takeRecord_eq_error h

/-- An accepted line leads on, and a refused one leaves the scan as it was. -/
theorem offer_eq (s : Scan) (line : Nat) (raw : String) :
    s.offer line raw =
      match s.feed line raw with
      | .ok s' => (s', none)
      | .error e => (s, some e) := by
  rw [offer, feed, result]
  cases hrun : (take line raw).run s with
  | error e left => rw [eq_of_run_take_eq_error hrun]
  | ok _ s' => rfl

/-! ### Lines one after the other -/

/-- Feeds lines one after the other, each with its own number, and goes on after refusals: the scan
in the end and, line by line, the refusals. -/
def offerAll (s : Scan) : List (Nat × String) → Scan × List (Option FormatError)
  | [] => (s, [])
  | (line, raw) :: rest =>
    let (next, refusal) := s.offer line raw
    let (last, refusals) := next.offerAll rest
    (last, refusal :: refusals)

/-- The lines that are not refused when all are fed one after the other. -/
def accepted (s : Scan) (calls : List (Nat × String)) : List (Nat × String) :=
  ((calls.zip (s.offerAll calls).2).filter fun call => call.2.isNone).map (·.1)

theorem offerAll_cons_of_ok (h : s.feed line raw = .ok s') (rest : List (Nat × String)) :
    s.offerAll ((line, raw) :: rest) = ((s'.offerAll rest).1, none :: (s'.offerAll rest).2) := by
  rw [offerAll, offer_eq, h]

theorem offerAll_cons_of_error (h : s.feed line raw = .error e) (rest : List (Nat × String)) :
    s.offerAll ((line, raw) :: rest) = ((s.offerAll rest).1, some e :: (s.offerAll rest).2) := by
  rw [offerAll, offer_eq, h]

theorem accepted_cons_of_ok (h : s.feed line raw = .ok s') (rest : List (Nat × String)) :
    s.accepted ((line, raw) :: rest) = (line, raw) :: s'.accepted rest := by
  rw [accepted, offerAll_cons_of_ok h]
  rfl

theorem accepted_cons_of_error (h : s.feed line raw = .error e) (rest : List (Nat × String)) :
    s.accepted ((line, raw) :: rest) = s.accepted rest := by
  rw [accepted, offerAll_cons_of_error h]
  rfl

/-- **A refused line leaves the scan as the lines before it have left it.** -/
theorem offerAll_take_succ_of_refused {calls : List (Nat × String)} {k : Nat}
    (h : (s.offerAll calls).2[k]? = some (some e)) :
    (s.offerAll (calls.take (k + 1))).1 = (s.offerAll (calls.take k)).1 := by
  induction calls generalizing s k with
  | nil => cases h
  | cons call rest ih =>
      obtain ⟨line, raw⟩ := call
      cases hfeed : s.feed line raw with
      | error e' =>
          rw [offerAll_cons_of_error hfeed] at h
          cases k with
          | zero =>
              rw [List.take_succ_cons, offerAll_cons_of_error hfeed]
              rfl
          | succ k =>
              rw [List.take_succ_cons, List.take_succ_cons, offerAll_cons_of_error hfeed,
                offerAll_cons_of_error hfeed]
              exact ih h
      | ok next =>
          rw [offerAll_cons_of_ok hfeed] at h
          cases k with
          | zero => cases h
          | succ k =>
              rw [List.take_succ_cons, List.take_succ_cons, offerAll_cons_of_ok hfeed,
                offerAll_cons_of_ok hfeed]
              exact ih h

/-- **Without the refused lines** nothing is refused, and the scan is the same in the end. -/
theorem offerAll_accepted (s : Scan) (calls : List (Nat × String)) :
    s.offerAll (s.accepted calls) =
      ((s.offerAll calls).1, List.replicate (s.accepted calls).length none) := by
  induction calls generalizing s with
  | nil => rfl
  | cons call rest ih =>
      obtain ⟨line, raw⟩ := call
      cases hfeed : s.feed line raw with
      | error e => rw [accepted_cons_of_error hfeed, offerAll_cons_of_error hfeed, ih]
      | ok next =>
          rw [accepted_cons_of_ok hfeed, offerAll_cons_of_ok hfeed, offerAll_cons_of_ok hfeed, ih]
          rfl

/-- Lines are accepted, and lead to the same scan, under any numbers, and without those that are
blank. -/
theorem feedLines_eq_ok_congr {l l' : List String} {line line' : Nat}
    (hl : (l.map Text.trim).filter (· ≠ "") = (l'.map Text.trim).filter (· ≠ "")) :
    s.feedLines line l = .ok s' ↔ s.feedLines line' l' = .ok s' := by
  rw [feedLines_eq_ok_iff, feedLines_eq_ok_iff, hl]

/-- One line that is accepted under some number is accepted under any. -/
theorem feed_of_feed_eq_ok (h : s.feed line raw = .ok s') (line' : Nat) :
    s.feed line' raw = .ok s' := by
  by_cases hraw : Text.trim raw = ""
  · rw [s.feed_of_blank _ hraw] at h ⊢
    exact h
  · rw [feed_eq_ok_iff hraw] at h ⊢
    exact h

/-- The lines that are not refused are accepted as the lines of one text are. -/
theorem feedLines_accepted (s : Scan) (calls : List (Nat × String)) (line : Nat) :
    s.feedLines line ((s.accepted calls).map (·.2)) = .ok (s.offerAll calls).1 := by
  induction calls generalizing s line with
  | nil => rfl
  | cons call rest ih =>
      obtain ⟨number, raw⟩ := call
      cases hfeed : s.feed number raw with
      | error e =>
          rw [accepted_cons_of_error hfeed, offerAll_cons_of_error hfeed]
          exact ih s line
      | ok next =>
          rw [accepted_cons_of_ok hfeed, offerAll_cons_of_ok hfeed, List.map_cons, feedLines,
            feed_of_feed_eq_ok hfeed line]
          exact ih next (line + 1)

/-- The lines that are not refused are among the lines. -/
theorem mem_of_mem_accepted {calls : List (Nat × String)} {call : Nat × String}
    (h : call ∈ s.accepted calls) : call ∈ calls := by
  obtain ⟨answered, hanswered, rfl⟩ := List.mem_map.1 h
  exact (List.of_mem_zip (List.mem_filter.1 hanswered).1).1

/-- **Refused lines leave no trace.**  When lines are fed one after the other, each with any number,
a refused one leaves the scan exactly as it was before; and without the refused lines nothing is
refused, and the scan and its result are the same.  If no line has a line feed in it, the result is
what the accepted lines are read as when they are joined to one text. -/
theorem refused_lines_leave_no_trace (calls : List (Nat × String)) :
    (∀ s : Scan,
      (∀ k e, (s.offerAll calls).2[k]? = some (some e) →
        (s.offerAll (calls.take (k + 1))).1 = (s.offerAll (calls.take k)).1) ∧
      (∀ refusal ∈ (s.offerAll (s.accepted calls)).2, refusal = none) ∧
      (s.offerAll (s.accepted calls)).1 = (s.offerAll calls).1 ∧
      (s.offerAll (s.accepted calls)).1.finish = (s.offerAll calls).1.finish) ∧
    ((∀ call ∈ calls, '\n' ∉ call.2.toList) →
      Netlist.parse ("\n".intercalate ((({} : Scan).accepted calls).map (·.2))) =
        (({} : Scan).offerAll calls).1.finish) := by
  refine ⟨fun s => ?_, fun hfeed => ?_⟩
  · have haccepted := s.offerAll_accepted calls
    refine ⟨fun k e h => offerAll_take_succ_of_refused h, fun refusal hrefusal => ?_, ?_, ?_⟩
    · rw [haccepted] at hrefusal
      exact List.eq_of_mem_replicate hrefusal
    · rw [haccepted]
    · rw [haccepted]
  · have hlines : ∀ line ∈ (({} : Scan).accepted calls).map (·.2), '\n' ∉ line.toList := by
      intro line hline
      obtain ⟨call, hcall, rfl⟩ := List.mem_map.1 hline
      exact hfeed call (mem_of_mem_accepted hcall)
    -- joined to a text, the lines are accepted as they are on their own
    have hread : ({} : Scan).feedLines 1
        (Text.lines ("\n".intercalate ((({} : Scan).accepted calls).map (·.2)))) =
        .ok (({} : Scan).offerAll calls).1 :=
      (feedLines_eq_ok_congr (Text.content_intercalate hlines)).2
        (({} : Scan).feedLines_accepted calls 1)
    rw [Netlist.parse, hread]

namespace Faulty

/-- Lines of which seven are refused, for all the reasons that there are.  The numbers that they are
given do not ascend. -/
def calls : List (Nat × String) :=
  [(9, "UP"), (9, " NETLIST\r"), (3, "UP"), (1, "$INPUTS"), (1, "$INPUTS"), (4, "UP"),
    (0, "up"), (7, "$OUTPUTS"), (7, "N; UP A.0"), (2, ""), (2, "$MODELS"), (5, "A AND"),
    (5, "A; AND"), (6, "$END"), (8, "$NETS"), (8, "N; UP  A.0"), (8, "N; UP A.0\t")]

/-- The netlist of the lines that are not refused. -/
def netlist : Netlist where
  inputs := [.up]
  models := [⟨"A", "AND"⟩]
  nets := [⟨"N", "UP", "A.0"⟩]

end Faulty

/-- The lines that are not refused are read as a netlist, one by one and as a text. -/
theorem faulty_lines_leave_no_trace :
    (∀ call ∈ Faulty.calls, '\n' ∉ call.2.toList) ∧
      (({} : Scan).offerAll Faulty.calls).2.countP (·.isSome) = 7 ∧
      (({} : Scan).offerAll Faulty.calls).1.finish = .ok Faulty.netlist ∧
      Netlist.parse ("\n".intercalate ((({} : Scan).accepted Faulty.calls).map (·.2))) =
        .ok Faulty.netlist := by
  have hfeed : ∀ call ∈ Faulty.calls, '\n' ∉ call.2.toList := by decide +kernel
  have hfinish : (({} : Scan).offerAll Faulty.calls).1.finish = .ok Faulty.netlist := by
    decide +kernel
  refine ⟨hfeed, by decide +kernel, hfinish, ?_⟩
  rw [(refused_lines_leave_no_trace Faulty.calls).2 hfeed]
  exact hfinish

end Scan

end LogicBlock
