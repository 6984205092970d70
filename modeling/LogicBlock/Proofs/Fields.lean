/-
**Lines, fields and blank ends.**

A text is cut in three ways: into lines at line feeds, into fields at a separator, and at its ends,
where the blanks are.  The pieces of a cut do not contain the character at which the text was cut,
and joining them gives the text back; so there is one way only to cut a text.  Trimming a text that
has a character that is not blank somewhere is trimming what stands before it and what stands after
it, each at the far end.

Main results:

* `Text.notMem_of_mem_splitOn`, `Text.split_eq_pair_iff` — **the fields of a text** have no
  separator in them, and they are the only such pieces;
* `Text.lineFeed_notMem_of_mem_lines`, `Text.lines_intercalate`, `Text.lines_intercalate_concat` —
  **lines are read back** as they were written, if none of them ends in a carriage return;
* `Text.trimChars_append_cons` — trimming around a character that is not blank;
* `Text.trimChars_blanks_append`, `Text.trimChars_append_blanks` — blanks at the ends of a text;
* `Text.map_trim_split_eq_pair_iff` — two fields without the blanks at their ends.
-/

import LogicBlock.Text.Blank
import LogicBlock.Text.Lines

set_option relaxedAutoImplicit false
set_option autoImplicit false

namespace LogicBlock

namespace Text

/-! ### Fields -/

/-- No piece contains the character at which the text was cut. -/
theorem notMem_of_mem_splitOn {separator : Char} {cs piece : List Char}
    (h : piece ∈ cs.splitOn separator) : separator ∉ piece := by
  induction cs generalizing piece with
  | nil =>
      rw [List.splitOn_nil, List.mem_singleton] at h
      rw [h]
      exact List.not_mem_nil
  | cons c cs ih =>
      rw [List.splitOn_cons_eq_if_modifyHead] at h
      split at h
      · rcases List.mem_cons.1 h with rfl | h
        · exact List.not_mem_nil
        · exact ih h
      · -- the character goes in front of the first piece of what follows
        rename_i hc
        obtain ⟨first, rest, hcut⟩ := List.exists_cons_of_ne_nil (List.splitOn_ne_nil separator cs)
        rw [hcut] at h ih
        rcases List.mem_cons.1 h with rfl | h
        · intro hmem
          rcases List.mem_cons.1 hmem with rfl | hmem
          · exact hc (beq_self_eq_true _)
          · exact ih List.mem_cons_self hmem
        · exact ih (List.mem_cons_of_mem _ h)

/-- **A text has two fields** exactly when it is these two around one separator. -/
theorem split_eq_pair_iff {separator : Char} {s first second : String} :
    split separator s = [first, second] ↔
      s.toList = first.toList ++ separator :: second.toList ∧
        separator ∉ first.toList ∧ separator ∉ second.toList := by
  have hpieces : split separator s = [first, second] ↔
      s.toList.splitOn separator = [first.toList, second.toList] := by
    constructor
    · intro h
      have hchars := congrArg (List.map String.toList) h
      rw [split, List.map_map] at hchars
      simpa [Function.comp_def] using hchars
    · intro h
      rw [split, h]
      simp
  rw [hpieces]
  constructor
  · intro h
    have hjoin : [separator].intercalate (s.toList.splitOn separator) = s.toList :=
      List.intercalate_splitOn separator
    rw [h] at hjoin
    refine ⟨?_, notMem_of_mem_splitOn (h ▸ List.mem_cons_self),
      notMem_of_mem_splitOn (h ▸ List.mem_cons_of_mem _ List.mem_cons_self)⟩
    rw [← hjoin]
    simp
  · rintro ⟨hs, hfirst, hsecond⟩
    rw [hs, List.splitOn_append_cons_self_of_not_mem hfirst, List.splitOn_eq_singleton hsecond]

/-! ### Lines -/

theorem mem_of_mem_dropReturn {c : Char} {cs : List Char} (h : c ∈ dropReturn cs) : c ∈ cs := by
  rw [dropReturn] at h
  split at h
  · exact (List.dropLast_sublist cs).mem h
  · exact h

theorem endLines_cons_cons (piece next : List Char) (rest : List (List Char)) :
    endLines (piece :: next :: rest) = dropReturn piece :: endLines (next :: rest) :=
  rfl

/-- Every line is a piece between line feeds, perhaps without its last character. -/
theorem exists_piece_of_mem_endLines {pieces : List (List Char)} {line : List Char}
    (h : line ∈ endLines pieces) : ∃ piece ∈ pieces, ∀ c ∈ line, c ∈ piece := by
  induction pieces with
  | nil => cases h
  | cons piece rest ih =>
      cases rest with
      | nil =>
          rw [endLines] at h
          split at h
          · cases h
          · rw [List.mem_singleton] at h
            exact ⟨piece, List.mem_cons_self, fun c hc => h ▸ hc⟩
      | cons next rest =>
          rw [endLines_cons_cons] at h
          rcases List.mem_cons.1 h with rfl | h
          · exact ⟨piece, List.mem_cons_self, fun c hc => mem_of_mem_dropReturn hc⟩
          · obtain ⟨piece', hpiece', hsub⟩ := ih h
            exact ⟨piece', List.mem_cons_of_mem _ hpiece', hsub⟩

/-- No line contains a line feed. -/
theorem lineFeed_notMem_of_mem_lines {s line : String} (h : line ∈ lines s) :
    '\n' ∉ line.toList := by
  obtain ⟨cs, hcs, rfl⟩ := List.mem_map.1 h
  obtain ⟨piece, hpiece, hsub⟩ := exists_piece_of_mem_endLines hcs
  rw [String.toList_ofList]
  exact fun hmem => notMem_of_mem_splitOn hpiece (hsub _ hmem)

/-- Pieces without a carriage return at the end are the lines, unless the last one is empty. -/
theorem endLines_eq_self {pieces : List (List Char)}
    (hreturn : ∀ piece ∈ pieces, piece.getLast? ≠ some '\r') (hlast : pieces.getLast? ≠ some []) :
    endLines pieces = pieces := by
  induction pieces with
  | nil => rfl
  | cons piece rest ih =>
      cases rest with
      | nil =>
          have hne : piece ≠ [] := fun h => hlast (by rw [h]; rfl)
          rw [endLines, if_neg (by simpa using hne)]
      | cons next rest =>
          have hrest := ih (fun p hp => hreturn p (List.mem_cons_of_mem _ hp))
            (by rwa [List.getLast?_cons_cons] at hlast)
          rw [endLines_cons_cons, dropReturn, if_neg (hreturn piece List.mem_cons_self), hrest]

/-- The pieces of a text that was joined with line feeds are what was joined. -/
theorem splitOn_intercalate_lineFeed {l : List String} (hl : l ≠ [])
    (hfeed : ∀ line ∈ l, '\n' ∉ line.toList) :
    ("\n".intercalate l).toList.splitOn '\n' = l.map String.toList := by
  rw [String.toList_intercalate]
  exact List.splitOn_intercalate '\n' (by simpa using hfeed) (by simpa using hl)

/-- **Lines are read back** as they were written, if there is no line feed in any of them, none ends
in a carriage return, and the last one is not empty. -/
theorem lines_intercalate {l : List String} (hfeed : ∀ line ∈ l, '\n' ∉ line.toList)
    (hreturn : ∀ line ∈ l, line.toList.getLast? ≠ some '\r') (hlast : l.getLast? ≠ some "") :
    lines ("\n".intercalate l) = l := by
  by_cases hl : l = []
  · rw [hl]
    rfl
  · have hends : endLines (l.map String.toList) = l.map String.toList := by
      refine endLines_eq_self (by simpa using hreturn) ?_
      rw [List.getLast?_map]
      intro h
      obtain ⟨last, hlast', hempty⟩ := Option.map_eq_some_iff.1 h
      exact hlast (by rw [hlast', String.toList_eq_nil_iff.1 hempty])
    rw [lines, lineChars, splitOn_intercalate_lineFeed hl hfeed, hends, List.map_map]
    simp [Function.comp_def]

/-- Pieces that are all ended by a line feed are the lines, if no carriage return stands before
it. -/
theorem endLines_concat_nil {pieces : List (List Char)}
    (hreturn : ∀ piece ∈ pieces, piece.getLast? ≠ some '\r') :
    endLines (pieces ++ [[]]) = pieces := by
  induction pieces with
  | nil => rfl
  | cons piece rest ih =>
      obtain ⟨next, rest', hrest⟩ := List.exists_cons_of_ne_nil (List.concat_ne_nil [] rest)
      have ih := ih fun p hp => hreturn p (List.mem_cons_of_mem _ hp)
      rw [List.cons_append, hrest, endLines_cons_cons, ← hrest, ih, dropReturn,
        if_neg (hreturn piece List.mem_cons_self)]

/-- **Lines that are all ended by a line feed are read back** as they were written, the last one
too, be it empty or not. -/
theorem lines_intercalate_concat {l : List String} (hfeed : ∀ line ∈ l, '\n' ∉ line.toList)
    (hreturn : ∀ line ∈ l, line.toList.getLast? ≠ some '\r') :
    lines ("\n".intercalate (l ++ [""])) = l := by
  have hfeed' : ∀ line ∈ l ++ [""], '\n' ∉ line.toList := by
    intro line hline
    rcases List.mem_append.1 hline with hline | hline
    · exact hfeed line hline
    · rw [List.mem_singleton.1 hline]
      exact List.not_mem_nil
  have hends : endLines (l.map String.toList ++ [[]]) = l.map String.toList :=
    endLines_concat_nil (by simpa using hreturn)
  rw [lines, lineChars, splitOn_intercalate_lineFeed (by simp) hfeed', List.map_append,
    List.map_singleton, String.toList_empty, hends, List.map_map]
  simp [Function.comp_def]

/-! ### Blank ends -/

theorem mem_of_mem_trimStart {c : Char} {cs : List Char} (h : c ∈ trimStart cs) : c ∈ cs :=
  (List.dropWhile_sublist _).mem h

theorem mem_of_mem_trimEnd {c : Char} {cs : List Char} (h : c ∈ trimEnd cs) : c ∈ cs := by
  rw [trimEnd_eq_reverse, List.mem_reverse] at h
  exact List.mem_reverse.1 (mem_of_mem_trimStart h)

theorem mem_of_mem_trimChars {c : Char} {cs : List Char} (h : c ∈ trimChars cs) : c ∈ cs :=
  mem_of_mem_trimStart (mem_of_mem_trimEnd h)

theorem trimChars_cons_of_isBlank {c : Char} (hc : isBlank c) (cs : List Char) :
    trimChars (c :: cs) = trimChars cs := by
  rw [trimChars, trimStart_cons, if_pos hc, trimChars]

theorem trimStart_append_cons {c : Char} (hc : isBlank c = false) (before after : List Char) :
    trimStart (before ++ c :: after) = trimStart before ++ c :: after := by
  induction before with
  | nil => rw [List.nil_append, trimStart_cons, hc]; rfl
  | cons d before ih =>
      rw [List.cons_append, trimStart_cons, trimStart_cons, ih]
      split
      · rfl
      · rfl

theorem trimEnd_append_cons {c : Char} (hc : isBlank c = false) (before after : List Char) :
    trimEnd (before ++ c :: after) = before ++ c :: trimEnd after := by
  have h := trimStart_append_cons hc after.reverse before.reverse
  rw [trimEnd_eq_reverse, trimEnd_eq_reverse, List.reverse_append, List.reverse_cons,
    List.append_assoc, List.singleton_append, h]
  simp

/-- **Trimming around a character that is not blank**: what stands before it is trimmed at the start
only, what stands after it at the end only. -/
theorem trimChars_append_cons {c : Char} (hc : isBlank c = false) (before after : List Char) :
    trimChars (before ++ c :: after) = trimStart before ++ c :: trimEnd after := by
  rw [trimChars, trimStart_append_cons hc, trimEnd_append_cons hc]

theorem trimEnd_cons (c : Char) (cs : List Char) :
    trimEnd (c :: cs) = if (trimEnd cs).isEmpty then trimEnd [c] else c :: trimEnd cs := by
  simp only [trimEnd, List.reverse_cons, List.dropWhile_append, List.isEmpty_reverse]
  split
  · rfl
  · simp

/-- It does not matter which end is trimmed first. -/
theorem trimStart_trimEnd (cs : List Char) : trimStart (trimEnd cs) = trimEnd (trimStart cs) := by
  induction cs with
  | nil => rfl
  | cons c cs ih =>
      cases hc : isBlank c with
      | false =>
          -- the first character stays, so only the end is trimmed
          have hend : trimEnd (c :: cs) = c :: trimEnd cs := trimEnd_append_cons hc [] cs
          rw [hend, trimStart_cons, trimStart_cons, hc]
          exact hend.symm
      | true =>
          rw [trimEnd_cons, trimStart_cons, hc, if_pos rfl, ← ih]
          split
          · rename_i hnil
            have hsingle : trimEnd [c] = [] := by simp [trimEnd, hc]
            rw [hsingle, List.isEmpty_iff.1 hnil]
          · rw [trimStart_cons, hc, if_pos rfl]

@[simp] theorem trimChars_trimEnd (cs : List Char) : trimChars (trimEnd cs) = trimChars cs := by
  rw [trimChars, trimChars, trimStart_trimEnd, (trimEnd_eq_self_iff _).2 (noBlankEnd_trimEnd _)]

/-- Blanks in front of a text do not count. -/
theorem trimChars_blanks_append {blanks : List Char} (hblanks : ∀ c ∈ blanks, isBlank c)
    (cs : List Char) : trimChars (blanks ++ cs) = trimChars cs := by
  rw [trimChars, trimStart, List.dropWhile_append_of_pos hblanks, trimChars, trimStart]

/-- Blanks behind a text do not count. -/
theorem trimChars_append_blanks {blanks : List Char} (hblanks : ∀ c ∈ blanks, isBlank c)
    (cs : List Char) : trimChars (cs ++ blanks) = trimChars cs := by
  have hend : trimEnd (cs ++ blanks) = trimEnd cs := by
    rw [trimEnd, List.reverse_append, List.dropWhile_append_of_pos fun c hc =>
      hblanks c (List.mem_reverse.1 hc), trimEnd]
  rw [← trimChars_trimEnd (cs ++ blanks), hend, trimChars_trimEnd]

/-! ### Trimmed fields -/

/-- **A text has two fields**, and this is what they are without the blanks at their ends. -/
theorem map_trim_split_eq_pair_iff {separator : Char} {s first second : String} :
    (split separator s).map trim = [first, second] ↔
      ∃ left right : String, split separator s = [left, right] ∧
        first = trim left ∧ second = trim right := by
  constructor
  · intro h
    obtain ⟨left, tail, hcut, hleft, htail⟩ := List.map_eq_cons_iff.1 h
    obtain ⟨right, tail', rfl, hright, htail'⟩ := List.map_eq_cons_iff.1 htail
    rw [List.map_eq_nil_iff] at htail'
    subst htail'
    exact ⟨left, right, hcut, hleft.symm, hright.symm⟩
  · rintro ⟨left, right, hcut, rfl, rfl⟩
    rw [hcut]
    rfl

/-- A text with two fields has a separator. -/
theorem separator_mem_of_map_trim_split {separator : Char} {s first second : String}
    (h : (split separator s).map trim = [first, second]) : separator ∈ s.toList := by
  obtain ⟨left, right, hcut, -⟩ := map_trim_split_eq_pair_iff.1 h
  rw [(split_eq_pair_iff.1 hcut).1]
  exact List.mem_append_right _ List.mem_cons_self

end Text

end LogicBlock
