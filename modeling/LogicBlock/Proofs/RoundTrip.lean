/-
**Which netlists survive being written and read.**

Not every netlist has a written form that means it: a name with a blank end comes back without it, a
pin with a space in it splits in two, and a semicolon or a line feed in a name breaks the record.
The netlists that do come back are exactly those that can be read from some text in the first place,
and it can be seen from their names and pins which they are.  The number of records, the order of
directions and repeated names make no difference.

The way back goes section by section: a marker leads a scan on, and the records of a section are
collected one after the other.  The way there is an invariant of the scan: whatever it has collected
so far is of the form that records have.

Main definitions:

* `Netlist.Writable` — all models and nets can be read from records;
* `Scan.Reads` — lines that lead a scan from one state to another.

Main results:

* `Scan.reads_records` — **the records of a section are collected** in their order;
* `Netlist.Writable.reads_lines` — the written lines of a writable netlist lead to it;
* `Netlist.Writable.parse_render`, `Netlist.Writable.parse_unfinished` — it is read back, with or
  without the line that closes it;
* `Scan.writable_feedLines` — a scan collects writable records only;
* `Netlist.survives_writing_iff` — **a netlist is read back exactly if it can be read at all**,
  which is exactly if it is writable.
-/

import LogicBlock.Proofs.Records

set_option relaxedAutoImplicit false
set_option autoImplicit false

namespace LogicBlock

/-- A netlist whose models and nets can all be read from records. -/
structure Netlist.Writable (n : Netlist) : Prop where
  models : ∀ m ∈ n.models, m.Writable
  nets : ∀ net ∈ n.nets, net.Writable

instance (n : Netlist) : Decidable n.Writable :=
  decidable_of_iff ((∀ m ∈ n.models, m.Writable) ∧ ∀ net ∈ n.nets, net.Writable)
    ⟨fun h => ⟨h.1, h.2⟩, fun h => ⟨h.models, h.nets⟩⟩

/-! ### Single lines -/

theorem Direction.ofRecord_name (line : Nat) (d : Direction) :
    ofRecord line d.name = .ok d := by
  rw [ofRecord, ofName?_name]

theorem Model.ofRecord_eq_ok_iff {line : Nat} {record : String} {m : Model} :
    ofRecord line record = .ok m ↔ ofRecord? record = some m := by
  rw [ofRecord]
  cases ofRecord? record with
  | none => simp
  | some m' => simp

theorem Net.ofRecord_eq_ok_iff {line : Nat} {record : String} {n : Net} :
    ofRecord line record = .ok n ↔ ofRecord? record = some n := by
  rw [ofRecord]
  cases ofRecord? record with
  | none => simp
  | some n' => simp

/-- No direction is a marker. -/
theorem Marker.ofText?_direction (d : Direction) : ofText? d.name = none := by
  cases d <;> rfl

/-- No marker has a semicolon. -/
theorem Marker.ofText?_of_semicolon {line : String} (h : ';' ∈ line.toList) :
    ofText? line = none := by
  rw [Option.eq_none_iff_forall_ne_some]
  intro marker hmarker
  rw [ofText?_eq_some_iff.1 hmarker] at h
  cases marker <;> exact absurd h (by decide)

namespace Scan

/-- A marker in its turn leads to the section that it opens. -/
theorem feed_marker {s : Scan} {marker : Marker} (h : s.current.next? = some marker) (line : Nat) :
    s.feed line marker.text = .ok { s with current := .after marker } := by
  have hmarker : Marker.ofText? (Text.trim marker.text) = some marker := by cases marker <;> rfl
  rw [feed_of_marker s line hmarker, feedMarker_eq, if_pos h]

/-- The name of a direction is a record. -/
theorem feed_direction (s : Scan) (line : Nat) (d : Direction) :
    s.feed line d.name = s.feedRecord line d.name := by
  have htrim : Text.trim d.name = d.name := by cases d <;> rfl
  have hname : Text.trim d.name ≠ "" := by cases d <;> decide
  have hrecord := Marker.ofText?_direction d
  rw [← htrim] at hrecord
  rw [feed_of_record s line hname hrecord, htrim]

/-- A line with a semicolon is a record, since no marker has one. -/
theorem feed_of_semicolon {s : Scan} {line : Nat} {raw : String}
    (h : ';' ∈ (Text.trim raw).toList) :
    s.feed line raw = s.feedRecord line (Text.trim raw) := by
  have hraw : Text.trim raw ≠ "" := by
    intro hempty
    rw [hempty] at h
    exact List.not_mem_nil h
  exact feed_of_record s line hraw (Marker.ofText?_of_semicolon h)

/-! ### Sections -/

theorem feedLines_append {s s' : Scan} {line : Nat} {l : List String} (rest : List String)
    (h : s.feedLines line l = .ok s') :
    s.feedLines line (l ++ rest) = s'.feedLines (line + l.length) rest := by
  induction l generalizing s line with
  | nil =>
      cases h
      rfl
  | cons raw l ih =>
      rw [feedLines] at h
      rw [List.cons_append, feedLines]
      cases hraw : s.feed line raw with
      | error e => rw [hraw] at h; cases h
      | ok next =>
          rw [hraw] at h
          have hline : line + 1 + l.length = line + (raw :: l).length := by
            rw [List.length_cons]
            omega
          rw [← hline]
          exact ih h

/-- The lines lead from one state of a scan to another, however they are numbered. -/
def Reads (s : Scan) (l : List String) (s' : Scan) : Prop :=
  ∀ line, s.feedLines line l = .ok s'

theorem Reads.append {s s' s'' : Scan} {l l' : List String} (h : s.Reads l s')
    (h' : s'.Reads l' s'') : s.Reads (l ++ l') s'' := by
  intro line
  rw [feedLines_append l' (h line)]
  exact h' _

theorem reads_marker {s : Scan} (marker : Marker) (h : s.current.next? = some marker) :
    s.Reads [marker.text] { s with current := .after marker } := by
  intro line
  rw [feedLines, feed_marker h line]
  rfl

/-- **The records of a section are collected** in their order, if each one is.  Here `f l` is the
scan when it has collected the records `l`. -/
theorem reads_records {α : Type} (f : List α → Scan) {render : α → String} {l : List α}
    (h : ∀ a ∈ l, ∀ done line, (f done).feed line (render a) = .ok (f (done ++ [a]))) :
    (f []).Reads (l.map render) (f l) := by
  have hfrom : ∀ done, (f done).Reads (l.map render) (f (done ++ l)) := by
    induction l with
    | nil =>
        intro done line
        rw [List.append_nil]
        rfl
    | cons a l ih =>
        intro done line
        have hrest := ih (fun b hb => h b (List.mem_cons_of_mem _ hb)) (done ++ [a]) (line + 1)
        rw [List.append_assoc, List.singleton_append] at hrest
        rw [List.map_cons, feedLines, h a List.mem_cons_self]
        exact hrest
  exact hfrom []

end Scan

/-! ### Writing and reading -/

theorem Model.Writable.feed_render {m : Model} (h : m.Writable) {s : Scan}
    (hs : s.current = .models) (line : Nat) :
    s.feed line m.render = .ok { s with netlist.models := s.netlist.models ++ [m] } := by
  have hrecord := h.ofRecord?_trim_render
  have hfields := Model.ofRecord?_eq_some_iff.1 hrecord
  obtain ⟨current, collected⟩ := s
  obtain rfl : current = .models := hs
  rw [Scan.feed_of_semicolon (Text.separator_mem_of_map_trim_split hfields),
    Scan.feedRecord_models, Model.ofRecord_eq_ok_iff.2 hrecord]
  rfl

theorem Net.Writable.feed_render {n : Net} (h : n.Writable) {s : Scan}
    (hs : s.current = .nets) (line : Nat) :
    s.feed line n.render = .ok { s with netlist.nets := s.netlist.nets ++ [n] } := by
  have hrecord := h.ofRecord?_trim_render
  obtain ⟨_, hfields, -⟩ := Net.ofRecord?_eq_some_iff.1 hrecord
  obtain ⟨current, collected⟩ := s
  obtain rfl : current = .nets := hs
  rw [Scan.feed_of_semicolon (Text.separator_mem_of_map_trim_split hfields),
    Scan.feedRecord_nets, Net.ofRecord_eq_ok_iff.2 hrecord]
  rfl

/-- A written line is a marker, the name of a port, or the line of a model or of a net. -/
theorem Netlist.cases_of_mem_lines {n : Netlist} {line : String} (h : line ∈ n.lines) :
    (∃ marker : Marker, marker.text = line) ∨ (∃ d : Direction, d.name = line) ∨
      (∃ m ∈ n.models, m.render = line) ∨ ∃ net ∈ n.nets, net.render = line := by
  simp only [lines, List.mem_append, List.mem_cons, List.not_mem_nil, or_false, List.mem_map] at h
  rcases h with (((((((h | h) | h) | h) | h) | h) | h) | h) | h
  · exact .inl (h.elim (fun h => ⟨_, h.symm⟩) fun h => ⟨_, h.symm⟩)
  · exact .inr (.inl (h.imp fun _ => And.right))
  · exact .inl ⟨_, h.symm⟩
  · exact .inr (.inl (h.imp fun _ => And.right))
  · exact .inl ⟨_, h.symm⟩
  · exact .inr (.inr (.inl h))
  · exact .inl ⟨_, h.symm⟩
  · exact .inr (.inr (.inr h))
  · exact .inl ⟨_, h.symm⟩

namespace Netlist.Writable

variable {n : Netlist}

/-- The written lines of a writable netlist lead to it already before the last one, which closes the
netlist. -/
theorem reads_unfinished (h : n.Writable) :
    ({} : Scan).Reads n.lines.dropLast ⟨.nets, n⟩ := by
  obtain ⟨inputs, outputs, models, nets⟩ := n
  have hheader : ({} : Scan).Reads [Marker.netlist.text, Marker.inputs.text] ⟨.inputs, {}⟩ :=
    (Scan.reads_marker .netlist rfl).append (Scan.reads_marker .inputs rfl)
  have hinputs : (Scan.mk .inputs {}).Reads (inputs.map Direction.name)
      ⟨.inputs, { inputs }⟩ := by
    refine Scan.reads_records (fun l => ⟨.inputs, { inputs := l }⟩) fun d _ done line => ?_
    rw [Scan.feed_direction, Scan.feedRecord_inputs, Direction.ofRecord_name]
    rfl
  have houtputs : (Scan.mk .outputs { inputs }).Reads (outputs.map Direction.name)
      ⟨.outputs, { inputs, outputs }⟩ := by
    refine Scan.reads_records (fun l => ⟨.outputs, { inputs, outputs := l }⟩)
      fun d _ done line => ?_
    rw [Scan.feed_direction, Scan.feedRecord_outputs, Direction.ofRecord_name]
    rfl
  have hmodels : (Scan.mk .models { inputs, outputs }).Reads (models.map Model.render)
      ⟨.models, { inputs, outputs, models }⟩ :=
    Scan.reads_records (fun l => ⟨.models, { inputs, outputs, models := l }⟩)
      fun m hm done line => (h.models m hm).feed_render rfl line
  have hnets : (Scan.mk .nets { inputs, outputs, models }).Reads (nets.map Net.render)
      ⟨.nets, { inputs, outputs, models, nets }⟩ :=
    Scan.reads_records (fun l => ⟨.nets, { inputs, outputs, models, nets := l }⟩)
      fun net hnet done line => (h.nets net hnet).feed_render rfl line
  have htoOutputs := (hheader.append hinputs).append (Scan.reads_marker .outputs rfl)
  have htoModels := (htoOutputs.append houtputs).append (Scan.reads_marker .models rfl)
  have htoNets := (htoModels.append hmodels).append (Scan.reads_marker .nets rfl)
  rw [lines, List.dropLast_concat]
  exact htoNets.append hnets

/-- **The written lines of a writable netlist lead to it.** -/
theorem reads_lines (h : n.Writable) : ({} : Scan).Reads n.lines ⟨.ended, n⟩ := by
  have hlines : n.lines = n.lines.dropLast ++ [Marker.finish.text] := by
    rw [lines, List.dropLast_concat]
  rw [hlines]
  exact h.reads_unfinished.append (Scan.reads_marker .finish rfl)

/-- No line end is hidden in a written line. -/
theorem lineEnd_notMem (h : n.Writable) {line : String} (hline : line ∈ n.lines) :
    '\n' ∉ line.toList ∧ line.toList.getLast? ≠ some '\r' := by
  rcases cases_of_mem_lines hline with ⟨marker, rfl⟩ | ⟨d, rfl⟩ | ⟨m, hm, rfl⟩ | ⟨net, hnet, rfl⟩
  · cases marker <;> decide
  · cases d <;> decide
  · have hm := h.models m hm
    exact ⟨Text.lineFeed_notMem_line hm.name hm.type.lineFeed,
      Text.getLast?_line_ne hm.type.noBlankEnd⟩
  · have hnet := h.nets net hnet
    have hconnection := hnet.isField_connection
    rw [Net.render_eq_line]
    exact ⟨Text.lineFeed_notMem_line hnet.name hconnection.lineFeed,
      Text.getLast?_line_ne hconnection.noBlankEnd⟩

/-- The lines of the written form are the lines that were written. -/
theorem lines_render (h : n.Writable) : Text.lines n.render = n.lines := by
  refine Text.lines_intercalate (fun line hl => (h.lineEnd_notMem hl).1)
    (fun line hl => (h.lineEnd_notMem hl).2) ?_
  rw [lines, List.getLast?_concat]
  decide

/-- **A writable netlist survives** being written and read. -/
theorem parse_render (h : n.Writable) : Netlist.parse n.render = .ok n := by
  rw [Netlist.parse, h.lines_render, h.reads_lines 1]
  rfl

/-- A writable netlist is read as well if every line is ended by a line feed and the line that
closes the netlist is left out. -/
theorem parse_unfinished (h : n.Writable) :
    Netlist.parse ("\n".intercalate (n.lines.dropLast ++ [""])) = .ok n := by
  have hlines : Text.lines ("\n".intercalate (n.lines.dropLast ++ [""])) = n.lines.dropLast :=
    Text.lines_intercalate_concat
      (fun line hl => (h.lineEnd_notMem (List.dropLast_subset _ hl)).1)
      (fun line hl => (h.lineEnd_notMem (List.dropLast_subset _ hl)).2)
  rw [Netlist.parse, hlines, h.reads_unfinished 1]
  rfl

end Netlist.Writable

/-! ### What a scan collects -/

theorem exists_of_bind_eq_ok {ε α β : Type} {x : Except ε α} {f : α → Except ε β} {b : β}
    (h : x >>= f = .ok b) : ∃ a, x = .ok a ∧ f a = .ok b := by
  cases x with
  | error e => cases h
  | ok a => exact ⟨a, rfl, h⟩

namespace Scan

variable {s s' : Scan} {line : Nat}

/-- A record adds nothing but a writable model or net to what has been collected. -/
theorem writable_feedRecord {record : String} (hfeed : '\n' ∉ record.toList)
    (hs : s.netlist.Writable) (h : s.feedRecord line record = .ok s') : s'.netlist.Writable := by
  obtain ⟨current, collected⟩ := s
  cases current with
  | beforeStart | ended =>
      rw [feedRecord_of_isOutside _ _ _ rfl] at h
      cases h
      exact hs
  | header =>
      rw [feedRecord_header] at h
      cases h
  | inputs =>
      rw [feedRecord_inputs] at h
      obtain ⟨d, -, hput⟩ := exists_of_bind_eq_ok h
      cases hput
      exact ⟨hs.models, hs.nets⟩
  | outputs =>
      rw [feedRecord_outputs] at h
      obtain ⟨d, -, hput⟩ := exists_of_bind_eq_ok h
      cases hput
      exact ⟨hs.models, hs.nets⟩
  | models =>
      rw [feedRecord_models] at h
      obtain ⟨m, hm, hput⟩ := exists_of_bind_eq_ok h
      cases hput
      have hnew := Model.writable_of_ofRecord? hfeed (Model.ofRecord_eq_ok_iff.1 hm)
      refine ⟨fun m' hm' => ?_, hs.nets⟩
      rcases List.mem_append.1 hm' with hm' | hm'
      · exact hs.models m' hm'
      · rw [List.mem_singleton.1 hm']
        exact hnew
  | nets =>
      rw [feedRecord_nets] at h
      obtain ⟨net, hnet, hput⟩ := exists_of_bind_eq_ok h
      cases hput
      have hnew := Net.writable_of_ofRecord? hfeed (Net.ofRecord_eq_ok_iff.1 hnet)
      refine ⟨hs.models, fun net' hnet' => ?_⟩
      rcases List.mem_append.1 hnet' with hnet' | hnet'
      · exact hs.nets net' hnet'
      · rw [List.mem_singleton.1 hnet']
        exact hnew

/-- **One line keeps what has been collected writable**, as long as it is one line. -/
theorem writable_feed {raw : String} (hfeed : '\n' ∉ raw.toList) (hs : s.netlist.Writable)
    (h : s.feed line raw = .ok s') : s'.netlist.Writable := by
  by_cases hraw : Text.trim raw = ""
  · rw [feed_of_blank s line hraw] at h
    cases h
    exact hs
  · cases hmarker : Marker.ofText? (Text.trim raw) with
    | some marker =>
        -- a marker changes the section only
        rw [feed_of_marker s line hmarker, feedMarker_eq] at h
        split at h
        · cases h
          exact hs
        · split at h
          · cases h
            exact hs
          · cases h
    | none =>
        rw [feed_of_record s line hraw hmarker] at h
        refine writable_feedRecord (fun hmem => hfeed ?_) hs h
        exact Text.mem_of_mem_trimChars (Text.toList_trim raw ▸ hmem)

/-- **A scan collects writable records only.** -/
theorem writable_feedLines {l : List String} (hfeed : ∀ raw ∈ l, '\n' ∉ raw.toList)
    (hs : s.netlist.Writable) (h : s.feedLines line l = .ok s') : s'.netlist.Writable := by
  induction l generalizing s line with
  | nil =>
      cases h
      exact hs
  | cons raw l ih =>
      rw [feedLines] at h
      cases hraw : s.feed line raw with
      | error e => rw [hraw] at h; cases h
      | ok next =>
          rw [hraw] at h
          exact ih (fun raw' hraw' => hfeed raw' (List.mem_cons_of_mem _ hraw'))
            (writable_feed (hfeed raw List.mem_cons_self) hs hraw) h

end Scan

namespace Netlist

theorem writable_of_parse {text : String} {n : Netlist} (h : parse text = .ok n) : n.Writable := by
  rw [parse] at h
  cases hlines : ({} : Scan).feedLines 1 (Text.lines text) with
  | error e => rw [hlines] at h; cases h
  | ok s =>
      rw [hlines] at h
      have hempty : ({} : Scan).netlist.Writable :=
        ⟨fun _ hm => absurd hm List.not_mem_nil, fun _ hnet => absurd hnet List.not_mem_nil⟩
      have hs : s.netlist.Writable :=
        Scan.writable_feedLines (fun _ => Text.lineFeed_notMem_of_mem_lines) hempty hlines
      change s.finish = .ok n at h
      rw [Scan.finish] at h
      split at h
      · cases h
      · cases h
        exact hs

/-- **A netlist survives being written and read exactly if it can be read from some text**, and that
is the case exactly if its names and pins are of the form that records have. -/
theorem survives_writing_iff (n : Netlist) :
    (parse n.render = .ok n ↔ ∃ text, parse text = .ok n) ∧
      ((∃ text, parse text = .ok n) ↔ n.Writable) := by
  have hread : (∃ text, parse text = .ok n) → n.Writable := fun ⟨_, h⟩ => writable_of_parse h
  refine ⟨⟨fun h => ⟨n.render, h⟩, fun h => (hread h).parse_render⟩, hread, fun h => ?_⟩
  exact ⟨n.render, h.parse_render⟩

/-- Empty names, a name with dots and blanks inside, a type that looks like a marker, a tab that
ends a source and a carriage return inside a pin do no harm. -/
example : parse (render
    { inputs := [.up, .up]
      models := [⟨"", ""⟩, ⟨"A. b\t.c", "$END"⟩]
      nets := [⟨"", "UP\t", "A\r.2"⟩] }) =
    .ok { inputs := [.up, .up]
          models := [⟨"", ""⟩, ⟨"A. b\t.c", "$END"⟩]
          nets := [⟨"", "UP\t", "A\r.2"⟩] } :=
  Writable.parse_render (by decide)

end Netlist

end LogicBlock
