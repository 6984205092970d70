/-
**What a scan does with a line, and what a section is made of.**

A scan refuses a line as soon as it cannot be right, and the refusal carries the number of the line.
When no line is refused, the numbers leave no trace, nor do the blanks at the ends of lines and the
lines that are nothing but blank.  So it can be said without them what a line does: it is a marker
that leads on, or a record of the section that is open, or it stands outside the netlist and does
nothing.  Markers come before records, but no marker is a record anyway.

The lines that a scan accepts from some section on, to have read a netlist in the end, are then
described section by section, each time by an induction on the lines.

Main definitions:

* `Netlist.Adds` — what the records of a section add to a netlist;
* `Scan.Step`, `Scan.Run` — what one line can do to a scan, and many;
* `Scan.Accepts` — lines that lead a scan to the end, and to a netlist;
* `Text.content` — the lines that count.

Main results:

* `Scan.feed_eq_ok_iff`, `Scan.feedLines_eq_ok_iff` — **the steps are what a scan does**;
* `Scan.accepts_beforeStart_iff`, `Scan.accepts_section_iff`, `Scan.accepts_ended_iff` — **the lines
  before a netlist, of a section, and after the netlist**;
* `Netlist.parse_eq_ok_iff_accepts` — to read a text is to accept the lines of it that count.
-/

import LogicBlock.Proofs.RoundTrip
import Mathlib.Data.List.Forall2

set_option relaxedAutoImplicit false
set_option autoImplicit false

namespace LogicBlock

/-! ### What a line can do -/

theorem Direction.ofRecord_eq_ok_iff {line : Nat} {record : String} {d : Direction} :
    ofRecord line record = .ok d ↔ record = d.name := by
  rw [← ofName?_eq_some_iff, ofRecord]
  cases ofName? record with
  | none => simp
  | some d' => simp

/-- The line is a record of the section, and adds to what has been collected. -/
def Netlist.Adds (n : Netlist) : Section → String → Netlist → Prop
  | .inputs, line, n' => ∃ d : Direction, line = d.name ∧ n' = { n with inputs := n.inputs ++ [d] }
  | .outputs, line, n' =>
    ∃ d : Direction, line = d.name ∧ n' = { n with outputs := n.outputs ++ [d] }
  | .models, line, n' =>
    ∃ m, Model.ofRecord? line = some m ∧ n' = { n with models := n.models ++ [m] }
  | .nets, line, n' =>
    ∃ net, Net.ofRecord? line = some net ∧ n' = { n with nets := n.nets ++ [net] }
  | .beforeStart, _, _ | .header, _, _ | .ended, _, _ => False

namespace Scan

/-- **What a line that is not blank can do to a scan**: lead on to the next section, mean nothing
outside the netlist, or be a record. -/
inductive Step : Scan → String → Scan → Prop
  | marker {s : Scan} (marker : Marker) (h : s.current.next? = some marker) :
      Step s marker.text { s with current := .after marker }
  | outside {s : Scan} {line : String} (h : s.current.isOutside)
      (hline : ∀ marker, s.current.next? = some marker → line ≠ marker.text) : Step s line s
  | record {s : Scan} {line : String} {n : Netlist} (h : s.netlist.Adds s.current line n) :
      Step s line { s with netlist := n }

/-- Lines that lead a scan from one state to another, each by a step. -/
inductive Run : Scan → List String → Scan → Prop
  | nil (s : Scan) : Run s [] s
  | cons {s next s' : Scan} {line : String} {rest : List String} (hline : Step s line next)
      (hrest : Run next rest s') : Run s (line :: rest) s'

variable {s s' : Scan} {line : Nat}

/-- What is read from a record is put into the netlist. -/
theorem collect_eq_ok_iff {α : Type} {x : Except FormatError α} {Says : α → Prop}
    (hx : ∀ a, x = .ok a ↔ Says a) (current : Section) (put : α → Netlist) :
    (do let a ← x; return Scan.mk current (put a)) = Except.ok s' ↔
      ∃ n, (∃ a, Says a ∧ n = put a) ∧ s' = ⟨current, n⟩ := by
  constructor
  · intro h
    obtain ⟨a, ha, hput⟩ := exists_of_bind_eq_ok h
    cases hput
    exact ⟨put a, ⟨a, (hx a).1 ha, rfl⟩, rfl⟩
  · rintro ⟨_, ⟨a, ha, rfl⟩, rfl⟩
    rw [(hx a).2 ha]
    rfl

/-- **Inside the netlist** a line that is no marker has to be a record of the open section. -/
theorem feedRecord_eq_ok_iff {record : String} (hinside : s.current.isOutside = false) :
    s.feedRecord line record = .ok s' ↔
      ∃ n, s.netlist.Adds s.current record n ∧ s' = { s with netlist := n } := by
  obtain ⟨current, netlist⟩ := s
  cases current with
  | beforeStart => cases hinside
  | ended => cases hinside
  | header =>
      rw [feedRecord_header]
      refine ⟨fun h => ?_, fun h => ?_⟩
      · cases h
      · obtain ⟨_, hadds, -⟩ := h
        cases hadds
  | inputs =>
      rw [feedRecord_inputs]
      exact collect_eq_ok_iff (fun _ => Direction.ofRecord_eq_ok_iff) _ _
  | outputs =>
      rw [feedRecord_outputs]
      exact collect_eq_ok_iff (fun _ => Direction.ofRecord_eq_ok_iff) _ _
  | models =>
      rw [feedRecord_models]
      exact collect_eq_ok_iff (fun _ => Model.ofRecord_eq_ok_iff) _ _
  | nets =>
      rw [feedRecord_nets]
      exact collect_eq_ok_iff (fun _ => Net.ofRecord_eq_ok_iff) _ _

/-- There are records inside the netlist only, and no marker is a record. -/
theorem inside_of_adds {n n' : Netlist} {current : Section} {record : String}
    (h : n.Adds current record n') :
    current.isOutside = false ∧ Marker.ofText? record = none := by
  cases current with
  | beforeStart | header | ended => cases h
  | inputs | outputs =>
      obtain ⟨d, rfl, -⟩ := h
      exact ⟨rfl, Marker.ofText?_direction d⟩
  | models =>
      obtain ⟨m, hm, -⟩ := h
      exact ⟨rfl, Marker.ofText?_of_semicolon
        (Text.separator_mem_of_map_trim_split (Model.ofRecord?_eq_some_iff.1 hm))⟩
  | nets =>
      obtain ⟨net, hnet, -⟩ := h
      obtain ⟨_, hfields, -⟩ := Net.ofRecord?_eq_some_iff.1 hnet
      exact ⟨rfl, Marker.ofText?_of_semicolon (Text.separator_mem_of_map_trim_split hfields)⟩

/-- A marker leads on in its turn, and outside the netlist it means nothing. -/
theorem feedMarker_eq_ok_iff {content : String} {marker : Marker}
    (hcontent : Marker.ofText? content = some marker) :
    s.feedMarker line marker = .ok s' ↔ s.Step content s' := by
  have htext : content = marker.text := Marker.ofText?_eq_some_iff.1 hcontent
  rw [feedMarker_eq]
  constructor
  · intro h
    split at h
    · rename_i hnext
      cases h
      rw [htext]
      exact .marker marker hnext
    · rename_i hnext
      split at h
      · rename_i houtside
        cases h
        refine .outside houtside fun other hother heq => hnext ?_
        rw [heq, Marker.ofText?_text] at hcontent
        rw [hother, hcontent]
      · cases h
  · intro h
    cases h with
    | marker other hother =>
        rw [Marker.ofText?_text] at hcontent
        cases hcontent
        rw [if_pos hother]
    | outside houtside hline =>
        rw [if_neg fun hnext => hline marker hnext htext, if_pos houtside]
    | record hadds =>
        rw [(inside_of_adds hadds).2] at hcontent
        cases hcontent

/-- A line that is no marker is a record, or means nothing outside the netlist. -/
theorem feedRecord_eq_ok_iff_step {content : String} (hcontent : Marker.ofText? content = none) :
    s.feedRecord line content = .ok s' ↔ s.Step content s' := by
  constructor
  · intro h
    cases hcurrent : s.current.isOutside with
    | true =>
        rw [s.feedRecord_of_isOutside line content hcurrent] at h
        cases h
        refine .outside hcurrent fun marker _ heq => ?_
        rw [heq, Marker.ofText?_text] at hcontent
        cases hcontent
    | false =>
        obtain ⟨n, hadds, rfl⟩ := (feedRecord_eq_ok_iff hcurrent).1 h
        exact .record hadds
  · intro h
    cases h with
    | marker marker hnext =>
        rw [Marker.ofText?_text] at hcontent
        cases hcontent
    | outside houtside hline => exact s.feedRecord_of_isOutside line content houtside
    | record hadds =>
        exact (feedRecord_eq_ok_iff (inside_of_adds hadds).1).2 ⟨_, hadds, rfl⟩

/-- **The steps are what a scan does** with lines that are not blank. -/
theorem feed_eq_ok_iff {raw : String} (hraw : Text.trim raw ≠ "") :
    s.feed line raw = .ok s' ↔ s.Step (Text.trim raw) s' := by
  cases hcontent : Marker.ofText? (Text.trim raw) with
  | some marker =>
      rw [feed_of_marker s line hcontent]
      exact feedMarker_eq_ok_iff hcontent
  | none =>
      rw [feed_of_record s line hraw hcontent]
      exact feedRecord_eq_ok_iff_step hcontent

/-- **A scan takes its lines one step after the other**, leaving out the blank ones. -/
theorem feedLines_eq_ok_iff {l : List String} :
    s.feedLines line l = .ok s' ↔ s.Run ((l.map Text.trim).filter (· ≠ "")) s' := by
  induction l generalizing s line with
  | nil =>
      constructor
      · intro h
        cases h
        exact .nil _
      · intro h
        cases h
        rfl
  | cons raw l ih =>
      rw [List.map_cons]
      by_cases hraw : Text.trim raw = ""
      · rw [List.filter_cons_of_neg (by simpa using hraw), feedLines, feed_of_blank s line hraw]
        exact ih
      · rw [List.filter_cons_of_pos (by simpa using hraw), feedLines]
        constructor
        · intro h
          cases hfeed : s.feed line raw with
          | error e => rw [hfeed] at h; cases h
          | ok next =>
              rw [hfeed] at h
              exact .cons ((feed_eq_ok_iff hraw).1 hfeed) (ih.1 h)
        · intro h
          cases h with
          | cons hline hrest =>
              rw [(feed_eq_ok_iff hraw).2 hline]
              exact ih.2 hrest

/-! ### What a section is made of -/

/-- The scan takes the lines, and has read the netlist when they are over. -/
def Accepts (s : Scan) (l : List String) (n : Netlist) : Prop :=
  ∃ s', s.Run l s' ∧ s'.finish = .ok n

variable {n : Netlist} {l : List String} {content : String}

theorem accepts_nil_iff : s.Accepts [] n ↔ s.finish = .ok n := by
  constructor
  · rintro ⟨s', hrun, hfinish⟩
    cases hrun
    exact hfinish
  · exact fun h => ⟨s, .nil s, h⟩

theorem accepts_cons_iff :
    s.Accepts (content :: l) n ↔ ∃ next, s.Step content next ∧ next.Accepts l n := by
  constructor
  · rintro ⟨s', hrun, hfinish⟩
    cases hrun with
    | cons hline hrest => exact ⟨_, hline, _, hrest, hfinish⟩
  · rintro ⟨next, hline, s', hrest, hfinish⟩
    exact ⟨s', .cons hline hrest, hfinish⟩

/-- **Before the netlist** everything is passed over, up to the line that starts it. -/
theorem accepts_beforeStart_iff {collected : Netlist} :
    (Scan.mk .beforeStart collected).Accepts l n ↔
      ∃ before rest, l = before ++ "NETLIST" :: rest ∧ "NETLIST" ∉ before ∧
        (Scan.mk .header collected).Accepts rest n := by
  induction l with
  | nil =>
      rw [accepts_nil_iff]
      constructor
      · intro h
        cases h
      · rintro ⟨before, rest, heq, -⟩
        exact absurd heq.symm (by simp)
  | cons content l ih =>
      rw [accepts_cons_iff]
      constructor
      · rintro ⟨next, hline, hrest⟩
        cases hline with
        | marker marker hmarker =>
            cases hmarker
            exact ⟨[], l, rfl, List.not_mem_nil, hrest⟩
        | outside _ hcontent =>
            obtain ⟨before, rest, rfl, hbefore, hrest⟩ := ih.1 hrest
            have hne : "NETLIST" ≠ content := (hcontent .netlist rfl).symm
            exact ⟨content :: before, rest, rfl, List.not_mem_cons_of_ne_of_not_mem hne hbefore,
              hrest⟩
        | record hadds => cases hadds
      · rintro ⟨before, rest, heq, hbefore, hrest⟩
        cases before with
        | nil =>
            obtain ⟨rfl, rfl⟩ := List.cons.inj heq
            exact ⟨_, .marker .netlist rfl, hrest⟩
        | cons first before =>
            obtain ⟨rfl, rfl⟩ := List.cons.inj heq
            rw [List.mem_cons, not_or] at hbefore
            refine ⟨_, .outside rfl fun marker hmarker => ?_,
              ih.2 ⟨before, rest, rfl, hbefore.2, hrest⟩⟩
            cases hmarker
            exact Ne.symm hbefore.1

/-- **After the netlist** everything is passed over. -/
theorem accepts_ended_iff {collected : Netlist} :
    (Scan.mk .ended collected).Accepts l n ↔ n = collected := by
  induction l with
  | nil =>
      rw [accepts_nil_iff]
      exact ⟨fun h => (Except.ok.inj h).symm, fun h => congrArg Except.ok h.symm⟩
  | cons content l ih =>
      rw [accepts_cons_iff, ← ih]
      constructor
      · rintro ⟨next, hline, hrest⟩
        cases hline with
        | marker marker hmarker => cases hmarker
        | outside _ _ => exact hrest
        | record hadds => cases hadds
      · exact fun hrest => ⟨_, .outside rfl (fun marker hmarker => nomatch hmarker), hrest⟩

/-- Inside the netlist a line is the marker that leads on, or a record. -/
theorem step_iff_of_inside {current : Section} {marker : Marker} {collected : Netlist}
    (hnext : current.next? = some marker) (hinside : current.isOutside = false) :
    (Scan.mk current collected).Step content s' ↔
      (content = marker.text ∧ s' = ⟨.after marker, collected⟩) ∨
        ∃ n, collected.Adds current content n ∧ s' = ⟨current, n⟩ := by
  constructor
  · intro h
    cases h with
    | marker other hother =>
        obtain rfl : marker = other := Option.some.inj (hnext.symm.trans hother)
        exact .inl ⟨rfl, rfl⟩
    | outside houtside _ => exact absurd (hinside.symm.trans houtside) Bool.false_ne_true
    | record hadds => exact .inr ⟨_, hadds, rfl⟩
  · rintro (⟨rfl, rfl⟩ | ⟨n, hadds, rfl⟩)
    · exact .marker marker hnext
    · exact .record hadds

/-- **The lines of a section** up to the marker that ends it are its records.  Here `f l` is what
has been collected with the records `l` of the section. -/
theorem accepts_section_iff {α : Type} (current : Section) (marker : Marker)
    (f : List α → Netlist) (Says : String → α → Prop) (hnext : current.next? = some marker)
    (hinside : current.isOutside = false) (hadds : ∀ done line n, (f done).Adds current line n ↔
      ∃ a, Says line a ∧ n = f (done ++ [a])) (done : List α) :
    (Scan.mk current (f done)).Accepts l n ↔
      (∃ records as rest, l = records ++ marker.text :: rest ∧ List.Forall₂ Says records as ∧
        (Scan.mk (.after marker) (f (done ++ as))).Accepts rest n) ∨
      ∃ as, List.Forall₂ Says l as ∧ (Scan.mk current (f (done ++ as))).finish = .ok n := by
  induction l generalizing done with
  | nil =>
      rw [accepts_nil_iff]
      constructor
      · exact fun h => .inr ⟨[], .nil, by rwa [List.append_nil]⟩
      · rintro (⟨records, as, rest, heq, -⟩ | ⟨as, has, hfinish⟩)
        · exact absurd heq.symm (by simp)
        · cases has
          rwa [List.append_nil] at hfinish
  | cons content l ih =>
      rw [accepts_cons_iff]
      constructor
      · rintro ⟨next, hline, hrest⟩
        rcases (step_iff_of_inside hnext hinside).1 hline with ⟨rfl, rfl⟩ | ⟨_, hrecord, rfl⟩
        · exact .inl ⟨[], [], l, rfl, .nil, by rwa [List.append_nil]⟩
        · -- the line is the first record, and the rest goes on from there
          obtain ⟨a, ha, rfl⟩ := (hadds done content _).1 hrecord
          rcases (ih (done ++ [a])).1 hrest with
            ⟨records, as, rest, rfl, has, hlast⟩ | ⟨as, has, hlast⟩
          · rw [List.append_assoc] at hlast
            exact .inl ⟨content :: records, a :: as, rest, rfl, .cons ha has, hlast⟩
          · rw [List.append_assoc] at hlast
            exact .inr ⟨a :: as, .cons ha has, hlast⟩
      · have hrecord : ∀ a, Says content a →
            (Scan.mk current (f done)).Step content ⟨current, f (done ++ [a])⟩ := fun a ha =>
          .record ((hadds done content _).2 ⟨a, ha, rfl⟩)
        rintro (⟨records, as, rest, heq, has, hlast⟩ | ⟨as, has, hlast⟩)
        · cases has with
          | nil =>
              obtain ⟨rfl, rfl⟩ := List.cons.inj heq
              rw [List.append_nil] at hlast
              exact ⟨_, .marker marker hnext, hlast⟩
          | @cons first a records as ha has =>
              obtain ⟨rfl, rfl⟩ := List.cons.inj heq
              rw [← List.singleton_append, ← List.append_assoc] at hlast
              exact ⟨_, hrecord a ha,
                (ih (done ++ [a])).2 (.inl ⟨records, as, rest, rfl, has, hlast⟩)⟩
        · cases has with
          | @cons _ a _ as ha has =>
              rw [← List.singleton_append, ← List.append_assoc] at hlast
              exact ⟨_, hrecord a ha, (ih (done ++ [a])).2 (.inr ⟨as, has, hlast⟩)⟩

/-- A section that has to be closed is closed by its marker. -/
theorem accepts_section_iff_of_pending {α : Type} (current : Section) (marker : Marker)
    (f : List α → Netlist) (Says : String → α → Prop)
    (hpending : current.pending? = some marker) (hnext : current.next? = some marker)
    (hinside : current.isOutside = false) (hadds : ∀ done line n, (f done).Adds current line n ↔
      ∃ a, Says line a ∧ n = f (done ++ [a])) :
    (Scan.mk current (f [])).Accepts l n ↔
      ∃ records as rest, l = records ++ marker.text :: rest ∧ List.Forall₂ Says records as ∧
        (Scan.mk (.after marker) (f as)).Accepts rest n := by
  rw [accepts_section_iff current marker f Says hnext hinside hadds]
  refine or_iff_left ?_
  rintro ⟨as, -, hfinish⟩
  rw [finish, hpending] at hfinish
  cases hfinish

/-- **The netlist begins** with the marker of its first section. -/
theorem accepts_header_iff {collected : Netlist} :
    (Scan.mk .header collected).Accepts l n ↔
      ∃ rest, l = "$INPUTS" :: rest ∧ (Scan.mk .inputs collected).Accepts rest n := by
  cases l with
  | nil =>
      rw [accepts_nil_iff]
      constructor
      · intro h
        cases h
      · rintro ⟨rest, heq, -⟩
        cases heq
  | cons content l =>
      rw [accepts_cons_iff]
      constructor
      · rintro ⟨next, hline, hrest⟩
        rcases (step_iff_of_inside rfl rfl).1 hline with ⟨rfl, rfl⟩ | ⟨_, hadds, -⟩
        · exact ⟨l, rfl, hrest⟩
        · cases hadds
      · rintro ⟨rest, heq, hrest⟩
        obtain ⟨rfl, rfl⟩ := List.cons.inj heq
        exact ⟨_, .marker .inputs rfl, hrest⟩

end Scan

/-! ### Texts -/

/-- The lines of a text that count: trimmed, and not blank. -/
def Text.content (s : String) : List String :=
  ((lines s).map trim).filter (· ≠ "")

/-- **To read a text is to accept its lines.** -/
theorem Netlist.parse_eq_ok_iff_accepts {text : String} {n : Netlist} :
    parse text = .ok n ↔ ({} : Scan).Accepts (Text.content text) n := by
  rw [parse]
  constructor
  · intro h
    cases hlines : ({} : Scan).feedLines 1 (Text.lines text) with
    | error e => rw [hlines] at h; cases h
    | ok s =>
        rw [hlines] at h
        exact ⟨s, Scan.feedLines_eq_ok_iff.1 hlines, h⟩
  · rintro ⟨s, hrun, hfinish⟩
    have hlines : ({} : Scan).feedLines 1 (Text.lines text) = .ok s :=
      Scan.feedLines_eq_ok_iff.2 hrun
    rw [hlines]
    exact hfinish

end LogicBlock
