/-
**The grammar of netlist texts.**

A text is a netlist if its lines, trimmed and without the blank ones, have a certain form: somewhere
comes the line that starts the netlist, then the sections follow one another, each under its marker,
and after the last one the text is over or a line closes the netlist.  What stands before the start
and behind the end may be anything.  Inside, every line is a record of its section, and no more is
asked of a record than that it is the name of a direction, or has its separators in the right
number.

This form does not mention a scan.  Nor does what the records say: they are cut at their separators
and trimmed, and that they are cut into the right number of pieces comes down to counting.

Main definitions:

* `Model.ofLine`, `Net.ofLine` — what a line says, if it is a record;
* `Frame`, `Frame.lines`, `Frame.WellFormed` — the form of a netlist text;
* `Frame.Describes` — the netlist of a frame.

Main results:

* `Text.split_eq_pair_iff_count`, `Model.ofRecord?_eq_some_iff_count`,
  `Net.ofRecord?_eq_some_iff_count` — **a record is a line with the right number of separators**;
* `Frame.Describes.unique`, `Frame.WellFormed.exists_describes` — a well-formed frame describes one
  netlist;
* `Scan.accepts_iff_frame` — a scan accepts the lines of frames;
* `Netlist.parse_reads_frames` — **a text is read exactly if it is framed**, and as what its frame
  describes.
-/

import LogicBlock.Proofs.Sections
import Mathlib.Data.Set.List

set_option relaxedAutoImplicit false
set_option autoImplicit false

namespace LogicBlock

/-! ### Two fields -/

namespace Text

/-- What stands before the first separator. -/
def before (separator : Char) (s : String) : String :=
  .ofList (s.toList.takeWhile (· ≠ separator))

/-- What stands behind the first separator. -/
def behind (separator : Char) (s : String) : String :=
  .ofList (s.toList.dropWhile (· ≠ separator)).tail

theorem cut_append_cons {separator : Char} {cs : List Char} (h : separator ∉ cs)
    (cs' : List Char) :
    (cs ++ separator :: cs').takeWhile (· ≠ separator) = cs ∧
      (cs ++ separator :: cs').dropWhile (· ≠ separator) = separator :: cs' := by
  have hne : ∀ c ∈ cs, decide (c ≠ separator) = true := by
    intro c hc
    exact decide_eq_true fun heq => h (heq ▸ hc)
  rw [List.takeWhile_append_of_pos hne, List.dropWhile_append_of_pos hne]
  simp

/-- **A text has two fields if it has one separator**: what stands before it and what stands behind
it. -/
theorem split_eq_pair_iff_count {separator : Char} {s first second : String} :
    split separator s = [first, second] ↔
      s.toList.count separator = 1 ∧ first = before separator s ∧ second = behind separator s := by
  rw [split_eq_pair_iff]
  constructor
  · rintro ⟨hs, hfirst, hsecond⟩
    obtain ⟨hbefore, hbehind⟩ := cut_append_cons hfirst second.toList
    rw [before, behind, hs, hbefore, hbehind]
    simp [List.count_eq_zero.2 hfirst, List.count_eq_zero.2 hsecond]
  · rintro ⟨hcount, rfl, rfl⟩
    have hmem : separator ∈ s.toList := List.count_pos_iff.1 (by omega)
    obtain ⟨cs, cs', hs, hcs⟩ := List.eq_append_cons_of_mem hmem
    obtain ⟨hbefore, hbehind⟩ := cut_append_cons hcs cs'
    have hcs' : separator ∉ cs' := by
      rw [hs, List.count_append, List.count_cons_self] at hcount
      exact List.count_eq_zero.1 (by omega)
    rw [before, behind, hs, hbefore, hbehind]
    simp [hcs, hcs']

end Text

/-- The model that a line with one semicolon describes. -/
def Model.ofLine (line : String) : Model :=
  ⟨Text.trim (Text.before ';' line), Text.trim (Text.behind ';' line)⟩

/-- The text behind the semicolon of a line, without blank ends. -/
def Net.connection (line : String) : String :=
  Text.trim (Text.behind ';' line)

/-- The net that a line with one semicolon, and one space in its connection, describes. -/
def Net.ofLine (line : String) : Net :=
  ⟨Text.trim (Text.before ';' line), Text.before ' ' (Net.connection line),
    Text.behind ' ' (Net.connection line)⟩

/-- **A model record is a line with one semicolon.** -/
theorem Model.ofRecord?_eq_some_iff_count {line : String} {m : Model} :
    ofRecord? line = some m ↔ line.toList.count ';' = 1 ∧ m = ofLine line := by
  rw [ofRecord?_eq_some_iff, Text.map_trim_split_eq_pair_iff]
  constructor
  · rintro ⟨left, right, hsplit, hname, htype⟩
    obtain ⟨hcount, rfl, rfl⟩ := Text.split_eq_pair_iff_count.1 hsplit
    exact ⟨hcount, by rw [ofLine, ← hname, ← htype]⟩
  · rintro ⟨hcount, rfl⟩
    exact ⟨_, _, Text.split_eq_pair_iff_count.2 ⟨hcount, rfl, rfl⟩, rfl, rfl⟩

/-- The two fields around a space are not empty, if the text has no blank ends. -/
theorem Text.ne_empty_of_split_trim {s first second : String}
    (h : split ' ' (trim s) = [first, second]) : first ≠ "" ∧ second ≠ "" := by
  obtain ⟨hs, -, -⟩ := split_eq_pair_iff.1 h
  rw [toList_trim] at hs
  obtain ⟨hstart, hend⟩ := (trimChars_eq_self_iff _).1 (trimChars_trimChars s.toList)
  rw [hs] at hstart hend
  constructor
  · rintro rfl
    exact absurd (hstart ' ' rfl) (by decide)
  · rintro rfl
    exact absurd (hend ' ' (by simp)) (by decide)

/-- **A net record is a line with one semicolon, and one space in its connection.** -/
theorem Net.ofRecord?_eq_some_iff_count {line : String} {n : Net} :
    ofRecord? line = some n ↔ line.toList.count ';' = 1 ∧
      (connection line).toList.count ' ' = 1 ∧ n = ofLine line := by
  rw [ofRecord?_eq_some_iff]
  constructor
  · rintro ⟨field, hfields, hpins, -, -⟩
    obtain ⟨left, right, hsplit, hname, rfl⟩ := Text.map_trim_split_eq_pair_iff.1 hfields
    obtain ⟨hcount, rfl, rfl⟩ := Text.split_eq_pair_iff_count.1 hsplit
    obtain ⟨hspace, hsource, hdestination⟩ := Text.split_eq_pair_iff_count.1 hpins
    exact ⟨hcount, hspace, by rw [ofLine, connection, ← hname, ← hsource, ← hdestination]⟩
  · rintro ⟨hcount, hspace, rfl⟩
    have hsplit := Text.split_eq_pair_iff_count.2 ⟨hcount, rfl, rfl⟩
    have hpins := Text.split_eq_pair_iff_count.2 ⟨hspace, rfl, rfl⟩
    exact ⟨connection line, Text.map_trim_split_eq_pair_iff.2 ⟨_, _, hsplit, rfl, rfl⟩, hpins,
      Text.ne_empty_of_split_trim hpins⟩

/-! ### Frames -/

/-- The lines of a netlist text, cut at the markers. -/
structure Frame where
  before : List String
  inputs : List String
  outputs : List String
  models : List String
  nets : List String
  rest : List String

namespace Frame

/-- The lines with their markers. -/
def lines (f : Frame) : List String :=
  f.before ++ "NETLIST" :: "$INPUTS" :: (f.inputs ++ "$OUTPUTS" :: (f.outputs ++
    "$MODELS" :: (f.models ++ "$NETS" :: (f.nets ++ f.rest))))

/-- **What is asked of the lines**: that the netlist starts at the first line that can start it,
that its records are directions or have the separators of a model and of a net, and that it is ended
by its marker if it is followed by anything. -/
structure WellFormed (f : Frame) : Prop where
  before : "NETLIST" ∉ f.before
  inputs : ∀ line ∈ f.inputs, ∃ d : Direction, line = d.name
  outputs : ∀ line ∈ f.outputs, ∃ d : Direction, line = d.name
  models : ∀ line ∈ f.models, line.toList.count ';' = 1
  nets : ∀ line ∈ f.nets, line.toList.count ';' = 1 ∧ (Net.connection line).toList.count ' ' = 1
  rest : ∀ line ∈ f.rest.head?, line = "$END"

/-- The netlist has the records of the frame, one for each line, in their order. -/
structure Describes (f : Frame) (n : Netlist) : Prop where
  inputs : f.inputs = n.inputs.map Direction.name
  outputs : f.outputs = n.outputs.map Direction.name
  models : n.models = f.models.map Model.ofLine
  nets : n.nets = f.nets.map Net.ofLine

variable {f : Frame} {n n' : Netlist}

/-- A frame describes one netlist at most. -/
theorem Describes.unique (h : f.Describes n) (h' : f.Describes n') : n = n' := by
  obtain ⟨inputs, outputs, models, nets⟩ := n
  obtain ⟨inputs', outputs', models', nets'⟩ := n'
  have hname : Function.Injective Direction.name := fun _ _ => Direction.name_injective
  obtain rfl : inputs = inputs' := List.map_injective_iff.2 hname (h.inputs.symm.trans h'.inputs)
  obtain rfl : outputs = outputs' :=
    List.map_injective_iff.2 hname (h.outputs.symm.trans h'.outputs)
  obtain rfl : models = models' := h.models.trans h'.models.symm
  obtain rfl : nets = nets' := h.nets.trans h'.nets.symm
  rfl

/-- A well-formed frame describes a netlist. -/
theorem WellFormed.exists_describes (h : f.WellFormed) : ∃ n, f.Describes n := by
  have hports : ∀ l : List String, (∀ line ∈ l, ∃ d : Direction, line = d.name) →
      ∃ ds : List Direction, l = ds.map Direction.name := by
    intro l hl
    have hrange : l ∈ Set.range (List.map Direction.name) := by
      rw [Set.range_list_map]
      exact fun line hline => (hl line hline).imp fun _ => Eq.symm
    obtain ⟨ds, hds⟩ := hrange
    exact ⟨ds, hds.symm⟩
  obtain ⟨inputs, hinputs⟩ := hports f.inputs h.inputs
  obtain ⟨outputs, houtputs⟩ := hports f.outputs h.outputs
  exact ⟨⟨inputs, outputs, f.models.map Model.ofLine, f.nets.map Net.ofLine⟩, hinputs, houtputs,
    rfl, rfl⟩

end Frame

/-! ### Texts -/

/-- Lines that are the names of directions, one by one, are so together. -/
theorem Direction.forall₂_name_iff {l : List String} {ds : List Direction} :
    List.Forall₂ (fun line (d : Direction) => line = d.name) l ds ↔ l = ds.map Direction.name := by
  have hmap : List.Forall₂ Eq l (ds.map Direction.name) ↔
      List.Forall₂ (fun line (d : Direction) => line = d.name) l ds := List.forall₂_map_right_iff
  rw [← hmap, List.forall₂_eq_eq_eq]

/-- What is decoded line by line, on a condition, is decoded on this condition for all lines. -/
theorem forall₂_decode_iff {α : Type} {P : String → Prop} {decode : String → α} {l : List String}
    {as : List α} :
    List.Forall₂ (fun line a => P line ∧ a = decode line) l as ↔
      (∀ line ∈ l, P line) ∧ as = l.map decode := by
  rw [List.forall₂_and_left]
  refine and_congr_right fun _ => ?_
  have hmap : List.Forall₂ Eq as (l.map decode) ↔ as = l.map decode := by
    rw [List.forall₂_eq_eq_eq]
  rw [← hmap, List.forall₂_map_right_iff]
  exact ⟨List.Forall₂.flip, List.Forall₂.flip⟩

namespace Scan

variable {l : List String} {n : Netlist} {inputs outputs : List Direction} {models : List Model}

theorem accepts_inputs_iff :
    (Scan.mk .inputs {}).Accepts l n ↔
      ∃ records inputs rest, l = records ++ "$OUTPUTS" :: rest ∧
        records = inputs.map Direction.name ∧ (Scan.mk .outputs { inputs }).Accepts rest n := by
  simp only [← Direction.forall₂_name_iff]
  exact accepts_section_iff_of_pending .inputs .outputs (fun inputs => { inputs })
    (fun line (d : Direction) => line = d.name) rfl rfl rfl fun _ _ _ => Iff.rfl

theorem accepts_outputs_iff :
    (Scan.mk .outputs { inputs }).Accepts l n ↔
      ∃ records outputs rest, l = records ++ "$MODELS" :: rest ∧
        records = outputs.map Direction.name ∧
        (Scan.mk .models { inputs, outputs }).Accepts rest n := by
  simp only [← Direction.forall₂_name_iff]
  exact accepts_section_iff_of_pending .outputs .models (fun outputs => { inputs, outputs })
    (fun line (d : Direction) => line = d.name) rfl rfl rfl fun _ _ _ => Iff.rfl

theorem accepts_models_iff :
    (Scan.mk .models { inputs, outputs }).Accepts l n ↔
      ∃ records models rest, l = records ++ "$NETS" :: rest ∧
        ((∀ line ∈ records, line.toList.count ';' = 1) ∧ models = records.map Model.ofLine) ∧
        (Scan.mk .nets { inputs, outputs, models }).Accepts rest n := by
  simp only [← forall₂_decode_iff]
  exact accepts_section_iff_of_pending .models .nets (fun models => { inputs, outputs, models })
    (fun line m => line.toList.count ';' = 1 ∧ m = Model.ofLine line) rfl rfl rfl
    fun _ _ _ => exists_congr fun _ => and_congr_left' Model.ofRecord?_eq_some_iff_count

/-- The last section is closed by the end marker, or by the end of the text. -/
theorem accepts_nets_iff :
    (Scan.mk .nets { inputs, outputs, models }).Accepts l n ↔
      ∃ records nets rest, l = records ++ rest ∧ (∀ line ∈ rest.head?, line = "$END") ∧
        (∀ line ∈ records, line.toList.count ';' = 1 ∧
          (Net.connection line).toList.count ' ' = 1) ∧
        nets = records.map Net.ofLine ∧ n = { inputs, outputs, models, nets } := by
  refine (accepts_section_iff .nets .finish (fun nets => { inputs, outputs, models, nets })
    (fun line net => (line.toList.count ';' = 1 ∧ (Net.connection line).toList.count ' ' = 1) ∧
      net = Net.ofLine line) rfl rfl
    (fun _ _ _ => exists_congr fun _ => and_congr_left'
      (Net.ofRecord?_eq_some_iff_count.trans and_assoc.symm)) []).trans ?_
  simp only [forall₂_decode_iff]
  constructor
  · rintro (⟨records, nets, rest, rfl, ⟨hrecords, hnets⟩, hlast⟩ | ⟨nets, ⟨hrecords, hnets⟩, hlast⟩)
    · refine ⟨records, nets, "$END" :: rest, rfl, fun line hline => ?_, hrecords, hnets,
        accepts_ended_iff.1 hlast⟩
      exact (Option.mem_some_iff.1 hline).symm
    · exact ⟨l, nets, [], (List.append_nil l).symm, by simp, hrecords, hnets,
        (Except.ok.inj hlast).symm⟩
  · rintro ⟨records, nets, rest, rfl, hrest, hrecords, hnets, rfl⟩
    cases rest with
    | nil =>
        rw [List.append_nil]
        exact .inr ⟨nets, ⟨hrecords, hnets⟩, rfl⟩
    | cons line rest =>
        obtain rfl : line = "$END" := hrest line rfl
        exact .inl ⟨records, nets, rest, rfl, ⟨hrecords, hnets⟩, accepts_ended_iff.2 rfl⟩

/-- **A scan accepts the lines of frames**, and reads the netlists that they describe. -/
theorem accepts_iff_frame :
    ({} : Scan).Accepts l n ↔ ∃ f : Frame, l = f.lines ∧ f.WellFormed ∧ f.Describes n := by
  constructor
  · intro h
    obtain ⟨before, _, rfl, hbefore, hheader⟩ := accepts_beforeStart_iff.1 h
    obtain ⟨_, rfl, hinputs⟩ := accepts_header_iff.1 hheader
    obtain ⟨_, inputs, _, rfl, rfl, houtputs⟩ := accepts_inputs_iff.1 hinputs
    obtain ⟨_, outputs, _, rfl, rfl, hmodels⟩ := accepts_outputs_iff.1 houtputs
    obtain ⟨models, _, _, rfl, ⟨hsemicolon, rfl⟩, hnets⟩ := accepts_models_iff.1 hmodels
    obtain ⟨nets, _, rest, rfl, hrest, hpins, rfl, rfl⟩ := accepts_nets_iff.1 hnets
    have hname : ∀ ds : List Direction, ∀ line ∈ ds.map Direction.name,
        ∃ d : Direction, line = d.name := fun ds line hline =>
      (List.mem_map.1 hline).imp fun _ hd => hd.2.symm
    exact ⟨⟨before, inputs.map Direction.name, outputs.map Direction.name, models, nets, rest⟩, rfl,
      ⟨hbefore, hname inputs, hname outputs, hsemicolon, hpins, hrest⟩, ⟨rfl, rfl, rfl, rfl⟩⟩
  · rintro ⟨f, rfl, hf, hn⟩
    refine accepts_beforeStart_iff.2 ⟨f.before, _, rfl, hf.before, ?_⟩
    refine accepts_header_iff.2 ⟨_, rfl, ?_⟩
    refine accepts_inputs_iff.2 ⟨f.inputs, n.inputs, _, rfl, hn.inputs, ?_⟩
    refine accepts_outputs_iff.2 ⟨f.outputs, n.outputs, _, rfl, hn.outputs, ?_⟩
    refine accepts_models_iff.2 ⟨f.models, n.models, _, rfl, ⟨hf.models, hn.models⟩, ?_⟩
    exact accepts_nets_iff.2 ⟨f.nets, n.nets, f.rest, rfl, hf.rest, hf.nets, hn.nets, rfl⟩

end Scan

namespace Netlist

/-- **A text is read exactly if it is framed**: if its lines, trimmed and without the blank ones,
are the lines of a well-formed frame.  And then, however they are cut into one, it is read as the
netlist that the frame describes, with one record for each line in their order. -/
theorem parse_reads_frames (text : String) :
    ((∃ n, parse text = .ok n) ↔ ∃ f : Frame, Text.content text = f.lines ∧ f.WellFormed) ∧
      ∀ f : Frame, Text.content text = f.lines → f.WellFormed →
        ∀ n, parse text = .ok n ↔ f.Describes n := by
  have hframe : ∀ n, parse text = .ok n ↔
      ∃ f : Frame, Text.content text = f.lines ∧ f.WellFormed ∧ f.Describes n := fun n =>
    parse_eq_ok_iff_accepts.trans Scan.accepts_iff_frame
  have hread : ∀ f : Frame, Text.content text = f.lines → f.WellFormed →
      ∀ n, f.Describes n → parse text = .ok n := fun f hlines hf n hn =>
    (hframe n).2 ⟨f, hlines, hf, hn⟩
  refine ⟨⟨?_, ?_⟩, fun f hlines hf n => ⟨fun h => ?_, hread f hlines hf n⟩⟩
  · rintro ⟨n, h⟩
    obtain ⟨f, hlines, hf, -⟩ := (hframe n).1 h
    exact ⟨f, hlines, hf⟩
  · rintro ⟨f, hlines, hf⟩
    obtain ⟨n, hn⟩ := hf.exists_describes
    exact ⟨n, hread f hlines hf n hn⟩
  · -- the frame describes some netlist, which the text is read as
    obtain ⟨n', hn'⟩ := hf.exists_describes
    have heq := hread f hlines hf n' hn'
    rw [h] at heq
    rw [Except.ok.inj heq]
    exact hn'

namespace Noisy

/-- A text with noise around the netlist, blank lines, and blanks of several kinds at the ends of
lines and of fields. -/
def text : String :=
  "$END\n\tNETLIST\r\n$INPUTS\n \nUP\n$OUTPUTS\n$MODELS\nA;AND\n$NETS\nN; UP A.0 \n\n$END\nNETLIST"

/-- Its lines, cut at the markers. -/
def frame : Frame where
  before := ["$END"]
  inputs := ["UP"]
  outputs := []
  models := ["A;AND"]
  nets := ["N; UP A.0"]
  rest := ["$END", "NETLIST"]

end Noisy

/-- The noise does not count, and the records are read. -/
theorem noisy_text_is_read :
    Text.content Noisy.text = Noisy.frame.lines ∧ Noisy.frame.WellFormed ∧
      parse Noisy.text =
        .ok { inputs := [.up], models := [⟨"A", "AND"⟩], nets := [⟨"N", "UP", "A.0"⟩] } :=
  have hlines : Text.content Noisy.text = Noisy.frame.lines := by decide +kernel
  have hframe : Noisy.frame.WellFormed :=
    { before := by decide +kernel
      inputs := fun line hline => ⟨.up, List.mem_singleton.1 hline⟩
      outputs := fun line hline => absurd hline List.not_mem_nil
      models := by decide +kernel
      nets := by decide +kernel
      rest := by decide +kernel }
  ⟨hlines, hframe, ((parse_reads_frames Noisy.text).2 Noisy.frame hlines hframe _).2
    ⟨by decide +kernel, by decide +kernel, by decide +kernel, by decide +kernel⟩⟩

end Netlist

end LogicBlock
