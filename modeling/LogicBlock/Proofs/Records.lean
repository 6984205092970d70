/-
**The records of a written netlist.**

A record is a line with one semicolon in it.  What stands on its two sides, without the blanks at
the ends, is a name and a type in one kind of record, a name and two pins in the other.  The two
pins have one space between them and no other one, but only a space counts here: a tab or a carriage
return may be part of a pin, as long as it does not come to stand at the end of the connection,
where it would be trimmed.

So there is a form that the parts of a model or of a net must have to come out of a record at all,
and records of this form are read back as they were written.

Main definitions:

* `Text.IsField`, `Text.IsEndpoint` — what can be read as a name or a type, and as a pin;
* `Model.Writable`, `Net.Writable` — models and nets made of such parts.

Main results:

* `Model.ofRecord?_eq_some_iff`, `Net.ofRecord?_eq_some_iff` — **what a record says**;
* `Model.writable_of_ofRecord?`, `Net.writable_of_ofRecord?` — nothing else comes out of a record;
* `Model.Writable.ofRecord?_trim_render`, `Net.Writable.ofRecord?_trim_render` — **a written record
  is read back.**
-/

import LogicBlock.Netlist.Scan
import LogicBlock.Proofs.Fields

set_option relaxedAutoImplicit false
set_option autoImplicit false

namespace LogicBlock

/-! ### The parts of a record -/

namespace Text

/-- What can be read as a name or a type: a text without blank ends, and without the characters that
end a field and a line. -/
structure IsField (s : String) : Prop where
  trimmed : trim s = s
  semicolon : ';' ∉ s.toList
  lineFeed : '\n' ∉ s.toList

/-- What can be read as an end of a net: a text that is not empty, without the characters that end a
pin, a field and a line. -/
structure IsEndpoint (s : String) : Prop where
  nonempty : s ≠ ""
  space : ' ' ∉ s.toList
  semicolon : ';' ∉ s.toList
  lineFeed : '\n' ∉ s.toList

instance (s : String) : Decidable (IsField s) :=
  decidable_of_iff (trim s = s ∧ ';' ∉ s.toList ∧ '\n' ∉ s.toList)
    ⟨fun h => ⟨h.1, h.2.1, h.2.2⟩, fun h => ⟨h.trimmed, h.semicolon, h.lineFeed⟩⟩

instance (s : String) : Decidable (IsEndpoint s) :=
  decidable_of_iff (s ≠ "" ∧ ' ' ∉ s.toList ∧ ';' ∉ s.toList ∧ '\n' ∉ s.toList)
    ⟨fun h => ⟨h.1, h.2.1, h.2.2.1, h.2.2.2⟩,
      fun h => ⟨h.nonempty, h.space, h.semicolon, h.lineFeed⟩⟩

instance (cs : List Char) : Decidable (NoBlankStart cs) :=
  decidable_of_iff (trimStart cs = cs) (trimStart_eq_self_iff cs)

instance (cs : List Char) : Decidable (NoBlankEnd cs) :=
  decidable_of_iff (trimEnd cs = cs) (trimEnd_eq_self_iff cs)

namespace IsField

variable {s : String}

theorem trimChars_eq (h : IsField s) : trimChars s.toList = s.toList := by
  rw [← toList_trim, h.trimmed]

theorem noBlankStart (h : IsField s) : NoBlankStart s.toList :=
  ((trimChars_eq_self_iff _).1 h.trimChars_eq).1

theorem noBlankEnd (h : IsField s) : NoBlankEnd s.toList :=
  ((trimChars_eq_self_iff _).1 h.trimChars_eq).2

theorem trimStart_eq (h : IsField s) : trimStart s.toList = s.toList :=
  (trimStart_eq_self_iff _).2 h.noBlankStart

end IsField

/-! ### A line with one semicolon -/

/-- The trimmed fields of a line are fields. -/
theorem isField_of_map_trim_split {s first second : String} (hfeed : '\n' ∉ s.toList)
    (h : (split ';' s).map trim = [first, second]) : IsField first ∧ IsField second := by
  obtain ⟨left, right, hcut, rfl, rfl⟩ := map_trim_split_eq_pair_iff.1 h
  obtain ⟨hs, hleft, hright⟩ := split_eq_pair_iff.1 hcut
  have hpart : ∀ part : String, ';' ∉ part.toList → '\n' ∉ part.toList → IsField (trim part) := by
    intro part hsemicolon hfeed
    refine ⟨trim_trim part, fun h => hsemicolon ?_, fun h => hfeed ?_⟩
    · exact mem_of_mem_trimChars (toList_trim part ▸ h)
    · exact mem_of_mem_trimChars (toList_trim part ▸ h)
  rw [hs, List.mem_append, List.mem_cons, not_or, not_or] at hfeed
  exact ⟨hpart left hleft hfeed.1, hpart right hright hfeed.2.2⟩

section Line

variable {name content : String}

theorem toList_line (name content : String) :
    (name ++ "; " ++ content).toList = name.toList ++ ';' :: ' ' :: content.toList := by
  simp

/-- **The name and the content of a line are read back**, also after the line has been trimmed. -/
theorem map_trim_split_trim_line (hname : IsField name) (hcontent : ';' ∉ content.toList) :
    (split ';' (trim (name ++ "; " ++ content))).map trim = [name, trim content] := by
  -- trimming the line does nothing to the name, and to the content what it does anyway
  have htrim : (trim (name ++ "; " ++ content)).toList =
      name.toList ++ ';' :: trimEnd (' ' :: content.toList) := by
    rw [toList_trim, toList_line, trimChars_append_cons (by decide), hname.trimStart_eq]
  have hright : ';' ∉ trimEnd (' ' :: content.toList) := by
    intro hmem
    rcases List.mem_cons.1 (mem_of_mem_trimEnd hmem) with heq | hmem
    · exact absurd heq (by decide)
    · exact hcontent hmem
  refine map_trim_split_eq_pair_iff.2 ⟨name, String.ofList (trimEnd (' ' :: content.toList)),
    split_eq_pair_iff.2 ⟨?_, hname.semicolon, ?_⟩, hname.trimmed.symm, ?_⟩
  · rw [htrim, String.toList_ofList]
  · rwa [String.toList_ofList]
  · refine String.toList_inj.1 ?_
    rw [toList_trim, toList_trim, String.toList_ofList, trimChars_trimEnd,
      trimChars_cons_of_isBlank (by decide)]

theorem lineFeed_notMem_line (hname : IsField name) (hcontent : '\n' ∉ content.toList) :
    '\n' ∉ (name ++ "; " ++ content).toList := by
  rw [toList_line]
  simp [hname.lineFeed, hcontent]

/-- The line does not end in a carriage return, not even if it has no content. -/
theorem getLast?_line_ne (hcontent : NoBlankEnd content.toList) :
    (name ++ "; " ++ content).toList.getLast? ≠ some '\r' := by
  rw [toList_line, List.getLast?_append]
  cases hlast : content.toList.getLast? with
  | none =>
      rw [List.getLast?_eq_none_iff.1 hlast]
      change some ' ' ≠ some '\r'
      decide
  | some c =>
      have hc : isBlank c = false := hcontent c hlast
      rw [List.getLast?_cons_cons, List.getLast?_cons, hlast]
      rintro ⟨⟩
      exact absurd hc (by decide)

end Line

end Text

/-! ### Models -/

/-- A model that can be read from a record. -/
structure Model.Writable (m : Model) : Prop where
  name : Text.IsField m.name
  type : Text.IsField m.type

namespace Model

instance (m : Model) : Decidable m.Writable :=
  decidable_of_iff (Text.IsField m.name ∧ Text.IsField m.type)
    ⟨fun h => ⟨h.1, h.2⟩, fun h => ⟨h.name, h.type⟩⟩

/-- **What a model record says**: it has two fields, and these are the name and the type. -/
theorem ofRecord?_eq_some_iff {record : String} {m : Model} :
    ofRecord? record = some m ↔ (Text.split ';' record).map Text.trim = [m.name, m.type] := by
  rw [ofRecord?]
  constructor
  · intro h
    split at h
    · rename_i hfields
      cases h
      exact hfields
    · cases h
  · intro h
    rw [h]

/-- Nothing but a writable model comes out of a record. -/
theorem writable_of_ofRecord? {record : String} {m : Model} (hfeed : '\n' ∉ record.toList)
    (h : ofRecord? record = some m) : m.Writable := by
  obtain ⟨hname, htype⟩ := Text.isField_of_map_trim_split hfeed (ofRecord?_eq_some_iff.1 h)
  exact ⟨hname, htype⟩

/-- **A written model is read back.** -/
theorem Writable.ofRecord?_trim_render {m : Model} (h : m.Writable) :
    ofRecord? (Text.trim m.render) = some m := by
  rw [ofRecord?_eq_some_iff, render, Text.map_trim_split_trim_line h.name h.type.semicolon,
    h.type.trimmed]

end Model

/-! ### Nets -/

/-- A net that can be read from a record.  The blanks that are not spaces may be anywhere in its
pins but at the two ends of the connection. -/
structure Net.Writable (n : Net) : Prop where
  name : Text.IsField n.name
  source : Text.IsEndpoint n.source
  destination : Text.IsEndpoint n.destination
  start : Text.NoBlankStart n.source.toList
  finish : Text.NoBlankEnd n.destination.toList

namespace Net

instance (n : Net) : Decidable n.Writable :=
  decidable_of_iff (Text.IsField n.name ∧ Text.IsEndpoint n.source ∧
      Text.IsEndpoint n.destination ∧ Text.NoBlankStart n.source.toList ∧
      Text.NoBlankEnd n.destination.toList)
    ⟨fun h => ⟨h.1, h.2.1, h.2.2.1, h.2.2.2.1, h.2.2.2.2⟩,
      fun h => ⟨h.name, h.source, h.destination, h.start, h.finish⟩⟩

/-- **What a net record says**: it has two fields; the first is the name, and in the second the two
pins stand on the two sides of the only space. -/
theorem ofRecord?_eq_some_iff {record : String} {n : Net} :
    ofRecord? record = some n ↔
      ∃ connection, (Text.split ';' record).map Text.trim = [n.name, connection] ∧
        Text.split ' ' connection = [n.source, n.destination] ∧
        n.source ≠ "" ∧ n.destination ≠ "" := by
  rw [ofRecord?]
  constructor
  · intro h
    split at h
    · rename_i name connection hfields
      split at h
      · rename_i source destination hpins
        split at h
        · cases h
        · rename_i hempty
          cases h
          rw [Bool.or_eq_true, not_or, String.isEmpty_iff, String.isEmpty_iff] at hempty
          exact ⟨connection, hfields, hpins, hempty⟩
      · cases h
    · cases h
  · rintro ⟨connection, hfields, hpins, hsource, hdestination⟩
    have hempty : ¬(n.source.isEmpty || n.destination.isEmpty) = true := by
      rw [Bool.or_eq_true, not_or, String.isEmpty_iff, String.isEmpty_iff]
      exact ⟨hsource, hdestination⟩
    simp only [hfields, hpins, if_neg hempty]

/-- Nothing but a writable net comes out of a record. -/
theorem writable_of_ofRecord? {record : String} {n : Net} (hfeed : '\n' ∉ record.toList)
    (h : ofRecord? record = some n) : n.Writable := by
  obtain ⟨connection, hfields, hpins, hsource, hdestination⟩ := ofRecord?_eq_some_iff.1 h
  obtain ⟨hname, hconnection⟩ := Text.isField_of_map_trim_split hfeed hfields
  obtain ⟨hcut, hspace, hspace'⟩ := Text.split_eq_pair_iff.1 hpins
  have hsemicolon := hconnection.semicolon
  have hlinefeed := hconnection.lineFeed
  rw [hcut, List.mem_append, List.mem_cons, not_or, not_or] at hsemicolon hlinefeed
  refine ⟨hname, ⟨hsource, hspace, hsemicolon.1, hlinefeed.1⟩,
    ⟨hdestination, hspace', hsemicolon.2.2, hlinefeed.2.2⟩, fun c hc => ?_, fun c hc => ?_⟩
  · -- the connection starts where its source starts
    refine hconnection.noBlankStart c ?_
    rw [hcut, List.head?_append, hc]
    rfl
  · refine hconnection.noBlankEnd c ?_
    rw [hcut, List.getLast?_append, List.getLast?_cons, hc]
    rfl

theorem render_eq_line (n : Net) :
    n.render = n.name ++ "; " ++ (n.source ++ " " ++ n.destination) := by
  simp only [render, String.append_assoc]

namespace Writable

variable {n : Net}

theorem toList_connection (n : Net) :
    (n.source ++ " " ++ n.destination).toList = n.source.toList ++ ' ' :: n.destination.toList := by
  simp

/-- The connection of a writable net begins and ends with a pin, so it has no blank ends. -/
theorem isField_connection (h : n.Writable) : Text.IsField (n.source ++ " " ++ n.destination) where
  trimmed := by
    refine String.toList_inj.1 ?_
    rw [Text.toList_trim, Text.trimChars_eq_self_iff, toList_connection]
    refine ⟨fun c hc => h.start c ?_, fun c hc => h.finish c ?_⟩
    · have hne : n.source.toList ≠ [] := fun hnil => h.source.nonempty (by simpa using hnil)
      rw [List.head?_append, List.head?_eq_some_head hne, Option.some_or] at hc
      rw [List.head?_eq_some_head hne, hc]
    · have hne : n.destination.toList ≠ [] :=
        fun hnil => h.destination.nonempty (by simpa using hnil)
      rw [List.getLast?_append, List.getLast?_cons_of_ne_nil hne,
        List.getLast?_eq_some_getLast hne, Option.some_or] at hc
      rw [List.getLast?_eq_some_getLast hne, hc]
  semicolon := by
    rw [toList_connection]
    simp [h.source.semicolon, h.destination.semicolon]
  lineFeed := by
    rw [toList_connection]
    simp [h.source.lineFeed, h.destination.lineFeed]

/-- **A written net is read back.** -/
theorem ofRecord?_trim_render (h : n.Writable) : ofRecord? (Text.trim n.render) = some n := by
  have hconnection := h.isField_connection
  refine ofRecord?_eq_some_iff.2 ⟨n.source ++ " " ++ n.destination, ?_, ?_, h.source.nonempty,
    h.destination.nonempty⟩
  · rw [render_eq_line, Text.map_trim_split_trim_line h.name hconnection.semicolon,
      hconnection.trimmed]
  · exact Text.split_eq_pair_iff.2
      ⟨toList_connection n, h.source.space, h.destination.space⟩

end Writable

end Net

end LogicBlock
