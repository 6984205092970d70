/-
**The JSON forms of benches and netlists.**

A pair of a writing and a reading function is faithful if every value that fits is read back as it
was written, and if nothing else is ever read.  Being faithful passes from items to lists and to
maps.  For a record it follows from what is read of each field.  The same argument tells which other
JSON values are read as the record: objects with further members, in any order, and arrays.

The only values that do not fit are those with a number of passes that no machine word holds.

Main definitions:

* `Json.Faithful` — a pair of functions that are inverse to each other on the values that fit;
* `Json.Shows` — a JSON value shows the members of a record, apart from some that have defaults.

Main results:

* `Json.Faithful.list`, `Json.Faithful.nameMap` — lists and maps of faithful items are faithful;
* `Json.Shows.exists_fields` — what is found of the fields of a record that is shown;
* `Bench.json_forms_are_faithful` — **benches and netlists survive their JSON form**.
-/

import LogicBlock.Json.Bench
import LogicBlock.NameMap.Lemmas
import Mathlib.Data.List.Forall2

set_option relaxedAutoImplicit false
set_option autoImplicit false

namespace LogicBlock

namespace Json

variable {α : Type}

/-! ### Reading back -/

/-- The values that fit are read back as they were written, and nothing else is ever read. -/
structure Faithful (write : α → Json) (read? : Json → Option α) (Fits : α → Prop) : Prop where
  read_write : ∀ a, Fits a → read? (write a) = some a
  fits : ∀ j a, read? j = some a → Fits a

/-- A list of values is read if every one of them is. -/
theorem mapM_eq_some_iff {β γ : Type} {f : β → Option γ} {l : List β} {l' : List γ} :
    l.mapM f = some l' ↔ List.Forall₂ (fun b c => f b = some c) l l' := by
  induction l generalizing l' with
  | nil =>
      rw [List.mapM_nil, List.forall₂_nil_left_iff]
      exact Option.some_inj.trans eq_comm
  | cons b rest ih =>
      simp only [List.mapM_cons, List.forall₂_cons_left_iff, Option.bind_eq_bind,
        Option.bind_eq_some_iff, Option.pure_def, Option.some_inj, ih]
      constructor
      · rintro ⟨c, hc, rest', hrest, rfl⟩
        exact ⟨c, rest', hc, hrest, rfl⟩
      · rintro ⟨c, rest', hc, hrest, rfl⟩
        exact ⟨c, hc, rest', hrest, rfl⟩

/-- What holds of everything that is read holds of every item of a list that is read. -/
theorem forall_of_mapM_eq_some {β γ : Type} {f : β → Option γ} {P : γ → Prop}
    (hf : ∀ b c, f b = some c → P c) {l : List β} {l' : List γ} (h : l.mapM f = some l') :
    ∀ c ∈ l', P c := by
  have hlist := mapM_eq_some_iff.1 h
  clear h
  induction hlist with
  | nil => exact fun c hc => absurd hc List.not_mem_nil
  | cons hhead _ ih => exact List.forall_mem_cons.2 ⟨hf _ _ hhead, ih⟩

theorem members?_ofMembers (members : List (String × Json)) :
    (ofMembers members).members? = some members := by
  rw [ofMembers, members?, mapM_eq_some_iff, List.forall₂_map_left_iff, List.forall₂_same]
  exact fun m _ => rfl

theorem faithful_text : Faithful ofText text? fun _ => True :=
  ⟨fun _ _ => rfl, fun _ _ _ => trivial⟩

theorem faithful_count : Faithful natural count? (· < countBound) where
  read_write n hn := if_pos hn
  fits j n h := by
    cases j with
    | natural k =>
        rw [count?] at h
        split at h
        · rename_i hk
          cases h
          exact hk
        · cases h
    | _ => cases h

namespace Faithful

variable {write : α → Json} {read? : Json → Option α} {Fits : α → Prop}

/-- **What has been read survives being written**, whatever it has been read from. -/
theorem read_again (h : Faithful write read? Fits) {j : Json} {a : α} (hj : read? j = some a) :
    read? (write a) = some a :=
  h.read_write a (h.fits j a hj)

theorem write_inj (h : Faithful write read? Fits) {a b : α} (ha : Fits a) (hb : Fits b)
    (heq : write a = write b) : a = b := by
  have hread := h.read_write a ha
  rw [heq, h.read_write b hb] at hread
  exact (Option.some.inj hread).symm

theorem list (h : Faithful write read? Fits) :
    Faithful (ofList write) (list? read?) fun l => ∀ a ∈ l, Fits a where
  read_write l hl := by
    rw [ofList, list?, mapM_eq_some_iff, List.forall₂_map_left_iff, List.forall₂_same]
    exact fun a ha => h.read_write a (hl a ha)
  fits j l hj := by
    cases j with
    | array items => exact forall_of_mapM_eq_some h.fits hj
    | _ => cases hj

theorem nameMap (h : Faithful write read? Fits) :
    Faithful (ofNameMap write) (nameMap? read?) fun m => ∀ e ∈ m.entries, Fits e.2 where
  read_write m hm := by
    have hentries : (m.entries.map fun e => (e.1, write e.2)).mapM
        (fun m => (read? m.2).map fun v => (m.1, v)) = some m.entries := by
      rw [mapM_eq_some_iff, List.forall₂_map_left_iff, List.forall₂_same]
      intro e he
      rw [h.read_write e.2 (hm e he)]
      rfl
    rw [nameMap?, ofNameMap, members?_ofMembers]
    simp only [Option.bind_eq_bind, Option.bind_some, hentries, m.ofList_entries, Option.pure_def]
  fits j m hj := by
    simp only [nameMap?, Option.bind_eq_bind, Option.bind_eq_some_iff, Option.pure_def,
      Option.some_inj] at hj
    obtain ⟨members, -, entries, hentries, rfl⟩ := hj
    intro e he
    refine forall_of_mapM_eq_some (P := fun e : String × α => Fits e.2) (fun m e hread => ?_)
      hentries e (NameMap.mem_of_mem_entries_ofList he)
    obtain ⟨v, hv, rfl⟩ := Option.map_eq_some_iff.1 hread
    exact h.fits m.2 v hv

end Faithful

/-! ### Records -/

/-- A JSON value shows the members of a record.  In an object each of them is the only member with
its key, or there is none with its key and it may be missing; there may be other members.  An array
shows the values in their order, and those at the end may be missing. -/
inductive Shows (members defaults : List (String × Json)) : Json → Prop
  | object {shown : List (String × Json)} (h : ∀ m ∈ members, shown.filter (·.1 = m.1) = [m] ∨
      shown.filter (·.1 = m.1) = [] ∧ m ∈ defaults) : Shows members defaults (ofMembers shown)
  | array {kept missing : List (String × Json)} (hmembers : members = kept ++ missing)
      (hmissing : ∀ m ∈ missing, m ∈ defaults) : Shows members defaults (array (kept.map (·.2)))

/-- The field has the value of the member, or it is missing and may be. -/
def Field (defaults : List (String × Json)) (m : String × Json) (field : Option Json) : Prop :=
  field = some m.2 ∨ field = none ∧ m ∈ defaults

variable {members defaults : List (String × Json)} {j : Json}

theorem filter_key_of_nodup {m : String × Json} (hnodup : (members.map (·.1)).Nodup)
    (hm : m ∈ members) : members.filter (·.1 = m.1) = [m] := by
  induction members with
  | nil => cases hm
  | cons first rest ih =>
      rw [List.map_cons, List.nodup_cons] at hnodup
      rcases List.mem_cons.1 hm with rfl | hm
      · have hrest : rest.filter (·.1 = m.1) = [] := by
          refine List.filter_eq_nil_iff.2 fun other hother => ?_
          rw [decide_eq_true_eq]
          exact fun heq => hnodup.1 (heq ▸ List.mem_map_of_mem hother)
        rw [List.filter_cons_of_pos (by simp), hrest]
      · have hne : ¬first.1 = m.1 := fun heq => hnodup.1 (heq ▸ List.mem_map_of_mem hm)
        rw [List.filter_cons_of_neg (by simpa using hne), ih hnodup.2 hm]

/-- A record is shown by the object of its members. -/
theorem shows_ofMembers (hnodup : (members.map (·.1)).Nodup) :
    Shows members defaults (ofMembers members) :=
  .object fun _ hm => .inl (filter_key_of_nodup hnodup hm)

theorem fields?_ofMembers (shown : List (String × Json)) (names : List String) :
    (ofMembers shown).fields? names = names.mapM (onlyMember? shown) := by
  have hmembers : (ofMembers shown).fields? names =
      (ofMembers shown).members?.bind fun shown => names.mapM (onlyMember? shown) := rfl
  rw [hmembers, members?_ofMembers, Option.bind_some]

/-- Taking more items than a list has gives all of them, and then nothing. -/
theorem map_getElem?_range {β : Type} (l : List β) (k : Nat) :
    (List.range (l.length + k)).map (l[·]?) = l.map some ++ List.replicate k none := by
  induction l with
  | nil => simp
  | cons b rest ih =>
      have hlength : (b :: rest).length + k = rest.length + k + 1 := by
        rw [List.length_cons, Nat.add_right_comm]
      rw [hlength, List.range_succ_eq_map, List.map_cons, List.map_map, List.map_cons,
        List.cons_append, ← ih]
      rfl

/-- The fields that are found are the members, apart from some that may be missing. -/
theorem Shows.exists_fields (h : Shows members defaults j) :
    ∃ fields, j.fields? (members.map (·.1)) = some fields ∧
      List.Forall₂ (Field defaults) members fields := by
  cases h with
  | @object shown h =>
      have hfields : ∀ m ∈ members, ∃ field, onlyMember? shown m.1 = some field ∧
          Field defaults m field := by
        intro m hm
        rw [onlyMember?]
        rcases h m hm with hfilter | ⟨hfilter, hdefault⟩
        · rw [hfilter]
          exact ⟨some m.2, rfl, .inl rfl⟩
        · rw [hfilter]
          exact ⟨none, rfl, .inr ⟨rfl, hdefault⟩⟩
      choose! field hfield using hfields
      refine ⟨members.map field, ?_, ?_⟩
      · rw [fields?_ofMembers, mapM_eq_some_iff, List.forall₂_map_left_iff,
          List.forall₂_map_right_iff, List.forall₂_same]
        exact fun m hm => (hfield m hm).1
      · rw [List.forall₂_map_right_iff, List.forall₂_same]
        exact fun m hm => (hfield m hm).2
  | @array kept missing hmembers hmissing =>
      subst hmembers
      refine ⟨kept.map (fun m => some m.2) ++ missing.map fun _ => none, ?_, ?_⟩
      · have hlength : ((kept ++ missing).map (·.1)).length =
            (kept.map (·.2)).length + missing.length := by
          rw [List.length_map, List.length_append, List.length_map]
        rw [fields?, hlength, if_pos (Nat.le_add_right _ _), map_getElem?_range, List.map_map,
          List.map_const']
        rfl
      · refine List.rel_append ?_ ?_
        · rw [List.forall₂_map_right_iff, List.forall₂_same]
          exact fun m _ => .inl rfl
        · rw [List.forall₂_map_right_iff, List.forall₂_same]
          exact fun m hm => .inr ⟨rfl, hmissing m hm⟩

namespace Faithful

variable {write : α → Json} {read? : Json → Option α} {Fits : α → Prop} {key : String}
  {field : Option Json} {a : α}

theorem required_eq_some (h : Faithful write read? Fits) (ha : Fits a)
    (hfield : Field defaults (key, write a) field) (hkey : ∀ e ∈ defaults, e.1 ≠ key) :
    required read? field = some a := by
  rcases hfield with rfl | ⟨-, hdefault⟩
  · exact h.read_write a ha
  · exact absurd rfl (hkey _ hdefault)

theorem withDefault_eq_some (h : Faithful write read? Fits) (d : α) (hd : Fits d) (ha : Fits a)
    (hfield : Field defaults (key, write a) field)
    (hkey : ∀ e ∈ defaults, e.1 = key → e.2 = write d) : withDefault d read? field = some a := by
  rcases hfield with rfl | ⟨rfl, hdefault⟩
  · exact h.read_write a ha
  · rw [h.write_inj ha hd (hkey _ hdefault rfl), withDefault]

theorem fits_of_withDefault (h : Faithful write read? Fits) {d : α} (hd : Fits d)
    (hread : withDefault d read? field = some a) : Fits a := by
  cases field with
  | none => exact Option.some.inj hread ▸ hd
  | some j => exact h.fits j a hread

end Faithful

end Json

/-! ### Netlists -/

theorem Direction.faithful : Json.Faithful toJson ofJson? fun _ => True :=
  ⟨fun d _ => d.ofJson?_toJson, fun _ _ _ => trivial⟩

namespace Model

/-- The members of the JSON form of a model. -/
def members (m : Model) : List (String × Json) :=
  [("name", .ofText m.name), ("type", .ofText m.type)]

theorem ofJson?_of_shows {m : Model} {j : Json} (h : Json.Shows m.members [] j) :
    ofJson? j = some m := by
  obtain ⟨fields, hfields, hshown⟩ := h.exists_fields
  simp only [members, List.forall₂_cons_left_iff, List.forall₂_nil_left_iff] at hshown
  obtain ⟨name, _, hname, ⟨type, _, htype, rfl, rfl⟩, rfl⟩ := hshown
  have hnames : j.fields? fieldNames = _ := hfields
  simp only [ofJson?, hnames, Option.bind_eq_bind, Option.bind_some, Option.pure_def,
    Json.faithful_text.required_eq_some trivial hname (by decide),
    Json.faithful_text.required_eq_some trivial htype (by decide)]

theorem faithful : Json.Faithful toJson ofJson? fun _ => True := by
  have hnodup : fieldNames.Nodup := by decide
  exact ⟨fun m _ => ofJson?_of_shows (Json.shows_ofMembers hnodup), fun _ _ _ => trivial⟩

end Model

namespace Net

/-- The members of the JSON form of a net. -/
def members (n : Net) : List (String × Json) :=
  [("name", .ofText n.name), ("source", .ofText n.source), ("destination", .ofText n.destination)]

theorem ofJson?_of_shows {n : Net} {j : Json} (h : Json.Shows n.members [] j) :
    ofJson? j = some n := by
  obtain ⟨fields, hfields, hshown⟩ := h.exists_fields
  simp only [members, List.forall₂_cons_left_iff, List.forall₂_nil_left_iff] at hshown
  obtain ⟨name, _, hname, ⟨source, _, hsource, ⟨destination, _, hdestination, rfl, rfl⟩, rfl⟩,
    rfl⟩ := hshown
  have hnames : j.fields? fieldNames = _ := hfields
  simp only [ofJson?, hnames, Option.bind_eq_bind, Option.bind_some, Option.pure_def,
    Json.faithful_text.required_eq_some trivial hname (by decide),
    Json.faithful_text.required_eq_some trivial hsource (by decide),
    Json.faithful_text.required_eq_some trivial hdestination (by decide)]

theorem faithful : Json.Faithful toJson ofJson? fun _ => True := by
  have hnodup : fieldNames.Nodup := by decide
  exact ⟨fun n _ => ofJson?_of_shows (Json.shows_ofMembers hnodup), fun _ _ _ => trivial⟩

end Net

namespace Netlist

/-- The members of the JSON form of a netlist. -/
def members (n : Netlist) : List (String × Json) :=
  [("inputs", .ofList Direction.toJson n.inputs), ("outputs", .ofList Direction.toJson n.outputs),
    ("models", .ofList Model.toJson n.models), ("nets", .ofList Net.toJson n.nets)]

theorem ofJson?_of_shows {n : Netlist} {j : Json} (h : Json.Shows n.members [] j) :
    ofJson? j = some n := by
  obtain ⟨fields, hfields, hshown⟩ := h.exists_fields
  simp only [members, List.forall₂_cons_left_iff, List.forall₂_nil_left_iff] at hshown
  obtain ⟨inputs, _, hinputs, ⟨outputs, _, houtputs, ⟨models, _, hmodels, ⟨nets, _, hnets, rfl,
    rfl⟩, rfl⟩, rfl⟩, rfl⟩ := hshown
  have hnames : j.fields? fieldNames = _ := hfields
  simp only [ofJson?, hnames, Option.bind_eq_bind, Option.bind_some, Option.pure_def,
    Direction.faithful.list.required_eq_some (fun _ _ => trivial) hinputs (by decide),
    Direction.faithful.list.required_eq_some (fun _ _ => trivial) houtputs (by decide),
    Model.faithful.list.required_eq_some (fun _ _ => trivial) hmodels (by decide),
    Net.faithful.list.required_eq_some (fun _ _ => trivial) hnets (by decide)]

theorem faithful : Json.Faithful toJson ofJson? fun _ => True := by
  have hnodup : fieldNames.Nodup := by decide
  exact ⟨fun n _ => ofJson?_of_shows (Json.shows_ofMembers hnodup), fun _ _ _ => trivial⟩

end Netlist

/-! ### Benches -/

theorem NorPolicy.faithful : Json.Faithful toJson ofJson? fun _ => True :=
  ⟨fun p _ => p.ofJson?_toJson, fun _ _ _ => trivial⟩

theorem NetlistSource.faithful : Json.Faithful toJson ofJson? fun _ => True :=
  ⟨fun s _ => s.ofJson?_toJson, fun _ _ _ => trivial⟩

theorem PinMap.ofJson?_toJson (m : PinMap) : ofJson? m.toJson = some m := by
  have hlevel : Json.Faithful Voltage.toJson Voltage.ofJson? fun _ => True :=
    ⟨fun v _ => v.ofJson?_toJson, fun _ _ _ => trivial⟩
  exact hlevel.nameMap.read_write m fun _ _ => trivial

theorem PinMap.faithful : Json.Faithful toJson ofJson? fun _ => True :=
  ⟨fun m _ => m.ofJson?_toJson, fun _ _ _ => trivial⟩

namespace LibraryEntry

/-- The limits of an entry fit into a machine word. -/
def Fits (e : LibraryEntry) : Prop :=
  e.limits < Json.countBound

theorem fits_empty : ∀ e ∈ (NameMap.empty : NameMap LibraryEntry).entries, e.2.Fits :=
  fun _ he => absurd he List.not_mem_nil

/-- The members of the JSON form of a library entry. -/
def members (e : LibraryEntry) : List (String × Json) :=
  [("netlist", e.netlist.toJson), ("limits", .natural e.limits)]

/-- The members of a library entry that may be missing. -/
def defaults : List (String × Json) :=
  [("limits", .natural Bench.defaultLimits)]

theorem ofJson?_of_shows {e : LibraryEntry} (he : e.Fits) {j : Json}
    (h : Json.Shows e.members defaults j) : ofJson? j = some e := by
  obtain ⟨fields, hfields, hshown⟩ := h.exists_fields
  simp only [members, List.forall₂_cons_left_iff, List.forall₂_nil_left_iff] at hshown
  obtain ⟨netlist, _, hnetlist, ⟨limits, _, hlimits, rfl, rfl⟩, rfl⟩ := hshown
  have hnames : j.fields? fieldNames = _ := hfields
  simp only [ofJson?, hnames, Option.bind_eq_bind, Option.bind_some, Option.pure_def,
    NetlistSource.faithful.required_eq_some trivial hnetlist (by simp [defaults]),
    Json.faithful_count.withDefault_eq_some Bench.defaultLimits (by decide) he hlimits
      (by simp [defaults])]

theorem fits_of_ofJson? {j : Json} {e : LibraryEntry} (h : ofJson? j = some e) : e.Fits := by
  simp only [ofJson?, Option.bind_eq_bind, Option.bind_eq_some_iff] at h
  obtain ⟨fields, -, h⟩ := h
  split at h
  · simp only [Option.bind_eq_some_iff, Option.pure_def, Option.some_inj] at h
    obtain ⟨netlist, -, limits, hlimits, rfl⟩ := h
    exact Json.faithful_count.fits_of_withDefault (by decide) hlimits
  · cases h

theorem faithful : Json.Faithful toJson ofJson? Fits := by
  have hnodup : fieldNames.Nodup := by decide
  exact ⟨fun e he => ofJson?_of_shows he (Json.shows_ofMembers hnodup), fun _ _ => fits_of_ofJson?⟩

end LibraryEntry

namespace TestVector

/-- The JSON form of what a test vector expects. -/
def expectToJson : Option PinMap → Json
  | some pins => pins.toJson
  | none => .null

theorem faithful_expect :
    Json.Faithful expectToJson (Json.nullable? PinMap.ofJson?) fun _ => True where
  read_write expect _ := by
    cases expect with
    | none => rfl
    | some pins =>
        have hread : Json.nullable? PinMap.ofJson? pins.toJson =
            (PinMap.ofJson? pins.toJson).map some := rfl
        rw [expectToJson, hread, pins.ofJson?_toJson, Option.map_some]
  fits _ _ _ := trivial

/-- The members of the JSON form of a test vector. -/
def members (v : TestVector) : List (String × Json) :=
  [("inputs", v.inputs.toJson), ("expect", expectToJson v.expect)]

/-- The members of a test vector that may be missing. -/
def defaults : List (String × Json) :=
  [("expect", expectToJson none)]

theorem toJson_eq (v : TestVector) : v.toJson = .ofMembers v.members := by
  obtain ⟨inputs, _ | pins⟩ := v <;> rfl

theorem ofJson?_of_shows {v : TestVector} {j : Json} (h : Json.Shows v.members defaults j) :
    ofJson? j = some v := by
  obtain ⟨fields, hfields, hshown⟩ := h.exists_fields
  simp only [members, List.forall₂_cons_left_iff, List.forall₂_nil_left_iff] at hshown
  obtain ⟨inputs, _, hinputs, ⟨expect, _, hexpect, rfl, rfl⟩, rfl⟩ := hshown
  have hnames : j.fields? fieldNames = _ := hfields
  simp only [ofJson?, hnames, Option.bind_eq_bind, Option.bind_some, Option.pure_def,
    PinMap.faithful.required_eq_some trivial hinputs (by simp [defaults]),
    faithful_expect.withDefault_eq_some none trivial trivial hexpect (by simp [defaults])]

theorem faithful : Json.Faithful toJson ofJson? fun _ => True where
  read_write v _ := by
    have hnodup : fieldNames.Nodup := by decide
    rw [v.toJson_eq]
    exact ofJson?_of_shows (Json.shows_ofMembers hnodup)
  fits _ _ _ := trivial

end TestVector

namespace Bench

/-- All limits of a bench fit into a machine word. -/
def Fits (b : Bench) : Prop :=
  b.limits < Json.countBound ∧ ∀ e ∈ b.library.entries, e.2.limits < Json.countBound

/-- The members of the JSON form of a bench. -/
def members (b : Bench) : List (String × Json) :=
  [("name", .ofText b.name), ("description", .ofText b.description),
    ("limits", .natural b.limits), ("nor_policy", b.policy.toJson),
    ("netlist", b.netlist.toJson), ("library", .ofNameMap LibraryEntry.toJson b.library),
    ("vectors", .ofList TestVector.toJson b.vectors)]

/-- The members of a bench that may be missing. -/
def defaults : List (String × Json) :=
  [("description", .ofText ""), ("limits", .natural defaultLimits),
    ("nor_policy", NorPolicy.legacy.toJson),
    ("library", .ofNameMap LibraryEntry.toJson .empty), ("vectors", .ofList TestVector.toJson [])]

theorem ofJson?_of_shows {b : Bench} (hb : b.Fits) {j : Json}
    (h : Json.Shows b.members defaults j) : ofJson? j = some b := by
  obtain ⟨fields, hfields, hshown⟩ := h.exists_fields
  simp only [members, List.forall₂_cons_left_iff, List.forall₂_nil_left_iff] at hshown
  obtain ⟨name, _, hname, ⟨description, _, hdescription, ⟨limits, _, hlimits, ⟨policy, _, hpolicy,
    ⟨netlist, _, hnetlist, ⟨library, _, hlibrary, ⟨vectors, _, hvectors, rfl, rfl⟩, rfl⟩, rfl⟩,
    rfl⟩, rfl⟩, rfl⟩, rfl⟩ := hshown
  have hnames : j.fields? fieldNames = _ := hfields
  simp only [ofJson?, hnames, Option.bind_eq_bind, Option.bind_some, Option.pure_def,
    Json.faithful_text.required_eq_some trivial hname (by simp [defaults]),
    Json.faithful_text.withDefault_eq_some "" trivial trivial hdescription (by simp [defaults]),
    Json.faithful_count.withDefault_eq_some defaultLimits (by decide) hb.1 hlimits
      (by simp [defaults]),
    NorPolicy.faithful.withDefault_eq_some .legacy trivial trivial hpolicy (by simp [defaults]),
    NetlistSource.faithful.required_eq_some trivial hnetlist (by simp [defaults]),
    LibraryEntry.faithful.nameMap.withDefault_eq_some .empty LibraryEntry.fits_empty hb.2 hlibrary
      (by simp [defaults]),
    TestVector.faithful.list.withDefault_eq_some [] (fun _ _ => trivial) (fun _ _ => trivial)
      hvectors (by simp [defaults])]

theorem fits_of_ofJson? {j : Json} {b : Bench} (h : ofJson? j = some b) : b.Fits := by
  simp only [ofJson?, Option.bind_eq_bind, Option.bind_eq_some_iff] at h
  obtain ⟨fields, -, h⟩ := h
  split at h
  · simp only [Option.bind_eq_some_iff, Option.pure_def, Option.some_inj] at h
    obtain ⟨name, -, description, -, limits, hlimits, policy, -, netlist, -, library, hlibrary,
      vectors, -, rfl⟩ := h
    exact ⟨Json.faithful_count.fits_of_withDefault (by decide) hlimits,
      LibraryEntry.faithful.nameMap.fits_of_withDefault LibraryEntry.fits_empty hlibrary⟩
  · cases h

theorem faithful : Json.Faithful toJson ofJson? Fits := by
  have hnodup : fieldNames.Nodup := by decide
  exact ⟨fun b hb => ofJson?_of_shows hb (Json.shows_ofMembers hnodup), fun _ _ => fits_of_ofJson?⟩

/-- **Benches and netlists survive their JSON form.**

- A bench with limits that fit into a machine word, and every netlist, are read back as they were
  written.
- Whatever has been read, from whatever value, is read back when it is written again.
- A record is read from an object that has its members in any order and among others, and from an
  array of its values; what has its default may be missing, at the end in an array. -/
theorem json_forms_are_faithful :
    (∀ b : Bench, b.Fits → ofJson? b.toJson = some b) ∧
      (∀ n : Netlist, Netlist.ofJson? n.toJson = some n) ∧
      (∀ (j : Json) (b : Bench), ofJson? j = some b → b.Fits ∧ ofJson? b.toJson = some b) ∧
      (∀ (j : Json) (n : Netlist), Netlist.ofJson? j = some n →
        Netlist.ofJson? n.toJson = some n) ∧
      (∀ (b : Bench) (j : Json), b.Fits → Json.Shows b.members defaults j →
        ofJson? j = some b) ∧
      ∀ (n : Netlist) (j : Json), Json.Shows n.members [] j → Netlist.ofJson? j = some n := by
  refine ⟨faithful.read_write, fun n => Netlist.faithful.read_write n trivial, ?_, ?_, ?_, ?_⟩
  · exact fun j b h => ⟨faithful.fits j b h, faithful.read_again h⟩
  · exact fun j n h => Netlist.faithful.read_again h
  · exact fun b j hb h => ofJson?_of_shows hb h
  · exact fun n j h => Netlist.ofJson?_of_shows h

end Bench

/-! ### A bench and its spellings -/

namespace Spelled

/-- A bench with the greatest limits, a library, and vectors with and without an expectation. -/
def bench : Bench where
  name := "spelled"
  limits := 18446744073709551615
  policy := .strict
  netlist := .path "../half.net"
  library := .ofList [("HALF", ⟨.inline "START", 5⟩), ("FULL", ⟨.path "full.net", 0⟩)]
  vectors := [⟨.ofList [("PIN_A", .high)], none⟩, ⟨.empty, some (.ofList [("PIN_F", .low)])⟩]

/-- The same bench in other words: the members are out of order, one of them is unknown, what has
its default is left out, an entry and a vector are arrays, two words are objects, and a pin is
given twice. -/
def loose : Json :=
  .ofMembers [("netlist", .ofMembers [("path", .ofText "../half.net")]),
    ("comment", .array [.null, .number "1e3"]),
    ("nor_policy", .ofMembers [("strict", .null)]),
    ("limits", .natural 18446744073709551615),
    ("library", .ofMembers [("HALF", .array [.ofMembers [("inline", .ofText "START")]]),
      ("FULL", .ofMembers [("limits", .natural 0),
        ("netlist", .ofMembers [("path", .ofText "full.net")])])]),
    ("name", .ofText "spelled"),
    ("vectors", .array [
      .array [.ofMembers [("PIN_A", .ofText "LOW"), ("PIN_A", .ofMembers [("HIGH", .null)])]],
      .ofMembers [("expect", .ofMembers [("PIN_F", .ofText "LOW")]), ("inputs", .ofMembers [])]])]

/-- A bench with nothing in its library and no vectors. -/
def plain : Bench :=
  { bench with library := .empty, vectors := [] }

/-- The values of its first five fields. -/
def short : Json :=
  .array ((plain.members.take 5).map (·.2))

theorem shows_short : Json.Shows plain.members Bench.defaults short := by
  have hmembers : plain.members = plain.members.take 5 ++ plain.members.drop 5 :=
    (List.take_append_drop 5 _).symm
  exact .array hmembers (by simp [plain, Bench.members, Bench.defaults])

end Spelled

theorem Bench.spelled_bench_is_faithful :
    ofJson? Spelled.bench.toJson = some Spelled.bench ∧
      ofJson? Spelled.loose = some Spelled.bench ∧ Spelled.bench.Fits ∧
      ofJson? Spelled.short = some Spelled.plain := by
  obtain ⟨hwritten, -, hread, -, hshown, -⟩ := json_forms_are_faithful
  have hloose : ofJson? Spelled.loose = some Spelled.bench := by decide +kernel
  obtain ⟨hfits, -⟩ := hread Spelled.loose Spelled.bench hloose
  have hplain : Spelled.plain.Fits := ⟨hfits.1, LibraryEntry.fits_empty⟩
  exact ⟨hwritten Spelled.bench hfits, hloose, hfits,
    hshown Spelled.plain Spelled.short hplain Spelled.shows_short⟩

end LogicBlock
