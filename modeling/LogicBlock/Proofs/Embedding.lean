/-
**Embedded netlists.**

A bench in JSON can be loaded as it is, or with the text of its netlist given separately, whatever
it says about the source of the netlist.  The two come to the same if the text that is given is the
text at the source, and nothing else has to be read: the same errors, the same block, and the same
outcomes in any use of it.  It makes no difference from which directory the paths are seen, or which
files there are.

A netlist source matters through its text only.  So the embedded bench is built like the other one,
function by function, and what is loaded differs in the source that the bench still names.  The
vectors of a bench do not mention the source, so this difference passes through every use.

Main definitions:

* `LoadedBench.Use`, `LoadedBench.useAll` — running the vectors and resetting, in any order;
* `LoadedBench.withNetlist` — a loaded bench that names another source.

Main results:

* `Bench.registerAll_congr`, `Bench.design_withNetlist` — sources with the same text build the same;
* `LoadedBench.ofBench_withNetlist`, `LoadedBench.useAll_withNetlist` — **naming another source
  commutes** with loading and with every use;
* `LoadedBench.embedding_agrees` — **an embedded netlist makes no difference**.
-/

import LogicBlock.Bench.Run
import LogicBlock.Proofs.RoundTrip

set_option relaxedAutoImplicit false
set_option autoImplicit false

namespace LogicBlock

/-! ### Uses of a loaded bench -/

namespace LoadedBench

/-- A use of a loaded bench: its vectors are run, or its block is reset. -/
inductive Use where
  | run
  | reset
  deriving DecidableEq

/-- The outcomes of one use, and the bench afterwards.  A reset has no outcomes. -/
def use (l : LoadedBench) : Use → List Outcome × LoadedBench
  | .run => l.run
  | .reset => ([], l.reset)

/-- The outcomes of uses one after the other, and the bench afterwards. -/
def useAll (l : LoadedBench) : List Use → List (List Outcome) × LoadedBench
  | [] => ([], l)
  | u :: rest =>
    let (outcomes, next) := l.use u
    let (all, last) := next.useAll rest
    (outcomes :: all, last)

theorem useAll_cons (l : LoadedBench) (u : Use) (rest : List Use) :
    l.useAll (u :: rest) =
      ((l.use u).1 :: ((l.use u).2.useAll rest).1, ((l.use u).2.useAll rest).2) :=
  rfl

/-- The bench names a text as the source of its netlist; the block stays as it is. -/
def withNetlist (l : LoadedBench) (text : String) : LoadedBench :=
  { l with bench := l.bench.withNetlist text }

variable (l : LoadedBench) (text : String)

theorem use_withNetlist (u : Use) :
    (l.withNetlist text).use u = ((l.use u).1, (l.use u).2.withNetlist text) := by
  cases u with
  | run => rfl
  | reset => rfl

/-- **No use notices which source a bench names.** -/
theorem useAll_withNetlist (uses : List Use) :
    (l.withNetlist text).useAll uses =
      ((l.useAll uses).1, (l.useAll uses).2.withNetlist text) := by
  induction uses generalizing l with
  | nil => rfl
  | cons u rest ih => rw [useAll_cons, useAll_cons, use_withNetlist, ih]

end LoadedBench

/-! ### Sources with the same text -/

section Sources

variable {read read' : FileReader} {base base' : String}

theorem NetlistSource.load_congr {source source' : NetlistSource}
    (h : source.text read base = source'.text read' base') (context : String) :
    source.load read base context = source'.load read' base' context := by
  rw [load, load, h]

theorem LibraryEntry.register_congr {entry : LibraryEntry}
    (h : entry.netlist.text read base = entry.netlist.text read' base') (c : Catalog)
    (type : String) : entry.register read base c type = entry.register read' base' c type := by
  rw [register, register, NetlistSource.load_congr h]

namespace Bench

/-- **Libraries with the same texts are registered alike**, wherever the texts come from. -/
theorem registerAll_congr {entries : List (String × LibraryEntry)}
    (h : ∀ entry ∈ entries,
      entry.2.netlist.text read base = entry.2.netlist.text read' base') (c : Catalog) :
    registerAll read base c entries = registerAll read' base' c entries := by
  induction entries generalizing c with
  | nil => rfl
  | cons first rest ih =>
      obtain ⟨type, entry⟩ := first
      rw [List.forall_mem_cons] at h
      rw [registerAll, registerAll, LibraryEntry.register_congr h.1]
      cases entry.register read' base' c type with
      | error e => rfl
      | ok next => exact ih h.2 next

/-- All sources of the library are texts in the bench itself. -/
def InlineLibrary (b : Bench) : Prop :=
  ∀ entry ∈ b.library.entries, ∃ text, entry.2.netlist = .inline text

/-- **A bench whose netlist has the given text** is built like the one that has the text itself. -/
theorem design_withNetlist {b : Bench} {text : String} (hlibrary : b.InlineLibrary)
    (htext : b.netlist.text read base = .ok text) :
    (b.withNetlist text).design read' base' = b.design read base := by
  have hcatalog : b.catalog read base = b.catalog read' base' := by
    refine registerAll_congr (fun entry hentry => ?_) _
    obtain ⟨text, hinline⟩ := hlibrary entry hentry
    rw [hinline]
    rfl
  have hload : b.netlist.load read base b.name =
      (NetlistSource.inline text).load read' base' b.name :=
    NetlistSource.load_congr htext b.name
  rw [design, design, hcatalog, hload]
  rfl

end Bench

end Sources

namespace LoadedBench

/-- **Loading with the netlist given separately** is loading, up to the source that is named. -/
theorem ofBench_withNetlist {read read' : FileReader} {base base' : String} {b : Bench}
    {text : String} (hlibrary : b.InlineLibrary) (htext : b.netlist.text read base = .ok text) :
    ofBench read' base' (b.withNetlist text) =
      (ofBench read base b).map fun l => l.withNetlist text := by
  rw [ofBench, ofBench, Bench.design_withNetlist hlibrary htext]
  cases b.design read base <;> rfl

section Json

variable {json : String} {b : Bench} (hjson : (Json.read? json).bind Bench.ofJson? = some b)

include hjson

theorem ofText_of_json (read : FileReader) (base : String) :
    ofText read base json = ofBench read base b := by
  rw [ofText, Bench.read?, hjson]

theorem ofEmbedded_of_json (read : FileReader) (text : String) :
    ofEmbedded read json text = ofBench read "" (b.withNetlist text) := by
  rw [ofEmbedded, Bench.read?, hjson]

end Json

/-- **An embedded netlist makes no difference.**  A bench in JSON whose library needs no files, and
whose netlist has the text that is given, is refused with the same error either way; or it is loaded
either way, the blocks are the same, the benches differ in the source that they name, and all uses
of the two have the same outcomes and leave the same block. -/
theorem embedding_agrees (read read' : FileReader) (base json text : String) (b : Bench)
    (hjson : (Json.read? json).bind Bench.ofJson? = some b)
    (hlibrary : b.InlineLibrary)
    (htext : b.netlist = .inline text ∨
      ∃ p, b.netlist = .path p ∧ read (Path.join base p) = .ok text) :
    (∃ e, ofText read base json = .error e ∧ ofEmbedded read' json text = .error e) ∨
      ∃ l l', ofText read base json = .ok l ∧ ofEmbedded read' json text = .ok l' ∧
        l'.block = l.block ∧ l'.bench = { l.bench with netlist := .inline text } ∧
        ∀ uses, (l'.useAll uses).1 = (l.useAll uses).1 ∧
          (l'.useAll uses).2.block = (l.useAll uses).2.block := by
  have hsource : b.netlist.text read base = .ok text := by
    rcases htext with hinline | ⟨p, hpath, hread⟩
    · rw [hinline, NetlistSource.text]
    · rw [hpath, NetlistSource.text, hread]
  rw [ofText_of_json hjson, ofEmbedded_of_json hjson, ofBench_withNetlist hlibrary hsource]
  cases ofBench read base b with
  | error e => exact .inl ⟨e, rfl, rfl⟩
  | ok l =>
      refine .inr ⟨l, l.withNetlist text, rfl, rfl, rfl, rfl, fun uses => ?_⟩
      rw [l.useAll_withNetlist text uses]
      exact ⟨rfl, rfl⟩

end LoadedBench

namespace Wired

/-- A wire from one port to another. -/
def netlist : Netlist where
  inputs := [.up]
  outputs := [.down]
  nets := [⟨"N", "UP", "DOWN"⟩]

/-- A bench that names a file for its netlist, up to the only entry of its library. -/
def block : String :=
  "\x7b\"name\":\"w\",\"netlist\":\x7b\"path\":\"w.net\"\x7d,\"library\":\x7b\"L\":"

/-- The entry, which needs no file. -/
def entry : String :=
  "\x7b\"netlist\":\x7b\"inline\":\"NETLIST\\n$INPUTS\\n$OUTPUTS\\n$MODELS\\n$NETS\"\x7d\x7d\x7d,"

/-- The vectors of the bench: there is one. -/
def vectors : String :=
  "\"vectors\":[\x7b\"inputs\":\x7b\"UP\":\"HIGH\"\x7d\x7d]\x7d"

/-- The bench as a text. -/
def json : String :=
  block ++ entry ++ vectors

/-- What the text says. -/
def bench : Bench where
  name := "w"
  netlist := .path "w.net"
  library := .ofList
    [("L", { netlist := .inline "NETLIST\n$INPUTS\n$OUTPUTS\n$MODELS\n$NETS" })]
  vectors := [{ inputs := .ofList [("UP", .high)] }]

/-- The files: there is one. -/
def reader : FileReader :=
  fun path => if path = "nets/w.net" then .ok netlist.render else .error .notFound

theorem json_bench : (Json.read? json).bind Bench.ofJson? = some bench := by
  -- the characters of a literal are at hand, while taking a text apart would be slow
  have hblock : block.toList = _ := String.toList_ofList
  have hentry : entry.toList = _ := String.toList_ofList
  have hvectors : vectors.toList = _ := String.toList_ofList
  rw [Json.read?, Json.tokens?, json, String.toList_append, String.toList_append, hblock, hentry,
    hvectors]
  decide +kernel

theorem isOk_ofBench : (LoadedBench.ofBench reader "nets" bench).isOk := by
  decide +kernel

theorem inlineLibrary : bench.InlineLibrary := by
  intro entry hentry
  obtain rfl := List.mem_singleton.1 hentry
  exact ⟨_, rfl⟩

end Wired

/-- The bench that names a file and the one with the text of the file run alike, before and after a
reset.  For the second one there are no files at all. -/
theorem LoadedBench.wire_embedding_agrees :
    (Json.read? Wired.json).bind Bench.ofJson? = some Wired.bench ∧ Wired.bench.InlineLibrary ∧
      Wired.reader (Path.join "nets" "w.net") = .ok Wired.netlist.render ∧
      ∃ l l', ofText Wired.reader "nets" Wired.json = .ok l ∧
        ofEmbedded .none Wired.json Wired.netlist.render = .ok l' ∧ l'.block = l.block ∧
        (l'.useAll [.run, .reset, .run]).1 = (l.useAll [.run, .reset, .run]).1 := by
  refine ⟨Wired.json_bench, Wired.inlineLibrary, rfl, ?_⟩
  rcases embedding_agrees Wired.reader .none "nets" Wired.json Wired.netlist.render Wired.bench
    Wired.json_bench Wired.inlineLibrary (.inr ⟨"w.net", rfl, rfl⟩) with
    ⟨e, he, -⟩ | ⟨l, l', hl, hl', hblock, -, huses⟩
  · have hok := Wired.isOk_ofBench
    rw [ofText_of_json Wired.json_bench] at he
    rw [he] at hok
    cases hok
  · exact ⟨l, l', hl, hl', hblock, (huses _).1⟩

end LogicBlock
