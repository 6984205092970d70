/-
**Building a block from a bench.**

The library of a bench is built first, in the order of the type names, and then the block itself.
The first fault that is met ends the building: an entry without passes, a netlist that cannot be
read, a text that is no netlist, a type name that is taken.

Main definitions:

* `BenchError`, `BenchError.message` — why there is no block;
* `NetlistSource.load` — the netlist at a source;
* `Bench.catalog`, `Bench.design` — the library, and the design of the block;
* `LoadedBench` — a bench with its live block, from JSON text, from a file, or with the netlist
  given separately.
-/

import LogicBlock.Block
import LogicBlock.Catalog
import LogicBlock.FileTree
import LogicBlock.Json.Bench
import LogicBlock.Json.Reader
import LogicBlock.Netlist.Scan
import LogicBlock.Path

set_option relaxedAutoImplicit false
set_option autoImplicit false

namespace LogicBlock

/-- Why a bench cannot be loaded. -/
inductive BenchError where
  /-- A file cannot be read. -/
  | unreadable (path : String) (cause : ReadError)
  /-- A text is not the JSON form of a bench. -/
  | notABench (path : String)
  /-- The text of a netlist is refused; the context is the name of the block. -/
  | format (context : String) (cause : FormatError)
  /-- A library entry has the name of a type that is known already. -/
  | duplicateType (cause : DuplicateType)
  /-- A block may not take a single pass. -/
  | noPasses (name : String)

namespace BenchError

/-- What is said of any text that is not the JSON form of a bench, if whatever has read the JSON has
no words of its own. -/
def notABenchDetail : String :=
  "the text is not the JSON form of a bench"

/-- The text of an error.  That a text is not the JSON form of a bench is said in the words of
whatever has read the JSON: `wording path` are its words about the text at `path`. -/
def message (e : BenchError) (wording : String → String := fun _ => notABenchDetail) : String :=
  match e with
  | unreadable path cause => "failed to read '" ++ path ++ "': " ++ cause.message
  | notABench path => "failed to parse JSON config '" ++ path ++ "': " ++ wording path
  | format context cause => "invalid netlist for " ++ context ++ ": " ++ cause.message
  | duplicateType cause => cause.message
  | noPasses name => "'" ++ name ++ "' needs at least one relaxation pass"

end BenchError

/-- The text at a source.  Paths are seen from the directory `base`. -/
def NetlistSource.text (read : FileReader) (base : String) :
    NetlistSource → Except BenchError String
  | inline text => .ok text
  | path p =>
    match read (Path.join base p) with
    | .ok text => .ok text
    | .error cause => .error (.unreadable (Path.join base p) cause)

/-- The netlist at a source, for the block called `context`. -/
def NetlistSource.load (read : FileReader) (base context : String) (source : NetlistSource) :
    Except BenchError Netlist :=
  match source.text read base with
  | .error e => .error e
  | .ok text =>
    match Netlist.parse text with
    | .ok netlist => .ok netlist
    | .error cause => .error (.format context cause)

/-- The catalog with one more library entry. -/
def LibraryEntry.register (read : FileReader) (base : String) (c : Catalog) (type : String)
    (entry : LibraryEntry) : Except BenchError Catalog :=
  if entry.limits = 0 then .error (.noPasses type)
  else
    match entry.netlist.load read base type with
    | .error e => .error e
    | .ok netlist =>
      match c.register type netlist entry.limits with
      | .ok next => .ok next
      | .error cause => .error (.duplicateType cause)

namespace Bench

/-- The catalog with further library entries, one after the other. -/
def registerAll (read : FileReader) (base : String) (c : Catalog) :
    List (String × LibraryEntry) → Except BenchError Catalog
  | [] => .ok c
  | (type, entry) :: rest =>
    match entry.register read base c type with
    | .ok next => registerAll read base next rest
    | .error e => .error e

/-- The catalog that the library of a bench makes. -/
def catalog (b : Bench) (read : FileReader) (base : String) : Except BenchError Catalog :=
  registerAll read base (.ofPolicy b.policy) b.library.entries

/-- The design of the block that a bench describes. -/
def design (b : Bench) (read : FileReader) (base : String) : Except BenchError Design :=
  match b.catalog read base with
  | .error e => .error e
  | .ok catalog =>
    if b.limits = 0 then .error (.noPasses b.name)
    else
      match b.netlist.load read base b.name with
      | .ok netlist => .ok (catalog.design b.name netlist b.limits)
      | .error e => .error e

/-- The bench that a text writes in JSON.  The path only says, in an error, which text it was. -/
def read? (path text : String) : Except BenchError Bench :=
  match (Json.read? text).bind ofJson? with
  | some b => .ok b
  | none => .error (.notABench path)

/-- The bench with its netlist given as a text. -/
def withNetlist (b : Bench) (text : String) : Bench :=
  { b with netlist := .inline text }

end Bench

/-- A bench together with its live block. -/
structure LoadedBench where
  bench : Bench
  block : Block

namespace LoadedBench

/-- Builds the block of a bench. -/
def ofBench (read : FileReader) (base : String) (b : Bench) : Except BenchError LoadedBench :=
  match b.design read base with
  | .ok design => .ok ⟨b, .ofDesign design⟩
  | .error e => .error e

/-- Loads a bench from its JSON text. -/
def ofText (read : FileReader) (base text : String) : Except BenchError LoadedBench :=
  match Bench.read? "<inline>" text with
  | .ok b => ofBench read base b
  | .error e => .error e

/-- Loads a bench from its JSON text, with the text of the netlist given separately. -/
def ofEmbedded (read : FileReader) (text netlist : String) : Except BenchError LoadedBench :=
  match Bench.read? "<embedded>" text with
  | .ok b => ofBench read "" (b.withNetlist netlist)
  | .error e => .error e

/-- Loads a bench from a file.  Paths in it are seen from the directory of the file. -/
def ofFile (read : FileReader) (path : String) : Except BenchError LoadedBench :=
  match read path with
  | .error cause => .error (.unreadable path cause)
  | .ok text =>
    match Bench.read? path text with
    | .ok b => ofBench read (Path.parent path) b
    | .error e => .error e

end LoadedBench

end LogicBlock
