/-
**The command line.**

The program loads benches, one for each argument, or runs the bundled ones if there are no
arguments.  It prints what every vector leads to, and ends with the number of failures: benches that
do not load, and vectors whose outcome is not as expected.  Everything but the reading of files and
the printing is a function, defined here.

Two things come from outside.  What is wrong with a text that is not the JSON form of a bench is
said in the words of whatever reads the JSON, which are a parameter.  And the program keeps a log,
with records of its own about benches, warnings and passes; a filter in its environment says which
of them it writes, and it writes them to standard output as well, between the lines that are printed
here.  The records of the log are no part of what is modelled as standard output.

Main definitions:

* `Transcript` — what is printed, and how many failures there are;
* `LoadedBench.transcript`, `CommandLine.fileTranscript` — one bench;
* `CommandLine.run`, `CommandLine.Report` — the whole program: its two outputs and its exit code.
-/

import LogicBlock.Bench.Run
import LogicBlock.Bundled

set_option relaxedAutoImplicit false
set_option autoImplicit false

namespace LogicBlock

/-- What is printed to standard output, the records of the log left out, and to standard error, and
the failures counted so far. -/
structure Transcript where
  output : String := ""
  errors : String := ""
  failures : Nat := 0
  deriving DecidableEq

namespace Transcript

/-- One transcript after another. -/
def append (t u : Transcript) : Transcript :=
  ⟨t.output ++ u.output, t.errors ++ u.errors, t.failures + u.failures⟩

instance : Append Transcript := ⟨append⟩

end Transcript

/-! ### One bench -/

/-- Pins and their levels on one line. -/
def PinMap.renderLine (m : PinMap) : String :=
  " ".intercalate (m.entries.map fun e => e.1 ++ "=" ++ e.2.name)

namespace Outcome

/-- The four columns that show how an outcome compares with what was expected. -/
def status (o : Outcome) : String :=
  match o.expected with
  | none => "    "
  | some _ => if o.passed then "ok  " else "FAIL"

/-- The line of an outcome.  What was expected is shown only if it was not met. -/
def line (o : Outcome) : String :=
  "  [" ++ o.status ++ "] " ++ o.inputs.renderLine ++ " -> " ++ o.outputs.renderLine ++
    (match o.expected with
      | some expected => if o.passed then "" else " (expected " ++ expected.renderLine ++ ")"
      | none => "") ++ "\n"

end Outcome

namespace LoadedBench

/-- The lines about the block of a bench. -/
def heading (l : LoadedBench) : String :=
  "\nBlock: " ++ l.bench.name ++ "\n" ++
    (if l.bench.description.isEmpty then "" else "  " ++ l.bench.description ++ "\n") ++
    "  " ++ l.block.design.elements.length.repr ++ " elements, " ++
    l.block.design.netlist.nets.length.repr ++ " nets, " ++
    l.block.design.limits.repr ++ " passes per vector\n"

/-- What is printed about a bench that runs. -/
def transcript (l : LoadedBench) : Transcript where
  output := l.heading ++ String.join (l.run.1.map Outcome.line)
  failures := (l.run.1.filter fun o => !o.passed).length

end LoadedBench

namespace CommandLine

/-- What is printed about a bench that may not have loaded. -/
def transcriptOf (wording : String → String) (onError : String) :
    Except BenchError LoadedBench → Transcript
  | .ok l => l.transcript
  | .error e => { errors := onError ++ ": " ++ e.message wording ++ "\n", failures := 1 }

/-- What is printed about the bench in a file. -/
def fileTranscript (read : FileReader) (wording : String → String) (path : String) : Transcript :=
  transcriptOf wording ("Failed to load " ++ path) (LoadedBench.ofFile read path)

/-- What is printed about a bundled bench. -/
def bundledTranscript (wording : String → String) (b : Bench) : Transcript :=
  transcriptOf wording ("Failed to create " ++ b.name) (LoadedBench.ofBench .none "" b)

/-! ### The whole program -/

/-- The lines that every run starts with. -/
def header : String :=
  "Rusty FPGA - Netlist Block Simulator\n====================================\n"

/-- The lines that a run ends with. -/
def closing (failures : Nat) : String :=
  if failures = 0 then "\nAll vectors passed.\n" else "\n" ++ failures.repr ++ " failure(s).\n"

/-- What a run leaves behind: all that it has printed, the records of its log left out, and its exit
code. -/
structure Report where
  output : String
  errors : String
  exitCode : Nat
  deriving DecidableEq

/-- What is printed about all benches of a run.  Each bench adds to what has been printed, and
counted, before it. -/
def body (read : FileReader) (wording : String → String) (args : List String) : Transcript :=
  if args.isEmpty then Bundled.benches.foldl (fun t b => t ++ bundledTranscript wording b) {}
  else args.foldl (fun t path => t ++ fileTranscript read wording path) {}

/-- A run of the program.  Standard output is modelled without the records of the log, which the
program writes there too, as the filter in its environment says.  In the error lines,
`wording path` says what is wrong with a text at `path` that is not the JSON form of a bench. -/
def run (read : FileReader) (args : List String)
    (wording : String → String := fun _ => BenchError.notABenchDetail) : Report :=
  let t := body read wording args
  ⟨header ++ t.output ++ closing t.failures, t.errors, if t.failures = 0 then 0 else 1⟩

/-! ### The files of a run -/

/-- The paths of the netlists that a bench names, as seen from the directory of its file. -/
def netlistPaths (path text : String) : List String :=
  match Bench.read? path text with
  | .ok b => ((b.library.entries.map (·.2.netlist)) ++ [b.netlist]).filterMap fun source =>
    match source with
    | .path p => some (Path.join (Path.parent path) p)
    | .inline _ => none
  | .error _ => []

end CommandLine

end LogicBlock
