/-
**The program.**

It reads the files that its arguments name and the netlists that these files name, runs the command
line on what it has read, and prints the report.  The log is left out.
-/

import LogicBlock.CommandLine

set_option relaxedAutoImplicit false
set_option autoImplicit false

namespace LogicBlock

/-- Reads one file. -/
def readPath (path : String) : IO (Except ReadError String) := do
  try
    let bytes ← IO.FS.readBinFile path
    match String.fromUTF8? bytes with
    | some text => return .ok text
    | none => return .error .notText
  catch e =>
    match e with
    | .noFileOrDirectory .. => return .error .notFound
    | .invalidArgument .. => return .error (if hasNul path then .nulInPath else .nameTooLong)
    | .inappropriateType _ code _ =>
      return .error (if code = 21 then .isADirectory else .notADirectory)
    | _ => return .error (.other (toString e))

/-- Reads the files that the arguments name, and the netlists that these name. -/
def readAll (args : List String) : IO (List (String × Except ReadError String)) := do
  let benches ← args.mapM fun path => return (path, ← readPath path)
  let paths := benches.flatMap fun b =>
    match b.2 with
    | .ok text => CommandLine.netlistPaths b.1 text
    | .error _ => []
  let netlists ← paths.mapM fun path => return (path, ← readPath path)
  return benches ++ netlists

end LogicBlock

open LogicBlock in
def main (args : List String) : IO UInt32 := do
  let files ← readAll args
  let report := CommandLine.run (fun path => (files.lookup path).getD (.error .notFound)) args
  IO.print report.output
  IO.eprint report.errors
  return report.exitCode.toUInt32
