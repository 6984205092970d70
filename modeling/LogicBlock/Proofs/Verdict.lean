/-
**A run on several arguments, and its verdict.**

A run of the program goes through its arguments with one count of failures, and prints as it goes.
All that one argument hands on to the next is this count and what has been printed, and it only adds
to them.  So a run prints what the runs on the single arguments print, one after the other, in one
frame; its verdict is on the sum of their failures.

What a single argument adds to the sum is said without the program: one failure if there is no
block, and otherwise one for every vector that expects a level which the outputs do not show, when
the vectors are settled in order on a block that is new.  There is no block if the file cannot be
read, or its text is not that of a bench, or the bench does not pass its checks.

Main definitions:

* `PinMap.IsSubmap`, `TestVector.MetBy` — outputs show what a vector expects;
* `LoadedBench.unmet`, `CommandLine.failures` — the failures of a bench, and of an argument;
* `CommandLine.total`, `CommandLine.errorLine` — the failures of a run; what standard error shows
  about an argument.

Main results:

* `TestVector.countP_applyAll` — the outcomes that do not pass, counted by the answers of the block;
* `LoadedBench.block_of_ofFile` — a bench is loaded with a new block;
* `CommandLine.failures_of_faultAt`, `CommandLine.failures_of_isAt` — **what an argument counts**,
  by what is at its path;
* `Transcript.foldl_append` — **a run over many benches**, by what each of them prints;
* `CommandLine.run_joins_arguments` — **no argument has an influence on another**, and the exit code
  and the last line tell whether anything has failed.
-/

import LogicBlock.Block.History
import LogicBlock.CommandLine
import LogicBlock.Proofs.Building
import Mathlib.Algebra.GroupWithZero.Nat

set_option relaxedAutoImplicit false
set_option autoImplicit false

namespace LogicBlock

/-! ### What a vector expects -/

/-- Every entry of the first table is an entry of the second. -/
def PinMap.IsSubmap (m n : PinMap) : Prop :=
  ∀ pin v, m.get? pin = some v → n.get? pin = some v

theorem PinMap.isSubmap_iff {m n : PinMap} :
    m.IsSubmap n ↔ ∀ e ∈ m.entries, n.get? e.1 = some e.2 := by
  constructor
  · intro h e he
    exact h e.1 e.2 ((m.mem_entries_iff e.1 e.2).1 he)
  · intro h pin v hv
    exact h (pin, v) ((m.mem_entries_iff pin v).2 hv)

instance (m n : PinMap) : Decidable (m.IsSubmap n) :=
  decidable_of_iff _ PinMap.isSubmap_iff.symm

namespace TestVector

/-- A call answers as the vector expects, if the vector expects anything. -/
def MetBy (v : TestVector) (answer : Option PinMap) : Prop :=
  ∀ expected ∈ v.expect, ∃ outputs ∈ answer, expected.IsSubmap outputs

instance (v : TestVector) (answer : Option PinMap) : Decidable (v.MetBy answer) :=
  inferInstanceAs (Decidable (∀ expected ∈ v.expect, ∃ outputs ∈ answer, expected.IsSubmap outputs))

/-- A vector is applied by a call. -/
theorem apply_block (v : TestVector) (b : Block) : (v.apply b).2 = (b.call (.settle v.inputs)).2 :=
  rfl

/-- **The outcome of a vector passes** exactly when the call answers as the vector expects. -/
theorem passed_apply_iff (v : TestVector) (b : Block) :
    (v.apply b).1.passed ↔ v.MetBy (b.call (.settle v.inputs)).1 := by
  have hanswer : (b.call (.settle v.inputs)).1 = some (v.apply b).1.outputs := rfl
  have hexpected : (v.apply b).1.expected = v.expect := rfl
  rw [MetBy, hanswer, Outcome.passed, hexpected]
  cases v.expect <;> simp [PinMap.isSubmap_iff]

/-- **As many outcomes fail as there are vectors that are not met**, when the vectors are applied
one after the other, from any block. -/
theorem countP_applyAll (vectors : List TestVector) (b : Block) :
    (applyAll b vectors).1.countP (fun o => !o.passed) =
      (vectors.zip (b.answers (vectors.map fun v => .settle v.inputs))).countP
        fun p => ¬p.1.MetBy p.2 := by
  induction vectors generalizing b with
  | nil => rfl
  | cons v rest ih =>
      have hstep : (!(v.apply b).1.passed) = decide ¬v.MetBy (b.call (.settle v.inputs)).1 := by
        rw [Bool.eq_iff_iff, decide_eq_true_iff, ← passed_apply_iff, Bool.not_eq_true',
          Bool.not_eq_true]
      have hrest := ih (v.apply b).2
      rw [apply_block] at hrest
      simp only [applyAll, List.map_cons, Block.answers, List.zip_cons_cons, List.countP_cons,
        apply_block, hrest, hstep]

end TestVector

/-! ### The failures of a bench -/

namespace LoadedBench

/-- The vectors that are not met when all of them are settled in order on a new block. -/
def unmet (l : LoadedBench) : Nat :=
  let answers := (Block.ofDesign l.block.design).answers
    (l.bench.vectors.map fun v => .settle v.inputs)
  (l.bench.vectors.zip answers).countP fun p => ¬p.1.MetBy p.2

/-- **A bench is loaded with a new block.** -/
theorem block_of_ofBench {read : FileReader} {base : String} {b : Bench} {l : LoadedBench}
    (h : ofBench read base b = .ok l) : l.block = .ofDesign l.block.design := by
  obtain ⟨d, -, rfl⟩ := ofBench_eq_ok_iff.1 h
  rfl

theorem block_of_ofFile {read : FileReader} {path : String} {l : LoadedBench}
    (h : ofFile read path = .ok l) : l.block = .ofDesign l.block.design := by
  unfold ofFile at h
  split at h
  · cases h
  · split at h
    · exact block_of_ofBench h
    · cases h

/-- What is counted when a bench runs on a new block are the vectors that are not met. -/
theorem failures_transcript {l : LoadedBench} (h : l.block = .ofDesign l.block.design) :
    l.transcript.failures = l.unmet := by
  change ((TestVector.applyAll l.block l.bench.vectors).1.filter fun o => !o.passed).length = _
  rw [← List.countP_eq_length_filter, TestVector.countP_applyAll, unmet, ← h]

end LoadedBench

/-! ### One transcript after another -/

namespace Transcript

theorem append_eq (t u : Transcript) :
    t ++ u = ⟨t.output ++ u.output, t.errors ++ u.errors, t.failures + u.failures⟩ :=
  rfl

/-- **A loop that adds a transcript in every round** has in the end, behind what was there before,
what the rounds have added, in their order. -/
theorem foldl_append {α : Type} (f : α → Transcript) (items : List α) (t : Transcript) :
    items.foldl (fun t item => t ++ f item) t =
      t ++ ⟨String.join (items.map fun item => (f item).output),
        String.join (items.map fun item => (f item).errors),
        (items.map fun item => (f item).failures).sum⟩ := by
  induction items generalizing t with
  | nil => simp [append_eq]
  | cons item rest ih =>
      rw [List.foldl_cons, ih]
      simp only [append_eq, List.map_cons, List.sum_cons, String.join_cons, String.append_assoc,
        Nat.add_assoc]

end Transcript

/-! ### A run -/

namespace CommandLine

/-- The failures of an argument: one if there is no bench to load, and otherwise one for every
vector of the bench that is not met. -/
def failures (read : FileReader) (path : String) : Nat :=
  match LoadedBench.ofFile read path with
  | .ok l => l.unmet
  | .error _ => 1

/-- The failures of a run on arguments: those of each argument, whatever the others are. -/
def total (read : FileReader) (args : List String) : Nat :=
  (args.map (failures read)).sum

/-- What is said about an argument if there is no bench to load. -/
def errorLine (read : FileReader) (wording : String → String) (path : String) : String :=
  match LoadedBench.ofFile read path with
  | .ok _ => ""
  | .error e => "Failed to load " ++ path ++ ": " ++ e.message wording ++ "\n"

section Argument

variable {read : FileReader} {path : String}

/-- **An argument counts once** if there is anything wrong with its file or with the bench in it,
and the first thing that is wrong is said. -/
theorem failures_of_faultAt {e : BenchError} (h : LoadedBench.FaultAt read path e) :
    failures read path = 1 ∧ ∀ wording,
      errorLine read wording path =
        "Failed to load " ++ path ++ ": " ++ e.message wording ++ "\n" := by
  have hload := LoadedBench.ofFile_eq_error_iff.2 h
  refine ⟨?_, fun wording => ?_⟩
  · rw [failures, hload]
  · rw [errorLine, hload]

/-- In a file tree, the netlist that a bench names is looked for in the directory of the bench. -/
example :
    errorLine (FileTree.ofFiles [("nets/half.json",
        "\x7b\"name\": \"half\", \"netlist\": \x7b\"path\": \"half.net\"\x7d\x7d".toUTF8)]).read
        (fun _ => "") "nets/half.json" =
      "Failed to load nets/half.json: failed to read 'nets/half.net': " ++
        "No such file or directory (os error 2)\n" := by
  decide +kernel

/-- **The vectors count that are not met**, if a file has a bench in it that passes its checks: they
are settled on a new block of the design that is built in the directory of the file. -/
theorem failures_of_isAt {b : Bench} (hbench : b.IsAt read path)
    (hchecks : ∀ check ∈ b.checks, check.fault? read (Path.parent path) = none) :
    ∃ d, b.design read (Path.parent path) = .ok d ∧
      failures read path = LoadedBench.unmet ⟨b, .ofDesign d⟩ ∧
      ∀ wording, errorLine read wording path = "" := by
  obtain ⟨l, hl⟩ := LoadedBench.exists_ofBench_eq_ok_iff.2 hchecks
  obtain ⟨d, hdesign, rfl⟩ := LoadedBench.ofBench_eq_ok_iff.1 hl
  rw [← LoadedBench.ofFile_of_isAt hbench] at hl
  refine ⟨d, hdesign, ?_, fun wording => ?_⟩
  · rw [failures, hl]
  · rw [errorLine, hl]

end Argument

theorem failures_fileTranscript (read : FileReader) (wording : String → String) (path : String) :
    (fileTranscript read wording path).failures = failures read path := by
  rw [fileTranscript, failures]
  cases hload : LoadedBench.ofFile read path with
  | ok l => exact LoadedBench.failures_transcript (LoadedBench.block_of_ofFile hload)
  | error e => rfl

theorem errors_fileTranscript (read : FileReader) (wording : String → String) (path : String) :
    (fileTranscript read wording path).errors = errorLine read wording path := by
  rw [fileTranscript, errorLine]
  cases LoadedBench.ofFile read path <;> rfl

/-- What is printed about arguments, if there are any. -/
theorem body_cons (read : FileReader) (wording : String → String) (path : String)
    (rest : List String) :
    body read wording (path :: rest) =
      ⟨String.join ((path :: rest).map fun arg => (fileTranscript read wording arg).output),
        String.join ((path :: rest).map (errorLine read wording)), total read (path :: rest)⟩ := by
  have hloop : body read wording (path :: rest) =
      (path :: rest).foldl (fun t arg => t ++ fileTranscript read wording arg) {} := rfl
  rw [hloop, Transcript.foldl_append]
  simp only [Transcript.append_eq, failures_fileTranscript, errors_fileTranscript,
    String.empty_append, Nat.zero_add, total]

/-- The last line says that all is well only if it is. -/
theorem closing_eq_iff (count : Nat) : closing count = "\nAll vectors passed.\n" ↔ count = 0 := by
  rw [closing]
  split
  · simp [*]
  · refine iff_of_false (fun heq => ?_) ‹_›
    -- the two lines differ in the third character from the end
    have hend := congrArg (fun line : String => line.toList.reverse[2]?) heq
    simp at hend

/-- **A run on several arguments is the runs on each of them.**  Between the header and the closing
line stands what each argument prints in a run of its own, in the order of the arguments; the error
lines follow each other in the same order, whatever the words for a text that is not a bench.  The
failures add up, and the exit code and the closing line are those of a success exactly when there
are none. -/
theorem run_joins_arguments (read : FileReader) (wording : String → String) (path : String)
    (rest : List String) :
    ∃ part : String → String,
      (∀ arg, (run read [arg] wording).output =
        header ++ part arg ++ closing (failures read arg)) ∧
      (∀ arg, (run read [arg] wording).errors = errorLine read wording arg) ∧
      (run read (path :: rest) wording).output =
        header ++ String.join ((path :: rest).map part) ++ closing (total read (path :: rest)) ∧
      (run read (path :: rest) wording).errors =
        String.join ((path :: rest).map fun arg => (run read [arg] wording).errors) ∧
      (run read (path :: rest) wording).exitCode =
        (if total read (path :: rest) = 0 then 0 else 1) ∧
      (closing (total read (path :: rest)) = "\nAll vectors passed.\n" ↔
        total read (path :: rest) = 0) ∧
      (total read (path :: rest) ≠ 0 →
        closing (total read (path :: rest)) =
          "\n" ++ (total read (path :: rest)).repr ++ " failure(s).\n") := by
  have halone : ∀ arg, body read wording [arg] = ⟨(fileTranscript read wording arg).output,
      errorLine read wording arg, failures read arg⟩ := fun arg => by
    rw [body_cons]
    simp [total]
  refine ⟨fun arg => (fileTranscript read wording arg).output, fun arg => ?_, fun arg => ?_, ?_, ?_,
    ?_, closing_eq_iff _, fun htotal => if_neg htotal⟩
  · rw [run, halone]
  · rw [run, halone]
  · rw [run, body_cons]
  · simp only [run, halone, body_cons]
  · rw [run, body_cons]

/-- An argument that is named twice counts twice. -/
example :
    run (fun _ => .error .notFound) ["a", "a"] =
      ⟨header ++ "\n2 failure(s).\n",
        "Failed to load a: failed to read 'a': No such file or directory (os error 2)\n" ++
          "Failed to load a: failed to read 'a': No such file or directory (os error 2)\n", 1⟩ := by
  decide +kernel

end CommandLine

end LogicBlock
