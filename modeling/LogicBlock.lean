import LogicBlock.Block.History
import LogicBlock.Main
import LogicBlock.Wiring
import LogicBlock.Proofs.Elements
import LogicBlock.Proofs.Runs
import LogicBlock.Proofs.Drive
import LogicBlock.Proofs.ElementOrder
import LogicBlock.Proofs.Acyclic
import LogicBlock.Proofs.CleanReport
import LogicBlock.Proofs.Fields
import LogicBlock.Proofs.Records
import LogicBlock.Proofs.RoundTrip
import LogicBlock.Proofs.Information
import LogicBlock.Proofs.LeastSolution
import LogicBlock.Proofs.Reached
import LogicBlock.Proofs.Memoryless
import LogicBlock.Proofs.ColdStart
import LogicBlock.Proofs.NorPolicies
import LogicBlock.Proofs.Cone
import LogicBlock.Proofs.Grammar
import LogicBlock.Proofs.Entries
import LogicBlock.Proofs.AbsentPins
import LogicBlock.Proofs.BuiltDrive
import LogicBlock.Proofs.Registrations
import LogicBlock.Proofs.Groups
import LogicBlock.Proofs.Latch
import LogicBlock.Proofs.Building
import LogicBlock.Proofs.Embedding
import LogicBlock.Proofs.Refusals
import LogicBlock.Proofs.ErrorLines
import LogicBlock.Proofs.WarningList
import LogicBlock.Proofs.Verdict
import LogicBlock.Proofs.RepeatedNames
import LogicBlock.Proofs.Renaming
import LogicBlock.Proofs.HeldInputs
import LogicBlock.Proofs.CarriedInputs
import LogicBlock.Proofs.UnusedEntries
import LogicBlock.Proofs.JsonForms
import LogicBlock.Proofs.Layout
import LogicBlock.Proofs.Wires
