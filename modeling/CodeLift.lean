import CodeLift.Address
import CodeLift.Annotation
import CodeLift.Architecture
import CodeLift.Block
import CodeLift.Classify
import CodeLift.CodeMap.Basic
import CodeLift.CodeMap.Finish
import CodeLift.CodeMap.Split
import CodeLift.CommandLine.FileSystem
import CodeLift.CommandLine.Options
import CodeLift.CommandLine.Program
import CodeLift.Decoder
import CodeLift.Disassembly.Basic
import CodeLift.Disassembly.Table
import CodeLift.Discovery
import CodeLift.Error
import CodeLift.Event
import CodeLift.Flow
import CodeLift.FlowGraph
import CodeLift.FlowRule
import CodeLift.Insn
import CodeLift.Json
import CodeLift.Lift
import CodeLift.Listing.Basic
import CodeLift.Listing.Command
import CodeLift.Listing.Document
import CodeLift.Listing.Records
import CodeLift.Listing.Text
import CodeLift.Log
import CodeLift.Main
import CodeLift.Op
import CodeLift.Operands
import CodeLift.Proofs.Annotation
import CodeLift.Proofs.AnyBlocks
import CodeLift.Proofs.AnyDecoder
import CodeLift.Proofs.AnyOrder
import CodeLift.Proofs.ArmBranches
import CodeLift.Proofs.AssemblyNotes
import CodeLift.Proofs.Attempts
import CodeLift.Proofs.Classify
import CodeLift.Proofs.Commands
import CodeLift.Proofs.Completion
import CodeLift.Proofs.Coverage
import CodeLift.Proofs.Decorations
import CodeLift.Proofs.Diagnostics
import CodeLift.Proofs.Digits
import CodeLift.Proofs.DirectTargets
import CodeLift.Proofs.Disassembly
import CodeLift.Proofs.Discovery
import CodeLift.Proofs.Document
import CodeLift.Proofs.Edges
import CodeLift.Proofs.Failures
import CodeLift.Proofs.Faultless
import CodeLift.Proofs.Filling
import CodeLift.Proofs.FlowGraph
import CodeLift.Proofs.Hints
import CodeLift.Proofs.Immediates
import CodeLift.Proofs.Indentation
import CodeLift.Proofs.Json
import CodeLift.Proofs.Layout
import CodeLift.Proofs.Lifting
import CodeLift.Proofs.Limit
import CodeLift.Proofs.MapHistory
import CodeLift.Proofs.MapInvariant
import CodeLift.Proofs.Numbering
import CodeLift.Proofs.Numerals
import CodeLift.Proofs.OperandLists
import CodeLift.Proofs.Policies
import CodeLift.Proofs.Reach
import CodeLift.Proofs.Records
import CodeLift.Proofs.Resolution
import CodeLift.Proofs.Scan
import CodeLift.Proofs.SigmaForms
import CodeLift.Proofs.SplitOrder
import CodeLift.Proofs.Splitting
import CodeLift.Proofs.StepIdentities
import CodeLift.Proofs.Stretch
import CodeLift.Proofs.StretchBlock
import CodeLift.Proofs.Termination
import CodeLift.Proofs.TextListing
import CodeLift.Proofs.Trace
import CodeLift.Proofs.Transcript
import CodeLift.Proofs.Worklist
import CodeLift.Proofs.WorklistRuns
import CodeLift.Registry
import CodeLift.ReturnPolicy
import CodeLift.Scan
import CodeLift.Text.Blank
import CodeLift.Text.CaseTable
import CodeLift.Text.Hex
import CodeLift.Text.Lowercase
import CodeLift.Text.Number
import CodeLift.Text.Piece
import CodeLift.Worklist.Queue
import CodeLift.Worklist.Stack
