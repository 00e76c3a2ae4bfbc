import PawnNative.Code.LabelTable
import PawnNative.CommandLine
import PawnNative.Fault
import PawnNative.Image.Builder
import PawnNative.Image.Source
import PawnNative.Instance
import PawnNative.Instance.Summary
import PawnNative.Instruction.Cursor
import PawnNative.Main
import PawnNative.Native.Probe
import PawnNative.Opcode
import PawnNative.Proofs.Acceptance
import PawnNative.Proofs.Assembled
import PawnNative.Proofs.Branches
import PawnNative.Proofs.Conditions
import PawnNative.Proofs.Effects
import PawnNative.Proofs.Encoding
import PawnNative.Proofs.Execution
import PawnNative.Proofs.Extent
import PawnNative.Proofs.Layout
import PawnNative.Proofs.Loading
import PawnNative.Proofs.Outcome
import PawnNative.Proofs.Patching
import PawnNative.Proofs.Plan
import PawnNative.Proofs.Representation
import PawnNative.Proofs.StraightLine
import PawnNative.Proofs.Translation
import PawnNative.Run.Engine
import PawnNative.X64.Decoding
import PawnNative.Proofs.Accounts
import PawnNative.Proofs.Dispatch
import PawnNative.Proofs.Sections
import PawnNative.Proofs.Building
import PawnNative.Proofs.Calling
import PawnNative.Proofs.Exits
import PawnNative.Proofs.Inlining
import PawnNative.Proofs.Division
import PawnNative.Proofs.Indirect
import PawnNative.Proofs.Blocks
import PawnNative.Proofs.Limits
import PawnNative.Proofs.Switches
import PawnNative.Proofs.CodeMap
import PawnNative.Proofs.UpperHalves
import PawnNative.Proofs.Comparisons
import PawnNative.Proofs.Finishing
import PawnNative.Proofs.Entries
import PawnNative.Proofs.Transparency
import PawnNative.Proofs.NativeForms
import PawnNative.Proofs.HostOperations
import PawnNative.Proofs.HeapTexts
import PawnNative.Proofs.StackView
import PawnNative.Proofs.Displacements
import PawnNative.Proofs.Iterations
import PawnNative.Proofs.Markers
import PawnNative.Proofs.Registrations
import PawnNative.Proofs.Labelling
import PawnNative.Proofs.Sealing
