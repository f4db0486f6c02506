import Lowering.Files.Tree
import Lowering.Instruction.Outline
import Lowering.Main
import Lowering.Proofs.Code.Meaning
import Lowering.Proofs.Code.References
import Lowering.Proofs.Code.Spelling
import Lowering.Proofs.Command.Effects
import Lowering.Proofs.Compilation.InOrder
import Lowering.Proofs.Compilation.Shares
import Lowering.Proofs.Dependency.Mentions
import Lowering.Proofs.Dependency.Reported
import Lowering.Proofs.Diagnostic.Labels
import Lowering.Proofs.Instruction.Accepted
import Lowering.Proofs.Instruction.Nesting
import Lowering.Proofs.Instruction.RoundTrip
import Lowering.Proofs.Instruction.Truncation
import Lowering.Proofs.Linearize.Acceptance
import Lowering.Proofs.Linearize.AssignedContent
import Lowering.Proofs.Linearize.Complaints
import Lowering.Proofs.Linearize.Coverage
import Lowering.Proofs.Linearize.Graph
import Lowering.Proofs.Linearize.Numbering
import Lowering.Proofs.Linearize.Settled
import Lowering.Proofs.Linearize.Walk
import Lowering.Proofs.Member.Announcements
import Lowering.Proofs.Output.Collisions
import Lowering.Proofs.Output.EncodedTree
import Lowering.Proofs.Output.Failures
import Lowering.Proofs.Output.Isolation
import Lowering.Proofs.Output.Loading
import Lowering.Proofs.Output.Placement
import Lowering.Proofs.Output.Plan
import Lowering.Proofs.Output.PrivateMembers
import Lowering.Proofs.Output.Reordered
import Lowering.Proofs.Output.Required
import Lowering.Proofs.Output.Requirements
import Lowering.Proofs.Output.Stages
import Lowering.Proofs.Output.Surface
import Lowering.Proofs.Output.Uses
import Lowering.Proofs.Output.Wiring
import Lowering.Proofs.Output.Written
import Lowering.Proofs.Script.Quoted
import Lowering.Proofs.Source.Preorder
import Lowering.Proofs.Source.Unfolding
import Lowering.Proofs.Symbol.Agreement
import Lowering.Proofs.Symbol.Ancestry
import Lowering.Proofs.Symbol.Cycles
import Lowering.Proofs.Symbol.Definitions
import Lowering.Proofs.Symbol.Identifiers
import Lowering.Proofs.Symbol.InStep
import Lowering.Source.Build
