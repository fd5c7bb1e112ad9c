import Protoscript.Main
import Protoscript.Proofs.Arguments
import Protoscript.Proofs.Bounds
import Protoscript.Proofs.CallEvents
import Protoscript.Proofs.ClosureIsolation
import Protoscript.Proofs.CommandLine
import Protoscript.Proofs.DeadFallbacks
import Protoscript.Proofs.DefinitionOrder
import Protoscript.Proofs.DefinitionsInFront
import Protoscript.Proofs.DepthLimit
import Protoscript.Proofs.Diagnostics
import Protoscript.Proofs.DottedAssignment
import Protoscript.Proofs.FunctionTables.Insertions
import Protoscript.Proofs.Grammar.Programs
import Protoscript.Proofs.Grammar.TruePlaces
import Protoscript.Proofs.Identity
import Protoscript.Proofs.Identity.Calls
import Protoscript.Proofs.Identity.Slots
import Protoscript.Proofs.IntegerReading
import Protoscript.Proofs.Layout.Lines
import Protoscript.Proofs.Layout.Spacing
import Protoscript.Proofs.LiteralDecoding
import Protoscript.Proofs.MemberSearch
import Protoscript.Proofs.OperatorLaws
import Protoscript.Proofs.Ownership
import Protoscript.Proofs.Places
import Protoscript.Proofs.Provenance
import Protoscript.Proofs.Recovery
import Protoscript.Proofs.ReferenceParameters
import Protoscript.Proofs.Reuse
import Protoscript.Proofs.Shadowing
import Protoscript.Proofs.Termination
import Protoscript.Proofs.UnreadInput
import Protoscript.Proofs.UnwrittenVariables
import Protoscript.Proofs.Bounds
