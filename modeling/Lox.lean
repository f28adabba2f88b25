import Lox.Main
import Lox.Proofs.Spelling
import Lox.Proofs.WellFormed
import Lox.Proofs.Fits
import Lox.Proofs.ParsedTrees
import Lox.Proofs.Agreement.Entering
import Lox.Proofs.Agreement.Evaluation
import Lox.Proofs.Agreement.Execution
import Lox.Proofs.Agreement.Programs
import Lox.Proofs.Receivers
import Lox.Proofs.Soundness
import Lox.Proofs.Grammar.Acceptance
import Lox.Proofs.Printing.Inverse
import Lox.Proofs.Refusals
import Lox.Proofs.Joining.Units
import Lox.Proofs.Likeness.Layout
import Lox.Proofs.Segmentation.Tokens
import Lox.Proofs.Outcomes.Scripts
import Lox.Proofs.Dialogues.Gathering
import Lox.Proofs.Dialogues.Stopping
import Lox.Proofs.Dialogues.Holding
import Lox.Proofs.Recovery.Declarations
import Lox.Proofs.Recovery.Malformed
import Lox.Proofs.Recovery.Dropping
import Lox.Proofs.Recovery.Isolation
import Lox.Proofs.Recovery.OpenBlocks
import Lox.Proofs.Recovery.Progress
import Lox.Proofs.Distances.Programs
import Lox.Proofs.Restoration
import Lox.Proofs.Misuses.Walking
import Lox.Proofs.Misuses.Reporting
import Lox.Proofs.Returning.Shedding
import Lox.Proofs.Returning.Running
import Lox.Proofs.Returning.Leaving
import Lox.Proofs.Returning.Sessions
import Lox.Proofs.Globals.Sparing
import Lox.Proofs.Globals.Declaring
import Lox.Proofs.Globals.Programs
import Lox.Proofs.Segmentation.Lines
import Lox.Proofs.Loops.Counting
import Lox.Proofs.Lineage.Declarations
import Lox.Proofs.Lineage.Histories
import Lox.Proofs.Lineage.Lookup
import Lox.Proofs.Calls.Admission
import Lox.Proofs.Calls.Protocol
import Lox.Proofs.Segmentation.Composition
import Lox.Proofs.Dialogues.Matching
import Lox.Proofs.Outcomes.Lines
import Lox.Proofs.Records
import Lox.Proofs.Identities
import Lox.Proofs.Numerals.Echo
import Lox.Proofs.Hops
import Lox.Proofs.Growth.Sessions
