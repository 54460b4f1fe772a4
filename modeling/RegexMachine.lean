import RegexMachine.Program.Listing
import RegexMachine.Regex.Replace
import RegexMachine.Tree.Builder
import RegexMachine.Proofs.Outcomes.Matcher
import RegexMachine.Proofs.Capture.Replay
import RegexMachine.Proofs.Capture.Undo
import RegexMachine.Proofs.Tree.Occurrences
import RegexMachine.Proofs.Program.Composition
import RegexMachine.Proofs.Program.Block
import RegexMachine.Proofs.Program.Emission
import RegexMachine.Proofs.Program.Writer
import RegexMachine.Proofs.Program.Compile
import RegexMachine.Proofs.Outcomes.Within
import RegexMachine.Proofs.Machine.Status
import RegexMachine.Proofs.Simulation.Delivers
import RegexMachine.Proofs.Simulation.Reading
import RegexMachine.Proofs.Simulation.Leaf
import RegexMachine.Proofs.Simulation.Compose
import RegexMachine.Proofs.Simulation.Capture
import RegexMachine.Proofs.Simulation.Sealed
import RegexMachine.Proofs.Simulation.Conditional
import RegexMachine.Proofs.Simulation.CharLoop
import RegexMachine.Proofs.Simulation.Loop
import RegexMachine.Proofs.Simulation.Tree
import RegexMachine.Proofs.Simulation.Attempt
import RegexMachine.Proofs.Tree.Construction
import RegexMachine.Proofs.Tree.Finished
import RegexMachine.Proofs.Tree.AtomicPosition
import RegexMachine.Proofs.Outcomes.Agreement
import RegexMachine.Proofs.Attempts.Plain
import RegexMachine.Proofs.Attempts.FirstOutcome
import RegexMachine.Proofs.Scan.Candidates
import RegexMachine.Proofs.Attempts.Termination
import RegexMachine.Proofs.Attempts.Results
import RegexMachine.Proofs.Scan.FirstHit
import RegexMachine.Proofs.Regex.History
import RegexMachine.Proofs.Attempts.Extent
import RegexMachine.Proofs.Regex.Iteration
import RegexMachine.Proofs.Regex.Replacing
import RegexMachine.Proofs.Replacement.Written
import RegexMachine.Proofs.Regex.Splitting
import RegexMachine.Proofs.Regex.Naming
import RegexMachine.Proofs.Character.Lowercase
import RegexMachine.Proofs.Tree.Shared
import RegexMachine.Proofs.Program.Operands
import RegexMachine.Proofs.Program.WellFormed
import RegexMachine.Proofs.Direct.Imitation
import RegexMachine.Proofs.Direct.Date
import RegexMachine.Proofs.Direct.WordThenDigit
import RegexMachine.Proofs.Direct.Quoted
import RegexMachine.Proofs.Direct.Agreement
import RegexMachine.Proofs.Regex.Timeout
import RegexMachine.Proofs.Mirror.Outcomes
import RegexMachine.Proofs.Mirror.Construction
import RegexMachine.Proofs.Mirror.Tree
import RegexMachine.Proofs.Mirror.Search
import RegexMachine.Proofs.Capture.Changes
import RegexMachine.Proofs.Regex.Lockstep
import RegexMachine.Proofs.Regex.Faultless
import RegexMachine.Proofs.Program.CaseBlind
import RegexMachine.Proofs.Regex.CaseBlindness
import RegexMachine.Proofs.Text.Folding
import RegexMachine.Proofs.Program.Sharing
import RegexMachine.Proofs.Capture.Ledger
import RegexMachine.Proofs.Capture.Balancing
import RegexMachine.Proofs.Regex.Spelling
import RegexMachine.Proofs.Attempts.Once
import RegexMachine.Proofs.Attempts.Idle
import RegexMachine.Proofs.Character.ClassFolding
import RegexMachine.Proofs.Program.DepthLimit
import RegexMachine.Proofs.Simulation.CharCounts
