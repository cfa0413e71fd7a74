import LineCalculator.Main
import LineCalculator.Proofs.Change
import LineCalculator.Proofs.Items
import LineCalculator.Proofs.Lexeme
import LineCalculator.Proofs.Coverage
import LineCalculator.Proofs.Moves
import LineCalculator.Proofs.Stability
import LineCalculator.Proofs.Tree
import LineCalculator.Proofs.Grammar
import LineCalculator.Proofs.Progress
import LineCalculator.Proofs.Recognition
import LineCalculator.Proofs.Reading
import LineCalculator.Proofs.Simulation
import LineCalculator.Proofs.Evaluation
import LineCalculator.Proofs.Exact
import LineCalculator.Proofs.Interruption
import LineCalculator.Proofs.Conservation
import LineCalculator.Proofs.Splitting
import LineCalculator.Proofs.Spelling
import LineCalculator.Proofs.Acceptance
import LineCalculator.Proofs.Lookahead
import LineCalculator.Proofs.Segment
import LineCalculator.Proofs.Outcome
import LineCalculator.Proofs.Failure
import LineCalculator.Proofs.Invariant
import LineCalculator.Proofs.Display
import LineCalculator.Proofs.Recovery
import LineCalculator.Proofs.Locality
import LineCalculator.Proofs.Equality
import LineCalculator.Proofs.Replay
import LineCalculator.Proofs.Commutation
import LineCalculator.Proofs.Printing
import LineCalculator.Proofs.Succession
import LineCalculator.Proofs.Transcript
import LineCalculator.Proofs.Agreement
import LineCalculator.Proofs.Bookkeeping
import LineCalculator.Proofs.Wording
import LineCalculator.Proofs.ScriptRun
import LineCalculator.Proofs.DialogueRun
import LineCalculator.Proofs.Truncation
import LineCalculator.Proofs.Spacing
import LineCalculator.Proofs.Offence
import LineCalculator.Proofs.Naming
import LineCalculator.Proofs.Written
import LineCalculator.Proofs.Compound
import LineCalculator.Proofs.Writes
import LineCalculator.Proofs.Termination
import LineCalculator.Proofs.Renaming
import LineCalculator.Proofs.Opacity
import LineCalculator.Proofs.Numerals
import LineCalculator.Proofs.Signs
import LineCalculator.Proofs.Touching
