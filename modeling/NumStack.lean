import NumStack.Binary.Bits
import NumStack.Main
import NumStack.Proofs.FiniteOperands
import NumStack.Proofs.Grammar
import NumStack.Proofs.IntegerArith
import NumStack.Proofs.Policy
import NumStack.Proofs.Shortest
import NumStack.Proofs.Literals
import NumStack.Proofs.Lexemes
import NumStack.Proofs.Listing
import NumStack.Proofs.Steps
import NumStack.Proofs.Runs
import NumStack.Proofs.Recording
import NumStack.Proofs.RunEnds
import NumStack.Proofs.Calls
import NumStack.Proofs.KindStack
import NumStack.Proofs.ExitContract
import NumStack.Proofs.TokenLayout
import NumStack.Proofs.WholeLines
import NumStack.Proofs.MovedLines
import NumStack.Proofs.LineIndependence
import NumStack.Proofs.Assembled
import NumStack.Proofs.PipelineOutcome
import NumStack.Proofs.Formatting
import NumStack.Proofs.BoundedOutput
import NumStack.Proofs.CorrespondingTokens
import NumStack.Proofs.Breaks
import NumStack.Proofs.SessionLines
import NumStack.Proofs.TerminatorLines
import NumStack.Proofs.TerminatedText
import NumStack.Proofs.SessionText
import NumStack.Proofs.LiteralGrammar
import NumStack.Proofs.LiteralValues
import NumStack.Proofs.CommandAgreement
import NumStack.Proofs.FailedSteps
import NumStack.Proofs.AssertedValues
import NumStack.Proofs.ExactValues
import NumStack.Proofs.RangeFaults
import NumStack.Proofs.DoubleRounding
import NumStack.Proofs.SingleArith
import NumStack.Proofs.Frame
import NumStack.Proofs.FaultPlaces
import NumStack.Proofs.FaultShape
import NumStack.Proofs.NumberTokens
import NumStack.Proofs.SessionBytes
import NumStack.Proofs.Cursor
import NumStack.Proofs.ParserProgress
