import StackMachine.Word
import StackMachine.Text
import StackMachine.Decimal.Fraction
import StackMachine.Decimal.Numeral
import StackMachine.Decimal.Shortest
import StackMachine.Binary64
import StackMachine.Value
import StackMachine.Opcode
import StackMachine.Operand
import StackMachine.Instruction
import StackMachine.Fault
import StackMachine.Allocator
import StackMachine.Buffer
import StackMachine.Chunk
import StackMachine.Listing.Row
import StackMachine.Listing
import StackMachine.Stack
import StackMachine.Log
import StackMachine.Machine.Basic
import StackMachine.Machine.Event
import StackMachine.Machine.Run
import StackMachine.Expression
import StackMachine.CommandLine.Options
import StackMachine.CommandLine.Session
import StackMachine.Main
import StackMachine.Proofs.Acceptance
import StackMachine.Proofs.Evaluation
import StackMachine.Proofs.Growth
import StackMachine.Proofs.Prediction
import StackMachine.Proofs.Programs
import StackMachine.Proofs.Reuse
import StackMachine.Proofs.Drafts
import StackMachine.Proofs.Logging
import StackMachine.Proofs.Limits
import StackMachine.Proofs.Equality
import StackMachine.Proofs.Histories
import StackMachine.Proofs.Sessions
import StackMachine.Proofs.ConstantLoads
import StackMachine.Proofs.Fetching
import StackMachine.Proofs.Batches
import StackMachine.Proofs.Display
import StackMachine.Proofs.LineMarks
import StackMachine.Proofs.Composition
import StackMachine.Proofs.Addressing
import StackMachine.Proofs.FaultPlaces
import StackMachine.Proofs.Termination
import StackMachine.Proofs.FaultTexts
import StackMachine.Proofs.ListingTexts
