import Calculator.Main
import Calculator.Proofs.Outline
import Calculator.Proofs.Recognition
import Calculator.Proofs.Simulation
import Calculator.Proofs.TwoPasses
import Calculator.Proofs.Acceptance
import Calculator.Proofs.Tokenization
import Calculator.Proofs.Diagnosis
import Calculator.Proofs.FirstFault
import Calculator.Proofs.Remainder
import Calculator.Proofs.NestingLimit
import Calculator.Proofs.Evidence
import Calculator.Proofs.RoundTrip
import Calculator.Proofs.Locality
import Calculator.Proofs.Spacing
import Calculator.Proofs.Composition
import Calculator.Proofs.Transcript
import Calculator.Proofs.Scripts
import Calculator.Proofs.OneShot
import Calculator.Proofs.Bookkeeping
import Calculator.Proofs.Aftermath
import Calculator.Proofs.Literals
import Calculator.Proofs.ReadBack
import Calculator.Proofs.Quotation
import Calculator.Proofs.Numerals
import Calculator.Proofs.WholeNumbers
import Calculator.Proofs.Consumption
import Calculator.Proofs.Passages
import Calculator.Proofs.Resources
import Calculator.Proofs.ExactResults
import Calculator.Proofs.Finiteness
import Calculator.Proofs.LimitedOutput
import Calculator.Proofs.Unambiguity
import Calculator.Proofs.Recording
import Calculator.Proofs.Records
import Calculator.Proofs.Logs
import Calculator.Proofs.Seams
import Calculator.Proofs.Displacement
