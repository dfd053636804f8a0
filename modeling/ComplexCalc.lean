import ComplexCalc.Log
import ComplexCalc.Main
import ComplexCalc.Node
import ComplexCalc.Proofs.Parsing
import ComplexCalc.Tables
import ComplexCalc.Text.Letter
import ComplexCalc.Proofs.Acceptance
import ComplexCalc.Proofs.Doubles
import ComplexCalc.Proofs.EarliestError
import ComplexCalc.Proofs.Coverage
import ComplexCalc.Proofs.Evaluation
import ComplexCalc.Proofs.Frame
import ComplexCalc.Proofs.Escapes
import ComplexCalc.Proofs.LineFrame
import ComplexCalc.Proofs.Protection
import ComplexCalc.Proofs.Aliasing
import ComplexCalc.Proofs.Refusals
import ComplexCalc.Proofs.Sessions
import ComplexCalc.Proofs.Constants
import ComplexCalc.Proofs.Readings
import ComplexCalc.Proofs.Agreement
import ComplexCalc.Proofs.Sums
import ComplexCalc.Proofs.Locality
import ComplexCalc.Proofs.NearestDouble
import ComplexCalc.Proofs.ShortestDecimal
import ComplexCalc.Proofs.Numerals
import ComplexCalc.Proofs.RealTexts
import ComplexCalc.Proofs.Blanks
import ComplexCalc.Proofs.Spelling
import ComplexCalc.Proofs.Printing
import ComplexCalc.Proofs.Debugging
import ComplexCalc.Proofs.Reckoning
import ComplexCalc.Proofs.NumberTexts
import ComplexCalc.Proofs.ReadingBack
import ComplexCalc.Proofs.DisplayedNumbers
import ComplexCalc.Edits
import ComplexCalc.Proofs.Tags
import ComplexCalc.Proofs.BranchCuts
import ComplexCalc.Proofs.Transcripts
import ComplexCalc.Proofs.Checks
import ComplexCalc.Proofs.Words
import ComplexCalc.Proofs.Queue
import ComplexCalc.Proofs.Transparency
import ComplexCalc.Proofs.Prefixes
import ComplexCalc.Proofs.LiteralGrammar
import ComplexCalc.Proofs.LiteralValues
import ComplexCalc.Proofs.NodeFaults
import ComplexCalc.Proofs.Termination
import ComplexCalc.Proofs.GaussianPowers
import ComplexCalc.Proofs.Modulus
import ComplexCalc.Proofs.MixedOperands
import ComplexCalc.Proofs.RandomIntegers
import ComplexCalc.Proofs.SquareRoots
import ComplexCalc.Proofs.ScientificDisplay
import ComplexCalc.Proofs.BindingOrder
import ComplexCalc.Proofs.Conjugates
import ComplexCalc.Proofs.Factorials
import ComplexCalc.Proofs.TableNames
import ComplexCalc.Proofs.TokenOrder
