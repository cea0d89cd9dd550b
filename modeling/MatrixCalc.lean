import MatrixCalc.HexPi.Digit
import MatrixCalc.Main
import MatrixCalc.Matrix.Registers
import MatrixCalc.Proofs.Eval.Alike
import MatrixCalc.Proofs.Eval.Numerals
import MatrixCalc.Proofs.Eval.Simplification
import MatrixCalc.Proofs.Eval.Substitution
import MatrixCalc.Proofs.Eval.Subtraction
import MatrixCalc.Proofs.HexPi.LeftSum
import MatrixCalc.Proofs.HexPi.Tail
import MatrixCalc.Proofs.Matrix.Worksheet
import MatrixCalc.Proofs.Session.Commuting
import MatrixCalc.Proofs.Session.Messages
import MatrixCalc.Proofs.Session.RoundTrip
import MatrixCalc.Proofs.Session.Transcript
import MatrixCalc.Proofs.Session.ValueOf
import MatrixCalc.Proofs.Shell.Expansion
import MatrixCalc.Proofs.Shell.Redirection
import MatrixCalc.Proofs.Source.Blanks
import MatrixCalc.Proofs.Source.Brackets
import MatrixCalc.Proofs.Source.Places
import MatrixCalc.Proofs.Source.Separators
import MatrixCalc.Proofs.Store.History
import MatrixCalc.Proofs.Value.Inspection
import MatrixCalc.Shell.Console
