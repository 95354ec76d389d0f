import DeskCalculator.Main
import DeskCalculator.Proofs.Arithmetic.Factorial
import DeskCalculator.Proofs.Arithmetic.Remainder
import DeskCalculator.Proofs.Deviation.Sign
import DeskCalculator.Proofs.Display.Computing
import DeskCalculator.Proofs.Display.Erasing
import DeskCalculator.Proofs.Display.Failure
import DeskCalculator.Proofs.Display.Opening
import DeskCalculator.Proofs.Display.Session
import DeskCalculator.Proofs.Display.Shape
import DeskCalculator.Proofs.Infix.ImplicitZero
import DeskCalculator.Proofs.ReversePolish.Accounting
import DeskCalculator.Proofs.ReversePolish.MissingOperand
import DeskCalculator.Proofs.ReversePolish.Nesting
import DeskCalculator.Proofs.ReversePolish.Order
import DeskCalculator.Proofs.ReversePolish.Steps
import DeskCalculator.Proofs.Token.Lexing
