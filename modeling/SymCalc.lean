import SymCalc.Formula.Chain
import SymCalc.Formula.Derivative
import SymCalc.Formula.OfExpr
import SymCalc.Formula.Order
import SymCalc.Formula.Substitution
import SymCalc.Formula.Text
import SymCalc.Formula.Value
import SymCalc.Formula.Walk
import SymCalc.Main
import SymCalc.Proofs.Formula.RoundTrip
import SymCalc.Proofs.Simplify.Soundness
import SymCalc.Proofs.Syntax.Acceptance
import SymCalc.Proofs.Syntax.Nesting
import SymCalc.Session.Batch
import SymCalc.Simplify
import SymCalc.Syntax.Category
import SymCalc.Proofs.Formula.Derivative
import SymCalc.Proofs.Scalar.Lawful
import SymCalc.Proofs.Scalar.Double
import SymCalc.Proofs.Simplify.Undefined
import SymCalc.Proofs.Simplify.Folding
import SymCalc.Proofs.Formula.Order
import SymCalc.Proofs.Simplify.Weight
import SymCalc.Proofs.Simplify.Merging
import SymCalc.Proofs.Simplify.ReducedProduct
import SymCalc.Proofs.Simplify.SumForm
import SymCalc.Proofs.Simplify.ReducedSum
import SymCalc.Proofs.Simplify.Settled
import SymCalc.Proofs.Simplify.Settling
import SymCalc.Proofs.Simplify.SettledPass
import SymCalc.Proofs.Simplify.Convergence
import SymCalc.Proofs.Simplify.LogTower
import SymCalc.Proofs.Syntax.Blame
import SymCalc.Proofs.Session.Independence
import SymCalc.Proofs.Simplify.OperandOrder
import SymCalc.Proofs.Session.Assignment
import SymCalc.Proofs.Session.MissingVariable
import SymCalc.Proofs.Simplify.Definedness
import SymCalc.Proofs.Simplify.OutOfRange
import SymCalc.Proofs.Formula.Equality
import SymCalc.Proofs.Formula.Rearrangement
import SymCalc.Proofs.Simplify.EqualFormulas
import SymCalc.Proofs.Simplify.ProductForm
import SymCalc.Proofs.Simplify.TermOrder
import SymCalc.Proofs.Simplify.Fixpoint
import SymCalc.Proofs.Decimal.Sign
import SymCalc.Proofs.Formula.Parsed
import SymCalc.Proofs.Simplify.OppositeSums
import SymCalc.Proofs.Syntax.Slices
import SymCalc.Proofs.Formula.Substitution
import SymCalc.Proofs.Formula.Power
import SymCalc.Proofs.Token.Tiling
import SymCalc.Proofs.Syntax.Steps
import SymCalc.Proofs.Formula.Walk
import SymCalc.Proofs.Simplify.Vanishing
import SymCalc.Proofs.Token.Search
import SymCalc.Proofs.Syntax.MissingOperand
import SymCalc.Proofs.Syntax.Parentheses
import SymCalc.Proofs.Simplify.Cancelling
import SymCalc.Proofs.Formula.Characters
import SymCalc.Proofs.Session.Reentry
import SymCalc.Proofs.Syntax.Faults
import SymCalc.Proofs.Simplify.AngleSums
