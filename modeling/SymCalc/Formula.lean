import SymCalc.Operator
import SymCalc.Scalar

/-! # Formulas

* `Formula`: a tree of constants, variables and operators;
* `Formula.ofValue`: the constant for a value, which is undefined for an infinite one and never
  the negative zero;
* `Formula.sum`, `Formula.product`, `Formula.power`: chains of operations, grouped from the left;
* `Formula.postOrder`: all parts of a formula, operands before the operations on them;
* `Formula.vars`: the names of the variables in a formula.

There are no powers: `f.power n` is a product. A result that does not exist, such as a quotient by
zero, is the constant `Formula.undefined`. -/

namespace SymCalc

/-- A formula with constants in `α`. -/
inductive Formula (α : Type) where
  | const (value : α)
  | var (name : String)
  | unary (op : UnaryOp) (operand : Formula α)
  | binary (op : ArithOp) (lhs rhs : Formula α)
deriving Inhabited

namespace Formula

section
variable {α : Type}

instance : Neg (Formula α) := ⟨unary .negate⟩
instance : Add (Formula α) := ⟨binary .add⟩
instance : Sub (Formula α) := ⟨binary .sub⟩
instance : Mul (Formula α) := ⟨binary .mul⟩
instance : Div (Formula α) := ⟨binary .div⟩

theorem neg_eq (f : Formula α) : -f = unary .negate f := rfl
theorem add_eq (f g : Formula α) : f + g = binary .add f g := rfl
theorem sub_eq (f g : Formula α) : f - g = binary .sub f g := rfl
theorem mul_eq (f g : Formula α) : f * g = binary .mul f g := rfl
theorem div_eq (f g : Formula α) : f / g = binary .div f g := rfl

/-- The number of parts of a formula. -/
def size : Formula α → Nat
  | const _ | var _ => 1
  | unary _ a => a.size + 1
  | binary _ a b => a.size + b.size + 1

theorem size_pos (f : Formula α) : 0 < f.size := by cases f <;> simp [size]

/-- Whether the formula is a constant. -/
def isConst : Formula α → Bool
  | const _ => true
  | _ => false

/-- The name of a variable. -/
def name? : Formula α → Option String
  | var name => some name
  | _ => none

/-- All parts of the formula, operands from left to right before the operations on them. -/
def postOrder : Formula α → List (Formula α)
  | const v => [const v]
  | var x => [var x]
  | unary op a => a.postOrder ++ [unary op a]
  | binary op a b => a.postOrder ++ b.postOrder ++ [binary op a b]

theorem length_postOrder (f : Formula α) : f.postOrder.length = f.size := by
  induction f <;> simp_all [postOrder, size, Nat.add_assoc]

/-- The names of the variables, each once and in order. -/
def vars (f : Formula α) : List String :=
  (f.postOrder.filterMap name?).eraseDups.mergeSort (· ≤ ·)

end

section
variable {α : Type} [Scalar α]

/-- The constant that is no number. -/
def undefined : Formula α := const Scalar.undefined

/-- The constant for a value. A value that is not finite gives `undefined`, and both zeros give
the positive one. -/
def ofValue (v : α) : Formula α :=
  if Scalar.isFinite v then if v == 0 then const 0 else const v else undefined

/-- Whether the formula is a constant that is no number. -/
def isUndefined : Formula α → Bool
  | const v => !Scalar.isNumber v
  | _ => false

/-- The value of a constant that is a number. -/
def value? : Formula α → Option α
  | const v => if Scalar.isNumber v then some v else none
  | _ => none

/-- The sum of formulas, grouped from the left. The sum of none is zero. -/
def sum : List (Formula α) → Formula α
  | [] => const 0
  | f :: fs => fs.foldl (· + ·) f

/-- The product of formulas, grouped from the left. The product of none is one. -/
def product : List (Formula α) → Formula α
  | [] => const 1
  | f :: fs => fs.foldl (· * ·) f

/-- The product of `n` copies of a formula. -/
def power (f : Formula α) (n : Nat) : Formula α := product (.replicate n f)

end
end Formula
end SymCalc
