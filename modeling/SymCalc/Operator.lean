/-! # Operators

* `UnaryOp`, `ArithOp`: the operators of a formula, with the words and symbols they are written
  as;
* `InfixOp`: the operators between two operands in a text, with their precedence and
  associativity.

The order in which the constructors are declared is the order in which formulas are sorted. -/

namespace SymCalc

/-- An operator that takes one operand. -/
inductive UnaryOp where
  | negate
  | exp
  | ln
  | cos
  | sin
  | tan
  | percent
deriving DecidableEq, Repr, Inhabited

namespace UnaryOp

/-- The symbol or word of the operator. -/
def text : UnaryOp → String
  | negate => "-"
  | exp => "exp"
  | ln => "ln"
  | cos => "cos"
  | sin => "sin"
  | tan => "tan"
  | percent => "%"

/-- The operators that are written as a word. -/
def functions : List UnaryOp := [exp, ln, cos, sin, tan]

/-- The operator written as the given word. -/
def ofWord? (word : String) : Option UnaryOp := functions.find? (·.text = word)

/-- The place of the operator in the order of formulas. -/
def rank : UnaryOp → Nat
  | negate => 0
  | exp => 1
  | ln => 2
  | cos => 3
  | sin => 4
  | tan => 5
  | percent => 6

theorem rank_injective {a b : UnaryOp} (h : a.rank = b.rank) : a = b := by
  cases a <;> cases b <;> simp_all [rank]

end UnaryOp

/-- An operator of a formula that takes two operands. -/
inductive ArithOp where
  | add
  | sub
  | mul
  | div
deriving DecidableEq, Repr, Inhabited

namespace ArithOp

/-- The symbol of the operator. -/
def text : ArithOp → String
  | add => "+"
  | sub => "-"
  | mul => "*"
  | div => "/"

/-- The place of the operator in the order of formulas. -/
def rank : ArithOp → Nat
  | add => 0
  | sub => 1
  | mul => 2
  | div => 3

theorem rank_injective {a b : ArithOp} (h : a.rank = b.rank) : a = b := by
  cases a <;> cases b <;> simp_all [rank]

/-- Whether operands of a chain of this operator may change places. -/
def isCommutative : ArithOp → Bool
  | add | mul => true
  | sub | div => false

end ArithOp

/-- An operator between two operands of a text. -/
inductive InfixOp where
  | power
  | arith (op : ArithOp)
deriving DecidableEq, Repr, Inhabited

/-- How tightly an operator between two operands binds, from loose to tight. -/
inductive Precedence where
  | term
  | factor
  | power
deriving DecidableEq, Repr

/-- Which way a chain of operators of one precedence is grouped. -/
inductive Associativity where
  | left
  | right
deriving DecidableEq, Repr

/-- The place of the precedence, from loose to tight. -/
def Precedence.rank : Precedence → Nat
  | term => 0
  | factor => 1
  | power => 2

namespace InfixOp

/-- The symbol of the operator. -/
def text : InfixOp → String
  | power => "^"
  | arith op => op.text

/-- Sums bind loosest and powers tightest. -/
def precedence : InfixOp → Precedence
  | power => .power
  | arith .mul | arith .div => .factor
  | arith .add | arith .sub => .term

/-- Only powers are grouped from the right. -/
def associativity : InfixOp → Associativity
  | power => .right
  | arith _ => .left

/-- Whether `a`, written after `b` and an operand, takes that operand from `b`. -/
def bindsOver (a b : InfixOp) : Bool :=
  b.precedence.rank < a.precedence.rank ||
    (a.precedence = b.precedence && a.associativity = .right)

end InfixOp
end SymCalc
