import SymCalc.Formula

/-! # Substitution

* `Formula.substitute`: a formula with another one in place of a variable. -/

namespace SymCalc

/-- The formula with `replacement` in place of every occurrence of the variable `name`. -/
def Formula.substitute {α : Type} (f : Formula α) (name : String) (replacement : Formula α) :
    Formula α :=
  match f with
  | const v => const v
  | var x => if x = name then replacement else var x
  | unary op a => unary op (a.substitute name replacement)
  | binary op a b => binary op (a.substitute name replacement) (b.substitute name replacement)

end SymCalc
