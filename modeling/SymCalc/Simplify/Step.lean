/-! # Steps of simplification

* `Step`: the kinds of rewrites;
* `Traced`: a value with the steps that led to it. -/

namespace SymCalc

/-- A kind of rewrite. -/
inductive Step where
  /-- An undefined operand makes an operation undefined. -/
  | propagateUndefined
  /-- A quotient by zero, or a value out of range, is undefined. -/
  | undefined
  /-- Constants are computed: `2*3 = 6`. -/
  | foldConstants
  /-- `0*a = 0`. -/
  | multiplyZero
  /-- `5*a-2*a = 3*a`. -/
  | combineLikeTerms
  /-- `(a*b)/(b*c) = a/c`. -/
  | cancelFactors
  /-- `sin(a)/cos(a) = tan(a)`. -/
  | tangentQuotient
  /-- `exp(a)*exp(b) = exp(a+b)`. -/
  | mergeExponentials
  /-- `ln(a)+ln(b) = ln(a*b)`. -/
  | mergeLogarithms
  /-- `cos(a)*cos(b)-sin(a)*sin(b) = cos(a+b)`. -/
  | cosineAngleSum
  /-- `sin(a)*cos(b)+cos(a)*sin(b) = sin(a+b)`. -/
  | sineAngleSum
  /-- `exp(3*ln(a)) = a*a*a`. -/
  | powerToProduct
  /-- `exp(ln(a)) = a` and `ln(exp(a)) = a`. -/
  | inverseFunctions
  /-- `cos(-a) = cos(a)`. -/
  | evenFunction
  /-- `sin(-a) = -sin(a)`. -/
  | oddFunction
  /-- `-(-a) = a`. -/
  | doubleNegation
  /-- `(0)% = 0`. -/
  | percentOfZero
deriving DecidableEq, Repr

/-- The name of the step as it is shown. -/
def Step.text : Step → String
  | propagateUndefined => "PropagateUndefined"
  | undefined => "Undefined"
  | foldConstants => "FoldConstants"
  | multiplyZero => "MultiplyZero"
  | combineLikeTerms => "CombineLikeTerms"
  | cancelFactors => "CancelFactors"
  | tangentQuotient => "TangentQuotient"
  | mergeExponentials => "MergeExponentials"
  | mergeLogarithms => "MergeLogarithms"
  | cosineAngleSum => "CosineAngleSum"
  | sineAngleSum => "SineAngleSum"
  | powerToProduct => "PowerToProduct"
  | inverseFunctions => "InverseFunctions"
  | evenFunction => "EvenFunction"
  | oddFunction => "OddFunction"
  | doubleNegation => "DoubleNegation"
  | percentOfZero => "PercentOfZero"

/-- A value and the steps taken to reach it, in order. -/
structure Traced (β : Type) where
  value : β
  steps : List Step
deriving Repr

namespace Traced

variable {β γ : Type}

instance : Monad Traced where
  pure v := ⟨v, []⟩
  bind t f :=
    let u := f t.value
    ⟨u.value, t.steps ++ u.steps⟩

/-- Takes a step. -/
def emit (s : Step) : Traced Unit := ⟨(), [s]⟩

/-- Takes a step if the condition holds. -/
def emitIf (p : Bool) (s : Step) : Traced Unit := ⟨(), if p then [s] else []⟩

@[simp] theorem value_pure (v : β) : (pure v : Traced β).value = v := rfl
@[simp] theorem steps_pure (v : β) : (pure v : Traced β).steps = [] := rfl
@[simp] theorem value_bind (t : Traced β) (f : β → Traced γ) :
    (t >>= f).value = (f t.value).value := rfl
@[simp] theorem steps_bind (t : Traced β) (f : β → Traced γ) :
    (t >>= f).steps = t.steps ++ (f t.value).steps := rfl
@[simp] theorem steps_emit (s : Step) : (emit s).steps = [s] := rfl
@[simp] theorem steps_emitIf (p : Bool) (s : Step) :
    (emitIf p s).steps = if p then [s] else [] := rfl

instance : LawfulMonad Traced :=
  LawfulMonad.mk' Traced
    (fun t => by cases t; simp [Functor.map])
    (fun v f => rfl)
    (fun t f g => by simp [bind, List.append_assoc])

end Traced
end SymCalc
