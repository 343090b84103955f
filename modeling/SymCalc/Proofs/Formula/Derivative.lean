import Mathlib
import SymCalc.Formula.Derivative
import SymCalc.Proofs.Formula.Meaning

/-!
# Derivatives are correct

* `UnaryOp.hasDerivAt`, `ArithOp.hasDerivAt`: the chain rule for each operator;
* `Formula.hasDerivAt_valueAt`: over the reals, the derivative of a formula is defined wherever the
  formula is, and its value is the derivative of the value.

A function of one variable can only be differentiated where it is defined nearby, so the proof
carries definedness in a neighborhood along with the derivative.
-/

namespace SymCalc

open Filter Topology

variable {u v : ℝ → ℝ} {u' v' t : ℝ}

/-! ## Operators -/

/-- The derivative of the operator. -/
noncomputable def UnaryOp.slope : UnaryOp → ℝ → ℝ
  | negate, _ => -1
  | exp, x => Real.exp x
  | ln, x => x⁻¹
  | cos, x => -Real.sin x
  | sin, x => Real.cos x
  | tan, x => 1 / Real.cos x ^ 2
  | percent, _ => UnaryOp.onReal .percent 1

/-- The derivative of the operator if the operands `x` and `y` change at the rates `x'` and `y'`. -/
noncomputable def ArithOp.rate : ArithOp → (x x' y y' : ℝ) → ℝ
  | add, _, x', _, y' => x' + y'
  | sub, _, x', _, y' => x' - y'
  | mul, x, x', y, y' => x' * y + x * y'
  | div, x, x', y, y' => (x' * y - x * y') / y ^ 2

theorem UnaryOp.hasDerivAt_onReal (op : UnaryOp) {x : ℝ} (hx : op.Admits x) :
    HasDerivAt op.onReal (op.slope x) x := by
  cases op with
  | negate => exact hasDerivAt_neg x
  | exp => exact Real.hasDerivAt_exp x
  | ln => exact Real.hasDerivAt_log (ne_of_gt hx)
  | cos => exact Real.hasDerivAt_cos x
  | sin => exact Real.hasDerivAt_sin x
  | tan => exact Real.hasDerivAt_tan hx
  | percent => exact (hasDerivAt_id x).div_const 100

theorem UnaryOp.hasDerivAt (op : UnaryOp) (hu : HasDerivAt u u' t) (ho : op.Admits (u t)) :
    HasDerivAt (fun s => op.onReal (u s)) (op.slope (u t) * u') t :=
  (op.hasDerivAt_onReal ho).comp t hu

theorem ArithOp.hasDerivAt (op : ArithOp) (hu : HasDerivAt u u' t) (hv : HasDerivAt v v' t)
    (ho : op.Admits (u t) (v t)) :
    HasDerivAt (fun s => op.onReals (u s) (v s)) (op.rate (u t) u' (v t) v') t := by
  cases op with
  | add => exact hu.add hv
  | sub => exact hu.sub hv
  | mul => exact hu.mul hv
  | div => exact hu.div hv ho

/-- The arguments for which an operator is defined form an open set. -/
theorem UnaryOp.eventually_admits (op : UnaryOp) (hu : ContinuousAt u t) (ho : op.Admits (u t)) :
    ∀ᶠ s in 𝓝 t, op.Admits (u s) := by
  cases op with
  | ln => exact hu.eventually_const_lt ho
  | tan => exact (Real.continuous_cos.continuousAt.comp hu).eventually_ne ho
  | _ => exact .of_forall fun _ => trivial

theorem ArithOp.eventually_admits (op : ArithOp) (hv : ContinuousAt v t)
    (ho : op.Admits (u t) (v t)) : ∀ᶠ s in 𝓝 t, op.Admits (u s) (v s) := by
  cases op with
  | div => exact hv.eventually_ne ho
  | _ => exact .of_forall fun _ => trivial

/-! ## Formulas -/

namespace Formula

variable {ρ : String → ℝ} {x : String} {f : Formula Exact}

/-- The rules of calculus keep a formula defined. -/
theorem DefinedAt.derivative (h : f.DefinedAt ρ) (x : String) : (f.derivative x).DefinedAt ρ := by
  induction f with
  | const v => rfl
  | var y => unfold Formula.derivative; split <;> rfl
  | unary op a ih =>
    obtain ⟨ha, ho⟩ := h
    have hd := ih ha
    cases op with
    | negate | percent => exact ⟨hd, trivial⟩
    | exp | sin => exact ⟨hd, ⟨ha, trivial⟩, trivial⟩
    | cos => exact ⟨⟨hd, ⟨ha, trivial⟩, trivial⟩, trivial⟩
    | ln => exact ⟨hd, ha, ne_of_gt ho⟩
    | tan => exact ⟨hd, ⟨⟨ha, trivial⟩, ⟨ha, trivial⟩, trivial⟩, mul_ne_zero ho ho⟩
  | binary op a b iha ihb =>
    obtain ⟨ha, hb, ho⟩ := h
    have hda := iha ha
    have hdb := ihb hb
    have hproducts : (a.derivative x * b).DefinedAt ρ ∧ (a * b.derivative x).DefinedAt ρ :=
      ⟨⟨hda, hb, trivial⟩, ⟨ha, hdb, trivial⟩⟩
    cases op with
    | add | sub => exact ⟨hda, hdb, trivial⟩
    | mul => exact ⟨hproducts.1, hproducts.2, trivial⟩
    | div => exact ⟨⟨hproducts.1, hproducts.2, trivial⟩, ⟨hb, hb, trivial⟩, mul_ne_zero ho ho⟩

theorem valueAt_derivative_unary (op : UnaryOp) (a : Formula Exact) :
    ((unary op a).derivative x).valueAt ρ =
      op.slope (a.valueAt ρ) * (a.derivative x).valueAt ρ := by
  cases op <;> simp only [derivative, neg_eq, mul_eq, div_eq, valueAt, UnaryOp.onReal,
    ArithOp.onReals, UnaryOp.slope] <;> ring

theorem valueAt_derivative_binary (op : ArithOp) (a b : Formula Exact) :
    ((binary op a b).derivative x).valueAt ρ = op.rate (a.valueAt ρ)
      ((a.derivative x).valueAt ρ) (b.valueAt ρ) ((b.derivative x).valueAt ρ) := by
  cases op with
  | add | sub | mul => rfl
  | div => exact congrArg _ (pow_two _).symm

/-- A formula that is defined at `ρ` stays defined when the variable `x` changes a little. Its
value then changes at the rate that the derivative gives, which is defined at `ρ`. -/
theorem hasDerivAt_valueAt (f : Formula Exact) (x : String) (ρ : String → ℝ)
    (h : f.DefinedAt ρ) : (f.derivative x).DefinedAt ρ ∧
      (∀ᶠ t in 𝓝 (ρ x), f.DefinedAt (Function.update ρ x t)) ∧
      HasDerivAt (fun t => f.valueAt (Function.update ρ x t)) ((f.derivative x).valueAt ρ)
        (ρ x) := by
  refine ⟨h.derivative x, ?_⟩
  induction f with
  | const v => exact ⟨.of_forall fun _ => h, hasDerivAt_const _ _⟩
  | var y =>
    refine ⟨.of_forall fun _ => trivial, ?_⟩
    by_cases hyx : y = x
    · subst hyx
      simp only [derivative, valueAt, Function.update_self, if_true]
      exact hasDerivAt_id _
    · simp only [derivative, valueAt, Function.update_of_ne hyx, if_neg hyx]
      exact hasDerivAt_const _ _
  | unary op a ih =>
    obtain ⟨ha, ho⟩ := h
    obtain ⟨hnear, hderiv⟩ := ih ha
    rw [← Function.update_eq_self x ρ] at ho
    refine ⟨hnear.and (op.eventually_admits hderiv.continuousAt ho), ?_⟩
    have hop := op.hasDerivAt hderiv ho
    rw [Function.update_eq_self] at hop
    rw [valueAt_derivative_unary]
    exact hop
  | binary op a b iha ihb =>
    obtain ⟨ha, hb, ho⟩ := h
    obtain ⟨hneara, hderiva⟩ := iha ha
    obtain ⟨hnearb, hderivb⟩ := ihb hb
    rw [← Function.update_eq_self x ρ] at ho
    refine ⟨hneara.and (hnearb.and (op.eventually_admits hderivb.continuousAt ho)), ?_⟩
    have hop := op.hasDerivAt hderiva hderivb ho
    rw [Function.update_eq_self] at hop
    rw [valueAt_derivative_binary]
    exact hop

/-- At `x = 1` the function `ln(tan(x)) / x` is defined, and so is its derivative. -/
theorem hasDerivAt_valueAt_ln_tan :
    let f : Formula Exact := unary .ln (unary .tan (var "x")) / var "x"
    f.DefinedAt (fun _ => 1) ∧ (f.derivative "x").DefinedAt (fun _ => 1) ∧
      (∀ᶠ t in 𝓝 1, f.DefinedAt (Function.update (fun _ => 1) "x" t)) ∧
      HasDerivAt (fun t => f.valueAt (Function.update (fun _ => 1) "x" t))
        ((f.derivative "x").valueAt fun _ => 1) 1 := by
  have hcos : Real.cos 1 ≠ 0 := Real.cos_one_pos.ne'
  have htan : 0 < Real.tan 1 :=
    Real.tan_pos_of_pos_of_lt_pi_div_two one_pos (by linarith [Real.pi_gt_three])
  have hf : (unary .ln (unary .tan (var "x")) / var "x" : Formula Exact).DefinedAt fun _ => 1 :=
    ⟨⟨⟨trivial, hcos⟩, htan⟩, trivial, one_ne_zero⟩
  exact ⟨hf, hasDerivAt_valueAt _ "x" _ hf⟩

end Formula
end SymCalc
