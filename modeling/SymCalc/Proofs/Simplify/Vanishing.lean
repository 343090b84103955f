import SymCalc.Formula.Derivative
import SymCalc.Proofs.Formula.Substitution
import SymCalc.Proofs.Simplify.Folding

/-!
# Formulas that vanish

* `Double.Vanishes`: the doubles that products and quotients with a zero come to;
* `Formula.Vanishes`: the formulas of which one pass leaves zero or the undefined constant.

A product vanishes with any of its factors, whatever the others are simplified to: its coefficient
is zero or out of range, and this is found out before any factor is looked at
(`Formula.normalizeProduct_of_zero_mem_pieces`). Every rule for derivatives multiplies, divides or
adds derivatives of operands, so the derivative with respect to a variable that does not occur
vanishes (`Formula.simplifyOnce_derivative`).
-/

namespace SymCalc

open Float.Model Float.Model.UnpackedFloat

/-! ## Doubles -/

namespace Double

variable {v : Float}

/-- Whether the double is zero, infinite or no number. -/
def Vanishes (v : Float) : Prop := ∀ s m q hm, unpacked v ≠ .finite s m q hm

theorem vanishes_zero : Vanishes 0 := fun _ _ _ _ => by
  rw [unpacked_zero]
  nofun

theorem Vanishes.beq_zero (h : Vanishes v) (hfin : v.isFinite) : v == 0 := by
  by_contra h0
  obtain ⟨s, m, q, hm, hv⟩ := exists_unpacked_eq_finite hfin (eq_false_of_ne_true h0)
  exact h s m q hm hv

/-- Packing makes no number out of what has no mantissa. -/
theorem vanishes_pack {x : UnpackedFloat} (h : ∀ s m q hm, x ≠ .finite s m q hm) :
    Vanishes (Float.ofModel (Float.Model.pack x)) := by
  cases x with
  | notANumber => nofun
  | infinity s | zero s => cases s <;> nofun
  | finite s m q hm => exact absurd rfl (h s m q hm)

theorem Vanishes.neg (h : Vanishes v) : Vanishes (-v) := by
  intro s m q hm hv
  rw [unpacked_neg] at hv
  cases hx : unpacked v with
  | finite s' m' q' hm' => exact h _ _ _ _ hx
  | notANumber | infinity | zero =>
    rw [hx] at hv
    cases hv

theorem Vanishes.mul_right (h : Vanishes v) (w : Float) : Vanishes (v * w) := by
  have hmul : ∀ s m q hm, UnpackedFloat.mul Format.binary64 (unpacked v) (unpacked w) ≠
      .finite s m q hm := by
    cases hx : unpacked v with
    | finite s m q hm => exact absurd hx (h s m q hm)
    | notANumber | infinity | zero => cases unpacked w <;> nofun
  exact vanishes_pack hmul

theorem Vanishes.mul_left (h : Vanishes v) (w : Float) : Vanishes (w * v) := by
  have hmul : ∀ s m q hm, UnpackedFloat.mul Format.binary64 (unpacked w) (unpacked v) ≠
      .finite s m q hm := by
    cases hx : unpacked v with
    | finite s m q hm => exact absurd hx (h s m q hm)
    | notANumber | infinity | zero => cases unpacked w <;> nofun
  exact vanishes_pack hmul

theorem Vanishes.div (h : Vanishes v) (w : Float) : Vanishes (v / w) := by
  have hdiv : ∀ s m q hm, UnpackedFloat.div Format.binary64 (unpacked v) (unpacked w) ≠
      .finite s m q hm := by
    cases hx : unpacked v with
    | finite s m q hm => exact absurd hx (h s m q hm)
    | notANumber | infinity | zero => cases unpacked w <;> nofun
  exact vanishes_pack hdiv

end Double

open Double

/-! ## Products -/

namespace Piece

variable {v w : Float} {ps : List (Piece Float)}

theorem vanishes_above (h : Vanishes v) (p : Piece Float) : Vanishes (p.above v) := by
  cases p with
  | negation => exact h.neg
  | const w below =>
    cases below with
    | false => exact h.mul_right w
    | true => exact h
  | factor => exact h

/-- The product of the numerator vanishes from the first vanishing constant on. -/
theorem vanishes_foldl_above (h : Vanishes v ∨ const 0 false ∈ ps) :
    Vanishes (ps.foldl above v) := by
  induction ps generalizing v with
  | nil => exact h.resolve_right List.not_mem_nil
  | cons p ps ih =>
    refine ih ?_
    rcases h with h | h
    · exact .inl (vanishes_above h p)
    · rcases List.mem_cons.1 h with rfl | h
      · exact .inl (vanishes_zero.mul_left v)
      · exact .inr h

end Piece

namespace Formula

variable {f g : Formula Float} {x : String}

/-- A product with a zero is zero, or undefined if the constants have no finite product. -/
theorem normalizeProduct_of_zero_mem_pieces (h : .const 0 false ∈ f.pieces false) :
    f.normalizeProduct.value = const 0 ∨ f.normalizeProduct.value = undefined := by
  rcases normalizeProduct_cases f with ⟨-, hundef⟩ | ⟨m, hm, hzero | ⟨hne, -⟩⟩
  · exact .inr hundef
  · exact .inl hzero.2
  · obtain ⟨-, hfin, hcoeff⟩ := Monomial.eq_of_ofPieces? hm
    have hvanishes : Vanishes m.coeff := by
      rw [hcoeff]
      exact (Piece.vanishes_foldl_above (.inr h)).div _
    cases hne.symm.trans (hvanishes.beq_zero hfin)

/-! ## Passes -/

/-- Whether a pass leaves zero or the undefined constant of the formula. -/
def Vanishes (f : Formula Float) : Prop := f.simplifyOnce = const 0 ∨ f.simplifyOnce = undefined

theorem vanishes_zero : Vanishes (const 0) :=
  .inl ((simplifyOnce_const 0).trans (ofValue_of_isProper Scalar.isProper_zero))

/-- An operation vanishes with its operand if the normal form of that operation on zero does. -/
theorem vanishes_unary {op : UnaryOp} (h : (normalizeUnary op (const (0 : Float))).value = const 0)
    (hf : f.Vanishes) : (unary op f).Vanishes := by
  unfold Vanishes
  rw [simplifyOnce_unary]
  rcases hf with hf | hf
  · rw [hf, isUndefined_const LawfulScalar.isFinite_zero, if_neg Bool.false_ne_true]
    exact .inl h
  · rw [hf, isUndefined_undefined, if_pos rfl]
    exact .inr rfl

theorem Vanishes.neg (hf : f.Vanishes) : (-f).Vanishes := by
  refine vanishes_unary ?_ hf
  change ofValue (-0 : Float) = const 0
  exact ofValue_of_beq_zero (by decide) (by decide)

theorem Vanishes.percent (hf : f.Vanishes) : (unary .percent f).Vanishes := by
  refine vanishes_unary ?_ hf
  have hzero : (const (0 : Float)).value?.any (· == 0) := by decide
  rw [normalizeUnary, normalizePercent, if_pos hzero]
  rfl

/-- The same for operations on two operands. -/
theorem vanishes_binary {op : ArithOp}
    (h : f.simplifyOnce.isUndefined = false → g.simplifyOnce.isUndefined = false →
      (normalizeBinary op f.simplifyOnce g.simplifyOnce).value = const 0 ∨
        (normalizeBinary op f.simplifyOnce g.simplifyOnce).value = undefined) :
    (binary op f g).Vanishes := by
  unfold Vanishes
  rw [simplifyOnce_binary]
  split
  · exact .inr rfl
  · next hundef =>
    obtain ⟨hf, hg⟩ := Bool.or_eq_false_iff.1 (eq_false_of_ne_true hundef)
    exact h hf hg

/-- A vanishing operand is zero, unless it is undefined. -/
theorem Vanishes.eq_zero (hf : f.Vanishes) (h : f.simplifyOnce.isUndefined = false) :
    f.simplifyOnce = const 0 := by
  rcases hf with hf | hf
  · exact hf
  · rw [hf, isUndefined_undefined] at h
    cases h

theorem Vanishes.mul_right (hf : f.Vanishes) (g : Formula Float) : (f * g).Vanishes := by
  refine vanishes_binary fun h _ => normalizeProduct_of_zero_mem_pieces ?_
  rw [hf.eq_zero h]
  exact List.mem_append_left _ (List.mem_singleton_self _)

theorem Vanishes.mul_left (hf : f.Vanishes) (g : Formula Float) : (g * f).Vanishes := by
  refine vanishes_binary fun _ h => normalizeProduct_of_zero_mem_pieces ?_
  rw [hf.eq_zero h]
  exact List.mem_append_right _ (List.mem_singleton_self _)

theorem Vanishes.div (hf : f.Vanishes) (g : Formula Float) : (f / g).Vanishes := by
  refine vanishes_binary fun h _ => normalizeProduct_of_zero_mem_pieces ?_
  rw [hf.eq_zero h]
  exact List.mem_append_left _ (List.mem_singleton_self _)

/-- An operation on two vanishing operands vanishes if its value on two zeros is zero. -/
theorem Vanishes.binary {op : ArithOp} (hf : f.Vanishes) (hg : g.Vanishes)
    (hfin : (op.apply (0 : Float) 0).isFinite) (h0 : op.apply (0 : Float) 0 == 0) :
    (binary op f g).Vanishes := by
  refine vanishes_binary fun h h' => .inl ?_
  rw [hf.eq_zero h, hg.eq_zero h',
    normalizeBinary_const _ Scalar.isProper_zero Scalar.isProper_zero]
  exact ofValue_of_beq_zero hfin h0

theorem Vanishes.add (hf : f.Vanishes) (hg : g.Vanishes) : (f + g).Vanishes :=
  hf.binary hg (by decide) (by decide)

theorem Vanishes.sub (hf : f.Vanishes) (hg : g.Vanishes) : (f - g).Vanishes :=
  hf.binary hg (by decide) (by decide)

/-! ## Derivatives -/

/-- The derivative with respect to a variable that does not occur vanishes. -/
theorem vanishes_derivative (h : x ∉ f.vars) : (f.derivative x).Vanishes := by
  induction f with
  | const v => exact vanishes_zero
  | var y =>
    rw [derivative, if_neg fun hy => h (mem_vars_var.2 hy.symm)]
    exact vanishes_zero
  | unary op a ih =>
    have ha := ih fun hx => h (mem_vars_unary.2 hx)
    cases op with
    | negate => exact ha.neg
    | exp | sin => exact ha.mul_right _
    | ln | tan => exact ha.div _
    | cos => exact (ha.mul_right _).neg
    | percent => exact ha.percent
  | binary op a b iha ihb =>
    have ha := iha fun hx => h (mem_vars_binary.2 (.inl hx))
    have hb := ihb fun hx => h (mem_vars_binary.2 (.inr hx))
    cases op with
    | add => exact ha.add hb
    | sub => exact ha.sub hb
    | mul => exact (ha.mul_right b).add (hb.mul_left a)
    | div => exact ((ha.mul_right b).sub (hb.mul_left a)).div _

/-- A pass over the derivative with respect to a variable that does not occur gives zero or the
undefined constant, and so does a pass over the derivative of any part of the formula. -/
theorem simplifyOnce_derivative (f : Formula Float) (h : x ∉ f.vars) :
    ((f.derivative x).simplifyOnce = const 0 ∨ (f.derivative x).simplifyOnce = undefined) ∧
      ∀ m ∈ f.postOrder,
        (m.derivative x).simplifyOnce = const 0 ∨ (m.derivative x).simplifyOnce = undefined := by
  refine ⟨vanishes_derivative h, fun m hm => vanishes_derivative fun hx => h ?_⟩
  exact mem_vars.2 (mem_postOrder_trans (mem_vars.1 hx) hm)

/-- The derivative of `cos((exp(y))%)` vanishes, and that of `tan(ln(-1))` is undefined. -/
theorem simplifyOnce_derivative_cos :
    let f : Formula Float := unary .cos (unary .percent (unary .exp (var "y")))
    let g : Formula Float := unary .tan (unary .ln (const (-1)))
    "x" ∉ f.vars ∧ (f.derivative "x").simplifyOnce = const 0 ∧
      "x" ∉ g.vars ∧ (g.derivative "x").simplifyOnce = undefined := by
  intro f g
  have hf : "x" ∉ f.vars := by simp [f]
  have hg : "x" ∉ g.vars := by simp [g]
  refine ⟨hf, (simplifyOnce_derivative f hf).1.resolve_right fun h => ?_, hg,
    (simplifyOnce_derivative g hg).1.resolve_left fun h => ?_⟩
  · have hdefined : (f.derivative "x").simplifyOnce.isUndefined = false := by decide
    rw [h, isUndefined_undefined] at hdefined
    cases hdefined
  · have hundef : (g.derivative "x").simplifyOnce.isUndefined := by decide
    rw [h, isUndefined_const LawfulScalar.isFinite_zero] at hundef
    cases hundef

end Formula
end SymCalc
