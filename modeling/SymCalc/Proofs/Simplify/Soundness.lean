import Mathlib
import SymCalc.Proofs.Simplify.Sum

/-!
# Soundness of simplification

Over the reals, the normal form of a function has the value of the function, a pass keeps the value
of a formula wherever it is defined (`Formula.HasValue.simplifyOnce`), and so does any number of
passes (`Formula.HasValue.simplifyFor`), as long as no sine and cosine are combined to a tangent.
-/

namespace SymCalc
namespace Formula

variable {ρ : String → ℝ} {x y : ℝ} {f g : Formula Exact}

/-! ## Functions -/

theorem HasValue.negativeForm? (h : f.HasValue ρ x) (hg : f.negativeForm? = some g) :
    g.HasValue ρ (-x) := by
  rcases negativeForm?_cases hg with rfl | ⟨v, rfl, -, rfl⟩ | ⟨m, hm, rfl⟩ | ⟨rfl, -⟩
  · obtain ⟨hg, rfl⟩ := h
    exact ⟨hg.1, (neg_neg _).symm⟩
  · rw [exists_of_hasValue_const h]
    exact hasValue_ofValue (-x)
  · obtain ⟨n, hn, hv⟩ := Monomial.exists_of? h
    cases hm.symm.trans hn
    exact hv.negated.toFormula
  · exact h.neg.normalizeSum

/-- A negation keeps its value in normal form if it does as a product. -/
theorem HasValue.normalizeNegation (h : f.HasValue ρ x)
    (hproduct : f.normalizeNegation = (-f).normalizeProduct →
      (-f).normalizeProduct.value.HasValue ρ (-x)) :
    f.normalizeNegation.value.HasValue ρ (-x) := by
  rcases normalizeNegation_cases f with ⟨v, rfl, hr⟩ | ⟨a, rfl, hr⟩ | hr | hr
  · rw [hr, exists_of_hasValue_const h]
    exact hasValue_ofValue (-x)
  · obtain ⟨ha, rfl⟩ := h
    rw [hr]
    exact ⟨ha.1, (neg_neg _).symm⟩
  · rw [hr]
    exact h.neg.normalizeSum
  · rw [hr]
    exact hproduct hr

theorem HasValue.logPower? {a : Formula Exact} {k : ℕ} (h : f.HasValue ρ x)
    (ha : f.logPower? = some (a, k)) :
    a.DefinedAt ρ ∧ 0 < a.valueAt ρ ∧ x = k * Real.log (a.valueAt ρ) := by
  obtain ⟨c, hm, hc, -⟩ := exists_of_logPower? ha
  obtain ⟨n, hn, hv, rfl⟩ := Monomial.exists_of? h
  cases hm.symm.trans hn
  obtain ⟨z, rfl⟩ := Exact.exists_number hv.coeff
  have hln := List.forall_mem_singleton.1 hv.numer
  refine ⟨hln.1, hln.2, ?_⟩
  rw [Monomial.valueAt, Exact.toReal_number, Exact.eq_of_toCount? hc]
  simp [valueAt, UnaryOp.onReal]

theorem HasValue.normalizeExp (h : f.HasValue ρ x) :
    f.normalizeExp.value.HasValue ρ (Real.exp x) := by
  rcases normalizeExp_cases f with ⟨v, rfl, hr⟩ | ⟨a, rfl, hr⟩ | ⟨a, k, ha, hr⟩ | hr
  · rw [hr, exists_of_hasValue_const h]
    split
    · next hx =>
      rw [Exact.beq_number.1 hx]
      exact hasValue_number _
    · exact hasValue_ofValue _
  · obtain ⟨ha, rfl⟩ := h
    rw [hr]
    exact ⟨ha.1, (Real.exp_log ha.2).symm⟩
  · obtain ⟨hd, hpos, rfl⟩ := h.logPower? ha
    rw [hr, Real.exp_nat_mul, Real.exp_log hpos]
    exact hasValue_power hd.hasValue k
  · rw [hr]
    exact h.unary .exp trivial

theorem HasValue.normalizeLn (h : f.HasValue ρ x) (hx : 0 < x) :
    f.normalizeLn.value.HasValue ρ (Real.log x) := by
  rcases normalizeLn_cases f with ⟨v, rfl, -, hr⟩ | ⟨v, rfl, hv, -⟩ | ⟨a, rfl, hr⟩ | hr
  · rw [hr, exists_of_hasValue_const h]
    split
    · next he =>
      rw [Exact.beq_number.1 he, Real.log_exp]
      exact hasValue_number 1
    · rw [Exact.ln_number, Exact.numberIf_pos hx]
      exact hasValue_ofValue _
  · rw [exists_of_hasValue_const h] at hv
    exact absurd (Exact.lt_number.2 hx) (ne_true_of_eq_false hv)
  · obtain ⟨ha, rfl⟩ := h
    rw [hr]
    exact ⟨ha.1, (Real.log_exp _).symm⟩
  · rw [hr]
    exact h.unary .ln hx

theorem HasValue.normalizeCos (h : f.HasValue ρ x) :
    f.normalizeCos.value.HasValue ρ (Real.cos x) := by
  rcases normalizeCos_cases f with ⟨v, rfl, hr⟩ | ⟨g, hg, hr⟩ | hr
  · rw [hr, exists_of_hasValue_const h]
    split
    · next hx =>
      rw [Exact.beq_number.1 hx, Real.cos_pi]
      exact hasValue_number (-1)
    · exact hasValue_ofValue _
  · rw [hr, ← Real.cos_neg]
    exact (h.negativeForm? hg).unary .cos trivial
  · rw [hr]
    exact h.unary .cos trivial

theorem HasValue.normalizeOdd {op : UnaryOp} (h : f.HasValue ρ x) (ho : op.Admits x)
    (hodd : op.onReal (-x) = -op.onReal x) (hneg : op.Admits (-x)) :
    (f.normalizeOdd op).value.HasValue ρ (op.onReal x) := by
  rcases normalizeOdd_cases op f with ⟨g, hg, hr⟩ | hr
  · have hv := ((h.negativeForm? hg).unary op hneg).neg
    rw [hodd, neg_neg] at hv
    rw [hr]
    exact hv
  · rw [hr]
    exact h.unary op ho

theorem HasValue.normalizeSin (h : f.HasValue ρ x) :
    f.normalizeSin.value.HasValue ρ (Real.sin x) := by
  rcases normalizeSin_cases f with ⟨v, rfl, hr⟩ | hr
  · rw [hr, exists_of_hasValue_const h]
    exact hasValue_ofValue _
  · rw [hr]
    exact h.normalizeOdd trivial (Real.sin_neg x) trivial

theorem HasValue.normalizeTan (h : f.HasValue ρ x) (hx : Real.cos x ≠ 0) :
    f.normalizeTan.value.HasValue ρ (Real.tan x) := by
  rcases normalizeTan_cases f with ⟨v, rfl, hr⟩ | hr
  · rw [hr, exists_of_hasValue_const h, Exact.tan_number, Exact.numberIf_pos hx]
    exact hasValue_ofValue _
  · have hneg : Real.cos (-x) ≠ 0 := by rwa [Real.cos_neg]
    rw [hr]
    exact h.normalizeOdd hx (Real.tan_neg x) hneg

theorem HasValue.normalizePercent (h : f.HasValue ρ x) :
    f.normalizePercent.value.HasValue ρ (x / 100) := by
  rcases normalizePercent_cases f with ⟨v, rfl, h0, hr⟩ | hr
  · rw [exists_of_hasValue_const h] at h0
    rw [hr, Exact.beq_number.1 h0, zero_div]
    exact hasValue_number 0
  · rw [hr]
    exact h.normalizeOdd trivial (neg_div 100 x) trivial

/-- A unary operation keeps its value in normal form if, as a product, it does. -/
theorem HasValue.normalizeUnary {op : UnaryOp} (h : f.HasValue ρ x) (ho : op.Admits x)
    (hproduct : normalizeUnary op f = (-f).normalizeProduct →
      (-f).normalizeProduct.value.HasValue ρ (-x)) :
    (normalizeUnary op f).value.HasValue ρ (op.onReal x) := by
  cases op with
  | negate => exact h.normalizeNegation hproduct
  | exp => exact h.normalizeExp
  | ln => exact h.normalizeLn ho
  | cos => exact h.normalizeCos
  | sin => exact h.normalizeSin
  | tan => exact h.normalizeTan ho
  | percent => exact h.normalizePercent

/-- A binary operation keeps its value in normal form if, as a product, it does. -/
theorem HasValue.normalizeBinary {op : ArithOp} (h : (Formula.binary op f g).HasValue ρ x)
    (hproduct : normalizeBinary op f g = (Formula.binary op f g).normalizeProduct →
      (Formula.binary op f g).normalizeProduct.value.HasValue ρ x) :
    (normalizeBinary op f g).value.HasValue ρ x := by
  cases op with
  | add | sub => exact h.normalizeSum
  | mul | div => exact hproduct rfl

/-! ## Passes -/

theorem HasValue.simplifyOnce (h : f.HasValue ρ x)
    (hs : .tangentQuotient ∉ f.simplifyPass.steps) : f.simplifyOnce.HasValue ρ x := by
  induction f generalizing x with
  | const v =>
    rw [exists_of_hasValue_const h]
    exact hasValue_ofValue x
  | var y => exact h
  | unary op a ih =>
    obtain ⟨⟨ha, ho⟩, rfl⟩ := h
    rw [simplifyPass, Traced.steps_bind, List.mem_append, not_or] at hs
    have hv := ih ha.hasValue hs.1
    have hu : a.simplifyPass.value.isUndefined = false := hv.1.isUndefined
    rw [hu, if_neg Bool.false_ne_true] at hs
    rw [simplifyOnce_unary, hv.1.isUndefined, if_neg Bool.false_ne_true]
    exact hv.normalizeUnary ho fun heq => hv.neg.normalizeProduct (heq ▸ hs.2)
  | binary op a b iha ihb =>
    obtain ⟨⟨ha, hb, ho⟩, rfl⟩ := h
    rw [simplifyPass, Traced.steps_bind, Traced.steps_bind, List.mem_append, List.mem_append,
      not_or, not_or] at hs
    obtain ⟨hsa, hsb, hs⟩ := hs
    have hva := iha ha.hasValue hsa
    have hvb := ihb hb.hasValue hsb
    have hua : a.simplifyPass.value.isUndefined = false := hva.1.isUndefined
    have hub : b.simplifyPass.value.isUndefined = false := hvb.1.isUndefined
    rw [hua, hub, Bool.or_false, if_neg Bool.false_ne_true] at hs
    rw [simplifyOnce_binary, hva.1.isUndefined, hvb.1.isUndefined, Bool.or_false,
      if_neg Bool.false_ne_true]
    have hv := hva.binary op hvb ho
    exact hv.normalizeBinary fun heq => hv.normalizeProduct (heq ▸ hs)

theorem HasValue.simplifyFor (h : f.HasValue ρ x) {limit : ℕ}
    (hs : .tangentQuotient ∉ (f.simplifyFor limit).steps) :
    (f.simplifyFor limit).value.1.HasValue ρ x := by
  induction limit generalizing f with
  | zero => exact h
  | succ limit ih =>
    rw [simplifyFor, Traced.steps_bind, List.mem_append, not_or] at hs
    have hv := h.simplifyOnce hs.1
    rw [value_simplifyFor]
    split
    · exact hv
    · next hne =>
      have hne : ¬f.simplifyPass.value == f := hne
      rw [if_neg hne] at hs
      exact ih hv hs.2

theorem HasValue.simplify (h : f.HasValue ρ x)
    (hs : .tangentQuotient ∉ f.simplifyTraced.steps) : f.simplify.HasValue ρ x :=
  h.simplifyFor fun hmem => hs (List.mem_append_left _ hmem)

/-- Without steps that make a tangent, simplification keeps the value of a formula wherever it is
defined, equivalent formulas agree wherever both are defined, and only formulas that are defined
nowhere become undefined. -/
theorem simplify_sound (f : Formula Exact) (hf : .tangentQuotient ∉ f.simplifyTraced.steps) :
    (∀ ρ, f.DefinedAt ρ → f.simplify.DefinedAt ρ ∧ f.simplify.valueAt ρ = f.valueAt ρ) ∧
    (∀ g : Formula Exact, .tangentQuotient ∉ g.simplifyTraced.steps → f.isEquivalent g →
      ∀ ρ, f.DefinedAt ρ → g.DefinedAt ρ → f.valueAt ρ = g.valueAt ρ) ∧
    (f.simplify.isUndefined → ∀ ρ, ¬f.DefinedAt ρ) := by
  refine ⟨?_, ?_, ?_⟩
  · intro ρ hd
    exact hd.hasValue.simplify hf
  · intro g hg hfg ρ hdf hdg
    have hsame : f.simplify = g.simplify := eq_of_beq_exact hfg
    rw [← (hdf.hasValue.simplify hf).2, hsame]
    exact (hdg.hasValue.simplify hg).2
  · intro hu ρ hd
    exact ne_true_of_eq_false (hd.hasValue.simplify hf).1.isUndefined hu

theorem simplify_sound_exp_ln :
    .tangentQuotient ∉ (unary .exp (unary .ln (var "x")) : Formula Exact).simplifyTraced.steps ∧
      (unary .exp (unary .ln (var "x"))).DefinedAt (fun _ => 2) ∧
      (unary .exp (unary .ln (var "x")) : Formula Exact).isEquivalent (var "x") ∧
      (unary .exp (unary .ln (var "x"))).simplify.HasValue (fun _ => 2)
        ((unary .exp (unary .ln (var "x"))).valueAt fun _ => 2) ∧
      (unary .exp (unary .ln (var "x"))).valueAt (fun _ => 2) =
        (var "x").valueAt fun _ => 2 := by
  have hsteps : (unary .exp (unary .ln (var "x")) : Formula Exact).simplifyTraced.steps =
    [.inverseFunctions] := rfl
  have hf : .tangentQuotient ∉
      (unary .exp (unary .ln (var "x")) : Formula Exact).simplifyTraced.steps := by
    rw [hsteps]
    decide
  have hg : .tangentQuotient ∉ (var "x" : Formula Exact).simplifyTraced.steps := List.not_mem_nil
  have hd : (unary .exp (unary .ln (var "x"))).DefinedAt fun _ => 2 :=
    ⟨⟨trivial, two_pos⟩, trivial⟩
  obtain ⟨hv, he, -⟩ := simplify_sound _ hf
  exact ⟨hf, hd, rfl, hv _ hd, he (var "x") hg rfl _ hd trivial⟩

end Formula
end SymCalc
