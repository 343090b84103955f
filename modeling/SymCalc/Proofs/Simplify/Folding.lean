import SymCalc.Formula.Value
import SymCalc.Proofs.Formula.Leaves
import SymCalc.Proofs.Scalar.Double
import SymCalc.Proofs.Simplify.Shape

/-!
# Computing with constants

* `LawfulFunctions`: what the rules for functions of constants rely on;
* `Formula.HasFiniteParts`: whether all parts of a formula have finite values;
* `Formula.FoldsTo`: whether a pass computes the value of a formula;
* `Double.Functions.IsLibrary`: what is known about the functions of doubles.

The normal form of an operation on constants is the constant for its result
(`Formula.normalizeUnary_const`, `Formula.normalizeBinary_const`), although sums collect signs and
products collect numerator and denominator first. Hence a pass computes the value of a formula
without variables, or makes the formula undefined if a part of it has no finite value
(`Formula.exists_foldsTo`).
-/

namespace SymCalc

open Scalar

/-- What the rules for functions of constants rely on: some exact values, that only positive numbers
have a logarithm, and that equal numbers have the same exponential, cosine, sine and tangent. -/
class LawfulFunctions (α : Type) [Scalar α] : Prop where
  exp_one : exp (1 : α) = euler
  ln_euler : ln (euler : α) = 1
  cos_pi : cos (pi : α) = -1
  isFinite_ln {v : α} : isFinite v → lt 0 v = false → isFinite (ln v) = false
  exp_congr {v w : α} : v == w → Agree (exp v) (exp w)
  cos_congr {v w : α} : v == w → Agree (cos v) (cos w)
  sin_congr {v w : α} : v == w → Agree (sin v) (sin w)
  tan_congr {v w : α} : v == w → Agree (tan v) (tan w)

/-! ## Constants alone -/

namespace Formula

variable {α : Type} [Scalar α] {f g : Formula α} {v : α}

theorem mergedTerms_of_isConstant {ms : List (Monomial α)} (h : ∀ m ∈ ms, m.isConstant) :
    mergedTerms ms = [] := by
  have hnil : ms.filter (!·.isConstant) = [] := by simpa using h
  simp [mergedTerms, hnil, combineLikeTerms, value_mergeLogarithms, mergeAngleSums, firstMerge?]

/-- The quotient of the products of the constants above and below the fraction bar. -/
theorem normalizeProduct_of_isConst (hf : ∀ p ∈ f.pieces false, p.isConst) :
    f.normalizeProduct.value = if (f.pieces false).foldl Piece.under 1 == 0 then undefined else
      ofValue ((f.pieces false).foldl Piece.above 1 / (f.pieces false).foldl Piece.under 1) := by
  have hfactors (below : Bool) : (f.pieces false).filterMap (·.factor? below) = [] := by
    rw [List.filterMap_eq_nil_iff]
    intro p hp
    have hp := hf p hp
    cases p with
    | const v b => rfl
    | negation | factor => cases hp
  rcases normalizeProduct_cases f with ⟨hnone, h⟩ | ⟨m, hm, h⟩
  · rw [h]
    rcases Monomial.of_ofPieces?_eq_none hnone with h0 | hfin
    · rw [if_pos h0]
    · rw [ofValue_of_not_isFinite hfin, ite_self]
  · obtain ⟨h0, hfin, rfl⟩ := Monomial.eq_of_ofPieces? hm
    rw [if_neg (ne_true_of_eq_false h0)]
    rcases h with ⟨hzero, h⟩ | ⟨-, -, h⟩
    · rw [h, ofValue_of_beq_zero hfin hzero]
    · rw [h, hfactors, hfactors]
      simp [Monomial.cancelFactors, cancel, Monomial.tangentQuotients, combineTangents,
        Monomial.value_mergeExponentials, Monomial.sorted, sort, Monomial.toFormula,
        Monomial.numerator]

/-! ## Values of all parts -/

variable {b : Bindings α}

/-- Whether the values of all parts of the formula are finite. -/
def HasFiniteParts (b : Bindings α) (f : Formula α) : Prop :=
  ∀ g ∈ f.postOrder, ∃ v, g.eval b = .ok v ∧ isFinite v

theorem hasFiniteParts_unary {op : UnaryOp} (h : (unary op f).eval b = .ok v) :
    (unary op f).HasFiniteParts b ↔ f.HasFiniteParts b ∧ isFinite v := by
  simp only [HasFiniteParts, postOrder, List.forall_mem_append, List.forall_mem_singleton, h,
    Except.ok.injEq, exists_eq_left']

theorem hasFiniteParts_binary {op : ArithOp} (h : (binary op f g).eval b = .ok v) :
    (binary op f g).HasFiniteParts b ↔
      (f.HasFiniteParts b ∧ g.HasFiniteParts b) ∧ isFinite v := by
  simp only [HasFiniteParts, postOrder, List.forall_mem_append, List.forall_mem_singleton, h,
    Except.ok.injEq, exists_eq_left']

theorem HasFiniteParts.isFinite (h : f.HasFiniteParts b) (hv : f.eval b = .ok v) :
    isFinite v := by
  obtain ⟨w, hw, hfin⟩ := h f (mem_postOrder_self f)
  cases hv.symm.trans hw
  exact hfin

end Formula

variable {α : Type} [Scalar α] [LawfulScalar α] {v v' w w' : α}

/-! ## Equal operands -/

theorem Scalar.eq_of_beq_of_pos (h : v == w) (hpos : lt 0 w) (hw : isFinite w) : v = w :=
  eq_of_beq_of_ne_zero h (beq_zero_eq_false_of_pos hpos hw)

theorem Scalar.zero_lt_eq_false_of_beq_zero (hv : isFinite v) (h : v == 0) : lt 0 v = false := by
  rcases sign_cases hv with ⟨-, -, h'⟩ | ⟨h', -⟩ | ⟨h', -⟩
  · rw [h] at h'
    cases h'
  · exact h'
  · exact h'

theorem ArithOp.apply_congr (op : ArithOp) (hv : v == v') (hw : w == w') :
    Agree (op.apply v w) (op.apply v' w') := by
  cases op with
  | add => exact LawfulScalar.add_congr hv hw
  | sub =>
    change Agree (v - w) (v' - w')
    rw [LawfulScalar.sub_eq_add_neg, LawfulScalar.sub_eq_add_neg]
    exact LawfulScalar.add_congr hv ((LawfulScalar.neg_beq_neg w w').trans hw)
  | mul => exact LawfulScalar.mul_congr hv hw
  | div => exact LawfulScalar.div_congr hv hw

variable [LawfulFunctions α] in
theorem UnaryOp.apply_congr {op : UnaryOp} (hop : op ≠ .percent)
    (hv : isFinite v) (hw : isFinite w) (h : v == w) : Agree (op.apply v) (op.apply w) := by
  cases op with
  | negate =>
    have hfin : isFinite (-v) = isFinite (-w) := by
      rw [LawfulScalar.isFinite_neg, LawfulScalar.isFinite_neg, hv, hw]
    exact ⟨hfin, fun _ => (LawfulScalar.neg_beq_neg v w).trans h⟩
  | exp => exact LawfulFunctions.exp_congr h
  | ln =>
    rcases LawfulScalar.eq_or_zero_of_beq h with rfl | ⟨hv0, hw0⟩
    · exact agree_of_eq rfl
    · have hlnv := LawfulFunctions.isFinite_ln hv (zero_lt_eq_false_of_beq_zero hv hv0)
      have hlnw := LawfulFunctions.isFinite_ln hw (zero_lt_eq_false_of_beq_zero hw hw0)
      exact ⟨hlnv.trans hlnw.symm, fun h => absurd (hlnv.symm.trans h) Bool.false_ne_true⟩
  | cos => exact LawfulFunctions.cos_congr h
  | sin => exact LawfulFunctions.sin_congr h
  | tan => exact LawfulFunctions.tan_congr h
  | percent => exact absurd rfl hop

/-! ## Operations on constants -/

namespace Formula

variable {f g : Formula α}

theorem of?_const (hv : isFinite v) : Monomial.of? (const v) = some ⟨v, [], []⟩ := by
  simp [Monomial.of?, Monomial.ofPieces?, pieces, Piece.above, Piece.under, hv, Piece.factor?]

theorem assemble_nil (hv : isFinite v) : assemble v [] = ofValue v := by
  rcases sign_cases hv with h | h | h
  · simp [assemble, h, subtractAll, sort, sum]
  · simp [assemble, h, subtractAll, sort]
  · simp [assemble, h, subtractAll, sort, ofValue_of_beq_zero hv h.2.2]

/-- The sum of a constant and another one or its opposite. -/
theorem normalizeSum_of_signedTerms {negative : Bool}
    (hf : f.signedTerms false = [(false, const v), (negative, const w)]) (hv : Scalar.IsProper v)
    (hw : isFinite w) :
    f.normalizeSum.value = ofValue (v + if negative then -w else w) := by
  have hmonomials : (f.signedTerms false).mapM Monomial.ofTerm? =
      some [⟨v, [], []⟩, ⟨if negative then -w else w, [], []⟩] := by
    rw [hf]
    cases negative <;> simp [Monomial.ofTerm?, of?_const hv.isFinite, of?_const hw,
      Monomial.negated]
  have hconstant : constantPart [⟨v, [], []⟩, ⟨if negative then -w else w, [], []⟩] =
      v + if negative then -w else w := by
    simp [constantPart, Monomial.isConstant, LawfulScalar.zero_add hv.isFinite hv.eq_zero]
  rw [normalizeSum_of_mapM hmonomials, mergedTerms_of_isConstant (by simp [Monomial.isConstant]),
    hconstant, List.all_nil, Bool.and_true]
  cases hfin : isFinite (v + if negative then -w else w) with
  | true => exact assemble_nil hfin
  | false => exact (ofValue_of_not_isFinite hfin).symm

theorem normalizeBinary_const (op : ArithOp) (hv : Scalar.IsProper v) (hw : Scalar.IsProper w) :
    (normalizeBinary op (const v) (const w)).value = ofValue (op.apply v w) := by
  cases op with
  | add => exact normalizeSum_of_signedTerms (f := const v + const w) rfl hv hw.isFinite
  | sub =>
    have h := normalizeSum_of_signedTerms (f := const v - const w) rfl hv hw.isFinite
    rwa [Bool.not_false, if_pos rfl, ← LawfulScalar.sub_eq_add_neg] at h
  | mul =>
    change (const v * const w).normalizeProduct.value = ofValue (v * w)
    rw [normalizeProduct_of_isConst (by simp [pieces, Piece.isConst])]
    simp [pieces, Piece.above, Piece.under]
  | div =>
    change (const v / const w).normalizeProduct.value = ofValue (v / w)
    rw [normalizeProduct_of_isConst (by simp [div_eq, pieces, Piece.isConst])]
    simp only [div_eq, pieces, Piece.above, Piece.under, Bool.not_false, List.cons_append,
      List.nil_append, List.foldl_cons, List.foldl_nil, LawfulScalar.one_mul]
    split
    · next h0 => exact (ofValue_of_not_isFinite (LawfulScalar.isFinite_div_zero v h0)).symm
    · rfl

variable [LawfulFunctions α]

theorem normalizeUnary_const {op : UnaryOp} (hop : op ≠ .percent) (hv : Scalar.IsProper v) :
    (normalizeUnary op (const v)).value = ofValue (op.apply v) := by
  cases op with
  | negate => rfl
  | exp =>
    change (if v == 1 then const euler else ofValue (exp v)) = ofValue (exp v)
    split
    · next h => rw [eq_one_of_beq h, LawfulFunctions.exp_one, ofValue_of_isProper isProper_euler]
    · rfl
  | ln =>
    cases hpos : lt 0 v with
    | true =>
      have h : (normalizeUnary .ln (const v)).value =
          if v == euler then const 1 else ofValue (ln v) := by
        simp [normalizeUnary, normalizeLn, hpos]
      refine h.trans ?_
      split
      · next heuler =>
        rw [eq_of_beq_of_pos heuler LawfulScalar.zero_lt_euler LawfulScalar.isFinite_euler,
          UnaryOp.apply, LawfulFunctions.ln_euler, ofValue_of_isProper isProper_one]
      · rfl
    | false =>
      have h : (normalizeUnary .ln (const v)).value = undefined := by
        simp [normalizeUnary, normalizeLn, hpos]
      refine h.trans (ofValue_of_not_isFinite ?_).symm
      exact LawfulFunctions.isFinite_ln hv.isFinite hpos
  | cos =>
    change (if v == pi then const (-1) else ofValue (cos v)) = ofValue (cos v)
    split
    · next hpi =>
      rw [eq_of_beq_of_pos hpi LawfulScalar.zero_lt_pi LawfulScalar.isFinite_pi,
        LawfulFunctions.cos_pi,
        ofValue_of_isProper (isProper_neg LawfulScalar.isFinite_one one_beq_zero)]
    · rfl
  | sin => rfl
  | tan => rfl
  | percent => exact absurd rfl hop

/-! ## Formulas without variables -/

/-- One step of the pass: the operand may have lost the sign of a zero, but this does not change the
constant for the result. -/
theorem simplifyOnce_unary_of_ofValue {op : UnaryOp} (hop : op ≠ .percent)
    (hf : f.simplifyOnce = ofValue v) (hv : isFinite v) :
    (unary op f).simplifyOnce = ofValue (op.apply v) := by
  obtain ⟨w, hw, hproper, hvw⟩ := exists_ofValue_of_isFinite hv
  rw [simplifyOnce_unary, hf, hw, isUndefined_const hproper.isFinite, if_neg Bool.false_ne_true,
    normalizeUnary_const hop hproper]
  exact (ofValue_eq_of_agree (op.apply_congr hop hv hproper.isFinite hvw)).symm

omit [LawfulFunctions α] in
theorem simplifyOnce_binary_of_ofValue {op : ArithOp} (hf : f.simplifyOnce = ofValue v)
    (hg : g.simplifyOnce = ofValue w) (hv : isFinite v) (hw : isFinite w) :
    (binary op f g).simplifyOnce = ofValue (op.apply v w) := by
  obtain ⟨v', hv', hproper, hvv'⟩ := exists_ofValue_of_isFinite hv
  obtain ⟨w', hw', hproper', hww'⟩ := exists_ofValue_of_isFinite hw
  rw [simplifyOnce_binary, hf, hg, hv', hw', isUndefined_const hproper.isFinite,
    isUndefined_const hproper'.isFinite, Bool.or_self, if_neg Bool.false_ne_true,
    normalizeBinary_const op hproper hproper']
  exact (ofValue_eq_of_agree (op.apply_congr hvv' hww')).symm

/-- Whether the value of the formula is `v`, and a pass turns the formula into the constant for `v` if all
its parts have finite values, and otherwise makes it undefined. -/
structure FoldsTo (b : Bindings α) (f : Formula α) (v : α) : Prop where
  eval_eq : f.eval b = .ok v
  eq_ofValue : f.HasFiniteParts b → f.simplifyOnce = ofValue v
  eq_undefined : ¬ f.HasFiniteParts b → f.simplifyOnce = undefined

omit [LawfulScalar α] [LawfulFunctions α] in
theorem foldsTo_const (b : Bindings α) (v : α) : FoldsTo b (const v) v where
  eval_eq := rfl
  eq_ofValue _ := rfl
  eq_undefined h := by
    refine ofValue_of_not_isFinite (eq_false_of_ne_true fun hv => h fun g hg => ?_)
    cases List.mem_singleton.1 hg
    exact ⟨v, rfl, hv⟩

theorem FoldsTo.unary {op : UnaryOp} {b : Bindings α} (hop : op ≠ .percent) (h : FoldsTo b f v) :
    FoldsTo b (unary op f) (op.apply v) := by
  have heval : (Formula.unary op f).eval b = .ok (op.apply v) := by
    rw [eval, h.eval_eq]
    rfl
  have hfold (hf : f.HasFiniteParts b) : (Formula.unary op f).simplifyOnce = ofValue (op.apply v) :=
    simplifyOnce_unary_of_ofValue hop (h.eq_ofValue hf) (hf.isFinite h.eval_eq)
  refine ⟨heval, fun hparts => hfold ((hasFiniteParts_unary heval).1 hparts).1, fun hparts => ?_⟩
  by_cases hf : f.HasFiniteParts b
  · rw [hfold hf]
    refine ofValue_of_not_isFinite (eq_false_of_ne_true fun hv => hparts ?_)
    exact (hasFiniteParts_unary heval).2 ⟨hf, hv⟩
  · rw [simplifyOnce_unary, h.eq_undefined hf, isUndefined_undefined, if_pos rfl]

omit [LawfulFunctions α] in
theorem FoldsTo.binary {op : ArithOp} {b : Bindings α} (hf : FoldsTo b f v) (hg : FoldsTo b g w) :
    FoldsTo b (binary op f g) (op.apply v w) := by
  have heval : (Formula.binary op f g).eval b = .ok (op.apply v w) := by
    rw [eval, hf.eval_eq, hg.eval_eq]
    rfl
  have hfold (hpf : f.HasFiniteParts b) (hpg : g.HasFiniteParts b) :
      (Formula.binary op f g).simplifyOnce = ofValue (op.apply v w) :=
    simplifyOnce_binary_of_ofValue (hf.eq_ofValue hpf) (hg.eq_ofValue hpg)
      (hpf.isFinite hf.eval_eq) (hpg.isFinite hg.eval_eq)
  refine ⟨heval, fun hparts => ?_, fun hparts => ?_⟩
  · obtain ⟨hpf, hpg⟩ := ((hasFiniteParts_binary heval).1 hparts).1
    exact hfold hpf hpg
  · by_cases hpf : f.HasFiniteParts b
    · by_cases hpg : g.HasFiniteParts b
      · rw [hfold hpf hpg]
        refine ofValue_of_not_isFinite (eq_false_of_ne_true fun hv => hparts ?_)
        exact (hasFiniteParts_binary heval).2 ⟨⟨hpf, hpg⟩, hv⟩
      · rw [simplifyOnce_binary, hg.eq_undefined hpg, isUndefined_undefined, Bool.or_true,
          if_pos rfl]
    · rw [simplifyOnce_binary, hf.eq_undefined hpf, isUndefined_undefined, Bool.true_or, if_pos rfl]

/-- A pass computes the value of a formula without variables. -/
theorem exists_foldsTo (b : Bindings α) (hvar : ∀ x, var x ∉ f.postOrder)
    (hpercent : ∀ a, .unary .percent a ∉ f.postOrder) : ∃ v, FoldsTo b f v := by
  induction f with
  | const v => exact ⟨v, foldsTo_const b v⟩
  | var x => exact absurd (List.mem_singleton.2 rfl) (hvar x)
  | unary op a ih =>
    have hmem : a.postOrder ⊆ (Formula.unary op a).postOrder := List.subset_append_left ..
    obtain ⟨v, hv⟩ := ih (fun x h => hvar x (hmem h)) fun c h => hpercent c (hmem h)
    have hop : op ≠ .percent := by
      rintro rfl
      exact hpercent a (by simp [postOrder])
    exact ⟨_, hv.unary hop⟩
  | binary op a c iha ihc =>
    have hmema : a.postOrder ⊆ (Formula.binary op a c).postOrder := fun _ h => by
      simp [postOrder, h]
    have hmemc : c.postOrder ⊆ (Formula.binary op a c).postOrder := fun _ h => by
      simp [postOrder, h]
    obtain ⟨v, hv⟩ := iha (fun x h => hvar x (hmema h)) fun d h => hpercent d (hmema h)
    obtain ⟨w, hw⟩ := ihc (fun x h => hvar x (hmemc h)) fun d h => hpercent d (hmemc h)
    exact ⟨_, hv.binary hw⟩

end Formula

/-! ## Doubles -/

namespace Functions

variable {F : Functions}

/-- What is known about the functions of doubles: three exact values, that the logarithm of a number
that is not positive is infinite or no number, and that the sign of a zero makes no difference,
except for the sign of a zero. -/
structure IsLibrary (F : Functions) : Prop where
  exp_one : F.exp 1 = euler
  ln_euler : F.ln euler = 1
  cos_pi : F.cos pi = -1
  isFinite_ln {v : Float} : v.isFinite → ¬ 0 < v → (F.ln v).isFinite = false
  exp_neg_zero : Agree (F.exp (-0)) (F.exp 0)
  cos_neg_zero : Agree (F.cos (-0)) (F.cos 0)
  sin_neg_zero : Agree (F.sin (-0)) (F.sin 0)
  tan_neg_zero : Agree (F.tan (-0)) (F.tan 0)

theorem agree_of_beq {f : Float → Float} (h0 : Agree (f (-0)) (f 0)) {v w : Float} (h : v == w) :
    Agree (f v) (f w) := by
  rcases Double.eq_or_zero_of_beq h with rfl | ⟨rfl | rfl, rfl | rfl⟩
  · exact agree_of_eq rfl
  · exact agree_of_eq rfl
  · exact h0.symm
  · exact h0
  · exact agree_of_eq rfl

theorem IsLibrary.lawfulFunctions (h : F.IsLibrary) : @LawfulFunctions Float F.scalar :=
  @LawfulFunctions.mk Float F.scalar h.exp_one h.ln_euler h.cos_pi
    (fun hfin hpos => h.isFinite_ln hfin (of_decide_eq_false hpos))
    (agree_of_beq h.exp_neg_zero) (agree_of_beq h.cos_neg_zero) (agree_of_beq h.sin_neg_zero)
    (agree_of_beq h.tan_neg_zero)

/-- A pass over a formula without variables and percentages agrees with its evaluation in doubles:
if all parts have finite values, the result is the constant for the value, and otherwise it is
undefined. -/
theorem IsLibrary.simplifyOnce_eq_eval (hF : F.IsLibrary) (b : Bindings Float) (f : Formula Float)
    (hvar : ∀ x, .var x ∉ f.postOrder) (hpercent : ∀ a, .unary .percent a ∉ f.postOrder) :
    letI := F.scalar
    ∃ v, f.eval b = .ok v ∧
      (f.HasFiniteParts b → f.simplifyOnce = .ofValue v) ∧
      (¬ f.HasFiniteParts b → f.simplifyOnce = .undefined) :=
  letI := F.scalar
  haveI := F.lawfulScalar
  haveI := hF.lawfulFunctions
  have ⟨v, hv⟩ := Formula.exists_foldsTo b hvar hpercent
  ⟨v, hv.eval_eq, hv.eq_ofValue, hv.eq_undefined⟩

/-- Functions that have their exact values at the constants of the rules and are of first order
elsewhere. -/
def coarse : Functions where
  exp v := if v == 1 then euler else 1 + v
  ln v := if 0 < v then if v == euler then 1 else v - 1 else if v == 0 then -1 / 0 else 0 / 0
  cos v := if v == pi then -1 else 1
  sin v := v
  tan v := v

theorem isLibrary_coarse : coarse.IsLibrary where
  exp_one := by decide
  ln_euler := by decide
  cos_pi := by decide
  isFinite_ln {v} _ hpos := by
    change (if 0 < v then _ else if v == 0 then -1 / 0 else 0 / 0 : Float).isFinite = false
    rw [if_neg hpos]
    split <;> decide
  exp_neg_zero := by
    constructor <;> decide
  cos_neg_zero := by constructor <;> decide
  sin_neg_zero := by constructor <;> decide
  tan_neg_zero := by constructor <;> decide

/-- The formulas `ln(exp(1))+cos(PI)*3` and `ln(cos(PI))`. -/
theorem IsLibrary.simplifyOnce_eq_eval_ln :
    letI := coarse.scalar
    (.unary .ln (.unary .exp (.const 1)) + .unary .cos (.const pi) * .const 3 :
        Formula Float).simplifyOnce = .const (-2) ∧
      (.unary .ln (.unary .cos (.const pi)) : Formula Float).simplifyOnce = .undefined := by
  let := coarse.scalar
  constructor
  · obtain ⟨v, hv, h, -⟩ := isLibrary_coarse.simplifyOnce_eq_eval .empty
      (.unary .ln (.unary .exp (.const 1)) + .unary .cos (.const pi) * .const 3)
      (by simp [Formula.postOrder, Formula.mul_eq]) (by simp [Formula.postOrder, Formula.mul_eq])
    have hv : coarse.ln (coarse.exp 1) + coarse.cos pi * 3 = v := Except.ok.inj hv
    have hvalue : coarse.ln (coarse.exp 1) + coarse.cos pi * 3 = -2 := by decide
    obtain rfl : -2 = v := hvalue.symm.trans hv
    refine (h ?_).trans rfl
    intro g hg
    simp only [Formula.postOrder, Formula.mul_eq, List.cons_append, List.nil_append, List.mem_cons,
      List.not_mem_nil, or_false] at hg
    rcases hg with rfl | rfl | rfl | rfl | rfl | rfl | rfl | rfl <;>
      exact ⟨_, rfl, by decide⟩
  · obtain ⟨v, heval, -, h⟩ := isLibrary_coarse.simplifyOnce_eq_eval .empty
      (.unary .ln (.unary .cos (.const pi))) (by simp [Formula.postOrder])
      (by simp [Formula.postOrder])
    refine h fun hfin => ?_
    have hv : coarse.ln (coarse.cos pi) = v := Except.ok.inj heval
    have hfin : (coarse.ln (coarse.cos pi)).isFinite := hv ▸ hfin.isFinite heval
    exact absurd hfin (by decide)

end Functions
end SymCalc
