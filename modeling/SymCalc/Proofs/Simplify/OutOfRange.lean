import SymCalc.Proofs.Formula.Equality
import SymCalc.Proofs.Simplify.Convergence
import SymCalc.Proofs.Simplify.Folding

/-!
# Why a formula becomes undefined

* `Formula.LacksCoefficient`: the constants of a product have no finite quotient;
* `Formula.LacksCoefficients`: a term of a sum lacks its coefficient, or constants or coefficients
  of like terms have no finite sum;
* `Formula.OutOfRange`: one of these for an operation with simplified operands, or a function has no
  finite value at a constant;
* `Formula.LeavesRange`: the operation is out of range once its operands have been simplified.

A pass makes a formula with finite constants undefined exactly if a part of it leaves the range
(`Formula.isUndefined_simplifyOnce_iff`). No other rule does: cancelling, merging and the rules for
functions of anything but constants keep a formula defined. Where all parts of a formula have finite
values, the parts without variables do not leave the range in the first pass, since it computes them
as they are evaluated (`Formula.isUndefined_simplify_iff`). The other parts can, because a pass
multiplies and adds constants that an evaluation does not.
-/

namespace SymCalc

open Scalar

variable {α : Type} [Scalar α]

/-! ## Definitions -/

/-- The terms of a sum that are not constants, after like terms have been combined. -/
def likeTerms (ms : List (Monomial α)) : List (Monomial α) :=
  (combineLikeTerms ((ms.filter (!·.isConstant)).map Monomial.sorted)).value

namespace Formula

/-- Whether the formula is a product or a quotient. -/
def isProduct : Formula α → Bool
  | binary .mul _ _ | binary .div _ _ => true
  | _ => false

/-- Whether the constants of a product make no coefficient: those below the fraction bar make zero,
or the quotient of those above it by them is not finite. -/
def LacksCoefficient (f : Formula α) : Prop :=
  (f.pieces false).foldl Piece.under 1 == 0 ∨
    isFinite ((f.pieces false).foldl Piece.above 1 / (f.pieces false).foldl Piece.under 1) = false

/-- Whether the coefficients of a sum do not all exist: those of its terms, the sum of its
constants, and the sums of the coefficients of like terms. -/
def LacksCoefficients (f : Formula α) : Prop :=
  (∃ t ∈ f.signedTerms false, t.2.LacksCoefficient) ∨
    ∃ ms, (f.signedTerms false).mapM Monomial.ofTerm? = some ms ∧
      (isFinite (constantPart ms) = false ∨ ∃ t ∈ likeTerms ms, isFinite t.coeff = false)

/-- Whether the constants that an operation with simplified operands computes with have no finite
result. A percentage computes nothing. -/
inductive OutOfRange : Formula α → Prop
  | function {op : UnaryOp} {v : α} (hop : op ≠ .percent) (h : isFinite (op.apply v) = false) :
      OutOfRange (unary op (const v))
  | product {f : Formula α} (hf : f.isProduct) (h : f.LacksCoefficient) : OutOfRange f
  | oppositeProduct {f : Formula α} (hf : f.isProduct) (h : (-f).LacksCoefficient) :
      OutOfRange (-f)
  | sum {f : Formula α} (hf : f.isSum) (h : f.LacksCoefficients) : OutOfRange f
  | oppositeSum {f : Formula α} (hf : f.isSum) (h : (-f).LacksCoefficients) : OutOfRange (-f)

/-- Whether a pass over the operands of the formula leaves them defined, and the operation on the
results is out of range. -/
def LeavesRange : Formula α → Prop
  | const _ | var _ => False
  | unary op a => a.simplifyOnce.isUndefined = false ∧ (unary op a.simplifyOnce).OutOfRange
  | binary op a b => a.simplifyOnce.isUndefined = false ∧ b.simplifyOnce.isUndefined = false ∧
      (binary op a.simplifyOnce b.simplifyOnce).OutOfRange

end Formula

/-! ## Merging terms -/

section
variable [LawfulScalar α] {v w : α} {terms ms : List (Monomial α)}

@[simp] theorem isFinite_magnitude (v : α) : isFinite (magnitude v) = isFinite v := by
  unfold magnitude
  split
  · exact LawfulScalar.isFinite_neg v
  · rfl

theorem isFinite_mergedLogarithm (fs gs : List (Formula α)) :
    isFinite (mergedLogarithm fs gs).coeff := by
  unfold mergedLogarithm
  split <;> simp

/-- Logarithms that are merged have the coefficient one or its opposite. -/
theorem isFinite_mergeLogarithms_iff (terms : List (Monomial α)) :
    (∀ t ∈ (mergeLogarithms terms).value, isFinite t.coeff) ↔ ∀ t ∈ terms, isFinite t.coeff := by
  have hlog {t : Monomial α} (h : t.logArgument?.isSome) : isFinite t.coeff := by
    obtain ⟨a, ha⟩ := Option.isSome_iff_exists.1 h
    rw [← isFinite_magnitude, isFinite_eq_of_beq (Monomial.eq_of_logArgument? ha).2.2]
    exact LawfulScalar.isFinite_one
  rw [value_mergeLogarithms]
  split
  · rfl
  · simp only [List.forall_mem_append, List.forall_mem_singleton, isFinite_mergedLogarithm,
      and_true, List.mem_filter, and_imp]
    refine ⟨fun h t ht => ?_, fun h t ht _ => h t ht⟩
    cases hsome : t.logArgument?.isSome with
    | true => exact hlog hsome
    | false => exact h t ht (by rw [hsome]; rfl)

/-- The coefficients of two terms that are merged differ at most in sign. -/
theorem isFinite_mergeAngleSums_iff (terms : List (Monomial α)) :
    (∀ t ∈ (mergeAngleSums terms).value, isFinite t.coeff) ↔ ∀ t ∈ terms, isFinite t.coeff := by
  refine mergeAngleSums_invariant
    (P := fun ts => (∀ t ∈ ts, isFinite t.coeff) ↔ ∀ t ∈ terms, isFinite t.coeff) ?_ .rfl
  intro ts a b t step rest hab hp hts
  obtain ⟨hmagnitude, f, hterm, -⟩ := exists_of_angleSum? hab
  have hfin := isFinite_eq_of_beq hmagnitude
  rw [isFinite_magnitude, isFinite_magnitude] at hfin
  have hmem : ∀ t, t ∈ ts ↔ t ∈ a :: b :: rest := fun t => hp.mem_iff
  rw [← hts]
  simp only [hmem, hterm, List.forall_mem_append, List.forall_mem_singleton,
    List.forall_mem_cons, ← hfin]
  tauto

theorem isFinite_mergedTerms_iff (ms : List (Monomial α)) :
    (∀ t ∈ mergedTerms ms, isFinite t.coeff) ↔ ∀ t ∈ likeTerms ms, isFinite t.coeff :=
  (isFinite_mergeAngleSums_iff _).trans (isFinite_mergeLogarithms_iff _)

end

/-! ## Products and sums -/

namespace Formula

variable {f g : Formula α} {P : α → Prop} {Q : String → Prop}

theorem of?_eq_none_iff : Monomial.of? f = none ↔ f.LacksCoefficient := by
  refine ⟨Monomial.of_ofPieces?_eq_none, fun h => ?_⟩
  cases hm : Monomial.of? f with
  | none => rfl
  | some m =>
    obtain ⟨h0, hfin, rfl⟩ := Monomial.eq_of_ofPieces? hm
    rcases h with h | h
    · rw [h0] at h
      cases h
    · rw [h] at hfin
      cases hfin

theorem mapM_ofTerm?_eq_none_iff (ts : List (Bool × Formula α)) :
    ts.mapM Monomial.ofTerm? = none ↔ ∃ t ∈ ts, t.2.LacksCoefficient := by
  have hterm (t : Bool × Formula α) : Monomial.ofTerm? t = none ↔ t.2.LacksCoefficient := by
    rw [Monomial.ofTerm?, Option.map_eq_none_iff, of?_eq_none_iff]
  induction ts with
  | nil => simp
  | cons t ts ih =>
    have htail : (∃ t ∈ ts, t.2.LacksCoefficient) ↔ ts.mapM Monomial.ofTerm? = none := ih.symm
    rw [List.exists_mem_cons_iff, htail, ← hterm, List.mapM_cons]
    cases Monomial.ofTerm? t <;> cases ts.mapM Monomial.ofTerm? <;> simp [bind, pure]

variable [LawfulScalar α]

theorem Forall.isUndefined (hP : ∀ v, P v → isFinite v) (hf : f.Forall P Q) :
    f.isUndefined = false := by
  cases f with
  | const v => exact isUndefined_const (hP v hf)
  | var _ | unary _ _ | binary _ _ _ => rfl

theorem isUndefined_ofValue_iff (v : α) :
    (ofValue v).isUndefined ↔ isFinite v = false := by
  cases hv : isFinite v with
  | false => simp [ofValue_of_not_isFinite hv]
  | true =>
    obtain ⟨w, hw, hproper, -⟩ := exists_ofValue_of_isFinite hv
    simp [hw, isUndefined_const hproper.isFinite]

theorem isUndefined_normalizeProduct_iff (hf : f.IsProper) :
    f.normalizeProduct.value.isUndefined ↔ f.LacksCoefficient := by
  rw [← of?_eq_none_iff]
  rcases normalizeProduct_cases f with ⟨hnone, h⟩ | ⟨m, hm, -⟩
  · simp [hnone, h]
  · have hdef := (hf.normalizeProduct_of_of? isClosed_isProper hm).isUndefined
      isClosed_isProper.isFinite
    simp [hm, hdef]

theorem isUndefined_normalizeSum_iff (hf : f.IsProper) :
    f.normalizeSum.value.isUndefined ↔ f.LacksCoefficients := by
  unfold LacksCoefficients
  rw [← mapM_ofTerm?_eq_none_iff]
  rcases normalizeSum_cases f with ⟨hnone, h⟩ | ⟨ms, hms, h⟩
  · simp [hnone, h]
  · have hterms : (∃ t ∈ likeTerms ms, isFinite t.coeff = false) ↔
        ¬ ∀ t ∈ mergedTerms ms, isFinite t.coeff := by
      rw [isFinite_mergedTerms_iff]
      simp
    simp only [hms, reduceCtorEq, Option.some.injEq, false_or, exists_eq_left', hterms]
    by_cases hfin : isFinite (constantPart ms) ∧ ∀ t ∈ mergedTerms ms, isFinite t.coeff
    · have hdef := (hf.normalizeSum_of_isFinite isClosed_isProper hms hfin.1
        hfin.2).isUndefined isClosed_isProper.isFinite
      simpa [hdef, hfin.1] using hfin.2
    · rw [if_neg (by simpa [List.all_eq_true] using hfin)] at h
      simp only [h, isUndefined_undefined, true_iff]
      cases hconst : isFinite (constantPart ms) with
      | false => exact .inl rfl
      | true => exact .inr fun hall => hfin ⟨hconst, hall⟩

/-! ## One operation -/

theorem not_lacksCoefficient_neg (hf : f.isFactor) : ¬ (-f).LacksCoefficient := by
  have hpieces : (-f).pieces false = [.negation, .factor f false] :=
    congrArg (Piece.negation :: ·) (pieces_of_isFactor hf false)
  simp [LacksCoefficient, hpieces, Piece.above, Piece.under]

theorem not_outOfRange_neg (hf : f.IsProper) (hp : f.isProduct = false) (hs : f.isSum = false) :
    ¬ (-f).OutOfRange := by
  intro h
  cases h with
  | @function op v _ h =>
    have hfin : isFinite (-v) = true := (LawfulScalar.isFinite_neg v).trans hf.isFinite
    exact Bool.false_ne_true (h.symm.trans hfin)
  | product h | sum h => cases h
  | oppositeProduct h => exact Bool.false_ne_true (hp.symm.trans h)
  | oppositeSum h => exact Bool.false_ne_true (hs.symm.trans h)

theorem isUndefined_normalizeNegation_iff (hf : f.IsProper) :
    f.normalizeNegation.value.isUndefined ↔ (-f).OutOfRange := by
  have hneg : (-f).IsProper := hf
  have hfactor (h : f.isFactor) : ¬ (-f).normalizeProduct.value.isUndefined := fun hundef =>
    not_lacksCoefficient_neg h ((isUndefined_normalizeProduct_iff hneg).1 hundef)
  cases f with
  | const v =>
    refine iff_of_false ?_ (not_outOfRange_neg hf rfl rfl)
    change ¬ (ofValue (-v)).isUndefined
    rw [isUndefined_ofValue_iff, LawfulScalar.isFinite_neg, hf.isFinite]
    exact Bool.false_ne_true ∘ Eq.symm
  | var x => exact iff_of_false (hfactor rfl) (not_outOfRange_neg hf rfl rfl)
  | unary op a =>
    refine iff_of_false ?_ (not_outOfRange_neg hf rfl rfl)
    cases op with
    | negate =>
      have ha : a.IsProper := hf
      exact ne_true_of_eq_false (ha.isUndefined isClosed_isProper.isFinite)
    | exp | ln | cos | sin | tan | percent => exact hfactor rfl
  | binary op a b =>
    cases op with
    | add | sub =>
      refine (isUndefined_normalizeSum_iff hneg).trans ⟨.oppositeSum rfl, fun h => ?_⟩
      cases h with
      | oppositeSum _ h => exact h
      | product h | oppositeProduct h | sum h => cases h
    | mul | div =>
      refine (isUndefined_normalizeProduct_iff hneg).trans ⟨.oppositeProduct rfl, fun h => ?_⟩
      cases h with
      | oppositeProduct _ h => exact h
      | product h | sum h | oppositeSum h => cases h

theorem isUndefined_normalizeBinary_iff (hf : f.IsProper) (hg : g.IsProper) (op : ArithOp) :
    (normalizeBinary op f g).value.isUndefined ↔ (binary op f g).OutOfRange := by
  have hfg : (binary op f g).IsProper := ⟨hf, hg⟩
  cases op with
  | add | sub =>
    refine (isUndefined_normalizeSum_iff hfg).trans ⟨.sum rfl, fun h => ?_⟩
    cases h with
    | sum _ h => exact h
    | product h => cases h
  | mul | div =>
    refine (isUndefined_normalizeProduct_iff hfg).trans ⟨.product rfl, fun h => ?_⟩
    cases h with
    | product _ h => exact h
    | sum h => cases h

variable [LawfulFunctions α]

theorem isUndefined_normalizeUnary_iff (hf : f.IsProper) (op : UnaryOp) :
    (normalizeUnary op f).value.isUndefined ↔ (unary op f).OutOfRange := by
  by_cases hop : op = .negate
  · subst hop
    exact isUndefined_normalizeNegation_iff hf
  have hfunction (h : (unary op f).OutOfRange) :
      ∃ v, f = const v ∧ op ≠ .percent ∧ isFinite (op.apply v) = false := by
    cases h with
    | function hpercent h => exact ⟨_, rfl, hpercent, h⟩
    | product h | sum h => cases h
    | oppositeProduct | oppositeSum => exact absurd rfl hop
  by_cases hconst : f.isConst → op = .percent
  · have hdef := (hf.normalizeUnary_of_isConst isClosed_isProper hop hconst).isUndefined
      isClosed_isProper.isFinite
    refine iff_of_false (ne_true_of_eq_false hdef) fun h => ?_
    obtain ⟨v, rfl, hpercent, -⟩ := hfunction h
    exact hpercent (hconst rfl)
  · obtain ⟨hconst, hpercent⟩ := Classical.not_imp.1 hconst
    obtain ⟨v, rfl⟩ : ∃ v, f = const v := by
      cases f with
      | const v => exact ⟨v, rfl⟩
      | var _ | unary _ _ | binary _ _ _ => cases hconst
    rw [normalizeUnary_const hpercent hf, isUndefined_ofValue_iff]
    refine ⟨.function hpercent, fun h => ?_⟩
    obtain ⟨w, hw, -, h⟩ := hfunction h
    cases hw
    exact h

/-! ## Passes -/

/-- A pass makes a formula with finite constants undefined exactly if a part of it leaves the
range. -/
theorem isUndefined_simplifyOnce_iff (hf : f.Forall (isFinite ·) fun _ => True) :
    f.simplifyOnce.isUndefined ↔ ∃ g ∈ f.postOrder, g.LeavesRange := by
  have hproper (a : Formula α) (ha : a.simplifyOnce.isUndefined = false) :
      a.simplifyOnce.IsProper := by
    have hleaves : a.Forall (fun _ => True) fun _ => True :=
      forall_iff_postOrder.2 fun _ _ => trivial
    rcases hleaves.simplifyOnce isClosed_isProper with h | h
    · rw [h, isUndefined_undefined] at ha
      cases ha
    · exact h
  induction f with
  | const v =>
    rw [simplifyOnce_const, isUndefined_ofValue_iff, show isFinite v = true from hf]
    simp [postOrder, LeavesRange]
  | var x => simp [postOrder, LeavesRange, simplifyOnce, simplifyPass, isUndefined]
  | unary op a ih =>
    simp only [postOrder, List.mem_append, List.mem_singleton, or_and_right, exists_or,
      exists_eq_left, ← ih hf]
    rw [simplifyOnce_unary, LeavesRange]
    cases ha : a.simplifyOnce.isUndefined with
    | true => simp
    | false => simp [isUndefined_normalizeUnary_iff (hproper a ha)]
  | binary op a b iha ihb =>
    simp only [postOrder, List.mem_append, List.mem_singleton, or_and_right, exists_or,
      exists_eq_left, ← iha hf.1, ← ihb hf.2]
    rw [simplifyOnce_binary, LeavesRange]
    cases ha : a.simplifyOnce.isUndefined with
    | true => simp
    | false =>
      cases hb : b.simplifyOnce.isUndefined with
      | true => simp
      | false => simp [isUndefined_normalizeBinary_iff (hproper a ha) (hproper b hb)]

omit [LawfulFunctions α] in
theorem undefined_or_forall_iterate (hf : f.Forall (isFinite ·) fun _ => True) (n : ℕ) :
    simplifyOnce^[n] f = undefined ∨ (simplifyOnce^[n] f).Forall (isFinite ·) fun _ => True := by
  cases n with
  | zero => exact .inr hf
  | succ n =>
    have hleaves : (simplifyOnce^[n] f).Forall (fun _ => True) fun _ => True :=
      forall_iff_postOrder.2 fun _ _ => trivial
    rw [Function.iterate_succ_apply']
    exact (hleaves.simplifyOnce isClosed_isProper).imp_right
      (Forall.imp (fun _ hv => hv.isFinite) fun _ hx => hx)

/-- Passes make a formula with finite constants undefined exactly if in one of them a part leaves
the range. -/
theorem isUndefined_iterate_iff (hf : f.Forall (isFinite ·) fun _ => True) (n : ℕ) :
    (simplifyOnce^[n] f).isUndefined ↔
      ∃ k < n, ∃ g ∈ (simplifyOnce^[k] f).postOrder, g.LeavesRange := by
  induction n with
  | zero => simp [hf.isUndefined fun _ h => h]
  | succ n ih =>
    rw [Function.iterate_succ_apply', Nat.exists_lt_succ_right, ← ih]
    rcases undefined_or_forall_iterate hf n with h | h
    · rw [h, isFixpoint_undefined]
      simp
    · rw [isUndefined_simplifyOnce_iff h]
      simp [h.isUndefined fun _ h => h]

/-! ## Formulas whose parts have finite values -/

variable {b : Bindings α}

omit [LawfulScalar α] [LawfulFunctions α] in
theorem HasFiniteParts.forall_finite (h : f.HasFiniteParts b) :
    f.Forall (Scalar.isFinite ·) fun _ => True := by
  refine forall_iff_postOrder.2 fun v hv => ?_
  obtain ⟨w, hw, hfin⟩ := h _ hv
  cases hw
  exact hfin

omit [LawfulScalar α] [LawfulFunctions α] in
theorem HasFiniteParts.of_mem (h : f.HasFiniteParts b) (hg : g ∈ f.postOrder) :
    g.HasFiniteParts b := fun a ha => h a (mem_postOrder_trans ha hg)

/-- What a pass computes as it is evaluated does not leave the range. -/
theorem HasFiniteParts.not_leavesRange (h : f.HasFiniteParts b) (hvar : ∀ x, var x ∉ f.postOrder)
    (hpercent : ∀ a, unary .percent a ∉ f.postOrder) : ¬ f.LeavesRange := by
  intro hf
  obtain ⟨v, hv⟩ := exists_foldsTo b hvar hpercent
  have hundef := (isUndefined_simplifyOnce_iff h.forall_finite).2 ⟨f, mem_postOrder_self f, hf⟩
  rw [hv.eq_ofValue h, isUndefined_ofValue_iff, h.isFinite hv.eval_eq] at hundef
  cases hundef

theorem isUndefined_simplify_iff (h : f.HasFiniteParts b) : f.simplify.isUndefined ↔
    ∃ k < maxPasses, ∃ g ∈ (simplifyOnce^[k] f).postOrder, g.LeavesRange ∧
      (k = 0 → (∃ x, var x ∈ g.postOrder) ∨ ∃ a, unary .percent a ∈ g.postOrder) := by
  rw [simplify_eq_iterate, isUndefined_iterate_iff h.forall_finite]
  refine exists_congr fun k => and_congr_right fun _ => exists_congr fun g =>
    and_congr_right fun hg => ⟨fun hrange => ⟨hrange, ?_⟩, And.left⟩
  rintro rfl
  by_contra hclosed
  rw [not_or, not_exists, not_exists] at hclosed
  exact (h.of_mem hg).not_leavesRange hclosed.1 hclosed.2 hrange

end Formula

/-! ## Doubles -/

/-- The product of `1e200*x` and `1e200*y`, whose constants have no finite product. -/
def tooLarge : Formula Float := (.const 1e200 * .var "x") * (.const 1e200 * .var "y")

/-- Values that make every part of `tooLarge` finite. -/
def smallBindings : Bindings Float := ⟨[("x", 1e-200), ("y", 1e-200)]⟩

namespace Functions

open Formula

variable {F : Functions}

set_option maxRecDepth 4000 in
theorem hasFiniteParts_tooLarge (F : Functions) :
    letI := F.scalar
    tooLarge.HasFiniteParts smallBindings := by
  have hlarge : (1e200 : Float).isFinite := by decide
  have hsmall : (1e-200 : Float).isFinite := by decide
  have hfactor : (1e200 * 1e-200 : Float).isFinite := by decide
  have hproduct : (1e200 * 1e-200 * (1e200 * 1e-200) : Float).isFinite := by decide
  intro g hg
  simp only [tooLarge, Formula.postOrder, Formula.mul_eq, List.cons_append, List.nil_append,
    List.mem_cons, List.not_mem_nil, or_false] at hg
  rcases hg with rfl | rfl | rfl | rfl | rfl | rfl | rfl
  · exact ⟨_, rfl, hlarge⟩
  · exact ⟨_, rfl, hsmall⟩
  · exact ⟨_, rfl, hfactor⟩
  · exact ⟨_, rfl, hlarge⟩
  · exact ⟨_, rfl, hsmall⟩
  · exact ⟨_, rfl, hfactor⟩
  · exact ⟨_, rfl, hproduct⟩

/-- If evaluation in doubles gives a finite value for every part of a formula, the formula
simplifies to an undefined one exactly if in some pass the constants of a part have no finite
result. In the first pass this is no part without variables and percentages. -/
theorem IsLibrary.simplify_undefined_iff_leavesRange (hF : F.IsLibrary) (b : Bindings Float)
    (f : Formula Float) :
    letI := F.scalar
    f.HasFiniteParts b → (f.simplify.isUndefined ↔
      ∃ k < maxPasses, ∃ g ∈ (simplifyOnce^[k] f).postOrder, g.LeavesRange ∧
        (k = 0 → (∃ x, .var x ∈ g.postOrder) ∨ ∃ a, .unary .percent a ∈ g.postOrder)) :=
  letI := F.scalar
  haveI := F.lawfulScalar
  haveI := hF.lawfulFunctions
  Formula.isUndefined_simplify_iff

/-- The constants of `1e200*x*(1e200*y)` leave the range. -/
theorem IsLibrary.exists_leavesRange_tooLarge :
    letI := coarse.scalar
    tooLarge.simplify.isUndefined ∧
      ∃ k < maxPasses, ∃ g ∈ (simplifyOnce^[k] tooLarge).postOrder, g.LeavesRange ∧
        (k = 0 → (∃ x, .var x ∈ g.postOrder) ∨ ∃ a, .unary .percent a ∈ g.postOrder) := by
  let := coarse.scalar
  have hundef : tooLarge.simplify.isUndefined := by decide +kernel
  exact ⟨hundef, (isLibrary_coarse.simplify_undefined_iff_leavesRange smallBindings tooLarge
    (hasFiniteParts_tooLarge coarse)).1 hundef⟩

/-- A formula can become undefined although all its parts have finite values. -/
theorem simplify_undefined_of_hasFiniteParts :
    tooLarge.HasFiniteParts smallBindings ∧ tooLarge.simplify.isUndefined :=
  ⟨hasFiniteParts_tooLarge double, by decide +kernel⟩

end Functions
end SymCalc
