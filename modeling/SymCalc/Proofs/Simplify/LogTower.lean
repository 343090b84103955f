import SymCalc.Proofs.Formula.Equality
import SymCalc.Proofs.Simplify.Convergence

/-!
# Formulas that take many passes

* `Formula.logStep`, `Formula.logTower`: nested sums of which one pass simplifies the innermost.

The innermost sum of a tower makes one logarithm, which only the next pass finds out to be one. Then the
sum around it is the innermost. So a tower takes one more pass than it is high
(`Formula.iterate_simplifyOnce_logTower`), whatever the limit of passes is.
-/

namespace SymCalc
namespace Formula

open Scalar

variable {α : Type} [Scalar α] {h : Formula α}

/-- The formula `ln(x)`. -/
def lnX : Formula α := unary .ln (var "x")

/-- The formula `E/x`. -/
def eulerOverX : Formula α := const euler / var "x"

/-- The formula `ln(E/x*x)`, which is one. -/
def lnProduct : Formula α := unary .ln (eulerOverX * var "x")

/-- The formula `h*ln(x)+ln(E/x)`. -/
def logStep (h : Formula α) : Formula α := h * lnX + unary .ln eulerOverX

/-- The step repeated, from the constant one. -/
def logTower (n : ℕ) : Formula α := logStep^[n] (const 1)

variable [LawfulScalar α]

theorem isFixpoint_eulerOverX : (eulerOverX : Formula α).IsFixpoint := by
  have hreduced : (⟨euler, [], [var "x"]⟩ : Monomial α).IsReduced :=
    { isFinite := LawfulScalar.isFinite_euler
      ne_zero := beq_zero_eq_false_of_pos LawfulScalar.zero_lt_euler LawfulScalar.isFinite_euler
      isFactor := by
        rintro f (_ | ⟨_, ⟨⟩⟩)
        rfl
      isMerged :=
        { uncancelled := List.forall_mem_nil _
          tangents := List.forall_mem_nil _
          exponents := Nat.zero_lt_two } }
  have hnormal := hreduced.normalizeProduct_toFormula
    (congrArg₂ (Monomial.mk euler) (sort_of_isSorted .nil) (sort_of_isSorted (List.pairwise_singleton ..)))
  have hformula : (⟨euler, [], [var "x"]⟩ : Monomial α).toFormula = eulerOverX := by
    change ofValue euler / product [var "x"] = _
    rw [ofValue_of_isProper isProper_euler]
    rfl
  rw [hformula] at hnormal
  have heuler : (const euler : Formula α).simplifyOnce = const euler := ofValue_of_isProper isProper_euler
  unfold IsFixpoint eulerOverX
  rw [div_eq, simplifyOnce_binary, heuler, isUndefined_const LawfulScalar.isFinite_euler]
  exact hnormal

theorem cancel_var (x : String) : cancel [(var x : Formula α)] [var x] = ([], []) := by
  rw [cancel, eraseFirst?, if_pos (isSame_self _)]
  rfl

theorem normalizeProduct_eulerOverX_mul :
    (eulerOverX * var "x" : Formula α).normalizeProduct.value = const euler := by
  have h0 : ((euler : α) == 0) = false :=
    beq_zero_eq_false_of_pos LawfulScalar.zero_lt_euler LawfulScalar.isFinite_euler
  have hof : Monomial.of? (eulerOverX * var "x" : Formula α) =
      some ⟨euler, [var "x"], [var "x"]⟩ := by
    simp [Monomial.of?, Monomial.ofPieces?, eulerOverX, div_eq, pieces, Piece.above,
      Piece.under, Piece.factor?, LawfulScalar.isFinite_euler]
  have hcancel : (⟨euler, [var "x"], [var "x"]⟩ : Monomial α).cancelFactors.value =
      ⟨euler, [], []⟩ :=
    congrArg (fun p : List (Formula α) × List (Formula α) => (⟨euler, p.1, p.2⟩ : Monomial α))
      (cancel_var "x")
  have hmerged : (⟨euler, [], []⟩ : Monomial α).tangentQuotients.value.mergeExponentials.value =
      ⟨euler, [], []⟩ := rfl
  rw [normalizeProduct_of_coeff_ne_zero hof h0, hcancel, hmerged, Monomial.sorted_of_isConstant rfl]
  exact ofValue_of_isProper isProper_euler

theorem simplifyOnce_eulerOverX_mul :
    (eulerOverX * var "x" : Formula α).simplifyOnce = const euler := by
  have hx : (var "x" : Formula α).simplifyOnce = var "x" := rfl
  rw [mul_eq, simplifyOnce_binary, hx, show (eulerOverX : Formula α).simplifyOnce = eulerOverX from
    isFixpoint_eulerOverX]
  exact normalizeProduct_eulerOverX_mul

/-- The logarithm is found to be one in the pass after the one that makes it. -/
theorem simplifyOnce_lnProduct : (lnProduct : Formula α).simplifyOnce = const 1 := by
  have heuler : ((euler : α) == euler) = true :=
    LawfulScalar.beq_self (LawfulScalar.isNumber_of_isFinite LawfulScalar.isFinite_euler)
  rw [lnProduct, simplifyOnce_unary, simplifyOnce_eulerOverX_mul,
    isUndefined_const LawfulScalar.isFinite_euler, if_neg Bool.false_ne_true]
  simp [normalizeUnary, normalizeLn, LawfulScalar.zero_lt_euler, heuler]

/-- One pass over a step, after the pass over what it is applied to. -/
theorem simplifyOnce_logStep {f p : Formula α} (hf : f.simplifyOnce = h) (hh : h.isUndefined = false)
    (hp : (h * lnX).normalizeProduct.value = p) (hdef : p.isUndefined = false) :
    (logStep f).simplifyOnce = (p + unary .ln eulerOverX).normalizeSum.value := by
  have hlnX : (lnX : Formula α).simplifyOnce = lnX := rfl
  have hln : (unary .ln eulerOverX : Formula α).simplifyOnce = unary .ln eulerOverX := by
    rw [simplifyOnce_unary, show (eulerOverX : Formula α).simplifyOnce = eulerOverX from
      isFixpoint_eulerOverX]
    rfl
  have hmul : (f * lnX).simplifyOnce = p := by
    rw [mul_eq, simplifyOnce_binary, hf, hlnX, hh]
    exact hp
  rw [logStep, add_eq, simplifyOnce_binary, hmul, hln, hdef]
  rfl

theorem isTerm_ln {a : Formula α} (ha : a.IsProper) :
    (⟨1, [unary .ln a], []⟩ : Monomial α).IsTerm :=
  Monomial.isTerm_factor rfl rfl ha

omit [LawfulScalar α] in
theorem isChain_mul_lnX (hf : h.isFactor) (hle : (h.compare lnX).isLE) : IsChain [h, lnX] where
  isFactor := by simpa using ⟨hf, rfl⟩
  exponents := by
    have hln : (lnX : Formula α).exponent? = none := rfl
    cases he : h.exponent? <;> simp [he, hln]
  sorted := by simpa [IsSorted] using hle

theorem isProper_eulerOverX : (eulerOverX : Formula α).IsProper := ⟨isProper_euler, trivial⟩

theorem toFormula_pair (f g : Formula α) : (⟨1, [f, g], []⟩ : Monomial α).toFormula = f * g :=
  Monomial.toFormula_of_one (List.cons_ne_nil _ _) one_beq_one

theorem toFormula_single (f : Formula α) : (⟨1, [f], []⟩ : Monomial α).toFormula = f :=
  Monomial.toFormula_of_one (List.cons_ne_nil _ _) one_beq_one

omit [LawfulScalar α] in
/-- One factor is no product of two functions. -/
theorem angleSum?_single (v : α) (f : Formula α) (m : Monomial α) :
    angleSum? ⟨v, [f], []⟩ m = none := by
  have hcosine : cosineSum? ⟨v, [f], []⟩ m = none := rfl
  have hsine : sineSum? ⟨v, [f], []⟩ m = none := rfl
  unfold angleSum?
  rw [hcosine, hsine]
  split <;> rfl

theorem angleSum?_lnX (h g : Formula α) :
    angleSum? (⟨1, [h, lnX], []⟩ : Monomial α) ⟨1, [g], []⟩ = none ∧
      angleSum? (⟨1, [g], []⟩ : Monomial α) ⟨1, [h, lnX], []⟩ = none := by
  have hcosine : cosineSum? (⟨1, [h, lnX], []⟩ : Monomial α) ⟨1, [g], []⟩ = none := by
    simp [cosineSum?, Monomial.functionPair?, lnX, argument?]
  have hsine : sineSum? (⟨1, [h, lnX], []⟩ : Monomial α) ⟨1, [g], []⟩ = none := by
    simp [sineSum?, Monomial.functionPair?, lnX, argument?]
  refine ⟨?_, angleSum?_single ..⟩
  unfold angleSum?
  rw [hcosine, hsine]
  split <;> rfl

theorem isMergedSum_logStep (h g : Formula α) :
    IsMergedSum [(⟨1, [h, lnX], []⟩ : Monomial α), ⟨1, [g], []⟩] where
  distinct := by
    refine List.pairwise_pair.2 fun heq => ?_
    obtain ⟨hnumer, -⟩ := Ordering.then_eq_eq.1 heq
    cases (Ordering.then_eq_eq.1 hnumer).2
  logarithms := by
    have hfirst : (⟨1, [h, lnX], []⟩ : Monomial α).logArgument? = none := by
      unfold Monomial.logArgument?
      split
      · next hn _ => cases hn
      · rfl
    rw [List.filter_cons_of_neg (by simp [hfirst])]
    exact (List.length_filter_le ..).trans_lt Nat.one_lt_two
  angles := List.pairwise_pair.2 (angleSum?_lnX h g)

theorem isSumForm_logStep (hf : h.isFactor) (hp : h.IsProper) (hle : (h.compare lnX).isLE) :
    IsSumForm [(⟨1, [h, lnX], []⟩ : Monomial α), ⟨1, [unary .ln eulerOverX], []⟩] [] where
  isTerm := by
    have hchain := isChain_mul_lnX hf hle
    have hpair : (⟨1, [h, lnX], []⟩ : Monomial α).IsTerm :=
      { isReduced := hchain.isReduced LawfulScalar.isFinite_one one_beq_zero
        sorted := hchain.sorted_eq 1
        isProper := by simpa using ⟨hp, show (lnX : Formula α).IsProper from trivial⟩
        not_isSum := fun s hs => nomatch hs }
    simpa using ⟨hpair, isTerm_ln isProper_eulerOverX⟩
  positive := by simp
  negative := List.forall_mem_nil _
  merged := isMergedSum_logStep h (unary .ln eulerOverX)
  constants := Nat.zero_le _
  sorted_positive := by
    refine List.pairwise_pair.2 (.inr ⟨rfl, ?_⟩)
    rw [toFormula_pair, toFormula_single]
    rfl
  sorted_negative := .nil

/-- All sums but the innermost stay as they are. -/
theorem simplifyOnce_logStep_of_isFactor {f : Formula α} (hf : f.simplifyOnce = h)
    (hfactor : h.isFactor) (hp : h.IsProper) (hle : (h.compare lnX).isLE) :
    (logStep f).simplifyOnce = logStep h := by
  have hform := isSumForm_logStep hfactor hp hle
  have hdef : h.isUndefined = false := by
    cases h with
    | const v => cases hfactor
    | _ => rfl
  have hproduct := (isChain_mul_lnX hfactor hle).normalizeProduct LawfulScalar.isFinite_one
    one_beq_zero
  have hsum := hform.normalizeSum_ofTerms fun hnil => nomatch hnil
  rw [toFormula_pair] at hproduct
  have hterms : ofTerms [(⟨1, [h, lnX], []⟩ : Monomial α), ⟨1, [unary .ln eulerOverX], []⟩] [] =
      logStep h := by
    rw [ofTerms_of_ne_nil (List.cons_ne_nil _ _)]
    simp only [List.map_cons, List.map_nil, toFormula_pair, toFormula_single]
    rfl
  rw [simplifyOnce_logStep hf hdef hproduct rfl]
  rw [hterms] at hsum
  exact hsum

theorem normalizeProduct_one_mul_lnX : (const 1 * lnX : Formula α).normalizeProduct.value = lnX := by
  have hchain : IsChain [(lnX : Formula α)] :=
    { isFactor := by simp [lnX, isFactor]
      exponents := Nat.zero_lt_two
      sorted := List.pairwise_singleton .. }
  have hof : Monomial.of? (const 1 * lnX : Formula α) = some ⟨1, [lnX], []⟩ := by
    simp [Monomial.of?, Monomial.ofPieces?, lnX, pieces, Piece.above, Piece.under, Piece.factor?]
  rw [normalizeProduct_of_isReduced hof (hchain.isReduced LawfulScalar.isFinite_one one_beq_zero),
    hchain.sorted_eq, toFormula_single]

/-- The logarithms of `x` and of `E/x` become one. -/
theorem mergedTerms_lnX :
    mergedTerms [(⟨1, [lnX], []⟩ : Monomial α), ⟨1, [unary .ln eulerOverX], []⟩] =
      [⟨1, [lnProduct], []⟩] := by
  have hpos : lt (1 : α) 0 = false :=
    lt_zero_eq_false_of_pos LawfulScalar.zero_lt_one LawfulScalar.isFinite_one
  have hlog (a : Formula α) : (⟨1, [unary .ln a], []⟩ : Monomial α).logArgument? = some a := by
    simp [Monomial.logArgument?, magnitude, hpos]
  have hsorted : [(⟨1, [lnX], []⟩ : Monomial α), ⟨1, [unary .ln eulerOverX], []⟩].map
      Monomial.sorted = [⟨1, [lnX], []⟩, ⟨1, [unary .ln eulerOverX], []⟩] := by
    simp [Monomial.sorted, sort]
  have hsort : [(⟨1, [lnX], []⟩ : Monomial α), ⟨1, [unary .ln eulerOverX], []⟩].mergeSort
      (fun a b => (a.compareFactors b).isLE) =
        [⟨1, [unary .ln eulerOverX], []⟩, ⟨1, [lnX], []⟩] := by
    have hle : ((⟨1, [lnX], []⟩ : Monomial α).compareFactors
        ⟨1, [unary .ln eulerOverX], []⟩).isLE = false := rfl
    simp [List.mergeSort, List.MergeSort.Internal.splitInTwo, hle]
  have hlike : (combineLikeTerms
      [(⟨1, [lnX], []⟩ : Monomial α), ⟨1, [unary .ln eulerOverX], []⟩]).value =
        [⟨1, [unary .ln eulerOverX], []⟩, ⟨1, [lnX], []⟩] := by
    unfold combineLikeTerms
    rw [hsort]
    simp only [Traced.value_bind, Traced.value_pure]
    rw [addLikeTerms_of_distinct (List.pairwise_pair.2 (by intro h; cases h))]
    simp
  have hmerged : (mergeLogarithms
      [(⟨1, [unary .ln eulerOverX], []⟩ : Monomial α), ⟨1, [lnX], []⟩]).value =
        [⟨1, [lnProduct], []⟩] := by
    rw [value_mergeLogarithms]
    simp [lnX, hlog, logArguments, mergedLogarithm, product, lnProduct]
  have hfilter : [(⟨1, [lnX], []⟩ : Monomial α), ⟨1, [unary .ln eulerOverX], []⟩].filter
      (!·.isConstant) = [⟨1, [lnX], []⟩, ⟨1, [unary .ln eulerOverX], []⟩] := rfl
  rw [mergedTerms, hfilter, hsorted, hlike, hmerged,
    mergeAngleSums_of_angles (List.pairwise_singleton ..)]

/-- The innermost sum becomes one logarithm. -/
theorem simplifyOnce_logStep_one {f : Formula α} (hf : f.simplifyOnce = const 1) :
    (logStep f).simplifyOnce = lnProduct := by
  have hof {a : Formula α} (ha : a.IsProper) :
      Monomial.of? (unary .ln a) = some ⟨1, [unary .ln a], []⟩ := by
    have h := (isTerm_ln ha).isSummand.of?_toFormula
    rwa [toFormula_single] at h
  have hms : ((lnX + unary .ln eulerOverX : Formula α).signedTerms false).mapM Monomial.ofTerm? =
      some [⟨1, [lnX], []⟩, ⟨1, [unary .ln eulerOverX], []⟩] := by
    refine mapM_eq_some_iff.2 (.cons ?_ (.cons ?_ .nil))
    · exact congrArg (Option.map _) (hof (show (var "x" : Formula α).IsProper from trivial))
    · exact congrArg (Option.map _) (hof isProper_eulerOverX)
  have hconstant : constantPart [(⟨1, [lnX], []⟩ : Monomial α), ⟨1, [unary .ln eulerOverX], []⟩] =
      0 := rfl
  have hassemble : assemble 0 [(⟨1, [lnProduct], []⟩ : Monomial α)] = lnProduct := by
    have hpos : lt (1 : α) 0 = false :=
      lt_zero_eq_false_of_pos LawfulScalar.zero_lt_one LawfulScalar.isFinite_one
    simp [assemble_def, hpos, sort, toFormula_single, subtractAll, sum]
  rw [simplifyOnce_logStep hf (isUndefined_const LawfulScalar.isFinite_one)
    normalizeProduct_one_mul_lnX rfl]
  rw [normalizeSum_of_mapM hms, mergedTerms_lnX, hconstant, hassemble]
  simp

/-! ## Passes over a tower -/

theorem isProper_iterate_logStep (n : ℕ) : (logStep^[n] lnProduct : Formula α).IsProper := by
  have hln : (lnProduct : Formula α).IsProper := ⟨isProper_eulerOverX, trivial⟩
  induction n with
  | zero => exact hln
  | succ n ih =>
    rw [Function.iterate_succ_apply']
    exact ⟨⟨ih, trivial⟩, isProper_eulerOverX⟩

theorem simplifyOnce_logStep_of_iterate {f : Formula α} {n : ℕ}
    (hf : f.simplifyOnce = logStep^[n] lnProduct) :
    (logStep f).simplifyOnce = logStep^[n + 1] lnProduct := by
  have hshape : (logStep^[n] lnProduct : Formula α).isFactor ∧
      ((logStep^[n] lnProduct : Formula α).compare lnX).isLE := by
    cases n with
    | zero => exact ⟨rfl, rfl⟩
    | succ n =>
      rw [Function.iterate_succ_apply']
      exact ⟨rfl, rfl⟩
  rw [Function.iterate_succ_apply']
  exact simplifyOnce_logStep_of_isFactor hf hshape.1 (isProper_iterate_logStep n) hshape.2

/-- The logarithm that a pass has made becomes one, and the sum around it a logarithm. -/
theorem simplifyOnce_iterate_logStep (n : ℕ) :
    (logStep^[n + 1] lnProduct : Formula α).simplifyOnce = logStep^[n] lnProduct := by
  induction n with
  | zero => exact simplifyOnce_logStep_one simplifyOnce_lnProduct
  | succ n ih =>
    rw [Function.iterate_succ_apply' logStep (n + 1)]
    exact simplifyOnce_logStep_of_iterate ih

theorem simplifyOnce_logTower (n : ℕ) :
    (logTower (n + 1) : Formula α).simplifyOnce = logStep^[n] lnProduct := by
  induction n with
  | zero => exact simplifyOnce_logStep_one (ofValue_of_isProper isProper_one)
  | succ n ih =>
    rw [logTower, Function.iterate_succ_apply' logStep (n + 1)]
    exact simplifyOnce_logStep_of_iterate ih

theorem iterate_simplifyOnce_iterate_logStep (n : ℕ) :
    simplifyOnce^[n] (logStep^[n] lnProduct : Formula α) = lnProduct := by
  induction n with
  | zero => rfl
  | succ n ih => rw [Function.iterate_succ_apply, simplifyOnce_iterate_logStep, ih]

/-- After as many passes as a tower is high a logarithm is left that is not in normal form. -/
theorem iterate_simplifyOnce_logTower {n : ℕ} (hn : n ≠ 0) :
    simplifyOnce^[n] (logTower n : Formula α) = lnProduct := by
  obtain ⟨n, rfl⟩ := Nat.exists_eq_succ_of_ne_zero hn
  rw [Function.iterate_succ_apply, simplifyOnce_logTower, iterate_simplifyOnce_iterate_logStep]

/-- A tower that is as high as the limit of passes is not simplified to a fixpoint, and no pass before
the limit leaves it unchanged. -/
theorem simplify_logTower :
    ((logTower maxPasses : Formula Float).simplify.simplifyOnce ==
        (logTower maxPasses : Formula Float).simplify) = false ∧
      (logTower maxPasses : Formula Float).simplifyWithin? maxPasses = none := by
  have hmax : maxPasses ≠ 0 := by decide
  have hiterate : simplifyOnce^[maxPasses] (logTower maxPasses : Formula Float) = lnProduct :=
    iterate_simplifyOnce_logTower hmax
  have hsimplify : (logTower maxPasses : Formula Float).simplify = lnProduct :=
    (simplify_eq_iterate (logTower maxPasses)).trans hiterate
  have hnext : (lnProduct : Formula Float).simplifyOnce = const 1 := simplifyOnce_lnProduct
  constructor
  · rw [hsimplify, hnext]
    rfl
  · refine Option.eq_none_iff_forall_ne_some.2 fun g hg => ?_
    obtain ⟨hfix, rfl⟩ := simplifyWithin?_eq_some hg
    rw [hiterate, IsFixpoint, hnext] at hfix
    cases hfix

end Formula
end SymCalc
