import Mathlib
import SymCalc.Proofs.Simplify.LogTower
import SymCalc.Proofs.Simplify.ProductOrder

/-!
# The order of operands

Sums of which only like terms are added up and products in which factors only cancel have one normal
form, in whatever order their operands are (`Formula.simplify_perm`). Other rules depend on the order:
partial sums and partial products are brought into normal form before the next operand is added. So a
logarithm can become part of a product, and a cosine part of a tangent, before the operand comes that
it belongs to (`Formula.simplify_perm_fails`).
-/

namespace SymCalc
namespace Formula

open Scalar

variable {f g a b : Formula Exact} {m : Monomial Exact} {fs gs : List (Formula Exact)}

/-! ## Factors and their reciprocals -/

theorem hasTerms_of_isFactor (hf : f.isFactor) (hs : f.isSum = false) : f.HasTerms [⟨1, [f], []⟩] := by
  rw [HasTerms, signedTerms_of_isTerm (isTerm_of_isFactor hf hs), mapM_eq_some_iff]
  exact .cons (congrArg (Option.map _) (Monomial.of?_of_isFactor hf)) .nil

theorem toFormula_one_div (f : Formula Exact) : (⟨1, [], [f]⟩ : Monomial Exact).toFormula = const 1 / f :=
  congrArg (· / f) (ofValue_of_isProper isProper_one)

theorem of?_one_div (h : f.isFactor) : Monomial.of? (const 1 / f) = some ⟨1, [], [f]⟩ := by
  rw [← toFormula_one_div]
  exact Monomial.of?_toFormula isProper_one (List.forall_mem_singleton.2 h)

/-- The reciprocal of a factor in normal form. -/
theorem isFixpoint_one_div (hfactor : f.isFactor) (h : ∀ k, f.IsSettled k) :
    (const 1 / f).IsFixpoint := by
  have hreduced : (⟨1, [], [f]⟩ : Monomial Exact).IsReduced :=
    { isFinite := rfl
      ne_zero := one_beq_zero
      isFactor := List.forall_mem_singleton.2 hfactor
      isMerged :=
        { uncancelled := List.forall_mem_nil _
          tangents := List.forall_mem_nil _
          exponents := (List.length_filterMap_le _ [f]).trans_lt Nat.one_lt_two } }
  have hsorted : (⟨1, [], [f]⟩ : Monomial Exact).sorted = ⟨1, [], [f]⟩ := by
    simp [Monomial.sorted, sort]
  have hsettled (k : ℕ) : IsSettled k (const 1 / f) := by
    rw [← toFormula_one_div]
    exact hreduced.isSettled_toFormula hsorted (List.forall_mem_singleton.2 (h k))
      fun _ s hs => absurd hs (List.cons_ne_nil s []).symm
  exact (hsettled _).isFixpoint

/-- Factors that are no sums are terms that only add up, if they are not two logarithms. -/
theorem addsLikeTerms_of_isFactor (hfix : ∀ f ∈ fs, f.IsFixpoint) (hfactor : ∀ f ∈ fs, f.isFactor)
    (hsum : ∀ f ∈ fs, f.isSum = false)
    (hlog : ∀ a b, unary .ln a ∈ fs → unary .ln b ∈ fs → a = b) : AddsLikeTerms fs := by
  have hmem {m : Monomial Exact} (hm : m ∈ fs.flatMap (·.simplifyOnce.terms)) :
      ∃ f ∈ fs, m = ⟨1, [f], []⟩ := by
    obtain ⟨f, hf, hm⟩ := List.mem_flatMap.1 hm
    rw [show f.simplifyOnce = f from hfix f hf,
      (hasTerms_of_isFactor (hfactor f hf) (hsum f hf)).terms_eq] at hm
    exact ⟨f, hf, List.mem_singleton.1 hm⟩
  refine ⟨fun f hf => (hfix f hf).symm ▸ hfix f hf, fun m hm s hs => ?_, fun m hm n hn => ⟨?_, ?_⟩⟩
  · obtain ⟨f, hf, rfl⟩ := hmem hm
    obtain rfl := List.singleton_inj.1 (Prod.mk.inj hs).1
    exact hsum f hf
  · obtain ⟨f, hf, rfl⟩ := hmem hm
    obtain ⟨g, hg, rfl⟩ := hmem hn
    intro v w hv hw
    obtain ⟨a, ha⟩ := Option.isSome_iff_exists.1 hv
    obtain ⟨b, hb⟩ := Option.isSome_iff_exists.1 hw
    obtain rfl := List.singleton_inj.1 (Monomial.eq_of_logArgument? ha).1
    obtain rfl := List.singleton_inj.1 (Monomial.eq_of_logArgument? hb).1
    rw [hlog a b hf hg]
  · obtain ⟨f, -, rfl⟩ := hmem hm
    exact fun v w => angleSum?_single ..

/-! ## Any order -/

/-- The order of operands does not matter for sums of which only like terms are added up, and for
products in which factors only cancel. -/
theorem simplify_perm (fs gs : List (Formula Exact)) (hp : fs.Perm gs) :
    (AddsLikeTerms fs → (sum fs).simplify = (sum gs).simplify) ∧
      (CancelsFactors fs → (product fs).simplify = (product gs).simplify) :=
  ⟨fun h => h.simplify_sum_eq hp, fun h => h.simplify_product_eq hp⟩

/-- The sum of `x`, `ln(y)` and `x`, and the product of `x`, `y` and `1/x`. -/
theorem simplify_perm_xy :
    (sum [var "x", unary .ln (var "y"), var "x"] : Formula Exact).simplify =
        (sum [var "x", var "x", unary .ln (var "y")]).simplify ∧
      (product [var "x", var "y", const 1 / var "x"] : Formula Exact).simplify =
        (product [var "x", const 1 / var "x", var "y"]).simplify := by
  have hsum : AddsLikeTerms [(var "x" : Formula Exact), unary .ln (var "y"), var "x"] := by
    have hfix : ∀ f ∈ [(var "x" : Formula Exact), unary .ln (var "y"), var "x"], f.IsFixpoint :=
      List.forall_mem_cons.2 ⟨rfl, List.forall_mem_cons.2 ⟨rfl, List.forall_mem_singleton.2 rfl⟩⟩
    exact addsLikeTerms_of_isFactor hfix (by simp [isFactor]) (by simp [isSum]) (by simp)
  have hproduct : CancelsFactors [(var "x" : Formula Exact), var "y", const 1 / var "x"] := by
    have hdiv : (const 1 / var "x" : Formula Exact).IsFixpoint :=
      isFixpoint_one_div rfl fun _ => .var "x"
    have hfactors : factors [(var "x" : Formula Exact), var "y", const 1 / var "x"] =
        ⟨.number (1 * (1 * 1)), [var "x", var "y"], [var "x"]⟩ := by
      have hvar (x : String) : (var x : Formula Exact).simplifyOnce.monomial = ⟨1, [var x], []⟩ :=
        monomial_eq (Monomial.of?_of_isFactor rfl)
      have hreciprocal : (const 1 / var "x" : Formula Exact).simplifyOnce.monomial =
          ⟨1, [], [var "x"]⟩ := by
        rw [show (const 1 / var "x" : Formula Exact).simplifyOnce = const 1 / var "x" from hdiv]
        exact monomial_eq (of?_one_div rfl)
      simp [factors, Monomial.prod, hvar, hreciprocal]
    refine ⟨?_, hfactors ▸ ⟨?_, Nat.zero_lt_two⟩⟩
    · refine List.forall_mem_cons.2 ⟨rfl, List.forall_mem_cons.2 ⟨rfl, List.forall_mem_singleton.2 ?_⟩⟩
      exact hdiv.symm ▸ hdiv
    · rintro f hf g hg htangent
      rw [List.mem_singleton.1 hg] at htangent
      obtain ⟨a, -, h⟩ | ⟨a, -, h⟩ := htangent <;> cases h
  exact ⟨(simplify_perm _ _ (.cons _ (.swap ..))).1 hsum,
    (simplify_perm _ _ (.cons _ (.swap ..))).2 hproduct⟩

/-! ## Rules that depend on the order -/

/-! ### A cosine that has become part of a tangent -/

/-- The formula `sin(x)`. -/
def sinX : Formula Exact := unary .sin (var "x")

/-- The formula `cos(x)`. -/
def cosX : Formula Exact := unary .cos (var "x")

/-- The formula `tan(x)`. -/
def tanX : Formula Exact := unary .tan (var "x")

/-- The formula `1/cos(x)`. -/
noncomputable def secX : Formula Exact := const 1 / cosX

theorem sinX_isSame_cosX : sinX.isSame cosX = false := by
  have hbeq : (sinX == cosX) = false := rfl
  rw [isSame.eq_def, hbeq]
  rfl

/-- The normal form of a product that is left with a numerator. -/
theorem normalizeProduct_of_stages (hof : Monomial.of? f = some m) (hcoeff : m.coeff = 1)
    (hstages : m.cancelFactors.value.tangentQuotients.value = ⟨1, fs, []⟩)
    (hexp : fs.filterMap exponent? = []) (hsort : sort fs = g :: gs) :
    f.normalizeProduct.value = product (g :: gs) := by
  have hmerged : (⟨1, fs, []⟩ : Monomial Exact).mergeExponentials.value = ⟨1, fs, []⟩ := by
    refine ((Monomial.mergeExponentials_eq_or_lighter _).resolve_right fun h => h.2 ?_).1
    simp [Monomial.exponents, hexp]
  rw [normalizeProduct_of_coeff_ne_zero hof (hcoeff ▸ one_beq_zero), hstages, hmerged,
    Monomial.sorted, hsort, sort_of_isSorted .nil]
  exact Monomial.toFormula_of_one (List.cons_ne_nil _ _) one_beq_one

theorem of?_mul_of_isFactor (hf : Monomial.of? f = some ⟨1, fs, gs⟩) (hg : g.isFactor) :
    Monomial.of? (f * g) = some ⟨1, fs ++ [g], gs⟩ := by
  have hmul := Monomial.of?_mul hf (Monomial.of?_of_isFactor hg)
  rwa [Monomial.mul, LawfulScalar.one_mul, List.append_nil] at hmul

/-- Factors that cannot be merged are put in order. -/
theorem simplifyOnce_mul_of_factors (hf : f.simplifyOnce = a) (hof : Monomial.of? a = some ⟨1, fs, []⟩)
    (hg : g.simplifyOnce = g) (hfactor : g.isFactor) (hexp : (fs ++ [g]).filterMap exponent? = [])
    (hp : (fs ++ [g]).Perm (b :: gs)) (hsorted : IsSorted (b :: gs)) :
    (f * g).simplifyOnce = product (b :: gs) := by
  rw [simplifyOnce_mul, hf, hg, isUndefined_of_of? hof,
    isUndefined_of_of? (Monomial.of?_of_isFactor hfactor)]
  have hcancel : (⟨1, fs ++ [g], []⟩ : Monomial Exact).cancelFactors.value = ⟨1, fs ++ [g], []⟩ :=
    ((Monomial.cancelFactors_eq_or_lighter _).resolve_right fun h =>
      h.2 fun _ _ _ hg => absurd hg List.not_mem_nil).1
  have htangent : (⟨1, fs ++ [g], []⟩ : Monomial Exact).tangentQuotients.value =
      ⟨1, fs ++ [g], []⟩ :=
    ((Monomial.tangentQuotients_eq_or_lighter _).resolve_right fun h =>
      h.2 fun _ _ _ hg => absurd hg List.not_mem_nil).1
  refine normalizeProduct_of_stages (of?_mul_of_isFactor hof hfactor) rfl ?_ hexp
    ((sort_eq_sort_of_perm hp).trans (sort_of_isSorted hsorted))
  rw [hcancel, htangent]

theorem of?_mul_secX (hf : Monomial.of? f = some ⟨1, fs, gs⟩) :
    Monomial.of? (f * secX) = some ⟨1, fs, gs ++ [cosX]⟩ := by
  have hmul := Monomial.of?_mul hf (of?_one_div (f := cosX) rfl)
  rwa [Monomial.mul, LawfulScalar.one_mul, List.append_nil] at hmul

theorem simplifyOnce_secX : secX.simplifyOnce = secX :=
  isFixpoint_one_div rfl fun _ => .unary (.var "x") rfl

/-- A sine over a cosine is a tangent. -/
theorem normalizeProduct_sinX_mul_secX : (sinX * secX).normalizeProduct.value = tanX := by
  refine normalizeProduct_of_stages (of?_mul_secX (Monomial.of?_of_isFactor rfl)) rfl ?_ rfl
    (sort_of_isSorted (List.pairwise_singleton _ tanX))
  have hcancel : cancel [sinX] [cosX] = ([sinX], [cosX]) := by
    simp [cancel, eraseFirst?, sinX_isSame_cosX]
  have htangent : (combineTangents [sinX] [cosX] []).value = ([tanX], []) := by
    simp [combineTangents, sinX, cosX, tanX, eraseFirst?, isFunctionOf, isSame_self]
  simp [Monomial.cancelFactors, Monomial.tangentQuotients, hcancel, htangent]

/-- The cosine cancels if it comes before the reciprocal. -/
theorem normalizeProduct_cosX_mul_sinX_mul_secX :
    (cosX * sinX * secX).normalizeProduct.value = sinX := by
  refine normalizeProduct_of_stages
    (of?_mul_secX (of?_mul_of_isFactor (Monomial.of?_of_isFactor rfl) rfl))
    rfl ?_ rfl (sort_of_isSorted (List.pairwise_singleton _ sinX))
  have hcancel : cancel [cosX, sinX] [cosX] = ([sinX], []) := by
    simp [cancel, eraseFirst?, isSame_self]
  have htangent : (combineTangents [sinX] [] []).value = ([sinX], []) := by
    simp [combineTangents, sinX, eraseFirst?]
  simp [Monomial.cancelFactors, Monomial.tangentQuotients, hcancel, htangent]

theorem simplify_sinX_mul_secX_mul_cosX : (product [sinX, secX, cosX]).simplify = cosX * tanX := by
  have hsorted : IsSorted [cosX, tanX] := List.pairwise_pair.2 rfl
  have htan : (sinX * secX).simplifyOnce = tanX := by
    rw [simplifyOnce_mul, simplifyOnce_secX]
    exact normalizeProduct_sinX_mul_secX
  have hfirst : (sinX * secX * cosX).simplifyOnce = cosX * tanX :=
    simplifyOnce_mul_of_factors htan (Monomial.of?_of_isFactor rfl) rfl rfl rfl (.swap ..) hsorted
  have hfix : (cosX * tanX).IsFixpoint :=
    simplifyOnce_mul_of_factors rfl (Monomial.of?_of_isFactor rfl) rfl rfl rfl (.refl _) hsorted
  exact hfix.simplify_eq (n := 1) (by decide) hfirst

theorem simplify_sinX_mul_cosX_mul_secX : (product [sinX, cosX, secX]).simplify = sinX := by
  have hmul : (sinX * cosX).simplifyOnce = cosX * sinX :=
    simplifyOnce_mul_of_factors rfl (Monomial.of?_of_isFactor rfl) rfl rfl rfl (.swap ..)
      (List.pairwise_pair.2 rfl)
  have hfirst : (sinX * cosX * secX).simplifyOnce = sinX := by
    rw [simplifyOnce_mul, hmul, simplifyOnce_secX]
    exact normalizeProduct_cosX_mul_sinX_mul_secX
  have hfix : sinX.IsFixpoint := rfl
  exact hfix.simplify_eq (n := 1) (by decide) hfirst

/-! ### A logarithm that has become part of another -/

/-- The sum of two logarithms is that of a product. -/
theorem normalizeSum_ln_add_ln (h : a.compare b = .lt) :
    (unary .ln a + unary .ln b).normalizeSum.value = unary .ln (a * b) := by
  have hterms : (unary .ln a + unary .ln b).HasTerms [⟨1, [unary .ln a], []⟩, ⟨1, [unary .ln b], []⟩] :=
    (hasTerms_of_isFactor rfl rfl).add (hasTerms_of_isFactor rfl rfl)
  have hcombined : IsCombined [⟨1, [unary .ln a], []⟩, ⟨1, [unary .ln b], []⟩] :=
    { sorted := List.pairwise_pair.2 (by
        have hln : (unary .ln a).compare (unary .ln b) = .lt := h
        simp [Monomial.compareFactors, compareLists, hln])
      isNumber := by simp [HaveNumbers, Exact.one_eq]
      ne_zero := by simp }
  have hlog (a : Formula Exact) : (⟨1, [unary .ln a], []⟩ : Monomial Exact).logArgument? = some a := by
    simp [Monomial.logArgument?, Exact.one_eq, Exact.magnitude_number]
  have hlogs : (mergeLogarithms [⟨1, [unary .ln a], []⟩, ⟨1, [unary .ln b], []⟩]).value =
      [⟨1, [unary .ln (a * b)], []⟩] := by
    rw [value_mergeLogarithms]
    simp [hlog, logArguments, mergedLogarithm, product]
  have hmerged : mergedTerms [(⟨1, [unary .ln a], []⟩ : Monomial Exact), ⟨1, [unary .ln b], []⟩] =
      [⟨1, [unary .ln (a * b)], []⟩] := by
    have hsorted : ([(⟨1, [unary .ln a], []⟩ : Monomial Exact), ⟨1, [unary .ln b], []⟩].filter
        (!·.isConstant)).map Monomial.sorted = [⟨1, [unary .ln a], []⟩, ⟨1, [unary .ln b], []⟩] := by
      simp [Monomial.isConstant, Monomial.sorted, sort]
    rw [mergedTerms, hsorted, hcombined.combineLikeTerms_eq, hlogs,
      mergeAngleSums_of_angles (List.pairwise_singleton ..)]
  have hconstant : constantPart [(⟨1, [unary .ln a], []⟩ : Monomial Exact), ⟨1, [unary .ln b], []⟩] =
      0 := rfl
  have hassemble : assemble 0 [(⟨1, [unary .ln (a * b)], []⟩ : Monomial Exact)] =
      unary .ln (a * b) := by
    have hpos : lt (1 : Exact) 0 = false :=
      lt_zero_eq_false_of_pos LawfulScalar.zero_lt_one LawfulScalar.isFinite_one
    simp [assemble_def, hpos, sort, toFormula_single, subtractAll, sum]
  rw [normalizeSum_of_mapM hterms, hmerged, hconstant, hassemble]
  rfl

/-- The formula `ln(y)`. -/
def lnY : Formula Exact := unary .ln (var "y")

/-- The formula `2*ln(x)`. -/
noncomputable def twoLnX : Formula Exact := const (.number 2) * lnX

theorem isChain_lnX : IsChain [(lnX : Formula Exact)] where
  isFactor := List.forall_mem_singleton.2 rfl
  exponents := Nat.zero_lt_two
  sorted := List.pairwise_singleton ..

theorem number_two_beq_zero : (Exact.number 2 == 0) = false :=
  eq_false_of_ne_true fun h => two_ne_zero (Exact.beq_number.1 h)

theorem number_two_beq_neg_one : (Exact.number 2 == -1) = false := by
  refine eq_false_of_ne_true fun h => ?_
  have heq : (2 : ℝ) = -1 := Exact.beq_number.1 h
  norm_num at heq

theorem toFormula_twoLnX : (⟨.number 2, [lnX], []⟩ : Monomial Exact).toFormula = twoLnX := by
  have hone : ¬ (Exact.number 2 == 1) := fun h => (OfNat.ofNat_ne_one 2) (Exact.beq_number.1 h)
  have hvalue : ofValue (Exact.number 2) = const (.number 2) :=
    ofValue_of_isProper (isProper_of_ne_zero rfl number_two_beq_zero)
  simp [Monomial.toFormula, Monomial.numerator, hone, number_two_beq_neg_one, product, hvalue, twoLnX]

/-- The terms of `2*ln(x)+ln(y)`, in order. -/
theorem isSumForm_twoLnX_lnY :
    IsSumForm [(⟨.number 2, [lnX], []⟩ : Monomial Exact), ⟨1, [lnY], []⟩] [] where
  isTerm := by
    have htwo : (⟨.number 2, [lnX], []⟩ : Monomial Exact).IsTerm := by
      refine (isTerm_ln (a := var "x") trivial).of_factors (fun s hs => ?_) rfl rfl
        number_two_beq_zero
      obtain rfl := (List.cons.inj (Prod.mk.inj hs).1).1
      rfl
    have hln : (⟨1, [lnY], []⟩ : Monomial Exact).IsTerm := isTerm_ln (a := var "y") trivial
    simpa using ⟨htwo, hln⟩
  positive := by simp [Exact.zero_eq, Exact.one_eq]
  negative := List.forall_mem_nil _
  merged :=
    { distinct := List.pairwise_pair.2 fun heq => by
        have hfactors := Monomial.compareFactors_eq_iff.1 heq
        simp [Monomial.factors, lnX, lnY] at hfactors
      logarithms := by
        have htwo : (⟨.number 2, [lnX], []⟩ : Monomial Exact).logArgument? = none := by
          simp [Monomial.logArgument?, lnX, Exact.one_eq, Exact.magnitude_number]
        have hterms : ([(⟨.number 2, [lnX], []⟩ : Monomial Exact), ⟨1, [lnY], []⟩] ++ []).filter
            (fun m : Monomial Exact => !m.isConstant) = [⟨.number 2, [lnX], []⟩, ⟨1, [lnY], []⟩] := rfl
        rw [hterms, List.filter_cons_of_neg (by simp [htwo])]
        exact (List.length_filter_le ..).trans_lt Nat.one_lt_two
      angles := List.pairwise_pair.2 ⟨angleSum?_single .., angleSum?_single ..⟩ }
  constants := Nat.zero_le _
  sorted_positive := by
    refine List.pairwise_pair.2 (.inr ⟨rfl, ?_⟩)
    rw [toFormula_twoLnX, toFormula_single]
    rfl
  sorted_negative := .nil

theorem sameTerms_add {v w : Exact} (hv : Scalar.isNumber v) (hw : Scalar.isNumber w) :
    SameTerms [(⟨v, fs, gs⟩ : Monomial Exact), ⟨w, fs, gs⟩] [⟨v + w, fs, gs⟩] := by
  intro k
  have hcoeff (u : Exact) : (⟨u, fs, gs⟩ : Monomial Exact).sorted.coeff = u := rfl
  simp only [List.map_cons, List.map_nil, coeffAt_cons, coeffAt_nil, hcoeff]
  by_cases hk : (sort fs, sort gs) = k
  · have hk (u : Exact) : (⟨u, fs, gs⟩ : Monomial Exact).sorted.factors = k := hk
    rw [if_pos (hk v), if_pos (hk w), if_pos (hk (v + w)), Exact.toReal_add hv hw, add_zero, add_zero]
  · have hk (u : Exact) : (⟨u, fs, gs⟩ : Monomial Exact).sorted.factors ≠ k := hk
    rw [if_neg (hk v), if_neg (hk w), if_neg (hk (v + w)), add_zero, add_zero]

/-- Like logarithms are added up. -/
theorem normalizeSum_lnX_add_lnX : (lnX + lnX : Formula Exact).normalizeSum.value = twoLnX := by
  have hform : IsSumForm [(⟨.number 2, [lnX], []⟩ : Monomial Exact)] [] :=
    isSumForm_twoLnX_lnY.sublist (List.singleton_sublist.2 List.mem_cons_self) (.refl _)
  have hterms : (lnX + lnX : Formula Exact).HasTerms [⟨1, [lnX], []⟩, ⟨1, [lnX], []⟩] :=
    (hasTerms_of_isFactor rfl rfl).add (hasTerms_of_isFactor rfl rfl)
  have htwo : twoLnX.HasTerms [⟨1 + 1, [lnX], []⟩] := by
    have hsum : (1 + 1 : Exact) = .number 2 := congrArg Exact.number one_add_one_eq_two
    rw [hsum, ← toFormula_twoLnX]
    exact (hform.isTerm _ List.mem_cons_self).hasTerms
  have hnormal := hform.normalizeSum_ofTerms fun hnil => nomatch hnil
  rw [ofTerms_singleton, toFormula_twoLnX] at hnormal
  exact (normalizeSum_congr hterms htwo (sameTerms_add rfl rfl)).trans hnormal

theorem simplify_lnX_add_lnX_add_lnY : (sum [lnX, lnX, lnY]).simplify = twoLnX + lnY := by
  have hform := isSumForm_twoLnX_lnY
  have hterms : ofTerms [(⟨.number 2, [lnX], []⟩ : Monomial Exact), ⟨1, [lnY], []⟩] [] =
      twoLnX + lnY := by
    rw [ofTerms_of_ne_nil (List.cons_ne_nil _ _)]
    simp [toFormula_twoLnX, toFormula_single, sum]
  have hfirst : (sum [lnX, lnX, lnY]).simplifyOnce = twoLnX + lnY := by
    have hadd : (lnX + lnX : Formula Exact).simplifyOnce = twoLnX := by
      rw [simplifyOnce_add]
      exact normalizeSum_lnX_add_lnX
    have hsum : sum [lnX, lnX, lnY] = lnX + lnX + lnY := rfl
    rw [hsum, simplifyOnce_add, hadd, ← hterms]
    refine Eq.trans ?_ (hform.normalizeSum_ofTerms fun hnil => absurd hnil (List.cons_ne_nil _ _))
    rw [hterms]
    rfl
  have hfix : (twoLnX + lnY).IsFixpoint := by
    have hln (k : ℕ) (x : String) : IsSettled k (unary .ln (var x) : Formula Exact) :=
      .unary (.var x) rfl
    have htwo (k : ℕ) : IsSettled k twoLnX := by
      rw [← toFormula_twoLnX]
      exact isChain_lnX.isSettled (List.forall_mem_singleton.2 (hln k "x")) rfl number_two_beq_zero
        number_two_beq_neg_one
    have hsettled (k : ℕ) : IsSettled k (twoLnX + lnY) := by
      rw [← hterms]
      refine hform.isSettled_ofTerms (fun hnil => absurd hnil (List.cons_ne_nil _ _)) ?_
        (List.forall_mem_nil _)
      refine List.forall_mem_cons.2 ⟨?_, List.forall_mem_singleton.2 ?_⟩
      · exact toFormula_twoLnX ▸ htwo k
      · exact (toFormula_single lnY).symm ▸ hln k "y"
    exact (hsettled _).isFixpoint
  exact hfix.simplify_eq (n := 1) (by decide) hfirst

/-- The formula `ln(x*x*y)`. -/
def lnXXY : Formula Exact := unary .ln (var "x" * var "x" * var "y")

theorem simplify_lnX_add_lnY_add_lnX : (sum [lnX, lnY, lnX]).simplify = lnXXY := by
  have hxy : (var "x" : Formula Exact).compare (var "y") = .lt :=
    (by decide : Ord.compare "x" "y" = .lt)
  have hfirst : (lnX + lnY + lnX).simplifyOnce = unary .ln (var "x" * var "y" * var "x") := by
    have hadd : (lnX + lnY).simplifyOnce = unary .ln (var "x" * var "y") := by
      rw [simplifyOnce_add]
      exact normalizeSum_ln_add_ln hxy
    rw [simplifyOnce_add, hadd]
    exact normalizeSum_ln_add_ln rfl
  have hmul (y : String) (h : ((var "x" : Formula Exact).compare (var y)).isLE) :
      (var "x" * var y : Formula Exact).simplifyOnce = var "x" * var y :=
    simplifyOnce_mul_of_factors rfl (Monomial.of?_of_isFactor rfl) rfl rfl rfl (.refl _)
      (List.pairwise_pair.2 h)
  have hself : (var "x" : Formula Exact).compare (var "x") = .eq := Std.ReflCmp.compare_self
  have hsorted : IsSorted [(var "x" : Formula Exact), var "x", var "y"] := by
    simp [IsSorted, hself, hxy]
  have hof (y : String) : Monomial.of? (var "x" * var y : Formula Exact) =
      some ⟨1, [var "x", var y], []⟩ := of?_mul_of_isFactor (Monomial.of?_of_isFactor rfl) rfl
  have hsecond : (unary .ln (var "x" * var "y" * var "x") : Formula Exact).simplifyOnce = lnXXY := by
    have hargument : (var "x" * var "y" * var "x" : Formula Exact).simplifyOnce =
        var "x" * var "x" * var "y" :=
      simplifyOnce_mul_of_factors (hmul "y" (by rw [hxy]; rfl)) (hof "y") rfl rfl rfl
        (.cons _ (.swap ..)) hsorted
    rw [simplifyOnce_unary, hargument]
    rfl
  have hfix : lnXXY.IsFixpoint := by
    have hargument : (var "x" * var "x" * var "y" : Formula Exact).simplifyOnce =
        var "x" * var "x" * var "y" :=
      simplifyOnce_mul_of_factors (hmul "x" (by rw [hself]; rfl)) (hof "x") rfl rfl rfl
        (.refl _) hsorted
    rw [IsFixpoint, lnXXY, simplifyOnce_unary, hargument]
    rfl
  exact hfix.simplify_eq (n := 2) (by decide) (congrArg simplifyOnce hfirst |>.trans hsecond)

/-- The order of operands matters for logarithms and for tangents. -/
theorem simplify_perm_fails :
    ¬ (∀ fs gs : List (Formula Exact), fs.Perm gs → (sum fs).simplify = (sum gs).simplify) ∧
      ¬ ∀ fs gs : List (Formula Exact), fs.Perm gs → (product fs).simplify = (product gs).simplify := by
  constructor
  · intro h
    have heq := h [lnX, lnY, lnX] [lnX, lnX, lnY] (.cons _ (.swap ..))
    rw [simplify_lnX_add_lnY_add_lnX, simplify_lnX_add_lnX_add_lnY] at heq
    cases heq
  · intro h
    have heq := h [sinX, secX, cosX] [sinX, cosX, secX] (.cons _ (.swap ..))
    rw [simplify_sinX_mul_secX_mul_cosX, simplify_sinX_mul_cosX_mul_secX] at heq
    cases heq

end Formula
end SymCalc
