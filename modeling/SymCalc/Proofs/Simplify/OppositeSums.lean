import SymCalc.Proofs.Scalar.Double
import SymCalc.Proofs.Simplify.Settling

/-!
# Sums and their opposites

* `Formula.IsSignedPair`: whether of two formulas the second one counts as negative, and the first is its
  opposite;
* `Formula.IsWrittenOver`: whether one rewriting turns the even and the odd functions of a formula into
  functions of another one, which stay as they are.

A sum that is its own normal form consists of terms in order (`Formula.exists_isSumOrder_of_beq`). So does
its opposite, with the signs of the terms changed, and the opposite of that is the sum again
(`Formula.exists_opposite`). The two differ, so the order tells which of them counts as negative
(`Formula.isSignedPair_normalizeSum`).
-/

namespace SymCalc

open Scalar Formula

variable {α : Type}

/-! ## Equal formulas -/

namespace Formula

variable [Scalar α] [LawfulScalar α] {f g : Formula α}

omit [LawfulScalar α] in
/-- Equal formulas have the same weight. -/
theorem weight_congr (h : f == g) : f.weight = g.weight := by
  rw [beq_iff] at h
  induction f generalizing g with
  | const v =>
    cases g with
    | const w => rfl
    | _ => cases h
  | var x =>
    cases g with
    | var y => rfl
    | _ => cases h
  | unary op a ih =>
    cases g with
    | unary op' a' =>
      obtain ⟨rfl, ha⟩ := compare_unary_eq_iff.1 h
      cases op <;> simp only [weight, ih ha]
    | _ => cases h
  | binary op a b iha ihb =>
    cases g with
    | binary op' a' b' =>
      obtain ⟨rfl, ha, hb⟩ := compare_binary_eq_iff.1 h
      rw [weight_binary, weight_binary, iha ha, ihb hb]
    | _ => cases h

omit [LawfulScalar α] in
/-- Equal formulas have equal terms with the same signs. -/
theorem forall₂_signedTerms (h : f == g) (negative : Bool) :
    List.Forall₂ (fun s t => s.1 = t.1 ∧ s.2 == t.2) (f.signedTerms negative)
      (g.signedTerms negative) := by
  induction f generalizing g negative with
  | const v =>
    cases g with
    | const w => exact .cons ⟨rfl, h⟩ .nil
    | _ => cases beq_iff.1 h
  | var x =>
    cases g with
    | var y => exact .cons ⟨rfl, h⟩ .nil
    | _ => cases beq_iff.1 h
  | unary op a ih =>
    cases g with
    | unary op' a' =>
      obtain ⟨rfl, ha⟩ := compare_unary_eq_iff.1 (beq_iff.1 h)
      cases op with
      | negate => exact ih (beq_iff.2 ha) (!negative)
      | _ => exact .cons ⟨rfl, h⟩ .nil
    | _ => cases beq_iff.1 h
  | binary op a b iha ihb =>
    cases g with
    | binary op' a' b' =>
      obtain ⟨rfl, ha, hb⟩ := compare_binary_eq_iff.1 (beq_iff.1 h)
      cases op with
      | add | sub => exact List.rel_append (iha (beq_iff.2 ha) _) (ihb (beq_iff.2 hb) _)
      | mul | div => exact .cons ⟨rfl, h⟩ .nil
    | _ => cases beq_iff.1 h

omit [LawfulScalar α] in
theorem isSum_congr (h : f == g) : f.isSum = g.isSum := by
  rw [beq_iff] at h
  cases f with
  | binary op a b =>
    cases g with
    | binary op' a' b' =>
      obtain ⟨rfl, -, -⟩ := compare_binary_eq_iff.1 h
      cases op <;> rfl
    | _ => cases h
  | _ =>
    cases g with
    | binary op' a' b' => cases h
    | _ => rfl

end Formula

variable [Scalar α] [LawfulScalar α] {ms ps ns : List (Monomial α)}
  {f g s t : Formula α}

/-! ## Sums that are their own normal forms -/

namespace Monomial

variable {m : Monomial α}

omit [LawfulScalar α] in
/-- The monomial of a term of a sum is not a sum or the negation of one, if it is as heavy as the term. -/
theorem showsCoeff_of_isTerm (ht : t.isTerm) (hm : of? t = some m) (hweight : t.weight ≤ m.weight)
    (hn : m.numer = [s]) (hd : m.denom = []) (hs : s.isSum) : m.showsCoeff := by
  refine Bool.of_not_eq_false fun hshows => ?_
  have hfactors := factorWeight_of? hm
  rw [weight, hshows, Bool.toNat_false, Nat.zero_add] at hweight
  obtain ⟨-, -, rfl⟩ := eq_of_ofPieces? hm
  exact denom_ne_nil_of_isTerm ht (by omega) hn hs hd

/-- Monomials that are together as heavy as the terms they come from are so one by one. -/
theorem exists_of_weightSum_le {ts : List (Bool × Formula α)} (h : ts.mapM ofTerm? = some ms)
    (hweight : weightSum (ts.map Prod.snd) ≤ totalWeight ms) :
    ∀ m ∈ ms, ∃ t ∈ ts, ofTerm? t = some m ∧ t.2.weight ≤ m.weight := by
  rw [mapM_eq_some_iff] at h
  induction h with
  | nil => exact List.forall_mem_nil _
  | @cons t m ts ms htm h ih =>
    have ht := weight_le_of_ofTerm? htm
    have hts := totalWeight_le_weightSum (mapM_eq_some_iff.2 h)
    rw [List.map_cons, weightSum_cons, totalWeight_cons] at hweight
    refine List.forall_mem_cons.2 ⟨⟨t, List.mem_cons_self, htm, by omega⟩, fun m hm => ?_⟩
    obtain ⟨t, ht, h⟩ := ih (by omega) m hm
    exact ⟨t, List.mem_cons_of_mem _ ht, h⟩

/-- The monomial of a term of a sum, with its factors in order, is a summand if it is not zero and as
heavy as the term. -/
theorem isSummand_sorted_of? (ht : t.isTerm) (hm : of? t = some m) (hweight : t.weight ≤ m.weight)
    (h0 : (m.coeff == 0) = false) : m.sorted.IsSummand where
  isFinite := (eq_of_ofPieces? hm).2.1
  ne_zero := h0
  isFactor f hf := isFactor_of_of? hm f (((sort_perm _).append (sort_perm _)).mem_iff.1 hf)
  sorted := sorted_sorted m
  not_isSum s hn hd hs := by
    have hn : m.numer = [s] := ((sort_perm m.numer).symm.trans (.of_eq hn)).eq_singleton
    have hd : m.denom = [] := ((sort_perm m.denom).symm.trans (.of_eq hd)).eq_nil
    rw [showsCoeff_sorted]
    exact showsCoeff_of_isTerm ht hm hweight hn hd hs

theorem isSummand_sorted {t : Bool × Formula α} (ht : t.2.isTerm) (hm : ofTerm? t = some m)
    (hweight : t.2.weight ≤ m.weight) (h0 : (m.coeff == 0) = false) : m.sorted.IsSummand := by
  obtain ⟨negative, f⟩ := t
  obtain ⟨m', hm', rfl⟩ := Option.map_eq_some_iff.1 hm
  cases negative with
  | false => exact isSummand_sorted_of? ht hm' hweight h0
  | true =>
    have hfin := (eq_of_ofPieces? hm').2.1
    exact (isSummand_sorted_of? ht hm' (hweight.trans_eq (weight_negated m'))
      ((neg_beq_zero hfin).symm.trans h0)).negated

omit [LawfulScalar α] in
theorem isFactor_of_ofTerm? {t : Bool × Formula α} (hm : ofTerm? t = some m) :
    ∀ f ∈ m.numer ++ m.denom, f.isFactor := by
  obtain ⟨m', hm', rfl⟩ := Option.map_eq_some_iff.1 hm
  have hfactor := isFactor_of_of? hm'
  split <;> exact hfactor

end Monomial

namespace Formula

/-- If the normal form of a sum is not lighter, then no step towards it makes the terms lighter. -/
theorem weight_steps_of_weight_le (hs : 2 ≤ s.weight)
    (hms : (s.signedTerms false).mapM Monomial.ofTerm? = some ms)
    (hweight : s.weight ≤ s.normalizeSum.value.weight) :
    weightSum ((s.signedTerms false).map Prod.snd) ≤ Monomial.totalWeight ms ∧
      Monomial.totalWeight (ms.filter (!·.isConstant)) ≤ Monomial.totalWeight (mergedTerms ms) ∧
      (ms.filter Monomial.isConstant).length ≤ if constantPart ms == 0 then 0 else 1 := by
  have hle := Monomial.totalWeight_le hms
  have hparts := Monomial.totalWeight_filter_append ms
  have hconst := weight_constantPart_le ms
  have hmerged := weight_mergedTerms_le ms
  have hnormal := weight_normalizeSum hms
  rw [weightSum_signedTerms]
  omega

/-- Terms that do not get lighter when they are merged cannot be merged, and none of them is zero. -/
theorem isMergedSum_map_sorted (hfactor : ∀ m ∈ ms, ∀ f ∈ m.numer ++ m.denom, f.isFactor)
    (hweight : Monomial.totalWeight (ms.filter (!·.isConstant)) ≤
      Monomial.totalWeight (mergedTerms ms)) :
    IsMergedSum ((ms.map Monomial.sorted).filter (!·.isConstant)) ∧
      ∀ m ∈ ms.filter (!·.isConstant), (m.coeff == 0) = false := by
  have hfactors : ∀ m ∈ ms.map Monomial.sorted, m.isConstant = false → 2 ≤ m.factorWeight := by
    rw [List.forall_mem_map]
    intro m hm hc
    rw [Monomial.isConstant_sorted] at hc
    rw [Monomial.factorWeight_sorted]
    exact Monomial.two_le_factorWeight (hfactor m hm) hc
  rcases mergedTerms_isMergedSum_or_lighter
    (List.forall_mem_map.2 fun m _ => m.sorted_sorted) hfactors with ⟨hsum, hne⟩ | hlt
  · rw [Monomial.filter_not_isConstant_map_sorted, List.forall_mem_map] at hne
    exact ⟨hsum, hne⟩
  · rw [mergedTerms_map_sorted, Monomial.filter_not_isConstant_map_sorted,
      Monomial.totalWeight_map_sorted] at hlt
    exact absurd hweight (Nat.not_le.2 hlt)

/-- A sum whose normal form is not lighter consists of terms that cannot be merged. -/
theorem exists_isSumOrder_of_weight_le (hs : 2 ≤ s.weight)
    (hweight : s.weight ≤ s.normalizeSum.value.weight) :
    ∃ ms ps ns, (s.signedTerms false).mapM Monomial.ofTerm? = some ms ∧
      (ms.map Monomial.sorted).Perm (ps ++ ns) ∧ IsSumOrder ps ns := by
  rcases normalizeSum_cases s with ⟨-, hnone⟩ | ⟨ms, hms, -⟩
  · rw [hnone] at hweight
    exact absurd (hs.trans hweight) (Nat.not_succ_le_self 1)
  obtain ⟨hterms, hothers, hlength⟩ := weight_steps_of_weight_le hs hms hweight
  have hterm := Monomial.exists_of_weightSum_le hms hterms
  obtain ⟨hmerged, hne⟩ := isMergedSum_map_sorted (fun m hm => by
    obtain ⟨t, -, ht, -⟩ := hterm m hm
    exact Monomial.isFactor_of_ofTerm? ht) hothers
  have hsummand : ∀ m ∈ ms.map Monomial.sorted, m.IsSummand := by
    rw [List.forall_mem_map]
    intro m hm
    obtain ⟨t, hmem, ht, hle⟩ := hterm m hm
    refine Monomial.isSummand_sorted (isTerm_of_mem_signedTerms hmem) ht hle ?_
    cases hc : m.isConstant with
    | true => exact ne_zero_of_length_constants hlength m (List.mem_filter.2 ⟨hm, hc⟩)
    | false => exact hne m (List.mem_filter.2 ⟨hm, Bool.not_eq_true' _ ▸ hc⟩)
  have hone : ((ms.map Monomial.sorted).filter Monomial.isConstant).length ≤ 1 := by
    rw [Monomial.filter_isConstant_map_sorted, List.length_map]
    split at hlength <;> omega
  obtain ⟨ps, ns, hp, horder⟩ := exists_isSumOrder hsummand hmerged hone
  exact ⟨ms, ps, ns, hms, hp, horder⟩

/-- A sum that is its own normal form is the sum of terms in order, some of which are positive, and its
opposite is that of the opposite terms. -/
theorem exists_isSumOrder_of_beq (hs : s.isSum) (h : s.normalizeSum.value == s) :
    ∃ ps ns, IsSumOrder ps ns ∧ ps ≠ [] ∧ 2 ≤ (ps ++ ns).length ∧ ofTerms ps ns == s ∧
      (-s).normalizeSum.value = ofTerms (ns.map Monomial.negated) (ps.map Monomial.negated) := by
  have hlength := two_le_length_signedTerms hs false
  obtain ⟨ms, ps, ns, hms, hp, horder⟩ := exists_isSumOrder_of_weight_le
    (hlength.trans (length_signedTerms_le s false)) (weight_congr h).ge
  rw [normalizeSum_of_isSumOrder hms hp horder] at h
  rw [(mapM_eq_some_iff.1 hms).length_eq, ← List.length_map Monomial.sorted, hp.length_eq] at hlength
  refine ⟨ps, ns, horder, ?_, hlength, h, ?_⟩
  · rintro rfl
    have hsum := isSum_congr h
    rw [List.nil_append] at hlength
    rw [ofTerms_nil hlength, hs] at hsum
    cases hsum
  · refine normalizeSum_of_isSumOrder (mapM_signedTerms_neg hms) ?_ horder.negated
    have hsorted : (ms.map Monomial.negated).map Monomial.sorted =
        (ms.map Monomial.sorted).map Monomial.negated := by
      rw [List.map_map, List.map_map]
      rfl
    rw [hsorted, ← List.map_append]
    exact (hp.trans List.perm_append_comm).map Monomial.negated

end Formula

/-- A sum of positive and of negative terms in order differs from its opposite. -/
theorem IsSumOrder.ofTerms_negated_ne (h : IsSumOrder ps ns) (hps : ps ≠ []) (hns : ns ≠ []) :
    (ofTerms (ns.map Monomial.negated) (ps.map Monomial.negated) == ofTerms ps ns) = false := by
  refine eq_false_of_ne_true fun heq => ?_
  have hterms := forall₂_signedTerms heq false
  obtain ⟨hp, hn⟩ := h.isTerm_toFormula
  obtain ⟨hp', hn'⟩ := h.negated.isTerm_toFormula
  rw [signedTerms_ofTerms (fun hnil => absurd hnil hps) hp hn,
    signedTerms_ofTerms (fun hnil => absurd hnil (by simpa using hns)) hp' hn'] at hterms
  rcases ps with _ | ⟨p, ps⟩
  · exact hps rfl
  rcases ns with _ | ⟨n, ns⟩
  · exact hns rfl
  simp only [List.map_cons, List.cons_append] at hterms
  -- The first terms have the same factors, but are of different signs.
  have hfirst := (List.forall₂_cons.1 hterms).1.2
  have hpmem : p ∈ p :: ps ++ n :: ns := by simp
  have hnmem : n ∈ p :: ps ++ n :: ns := by simp
  have hfactors : n.compareFactors p = .eq :=
    (h.isSummand n hnmem).negated.compareFactors_eq (h.isSummand p hpmem) hfirst
  have hconst := Monomial.isConstant_eq_of_compareFactors hfactors
  cases hc : p.isConstant with
  | true =>
    have hconstants := h.constants
    rw [hc] at hconst
    simp [List.filter_append, hc, hconst] at hconstants
  | false =>
    have hmem {m : Monomial α} (hm : m ∈ p :: ps ++ n :: ns) (hc : m.isConstant = false) :
        m ∈ (p :: ps ++ n :: ns).filter (!·.isConstant) :=
      List.mem_filter.2 ⟨hm, Bool.not_eq_true' _ ▸ hc⟩
    have hsame := h.eq_of_compareFactors (hmem hnmem (hconst.trans hc)) (hmem hpmem hc) hfactors
    have hpos := h.positive p (by simp)
    have hneg := h.negative n (by simp)
    rw [hsame, lt_zero_eq_false_of_pos hpos (h.isSummand p hpmem).isFinite] at hneg
    cases hneg

/-! ## Signs -/

namespace Formula

/-- Whether `v` counts as negative and is the opposite of `u`, which does not count as negative. -/
def IsSignedPair (u v : Formula α) : Prop :=
  u.negativeForm? = none ∧ Option.Rel (· == ·) v.negativeForm? (some u)

/-- Whether even and odd functions of `f` are written over `g`: the rules for signs make them functions
of `g`, and no rule applies to these. -/
structure IsWrittenOver (f g : Formula α) : Prop where
  even : (normalizeUnary .cos f).value = unary .cos g
  odd : ∀ op ∈ [.sin, .tan, .percent], (normalizeUnary op f).value =
    if f.negativeForm?.isSome then -unary op g else unary op g
  stays : ∀ op ∈ [.cos, .sin, .tan, .percent], (normalizeUnary op g).value = unary op g

omit [LawfulScalar α] in
theorem normalizeUnary_of_isConst {op : UnaryOp} (hop : op ∈ [.sin, .tan, .percent])
    (hc : f.isConst = false) : (normalizeUnary op f).value = (f.normalizeOdd op).value := by
  simp only [List.mem_cons, List.not_mem_nil, or_false] at hop
  obtain rfl | rfl | rfl := hop
  · exact normalizeSin_of_isConst hc
  · exact normalizeTan_of_isConst hc
  · refine normalizePercent_of_ne_zero ?_
    rintro v rfl
    cases hc

omit [LawfulScalar α] in
theorem normalizeUnary_of_negativeForm? {op : UnaryOp} (hop : op ∈ [.cos, .sin, .tan, .percent])
    (hc : f.isConst = false) (h : f.negativeForm? = none) :
    (normalizeUnary op f).value = unary op f := by
  obtain rfl | hop := List.mem_cons.1 hop
  · exact normalizeCos_of_negativeForm? hc h
  · rw [normalizeUnary_of_isConst hop hc, normalizeOdd_of_negativeForm? h]

omit [LawfulScalar α] in
/-- Functions of a formula that does not count as negative stay as they are. -/
theorem isWrittenOver_self (hc : f.isConst = false) (h : f.negativeForm? = none) :
    f.IsWrittenOver f where
  even := normalizeUnary_of_negativeForm? (by simp) hc h
  odd op hop := by
    rw [h, Option.isSome_none, if_neg Bool.false_ne_true]
    exact normalizeUnary_of_negativeForm? (List.mem_cons_of_mem _ hop) hc h
  stays op hop := normalizeUnary_of_negativeForm? hop hc h

omit [LawfulScalar α] in
theorem normalizeCos_of_negativeForm?_eq_some (hc : f.isConst = false) (h : f.negativeForm? = some g) :
    f.normalizeCos.value = unary .cos g := by
  cases f with
  | const v => cases hc
  | _ =>
    simp only [normalizeCos, h]
    rfl

omit [LawfulScalar α] in
/-- Functions of a formula that counts as negative are written over its opposite. -/
theorem isWrittenOver_of_negativeForm? (hc : f.isConst = false) (h : f.negativeForm? = some g)
    (hcg : g.isConst = false) (hg : g.negativeForm? = none) : f.IsWrittenOver g where
  even := normalizeCos_of_negativeForm?_eq_some hc h
  odd op hop := by
    rw [normalizeUnary_of_isConst hop hc, normalizeOdd, h, Option.isSome_some, if_pos rfl]
    rfl
  stays op hop := normalizeUnary_of_negativeForm? hop hcg hg

omit [Scalar α] [LawfulScalar α] in
theorem isConst_of_isSum (h : f.isSum) : f.isConst = false := by
  cases f with
  | binary => rfl
  | _ => cases h

omit [LawfulScalar α] in
theorem negativeForm?_of_isSum (h : f.isSum) : f.negativeForm? =
    if (-f).normalizeSum.value.isBefore f then some (-f).normalizeSum.value else none := by
  cases f with
  | binary op a b =>
    cases op with
    | add | sub => rfl
    | mul | div => cases h
  | _ => cases h

omit [LawfulScalar α] in
/-- A negation does not come before a sum. -/
theorem isBefore_neg_of_isSum (h : f.isSum) (g : Formula α) : (-g).isBefore f = false := by
  cases f with
  | binary => rfl
  | _ => cases h

/-- The opposite of a sum that is its own normal form is its negation, or a different sum. The opposite of
the opposite is the sum again. -/
theorem exists_opposite (hs : s.isSum) (h : s.normalizeSum.value == s)
    (ht : (-s).normalizeSum.value = t) :
    ∃ r, r == s ∧ (-t).normalizeSum.value = r ∧ (-r).normalizeSum.value = t ∧
      (t = -r ∨ t.isSum ∧ (t == r) = false) := by
  obtain ⟨ps, ns, horder, hps, hlength, hr, hopposite⟩ := exists_isSumOrder_of_beq hs h
  rw [ht] at hopposite
  subst hopposite
  have hback := horder.negated.normalizeSum_neg_ofTerms fun hnil => by
    simpa [List.map_eq_nil_iff.1 hnil] using hlength
  rw [Monomial.map_negated_map_negated, Monomial.map_negated_map_negated] at hback
  refine ⟨ofTerms ps ns, hr, hback, horder.normalizeSum_neg_ofTerms fun hnil => absurd hnil hps, ?_⟩
  by_cases hns : ns = []
  · subst hns
    left
    rw [List.append_nil] at hlength
    rw [List.map_nil, ofTerms_nil (by rwa [List.length_map]), Monomial.map_negated_map_negated]
  · refine .inr ⟨isSum_ofTerms (by simpa using hns) ?_, horder.ofTerms_negated_ne hps hns⟩
    rwa [List.length_append, List.length_map, List.length_map, Nat.add_comm, ← List.length_append]

/-- One of two different formulas comes before the other one. -/
theorem isBefore_eq_not (h : (f == g) = false) : g.isBefore f = !f.isBefore g := by
  have hswap : g.compare f = (f.compare g).swap := Std.OrientedCmp.eq_swap
  rw [beq_eq] at h
  rw [isBefore, isBefore, hswap]
  revert h
  cases f.compare g <;> decide

theorem isBefore_congr {f' g' : Formula α} (hf : f == f') (hg : g == g') :
    f.isBefore g = f'.isBefore g' := by
  rw [isBefore, isBefore, compare_congr hf hg]

/-! ## Main statement -/

/-- Of a sum that is its own normal form and its opposite, exactly one counts as negative, and its
opposite is the other one. So functions of the two are written over equal formulas, and functions of these
stay as they are. -/
theorem isSignedPair_normalizeSum (hs : s.isSum) (h : s.normalizeSum.value == s) :
    (-(-s).normalizeSum.value).normalizeSum.value == s ∧
      (IsSignedPair s (-s).normalizeSum.value ∨ IsSignedPair (-s).normalizeSum.value s) ∧
      ∃ u v : Formula α, u == v ∧ s.IsWrittenOver u ∧ (-s).normalizeSum.value.IsWrittenOver v := by
  generalize ht : (-s).normalizeSum.value = t
  obtain ⟨r, hr, hback, hopposite, hcases⟩ := exists_opposite hs h ht
  have hrsum : r.isSum := (isSum_congr hr).trans hs
  have hformS := negativeForm?_of_isSum hs
  have hformR := negativeForm?_of_isSum hrsum
  rw [ht] at hformS
  rw [hopposite, isBefore_congr BEq.rfl hr] at hformR
  refine ⟨hback ▸ hr, ?_⟩
  have hconstS := isConst_of_isSum hs
  have hconstR := isConst_of_isSum hrsum
  obtain rfl | ⟨htsum, hne⟩ := hcases
  · -- A negation comes after every sum.
    rw [isBefore_neg_of_isSum hs, if_neg Bool.false_ne_true] at hformS hformR
    exact ⟨.inl ⟨hformS, .some hr⟩, s, r, BEq.symm hr, isWrittenOver_self hconstS hformS,
      isWrittenOver_of_negativeForm? rfl rfl hconstR hformR⟩
  · have hconstT := isConst_of_isSum htsum
    have hformT := negativeForm?_of_isSum htsum
    rw [hback, isBefore_eq_not hne, isBefore_congr BEq.rfl hr] at hformT
    cases hlt : t.isBefore s with
    | true =>
      rw [hlt] at hformS hformT
      exact ⟨.inr ⟨hformT, hformS.symm ▸ .some BEq.rfl⟩, t, t, BEq.rfl,
        isWrittenOver_of_negativeForm? hconstS hformS hconstT hformT,
        isWrittenOver_self hconstT hformT⟩
    | false =>
      rw [hlt] at hformS hformR hformT
      exact ⟨.inl ⟨hformS, hformT.symm ▸ .some hr⟩, s, r, BEq.symm hr,
        isWrittenOver_self hconstS hformS,
        isWrittenOver_of_negativeForm? hconstT hformT hconstR hformR⟩

/-- Functions of `1-x` and of its opposite `x-1` are written over the same formula. -/
theorem isSignedPair_normalizeSum_one_sub : (.const 1 - .var "x" : Formula Float).isSum ∧
    ((.const 1 - .var "x" : Formula Float).normalizeSum.value == (.const 1 - .var "x")) ∧
    ∃ u v : Formula Float, u == v ∧ (.const 1 - .var "x" : Formula Float).IsWrittenOver u ∧
      (-(.const 1 - .var "x" : Formula Float)).normalizeSum.value.IsWrittenOver v := by
  have h : (.const 1 - .var "x" : Formula Float).normalizeSum.value == (.const 1 - .var "x") := by
    decide +kernel
  exact ⟨rfl, h, (isSignedPair_normalizeSum rfl h).2.2⟩

end Formula
end SymCalc
