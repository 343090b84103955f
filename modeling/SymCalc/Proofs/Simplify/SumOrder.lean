import Mathlib
import SymCalc.Proofs.Simplify.Convergence
import SymCalc.Proofs.Simplify.LikeTerms

/-!
# Sums in any order

* `Monomial.StaysApart`: whether no rule but the one for like terms merges two terms;
* `OnlyLikeTerms`: whether no other rule applies to sums of some terms;
* `Formula.AddsLikeTerms`: the same for operands.

The normal form of such a sum is a sum of the same terms (`OnlyLikeTerms.exists_hasTerms`), so every
partial sum of the operands has their terms (`Formula.exists_hasTerms_sum`). Then their order
does not matter (`Formula.AddsLikeTerms.simplify_sum_eq`).
-/

namespace SymCalc

open Scalar Formula

namespace Monomial

/-- Whether two terms are not merged, unless they are like terms, whatever their coefficients are. -/
structure StaysApart {α : Type} [Scalar α] (a b : Monomial α) : Prop where
  logarithms : ∀ v w, { a with coeff := v }.logArgument?.isSome →
    { b with coeff := w }.logArgument?.isSome → a.factors = b.factors
  angles : ∀ v w, angleSum? { a with coeff := v } { b with coeff := w } = none

variable {m n : Monomial Exact} {a b : Monomial Exact}

theorem eq_of_factors (h : m.factors = n.factors) : { m with coeff := n.coeff } = n := by
  obtain ⟨hn, hd⟩ := Prod.mk.inj h
  obtain ⟨c, ns, ds⟩ := n
  simp only at hn hd
  rw [hn, hd]

/-- A term with another coefficient. -/
theorem IsTerm.of_factors (h : m.IsTerm) (hsum : ∀ s, m.factors = ([s], []) → s.isSum = false)
    (hfactors : m.factors = n.factors) (hfin : isFinite n.coeff) (h0 : (n.coeff == 0) = false) :
    n.IsTerm := by
  rw [← eq_of_factors hfactors] at hfin h0 ⊢
  exact
    { isReduced := ⟨hfin, h0, h.isReduced.isFactor,
        ⟨h.isReduced.isMerged.uncancelled, h.isReduced.isMerged.tangents,
          h.isReduced.isMerged.exponents⟩⟩
      sorted := congrArg (fun m : Monomial Exact => { m with coeff := n.coeff }) h.sorted
      isProper := h.isProper
      not_isSum := fun s hn hd hs =>
        absurd hs (ne_true_of_eq_false (hsum s (Prod.ext hn hd))) }

theorem isTerm_const {v : Exact} (hfin : isFinite v) (h0 : (v == 0) = false) :
    (⟨v, [], []⟩ : Monomial Exact).IsTerm := by
  have hchain : IsChain ([] : List (Formula Exact)) := ⟨List.forall_mem_nil _, Nat.zero_lt_two, .nil⟩
  exact
    { isReduced := hchain.isReduced hfin h0
      sorted := hchain.sorted_eq v
      isProper := List.forall_mem_nil _
      not_isSum := fun _ hn => nomatch hn }

/-- The formula for a term is a term, or the opposite of the one for the opposite term. -/
theorem IsTerm.isTerm_or_eq_neg (h : m.IsTerm) : m.toFormula.isTerm ∨
    lt 0 m.negated.coeff ∧ m.toFormula = -m.negated.toFormula := by
  rcases sign_cases h.isReduced.isFinite with ⟨hpos, -⟩ | ⟨-, hneg, -⟩ | ⟨-, -, h0⟩
  · exact .inl (h.isSummand.isTerm_toFormula hpos)
  · have hpos : lt 0 m.negated.coeff := (LawfulScalar.zero_lt_neg m.coeff).trans hneg
    by_cases hshows : m.numer ≠ [] ∧ m.denom = [] ∧ m.coeff == -1
    · obtain ⟨hn, hd, h1⟩ := hshows
      refine .inr ⟨hpos, ?_⟩
      have hone : (m.coeff == 1) = false := by
        rw [eq_neg_one_of_beq h1]
        exact neg_one_beq_one
      have hnone : m.negated.coeff == 1 := (neg_beq_one m.coeff).trans h1
      have hform : m.toFormula = -product m.numer := by
        have h := toFormula_of_neg_one hn hone h1
        rwa [← hd] at h
      have hform' : m.negated.toFormula = product m.numer := by
        have h := toFormula_of_one hn hnone
        rwa [← hd] at h
      rw [hform, hform']
    · left
      unfold toFormula
      split
      · next hd =>
        unfold numerator
        split
        · next hn =>
          rw [ofValue_of_isProper h.isReduced.isProper]
          rfl
        · next hn =>
          have h1 : (m.coeff == 1) = false := by
            refine eq_false_of_ne_true fun h1 => ?_
            rw [eq_one_of_beq h1,
              lt_zero_eq_false_of_pos LawfulScalar.zero_lt_one LawfulScalar.isFinite_one] at hneg
            cases hneg
          have hneg1 : (m.coeff == -1) = false := eq_false_of_ne_true fun h => hshows ⟨hn, hd, h⟩
          rw [h1, hneg1]
          obtain ⟨g, gs, hcons⟩ := List.exists_cons_of_ne_nil hn
          rw [hcons]
          exact isTerm_foldl_mul (ofValue m.coeff) g gs
      · rfl
  · exact absurd h0 (ne_true_of_eq_false h.isReduced.ne_zero)

/-- A term is read back from its formula. -/
theorem IsTerm.hasTerms (h : m.IsTerm) : m.toFormula.HasTerms [m] := by
  rcases h.isTerm_or_eq_neg with ht | ⟨hpos, heq⟩
  · rw [HasTerms, signedTerms_of_isTerm ht, mapM_eq_some_iff]
    exact .cons (congrArg (Option.map _) h.isSummand.of?_toFormula) .nil
  · have ht := h.negated.isSummand.isTerm_toFormula hpos
    rw [HasTerms, heq, neg_eq, signedTerms, signedTerms_of_isTerm ht, mapM_eq_some_iff]
    refine .cons ?_ .nil
    refine (congrArg (Option.map _) h.negated.isSummand.of?_toFormula).trans ?_
    exact congrArg some m.negated_negated

end Monomial

variable {f : Formula Exact} {m : Monomial Exact} {ms ns ts ps : List (Monomial Exact)}

/-! ## Sums in order are read back -/

theorem sameTerms_nil_of_zero (h : m.coeff = 0) : SameTerms [m] [] := by
  intro k
  refine coeffAt_eq_zero fun u hu _ => ?_
  obtain rfl := List.mem_singleton.1 hu
  exact congrArg Exact.toReal h

theorem Monomial.of?_zero : of? (const 0 : Formula Exact) = some ⟨0, [], []⟩ := by
  have hof := of?_toFormula (m := (⟨0, [], []⟩ : Monomial Exact)) isProper_zero (List.forall_mem_nil _)
  have hconst : (⟨0, [], []⟩ : Monomial Exact).toFormula = ofValue 0 := rfl
  rwa [hconst, ofValue_of_isProper isProper_zero] at hof

theorem Monomial.of?_undefined : of? (undefined : Formula Exact) = none := by
  refine Option.eq_none_iff_forall_ne_some.2 fun m hm => ?_
  obtain ⟨-, hfin, rfl⟩ := eq_of_ofPieces? hm
  cases hfin

theorem hasTerms_zero : (const 0 : Formula Exact).HasTerms [⟨0, [], []⟩] :=
  mapM_eq_some_iff.2 (.cons (congrArg (Option.map _) Monomial.of?_zero) .nil)

/-- The terms of a sum in order are read back from it, and zero from the empty sum. -/
theorem IsSumForm.exists_hasTerms (h : IsSumForm ps ns) :
    ∃ ts, (ofTerms ps ns).HasTerms ts ∧ SameTerms ts (ps ++ ns) ∧
      ∀ t ∈ ts, t.isConstant ∨ t ∈ ps ++ ns := by
  by_cases hlength : ps = [] → 2 ≤ ns.length
  · exact ⟨_, h.mapM_signedTerms hlength, .of_perm (.refl _), fun t ht => .inr ht⟩
  · obtain ⟨rfl, hns⟩ := Classical.not_imp.1 hlength
    rcases ns with _ | ⟨m, _ | ⟨n, ns⟩⟩
    · exact ⟨_, hasTerms_zero, sameTerms_nil_of_zero rfl, by simp [Monomial.isConstant]⟩
    · exact ⟨[m], (h.isTerm m List.mem_cons_self).hasTerms, .of_perm (.refl _), fun t ht => .inr ht⟩
    · exact absurd (Nat.le_add_left ..) hns

theorem isFinite_constantPart (h : HaveNumbers ms) : isFinite (constantPart ms) := by
  rw [constantPart_eq h]
  rfl

/-- The constant of a sum is a term, unless it is zero. -/
theorem exists_constants (h : HaveNumbers ns) : ∃ cs : List (Monomial Exact), cs.length ≤ 1 ∧
    (∀ c ∈ cs, c.isConstant ∧ c.IsTerm) ∧ SameTerms cs [⟨constantPart ns, [], []⟩] := by
  cases h0 : constantPart ns == 0 with
  | true =>
    exact ⟨[], Nat.zero_le _, List.forall_mem_nil _,
      (sameTerms_nil_of_zero (Exact.eq_of_beq h0)).symm⟩
  | false =>
    have hterm := Monomial.isTerm_const (isFinite_constantPart h) h0
    exact ⟨[⟨constantPart ns, [], []⟩], Nat.le_refl _, List.forall_mem_singleton.2 ⟨rfl, hterm⟩,
      .of_perm (.refl _)⟩

theorem Monomial.filter_constants_append {cs ts : List (Monomial Exact)}
    (hcs : ∀ c ∈ cs, c.isConstant) (hts : ∀ t ∈ ts, t.isConstant = false) :
    (cs ++ ts).filter isConstant = cs ∧ (cs ++ ts).filter (!·.isConstant) = ts := by
  have hself : cs.filter isConstant = cs := List.filter_eq_self.2 hcs
  have hnone : ts.filter isConstant = [] :=
    List.filter_eq_nil_iff.2 fun t ht => ne_true_of_eq_false (hts t ht)
  have hnil : cs.filter (!·.isConstant) = [] :=
    List.filter_eq_nil_iff.2 fun c hc => by simp [hcs c hc]
  have hall : ts.filter (!·.isConstant) = ts :=
    List.filter_eq_self.2 fun t ht => by rw [hts t ht, Bool.not_false]
  rw [List.filter_append, List.filter_append, hself, hnone, hnil, hall, List.append_nil,
    List.nil_append]
  exact ⟨rfl, rfl⟩

/-! ## Sums of terms that stay apart -/

/-- Whether no rule but the one for like terms applies to sums of the terms. A multiple of a sum is left
out, because it can become the sum itself, which is not one term. -/
structure OnlyLikeTerms (ms : List (Monomial Exact)) : Prop where
  not_isSum : ∀ m ∈ ms, ∀ s, m.factors = ([s], []) → s.isSum = false
  apart : ∀ a ∈ ms, ∀ b ∈ ms, a.StaysApart b

/-- Whether the terms, apart from constants, have the factors of some of the terms `ms`. -/
def ComeFrom (ns ms : List (Monomial Exact)) : Prop :=
  ∀ n ∈ ns, n.isConstant ∨ n.IsTerm ∧ ∃ m ∈ ms, m.factors = n.factors

namespace OnlyLikeTerms

/-- Different terms cannot be merged. -/
theorem isMergedSum (h : OnlyLikeTerms ms)
    (hdistinct : ts.Pairwise fun a b => a.compareFactors b = .lt)
    (hts : ∀ t ∈ ts, ∃ m ∈ ms, m.factors = t.factors) : IsMergedSum ts where
  distinct := hdistinct.imp fun hlt heq => nomatch hlt.symm.trans heq
  logarithms := by
    have hpair : (ts.filter (·.logArgument?.isSome)).Pairwise fun _ _ => False := by
      refine (hdistinct.filter _).imp_of_mem fun {a b} ha hb hlt => ?_
      obtain ⟨ha, hlog⟩ := List.mem_filter.1 ha
      obtain ⟨hb, hlog'⟩ := List.mem_filter.1 hb
      obtain ⟨m, hm, hma⟩ := hts a ha
      obtain ⟨n, hn, hnb⟩ := hts b hb
      rw [← Monomial.eq_of_factors hma] at hlog
      rw [← Monomial.eq_of_factors hnb] at hlog'
      have heq := (h.apart m hm n hn).logarithms _ _ hlog hlog'
      rw [hma, hnb, ← Monomial.compareFactors_eq_iff, hlt] at heq
      cases heq
    rcases hfilter : ts.filter (·.logArgument?.isSome) with _ | ⟨a, _ | ⟨b, logs⟩⟩
    · rw [hfilter]
      exact Nat.zero_lt_two
    · rw [hfilter]
      exact Nat.one_lt_two
    · rw [hfilter] at hpair
      exact ((List.pairwise_cons.1 hpair).1 b List.mem_cons_self).elim
  angles := by
    have hangle {a b : Monomial Exact} (ha : a ∈ ts) (hb : b ∈ ts) : angleSum? a b = none := by
      obtain ⟨m, hm, hma⟩ := hts a ha
      obtain ⟨n, hn, hnb⟩ := hts b hb
      rw [← Monomial.eq_of_factors hma, ← Monomial.eq_of_factors hnb]
      exact (h.apart m hm n hn).angles _ _
    exact hdistinct.imp_of_mem fun ha hb _ => ⟨hangle ha hb, hangle hb ha⟩

/-- The terms that are left after like terms are added up. -/
theorem mergedTerms_eq (h : OnlyLikeTerms ms) (hns : HaveNumbers ns) (hfrom : ComeFrom ns ms) :
    IsCombined (mergedTerms ns) ∧ (∀ k, coeffAt k (mergedTerms ns) =
        coeffAt k ((ns.filter (!·.isConstant)).map Monomial.sorted)) ∧
      IsMergedSum (mergedTerms ns) ∧
      ∀ t ∈ mergedTerms ns, t.isConstant = false ∧ t.IsTerm ∧ ∃ m ∈ ms, m.factors = t.factors := by
  have hnum := haveNumbers_sorted hns (!·.isConstant)
  have hsorted : (ns.filter (!·.isConstant)).map Monomial.sorted = ns.filter (!·.isConstant) :=
    map_sorted_eq fun n hn =>
      (hfrom n hn).elim Monomial.sorted_of_isConstant fun hterm => hterm.1.sorted
  obtain ⟨hcombined, hmem⟩ := isCombined_combineLikeTerms hnum
  have hcoeff k : coeffAt k (combineLikeTerms _).value = _ := coeffAt_combineLikeTerms (k := k) hnum
  have hterm : ∀ t ∈ (combineLikeTerms ((ns.filter (!·.isConstant)).map Monomial.sorted)).value,
      t.isConstant = false ∧ t.IsTerm ∧ ∃ m ∈ ms, m.factors = t.factors := by
    intro t ht
    obtain ⟨u, hu, hut⟩ := hmem t ht
    rw [hsorted] at hu
    obtain ⟨hu, hconst⟩ := List.mem_filter.1 hu
    rw [Bool.not_eq_true'] at hconst
    obtain ⟨huterm, m, hm, hmu⟩ := (hfrom u hu).resolve_left (ne_true_of_eq_false hconst)
    have hsame : t.isConstant = u.isConstant := by
      obtain ⟨hn, hd⟩ := Prod.mk.inj hut
      rw [Monomial.isConstant, Monomial.isConstant, hn, hd]
    refine ⟨hsame.trans hconst, ?_, m, hm, hmu.trans hut⟩
    refine huterm.of_factors (fun s hs => h.not_isSum m hm s (hmu.trans hs)) hut
      (hcombined.isNumber t ht) (eq_false_of_ne_true fun h0 => hcombined.ne_zero t ht ?_)
    exact congrArg Exact.toReal (Exact.eq_of_beq h0)
  have hmerged := h.isMergedSum hcombined.sorted fun t ht => (hterm t ht).2.2
  have hlog := (value_mergeLogarithms _).trans (if_pos hmerged.logarithms)
  rw [mergedTerms, hlog, mergeAngleSums_of_angles hmerged.angles]
  exact ⟨hcombined, hcoeff, hmerged, hterm⟩

/-- The constant and the other terms make up the sum. -/
theorem sameTerms_merged (h : OnlyLikeTerms ms) (hns : HaveNumbers ns) (hfrom : ComeFrom ns ms) :
    SameTerms (⟨constantPart ns, [], []⟩ :: mergedTerms ns) ns := by
  obtain ⟨-, hcoeff, -, hterm⟩ := h.mergedTerms_eq hns hfrom
  have hsorted : (mergedTerms ns).map Monomial.sorted = mergedTerms ns :=
    (List.map_congr_left fun t ht => (hterm t ht).2.1.sorted).trans (List.map_id' _)
  intro k
  rw [List.map_cons, hsorted, coeffAt_cons, hcoeff, coeffAt_nonconstant,
    Monomial.sorted_of_isConstant rfl, constantPart_eq hns, Exact.toReal_number]
  by_cases hk : k = ([], [])
  · subst hk
    exact (congrArg₂ (· + ·) (if_pos rfl) (if_pos rfl)).trans (add_zero _)
  · have hne : (⟨.number (coeffAt ([], []) (ns.map Monomial.sorted)), [], []⟩ :
        Monomial Exact).factors ≠ k := fun h => hk h.symm
    rw [if_neg hk, if_neg hne, zero_add]

/-- The normal form of a sum whose terms stay apart is a sum of the same terms. -/
theorem exists_hasTerms (h : OnlyLikeTerms ms) (hf : f.HasTerms ns) (hfrom : ComeFrom ns ms) :
    ∃ ts, f.normalizeSum.value.HasTerms ts ∧ SameTerms ts ns ∧ ComeFrom ts ms := by
  have hns := hf.haveNumbers
  obtain ⟨hcombined, -, hmerged, hterm⟩ := h.mergedTerms_eq hns hfrom
  obtain ⟨cs, hlength, hcs, hsame⟩ := exists_constants hns
  obtain ⟨hconst, hnonconst⟩ := Monomial.filter_constants_append (fun c hc => (hcs c hc).1)
    fun t ht => (hterm t ht).1
  have hterms : ∀ m ∈ cs ++ mergedTerms ns, m.IsTerm :=
    List.forall_mem_append.2 ⟨fun c hc => (hcs c hc).2, fun t ht => (hterm t ht).2.1⟩
  obtain ⟨ps, qs, hperm, hform⟩ := exists_isSumForm hterms (hnonconst.symm ▸ hmerged)
    (hconst.symm ▸ hlength)
  have hparts : SameTerms (cs ++ mergedTerms ns) (⟨constantPart ns, [], []⟩ :: mergedTerms ns) :=
    hsame.append (.of_perm (.refl _))
  have hall : SameTerms (ps ++ qs) ns :=
    ((SameTerms.of_perm hperm.symm).trans hparts).trans (h.sameTerms_merged hns hfrom)
  have hvalue : f.normalizeSum.value = ofTerms ps qs := by
    have hterms : (mergedTerms ns).Perm ((ps ++ qs).filter (!·.isConstant)) :=
      hnonconst ▸ hperm.filter _
    have hnum : HaveNumbers (ps ++ qs) := fun m hm => (hform.isTerm m hm).isReduced.isFinite
    have hfins : (mergedTerms ns).all (isFinite ·.coeff) :=
      List.all_eq_true.2 fun t ht => hcombined.isNumber t ht
    rw [normalizeSum_of_mapM hf, isFinite_constantPart hns, hfins, Bool.and_self, if_pos rfl,
      ← hform.assemble_eq hterms, (hall.merged_eq hnum hns).1]
  obtain ⟨ts, hts, hsame, hmem⟩ := hform.exists_hasTerms
  refine ⟨ts, hvalue ▸ hts, hsame.trans hall, fun t ht => ?_⟩
  refine (hmem t ht).elim .inl fun ht => ?_
  rcases List.mem_append.1 (hperm.mem_iff.2 ht) with hc | ht
  · exact .inl (hcs t hc).1
  · exact .inr (hterm t ht).2

end OnlyLikeTerms

/-! ## Sums of operands -/

namespace Formula

variable {fs gs : List (Formula Exact)} {g : Formula Exact}

/-- The terms of the formula, taken as a sum. -/
noncomputable def terms (f : Formula Exact) : List (Monomial Exact) :=
  ((f.signedTerms false).mapM Monomial.ofTerm?).getD []

theorem HasTerms.terms_eq (h : f.HasTerms ms) : f.terms = ms := by
  rw [terms, h, Option.getD_some]

theorem eq_undefined_of_isUndefined (h : f.isUndefined) : f = undefined := by
  cases f with
  | const v =>
    cases v with
    | number x => cases h
    | undefined => rfl
  | _ => cases h

theorem HasTerms.isUndefined (h : f.HasTerms ms) : f.isUndefined = false := by
  refine eq_false_of_ne_true fun hundef => ?_
  obtain rfl := eq_undefined_of_isUndefined hundef
  obtain ⟨m, hm⟩ : ∃ m, Monomial.ofTerm? (false, (undefined : Formula Exact)) = some m := by
    obtain ⟨m, -, hm, -⟩ := List.forall₂_cons_left_iff.1 (mapM_eq_some_iff.1 h)
    exact ⟨m, hm⟩
  rw [Monomial.ofTerm?, Monomial.of?_undefined] at hm
  cases hm

theorem IsFixpoint.isSettled (h : f.IsFixpoint) (hdef : f.isUndefined = false) : f.IsSettled 0 := by
  rcases settles_simplifyOnce f with hundef | hlt | ⟨-, hsettled⟩
  · rw [h.symm.trans hundef, isUndefined_undefined] at hdef
    cases hdef
  · rw [h] at hlt
    exact absurd hlt (Nat.lt_irrefl _)
  · rwa [h] at hsettled

/-- The terms of a settled formula. -/
theorem IsSettled.hasTerms {k : ℕ} (h : f.IsSettled k) :
    f.HasTerms f.terms ∧ ComeFrom f.terms f.terms := by
  obtain ⟨ms, hms, -, hterm⟩ := Monomial.exists_mapM_ofTerm? fun t ht =>
    (h.of_mem_signedTerms ht).isTermForm (isTerm_of_mem_signedTerms ht)
  rw [HasTerms.terms_eq hms]
  exact ⟨hms, fun m hm => (hterm m hm).elim (fun h => .inr ⟨h, m, hm, rfl⟩) fun h => .inl h.1⟩

theorem simplifyOnce_add (f g : Formula Exact) : (f + g).simplifyOnce =
    if f.simplifyOnce.isUndefined || g.simplifyOnce.isUndefined then undefined
    else (f.simplifyOnce + g.simplifyOnce).normalizeSum.value := by
  rw [add_eq, simplifyOnce_binary]
  rfl

theorem sum_append_singleton (hne : fs ≠ []) (f : Formula Exact) : sum (fs ++ [f]) = sum fs + f := by
  cases fs with
  | nil => exact absurd rfl hne
  | cons g fs => rw [List.cons_append, sum, List.foldl_append, sum]; rfl

/-- A chain with an undefined operand is undefined. -/
theorem simplifyOnce_foldl_of_isUndefined (op : ArithOp)
    (h : ∃ g ∈ f :: fs, g.simplifyOnce.isUndefined) :
    (fs.foldl (binary op) f).simplifyOnce = undefined := by
  induction fs generalizing f with
  | nil =>
    obtain ⟨g, hg, hundef⟩ := h
    cases List.mem_singleton.1 hg
    exact eq_undefined_of_isUndefined hundef
  | cons g fs ih =>
    refine ih ?_
    obtain ⟨k, hk, hundef⟩ := h
    have hchain (h : f.simplifyOnce.isUndefined || g.simplifyOnce.isUndefined) :
        (binary op f g).simplifyOnce.isUndefined := by
      rw [simplifyOnce_binary, if_pos h, isUndefined_undefined]
    rcases List.mem_cons.1 hk with rfl | hk
    · exact ⟨_, List.mem_cons_self, hchain (by rw [hundef, Bool.true_or])⟩
    · rcases List.mem_cons.1 hk with rfl | hk
      · exact ⟨_, List.mem_cons_self, hchain (by rw [hundef, Bool.or_true])⟩
      · exact ⟨k, List.mem_cons_of_mem _ hk, hundef⟩

theorem simplifyOnce_sum_of_isUndefined (h : ∃ f ∈ fs, f.simplifyOnce.isUndefined) :
    (sum fs).simplifyOnce = undefined := by
  cases fs with
  | nil => simp at h
  | cons f fs => exact simplifyOnce_foldl_of_isUndefined .add h

theorem exists_append_singleton_of_length {β : Type} {xs : List β} (h : 2 ≤ xs.length) :
    ∃ ys y, ys ≠ [] ∧ xs = ys ++ [y] := by
  obtain rfl | ⟨ys, y, rfl⟩ := xs.eq_nil_or_concat'
  · cases h
  · refine ⟨ys, y, ?_, rfl⟩
    rintro rfl
    simp at h

/-- Partial sums have the terms of their operands. -/
theorem exists_hasTerms_sum (h : OnlyLikeTerms ms) (hfs : ∀ f ∈ fs, f.simplifyOnce.IsSettled 0)
    (hsub : ∀ f ∈ fs, f.simplifyOnce.terms ⊆ ms) (hne : fs ≠ []) :
    ∃ ts, (sum fs).simplifyOnce.HasTerms ts ∧ SameTerms ts (fs.flatMap (·.simplifyOnce.terms)) ∧
      ComeFrom ts ms := by
  induction fs using List.reverseRecOn with
  | nil => exact absurd rfl hne
  | append_singleton fs f ih =>
    obtain ⟨hinit, hf⟩ := List.forall_mem_append.1 hfs
    obtain ⟨hsubinit, hsub⟩ := List.forall_mem_append.1 hsub
    obtain ⟨hf, hfrom⟩ := (List.forall_mem_singleton.1 hf).hasTerms
    have hfrom : ComeFrom f.simplifyOnce.terms ms := fun n hn =>
      (hfrom n hn).imp_right fun ⟨hn, m, hm, heq⟩ =>
        ⟨hn, m, List.forall_mem_singleton.1 hsub hm, heq⟩
    by_cases hfs : fs = []
    · subst hfs
      exact ⟨_, hf, .of_perm (by simp), hfrom⟩
    · obtain ⟨ts, hts, hsame, hcome⟩ := ih hinit hsubinit hfs
      have hadd := hts.add hf
      obtain ⟨us, hus, hsame', hcome'⟩ :=
        h.exists_hasTerms hadd (List.forall_mem_append.2 ⟨hcome, hfrom⟩)
      refine ⟨us, ?_, hsame'.trans ?_, hcome'⟩
      · rw [sum_append_singleton hfs, simplifyOnce_add, hts.isUndefined, hf.isUndefined]
        exact hus
      · rw [List.flatMap_append]
        exact hsame.append (.of_perm (by simp))

/-- Whether one pass brings the operands of a sum into normal form, and no rule but the one for like
terms applies to sums of their terms. -/
structure AddsLikeTerms (fs : List (Formula Exact)) : Prop where
  isFixpoint : ∀ f ∈ fs, f.simplifyOnce.IsFixpoint
  terms : OnlyLikeTerms (fs.flatMap (·.simplifyOnce.terms))

namespace AddsLikeTerms

theorem perm (h : AddsLikeTerms fs) (hp : fs.Perm gs) : AddsLikeTerms gs where
  isFixpoint f hf := h.isFixpoint f (hp.mem_iff.2 hf)
  terms :=
    have hmem {m : Monomial Exact} (hm : m ∈ gs.flatMap (·.simplifyOnce.terms)) :
        m ∈ fs.flatMap (·.simplifyOnce.terms) := (hp.flatMap_right _).mem_iff.2 hm
    ⟨fun m hm => h.terms.not_isSum m (hmem hm), fun a ha b hb => h.terms.apart a (hmem ha) b (hmem hb)⟩

/-- A sum of two or more operands is the normal form of a sum with their terms. -/
theorem exists_normalizeSum (h : AddsLikeTerms fs) (hfs : ∀ f ∈ fs, f.simplifyOnce.IsSettled 0)
    (hlength : 2 ≤ fs.length) :
    ∃ (g : Formula Exact) (ts : List (Monomial Exact)),
      (sum fs).simplifyOnce = g.normalizeSum.value ∧ g.HasTerms ts ∧
      SameTerms ts (fs.flatMap (·.simplifyOnce.terms)) := by
  obtain ⟨fs, f, hne, rfl⟩ := exists_append_singleton_of_length hlength
  obtain ⟨hinit, hf⟩ := List.forall_mem_append.1 hfs
  obtain ⟨hf, -⟩ := (List.forall_mem_singleton.1 hf).hasTerms
  obtain ⟨ts, hts, hsame, -⟩ := exists_hasTerms_sum h.terms hinit
    (fun g hg m hm => List.mem_flatMap.2 ⟨g, List.mem_append_left _ hg, hm⟩) hne
  refine ⟨_, _, ?_, hts.add hf, ?_⟩
  · rw [sum_append_singleton hne, simplifyOnce_add, hts.isUndefined, hf.isUndefined]
    rfl
  · rw [List.flatMap_append]
    exact hsame.append (.of_perm (by simp))

theorem simplifyOnce_sum_eq (h : AddsLikeTerms fs) (hp : fs.Perm gs) :
    (sum fs).simplifyOnce = (sum gs).simplifyOnce := by
  by_cases hundef : ∃ f ∈ fs, f.simplifyOnce.isUndefined
  · obtain ⟨f, hf, hf'⟩ := hundef
    rw [simplifyOnce_sum_of_isUndefined ⟨f, hf, hf'⟩,
      simplifyOnce_sum_of_isUndefined ⟨f, hp.mem_iff.1 hf, hf'⟩]
  · have hfs : ∀ f ∈ fs, f.simplifyOnce.IsSettled 0 := fun f hf =>
      (h.isFixpoint f hf).isSettled (eq_false_of_ne_true fun h => hundef ⟨f, hf, h⟩)
    rcases Nat.lt_or_ge fs.length 2 with hlt | hlength
    · rw [eq_of_perm_of_length_le_one hp.symm (Nat.le_of_lt_succ hlt)]
    · obtain ⟨f, ts, hf, hts, hsame⟩ := h.exists_normalizeSum hfs hlength
      obtain ⟨g, us, hg, hus, hsame'⟩ := (h.perm hp).exists_normalizeSum
        (fun g hg => hfs g (hp.mem_iff.2 hg)) (hp.length_eq ▸ hlength)
      rw [hf, hg]
      exact normalizeSum_congr hts hus
        ((hsame.trans (.of_perm (hp.flatMap_right _))).trans hsame'.symm)

/-- The order of operands whose terms only add up does not matter. -/
theorem simplify_sum_eq (h : AddsLikeTerms fs) (hp : fs.Perm gs) :
    (sum fs).simplify = (sum gs).simplify :=
  simplify_eq_of_simplifyOnce_eq (h.simplifyOnce_sum_eq hp)

end AddsLikeTerms

end Formula
end SymCalc
