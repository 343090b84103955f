import Mathlib
import SymCalc.Proofs.Scalar.ExactLaws
import SymCalc.Proofs.Simplify.Merging
import SymCalc.Proofs.Simplify.Sum

/-!
# Like terms

* `coeffAt`: what the coefficients of the terms with given factors add up to;
* `IsCombined`: whether terms are in order, without like terms and without zero;
* `SameTerms`: whether sums of terms differ at most in the order and the grouping of like terms;
* `Formula.HasTerms`: the terms of a sum.

Combining like terms keeps all coefficients (`coeffAt_combineLikeTerms`), and combined terms are
determined by them (`IsCombined.eq_of_coeffAt`). So the normal form of a sum depends on the coefficients
of its terms only, if constants are exact (`Formula.normalizeSum_congr`).
-/

namespace SymCalc

open Scalar Formula

/-- The factors of the numerator and those of the denominator. -/
def Monomial.factors {α : Type} (m : Monomial α) : List (Formula α) × List (Formula α) :=
  (m.numer, m.denom)

variable {m t : Monomial Exact} {ms ns ts us : List (Monomial Exact)}
  {k : List (Formula Exact) × List (Formula Exact)} {f g : Formula Exact}

theorem Monomial.compareFactors_eq_iff {a b : Monomial Exact} :
    a.compareFactors b = .eq ↔ a.factors = b.factors := by
  constructor
  · intro h
    obtain ⟨hn, hd⟩ := Ordering.then_eq_eq.1 h
    exact Prod.ext (eq_of_compareLists hn) (eq_of_compareLists hd)
  · intro h
    obtain ⟨hn, hd⟩ := Prod.mk.inj h
    rw [compareFactors, ← hn, ← hd]
    exact (Std.ReflCmp.compare_self : a.compareFactors a = .eq)

theorem Monomial.compareFactors_congr {a b c : Monomial Exact} (h : b.factors = c.factors) :
    a.compareFactors b = a.compareFactors c := by
  obtain ⟨hn, hd⟩ := Prod.mk.inj h
  rw [compareFactors, compareFactors, hn, hd]

/-! ## Coefficients -/

open Classical in
/-- The sum of the coefficients of the terms with the factors `k`. -/
noncomputable def coeffAt (k : List (Formula Exact) × List (Formula Exact))
    (ms : List (Monomial Exact)) : ℝ :=
  (ms.map fun m => if m.factors = k then m.coeff.toReal else 0).sum

theorem coeffAt_nil : coeffAt k [] = 0 := rfl

open Classical in
theorem coeffAt_cons (k : List (Formula Exact) × List (Formula Exact)) (m : Monomial Exact)
    (ms : List (Monomial Exact)) :
    coeffAt k (m :: ms) = (if m.factors = k then m.coeff.toReal else 0) + coeffAt k ms := by
  rw [coeffAt, List.map_cons, List.sum_cons, coeffAt]

theorem coeffAt_append : coeffAt k (ms ++ ns) = coeffAt k ms + coeffAt k ns := by
  rw [coeffAt, List.map_append, List.sum_append, coeffAt, coeffAt]

theorem coeffAt_perm (h : ms.Perm ns) : coeffAt k ms = coeffAt k ns := (h.map _).sum_eq

theorem coeffAt_eq_zero (h : ∀ m ∈ ms, m.factors = k → m.coeff.toReal = 0) : coeffAt k ms = 0 := by
  refine List.sum_eq_zero fun x hx => ?_
  obtain ⟨m, hm, rfl⟩ := List.mem_map.1 hx
  split
  · next hk => exact h m hm hk
  · rfl

/-- Coefficients can be split in two by any condition. -/
theorem coeffAt_filter (ms : List (Monomial Exact)) (p : Monomial Exact → Bool) :
    coeffAt k (ms.filter p) + coeffAt k (ms.filter (!p ·)) = coeffAt k ms := by
  rw [← coeffAt_append]
  exact coeffAt_perm (List.filter_append_perm p ms)

theorem Exact.toReal_add {v w : Exact} (hv : Scalar.isNumber v) (hw : Scalar.isNumber w) :
    (v + w).toReal = v.toReal + w.toReal := by
  obtain ⟨x, rfl⟩ := exists_number hv
  obtain ⟨y, rfl⟩ := exists_number hw
  rfl

theorem Exact.isNumber_add {v w : Exact} (hv : Scalar.isNumber v) (hw : Scalar.isNumber w) :
    Scalar.isNumber (v + w) := by
  obtain ⟨x, rfl⟩ := exists_number hv
  obtain ⟨y, rfl⟩ := exists_number hw
  rfl

theorem Exact.eq_of_toReal {v w : Exact} (hv : Scalar.isNumber v) (hw : Scalar.isNumber w)
    (h : v.toReal = w.toReal) : v = w := by
  obtain ⟨x, rfl⟩ := exists_number hv
  obtain ⟨y, rfl⟩ := exists_number hw
  exact congrArg number h

/-! ## Adding like terms -/

/-- Whether all coefficients are numbers. -/
def HaveNumbers (ms : List (Monomial Exact)) : Prop := ∀ m ∈ ms, Scalar.isNumber m.coeff

theorem mem_addLikeTerms (h : HaveNumbers (t :: ts)) (hm : m ∈ (addLikeTerms t ts).value) :
    Scalar.isNumber m.coeff ∧ ∃ u ∈ t :: ts, u.factors = m.factors := by
  fun_induction addLikeTerms t ts with
  | case1 t =>
    rw [List.mem_singleton.1 hm]
    exact ⟨h t List.mem_cons_self, t, List.mem_cons_self, rfl⟩
  | case2 t u ts _ ih =>
    obtain ⟨ht, hu, hts⟩ : _ ∧ _ ∧ HaveNumbers ts := by
      simpa [HaveNumbers] using h
    obtain ⟨hnum, v, hv, hfactors⟩ := ih (List.forall_mem_cons.2 ⟨Exact.isNumber_add ht hu, hts⟩) hm
    refine ⟨hnum, ?_⟩
    rcases List.mem_cons.1 hv with rfl | hv
    · exact ⟨t, List.mem_cons_self, hfactors⟩
    · exact ⟨v, List.mem_cons_of_mem _ (List.mem_cons_of_mem _ hv), hfactors⟩
  | case3 t u ts _ ih =>
    rcases List.mem_cons.1 hm with rfl | hm
    · exact ⟨h _ List.mem_cons_self, _, List.mem_cons_self, rfl⟩
    · obtain ⟨hnum, v, hv, hfactors⟩ := ih (List.forall_mem_cons.1 h).2 hm
      exact ⟨hnum, v, List.mem_cons_of_mem _ hv, hfactors⟩

/-- Like terms of a sum in order become one. -/
theorem pairwise_addLikeTerms (h : HaveNumbers (t :: ts))
    (hsorted : (t :: ts).Pairwise fun a b => (a.compareFactors b).isLE) :
    (addLikeTerms t ts).value.Pairwise fun a b => a.compareFactors b = .lt := by
  fun_induction addLikeTerms t ts with
  | case1 t => exact List.pairwise_singleton ..
  | case2 t u ts _ ih =>
    obtain ⟨ht, hu, hts⟩ : _ ∧ _ ∧ HaveNumbers ts := by
      simpa [HaveNumbers] using h
    obtain ⟨hle, hsorted⟩ := List.pairwise_cons.1 hsorted
    exact ih (List.forall_mem_cons.2 ⟨Exact.isNumber_add ht hu, hts⟩)
      (List.pairwise_cons.2 ⟨(List.forall_mem_cons.1 hle).2, (List.pairwise_cons.1 hsorted).2⟩)
  | case3 t u ts hne ih =>
    have hts := (List.forall_mem_cons.1 h).2
    refine List.pairwise_cons.2 ⟨fun m hm => ?_, ih hts hsorted.tail⟩
    obtain ⟨-, v, hv, hfactors⟩ := mem_addLikeTerms hts hm
    rw [← Monomial.compareFactors_congr hfactors]
    exact compareFactors_lt_of_sorted hsorted hne v hv

theorem coeffAt_addLikeTerms (h : HaveNumbers (t :: ts)) :
    coeffAt k (addLikeTerms t ts).value = coeffAt k (t :: ts) := by
  fun_induction addLikeTerms t ts with
  | case1 t => rfl
  | case2 t u ts heq ih =>
    obtain ⟨ht, hu, hts⟩ : _ ∧ _ ∧ HaveNumbers ts := by
      simpa [HaveNumbers] using h
    have hfactors : t.factors = u.factors := Monomial.compareFactors_eq_iff.1 (eq_of_beq heq)
    refine (ih (List.forall_mem_cons.2 ⟨Exact.isNumber_add ht hu, hts⟩)).trans ?_
    rw [coeffAt_cons, coeffAt_cons, coeffAt_cons, Exact.toReal_add ht hu, ← hfactors, ← add_assoc]
    by_cases hk : t.factors = k
    · have hsum : ({ t with coeff := t.coeff + u.coeff } : Monomial Exact).factors = k := hk
      rw [if_pos hk, if_pos hk, if_pos hsum]
    · have hsum : ({ t with coeff := t.coeff + u.coeff } : Monomial Exact).factors ≠ k := hk
      rw [if_neg hk, if_neg hk, if_neg hsum, add_zero]
  | case3 t u ts _ ih =>
    simp only [Traced.value_bind, Traced.value_pure]
    rw [coeffAt_cons, ih (List.forall_mem_cons.1 h).2, ← coeffAt_cons]

/-- Whether terms are in order, no two of them have the same factors and none is zero. -/
structure IsCombined (ts : List (Monomial Exact)) : Prop where
  sorted : ts.Pairwise fun a b => a.compareFactors b = .lt
  isNumber : HaveNumbers ts
  ne_zero : ∀ m ∈ ts, m.coeff.toReal ≠ 0

theorem isCombined_combineLikeTerms (h : HaveNumbers ms) :
    IsCombined (combineLikeTerms ms).value ∧
      ∀ m ∈ (combineLikeTerms ms).value, ∃ u ∈ ms, u.factors = m.factors := by
  have hp := List.mergeSort_perm ms fun a b => (a.compareFactors b).isLE
  have hsorted := pairwise_mergeSort_isLE Monomial.compareFactors ms
  unfold combineLikeTerms
  split
  · exact ⟨⟨.nil, List.forall_mem_nil _, List.forall_mem_nil _⟩, List.forall_mem_nil _⟩
  · next t ts heq =>
    rw [heq] at hp hsorted
    have hts : HaveNumbers (t :: ts) := fun m hm => h m (hp.mem_iff.1 hm)
    have hmem {m : Monomial Exact}
        (hm : m ∈ ((addLikeTerms t ts).value.filter fun m => !(m.coeff == 0))) :=
      mem_addLikeTerms hts (List.mem_filter.1 hm).1
    refine ⟨⟨(pairwise_addLikeTerms hts hsorted).filter _, fun m hm => (hmem hm).1, ?_⟩, ?_⟩
    · intro m hm h0
      have hzero : m.coeff = 0 := Exact.eq_of_toReal (hmem hm).1 rfl h0
      simpa [hzero] using (List.mem_filter.1 hm).2
    · intro m hm
      obtain ⟨-, u, hu, hfactors⟩ := hmem hm
      exact ⟨u, hp.mem_iff.1 hu, hfactors⟩

theorem coeffAt_combineLikeTerms (h : HaveNumbers ms) :
    coeffAt k (combineLikeTerms ms).value = coeffAt k ms := by
  have hp := List.mergeSort_perm ms fun a b => (a.compareFactors b).isLE
  unfold combineLikeTerms
  split
  · next heq =>
    rw [heq] at hp
    rw [hp.nil_eq]
    rfl
  · next t ts heq =>
    rw [heq] at hp
    have hts : HaveNumbers (t :: ts) := fun m hm => h m (hp.mem_iff.1 hm)
    have hzero : coeffAt k ((addLikeTerms t ts).value.filter fun m => !!(m.coeff == 0)) = 0 :=
      coeffAt_eq_zero fun m hm _ => by
        have hm := (List.mem_filter.1 hm).2
        rw [Bool.not_not] at hm
        rw [Exact.eq_of_beq hm, Exact.toReal_zero]
    have hsplit := coeffAt_filter (k := k) (addLikeTerms t ts).value fun m => !(m.coeff == 0)
    rw [hzero, add_zero, coeffAt_addLikeTerms hts, coeffAt_perm hp] at hsplit
    exact hsplit

/-! ## Combined terms are determined by their coefficients -/

namespace IsCombined

theorem coeffAt_eq (h : IsCombined ts) (hm : m ∈ ts) : coeffAt m.factors ts = m.coeff.toReal := by
  obtain ⟨before, after, rfl⟩ := List.mem_iff_append.1 hm
  have hdistinct := h.sorted
  rw [List.pairwise_append, List.pairwise_cons] at hdistinct
  obtain ⟨-, ⟨hafter, -⟩, hbefore⟩ := hdistinct
  have hne {a b : Monomial Exact} (hlt : a.compareFactors b = .lt) (heq : a.factors = b.factors) :
      False := by
    rw [Monomial.compareFactors_eq_iff.2 heq] at hlt
    cases hlt
  have hb : coeffAt m.factors before = 0 := coeffAt_eq_zero fun a ha heq =>
    (hne (hbefore a ha m List.mem_cons_self) heq).elim
  have ha : coeffAt m.factors after = 0 := coeffAt_eq_zero fun a ha heq =>
    (hne (hafter a ha) heq.symm).elim
  rw [coeffAt_append, coeffAt_cons, if_pos rfl, hb, ha, zero_add, add_zero]

theorem exists_of_coeffAt (h : coeffAt k ts ≠ 0) : ∃ m ∈ ts, m.factors = k := by
  by_contra hnone
  exact h (coeffAt_eq_zero fun m hm hk => (hnone ⟨m, hm, hk⟩).elim)

theorem subset_of_coeffAt (ht : IsCombined ts) (hu : IsCombined us)
    (h : ∀ k, coeffAt k ts = coeffAt k us) : ts ⊆ us := by
  intro m hm
  have hcoeff := (h m.factors).symm.trans (ht.coeffAt_eq hm)
  obtain ⟨u, hmem, hfactors⟩ := exists_of_coeffAt (hcoeff ▸ ht.ne_zero m hm)
  rw [← hfactors, hu.coeffAt_eq hmem] at hcoeff
  have hcoeff := Exact.eq_of_toReal (hu.isNumber u hmem) (ht.isNumber m hm) hcoeff
  obtain ⟨c, n, d⟩ := m
  obtain ⟨c', n', d'⟩ := u
  cases hcoeff
  cases hfactors
  exact hmem

theorem nodup (h : IsCombined ts) : ts.Nodup := by
  refine h.sorted.imp ?_
  rintro a b hlt rfl
  exact Std.OrientedCmp.not_lt_of_lt hlt hlt

theorem eq_of_coeffAt (ht : IsCombined ts) (hu : IsCombined us)
    (h : ∀ k, coeffAt k ts = coeffAt k us) : ts = us := by
  have hsub := ht.subset_of_coeffAt hu h
  have hsup := hu.subset_of_coeffAt ht fun k => (h k).symm
  have hperm := (List.perm_ext_iff_of_nodup ht.nodup hu.nodup).2 fun m => ⟨@hsub m, @hsup m⟩
  refine hperm.eq_of_pairwise (fun a b _ _ hab hba => ?_) ht.sorted hu.sorted
  exact absurd hba (Std.OrientedCmp.not_lt_of_lt hab)

/-- Terms that are combined already stay as they are. -/
theorem combineLikeTerms_eq (h : IsCombined ts) : (combineLikeTerms ts).value = ts :=
  (isCombined_combineLikeTerms h.isNumber).1.eq_of_coeffAt h fun _ =>
    coeffAt_combineLikeTerms h.isNumber

end IsCombined

/-! ## Sums with the same terms -/

/-- Whether the terms have the same coefficients once like terms are added up, in whatever order the
terms and their factors are. -/
def SameTerms (ms ns : List (Monomial Exact)) : Prop :=
  ∀ k, coeffAt k (ms.map Monomial.sorted) = coeffAt k (ns.map Monomial.sorted)

namespace SameTerms

theorem symm (h : SameTerms ms ns) : SameTerms ns ms := fun k => (h k).symm

theorem trans (h : SameTerms ms ns) (h' : SameTerms ns ts) : SameTerms ms ts :=
  fun k => (h k).trans (h' k)

theorem of_perm (h : ms.Perm ns) : SameTerms ms ns := fun _ => coeffAt_perm (h.map _)

theorem append (h : SameTerms ms ns) (h' : SameTerms ts us) : SameTerms (ms ++ ts) (ns ++ us) := by
  intro k
  rw [List.map_append, List.map_append, coeffAt_append, coeffAt_append, h k, h' k]

end SameTerms

theorem Monomial.factors_sorted_eq_nil : m.sorted.factors = ([], []) ↔ m.isConstant := by
  have hnil (fs : List (Formula Exact)) : sort fs = [] ↔ fs = [] := by
    rw [← List.length_eq_zero_iff, (sort_perm fs).length_eq, List.length_eq_zero_iff]
  have hsorted : m.sorted.factors = (sort m.numer, sort m.denom) := rfl
  rw [hsorted, Prod.mk.injEq, hnil, hnil, isConstant, Bool.and_eq_true, List.isEmpty_iff,
    List.isEmpty_iff]

/-- The constants of a sum are its terms without factors. -/
theorem constantPart_eq (h : HaveNumbers ms) :
    constantPart ms = .number (coeffAt ([], []) (ms.map Monomial.sorted)) := by
  have hfold (ms : List (Monomial Exact)) (h : HaveNumbers ms) (x : ℝ) :
      (ms.filter Monomial.isConstant).foldl (fun v m => v + m.coeff) (.number x) =
        .number (x + coeffAt ([], []) (ms.map Monomial.sorted)) := by
    induction ms generalizing x with
    | nil => rw [List.map_nil, coeffAt_nil, add_zero]; rfl
    | cons m ms ih =>
      obtain ⟨hm, hms⟩ := List.forall_mem_cons.1 h
      obtain ⟨y, hy⟩ := Exact.exists_number hm
      rw [List.map_cons, coeffAt_cons, List.filter_cons]
      cases hc : m.isConstant with
      | true =>
        have hcoeff : m.sorted.coeff.toReal = y := congrArg Exact.toReal hy
        rw [if_pos rfl, if_pos (Monomial.factors_sorted_eq_nil.2 hc), List.foldl_cons, hy,
          Exact.add_number, ih hms, hcoeff, add_assoc]
      | false =>
        have hne : m.sorted.factors ≠ ([], []) := fun h =>
          Bool.false_ne_true (hc.symm.trans (Monomial.factors_sorted_eq_nil.1 h))
        rw [if_neg Bool.false_ne_true, if_neg hne, ih hms, zero_add]
  rw [constantPart, Exact.zero_eq, hfold ms h, zero_add]

theorem haveNumbers_sorted (h : HaveNumbers ms) (p : Monomial Exact → Bool) :
    HaveNumbers ((ms.filter p).map Monomial.sorted) := by
  intro m hm
  obtain ⟨u, hu, rfl⟩ := List.mem_map.1 hm
  exact h u (List.mem_filter.1 hu).1

open Classical in
/-- The coefficients of the terms that are no constants. -/
theorem coeffAt_nonconstant (k : List (Formula Exact) × List (Formula Exact)) :
    coeffAt k ((ms.filter (!·.isConstant)).map Monomial.sorted) =
      if k = ([], []) then 0 else coeffAt k (ms.map Monomial.sorted) := by
  have hfactors {p : Monomial Exact → Bool} {m : Monomial Exact}
      (hm : m ∈ (ms.filter p).map Monomial.sorted) : ∃ u, p u ∧ m = u.sorted := by
    obtain ⟨u, hu, rfl⟩ := List.mem_map.1 hm
    exact ⟨u, (List.mem_filter.1 hu).2, rfl⟩
  split
  · next hk =>
    subst hk
    refine coeffAt_eq_zero fun m hm heq => ?_
    obtain ⟨u, hu, rfl⟩ := hfactors hm
    rw [Monomial.factors_sorted_eq_nil.1 heq] at hu
    cases hu
  · next hk =>
    have hconst : coeffAt k ((ms.filter (·.isConstant)).map Monomial.sorted) = 0 := by
      refine coeffAt_eq_zero fun m hm heq => ?_
      obtain ⟨u, hu, rfl⟩ := hfactors hm
      exact (hk (heq ▸ Monomial.factors_sorted_eq_nil.2 hu)).elim
    have hp := (List.filter_append_perm (·.isConstant) ms).map Monomial.sorted
    rw [← coeffAt_perm hp, List.map_append, coeffAt_append, hconst, zero_add]

/-- Sums with the same terms have the same constant, and the same other terms after merging. -/
theorem SameTerms.merged_eq (h : SameTerms ms ns) (hm : HaveNumbers ms) (hn : HaveNumbers ns) :
    constantPart ms = constantPart ns ∧ mergedTerms ms = mergedTerms ns := by
  refine ⟨by rw [constantPart_eq hm, constantPart_eq hn, h], ?_⟩
  have hm := haveNumbers_sorted hm (!·.isConstant)
  have hn := haveNumbers_sorted hn (!·.isConstant)
  have hlike := (isCombined_combineLikeTerms hm).1.eq_of_coeffAt (isCombined_combineLikeTerms hn).1
    fun k => by
      rw [coeffAt_combineLikeTerms hm, coeffAt_combineLikeTerms hn, coeffAt_nonconstant,
        coeffAt_nonconstant, h]
  rw [mergedTerms, mergedTerms, hlike]

/-! ## The normal form of a sum -/

namespace Formula

/-- Whether the terms of the formula, taken as a sum, are these. -/
def HasTerms (f : Formula Exact) (ms : List (Monomial Exact)) : Prop :=
  (f.signedTerms false).mapM Monomial.ofTerm? = some ms

theorem HasTerms.haveNumbers (h : f.HasTerms ms) : HaveNumbers ms := by
  intro m hm
  obtain ⟨t, -, ht⟩ := exists_of_mem_mapM h hm
  exact Monomial.isFinite_of_ofTerm? ht

theorem HasTerms.add (hf : f.HasTerms ms) (hg : g.HasTerms ns) : (f + g).HasTerms (ms ++ ns) := by
  rw [HasTerms, mapM_eq_some_iff] at hf hg ⊢
  exact List.rel_append hf hg

theorem HasTerms.perm (h : f.HasTerms ms) (hp : (f.signedTerms false).Perm (g.signedTerms false)) :
    ∃ ns, g.HasTerms ns ∧ ms.Perm ns := mapM_perm hp h

/-- The normal form of a sum depends on the coefficients of its terms only. -/
theorem normalizeSum_congr (hf : f.HasTerms ms) (hg : g.HasTerms ns) (h : SameTerms ms ns) :
    f.normalizeSum.value = g.normalizeSum.value := by
  obtain ⟨hconstant, hmerged⟩ := h.merged_eq hf.haveNumbers hg.haveNumbers
  rw [normalizeSum_of_mapM hf, normalizeSum_of_mapM hg, hconstant, hmerged]

end Formula
end SymCalc
