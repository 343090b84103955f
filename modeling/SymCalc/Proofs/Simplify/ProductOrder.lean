import Mathlib
import SymCalc.Proofs.Simplify.Cancelling
import SymCalc.Proofs.Simplify.LikeFactors

/-!
# Products in any order

* `Monomial.excess`: how much more often a factor is in the numerator than in the denominator;
* `Monomial.SameProduct`: whether two products differ at most in the order of factors and in factors
  that cancel;
* `OnlyCancels`: whether no rule but cancelling applies to a product;
* `Formula.CancelsFactors`: the same for operands.

The normal form of such a product is the same product (`OnlyCancels.exists_of?`), so every partial
product of the operands is the product of their monomials (`Formula.exists_of?_product`). Then their
order does not matter (`Formula.CancelsFactors.simplify_product_eq`).
-/

namespace SymCalc

open Scalar Formula

variable {f g : Formula Exact} {m n k : Monomial Exact} {ms ns : List (Monomial Exact)}
  {numer denom : List (Formula Exact)}

/-! ## Cancelling -/

/-- Cancelling keeps the difference of how often a factor is above and below the fraction bar. -/
theorem count_cancel (h : ∀ f ∈ numer, ∀ g ∈ denom, f.isSame g → f = g) (a : Formula Exact) :
    ((cancel numer denom).1.count a : ℤ) - (cancel numer denom).2.count a =
      numer.count a - denom.count a :=
  countP_cancel (· == a) numer denom fun f hf g hg hfg => by rw [h f hf g hg hfg]

/-! ## The same product -/

namespace Monomial

/-- How much more often the factor is in the numerator than in the denominator. -/
noncomputable def excess (m : Monomial Exact) (a : Formula Exact) : ℤ :=
  m.numer.count a - m.denom.count a

theorem excess_eq_of_perm (hn : m.numer.Perm n.numer) (hd : m.denom.Perm n.denom)
    (a : Formula Exact) : m.excess a = n.excess a := by
  rw [excess, excess, hn.count_eq, hd.count_eq]

theorem excess_mul (m n : Monomial Exact) (a : Formula Exact) :
    (m.mul n).excess a = m.excess a + n.excess a := by
  simp only [excess, mul, List.count_append]
  push_cast
  ring

/-- Whether the coefficients are the same, and all factors too, in whatever order they are, once
factors have cancelled. The factors of zero do not matter. -/
def SameProduct (m n : Monomial Exact) : Prop :=
  m.coeff = n.coeff ∧ (m.coeff.toReal ≠ 0 → ∀ a, m.excess a = n.excess a)

namespace SameProduct

theorem refl (m : Monomial Exact) : m.SameProduct m := ⟨rfl, fun _ _ => rfl⟩

theorem symm (h : m.SameProduct n) : n.SameProduct m :=
  ⟨h.1.symm, fun h0 a => (h.2 (h.1 ▸ h0) a).symm⟩

theorem trans (h : m.SameProduct n) (h' : n.SameProduct k) : m.SameProduct k :=
  ⟨h.1.trans h'.1, fun h0 a => (h.2 h0 a).trans (h'.2 (h.1 ▸ h0) a)⟩

theorem mul_right (h : m.SameProduct n) (k : Monomial Exact) :
    (m.mul k).SameProduct (n.mul k) := by
  refine ⟨congrArg (· * k.coeff) h.1, fun h0 a => ?_⟩
  have hcoeff : (m.mul k).coeff.toReal = m.coeff.toReal * k.coeff.toReal := Exact.toReal_mul
  rw [excess_mul, excess_mul, h.2 (left_ne_zero_of_mul (hcoeff ▸ h0))]

/-- Factors that cannot be cancelled are the same. -/
theorem perm (h : m.SameProduct n) (h0 : m.coeff.toReal ≠ 0) (hm : IsUncancelled m.numer m.denom)
    (hn : IsUncancelled n.numer n.denom) : m.numer.Perm n.numer ∧ m.denom.Perm n.denom := by
  have hcount {m : Monomial Exact} (h : IsUncancelled m.numer m.denom) (a : Formula Exact) :
      m.numer.count a = 0 ∨ m.denom.count a = 0 := by
    by_contra hne
    obtain ⟨hnumer, hdenom⟩ := not_or.1 hne
    have hself := h a (List.count_pos_iff.1 (Nat.pos_of_ne_zero hnumer)) a
      (List.count_pos_iff.1 (Nat.pos_of_ne_zero hdenom))
    exact ne_true_of_eq_false hself a.isSame_self
  have heq (a : Formula Exact) :
      m.numer.count a = n.numer.count a ∧ m.denom.count a = n.denom.count a := by
    have hexcess := h.2 h0 a
    rw [excess, excess] at hexcess
    rcases hcount hm a with hm | hm <;> rcases hcount hn a with hn | hn <;> omega
  exact ⟨List.perm_iff_count.2 fun a => (heq a).1, List.perm_iff_count.2 fun a => (heq a).2⟩

end SameProduct

/-- The product of the monomials. -/
noncomputable def prod (ms : List (Monomial Exact)) : Monomial Exact :=
  ⟨.number (ms.map (·.coeff.toReal)).prod, ms.flatMap (·.numer), ms.flatMap (·.denom)⟩

theorem prod_append_singleton (ms : List (Monomial Exact)) (h : Scalar.isNumber m.coeff) :
    prod (ms ++ [m]) = (prod ms).mul m := by
  obtain ⟨x, hx⟩ := Exact.exists_number h
  simp only [prod, mul, hx, List.map_append, List.prod_append, List.flatMap_append,
    List.map_singleton, List.prod_singleton, List.flatMap_singleton]
  rfl

theorem prod_singleton (h : Scalar.isNumber m.coeff) : prod [m] = m := by
  obtain ⟨x, hx⟩ := Exact.exists_number h
  obtain ⟨c, n, d⟩ := m
  cases hx
  simp [prod]

theorem sameProduct_prod (h : ms.Perm ns) : (prod ms).SameProduct (prod ns) :=
  ⟨congrArg Exact.number (h.map _).prod_eq,
    fun _ => excess_eq_of_perm (h.flatMap_right _) (h.flatMap_right _)⟩

/-- Whether all factors are among those of another product, above and below the fraction bar. -/
structure IsWithin (m n : Monomial Exact) : Prop where
  numer : m.numer.Subperm n.numer
  denom : m.denom.Subperm n.denom

namespace IsWithin

theorem refl (m : Monomial Exact) : m.IsWithin m := ⟨.refl _, .refl _⟩

theorem trans (h : m.IsWithin n) (h' : n.IsWithin k) : m.IsWithin k :=
  ⟨h.numer.trans h'.numer, h.denom.trans h'.denom⟩

theorem mul_right (h : m.IsWithin n) (k : Monomial Exact) : (m.mul k).IsWithin (n.mul k) :=
  ⟨h.numer.append (.refl _), h.denom.append (.refl _)⟩

theorem subset (h : m.IsWithin n) : m.numer ++ m.denom ⊆ n.numer ++ n.denom :=
  List.append_subset.2 ⟨List.subset_append_of_subset_left _ h.numer.subset,
    List.subset_append_of_subset_right _ h.denom.subset⟩

theorem exponents_le (h : m.IsWithin n) : m.exponents.length ≤ n.exponents.length := by
  have hle {fs gs : List (Formula Exact)} (h : fs.Subperm gs) :
      (fs.filterMap exponent?).length ≤ (gs.filterMap exponent?).length := by
    obtain ⟨hs, hp, hsub⟩ := h
    exact (hp.filterMap _).length_eq ▸ (hsub.filterMap _).length_le
  rw [exponents, exponents, List.length_append, List.length_append]
  exact Nat.add_le_add (hle h.numer) (hle h.denom)

end IsWithin

theorem isWithin_prod (h : ms.Perm ns) : (prod ms).IsWithin (prod ns) :=
  ⟨(h.flatMap_right _).subperm, (h.flatMap_right _).subperm⟩

/-- Whether all factors are in normal form. -/
def IsSettled (m : Monomial Exact) : Prop := ∀ f ∈ m.numer ++ m.denom, f.IsSettled 0

theorem IsSettled.eq_of_isSame (h : m.IsSettled) : ∀ f ∈ m.numer, ∀ g ∈ m.denom, f.isSame g → f = g :=
  fun f hf g hg => IsPart.eq_of_isSame (.inl (h f (List.mem_append_left _ hf)))
    (.inl (h g (List.mem_append_right _ hg)))

theorem IsSettled.mono (h : n.IsSettled) (hm : m.IsWithin n) : m.IsSettled :=
  fun f hf => h f (hm.subset hf)

theorem IsSettled.prod (h : ∀ m ∈ ms, m.IsSettled) : (Monomial.prod ms).IsSettled := by
  refine List.forall_mem_append.2 ⟨fun f hf => ?_, fun f hf => ?_⟩
  · obtain ⟨m, hm, hf⟩ := List.mem_flatMap.1 hf
    exact h m hm f (List.mem_append_left _ hf)
  · obtain ⟨m, hm, hf⟩ := List.mem_flatMap.1 hf
    exact h m hm f (List.mem_append_right _ hf)

theorem isWithin_cancelFactors (m : Monomial Exact) : m.cancelFactors.value.IsWithin m :=
  have ⟨hn, hd⟩ := sublist_cancel m.numer m.denom
  ⟨hn.subperm, hd.subperm⟩

theorem IsSettled.sameProduct_cancelFactors (h : m.IsSettled) :
    m.cancelFactors.value.SameProduct m :=
  ⟨rfl, fun _ => count_cancel h.eq_of_isSame⟩

theorem isWithin_sorted (m : Monomial Exact) : m.sorted.IsWithin m :=
  ⟨(sort_perm m.numer).subperm, (sort_perm m.denom).subperm⟩

theorem sameProduct_sorted (m : Monomial Exact) : m.sorted.SameProduct m :=
  ⟨rfl, fun _ => excess_eq_of_perm (sort_perm m.numer) (sort_perm m.denom)⟩

theorem isUncancelled_cancelFactors (m : Monomial Exact) :
    IsUncancelled m.cancelFactors.value.numer m.cancelFactors.value.denom :=
  isUncancelled_cancel m.numer m.denom

end Monomial

/-! ## Products in which factors only cancel -/

/-- Whether no rule but cancelling applies to the product. -/
structure OnlyCancels (m : Monomial Exact) : Prop where
  tangents : HasNoTangent m.numer m.denom
  exponents : m.exponents.length < 2

namespace OnlyCancels

theorem of_isWithin (h : OnlyCancels n) (hm : m.IsWithin n) : OnlyCancels m where
  tangents f hf g hg := h.tangents f (hm.numer.subset hf) g (hm.denom.subset hg)
  exponents := hm.exponents_le.trans_lt h.exponents

theorem toReal_coeff_ne_zero (hf : Monomial.of? f = some m) (h0 : (m.coeff == 0) = false) :
    m.coeff.toReal ≠ 0 := by
  obtain ⟨x, hx⟩ := Exact.exists_number (Monomial.eq_of_ofPieces? hf).2.1
  rw [hx] at h0 ⊢
  exact fun hzero => ne_true_of_eq_false h0 (Exact.beq_number.2 hzero)

/-- The normal form of a product that is not zero. -/
theorem value_normalizeProduct (h : OnlyCancels m) (hf : Monomial.of? f = some m)
    (h0 : (m.coeff == 0) = false) :
    f.normalizeProduct.value = m.cancelFactors.value.sorted.toFormula := by
  have hcancel := h.of_isWithin m.isWithin_cancelFactors
  have htangent := (Monomial.tangentQuotients_eq_or_lighter _).resolve_right
    fun h => h.2 hcancel.tangents
  have hexp := (Monomial.mergeExponentials_eq_or_lighter _).resolve_right
    fun h => h.2 hcancel.exponents
  rw [normalizeProduct_of_coeff_ne_zero hf h0, htangent.1, hexp.1]

/-- The normal form depends on the product only, in whatever way its factors are written. -/
theorem normalizeProduct_congr (hm : OnlyCancels m) (hn : OnlyCancels n) (hf : Monomial.of? f = some m)
    (hg : Monomial.of? g = some n) (hsm : m.IsSettled) (hsn : n.IsSettled) (h : m.SameProduct n) :
    f.normalizeProduct.value = g.normalizeProduct.value := by
  cases h0 : m.coeff == 0 with
  | true =>
    rw [normalizeProduct_of_coeff_eq_zero hf h0, normalizeProduct_of_coeff_eq_zero hg (h.1 ▸ h0)]
  | false =>
    have hcancel := hsm.sameProduct_cancelFactors.trans (h.trans hsn.sameProduct_cancelFactors.symm)
    have hne : m.coeff.toReal ≠ 0 := toReal_coeff_ne_zero hf h0
    obtain ⟨hnumer, hdenom⟩ := hcancel.perm hne m.isUncancelled_cancelFactors
      n.isUncancelled_cancelFactors
    rw [hm.value_normalizeProduct hf h0, hn.value_normalizeProduct hg (h.1 ▸ h0),
      Monomial.sorted_eq_of_perm hcancel.1 hnumer hdenom]

/-- The normal form is the same product. -/
theorem exists_of? (h : OnlyCancels m) (hf : Monomial.of? f = some m) (hs : m.IsSettled) :
    ∃ n, Monomial.of? f.normalizeProduct.value = some n ∧ n.SameProduct m ∧ n.IsWithin m := by
  cases h0 : m.coeff == 0 with
  | true =>
    refine ⟨⟨0, [], []⟩, ?_, ⟨(Exact.eq_of_beq h0).symm, fun hne => absurd rfl hne⟩,
      List.nil_subperm, List.nil_subperm⟩
    rw [normalizeProduct_of_coeff_eq_zero hf h0]
    exact Monomial.of?_zero
  | false =>
    have hfin : isFinite m.coeff := (Monomial.eq_of_ofPieces? hf).2.1
    have hwithin := m.cancelFactors.value.isWithin_sorted.trans m.isWithin_cancelFactors
    refine ⟨m.cancelFactors.value.sorted, ?_,
      (Monomial.sameProduct_sorted _).trans hs.sameProduct_cancelFactors, hwithin⟩
    rw [h.value_normalizeProduct hf h0]
    exact Monomial.of?_toFormula (isProper_of_ne_zero hfin h0) fun g hg =>
      Monomial.isFactor_of_of? hf g (hwithin.subset hg)

end OnlyCancels

/-! ## Products of operands -/

namespace Formula

variable {fs gs : List (Formula Exact)}

/-- The monomial that the formula stands for as a product. -/
noncomputable def monomial (f : Formula Exact) : Monomial Exact := (Monomial.of? f).getD ⟨1, [], []⟩

theorem monomial_eq (h : Monomial.of? f = some m) : f.monomial = m := by
  rw [monomial, h, Option.getD_some]

theorem isUndefined_of_of? (h : Monomial.of? f = some m) : f.isUndefined = false := by
  refine eq_false_of_ne_true fun hundef => ?_
  rw [eq_undefined_of_isUndefined hundef, Monomial.of?_undefined] at h
  cases h

/-- The monomial of a settled formula. -/
theorem IsSettled.monomial (h : f.IsSettled 0) :
    Monomial.of? f = some f.monomial ∧ f.monomial.IsSettled := by
  obtain ⟨m, hm⟩ := h.exists_of?
  rw [monomial_eq hm]
  refine ⟨hm, ?_⟩
  obtain ⟨-, -, rfl⟩ := Monomial.eq_of_ofPieces? hm
  have hfactor {below : Bool} {g : Formula Exact}
      (hg : g ∈ (f.pieces false).filterMap (·.factor? below)) : g.IsSettled 0 := by
    obtain ⟨p, hp, hpg⟩ := List.mem_filterMap.1 hg
    exact h.of_mem_pieces (Piece.factor?_eq_some.1 hpg ▸ hp)
  exact List.forall_mem_append.2 ⟨fun g hg => hfactor hg, fun g hg => hfactor hg⟩

theorem simplifyOnce_mul (f g : Formula Exact) : (f * g).simplifyOnce =
    if f.simplifyOnce.isUndefined || g.simplifyOnce.isUndefined then undefined
    else (f.simplifyOnce * g.simplifyOnce).normalizeProduct.value := by
  rw [mul_eq, simplifyOnce_binary]
  rfl

theorem product_append_singleton (hne : fs ≠ []) (f : Formula Exact) :
    product (fs ++ [f]) = product fs * f := by
  cases fs with
  | nil => exact absurd rfl hne
  | cons g fs => rw [List.cons_append, product, List.foldl_append, product]; rfl

theorem simplifyOnce_product_of_isUndefined (h : ∃ f ∈ fs, f.simplifyOnce.isUndefined) :
    (product fs).simplifyOnce = undefined := by
  cases fs with
  | nil => simp at h
  | cons f fs => exact simplifyOnce_foldl_of_isUndefined .mul h

/-- The product of the monomials of the operands. -/
noncomputable def factors (fs : List (Formula Exact)) : Monomial Exact :=
  Monomial.prod (fs.map (·.simplifyOnce.monomial))

theorem isWithin_factors_append (fs gs : List (Formula Exact)) :
    (factors fs).IsWithin (factors (fs ++ gs)) := by
  have hsub {g : Monomial Exact → List (Formula Exact)} :
      ((fs.map (·.simplifyOnce.monomial)).flatMap g).Subperm
        (((fs ++ gs).map (·.simplifyOnce.monomial)).flatMap g) := by
    rw [List.map_append, List.flatMap_append]
    exact (List.sublist_append_left ..).subperm
  exact ⟨hsub, hsub⟩

theorem isSettled_factors (h : ∀ f ∈ fs, f.simplifyOnce.IsSettled 0) : (factors fs).IsSettled :=
  .prod (List.forall_mem_map.2 fun f hf => (h f hf).monomial.2)

/-- One more operand. -/
theorem of?_mul_monomial (hf : f.simplifyOnce.IsSettled 0) (hg : Monomial.of? g = some m)
    (hsame : m.SameProduct (factors fs)) (hwithin : m.IsWithin (factors fs)) :
    ∃ n, Monomial.of? (g * f.simplifyOnce) = some n ∧ n.SameProduct (factors (fs ++ [f])) ∧
      n.IsWithin (factors (fs ++ [f])) := by
  obtain ⟨hm, -⟩ := hf.monomial
  have happend : factors (fs ++ [f]) = (factors fs).mul f.simplifyOnce.monomial := by
    rw [factors, List.map_append]
    exact Monomial.prod_append_singleton _ (Monomial.eq_of_ofPieces? hm).2.1
  rw [happend]
  exact ⟨_, Monomial.of?_mul hg hm, hsame.mul_right _, hwithin.mul_right _⟩

/-- Partial products are the products of the monomials of their operands. -/
theorem exists_of?_product (hfs : ∀ f ∈ fs, f.simplifyOnce.IsSettled 0)
    (h : OnlyCancels (factors fs)) (hne : fs ≠ []) :
    ∃ m, Monomial.of? (product fs).simplifyOnce = some m ∧ m.SameProduct (factors fs) ∧
      m.IsWithin (factors fs) := by
  induction fs using List.reverseRecOn with
  | nil => exact absurd rfl hne
  | append_singleton fs f ih =>
    obtain ⟨hinit, hf⟩ := List.forall_mem_append.1 hfs
    have hf := List.forall_mem_singleton.1 hf
    by_cases hnil : fs = []
    · subst hnil
      obtain ⟨hm, -⟩ := hf.monomial
      have hsingle : factors ([] ++ [f]) = f.simplifyOnce.monomial :=
        Monomial.prod_singleton (Monomial.eq_of_ofPieces? hm).2.1
      rw [hsingle]
      exact ⟨_, hm, .refl _, .refl _⟩
    · obtain ⟨m, hm, hsame, hwithin⟩ := ih hinit (h.of_isWithin (isWithin_factors_append ..)) hnil
      obtain ⟨n, hn, hsame, hwithin⟩ := of?_mul_monomial hf hm hsame hwithin
      obtain ⟨k, hk, hsame', hwithin'⟩ := (h.of_isWithin hwithin).exists_of? hn
        ((isSettled_factors hfs).mono hwithin)
      refine ⟨k, ?_, hsame'.trans hsame, hwithin'.trans hwithin⟩
      rw [product_append_singleton hnil, simplifyOnce_mul, isUndefined_of_of? hm, hf.isUndefined]
      exact hk

/-- Whether one pass brings the operands of a product into normal form, and no rule but cancelling
applies to their product. -/
structure CancelsFactors (fs : List (Formula Exact)) : Prop where
  isFixpoint : ∀ f ∈ fs, f.simplifyOnce.IsFixpoint
  factors : OnlyCancels (factors fs)

namespace CancelsFactors

theorem perm (h : CancelsFactors fs) (hp : fs.Perm gs) : CancelsFactors gs where
  isFixpoint f hf := h.isFixpoint f (hp.mem_iff.2 hf)
  factors := h.factors.of_isWithin (Monomial.isWithin_prod (hp.symm.map _))

/-- A product of two or more operands is the normal form of the product of their monomials. -/
theorem exists_normalizeProduct (h : CancelsFactors fs)
    (hfs : ∀ f ∈ fs, f.simplifyOnce.IsSettled 0) (hlength : 2 ≤ fs.length) :
    ∃ (g : Formula Exact) (m : Monomial Exact),
      (product fs).simplifyOnce = g.normalizeProduct.value ∧ Monomial.of? g = some m ∧
      m.SameProduct (Formula.factors fs) ∧ m.IsWithin (Formula.factors fs) := by
  obtain ⟨fs, f, hne, rfl⟩ := exists_append_singleton_of_length hlength
  obtain ⟨hinit, hf⟩ := List.forall_mem_append.1 hfs
  have hf := List.forall_mem_singleton.1 hf
  obtain ⟨m, hm, hsame, hwithin⟩ :=
    exists_of?_product hinit (h.factors.of_isWithin (isWithin_factors_append ..)) hne
  obtain ⟨n, hn, hsame, hwithin⟩ := of?_mul_monomial hf hm hsame hwithin
  refine ⟨_, n, ?_, hn, hsame, hwithin⟩
  rw [product_append_singleton hne, simplifyOnce_mul, isUndefined_of_of? hm, hf.isUndefined]
  rfl

theorem simplifyOnce_product_eq (h : CancelsFactors fs) (hp : fs.Perm gs) :
    (product fs).simplifyOnce = (product gs).simplifyOnce := by
  by_cases hundef : ∃ f ∈ fs, f.simplifyOnce.isUndefined
  · obtain ⟨f, hf, hf'⟩ := hundef
    rw [simplifyOnce_product_of_isUndefined ⟨f, hf, hf'⟩,
      simplifyOnce_product_of_isUndefined ⟨f, hp.mem_iff.1 hf, hf'⟩]
  · have hfs : ∀ f ∈ fs, f.simplifyOnce.IsSettled 0 := fun f hf =>
      (h.isFixpoint f hf).isSettled (eq_false_of_ne_true fun h => hundef ⟨f, hf, h⟩)
    have hgs : ∀ g ∈ gs, g.simplifyOnce.IsSettled 0 := fun g hg => hfs g (hp.mem_iff.2 hg)
    rcases Nat.lt_or_ge fs.length 2 with hlt | hlength
    · rw [eq_of_perm_of_length_le_one hp.symm (Nat.le_of_lt_succ hlt)]
    · obtain ⟨f, m, hf, hm, hsame, hwithin⟩ := h.exists_normalizeProduct hfs hlength
      obtain ⟨g, n, hg, hn, hsame', hwithin'⟩ := (h.perm hp).exists_normalizeProduct hgs
        (hp.length_eq ▸ hlength)
      rw [hf, hg]
      exact (h.factors.of_isWithin hwithin).normalizeProduct_congr
        ((h.perm hp).factors.of_isWithin hwithin') hm hn ((isSettled_factors hfs).mono hwithin)
        ((isSettled_factors hgs).mono hwithin')
        (hsame.trans ((Monomial.sameProduct_prod (hp.map _)).trans hsame'.symm))

/-- The order of operands whose factors only cancel does not matter. -/
theorem simplify_product_eq (h : CancelsFactors fs) (hp : fs.Perm gs) :
    (product fs).simplify = (product gs).simplify :=
  simplify_eq_of_simplifyOnce_eq (h.simplifyOnce_product_eq hp)

end CancelsFactors

end Formula
end SymCalc
