import SymCalc.Proofs.Scalar.Double
import SymCalc.Proofs.Simplify.Leaves
import SymCalc.Proofs.Simplify.ReducedProduct

/-!
# Products in normal form

* `Monomial.IsNormal`: whether a monomial is in order, with proper factors, without tangents to be
  formed and with at most one exponential.

The normal form of a product is the formula for such a monomial unless it is undefined or zero
(`Monomial.isNormal_sorted`). No stage of the normalization brings back what an earlier one has
removed: forming tangents adds nothing but tangents, and merging exponentials nothing but one
exponential. The formula for a monomial is read as this monomial, so it is the formula for no other
one.

Factors may still cancel in a normal form, since merging exponentials and forming tangents can make
a factor that stands on the other side already.
-/

namespace SymCalc

open Formula

variable {α : Type} [Scalar α]

/-! ## Forming tangents -/

/-- Whether the formula is the tangent of an argument. -/
def Formula.IsTan (f : Formula α) : Prop := ∃ a, f = unary .tan a

theorem Formula.IsTan.not_isTangent_left {f g : Formula α} (hf : f.IsTan) : ¬f.IsTangent g := by
  obtain ⟨a, rfl⟩ := hf
  rintro (⟨b, ⟨⟩, -⟩ | ⟨b, ⟨⟩, -⟩)

theorem Formula.IsTan.not_isTangent_right {f g : Formula α} (hg : g.IsTan) : ¬f.IsTangent g := by
  obtain ⟨a, rfl⟩ := hg
  rintro (⟨b, -, h⟩ | ⟨b, -, h⟩) <;> simp [isFunctionOf] at h

section
variable {numer denom tangents : List (Formula α)}

/-- Nothing but tangents is added when sines and cosines are combined. -/
theorem mem_combineTangents (ht : ∀ f ∈ tangents, f.IsTan) :
    (∀ f ∈ (combineTangents numer denom tangents).value.1, f ∈ numer ∨ f.IsTan) ∧
      ∀ f ∈ (combineTangents numer denom tangents).value.2, f ∈ denom ∨ f.IsTan := by
  fun_induction combineTangents numer denom tangents with
  | case1 => exact ⟨fun f hf => .inr (ht f hf), fun f hf => .inl hf⟩
  | case2 a numer denom tangents rest hrest ih =>
    obtain ⟨hn, hd⟩ := ih (List.forall_mem_append.2 ⟨ht, List.forall_mem_singleton.2 ⟨a, rfl⟩⟩)
    refine ⟨fun f hf => (hn f hf).imp_left (List.mem_cons_of_mem _), fun f hf => ?_⟩
    exact (hd f hf).imp_left (sublist_of_eraseFirst? hrest).mem
  | case4 a numer denom tangents rest hrest ih =>
    obtain ⟨hn, hd⟩ := ih ht
    refine ⟨fun f hf => (hn f hf).imp_left (List.mem_cons_of_mem _), fun f hf => ?_⟩
    rcases hd f hf with hf | hf
    · rcases List.mem_append.1 hf with hf | hf
      · exact .inl ((sublist_of_eraseFirst? hrest).mem hf)
      · exact .inr ⟨a, List.mem_singleton.1 hf⟩
    · exact .inr hf
  | case3 _ _ _ _ _ ih | case5 _ _ _ _ _ ih | case6 _ _ _ _ _ _ ih =>
    obtain ⟨hn, hd⟩ := ih ht
    refine ⟨List.forall_mem_cons.2 ⟨.inl List.mem_cons_self, fun f hf => ?_⟩, hd⟩
    exact (hn f hf).imp_left (List.mem_cons_of_mem _)

theorem HasNoTangent.cons_combineTangents {f : Formula α} (ht : ∀ f ∈ tangents, f.IsTan)
    (hf : ∀ g ∈ denom, ¬f.IsTangent g)
    (h : HasNoTangent (combineTangents numer denom tangents).value.1
      (combineTangents numer denom tangents).value.2) :
    HasNoTangent (f :: (combineTangents numer denom tangents).value.1)
      (combineTangents numer denom tangents).value.2 :=
  List.forall_mem_cons.2 ⟨fun g hg => ((mem_combineTangents ht).2 g hg).elim (hf g)
    IsTan.not_isTangent_right, h⟩

/-- No tangent is left to be formed, since a sine or cosine that stays behind found nothing in the
denominator, which only gets tangents afterwards. -/
theorem hasNoTangent_combineTangents (ht : ∀ f ∈ tangents, f.IsTan) :
    HasNoTangent (combineTangents numer denom tangents).value.1
      (combineTangents numer denom tangents).value.2 := by
  fun_induction combineTangents numer denom tangents with
  | case1 => exact fun f hf _ _ => (ht f hf).not_isTangent_left
  | case2 a numer denom tangents rest hrest ih =>
    exact ih (List.forall_mem_append.2 ⟨ht, List.forall_mem_singleton.2 ⟨a, rfl⟩⟩)
  | case4 a numer denom tangents rest hrest ih => exact ih ht
  | case3 a numer denom tangents hrest ih =>
    refine (ih ht).cons_combineTangents ht ?_
    rintro g hg (⟨b, ⟨⟩, hb⟩ | ⟨b, ⟨⟩, -⟩)
    exact ne_true_of_eq_false (eraseFirst?_eq_none.1 hrest g hg) hb
  | case5 a numer denom tangents hrest ih =>
    refine (ih ht).cons_combineTangents ht ?_
    rintro g hg (⟨b, ⟨⟩, -⟩ | ⟨b, ⟨⟩, hb⟩)
    exact ne_true_of_eq_false (eraseFirst?_eq_none.1 hrest g hg) hb
  | case6 f numer denom tangents hsin hcos ih =>
    refine (ih ht).cons_combineTangents ht ?_
    rintro g - (⟨b, hb, -⟩ | ⟨b, hb, -⟩)
    · exact hsin b hb
    · exact hcos b hb

end

/-! ## Normal monomials -/

namespace Monomial

/-- Whether the monomial is one that products are brought into: a finite coefficient other than
zero, factors in order that are no constants, negations, products or quotients, no sine over a
cosine of the same argument or the other way round, and at most one exponential. -/
structure IsNormal (m : Monomial α) : Prop where
  isFinite : Scalar.isFinite m.coeff
  ne_zero : (m.coeff == 0) = false
  numer : IsSorted m.numer
  denom : IsSorted m.denom
  isFactor : ∀ f ∈ m.numer ++ m.denom, f.isFactor
  tangents : HasNoTangent m.numer m.denom
  exponents : m.exponents.length ≤ 1

variable {m n : Monomial α} {f : Formula α}

omit [Scalar α] in
theorem filterMap_withoutExponentials (fs : List (Formula α)) :
    (withoutExponentials fs).filterMap exponent? = [] := by
  refine List.filterMap_eq_nil_iff.2 fun f hf => ?_
  exact Option.isNone_iff_eq_none.1 (List.mem_filter.1 hf).2

theorem mem_tangentQuotients (m : Monomial α) :
    (∀ f ∈ m.tangentQuotients.value.numer, f ∈ m.numer ∨ f.IsTan) ∧
      ∀ f ∈ m.tangentQuotients.value.denom, f ∈ m.denom ∨ f.IsTan :=
  mem_combineTangents (List.forall_mem_nil _)

theorem hasNoTangent_tangentQuotients (m : Monomial α) :
    HasNoTangent m.tangentQuotients.value.numer m.tangentQuotients.value.denom :=
  hasNoTangent_combineTangents (List.forall_mem_nil _)

theorem mem_mergeExponentials (m : Monomial α) :
    (∀ f ∈ m.mergeExponentials.value.numer, f ∈ m.numer ∨ ∃ a, f = .unary .exp a) ∧
      ∀ f ∈ m.mergeExponentials.value.denom, f ∈ m.denom := by
  rw [value_mergeExponentials]
  split
  · exact ⟨fun f hf => .inl hf, fun f hf => hf⟩
  · refine ⟨fun f hf => ?_, fun f hf => List.mem_of_mem_filter hf⟩
    rcases List.mem_append.1 hf with hf | hf
    · exact .inl (List.mem_of_mem_filter hf)
    · exact .inr ⟨_, List.mem_singleton.1 hf⟩

theorem length_exponents_mergeExponentials (m : Monomial α) :
    m.mergeExponentials.value.exponents.length ≤ 1 := by
  rw [value_mergeExponentials]
  split
  · next h =>
    rw [exponents, List.length_append]
    omega
  · simp [exponents, filterMap_withoutExponentials, exponent?]

/-- The factors that are left once cancelling and merging are over are factors of the product, or
functions. -/
theorem isFactor_mergeExponentials (hf : ∀ f ∈ m.numer ++ m.denom, f.isFactor) :
    ∀ f ∈ m.cancelFactors.value.tangentQuotients.value.mergeExponentials.value.numer ++
      m.cancelFactors.value.tangentQuotients.value.mergeExponentials.value.denom, f.isFactor := by
  obtain ⟨hn, hd⟩ := List.forall_mem_append.1 hf
  obtain ⟨hn', hd'⟩ := mem_mergeExponentials m.cancelFactors.value.tangentQuotients.value
  obtain ⟨htn, htd⟩ := m.cancelFactors.value.mem_tangentQuotients
  have htan {f : Formula α} : f.IsTan → f.isFactor := by
    rintro ⟨a, rfl⟩
    rfl
  obtain ⟨hcn, hcd⟩ := sublist_cancel m.numer m.denom
  refine List.forall_mem_append.2 ⟨fun f hf => ?_, fun f hf => ?_⟩
  · rcases hn' f hf with hf | ⟨a, rfl⟩
    · exact (htn f hf).elim (fun hf => hn f (hcn.mem hf)) htan
    · rfl
  · exact (htd f (hd' f hf)).elim (fun hf => hd f (hcd.mem hf)) htan

theorem hasNoTangent_mergeExponentials (h : HasNoTangent m.numer m.denom) :
    HasNoTangent m.mergeExponentials.value.numer m.mergeExponentials.value.denom := by
  obtain ⟨hn, hd⟩ := mem_mergeExponentials m
  intro f hf g hg
  rcases hn f hf with hf | ⟨a, rfl⟩
  · exact h f hf g (hd g hg)
  · rintro (⟨b, ⟨⟩, -⟩ | ⟨b, ⟨⟩, -⟩)

variable [LawfulScalar α]

/-- What is left once cancelling and merging are over is in normal form when it is in order. -/
theorem isNormal_sorted (h0 : (m.coeff == 0) = false) (hm : of? f = some m) :
    m.cancelFactors.value.tangentQuotients.value.mergeExponentials.value.sorted.IsNormal := by
  have hcoeff : m.cancelFactors.value.tangentQuotients.value.mergeExponentials.value.coeff =
      m.coeff := coeff_mergeExponentials _
  obtain ⟨hn, hd⟩ := List.forall_mem_append.1 (isFactor_mergeExponentials (isFactor_of_of? hm))
  have htangent := hasNoTangent_mergeExponentials
    m.cancelFactors.value.hasNoTangent_tangentQuotients
  have hlength := length_exponents_mergeExponentials m.cancelFactors.value.tangentQuotients.value
  generalize m.cancelFactors.value.tangentQuotients.value.mergeExponentials.value = n at *
  exact {
    isFinite := hcoeff ▸ (eq_of_ofPieces? hm).2.1
    ne_zero := hcoeff ▸ h0
    numer := isSorted_sort _
    denom := isSorted_sort _
    isFactor := List.forall_mem_append.2
      ⟨fun f hf => hn f (mem_sort.1 hf), fun f hf => hd f (mem_sort.1 hf)⟩
    tangents := fun f hf g hg => htangent f (mem_sort.1 hf) g (mem_sort.1 hg)
    exponents := by
      have hp := ((sort_perm n.numer).filterMap exponent?).append
        ((sort_perm n.denom).filterMap exponent?)
      exact hp.length_eq.trans_le hlength }

theorem IsNormal.of?_toFormula (h : m.IsNormal) : of? m.toFormula = some m :=
  Monomial.of?_toFormula (Scalar.isProper_of_ne_zero h.isFinite h.ne_zero) h.isFactor

theorem IsNormal.eq_of_toFormula (hm : m.IsNormal) (hn : n.IsNormal)
    (h : m.toFormula = n.toFormula) : m = n :=
  Option.some.inj (hm.of?_toFormula.symm.trans ((congrArg of? h).trans hn.of?_toFormula))

end Monomial

/-! ## Main statement -/

namespace Formula

variable (α) in
/-- The normal form of a product is undefined if its coefficient has no finite value, zero if this
is zero, and otherwise the formula for exactly one normal monomial. The formula for a monomial with
proper factors, in order or not, is read as this monomial. -/
theorem normalizeProduct_normal [LawfulScalar α] :
    (∀ f : Formula α, (Monomial.of? f = none ∧ f.normalizeProduct.value = undefined) ∨
      ∃ m, Monomial.of? f = some m ∧
        ((m.coeff == 0 ∧ f.normalizeProduct.value = const 0) ∨
          ((m.coeff == 0) = false ∧ ∃ n : Monomial α, n.IsNormal ∧ n.coeff = m.coeff ∧
            f.normalizeProduct.value = n.toFormula ∧
            ∀ n' : Monomial α, n'.IsNormal → f.normalizeProduct.value = n'.toFormula → n' = n))) ∧
    ∀ m : Monomial α, Scalar.isFinite m.coeff → (m.coeff == 0) = false →
      (∀ f ∈ m.numer ++ m.denom, f.isFactor) → Monomial.of? m.toFormula = some m := by
  refine ⟨fun f => ?_, fun m hfin h0 => Monomial.of?_toFormula (Scalar.isProper_of_ne_zero hfin h0)⟩
  rcases normalizeProduct_cases f with hnone | ⟨m, hm, hzero | ⟨h0, -, h⟩⟩
  · exact .inl hnone
  · exact .inr ⟨m, hm, .inl hzero⟩
  · have hnormal := Monomial.isNormal_sorted h0 hm
    refine .inr ⟨m, hm, .inr ⟨h0, _, hnormal, Monomial.coeff_mergeExponentials _, h, ?_⟩⟩
    exact fun n' hn' hvalue => hn'.eq_of_toFormula hnormal (hvalue.symm.trans h)

/-- The normal form of `2*sin(x)/cos(x)` is the formula for a normal monomial. The formula for the
monomial `-2*y*x` is read as this monomial, though its factors are not in order. -/
theorem normalizeProduct_normal_sin :
    (∃ n : Monomial Float, n.IsNormal ∧
      (.const 2 * .unary .sin (.var "x") / .unary .cos (.var "x") :
        Formula Float).normalizeProduct.value = n.toFormula) ∧
    Monomial.of? (⟨-2, [.var "y", .var "x"], []⟩ : Monomial Float).toFormula =
      some ⟨-2, [.var "y", .var "x"], []⟩ := by
  obtain ⟨hnormal, hof⟩ := normalizeProduct_normal Float
  have hcoeff : (Monomial.of? (.const 2 * .unary .sin (.var "x") / .unary .cos (.var "x") :
      Formula Float)).any (fun m => !(m.coeff == 0)) := by decide
  constructor
  · rcases hnormal (.const 2 * .unary .sin (.var "x") / .unary .cos (.var "x")) with
      ⟨hnone, -⟩ | ⟨m, hm, ⟨hzero, -⟩ | ⟨-, n, hn, -, hvalue, -⟩⟩
    · rw [hnone] at hcoeff
      cases hcoeff
    · rw [hm, Option.any_some, hzero] at hcoeff
      cases hcoeff
    · exact ⟨n, hn, hvalue⟩
  · exact hof _ (by decide) (by decide) (by simp [isFactor])

end Formula
end SymCalc
