import SymCalc.Proofs.Simplify.Merging

/-!
# Reduced products

* `Formula.isFactor`: whether a formula is one factor of a product;
* `Monomial.IsReduced`: whether no rule applies to a product of factors.

The formula for a monomial is read as this monomial (`Monomial.of?_toFormula`). The normal form of a
product is the formula for its monomial, in order, if this is reduced
(`Formula.normalizeProduct_of_isReduced`), and otherwise it is lighter than the product
(`Formula.normalizeProduct_isReduced_or_lighter`).
-/

namespace SymCalc

open Scalar

namespace Formula

variable {α : Type} {f g : Formula α} {fs : List (Formula α)} {below b : Bool}

/-- Whether the formula stands in a product as one factor: it is no constant, negation, product or
quotient. -/
def isFactor : Formula α → Bool
  | const _ | unary .negate _ | binary .mul _ _ | binary .div _ _ => false
  | _ => true

theorem pieces_of_isFactor (h : f.isFactor) (below : Bool) : f.pieces below = [.factor f below] := by
  cases f with
  | const v => cases h
  | var x => rfl
  | unary op a => cases op <;> first | rfl | cases h
  | binary op a b => cases op <;> first | rfl | cases h

theorem isFactor_of_mem_pieces (h : .factor g b ∈ f.pieces below) : g.isFactor := by
  induction f generalizing below with
  | const v => simp [pieces] at h
  | var x =>
    obtain ⟨rfl, -⟩ := Piece.factor.inj (List.mem_singleton.1 h)
    rfl
  | unary op a ih =>
    cases op with
    | negate => exact ih (by simpa [pieces] using h)
    | _ =>
      obtain ⟨rfl, -⟩ := Piece.factor.inj (List.mem_singleton.1 h)
      rfl
  | binary op a b iha ihb =>
    cases op with
    | mul | div => exact (List.mem_append.1 h).elim iha ihb
    | add | sub =>
      obtain ⟨rfl, -⟩ := Piece.factor.inj (List.mem_singleton.1 h)
      rfl

theorem two_le_weight_of_isFactor (h : f.isFactor) : 2 ≤ f.weight := by
  cases f with
  | const v => cases h
  | var x => exact Nat.le_refl _
  | unary op a => cases op <;> simp_all [isFactor, weight]
  | binary op a b =>
    have ha := weight_pos a
    have hb := weight_pos b
    rw [weight_binary]
    omega

theorem pieces_foldl (h : ∀ g ∈ fs, g.isFactor) :
    (fs.foldl (binary .mul) f).pieces below = f.pieces below ++ fs.map (.factor · below) := by
  induction fs generalizing f with
  | nil => simp
  | cons g fs ih =>
    obtain ⟨hg, hfs⟩ := List.forall_mem_cons.1 h
    simp [ih hfs, pieces, pieces_of_isFactor hg]

variable [Scalar α]

theorem pieces_product (hne : fs ≠ []) (h : ∀ g ∈ fs, g.isFactor) :
    (product fs).pieces below = fs.map (.factor · below) := by
  cases fs with
  | nil => exact absurd rfl hne
  | cons f fs =>
    obtain ⟨hf, hfs⟩ := List.forall_mem_cons.1 h
    exact (pieces_foldl hfs).trans (by rw [pieces_of_isFactor hf, List.map_cons, List.singleton_append])

end Formula

open Formula

namespace Monomial

variable {α : Type} [Scalar α]

theorem isFactor_of_of? {m : Monomial α} {f : Formula α} (h : of? f = some m) :
    ∀ g ∈ m.numer ++ m.denom, g.isFactor := by
  obtain ⟨-, -, rfl⟩ := eq_of_ofPieces? h
  rw [List.forall_mem_append]
  constructor <;>
  · intro g hg
    obtain ⟨p, hp, hpg⟩ := List.mem_filterMap.1 hg
    exact isFactor_of_mem_pieces (Piece.factor?_eq_some.1 hpg ▸ hp)

/-- Whether no rule for products applies, except for the order of the factors. -/
structure IsReduced (m : Monomial α) : Prop where
  isFinite : isFinite m.coeff
  ne_zero : (m.coeff == 0) = false
  isFactor : ∀ f ∈ m.numer ++ m.denom, f.isFactor
  isMerged : m.IsMerged

/-- The pieces that the coefficient of a formula comes from. -/
def coeffPieces (m : Monomial α) : List (Piece α) :=
  if m.showsCoeff then [.const m.coeff false] else if m.coeff == 1 then [] else [.negation]

variable {m : Monomial α}

theorem IsReduced.isProper (h : m.IsReduced) : IsProper m.coeff :=
  isProper_of_ne_zero h.isFinite h.ne_zero

theorem pieces_numerator (hc : IsProper m.coeff) (hf : ∀ f ∈ m.numer, f.isFactor) :
    m.numerator.pieces false = m.coeffPieces ++ m.numer.map (.factor · false) := by
  unfold numerator coeffPieces showsCoeff
  split
  · next h => simp [h, ofValue_of_isProper hc, pieces]
  · next hne =>
    have hproduct : (product m.numer).pieces false = _ := pieces_product hne hf
    rw [List.isEmpty_eq_false_iff.2 hne, Bool.false_or]
    cases h1 : m.coeff == 1 with
    | true => simp [hproduct]
    | false =>
      cases hneg : m.coeff == -1 with
      | true => simp [neg_eq, pieces, hproduct]
      | false =>
        have hconst : (m.numer.foldl (binary .mul) (ofValue m.coeff)).pieces false = _ :=
          pieces_foldl hf
        rw [ofValue_of_isProper hc] at hconst
        simpa [product, ofValue_of_isProper hc, pieces, mul_eq] using hconst

theorem pieces_toFormula (hc : IsProper m.coeff) (hf : ∀ f ∈ m.numer ++ m.denom, f.isFactor) :
    m.toFormula.pieces false =
      m.coeffPieces ++ m.numer.map (.factor · false) ++ m.denom.map (.factor · true) := by
  obtain ⟨hn, hd⟩ := List.forall_mem_append.1 hf
  unfold toFormula
  split
  · next h => simp [h, pieces_numerator hc hn]
  · next hne => simp [div_eq, pieces, pieces_numerator hc hn, pieces_product hne hd]

theorem foldl_factors (v : α) (fs : List (Formula α)) (below : Bool) :
    (fs.map (Piece.factor · below)).foldl Piece.above v = v ∧
      (fs.map (Piece.factor · below)).foldl Piece.under v = v := by
  induction fs with
  | nil => exact ⟨rfl, rfl⟩
  | cons f fs ih => exact ih

omit [Scalar α] in
theorem filterMap_factors (fs : List (Formula α)) (below b : Bool) :
    (fs.map (Piece.factor · b)).filterMap (·.factor? below) = if b = below then fs else [] := by
  induction fs with
  | nil => simp
  | cons f fs ih =>
    rw [List.map_cons, List.filterMap_cons, ih]
    cases b <;> cases below <;> simp [Piece.factor?]

variable [LawfulScalar α]

theorem foldl_coeffPieces (m : Monomial α) :
    m.coeffPieces.foldl Piece.above 1 = m.coeff ∧ m.coeffPieces.foldl Piece.under 1 = 1 ∧
      ∀ below, m.coeffPieces.filterMap (·.factor? below) = [] := by
  unfold coeffPieces
  cases hs : m.showsCoeff with
  | true => simp [Piece.above, Piece.under, Piece.factor?]
  | false =>
    cases h1 : m.coeff == 1 with
    | true => simp [eq_one_of_beq h1]
    | false =>
      have hneg : m.coeff == -1 := by
        have h : m.numer.isEmpty = false ∧ _ := Bool.or_eq_false_iff.1 hs
        simpa [h1] using h.2
      simp [eq_neg_one_of_beq hneg, Piece.above, Piece.under, Piece.factor?]

/-- The formula for a monomial stands for this monomial. -/
theorem of?_toFormula (hc : IsProper m.coeff) (hf : ∀ f ∈ m.numer ++ m.denom, f.isFactor) :
    of? m.toFormula = some m := by
  obtain ⟨habove, hunder, hnone⟩ := foldl_coeffPieces m
  simp only [of?, ofPieces?, pieces_toFormula hc hf, List.foldl_append, habove, hunder,
    foldl_factors, one_beq_zero, LawfulScalar.div_one, hc.isFinite, List.filterMap_append, hnone,
    filterMap_factors]
  simp

/-! ## The normal form -/

omit [LawfulScalar α] in
theorem showsCoeff_sorted (m : Monomial α) : m.sorted.showsCoeff = m.showsCoeff :=
  congrArg (· || !(m.coeff == 1 || m.coeff == -1)) (sort_perm m.numer).isEmpty_eq

omit [LawfulScalar α] in
theorem factorWeight_sorted (m : Monomial α) : m.sorted.factorWeight = m.factorWeight :=
  congrArg₂ (· + ·) (weightSum_perm (sort_perm _)) (weightSum_perm (sort_perm _))

omit [LawfulScalar α] in
theorem weight_sorted (m : Monomial α) : m.sorted.weight = m.weight := by
  rw [weight, weight, factorWeight_sorted, showsCoeff_sorted]

end Monomial

namespace Formula

variable {α : Type} [Scalar α] {m : Monomial α} {f : Formula α}

/-- The factors of a monomial that no rule applies to are put in order. -/
theorem normalizeProduct_of_isReduced (hm : Monomial.of? f = some m) (h : m.IsReduced) :
    f.normalizeProduct.value = m.sorted.toFormula := by
  rw [normalizeProduct_of_coeff_ne_zero hm h.ne_zero, h.isMerged.stages_eq]

/-- The normal form of a product is lighter than the product, or no rule applies to its monomial and
all its constants are written down. -/
theorem normalizeProduct_isReduced_or_lighter [LawfulScalar α] (hf : 2 ≤ f.weight) :
    (∃ m, Monomial.of? f = some m ∧ m.IsReduced ∧
        (f.pieces false).countP Piece.isConst = m.showsCoeff.toNat ∧
        f.normalizeProduct.value = m.sorted.toFormula) ∨
      f.normalizeProduct.value.weight < f.weight := by
  rcases normalizeProduct_cases f with ⟨-, h⟩ | ⟨m, hm, ⟨-, h⟩ | ⟨h0, -, h⟩⟩
  · right
    rw [h]
    exact hf
  · right
    rw [h]
    exact hf
  · have hfactors := Monomial.factorWeight_of? hm
    have hshows := Monomial.showsCoeff_le_of? hm
    rcases m.isMerged_or_lighter with hmerged | hlt
    · rw [hmerged.stages_eq] at h
      rcases hshows.eq_or_lt with heq | hlt
      · have hfin := (Monomial.eq_of_ofPieces? hm).2.1
        exact .inl ⟨m, hm, ⟨hfin, h0, Monomial.isFactor_of_of? hm, hmerged⟩, heq.symm, h⟩
      · right
        rw [h, Monomial.weight_toFormula, Monomial.weight_sorted, Monomial.weight]
        omega
    · right
      have hle := Monomial.weight_le
        m.cancelFactors.value.tangentQuotients.value.mergeExponentials.value
      rw [h, Monomial.weight_toFormula, Monomial.weight_sorted]
      omega

end Formula
end SymCalc
