import Mathlib
import SymCalc.Proofs.Formula.Meaning
import SymCalc.Proofs.Simplify.Leaves

/-!
# Soundness of the normal form of a product

* `Monomial.HasValue`: the monomial is defined and has the given value.

A product that is defined stands for a monomial with its value (`Monomial.exists_of?`), every stage
keeps the value of a monomial, and so does the formula for it (`Monomial.HasValue.toFormula`).
Combining sines with cosines is the exception, because a tangent is undefined where its cosine
vanishes: `Formula.HasValue.normalizeProduct` is for runs that do not take this step.
-/

namespace SymCalc

variable {ρ : String → ℝ} {x y : ℝ}

/-! ## Pieces -/

namespace Piece

/-- The number that the piece multiplies a product with. -/
noncomputable def valueAt (ρ : String → ℝ) : Piece Exact → ℝ
  | negation => -1
  | const v below => if below then v.toReal⁻¹ else v.toReal
  | factor f below => if below then (f.valueAt ρ)⁻¹ else f.valueAt ρ

/-- Whether the piece is defined, and not zero if it is a divisor. -/
def DefinedAt (ρ : String → ℝ) : Piece Exact → Prop
  | negation => True
  | const v below => Scalar.isNumber v ∧ (below → v.toReal ≠ 0)
  | factor f below => f.DefinedAt ρ ∧ (below → f.valueAt ρ ≠ 0)

end Piece

theorem Formula.prod_pieces (f : Formula Exact) (below : Bool) :
    ((f.pieces below).map (Piece.valueAt ρ)).prod =
      if below then (f.valueAt ρ)⁻¹ else f.valueAt ρ := by
  induction f, below using pieces.induct with
  | case1 a b below iha ihb =>
    rw [pieces, List.map_append, List.prod_append, iha, ihb]
    cases below with
    | false => rfl
    | true => exact (mul_inv ..).symm
  | case2 a b below iha ihb =>
    rw [pieces, List.map_append, List.prod_append, iha, ihb]
    cases below with
    | false => rfl
    | true => exact ((inv_div (a.valueAt ρ) (b.valueAt ρ)).trans (div_eq_inv_mul ..)).symm
  | case3 a below ih =>
    rw [pieces, List.map_cons, List.prod_cons, ih]
    cases below with
    | false => exact neg_one_mul _
    | true => exact (neg_one_mul _).trans inv_neg.symm
  | case4 v below => exact List.prod_singleton
  | case5 f below h1 h2 h3 h4 =>
    rw [pieces.eq_5 f below h1 h2 h3 h4]
    exact List.prod_singleton

theorem Formula.DefinedAt.pieces {f : Formula Exact} {below : Bool} (h : f.DefinedAt ρ)
    (h0 : below → f.valueAt ρ ≠ 0) : ∀ p ∈ f.pieces below, p.DefinedAt ρ := by
  induction f, below using Formula.pieces.induct with
  | case1 a b below iha ihb =>
    obtain ⟨ha, hb, -⟩ := h
    have h0 (hbelow : below) : a.valueAt ρ ≠ 0 ∧ b.valueAt ρ ≠ 0 := mul_ne_zero_iff.1 (h0 hbelow)
    exact List.forall_mem_append.2 ⟨iha ha fun hb => (h0 hb).1, ihb hb fun hb => (h0 hb).2⟩
  | case2 a b below iha ihb =>
    obtain ⟨ha, hb, hb0⟩ := h
    have h0 (hbelow : below) : a.valueAt ρ ≠ 0 := (div_ne_zero_iff.1 (h0 hbelow)).1
    exact List.forall_mem_append.2 ⟨iha ha h0, ihb hb fun _ => hb0⟩
  | case3 a below ih =>
    have h0 (hbelow : below) : a.valueAt ρ ≠ 0 := neg_ne_zero.1 (h0 hbelow)
    exact List.forall_mem_cons.2 ⟨trivial, ih h.1 h0⟩
  | case4 v below => exact List.forall_mem_singleton.2 ⟨h, h0⟩
  | case5 f below h1 h2 h3 h4 =>
    rw [Formula.pieces.eq_5 f below h1 h2 h3 h4]
    exact List.forall_mem_singleton.2 ⟨h, h0⟩

namespace Monomial

/-- The value of the monomial at `ρ`. It means something only if the monomial is defined there. -/
noncomputable def valueAt (ρ : String → ℝ) (m : Monomial Exact) : ℝ :=
  m.coeff.toReal * (m.numer.map (Formula.valueAt ρ)).prod /
    (m.denom.map (Formula.valueAt ρ)).prod

/-- The monomial is defined at `ρ`. -/
structure DefinedAt (ρ : String → ℝ) (m : Monomial Exact) : Prop where
  coeff : Scalar.isNumber m.coeff
  numer : ∀ f ∈ m.numer, f.DefinedAt ρ
  denom : ∀ f ∈ m.denom, f.DefinedAt ρ
  nonzero : ∀ f ∈ m.denom, f.valueAt ρ ≠ 0

/-- The monomial is defined at `ρ` and has the value `x` there. -/
def HasValue (ρ : String → ℝ) (m : Monomial Exact) (x : ℝ) : Prop :=
  m.DefinedAt ρ ∧ m.valueAt ρ = x

theorem DefinedAt.prod_ne_zero {m : Monomial Exact} (h : m.DefinedAt ρ) :
    (m.denom.map (Formula.valueAt ρ)).prod ≠ 0 := by
  apply List.prod_ne_zero
  intro h0
  obtain ⟨f, hf, hf0⟩ := List.mem_map.1 h0
  exact h.nonzero f hf hf0

/-! ## The monomial of a chain -/

/-- The constants and the factors of pieces make up their product. -/
theorem foldl_pieces (ps : List (Piece Exact)) (v w : Exact) :
    (ps.foldl Piece.above v).toReal / (ps.foldl Piece.under w).toReal *
        ((ps.filterMap (·.factor? false)).map (Formula.valueAt ρ)).prod /
        ((ps.filterMap (·.factor? true)).map (Formula.valueAt ρ)).prod =
      v.toReal / w.toReal * (ps.map (Piece.valueAt ρ)).prod := by
  induction ps generalizing v w with
  | nil => simp
  | cons p ps ih =>
    have hcons : ((p :: ps).map (Piece.valueAt ρ)).prod =
        p.valueAt ρ * (ps.map (Piece.valueAt ρ)).prod := List.prod_cons
    rw [hcons]
    cases p with
    | negation =>
      rw [List.filterMap_cons_none rfl, List.filterMap_cons_none rfl]
      refine (ih (-v) w).trans ?_
      rw [Exact.toReal_neg, Piece.valueAt]
      ring
    | const u below =>
      rw [List.filterMap_cons_none rfl, List.filterMap_cons_none rfl]
      cases below with
      | false =>
        refine (ih (v * u) w).trans ?_
        rw [Exact.toReal_mul, Piece.valueAt, if_neg Bool.false_ne_true]
        ring
      | true =>
        refine (ih v (w * u)).trans ?_
        rw [Exact.toReal_mul, Piece.valueAt, if_pos rfl]
        ring
    | factor f below =>
      have ha : (Piece.factor f below :: ps).foldl Piece.above v = ps.foldl Piece.above v := rfl
      have hu : (Piece.factor f below :: ps).foldl Piece.under w = ps.foldl Piece.under w := rfl
      rw [ha, hu]
      cases below with
      | false =>
        have hn : (Piece.factor f false :: ps).filterMap (·.factor? false) =
          f :: ps.filterMap (·.factor? false) := rfl
        rw [hn, List.filterMap_cons_none rfl, List.map_cons, List.prod_cons, Piece.valueAt,
          if_neg Bool.false_ne_true]
        linear_combination f.valueAt ρ * ih v w
      | true =>
        have hd : (Piece.factor f true :: ps).filterMap (·.factor? true) =
          f :: ps.filterMap (·.factor? true) := rfl
        rw [hd, List.filterMap_cons_none rfl, List.map_cons, List.prod_cons, Piece.valueAt,
          if_pos rfl]
        linear_combination (f.valueAt ρ)⁻¹ * ih v w

theorem isNumber_foldl_above {ps : List (Piece Exact)} {v : Exact} (hv : Scalar.isNumber v)
    (h : ∀ p ∈ ps, p.DefinedAt ρ) : Scalar.isNumber (ps.foldl Piece.above v) := by
  induction ps generalizing v with
  | nil => exact hv
  | cons p ps ih =>
    obtain ⟨hp, h⟩ := List.forall_mem_cons.1 h
    refine ih ?_ h
    obtain ⟨x, rfl⟩ := Exact.exists_number hv
    cases p with
    | negation => rfl
    | const u below =>
      obtain ⟨y, rfl⟩ := Exact.exists_number hp.1
      cases below <;> rfl
    | factor f below => rfl

theorem exists_number_foldl_under {ps : List (Piece Exact)} (hx : x ≠ 0)
    (h : ∀ p ∈ ps, p.DefinedAt ρ) : ∃ y, ps.foldl Piece.under (.number x) = .number y ∧ y ≠ 0 := by
  induction ps generalizing x with
  | nil => exact ⟨x, rfl, hx⟩
  | cons p ps ih =>
    obtain ⟨hp, hps⟩ := List.forall_mem_cons.1 h
    cases p with
    | negation => exact ih hx hps
    | const u below =>
      obtain ⟨y, rfl⟩ := Exact.exists_number hp.1
      cases below with
      | false => exact ih hx hps
      | true => exact ih (mul_ne_zero hx (hp.2 rfl)) hps
    | factor f below => exact ih hx hps

/-- A product that is defined stands for a monomial with its value. -/
theorem exists_of? {f : Formula Exact} (h : f.HasValue ρ x) :
    ∃ m, of? f = some m ∧ m.HasValue ρ x := by
  obtain ⟨hf, rfl⟩ := h
  have hps : ∀ p ∈ f.pieces false, p.DefinedAt ρ := hf.pieces fun h => absurd h Bool.false_ne_true
  obtain ⟨y, hy, hy0⟩ := exists_number_foldl_under one_ne_zero hps
  obtain ⟨z, hz⟩ := Exact.exists_number (isNumber_foldl_above (v := 1) rfl hps)
  rw [← Exact.one_eq] at hy
  cases hm : of? f with
  | none =>
    rcases of_ofPieces?_eq_none hm with h | h
    · rw [hy] at h
      exact absurd (Exact.beq_number.1 h) hy0
    · rw [hy, hz, Exact.div_number, Exact.numberIf_pos hy0] at h
      cases h
  | some m =>
    obtain ⟨-, hc, rfl⟩ := eq_of_ofPieces? hm
    have hfactor {below : Bool} {g : Formula Exact}
        (hg : g ∈ (f.pieces false).filterMap (·.factor? below)) :
        g.DefinedAt ρ ∧ (below → g.valueAt ρ ≠ 0) := by
      obtain ⟨p, hp, hpg⟩ := List.mem_filterMap.1 hg
      rw [Piece.factor?_eq_some.1 hpg] at hp
      exact hps _ hp
    refine ⟨_, rfl, ⟨hc, fun g hg => (hfactor hg).1, fun g hg => (hfactor hg).1,
      fun g hg => (hfactor hg).2 rfl⟩, ?_⟩
    rw [valueAt, Exact.toReal_div, foldl_pieces, Formula.prod_pieces]
    simp

/-! ## The chain of a monomial -/

variable {m : Monomial Exact}

@[simp] theorem valueAt_negated : m.negated.valueAt ρ = -m.valueAt ρ := by
  rw [valueAt, valueAt, negated, Exact.toReal_neg]
  ring

theorem HasValue.negated (h : m.HasValue ρ x) : m.negated.HasValue ρ (-x) := by
  obtain ⟨⟨hc, hn, hd, h0⟩, rfl⟩ := h
  obtain ⟨k, hk⟩ := Exact.exists_number hc
  have hc : Scalar.isNumber m.negated.coeff := by
    rw [Monomial.negated, hk]
    rfl
  exact ⟨⟨hc, hn, hd, h0⟩, valueAt_negated⟩

theorem HasValue.sorted (h : m.HasValue ρ x) : m.sorted.HasValue ρ x := by
  obtain ⟨⟨hc, hn, hd, h0⟩, rfl⟩ := h
  have hperm (fs : List (Formula Exact)) : (Formula.sort fs).Perm fs := List.mergeSort_perm ..
  refine ⟨⟨hc, fun f hf => hn f ((hperm _).mem_iff.1 hf), fun f hf => hd f ((hperm _).mem_iff.1 hf),
    fun f hf => h0 f ((hperm _).mem_iff.1 hf)⟩, ?_⟩
  rw [valueAt, Monomial.sorted, ((hperm m.numer).map _).prod_eq, ((hperm m.denom).map _).prod_eq,
    valueAt]

theorem hasValue_numerator (hc : Scalar.isNumber m.coeff) (hn : ∀ f ∈ m.numer, f.DefinedAt ρ) :
    m.numerator.HasValue ρ (m.coeff.toReal * (m.numer.map (Formula.valueAt ρ)).prod) := by
  have hp : (Formula.product m.numer).HasValue ρ (m.numer.map (Formula.valueAt ρ)).prod :=
    ⟨Formula.definedAt_product.2 hn, Formula.valueAt_product⟩
  unfold numerator
  split
  · next h =>
    rw [h, List.map_nil, List.prod_nil, mul_one]
    exact ⟨Formula.definedAt_ofValue.2 hc, Formula.valueAt_ofValue⟩
  · split
    · next h =>
      rw [Exact.toReal_eq_of_beq h, Exact.toReal_one, one_mul]
      exact hp
    · split
      · next h =>
        rw [Exact.toReal_eq_of_beq h, Exact.toReal_neg, Exact.toReal_one, neg_one_mul]
        exact hp.neg
      · refine ⟨Formula.definedAt_product.2 (List.forall_mem_cons.2
          ⟨Formula.definedAt_ofValue.2 hc, hn⟩), ?_⟩
        rw [Formula.valueAt_product, List.map_cons, List.prod_cons, Formula.valueAt_ofValue]

theorem HasValue.toFormula (h : m.HasValue ρ x) : m.toFormula.HasValue ρ x := by
  obtain ⟨hm, rfl⟩ := h
  obtain ⟨hn, hv⟩ := hasValue_numerator hm.coeff hm.numer
  unfold Monomial.toFormula
  split
  · next hd =>
    refine ⟨hn, ?_⟩
    rw [hv, valueAt, hd, List.map_nil, List.prod_nil, div_one]
  · refine ⟨Formula.definedAt_div.2 ⟨hn, Formula.definedAt_product.2 hm.denom, ?_⟩, ?_⟩
    · rw [Formula.valueAt_product]
      exact hm.prod_ne_zero
    · rw [Formula.valueAt_div, hv, Formula.valueAt_product, valueAt]

end Monomial

/-! ## Cancelling -/

theorem prod_cancel {numer denom : List (Formula Exact)} (h0 : ∀ f ∈ denom, f.valueAt ρ ≠ 0) :
    ((cancel numer denom).1.map (Formula.valueAt ρ)).prod /
        ((cancel numer denom).2.map (Formula.valueAt ρ)).prod =
      (numer.map (Formula.valueAt ρ)).prod / (denom.map (Formula.valueAt ρ)).prod := by
  induction numer generalizing denom with
  | nil => rfl
  | cons f numer ih =>
    rw [cancel]
    split
    · next h =>
      obtain ⟨as, g, bs, rfl, hg, rfl⟩ := exists_of_eraseFirst? h
      have hfg : f.valueAt ρ = g.valueAt ρ := Formula.valueAt_eq_of_isSame hg
      have hg0 : g.valueAt ρ ≠ 0 := h0 g (by simp)
      have hrest : ∀ k ∈ as ++ bs, k.valueAt ρ ≠ 0 := fun k hk => h0 k (by simp at hk ⊢; tauto)
      rw [ih hrest]
      simp only [List.map_append, List.map_cons, List.prod_append, List.prod_cons, hfg]
      field_simp
    · change ((f :: (cancel numer denom).1).map (Formula.valueAt ρ)).prod / _ = _
      rw [List.map_cons, List.prod_cons, mul_div_assoc, ih h0, List.map_cons, List.prod_cons,
        mul_div_assoc]

theorem Monomial.HasValue.cancelFactors {m : Monomial Exact} (h : m.HasValue ρ x) :
    m.cancelFactors.value.HasValue ρ x := by
  obtain ⟨⟨hc, hn, hd, h0⟩, rfl⟩ := h
  obtain ⟨hn', hd'⟩ := sublist_cancel m.numer m.denom
  refine ⟨⟨hc, fun f hf => hn f (hn'.mem hf), fun f hf => hd f (hd'.mem hf),
    fun f hf => h0 f (hd'.mem hf)⟩, ?_⟩
  rw [valueAt, valueAt, mul_div_assoc, mul_div_assoc]
  exact congrArg _ (prod_cancel h0)

/-! ## Tangents -/

theorem value_combineTangents {α : Type} [Scalar α] {numer denom tangents : List (Formula α)}
    (h : .tangentQuotient ∉ (combineTangents numer denom tangents).steps) :
    (combineTangents numer denom tangents).value = (numer ++ tangents, denom) := by
  fun_induction combineTangents numer denom tangents with
  | case1 => rfl
  | case2 | case4 => simp at h
  | case3 _ numer denom tangents _ ih | case5 _ numer denom tangents _ ih
  | case6 _ numer denom tangents _ _ ih =>
    have hs : .tangentQuotient ∉ (combineTangents numer denom tangents).steps :=
      fun hmem => h (List.mem_append_left _ hmem)
    exact congrArg (fun p => (_ :: p.1, p.2)) (ih hs)

theorem Monomial.value_tangentQuotients {α : Type} [Scalar α] {m : Monomial α}
    (h : .tangentQuotient ∉ m.tangentQuotients.steps) : m.tangentQuotients.value = m := by
  have hs : .tangentQuotient ∉ (combineTangents m.numer m.denom []).steps :=
    fun hmem => h (List.mem_append_left _ hmem)
  have hv := value_combineTangents hs
  rw [List.append_nil] at hv
  exact congrArg (fun p => { m with numer := p.1, denom := p.2 }) hv

/-! ## Exponentials -/

namespace Formula

theorem eq_of_exponent? {α : Type} {f a : Formula α} (h : f.exponent? = some a) :
    f = unary .exp a := by
  unfold exponent? at h
  split at h
  · cases h
    rfl
  · cases h

/-- Exponentials can be collected from a product. -/
theorem prod_eq_exp_mul (fs : List (Formula Exact)) :
    (fs.map (valueAt ρ)).prod = Real.exp ((fs.filterMap exponent?).map (valueAt ρ)).sum *
      ((withoutExponentials fs).map (valueAt ρ)).prod := by
  induction fs with
  | nil => simp [withoutExponentials]
  | cons f fs ih =>
    cases hf : f.exponent? with
    | none =>
      rw [List.filterMap_cons_none hf, withoutExponentials, List.filter_cons_of_pos (by simp [hf]),
        List.map_cons, List.prod_cons, ih, List.map_cons, List.prod_cons, withoutExponentials]
      ring
    | some a =>
      rw [List.filterMap_cons_some hf, withoutExponentials, List.filter_cons_of_neg (by simp [hf]),
        List.map_cons, List.prod_cons, ih, List.map_cons, List.sum_cons, Real.exp_add,
        eq_of_exponent? hf, withoutExponentials, mul_assoc]
      rfl

theorem hasValue_mergedExponent {added subtracted : List (Formula Exact)}
    (ha : ∀ f ∈ added, f.DefinedAt ρ) (hs : ∀ f ∈ subtracted, f.DefinedAt ρ) :
    (mergedExponent added subtracted).HasValue ρ
      ((added.map (valueAt ρ)).sum - (subtracted.map (valueAt ρ)).sum) := by
  unfold mergedExponent
  split
  · refine ⟨definedAt_neg.2 (definedAt_sum.2 hs), ?_⟩
    rw [valueAt_neg, valueAt_sum, List.map_nil, List.sum_nil, zero_sub]
  · refine ⟨?_, ?_⟩
    · exact (definedAt_foldl .sub fun _ _ => trivial).2 ⟨definedAt_sum.2 ha, hs⟩
    · rw [valueAt_foldl_sub, valueAt_sum]

theorem definedAt_exponents {fs : List (Formula Exact)} (h : ∀ f ∈ fs, f.DefinedAt ρ) :
    ∀ a ∈ fs.filterMap exponent?, a.DefinedAt ρ := by
  intro a ha
  obtain ⟨f, hf, hfa⟩ := List.mem_filterMap.1 ha
  have hd := h f hf
  rw [eq_of_exponent? hfa] at hd
  exact hd.1

end Formula

theorem Monomial.HasValue.mergeExponentials {m : Monomial Exact} (h : m.HasValue ρ x) :
    m.mergeExponentials.value.HasValue ρ x := by
  rw [value_mergeExponentials]
  split
  · exact h
  · obtain ⟨⟨hc, hn, hd, h0⟩, rfl⟩ := h
    have he := Formula.hasValue_mergedExponent (Formula.definedAt_exponents hn)
      (Formula.definedAt_exponents hd)
    refine ⟨⟨hc, ?_, fun f hf => hd f (List.mem_of_mem_filter hf),
      fun f hf => h0 f (List.mem_of_mem_filter hf)⟩, ?_⟩
    · exact List.forall_mem_append.2 ⟨fun f hf => hn f (List.mem_of_mem_filter hf),
        List.forall_mem_singleton.2 ⟨he.1, trivial⟩⟩
    · have hexp (f : Formula Exact) : (Formula.unary .exp f).valueAt ρ = Real.exp (f.valueAt ρ) :=
        rfl
      rw [valueAt, valueAt, List.map_append, List.prod_append, List.map_singleton,
        List.prod_singleton, hexp, he.2, Real.exp_sub, Formula.prod_eq_exp_mul m.numer,
        Formula.prod_eq_exp_mul m.denom]
      ring

/-! ## The normal form -/

theorem Monomial.HasValue.eq_zero {m : Monomial Exact} (h : m.HasValue ρ x) (h0 : m.coeff == 0) : x = 0 := by
  rw [← h.2, valueAt, Exact.toReal_eq_of_beq h0, Exact.toReal_zero, zero_mul, zero_div]

theorem Formula.HasValue.normalizeProduct {f : Formula Exact} (h : f.HasValue ρ x)
    (hs : .tangentQuotient ∉ f.normalizeProduct.steps) : f.normalizeProduct.value.HasValue ρ x := by
  obtain ⟨m, hm, hv⟩ := Monomial.exists_of? h
  rcases normalizeProduct_cases f with ⟨hnone, -⟩ | ⟨n, hn, hcase⟩
  · cases hm.symm.trans hnone
  · cases hm.symm.trans hn
    rcases hcase with ⟨h0, hr⟩ | ⟨-, hsub, hr⟩
    · rw [hr, hv.eq_zero h0]
      exact hasValue_number 0
    · rw [hr, Monomial.value_tangentQuotients fun hmem => hs (hsub hmem)]
      exact hv.cancelFactors.mergeExponentials.sorted.toFormula

end SymCalc
