import SymCalc.Proofs.Simplify.OperandOrder
import SymCalc.Proofs.Simplify.Soundness

/-!
# Where simplification loses definedness

* `Formula.cotangents`: the arguments of the tangents that a quotient is divided by;
* `Formula.LosesTangent`: a pass makes a tangent, and divides by one that does not exist.

A cosine over a sine becomes the reciprocal of a tangent, which does not exist where the cosine is
zero. A sine over a cosine becomes a tangent, and no other rewrite needs more than what it starts
from. So a pass keeps the value of a formula unless some part of it is then divided by a tangent that
does not exist (`Formula.HasValue.simplifyOnce_of_cotangents`), and so do all passes together
(`Formula.simplify_definedAt`).
-/

namespace SymCalc

/-- The arguments of the tangents that the formula is divided by. -/
def Formula.cotangents {α : Type} : Formula α → List (Formula α)
  | binary .div _ g => (g.operands .mul).filterMap (argument? .tan)
  | _ => []

section

variable {α : Type} [Scalar α] {a : Formula α} {fs numer denom tangents : List (Formula α)}
  {m : Monomial α}

/-! ## Tangents are kept -/

omit [Scalar α] in
theorem Formula.operands_foldl_mul (f : Formula α) (fs : List (Formula α)) :
    (fs.foldl (· * ·) f).operands .mul = f.operands .mul ++ fs.flatMap (operands .mul) := by
  induction fs generalizing f with
  | nil => simp
  | cons g fs ih =>
    have hmul : (f * g).operands .mul = f.operands .mul ++ g.operands .mul := rfl
    rw [List.foldl_cons, ih, hmul, List.flatMap_cons, List.append_assoc]

theorem Formula.mem_operands_product (h : unary .tan a ∈ fs) :
    unary .tan a ∈ (product fs).operands .mul := by
  cases fs with
  | nil => cases h
  | cons f fs =>
    rw [product, operands_foldl_mul, ← List.flatMap_cons]
    exact List.mem_flatMap.2 ⟨_, h, List.mem_singleton_self _⟩

/-- A formula is divided by the tangents of the denominator. -/
theorem Monomial.mem_cotangents_toFormula (h : .unary .tan a ∈ m.denom) :
    a ∈ m.toFormula.cotangents := by
  unfold Monomial.toFormula
  split
  · next hd =>
    rw [hd] at h
    cases h
  · exact List.mem_filterMap.2 ⟨_, Formula.mem_operands_product h, rfl⟩

theorem Monomial.mem_denom_mergeExponentials (h : .unary .tan a ∈ m.denom) :
    .unary .tan a ∈ m.mergeExponentials.value.denom := by
  rw [value_mergeExponentials]
  split
  · exact h
  · exact List.mem_filter.2 ⟨h, rfl⟩

theorem mem_denom_combineTangents (h : .unary .tan a ∈ denom) :
    .unary .tan a ∈ (combineTangents numer denom tangents).value.2 := by
  have hkeep {op : UnaryOp} {b : Formula α} {denom denom' : List (Formula α)} (hop : op ≠ .tan)
      (he : eraseFirst? (Formula.isFunctionOf op b) denom = some denom')
      (h : .unary .tan a ∈ denom) : .unary .tan a ∈ denom' := by
    obtain ⟨as, g, bs, rfl, hg, rfl⟩ := exists_of_eraseFirst? he
    have hne : .unary .tan a ≠ g := by
      rintro rfl
      simp [Formula.isFunctionOf, hop.symm] at hg
    simpa [hne] using h
  fun_induction combineTangents numer denom tangents with
  | case1 => exact h
  | case2 _ _ _ _ _ he ih => exact ih (hkeep (by decide) he h)
  | case4 _ _ _ _ _ he ih => exact ih (List.mem_append_left _ (hkeep (by decide) he h))
  | case3 _ _ _ _ _ ih | case5 _ _ _ _ _ ih | case6 _ _ _ _ _ _ ih => exact ih h

end

/-! ## Products -/

variable {ρ : String → ℝ} {x y : ℝ} {f g a b : Formula Exact} {as bs fs gs : List (Formula Exact)}
  {c : Exact} {m : Monomial Exact}

open Formula Scalar

namespace Monomial

theorem hasValue_cons : (⟨c, f :: fs, gs⟩ : Monomial Exact).HasValue ρ x ↔
    f.DefinedAt ρ ∧ ∃ y, (⟨c, fs, gs⟩ : Monomial Exact).HasValue ρ y ∧ f.valueAt ρ * y = x := by
  have hvalue : (⟨c, f :: fs, gs⟩ : Monomial Exact).valueAt ρ =
      f.valueAt ρ * (⟨c, fs, gs⟩ : Monomial Exact).valueAt ρ := by
    simp only [valueAt, List.map_cons, List.prod_cons]
    ring
  constructor
  · rintro ⟨⟨hc, hn, hd, h0⟩, rfl⟩
    obtain ⟨hf, hn⟩ := List.forall_mem_cons.1 hn
    exact ⟨hf, _, ⟨⟨hc, hn, hd, h0⟩, rfl⟩, hvalue.symm⟩
  · rintro ⟨hf, _, ⟨⟨hc, hn, hd, h0⟩, rfl⟩, rfl⟩
    exact ⟨⟨hc, List.forall_mem_cons.2 ⟨hf, hn⟩, hd, h0⟩, hvalue⟩

/-- A factor of the denominator, taken out. -/
theorem HasValue.of_denom (h : (⟨c, fs, as ++ g :: bs⟩ : Monomial Exact).HasValue ρ x) :
    g.DefinedAt ρ ∧ g.valueAt ρ ≠ 0 ∧
      (⟨c, fs, as ++ bs⟩ : Monomial Exact).HasValue ρ (x * g.valueAt ρ) := by
  obtain ⟨⟨hc, hn, hd, h0⟩, rfl⟩ := h
  have hsub : ∀ f ∈ as ++ bs, f ∈ as ++ g :: bs := by simp; tauto
  have hg0 := h0 g (by simp)
  refine ⟨hd g (by simp), hg0,
    ⟨hc, hn, fun f hf => hd f (hsub f hf), fun f hf => h0 f (hsub f hf)⟩, ?_⟩
  simp only [valueAt, List.map_append, List.map_cons, List.prod_append, List.prod_cons]
  field_simp

theorem HasValue.append_numer (h : (⟨c, fs, gs⟩ : Monomial Exact).HasValue ρ x)
    (hf : f.DefinedAt ρ) :
    (⟨c, fs ++ [f], gs⟩ : Monomial Exact).HasValue ρ (x * f.valueAt ρ) := by
  obtain ⟨⟨hc, hn, hd, h0⟩, rfl⟩ := h
  refine ⟨⟨hc, List.forall_mem_append.2 ⟨hn, List.forall_mem_singleton.2 hf⟩, hd, h0⟩, ?_⟩
  simp only [valueAt, List.map_append, List.map_cons, List.map_nil, List.prod_append,
    List.prod_singleton]
  ring

theorem HasValue.append_denom (h : (⟨c, fs, gs⟩ : Monomial Exact).HasValue ρ x)
    (hg : g.DefinedAt ρ) (hg0 : g.valueAt ρ ≠ 0) :
    (⟨c, fs, gs ++ [g]⟩ : Monomial Exact).HasValue ρ (x / g.valueAt ρ) := by
  obtain ⟨⟨hc, hn, hd, h0⟩, rfl⟩ := h
  refine ⟨⟨hc, hn, List.forall_mem_append.2 ⟨hd, List.forall_mem_singleton.2 hg⟩,
    List.forall_mem_append.2 ⟨h0, List.forall_mem_singleton.2 hg0⟩⟩, ?_⟩
  simp only [valueAt, List.map_append, List.map_cons, List.map_nil, List.prod_append,
    List.prod_singleton]
  field_simp

end Monomial

theorem Formula.valueAt_of_isFunctionOf {op : UnaryOp} (h : isFunctionOf op a g) :
    g.valueAt ρ = op.onReal (a.valueAt ρ) := by
  unfold isFunctionOf at h
  split at h
  · rw [Bool.and_eq_true, decide_eq_true_eq] at h
    rw [valueAt, h.1, valueAt_eq_of_isSame h.2]
  · cases h

/-- Sines and cosines become tangents with the same product, if the tangents in the denominator
exist. -/
theorem Monomial.hasValue_combineTangents {numer denom tangents : List (Formula Exact)}
    (h : (⟨c, numer ++ tangents, denom⟩ : Monomial Exact).HasValue ρ x)
    (hcos : ∀ a, unary .tan a ∈ (combineTangents numer denom tangents).value.2 →
      Real.cos (a.valueAt ρ) ≠ 0) :
    (⟨c, (combineTangents numer denom tangents).value.1,
      (combineTangents numer denom tangents).value.2⟩ : Monomial Exact).HasValue ρ x := by
  have htan (a : Formula Exact) : (unary .tan a).valueAt ρ =
    Real.sin (a.valueAt ρ) / Real.cos (a.valueAt ρ) := Real.tan_eq_sin_div_cos _
  fun_induction combineTangents numer denom tangents generalizing x with
  | case1 denom tangents => exact h
  | case2 a numer denom tangents denom' he ih =>
    obtain ⟨as, g, bs, rfl, hg, rfl⟩ := exists_of_eraseFirst? he
    obtain ⟨hsin, y, hrest, rfl⟩ := hasValue_cons.1 h
    obtain ⟨-, hg0, hrest⟩ := hrest.of_denom
    have hvalue : g.valueAt ρ = Real.cos (a.valueAt ρ) := valueAt_of_isFunctionOf hg
    rw [hvalue] at hg0 hrest
    have hrest := hrest.append_numer (f := unary .tan a) ⟨hsin.1, hg0⟩
    rw [List.append_eq, List.append_assoc, htan, mul_assoc, mul_div_cancel₀ _ hg0, mul_comm] at hrest
    exact ih hrest hcos
  | case4 a numer denom tangents denom' he ih =>
    obtain ⟨as, g, bs, rfl, hg, rfl⟩ := exists_of_eraseFirst? he
    obtain ⟨hcosine, y, hrest, rfl⟩ := hasValue_cons.1 h
    obtain ⟨-, hg0, hrest⟩ := hrest.of_denom
    have hvalue : g.valueAt ρ = Real.sin (a.valueAt ρ) := valueAt_of_isFunctionOf hg
    have hcos0 := hcos a (mem_denom_combineTangents (by simp))
    rw [hvalue] at hg0 hrest
    have htan0 : (unary .tan a).valueAt ρ ≠ 0 := by
      rw [htan]
      exact div_ne_zero hg0 hcos0
    have hrest := hrest.append_denom (g := unary .tan a) ⟨hcosine.1, hcos0⟩ htan0
    have hproduct : y * Real.sin (a.valueAt ρ) / (unary .tan a).valueAt ρ =
        (unary .cos a).valueAt ρ * y := by
      rw [htan]
      change _ = Real.cos (a.valueAt ρ) * y
      field_simp
    rw [hproduct] at hrest
    exact ih hrest hcos
  | case3 _ numer denom tangents _ ih | case5 _ numer denom tangents _ ih
  | case6 _ numer denom tangents _ _ ih =>
    obtain ⟨hf, y, hrest, rfl⟩ := hasValue_cons.1 h
    exact hasValue_cons.2 ⟨hf, y, ih hrest hcos, rfl⟩

theorem Monomial.HasValue.tangentQuotients (h : m.HasValue ρ x)
    (hcos : ∀ a, unary .tan a ∈ m.tangentQuotients.value.denom → Real.cos (a.valueAt ρ) ≠ 0) :
    m.tangentQuotients.value.HasValue ρ x := by
  have hm : (⟨m.coeff, m.numer ++ [], m.denom⟩ : Monomial Exact).HasValue ρ x := by
    rwa [List.append_nil]
  exact hasValue_combineTangents hm hcos

namespace Formula

theorem HasValue.normalizeProduct_of_cotangents (h : f.HasValue ρ x)
    (hcos : ∀ a ∈ f.normalizeProduct.value.cotangents, Real.cos (a.valueAt ρ) ≠ 0) :
    f.normalizeProduct.value.HasValue ρ x := by
  obtain ⟨m, hm, hv⟩ := Monomial.exists_of? h
  cases h0 : m.coeff == 0 with
  | true =>
    rw [normalizeProduct_of_coeff_eq_zero hm h0, hv.eq_zero h0]
    exact hasValue_number 0
  | false =>
    rw [normalizeProduct_of_coeff_ne_zero hm h0] at hcos ⊢
    have htangents := hv.cancelFactors.tangentQuotients fun a ha => hcos a
      (Monomial.mem_cotangents_toFormula
        (List.mem_mergeSort.2 (Monomial.mem_denom_mergeExponentials ha)))
    exact htangents.mergeExponentials.sorted.toFormula

/-- A pass keeps the value of a formula, unless some part of it is then divided by a tangent that
does not exist. -/
theorem HasValue.simplifyOnce_of_cotangents (h : f.HasValue ρ x)
    (hcos : ∀ g ∈ f.postOrder, ∀ a ∈ g.simplifyOnce.cotangents, Real.cos (a.valueAt ρ) ≠ 0) :
    f.simplifyOnce.HasValue ρ x := by
  induction f generalizing x with
  | const v =>
    rw [exists_of_hasValue_const h]
    exact hasValue_ofValue x
  | var y => exact h
  | unary op a ih =>
    obtain ⟨⟨ha, ho⟩, rfl⟩ := h
    obtain ⟨hcosa, hcos⟩ := List.forall_mem_append.1 hcos
    have hv := ih ha.hasValue hcosa
    have hcos := List.forall_mem_singleton.1 hcos
    rw [simplifyOnce_unary, hv.1.isUndefined, if_neg Bool.false_ne_true] at hcos ⊢
    exact hv.normalizeUnary ho fun heq => hv.neg.normalizeProduct_of_cotangents (heq ▸ hcos)
  | binary op a b iha ihb =>
    obtain ⟨⟨ha, hb, ho⟩, rfl⟩ := h
    obtain ⟨hcosab, hcos⟩ := List.forall_mem_append.1 hcos
    obtain ⟨hcosa, hcosb⟩ := List.forall_mem_append.1 hcosab
    have hva := iha ha.hasValue hcosa
    have hvb := ihb hb.hasValue hcosb
    have hcos := List.forall_mem_singleton.1 hcos
    have hv := hva.binary op hvb ho
    rw [simplifyOnce_binary, hva.1.isUndefined, hvb.1.isUndefined, Bool.or_false,
      if_neg Bool.false_ne_true] at hcos ⊢
    exact hv.normalizeBinary fun heq => hv.normalizeProduct_of_cotangents (heq ▸ hcos)

/-! ## All passes -/

/-- Whether a pass over the formula makes a tangent, and then divides a part of the formula by a
tangent that does not exist at `ρ`. -/
def LosesTangent (ρ : String → ℝ) (f : Formula Exact) : Prop :=
  .tangentQuotient ∈ f.simplifyPass.steps ∧
    ∃ g ∈ f.postOrder, ∃ a ∈ g.simplifyOnce.cotangents, Real.cos (a.valueAt ρ) = 0

theorem HasValue.simplifyOnce_or (h : f.HasValue ρ x) :
    f.simplifyOnce.HasValue ρ x ∨ f.LosesTangent ρ := by
  by_cases hsteps : .tangentQuotient ∈ f.simplifyPass.steps
  · by_cases hcos : ∃ g ∈ f.postOrder, ∃ a ∈ g.simplifyOnce.cotangents, Real.cos (a.valueAt ρ) = 0
    · exact .inr ⟨hsteps, hcos⟩
    · exact .inl (h.simplifyOnce_of_cotangents fun g hg a ha h0 => hcos ⟨g, hg, a, ha, h0⟩)
  · exact .inl (h.simplifyOnce hsteps)

theorem hasValue_iterate_or (h : f.HasValue ρ x) (n : ℕ) :
    (simplifyOnce^[n] f).HasValue ρ x ∨
      ∃ k < n, (simplifyOnce^[k] f).HasValue ρ x ∧ (simplifyOnce^[k] f).LosesTangent ρ := by
  induction n with
  | zero => exact .inl h
  | succ n ih =>
    rcases ih with hn | ⟨k, hk, hlost⟩
    · rw [Function.iterate_succ_apply']
      exact hn.simplifyOnce_or.imp_right fun hlost => ⟨n, Nat.lt_succ_self n, hn, hlost⟩
    · exact .inr ⟨k, Nat.lt_succ_of_lt hk, hlost⟩

/-- A formula that is defined stays so, with its value, unless a pass makes a tangent of a cosine over a
sine and divides by it where it does not exist. This holds of a single pass, and of all of them. -/
theorem simplify_definedAt (f : Formula Exact) (ρ : String → ℝ) (h : f.DefinedAt ρ) :
    (f.simplifyOnce.DefinedAt ρ ∧ f.simplifyOnce.valueAt ρ = f.valueAt ρ ∨ f.LosesTangent ρ) ∧
    (f.simplify.DefinedAt ρ ∧ f.simplify.valueAt ρ = f.valueAt ρ ∨
      ∃ k < maxPasses, (simplifyOnce^[k] f).DefinedAt ρ ∧ (simplifyOnce^[k] f).LosesTangent ρ) := by
  refine ⟨h.hasValue.simplifyOnce_or, ?_⟩
  rw [simplify_eq_iterate]
  refine (hasValue_iterate_or h.hasValue maxPasses).imp_right ?_
  rintro ⟨k, hk, hd, hlost⟩
  exact ⟨k, hk, hd.1, hlost⟩

/-- A sine times the reciprocal of a cosine becomes a tangent, which exists where the reciprocal
does. -/
theorem simplify_definedAt_tan :
    (sinX * secX).DefinedAt (fun _ => 0) ∧ (sinX * secX).simplifyOnce.DefinedAt (fun _ => 0) ∧
      (sinX * secX).simplify.DefinedAt fun _ => 0 := by
  have hcos : Real.cos 0 ≠ 0 := by rw [Real.cos_zero]; exact one_ne_zero
  have hd : (sinX * secX).DefinedAt fun _ => 0 :=
    ⟨⟨trivial, trivial⟩, ⟨rfl, ⟨trivial, trivial⟩, hcos⟩, trivial⟩
  have hfirst : (sinX * secX).simplifyOnce = tanX := by
    rw [simplifyOnce_mul, simplifyOnce_secX]
    exact normalizeProduct_sinX_mul_secX
  have htan : tanX.IsFixpoint := rfl
  have hnone : ∀ g ∈ (sinX * secX).postOrder ++ tanX.postOrder, g.simplifyOnce.cotangents = [] := by
    have hone : (const 1 : Formula Exact).simplifyOnce.cotangents = [] := by
      rw [simplifyOnce_const, ofValue_of_isProper isProper_one]
      rfl
    have hsec : secX.simplifyOnce.cotangents = [] := by
      rw [simplifyOnce_secX]
      rfl
    have hmul : (sinX * secX).simplifyOnce.cotangents = [] := by
      rw [hfirst]
      rfl
    have hparts : (sinX * secX).postOrder ++ tanX.postOrder =
        [var "x", sinX, const 1, var "x", cosX, secX, sinX * secX, var "x", tanX] := rfl
    rw [hparts]
    simp only [List.forall_mem_cons]
    exact ⟨rfl, rfl, hone, rfl, rfl, hsec, hmul, rfl, rfl, List.forall_mem_nil _⟩
  have hkeeps : ∀ k, ¬ (simplifyOnce^[k] (sinX * secX)).LosesTangent fun _ => 0 := by
    rintro k ⟨-, g, hg, a, ha, -⟩
    have hmem : g ∈ (sinX * secX).postOrder ++ tanX.postOrder := by
      cases k with
      | zero => exact List.mem_append_left _ hg
      | succ k =>
        rw [Function.iterate_succ_apply, hfirst, htan.iterate] at hg
        exact List.mem_append_right _ hg
    rw [hnone g hmem] at ha
    cases ha
  obtain ⟨hone, hall⟩ := simplify_definedAt _ _ hd
  refine ⟨hd, (hone.resolve_right (hkeeps 0)).1, (hall.resolve_right ?_).1⟩
  rintro ⟨k, -, -, hlost⟩
  exact hkeeps k hlost

theorem normalizeProduct_cosX_div_sinX :
    (cosX / sinX).normalizeProduct.value = const 1 / tanX := by
  have hof : Monomial.of? (cosX / sinX) = some ⟨1, [cosX], [sinX]⟩ := by
    have hform : (⟨1, [cosX], [sinX]⟩ : Monomial Exact).toFormula = cosX / sinX := by
      simp [Monomial.toFormula, Monomial.numerator, product]
    rw [← hform]
    exact Monomial.of?_toFormula isProper_one (by simp [cosX, sinX, isFactor])
  have hsame : cosX.isSame sinX = false := by
    have hbeq : (cosX == sinX) = false := rfl
    rw [isSame.eq_def, hbeq]
    rfl
  have hcancel : cancel [cosX] [sinX] = ([cosX], [sinX]) := by
    simp [cancel, eraseFirst?, hsame]
  have htangent : (combineTangents [cosX] [sinX] []).value = ([], [tanX]) := by
    simp [combineTangents, cosX, sinX, tanX, eraseFirst?, isFunctionOf, isSame_self]
  have hstages : (⟨1, [cosX], [sinX]⟩ : Monomial Exact).cancelFactors.value.tangentQuotients.value =
      ⟨1, [], [tanX]⟩ := by
    simp [Monomial.cancelFactors, Monomial.tangentQuotients, hcancel, htangent]
  have hmerged : (⟨1, [], [tanX]⟩ : Monomial Exact).mergeExponentials.value = ⟨1, [], [tanX]⟩ :=
    rfl
  rw [normalizeProduct_of_coeff_ne_zero hof one_beq_zero, hstages, hmerged, ← toFormula_one_div]
  simp [Monomial.sorted, sort]

/-- Half of the number pi has a cosine, but no tangent. -/
theorem simplify_definedAt_fails :
    (cosX / sinX).DefinedAt (fun _ => Real.pi / 2) ∧
      ¬ (cosX / sinX).simplifyOnce.DefinedAt (fun _ => Real.pi / 2) ∧
      ¬ (cosX / sinX).simplify.DefinedAt fun _ => Real.pi / 2 := by
  have hsin : Real.sin (Real.pi / 2) ≠ 0 := by
    rw [Real.sin_pi_div_two]
    exact one_ne_zero
  have hfirst : (cosX / sinX).simplifyOnce = const 1 / tanX := normalizeProduct_cosX_div_sinX
  have hfix : (const 1 / tanX).IsFixpoint := isFixpoint_one_div rfl fun _ => .unary (.var "x") rfl
  have hundefined : ¬ (const 1 / tanX).DefinedAt fun _ => Real.pi / 2 := by
    rintro ⟨-, ⟨-, hcos⟩, -⟩
    exact hcos Real.cos_pi_div_two
  refine ⟨⟨⟨trivial, trivial⟩, ⟨trivial, trivial⟩, hsin⟩, ?_, ?_⟩
  · rwa [hfirst]
  · rwa [hfix.simplify_eq (n := 1) (by decide) hfirst]

end Formula
end SymCalc
