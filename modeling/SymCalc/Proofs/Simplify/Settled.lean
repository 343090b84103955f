import SymCalc.Proofs.Simplify.ReducedSum

/-!
# Settled formulas

* `Formula.IsSettled`: whether every part of a formula is in normal form, with an exception for the
  signs of numerators in heavy quotients;
* `IsChain`: whether the factors of a product are in order and cannot be merged.

Products and sums of settled formulas are settled if they are in order and nothing can be merged
(`Monomial.IsReduced.isSettled_toFormula`, `IsSumForm.isSettled_ofTerms`).
-/

namespace SymCalc

open Scalar Formula

variable {α : Type} [Scalar α]

namespace Formula

/-- Whether every part of the formula is in normal form, except that the numerator of a quotient that
is heavier than `k` may be the negation of a sum which the next pass writes as another sum. -/
inductive IsSettled (k : ℕ) : Formula α → Prop where
  | const {v : α} (h : Scalar.IsProper v) : IsSettled k (const v)
  | var (x : String) : IsSettled k (var x)
  | unary {op : UnaryOp} {a : Formula α} (ha : IsSettled k a)
      (h : (normalizeUnary op a).value = unary op a) : IsSettled k (unary op a)
  | binary {op : ArithOp} {a b : Formula α} (ha : IsSettled k a) (hb : IsSettled k b)
      (h : (normalizeBinary op a b).value = binary op a b) : IsSettled k (binary op a b)
  | quotient {s b : Formula α} (hs : IsSettled k s) (hsum : s.isSum) (hb : IsSettled k b)
      (hk : k < (binary .div (unary .negate s) b).weight)
      (h : (binary .div (unary .negate s) b).normalizeProduct.value =
        binary .div (unary .negate s) b) :
      IsSettled k (binary .div (unary .negate s) b)

namespace IsSettled

variable {k : ℕ} {f g a b : Formula α}

theorem isProper (h : IsSettled k f) : f.IsProper := by
  induction h with
  | const h => exact h
  | var x => trivial
  | unary _ _ ih => exact ih
  | binary _ _ _ iha ihb => exact ⟨iha, ihb⟩
  | quotient _ _ _ _ _ ihs ihb => exact ⟨ihs, ihb⟩

theorem of_mem_pieces {c below : Bool} (h : IsSettled k f) (hg : .factor g c ∈ f.pieces below) :
    IsSettled k g := by
  induction h generalizing below with
  | const h => simp [pieces] at hg
  | var x =>
    cases List.mem_singleton.1 hg
    exact .var x
  | @unary op a ha h ih =>
    cases op with
    | negate => exact ih (by simpa [pieces] using hg)
    | _ =>
      cases List.mem_singleton.1 hg
      exact .unary ha h
  | @binary op a b ha hb h iha ihb =>
    cases op with
    | mul | div => exact (List.mem_append.1 hg).elim iha ihb
    | add | sub =>
      cases List.mem_singleton.1 hg
      exact .binary ha hb h
  | quotient _ _ _ _ _ ihs ihb =>
    exact (List.mem_append.1 hg).elim (fun hg => ihs (by simpa [pieces] using hg)) ihb

theorem of_mem_signedTerms {c negative : Bool} (h : IsSettled k f)
    (hg : (c, g) ∈ f.signedTerms negative) : IsSettled k g := by
  induction h generalizing negative with
  | const h =>
    cases List.mem_singleton.1 hg
    exact .const h
  | var x =>
    cases List.mem_singleton.1 hg
    exact .var x
  | @unary op a ha h ih =>
    cases op with
    | negate => exact ih hg
    | _ =>
      cases List.mem_singleton.1 hg
      exact .unary ha h
  | @binary op a b ha hb h iha ihb =>
    cases op with
    | add | sub => exact (List.mem_append.1 hg).elim iha ihb
    | mul | div =>
      cases List.mem_singleton.1 hg
      exact .binary ha hb h
  | quotient hs hsum hb hk h =>
    cases List.mem_singleton.1 hg
    exact .quotient hs hsum hb hk h

end IsSettled
end Formula

variable [LawfulScalar α]

theorem Formula.IsSettled.isUndefined {k : ℕ} {f : Formula α} (h : IsSettled k f) :
    f.isUndefined = false := by
  cases h with
  | const h => exact isUndefined_const h.isFinite
  | _ => rfl

/-! ## Products in normal form -/

/-- A product in normal form is the formula for its monomial. -/
theorem Formula.exists_monomial_of_normalizeProduct {f : Formula α} (hf : 2 ≤ f.weight)
    (h : f.normalizeProduct.value = f) :
    ∃ m, Monomial.of? f = some m ∧ m.IsReduced ∧ m.sorted = m ∧ m.toFormula = f := by
  rcases normalizeProduct_isReduced_or_lighter hf with ⟨m, hm, hreduced, -, hvalue⟩ | hlt
  · have hfactor : ∀ g ∈ m.sorted.numer ++ m.sorted.denom, g.isFactor := by
      intro g hg
      refine hreduced.isFactor g ?_
      simpa only [List.mem_append, Monomial.sorted, mem_sort] using hg
    have hsorted := Monomial.of?_toFormula (m := m.sorted) hreduced.isProper hfactor
    rw [← hvalue, h, hm] at hsorted
    have hsorted := Option.some.inj hsorted
    refine ⟨m, hm, hreduced, hsorted.symm, ?_⟩
    rw [hsorted, ← hvalue, h]
  · rw [h] at hlt
    exact absurd hlt (Nat.lt_irrefl _)

theorem Monomial.isTerm_factor {f : Formula α} (hf : f.isFactor) (hsum : f.isSum = false)
    (hproper : f.IsProper) : (⟨1, [f], []⟩ : Monomial α).IsTerm where
  isReduced :=
    { isFinite := LawfulScalar.isFinite_one
      ne_zero := one_beq_zero
      isFactor := by simpa using hf
      isMerged :=
        { uncancelled := fun _ _ _ hg => absurd hg List.not_mem_nil
          tangents := fun _ _ _ hg => absurd hg List.not_mem_nil
          exponents := by
            rw [exponents, List.filterMap_nil, List.append_nil]
            exact (List.length_filterMap_le ..).trans_lt Nat.one_lt_two } }
  sorted := by simp [sorted, sort]
  isProper := by simpa using hproper
  not_isSum s hn _ hs := by
    cases List.singleton_inj.1 hn
    rw [hsum] at hs
    cases hs

omit [LawfulScalar α] in
theorem Monomial.isTerm_of_toFormula {m : Monomial α} (hreduced : m.IsReduced)
    (hsorted : m.sorted = m) (hproper : ∀ f ∈ m.numer ++ m.denom, f.IsProper)
    (h : m.toFormula.isTerm) : m.IsTerm where
  isReduced := hreduced
  sorted := hsorted
  isProper := hproper
  not_isSum s hn hd hs := by
    refine Bool.of_not_eq_false fun hshows => ?_
    obtain ⟨c, n, d⟩ := m
    cases hn
    cases hd
    have hs' : s.isTerm = false := by
      cases s with
      | binary op a b => cases op <;> first | rfl | cases hs
      | _ => cases hs
    cases h1 : c == 1 with
    | true =>
      simp only [toFormula, numerator, h1, if_true] at h
      exact absurd h (ne_true_of_eq_false hs')
    | false =>
      have hneg : c == -1 := by simpa [showsCoeff, h1] using hshows
      simp [toFormula, numerator, h1, hneg, neg_eq, Formula.isTerm] at h

/-- A settled term of a sum is as the normal forms of products are. -/
theorem Formula.IsSettled.isTermForm {k : ℕ} {f : Formula α} (h : IsSettled k f) (ht : f.isTerm) :
    f.IsTermForm := by
  have hfactor (hf : f.isFactor) (hsum : f.isSum = false) : f.IsTermForm := by
    refine .inr ⟨_, Monomial.isTerm_factor hf hsum h.isProper, ?_⟩
    simp [Monomial.toFormula, Monomial.numerator, product]
  have hproduct (hweight : 2 ≤ f.weight) (hnormal : f.normalizeProduct.value = f) :
      f.IsTermForm := by
    obtain ⟨m, hm, hreduced, hsorted, rfl⟩ := exists_monomial_of_normalizeProduct hweight hnormal
    refine .inr ⟨m, Monomial.isTerm_of_toFormula hreduced hsorted ?_ ht, rfl⟩
    exact List.forall_mem_append.2 (Monomial.forall_of? hm h.isProper)
  cases h with
  | @const v hv =>
    by_cases h0 : v == 0
    · exact .inl (congrArg Formula.const (hv.eq_zero h0))
    · refine .inr ⟨⟨v, [], []⟩, ?_, ofValue_of_isProper hv⟩
      exact
        { isReduced :=
            { isFinite := hv.isFinite
              ne_zero := eq_false_of_ne_true h0
              isFactor := List.forall_mem_nil _
              isMerged :=
                { uncancelled := List.forall_mem_nil _
                  tangents := List.forall_mem_nil _
                  exponents := Nat.zero_lt_two } }
          sorted := Monomial.sorted_of_isConstant rfl
          isProper := List.forall_mem_nil _
          not_isSum := fun _ _ _ _ => rfl }
  | var x => exact hfactor rfl rfl
  | @unary op a ha h =>
    cases op with
    | negate => cases ht
    | _ => exact hfactor rfl rfl
  | @binary op a b ha hb h =>
    have hweight : 2 ≤ (Formula.binary op a b).weight := Nat.add_le_add a.weight_pos b.weight_pos
    cases op with
    | add | sub => cases ht
    | mul | div => exact hproduct hweight h
  | @quotient s b hs hsum hb hk h => exact hproduct (Nat.add_le_add s.weight_pos b.weight_pos) h

/-! ### Chains of factors -/

/-- Whether the factors are in order and cannot be merged. -/
structure IsChain (fs : List (Formula α)) : Prop where
  isFactor : ∀ f ∈ fs, f.isFactor
  exponents : (fs.filterMap exponent?).length < 2
  sorted : IsSorted fs

omit [LawfulScalar α] in
theorem IsChain.sublist {fs gs : List (Formula α)} (h : IsChain gs) (hs : fs.Sublist gs) :
    IsChain fs where
  isFactor f hf := h.isFactor f (hs.mem hf)
  exponents := ((hs.filterMap exponent?).length_le).trans_lt h.exponents
  sorted := h.sorted.sublist hs

namespace Monomial

variable {m : Monomial α}

theorem IsReduced.isChain_numer (h : m.IsReduced) (hs : m.sorted = m) : IsChain m.numer where
  isFactor f hf := h.isFactor f (List.mem_append_left _ hf)
  exponents := by
    have hexponents := h.isMerged.exponents
    rw [exponents, List.length_append] at hexponents
    omega
  sorted := by
    rw [← hs]
    exact isSorted_sort m.numer

theorem IsReduced.isChain_denom (h : m.IsReduced) (hs : m.sorted = m) : IsChain m.denom where
  isFactor f hf := h.isFactor f (List.mem_append_right _ hf)
  exponents := by
    have hexponents := h.isMerged.exponents
    rw [exponents, List.length_append] at hexponents
    omega
  sorted := by
    rw [← hs]
    exact isSorted_sort m.denom

theorem IsReduced.normalizeProduct_toFormula (h : m.IsReduced) (hs : m.sorted = m) :
    m.toFormula.normalizeProduct.value = m.toFormula := by
  rw [normalizeProduct_of_isReduced (of?_toFormula h.isProper h.isFactor) h, hs]

end Monomial

variable {k : ℕ} {c : α} {fs : List (Formula α)}

omit [LawfulScalar α] in
theorem IsChain.isReduced (h : IsChain fs) (hc : isFinite c) (h0 : (c == 0) = false) :
    (⟨c, fs, []⟩ : Monomial α).IsReduced where
  isFinite := hc
  ne_zero := h0
  isFactor := by simpa using h.isFactor
  isMerged :=
    { uncancelled := fun _ _ _ hg => absurd hg List.not_mem_nil
      tangents := fun _ _ _ hg => absurd hg List.not_mem_nil
      exponents := by simpa [Monomial.exponents] using h.exponents }

omit [LawfulScalar α] in
theorem IsChain.sorted_eq (h : IsChain fs) (c : α) :
    (⟨c, fs, []⟩ : Monomial α).sorted = ⟨c, fs, []⟩ := by
  rw [Monomial.sorted, sort_of_isSorted h.sorted, sort_of_isSorted .nil]

/-- A chain in order is its own normal form. -/
theorem IsChain.normalizeProduct (h : IsChain fs) (hc : isFinite c) (h0 : (c == 0) = false) :
    (⟨c, fs, []⟩ : Monomial α).toFormula.normalizeProduct.value =
      (⟨c, fs, []⟩ : Monomial α).toFormula :=
  (h.isReduced hc h0).normalizeProduct_toFormula (h.sorted_eq c)

omit [LawfulScalar α] in
theorem Monomial.toFormula_append (hneg : (c == -1) = false) (hne : fs = [] → (c == 1) = false)
    (f : Formula α) : (⟨c, fs ++ [f], []⟩ : Monomial α).toFormula =
      (⟨c, fs, []⟩ : Monomial α).toFormula * f := by
  cases fs with
  | nil => simp [toFormula, numerator, hneg, hne rfl, product]
  | cons g gs =>
    cases h1 : c == 1 with
    | true => simp [toFormula, numerator, h1, product, List.foldl_append]
    | false => simp [toFormula, numerator, h1, hneg, product, List.foldl_append]

/-- The product of settled factors in order is settled. -/
theorem IsChain.isSettled (h : IsChain fs) (hf : ∀ f ∈ fs, f.IsSettled k) (hc : isFinite c)
    (h0 : (c == 0) = false) (hneg : (c == -1) = false) :
    (⟨c, fs, []⟩ : Monomial α).toFormula.IsSettled k := by
  induction fs using List.reverseRecOn with
  | nil =>
    have hproper := isProper_of_ne_zero hc h0
    change (ofValue c).IsSettled k
    rw [ofValue_of_isProper hproper]
    exact .const hproper
  | append_singleton fs f ih =>
    have hnormal := h.normalizeProduct hc h0
    have ih := ih (h.sublist (List.sublist_append_left ..)) fun f hm => hf f (List.mem_append_left _ hm)
    have hlast := hf f (List.mem_append_right _ (List.mem_singleton.2 rfl))
    by_cases hne : fs = [] → (c == 1) = false
    · rw [Monomial.toFormula_append hneg hne] at hnormal ⊢
      exact .binary ih hlast hnormal
    · obtain ⟨rfl, h1⟩ := Classical.not_imp.1 hne
      have h1 : c == 1 := Bool.of_not_eq_false h1
      simpa [Monomial.toFormula, Monomial.numerator, h1, product] using hlast

omit [LawfulScalar α] in
theorem Formula.normalizeNegation_of_isTerm {a : Formula α} (ht : a.isTerm)
    (hc : a.isConst = false) : a.normalizeNegation = (-a).normalizeProduct := by
  cases a with
  | const v => cases hc
  | var x => rfl
  | unary op a => cases op <;> first | rfl | cases ht
  | binary op a b => cases op <;> first | rfl | cases ht

omit [LawfulScalar α] in
theorem Formula.normalizeNegation_of_isSum {a : Formula α} (hs : a.isSum) :
    a.normalizeNegation = (-a).normalizeSum := by
  cases a with
  | binary op a b => cases op <;> first | rfl | cases hs
  | _ => cases hs

omit [LawfulScalar α] in
theorem Formula.isTerm_product (h : ∀ f ∈ fs, f.isFactor)
    (hsum : ∀ s, fs = [s] → s.isSum = false) : (product fs).isTerm := by
  cases fs with
  | nil => rfl
  | cons f fs =>
    cases fs with
    | nil => exact isTerm_of_isFactor (h f List.mem_cons_self) (hsum f rfl)
    | cons g fs => exact isTerm_foldl_mul f g fs

omit [LawfulScalar α] in
theorem Formula.isConst_product (hne : fs ≠ []) (h : ∀ f ∈ fs, f.isFactor) :
    (product fs).isConst = false := by
  cases fs with
  | nil => exact absurd rfl hne
  | cons f fs =>
    have hfoldl (g : Formula α) (gs : List (Formula α)) (hg : g.isConst = false) :
        (gs.foldl (binary .mul) g).isConst = false := by
      induction gs generalizing g with
      | nil => exact hg
      | cons g' gs ih => exact ih _ rfl
    refine hfoldl f fs ?_
    have hf := h f List.mem_cons_self
    cases f with
    | const v => cases hf
    | _ => rfl

omit [LawfulScalar α] in
theorem Monomial.toFormula_of_one (hne : fs ≠ []) (h1 : c == 1) :
    (⟨c, fs, []⟩ : Monomial α).toFormula = product fs := by
  cases fs with
  | nil => exact absurd rfl hne
  | cons f fs => simp [toFormula, numerator, h1]

omit [LawfulScalar α] in
theorem Monomial.toFormula_of_neg_one (hne : fs ≠ []) (h1 : (c == 1) = false) (hneg : c == -1) :
    (⟨c, fs, []⟩ : Monomial α).toFormula = -product fs := by
  cases fs with
  | nil => exact absurd rfl hne
  | cons f fs => simp [toFormula, numerator, h1, hneg]

theorem IsChain.isSettled_product (h : IsChain fs) (hne : fs ≠ []) (hf : ∀ f ∈ fs, f.IsSettled k) :
    (product fs).IsSettled k := by
  rw [← Monomial.toFormula_of_one hne one_beq_one]
  refine h.isSettled hf LawfulScalar.isFinite_one one_beq_zero ?_
  rw [← neg_beq_one, neg_one_beq_one]

/-- The negation of a product of settled factors in order is settled, unless it is the negation of a
sum. -/
theorem IsChain.isSettled_neg_product (h : IsChain fs) (hne : fs ≠ [])
    (hf : ∀ f ∈ fs, f.IsSettled k) (hsum : ∀ s, fs = [s] → s.isSum = false) :
    (-product fs).IsSettled k := by
  have hproper : IsProper (-1 : α) := isProper_neg LawfulScalar.isFinite_one one_beq_zero
  have h0 : ((-1 : α) == 0) = false :=
    (neg_beq_zero LawfulScalar.isFinite_one).trans one_beq_zero
  have hself : ((-1 : α) == -1) = true := (LawfulScalar.neg_beq_neg 1 1).trans one_beq_one
  refine .unary (h.isSettled_product hne hf) ?_
  have hnormal := h.normalizeProduct hproper.isFinite h0
  rw [Monomial.toFormula_of_neg_one hne neg_one_beq_one hself] at hnormal
  exact (congrArg Traced.value (normalizeNegation_of_isTerm (isTerm_product h.isFactor hsum)
    (isConst_product hne h.isFactor))).trans hnormal

namespace Monomial

variable {m : Monomial α}

/-- The numerator of a reduced monomial is settled, unless it is the negation of a sum. -/
theorem IsReduced.isSettled_numerator (h : m.IsReduced) (hs : m.sorted = m)
    (hf : ∀ f ∈ m.numer, f.IsSettled k) : m.numerator.IsSettled k ∨
      m.coeff == -1 ∧ ∃ s, m.numer = [s] ∧ s.isSum ∧ m.numerator = -s := by
  have hchain := h.isChain_numer hs
  have hnumerator : m.numerator = (⟨m.coeff, m.numer, []⟩ : Monomial α).toFormula := rfl
  rw [hnumerator]
  cases hneg : m.coeff == -1 with
  | false => exact .inl (hchain.isSettled hf h.isFinite h.ne_zero hneg)
  | true =>
    have h1 : (m.coeff == 1) = false := by
      rw [eq_neg_one_of_beq hneg, neg_one_beq_one]
    cases hn : m.numer with
    | nil =>
      left
      change (ofValue m.coeff).IsSettled k
      rw [ofValue_of_isProper h.isProper]
      exact .const h.isProper
    | cons f fs =>
      rw [← hn]
      have hne : m.numer ≠ [] := by simp [hn]
      rw [toFormula_of_neg_one hne h1 hneg]
      by_cases hsum : ∃ s, m.numer = [s] ∧ s.isSum
      · obtain ⟨s, hs, hsum⟩ := hsum
        refine .inr ⟨rfl, s, hs, hsum, ?_⟩
        rw [hs]
        rfl
      · left
        refine hchain.isSettled_neg_product hne hf fun s hs => ?_
        exact eq_false_of_ne_true fun h => hsum ⟨s, hs, h⟩

/-- The formula for a reduced monomial with settled factors is settled if a negated sum in the
numerator is allowed. -/
theorem IsReduced.isSettled_toFormula (h : m.IsReduced) (hs : m.sorted = m)
    (hf : ∀ f ∈ m.numer ++ m.denom, f.IsSettled k)
    (hneg : m.coeff == -1 → ∀ s, m.numer = [s] → s.isSum → m.denom ≠ [] ∧ k < m.weight) :
    m.toFormula.IsSettled k := by
  obtain ⟨hfn, hfd⟩ := List.forall_mem_append.1 hf
  have hnumerator := h.isSettled_numerator hs hfn
  have hnormal := h.normalizeProduct_toFormula hs
  cases hd : m.denom with
  | nil =>
    have heq : m.toFormula = m.numerator := by
      unfold toFormula
      rw [hd]
    rw [heq]
    refine hnumerator.resolve_right ?_
    rintro ⟨hc, s, hn, hsum, -⟩
    exact (hneg hc s hn hsum).1 hd
  | cons g gs =>
    have hne : m.denom ≠ [] := by simp [hd]
    have heq : m.toFormula = m.numerator / product m.denom := by
      unfold toFormula
      rw [hd]
    have hdenom := (h.isChain_denom hs).isSettled_product hne hfd
    have hweight := weight_toFormula m
    rw [heq] at hnormal hweight ⊢
    rcases hnumerator with hnumerator | ⟨hc, s, hn, hsum, hsign⟩
    · exact .binary hnumerator hdenom hnormal
    · rw [hsign] at hnormal hweight ⊢
      exact .quotient (hfn s (by simp [hn])) hsum hdenom (hweight ▸ (hneg hc s hn hsum).2) hnormal

end Monomial

/-! ## Sums in normal form -/

variable {ps ns : List (Monomial α)}

theorem IsSumOrder.isTerm_toFormula (h : IsSumOrder ps ns) :
    (∀ m ∈ ps, m.toFormula.isTerm) ∧ ∀ m ∈ ns, m.negated.toFormula.isTerm := by
  constructor
  · intro m hm
    exact (h.isSummand m (List.mem_append_left _ hm)).isTerm_toFormula (h.positive m hm)
  · intro m hm
    exact (h.isSummand m (List.mem_append_right _ hm)).negated.isTerm_toFormula
      ((LawfulScalar.zero_lt_neg m.coeff).trans (h.negative m hm))

/-- The terms of a sum in order are read back from it. -/
theorem IsSumOrder.mapM_signedTerms (h : IsSumOrder ps ns) (hlength : ps = [] → 2 ≤ ns.length) :
    ((ofTerms ps ns).signedTerms false).mapM Monomial.ofTerm? = some (ps ++ ns) := by
  obtain ⟨hp, hn⟩ := h.isTerm_toFormula
  rw [signedTerms_ofTerms hlength hp hn, mapM_eq_some_iff]
  refine List.rel_append ?_ ?_
  · refine List.forall₂_map_left_iff.2 (List.forall₂_same.2 fun m hm => ?_)
    exact congrArg (Option.map _) (h.isSummand m (List.mem_append_left _ hm)).of?_toFormula
  · refine List.forall₂_map_left_iff.2 (List.forall₂_same.2 fun m hm => ?_)
    refine (congrArg (Option.map _)
      (h.isSummand m (List.mem_append_right _ hm)).negated.of?_toFormula).trans ?_
    exact congrArg some m.negated_negated

/-- The sum of terms in order is its own normal form. -/
theorem IsSumForm.normalizeSum_ofTerms (h : IsSumForm ps ns) (hlength : ps = [] → 2 ≤ ns.length) :
    (ofTerms ps ns).normalizeSum.value = ofTerms ps ns :=
  normalizeSum_of_isSumForm (h.mapM_signedTerms hlength) (.refl _) h

omit [LawfulScalar α] in
theorem isSum_ofTerms (hne : ps ≠ []) (hlength : 2 ≤ (ps ++ ns).length) :
    (ofTerms ps ns).isSum := by
  cases ns using List.reverseRecOn with
  | nil =>
    cases ps using List.reverseRecOn with
    | nil => exact absurd rfl hne
    | append_singleton ps m =>
      have hps : ps ≠ [] := by
        rintro rfl
        simp at hlength
      rw [ofTerms_append_positive hps]
      rfl
  | append_singleton ns m =>
    rw [ofTerms_append_negative hne]
    rfl

theorem IsSumForm.isSettled_ofTerms_of_ne_nil (h : IsSumForm ps ns) (hne : ps ≠ [])
    (hp : ∀ m ∈ ps, m.toFormula.IsSettled k) (hn : ∀ m ∈ ns, m.negated.toFormula.IsSettled k) :
    (ofTerms ps ns).IsSettled k := by
  induction ns using List.reverseRecOn with
  | nil =>
    induction ps using List.reverseRecOn with
    | nil => exact absurd rfl hne
    | append_singleton ps m ih =>
      have hlast := hp m (List.mem_append_right _ (List.mem_singleton.2 rfl))
      have hp m (hm : m ∈ ps) := hp m (List.mem_append_left _ hm)
      by_cases hps : ps = []
      · subst hps
        exact hlast
      · have hnormal := h.normalizeSum_ofTerms fun hnil => absurd hnil hne
        rw [ofTerms_append_positive hps] at hnormal ⊢
        exact .binary (ih hps hp (h.sublist (List.sublist_append_left ..) (.refl _))) hlast hnormal
  | append_singleton ns m ih =>
    have hlast := hn m (List.mem_append_right _ (List.mem_singleton.2 rfl))
    have hn m (hm : m ∈ ns) := hn m (List.mem_append_left _ hm)
    have hnormal := h.normalizeSum_ofTerms fun hnil => absurd hnil hne
    rw [ofTerms_append_negative hne] at hnormal ⊢
    exact .binary (ih (h.sublist (.refl _) (List.sublist_append_left ..)) hn) hlast hnormal

/-- The sum of settled terms in order is settled. -/
theorem IsSumForm.isSettled_ofTerms (h : IsSumForm ps ns) (hlength : ps = [] → 2 ≤ ns.length)
    (hp : ∀ m ∈ ps, m.toFormula.IsSettled k) (hn : ∀ m ∈ ns, m.negated.toFormula.IsSettled k) :
    (ofTerms ps ns).IsSettled k := by
  by_cases hps : ps = []
  · subst hps
    have hlength := hlength rfl
    have hpos : 0 < (ns.map Monomial.negated).length := by
      rw [List.length_map]
      exact Nat.zero_lt_of_lt hlength
    have hne := List.ne_nil_of_length_pos hpos
    have hnormal := h.normalizeSum_ofTerms fun _ => hlength
    rw [ofTerms_nil hlength] at hnormal ⊢
    refine .unary (h.negated.isSettled_ofTerms_of_ne_nil hne (List.forall_mem_map.2 hn)
      (List.forall_mem_nil _)) ?_
    have hsum : (ofTerms (ns.map Monomial.negated) []).isSum := isSum_ofTerms hne (by simpa)
    exact (congrArg Traced.value (normalizeNegation_of_isSum hsum)).trans hnormal
  · exact h.isSettled_ofTerms_of_ne_nil hps hp hn

end SymCalc
