import SymCalc.Proofs.Formula.Order
import SymCalc.Proofs.Simplify.Leaves
import SymCalc.Proofs.Simplify.Weight

/-!
# Merging makes formulas lighter

* `Monomial.IsMerged`: whether no two factors of a product can be merged;
* `IsMergedSum`: whether no two terms of a sum can be merged.

The stages of the normal form of a product or of a sum keep what cannot be merged
(`Monomial.IsMerged.stages_eq`, `mergedTerms_perm`) and lower the weight of everything else
(`Monomial.isMerged_or_lighter`, `mergedTerms_isMergedSum_or_lighter`).
-/

namespace SymCalc

open Formula

variable {α : Type}

/-! ## Stages of a product -/

theorem exists_weightSum_of_eraseFirst? {p : Formula α → Bool} {fs rest : List (Formula α)}
    (h : eraseFirst? p fs = some rest) :
    ∃ x ∈ fs, p x ∧ weightSum fs = x.weight + weightSum rest := by
  obtain ⟨as, x, bs, rfl, hx, rfl⟩ := exists_of_eraseFirst? h
  refine ⟨x, List.mem_append_right _ List.mem_cons_self, hx, ?_⟩
  simp only [weightSum_append, weightSum_cons]
  omega

variable [Scalar α]

/-- Whether no factor can be cancelled. -/
def IsUncancelled (numer denom : List (Formula α)) : Prop :=
  ∀ f ∈ numer, ∀ g ∈ denom, f.isSame g = false

theorem cancel_eq_or_lighter (numer denom : List (Formula α)) :
    (cancel numer denom = (numer, denom) ∧ IsUncancelled numer denom) ∨
      (weightSum (cancel numer denom).1 + weightSum (cancel numer denom).2 + 2 ≤
        weightSum numer + weightSum denom ∧ ¬ IsUncancelled numer denom) := by
  induction numer generalizing denom with
  | nil => exact .inl ⟨rfl, List.forall_mem_nil _⟩
  | cons f numer ih =>
    have hf := weight_pos f
    rw [cancel]
    split
    · next rest h =>
      obtain ⟨x, hmem, hsame, hrest⟩ := exists_weightSum_of_eraseFirst? h
      have hx := weight_pos x
      refine .inr ⟨?_, fun h => ne_true_of_eq_false (h f List.mem_cons_self x hmem) hsame⟩
      rw [weightSum_cons]
      rcases ih rest with ⟨heq, -⟩ | ⟨hlt, -⟩
      · simp only [heq]
        omega
      · omega
    · next h =>
      rcases ih denom with ⟨heq, hnone⟩ | ⟨hlt, hsome⟩
      · left
        rw [heq]
        exact ⟨rfl, List.forall_mem_cons.2 ⟨eraseFirst?_eq_none.1 h, hnone⟩⟩
      · refine .inr ⟨?_, fun h => hsome fun f hf => h f (List.mem_cons_of_mem _ hf)⟩
        simp only [weightSum_cons]
        omega

/-- Whether the quotient of the formulas is a tangent or the reciprocal of one. -/
def Formula.IsTangent (f g : Formula α) : Prop :=
  (∃ a, f = unary .sin a ∧ isFunctionOf .cos a g) ∨ ∃ a, f = unary .cos a ∧ isFunctionOf .sin a g

theorem Formula.two_le_weight_of_isFunctionOf {op : UnaryOp} {a f : Formula α}
    (hop : op ≠ .negate) (h : isFunctionOf op a f) : 2 ≤ f.weight := by
  cases f with
  | unary op' a' =>
    obtain ⟨rfl, -⟩ : op' = op ∧ a'.isSame a := by simpa [isFunctionOf] using h
    cases op' <;> simp_all [weight]
  | const | var | binary => cases h

/-- Whether no tangent can be formed. -/
def HasNoTangent (numer denom : List (Formula α)) : Prop :=
  ∀ f ∈ numer, ∀ g ∈ denom, ¬ f.IsTangent g

/-- Either no tangent can be formed, or the result `p` of forming all of them is lighter. -/
def CombinesTangents (numer denom tangents : List (Formula α))
    (p : List (Formula α) × List (Formula α)) : Prop :=
  (p = (numer ++ tangents, denom) ∧ HasNoTangent numer denom) ∨
    (weightSum p.1 + weightSum p.2 + 2 ≤ weightSum numer + weightSum denom + weightSum tangents ∧
      ¬ HasNoTangent numer denom)

theorem CombinesTangents.cons {f : Formula α} {numer denom tangents : List (Formula α)}
    {p : List (Formula α) × List (Formula α)} (hf : ∀ g ∈ denom, ¬ f.IsTangent g)
    (h : CombinesTangents numer denom tangents p) :
    CombinesTangents (f :: numer) denom tangents (f :: p.1, p.2) := by
  rcases h with ⟨rfl, hnone⟩ | ⟨hlt, hsome⟩
  · exact .inl ⟨rfl, List.forall_mem_cons.2 ⟨hf, hnone⟩⟩
  · refine .inr ⟨?_, fun h => hsome fun f hf => h f (List.mem_cons_of_mem _ hf)⟩
    simp only [weightSum_cons]
    omega

theorem combinesTangents (numer denom tangents : List (Formula α)) :
    CombinesTangents numer denom tangents (combineTangents numer denom tangents).value := by
  fun_induction combineTangents numer denom tangents with
  | case1 denom tangents => exact .inl ⟨rfl, List.forall_mem_nil _⟩
  | case2 a numer denom tangents rest hrest ih | case4 a numer denom tangents rest hrest ih =>
    obtain ⟨x, hmem, hx, hdenom⟩ := exists_weightSum_of_eraseFirst? hrest
    have hweight := two_le_weight_of_isFunctionOf (by simp) hx
    refine .inr ⟨?_, fun h => h _ List.mem_cons_self x hmem ?_⟩
    · simp only [Traced.value_bind, weightSum_cons, weight, hdenom]
      rcases ih with ⟨heq, -⟩ | ⟨hlt, -⟩
      · simp only [heq, weightSum_append, weightSum_cons, weightSum_nil, weight]
        omega
      · simp only [weightSum_append, weightSum_cons, weightSum_nil, weight] at hlt
        omega
    · first
      | exact .inl ⟨a, rfl, hx⟩
      | exact .inr ⟨a, rfl, hx⟩
  | case3 a numer denom tangents hrest ih =>
    refine ih.cons ?_
    rintro g hg (⟨b, ⟨⟩, hb⟩ | ⟨b, ⟨⟩, -⟩)
    exact ne_true_of_eq_false (eraseFirst?_eq_none.1 hrest g hg) hb
  | case5 a numer denom tangents hrest ih =>
    refine ih.cons ?_
    rintro g hg (⟨b, ⟨⟩, -⟩ | ⟨b, ⟨⟩, hb⟩)
    exact ne_true_of_eq_false (eraseFirst?_eq_none.1 hrest g hg) hb
  | case6 f numer denom tangents hsin hcos ih =>
    refine ih.cons ?_
    rintro g - (⟨b, hb, -⟩ | ⟨b, hb, -⟩)
    · exact hsin b hb
    · exact hcos b hb

omit [Scalar α] in
theorem weightSum_partition_exponentials (fs : List (Formula α)) :
    weightSum (withoutExponentials fs) + 100 * weightSum (fs.filterMap exponent?) +
      2 * (fs.filterMap exponent?).length = weightSum fs := by
  induction fs with
  | nil => rfl
  | cons f fs ih =>
    cases hf : f.exponent? with
    | none =>
      have hkeep : withoutExponentials (f :: fs) = f :: withoutExponentials fs :=
        List.filter_cons_of_pos (by simp [hf])
      rw [hkeep, List.filterMap_cons_none hf, weightSum_cons, weightSum_cons]
      omega
    | some a =>
      obtain rfl : f = unary .exp a := by
        unfold exponent? at hf
        split at hf
        · cases hf
          rfl
        · cases hf
      have hdrop : withoutExponentials (unary .exp a :: fs) = withoutExponentials fs :=
        List.filter_cons_of_neg (by simp [hf])
      rw [hdrop, List.filterMap_cons_some hf, weightSum_cons, weightSum_cons, List.length_cons,
        weight]
      omega

theorem weight_mergedExponent (fs gs : List (Formula α)) (h : 0 < fs.length + gs.length) :
    (mergedExponent fs gs).weight = weightSum fs + weightSum gs := by
  unfold mergedExponent
  split
  · have hne : gs ≠ [] := by
      rintro rfl
      simp at h
    simp [neg_eq, weight_sum hne]
  · next hne =>
    exact (weight_foldl ..).trans (by rw [weight_sum hne])

namespace Monomial

variable {m : Monomial α}

/-- All exponentials of a monomial, above and below the fraction bar. -/
def exponents (m : Monomial α) : List (Formula α) :=
  m.numer.filterMap exponent? ++ m.denom.filterMap exponent?

theorem mergeExponentials_eq_or_lighter (m : Monomial α) :
    (m.mergeExponentials.value = m ∧ m.exponents.length < 2) ∨
      (m.mergeExponentials.value.factorWeight + 2 ≤ m.factorWeight ∧ ¬ m.exponents.length < 2) := by
  rw [value_mergeExponentials]
  have hlength : m.exponents.length = (m.numer.filterMap exponent?).length +
      (m.denom.filterMap exponent?).length := List.length_append
  split
  · next h => exact .inl ⟨rfl, hlength ▸ h⟩
  · next h =>
    have hnumer := weightSum_partition_exponentials m.numer
    have hdenom := weightSum_partition_exponentials m.denom
    have hmerged := weight_mergedExponent (m.numer.filterMap exponent?)
      (m.denom.filterMap exponent?) (by omega)
    have hexp (f : Formula α) : (unary .exp f).weight = 100 * f.weight + 2 := rfl
    refine .inr ⟨?_, hlength ▸ h⟩
    simp only [factorWeight, weightSum_append, weightSum_cons, weightSum_nil, hexp, hmerged]
    omega

/-- Whether no two factors can be cancelled or merged. -/
structure IsMerged (m : Monomial α) : Prop where
  uncancelled : IsUncancelled m.numer m.denom
  tangents : HasNoTangent m.numer m.denom
  exponents : m.exponents.length < 2

theorem cancelFactors_eq_or_lighter (m : Monomial α) :
    (m.cancelFactors.value = m ∧ IsUncancelled m.numer m.denom) ∨
      (m.cancelFactors.value.factorWeight + 2 ≤ m.factorWeight ∧
        ¬ IsUncancelled m.numer m.denom) := by
  refine (cancel_eq_or_lighter m.numer m.denom).imp_left fun h => ⟨?_, h.2⟩
  exact congrArg (fun p => (⟨m.coeff, p.1, p.2⟩ : Monomial α)) h.1

theorem tangentQuotients_eq_or_lighter (m : Monomial α) :
    (m.tangentQuotients.value = m ∧ HasNoTangent m.numer m.denom) ∨
      (m.tangentQuotients.value.factorWeight + 2 ≤ m.factorWeight ∧
        ¬ HasNoTangent m.numer m.denom) := by
  refine (combinesTangents m.numer m.denom []).imp_left fun h => ⟨?_, h.2⟩
  rw [List.append_nil] at h
  exact congrArg (fun p => (⟨m.coeff, p.1, p.2⟩ : Monomial α)) h.1

/-- Factors that cannot be merged stay as they are. -/
theorem IsMerged.stages_eq {m : Monomial α} (h : m.IsMerged) :
    m.cancelFactors.value.tangentQuotients.value.mergeExponentials.value = m := by
  have hcancel := (m.cancelFactors_eq_or_lighter.resolve_right fun h' => h'.2 h.uncancelled).1
  have htangent := (m.tangentQuotients_eq_or_lighter.resolve_right fun h' => h'.2 h.tangents).1
  have hexp := (m.mergeExponentials_eq_or_lighter.resolve_right fun h' => h'.2 h.exponents).1
  rw [hcancel, htangent, hexp]

/-- A product becomes lighter if some of its factors can be merged. -/
theorem isMerged_or_lighter (m : Monomial α) : m.IsMerged ∨
    m.cancelFactors.value.tangentQuotients.value.mergeExponentials.value.factorWeight + 2 ≤
      m.factorWeight := by
  have hle {m m' : Monomial α} {p : Prop}
      (h : (m' = m ∧ p) ∨ (m'.factorWeight + 2 ≤ m.factorWeight ∧ ¬ p)) :
      m'.factorWeight ≤ m.factorWeight := by
    rcases h with ⟨rfl, -⟩ | h <;> omega
  have hexp := hle (mergeExponentials_eq_or_lighter m.cancelFactors.value.tangentQuotients.value)
  have htangent := hle (tangentQuotients_eq_or_lighter m.cancelFactors.value)
  rcases m.cancelFactors_eq_or_lighter with ⟨h₁, hcancel⟩ | ⟨h₁, -⟩
  · rw [h₁] at hexp htangent ⊢
    rcases m.tangentQuotients_eq_or_lighter with ⟨h₂, hnone⟩ | ⟨h₂, -⟩
    · rw [h₂]
      exact m.mergeExponentials_eq_or_lighter.imp (fun h => ⟨hcancel, hnone, h.2⟩) (·.1)
    · right
      omega
  · right
    omega

end Monomial

variable [LawfulScalar α]

/-! ## Stages of a sum -/

section
variable {m t : Monomial α} {terms : List (Monomial α)}

instance : Std.TransCmp (Monomial.compareFactors (α := α)) := by
  have hnumer := transCmp_on compareLists (Monomial.numer (α := α))
  have hdenom := transCmp_on compareLists (Monomial.denom (α := α))
  exact inferInstanceAs (Std.TransCmp (compareLex
    (fun a b : Monomial α => compareLists a.numer b.numer)
    (fun a b => compareLists a.denom b.denom)))

omit [LawfulScalar α] in
theorem addLikeTerms_of_distinct (h : (t :: terms).Pairwise fun a b => a.compareFactors b ≠ .eq) :
    (addLikeTerms t terms).value = t :: terms := by
  induction terms generalizing t with
  | nil => rfl
  | cons u terms ih =>
    obtain ⟨ht, h⟩ := List.pairwise_cons.1 h
    have hne : ¬ (t.compareFactors u == .eq) := fun heq =>
      ht u List.mem_cons_self (eq_of_beq heq)
    rw [addLikeTerms, if_neg hne]
    exact congrArg (t :: ·) (ih h)

/-- A term that is not like the next one comes strictly before all others. -/
theorem compareFactors_lt_of_sorted {u : Monomial α}
    (hsorted : (t :: u :: terms).Pairwise fun a b => (a.compareFactors b).isLE)
    (hne : ¬(t.compareFactors u == .eq)) : ∀ m ∈ u :: terms, t.compareFactors m = .lt := by
  obtain ⟨hle, hsorted⟩ := List.pairwise_cons.1 hsorted
  have hlt : t.compareFactors u = .lt := by
    have hle := hle u List.mem_cons_self
    cases ho : t.compareFactors u <;> simp_all
  refine List.forall_mem_cons.2 ⟨hlt, fun m hm => ?_⟩
  exact Std.TransCmp.lt_of_lt_of_isLE hlt ((List.pairwise_cons.1 hsorted).1 m hm)

theorem addLikeTerms_eq_or_lighter
    (hsorted : (t :: terms).Pairwise fun a b => (a.compareFactors b).isLE)
    (hterms : ∀ m ∈ terms, 2 ≤ m.factorWeight) :
    ((addLikeTerms t terms).value = t :: terms ∧
        (t :: terms).Pairwise fun a b => a.compareFactors b = .lt) ∨
      Monomial.totalWeight (addLikeTerms t terms).value < Monomial.totalWeight (t :: terms) := by
  induction terms generalizing t with
  | nil => exact .inl ⟨rfl, List.pairwise_singleton ..⟩
  | cons u terms ih =>
    have hbefore := compareFactors_lt_of_sorted hsorted
    obtain ⟨ht, hsorted⟩ := List.pairwise_cons.1 hsorted
    obtain ⟨hu, hterms⟩ := List.forall_mem_cons.1 hterms
    rw [addLikeTerms]
    split
    · next heq =>
      have hmerged : ({ t with coeff := t.coeff + u.coeff } :: terms).Pairwise
          fun a b => (a.compareFactors b).isLE :=
        List.pairwise_cons.2 ⟨(List.forall_mem_cons.1 ht).2, hsorted.tail⟩
      have hlt : ({ t with coeff := t.coeff + u.coeff } : Monomial α).weight <
          t.weight + u.weight := by
        have h := Monomial.weight_le { t with coeff := t.coeff + u.coeff }
        have ht := t.factorWeight_le
        have hu' := u.factorWeight_le
        change _ ≤ t.factorWeight + 1 at h
        omega
      right
      simp only [Traced.value_bind, Monomial.totalWeight_cons]
      rcases ih hmerged hterms with ⟨h, -⟩ | h
      · rw [h, Monomial.totalWeight_cons]
        omega
      · rw [Monomial.totalWeight_cons] at h
        omega
    · next hne =>
      have hlt := hbefore hne u List.mem_cons_self
      simp only [Traced.value_bind, Traced.value_pure, Monomial.totalWeight_cons]
      rcases ih hsorted hterms with ⟨h, hpairwise⟩ | h
      · left
        rw [h]
        refine ⟨rfl, List.pairwise_cons.2 ⟨?_, hpairwise⟩⟩
        intro m hm
        rcases List.mem_cons.1 hm with rfl | hm
        · exact hlt
        · exact Std.TransCmp.lt_trans hlt ((List.pairwise_cons.1 hpairwise).1 m hm)
      · right
        simp only [Monomial.totalWeight_cons] at h
        omega

theorem distinct_perm {terms' : List (Monomial α)} (hp : terms.Perm terms') :
    (terms.Pairwise fun a b => a.compareFactors b ≠ .eq) ↔
      terms'.Pairwise fun a b => a.compareFactors b ≠ .eq :=
  hp.pairwise_iff fun h heq => h (Std.OrientedCmp.eq_comm.1 heq)

theorem combineLikeTerms_perm (hcoeff : ∀ m ∈ terms, (m.coeff == 0) = false)
    (h : terms.Pairwise fun a b => a.compareFactors b ≠ .eq) :
    (combineLikeTerms terms).value.Perm terms := by
  have hp := List.mergeSort_perm terms fun a b => (a.compareFactors b).isLE
  have h := (distinct_perm hp).2 h
  have hcoeff m (hm : m ∈ terms.mergeSort fun a b => (a.compareFactors b).isLE) :
      (m.coeff == 0) = false := hcoeff m (hp.mem_iff.1 hm)
  unfold combineLikeTerms
  split
  · next heq => rwa [heq] at hp
  · next t ts heq =>
    rw [heq] at hp h hcoeff
    rw [Traced.value_bind, addLikeTerms_of_distinct h, Traced.value_pure]
    rwa [List.filter_eq_self.2 fun m hm => by rw [hcoeff m hm, Bool.not_false]]

omit [LawfulScalar α] in
theorem totalWeight_filter_lt {p : Monomial α → Bool} (hm : m ∈ terms) (hp : p m = false)
    (hweight : 0 < m.weight) :
    Monomial.totalWeight (terms.filter p) < Monomial.totalWeight terms := by
  have hparts := Monomial.totalWeight_perm (List.filter_append_perm p terms)
  have hrest : m.weight ≤ Monomial.totalWeight (terms.filter fun m => !p m) :=
    List.single_le_sum (fun _ _ => Nat.zero_le _) _
      (List.mem_map_of_mem (List.mem_filter.2 ⟨hm, by rw [hp]; rfl⟩))
  rw [Monomial.totalWeight_append] at hparts
  omega

/-- Like terms become lighter when they are added up, and terms that are zero when they are left out. -/
theorem combineLikeTerms_distinct_or_lighter (hterms : ∀ m ∈ terms, 2 ≤ m.factorWeight) :
    ((terms.Pairwise fun a b => a.compareFactors b ≠ .eq) ∧
        ∀ m ∈ terms, (m.coeff == 0) = false) ∨
      Monomial.totalWeight (combineLikeTerms terms).value < Monomial.totalWeight terms := by
  have hp := List.mergeSort_perm terms fun a b => (a.compareFactors b).isLE
  have hsorted := pairwise_mergeSort_isLE Monomial.compareFactors terms
  have hterms m (hm : m ∈ terms.mergeSort fun a b => (a.compareFactors b).isLE) :
      2 ≤ m.factorWeight := hterms m (hp.mem_iff.1 hm)
  unfold combineLikeTerms
  rw [← distinct_perm hp, ← Monomial.totalWeight_perm hp]
  split
  · next heq =>
    rw [heq] at hp ⊢
    exact .inl ⟨.nil, fun m hm => absurd (hp.mem_iff.2 hm) List.not_mem_nil⟩
  · next t ts heq =>
    rw [heq] at hp hsorted hterms ⊢
    rw [Traced.value_bind, Traced.value_pure]
    rcases addLikeTerms_eq_or_lighter hsorted (List.forall_mem_cons.1 hterms).2 with
      ⟨hvalue, hdistinct⟩ | hlt
    · rw [hvalue]
      by_cases hzero : ∀ m ∈ t :: ts, (m.coeff == 0) = false
      · exact .inl ⟨hdistinct.imp fun hlt => by simp [hlt], fun m hm => hzero m (hp.mem_iff.2 hm)⟩
      · simp only [not_forall, Bool.not_eq_false] at hzero
        obtain ⟨m, hm, h0⟩ := hzero
        have hweight := (hterms m hm).trans m.factorWeight_le
        exact .inr (totalWeight_filter_lt hm (by rw [h0]; rfl) (Nat.zero_lt_of_lt hweight))
    · refine .inr (Nat.lt_of_le_of_lt ?_ hlt)
      exact ((List.filter_sublist ..).map Monomial.weight).sum_le_sum fun _ _ => Nat.zero_le _

omit [LawfulScalar α]

/-! ### Logarithms -/

theorem weight_of_logArgument? {a : Formula α} (h : m.logArgument? = some a) :
    a.weight + 2 ≤ m.weight := by
  obtain ⟨hn, -, -⟩ := Monomial.eq_of_logArgument? h
  have hw : Formula.weightSum m.numer = a.weight + 2 := by rw [hn]; rfl
  have hle := m.factorWeight_le
  rw [Monomial.factorWeight] at hle
  omega

theorem weight_logArguments (terms : List (Monomial α)) :
    weightSum (logArguments true terms) + weightSum (logArguments false terms) +
        2 * (terms.filter (·.logArgument?.isSome)).length ≤
      Monomial.totalWeight (terms.filter (·.logArgument?.isSome)) := by
  induction terms with
  | nil => exact Nat.le_refl _
  | cons m terms ih =>
    cases hm : m.logArgument? with
    | none => simpa [logArguments, hm] using ih
    | some a =>
      have := weight_of_logArgument? hm
      cases hpos : Scalar.lt 0 m.coeff <;>
        simp [logArguments, hm, hpos] at ih ⊢ <;> omega

theorem weight_mergedLogarithm (fs gs : List (Formula α)) (h : 0 < fs.length + gs.length) :
    (mergedLogarithm fs gs).weight ≤ weightSum fs + weightSum gs + 3 := by
  have hln (v : α) (f : Formula α) :
      (⟨v, [.unary .ln f], []⟩ : Monomial α).weight ≤ f.weight + 3 := Monomial.weight_le _
  unfold mergedLogarithm
  split
  · have hne : gs ≠ [] := by
      rintro rfl
      simp at h
    simpa [weight_product hne] using hln (-1) (product gs)
  · next hne =>
    simpa [weight_product hne] using hln 1 (product fs)
  · next hf hg =>
    simpa [div_eq, weight_product hf, weight_product hg] using hln 1 (product fs / product gs)

theorem length_logArguments (terms : List (Monomial α)) :
    (logArguments true terms).length + (logArguments false terms).length =
      (terms.filter (·.logArgument?.isSome)).length := by
  induction terms with
  | nil => rfl
  | cons m terms ih =>
    cases hm : m.logArgument? with
    | none => simpa [logArguments, hm] using ih
    | some a =>
      cases hpos : Scalar.lt 0 m.coeff <;> simp [logArguments, hm, hpos] at ih ⊢ <;> omega

theorem mergeLogarithms_eq_or_lighter (terms : List (Monomial α)) :
    ((mergeLogarithms terms).value = terms ∧
        (terms.filter (·.logArgument?.isSome)).length < 2) ∨
      Monomial.totalWeight (mergeLogarithms terms).value < Monomial.totalWeight terms := by
  rw [value_mergeLogarithms]
  split
  · next h => exact .inl ⟨rfl, h⟩
  · next h =>
    have hlength := length_logArguments terms
    have hargs := weight_logArguments terms
    have hmerged := weight_mergedLogarithm (logArguments true terms)
      (logArguments false terms) (by omega)
    have hparts := Monomial.totalWeight_perm
      (List.filter_append_perm (fun m : Monomial α => m.logArgument?.isSome) terms)
    rw [Monomial.totalWeight_append] at hparts
    right
    rw [Monomial.totalWeight_append, Monomial.totalWeight_cons, Monomial.totalWeight_nil]
    omega

/-! ### Angles -/

theorem mergeWith?_eq_none {a : Monomial α} :
    mergeWith? a terms = none ↔ ∀ b ∈ terms, angleSum? a b = none := by
  induction terms with
  | nil => simp [mergeWith?]
  | cons b terms ih =>
    rw [mergeWith?]
    cases h : angleSum? a b <;> simp [h, ih]

/-- No two terms are the two sides of a sum of angles if none of them is one with a term that has
been tried. -/
theorem firstMerge?_eq_none {before : List (Monomial α)} : firstMerge? before terms = none ↔
    (∀ a ∈ terms, ∀ b ∈ before, angleSum? a b = none) ∧
      terms.Pairwise fun a b => angleSum? a b = none ∧ angleSum? b a = none := by
  induction terms generalizing before with
  | nil => simp [firstMerge?]
  | cons a terms ih =>
    have hcons : firstMerge? before (a :: terms) = none ↔
        mergeWith? a (before ++ terms) = none ∧ firstMerge? (before ++ [a]) terms = none := by
      rw [firstMerge?]
      cases mergeWith? a (before ++ terms) <;> simp
    rw [hcons, mergeWith?_eq_none, ih]
    simp only [List.forall_mem_append, List.forall_mem_cons, List.pairwise_cons,
      forall_and]
    tauto

theorem weight_of_angleSum? {a b t : Monomial α} {step : Step}
    (h : angleSum? a b = some (t, step)) : t.weight < a.weight := by
  have hlt {f g h : Formula α} (hn : a.numer = [f, g]) (hd : a.denom = [])
      (hw : h.weight < f.weight + g.weight) :
      (⟨a.coeff, [h], []⟩ : Monomial α).weight < a.weight := by
    simp only [Monomial.weight, Monomial.showsCoeff, Monomial.factorWeight, hn, hd,
      List.isEmpty_cons, weightSum_cons, weightSum_nil]
    omega
  obtain ⟨-, f, rfl, hf | hf⟩ := exists_of_angleSum? h
  · obtain ⟨x, y, u, v, hxy, -, -, -, rfl⟩ := exists_of_cosineSum? hf
    obtain ⟨hn, hd⟩ := Monomial.eq_of_functionPair? hxy
    refine hlt hn hd ?_
    split <;> simp only [Formula.weight, sub_eq] <;> omega
  · obtain ⟨q, p, p', q', hqp, -, -, -, rfl⟩ := exists_of_sineSum? hf
    obtain ⟨hn, hd⟩ := Monomial.eq_of_functionPair? hqp
    refine hlt hn hd ?_
    split <;> simp only [Formula.weight, sub_eq] <;> omega

theorem weight_of_firstMerge? {m : Merge α} (h : firstMerge? [] terms = some m) :
    Monomial.totalWeight (m.others ++ [m.term]) < Monomial.totalWeight terms := by
  obtain ⟨a, b, hab, hp⟩ := perm_of_firstMerge? h
  have hlt := weight_of_angleSum? hab
  rw [List.nil_append] at hp
  simp only [Monomial.totalWeight_perm hp, Monomial.totalWeight_append, Monomial.totalWeight_cons,
    Monomial.totalWeight_nil]
  omega

theorem weight_mergeAngleSums_le (terms : List (Monomial α)) :
    Monomial.totalWeight (mergeAngleSums terms).value ≤ Monomial.totalWeight terms := by
  fun_induction mergeAngleSums terms with
  | case1 => exact Nat.le_refl _
  | case2 terms m h _ ih => exact ih.trans (weight_of_firstMerge? h).le

theorem mergeAngleSums_of_angles
    (h : terms.Pairwise fun a b => angleSum? a b = none ∧ angleSum? b a = none) :
    (mergeAngleSums terms).value = terms := by
  rw [mergeAngleSums]
  split
  · rfl
  · next m hm =>
    rw [firstMerge?_eq_none.2 ⟨fun _ _ _ hb => absurd hb List.not_mem_nil, h⟩] at hm
    cases hm

theorem mergeAngleSums_eq_or_lighter (terms : List (Monomial α)) :
    ((mergeAngleSums terms).value = terms ∧
        terms.Pairwise fun a b => angleSum? a b = none ∧ angleSum? b a = none) ∨
      Monomial.totalWeight (mergeAngleSums terms).value < Monomial.totalWeight terms := by
  rw [mergeAngleSums]
  split
  · next h => exact .inl ⟨rfl, (firstMerge?_eq_none.1 h).2⟩
  · next m h =>
    exact .inr ((weight_mergeAngleSums_le _).trans_lt (weight_of_firstMerge? h))

/-! ### All stages -/

/-- Whether no two of the terms can be merged. -/
structure IsMergedSum (terms : List (Monomial α)) : Prop where
  distinct : terms.Pairwise fun a b => a.compareFactors b ≠ .eq
  logarithms : (terms.filter (·.logArgument?.isSome)).length < 2
  angles : terms.Pairwise fun a b => angleSum? a b = none ∧ angleSum? b a = none

theorem IsMergedSum.sublist {terms' : List (Monomial α)} (h : IsMergedSum terms)
    (hs : terms'.Sublist terms) : IsMergedSum terms' where
  distinct := h.distinct.sublist hs
  logarithms := (hs.filter _).length_le.trans_lt h.logarithms
  angles := h.angles.sublist hs

variable [LawfulScalar α]

theorem IsMergedSum.perm {terms' : List (Monomial α)} (h : IsMergedSum terms) (hp : terms.Perm terms') :
    IsMergedSum terms' where
  distinct := (distinct_perm hp).1 h.distinct
  logarithms := (hp.filter _).length_eq ▸ h.logarithms
  angles := (hp.pairwise_iff fun h => h.symm).1 h.angles

variable {ms : List (Monomial α)}

omit [LawfulScalar α] in
theorem map_sorted_eq (hsorted : ∀ m ∈ ms, m.sorted = m) :
    (ms.filter (!·.isConstant)).map Monomial.sorted = ms.filter (!·.isConstant) :=
  (List.map_congr_left fun m hm => hsorted m (List.mem_filter.1 hm).1).trans (List.map_id' _)

/-- Terms that cannot be merged stay as they are, in another order. -/
theorem mergedTerms_perm (hsorted : ∀ m ∈ ms, m.sorted = m)
    (hcoeff : ∀ m ∈ ms, m.isConstant = false → (m.coeff == 0) = false)
    (h : IsMergedSum (ms.filter (!·.isConstant))) :
    (mergedTerms ms).Perm (ms.filter (!·.isConstant)) := by
  have hcoeff : ∀ m ∈ ms.filter (!·.isConstant), (m.coeff == 0) = false := by
    intro m hm
    obtain ⟨hm, hc⟩ := List.mem_filter.1 hm
    exact hcoeff m hm (Bool.not_eq_true' _ ▸ hc)
  have hp := combineLikeTerms_perm hcoeff h.distinct
  have hlog := (value_mergeLogarithms (combineLikeTerms (ms.filter (!·.isConstant))).value).trans
    (if_pos (h.perm hp.symm).logarithms)
  have hangle := mergeAngleSums_of_angles (h.perm hp.symm).angles
  rw [mergedTerms, map_sorted_eq hsorted, hlog, hangle]
  exact hp

/-- Terms become lighter if some of them can be merged or are zero. -/
theorem mergedTerms_isMergedSum_or_lighter (hsorted : ∀ m ∈ ms, m.sorted = m)
    (hterms : ∀ m ∈ ms, m.isConstant = false → 2 ≤ m.factorWeight) :
    (IsMergedSum (ms.filter (!·.isConstant)) ∧
        ∀ m ∈ ms.filter (!·.isConstant), (m.coeff == 0) = false) ∨
      Monomial.totalWeight (mergedTerms ms) < Monomial.totalWeight (ms.filter (!·.isConstant)) := by
  have hterms : ∀ m ∈ ms.filter (!·.isConstant), 2 ≤ m.factorWeight := by
    intro m hm
    obtain ⟨hm, hc⟩ := List.mem_filter.1 hm
    exact hterms m hm (Bool.not_eq_true' _ ▸ hc)
  have hlog := mergeLogarithms_eq_or_lighter (combineLikeTerms (ms.filter (!·.isConstant))).value
  have hangle := mergeAngleSums_eq_or_lighter
    (mergeLogarithms (combineLikeTerms (ms.filter (!·.isConstant))).value).value
  rw [mergedTerms, map_sorted_eq hsorted]
  rcases combineLikeTerms_distinct_or_lighter hterms with ⟨hdistinct, hcoeff⟩ | hlt
  · have hp := combineLikeTerms_perm hcoeff hdistinct
    rw [← Monomial.totalWeight_perm hp]
    rcases hlog with ⟨hlog, hcount⟩ | hlt
    · rw [hlog] at hangle ⊢
      rcases hangle with ⟨hangle, hpairs⟩ | hlt
      · refine .inl ⟨⟨hdistinct, (hp.filter _).length_eq ▸ hcount, ?_⟩, hcoeff⟩
        exact (hp.pairwise_iff fun h => h.symm).1 hpairs
      · exact .inr hlt
    · exact .inr ((weight_mergeAngleSums_le _).trans_lt hlt)
  · right
    have hle : Monomial.totalWeight
        (mergeLogarithms (combineLikeTerms (ms.filter (!·.isConstant))).value).value ≤
          Monomial.totalWeight (combineLikeTerms (ms.filter (!·.isConstant))).value := by
      rcases hlog with ⟨hlog, -⟩ | hlt
      · rw [hlog]
      · exact hlt.le
    exact ((weight_mergeAngleSums_le _).trans hle).trans_lt hlt

end

end SymCalc
