import SymCalc.Proofs.Simplify.EqualTerms
import SymCalc.Proofs.Simplify.ReducedProduct

/-!
# Sums in order

* `Monomial.IsSummand`: whether a monomial is one term of a sum, with its factors in order;
* `Monomial.IsTerm`: whether moreover no rule for products applies to it;
* `Formula.ofTerms`: the sum of terms;
* `IsSumOrder`, `IsSumForm`: whether terms are in the order of a sum and cannot be merged.

The sum of such terms is its own normal form, and that of every sum with the same terms
(`Formula.normalizeSum_of_isSumOrder`). The formulas for terms that cannot be merged differ, so there is
only one order.
-/

namespace SymCalc

open Scalar Formula

variable {α : Type}

/-! ## Terms -/

namespace Formula

/-- Whether the formula stands in a sum as one term: it is no sum, difference or negation. -/
def isTerm : Formula α → Bool
  | unary .negate _ | binary .add _ _ | binary .sub _ _ => false
  | _ => true

theorem signedTerms_of_isTerm {f : Formula α} (h : f.isTerm) (negative : Bool) :
    f.signedTerms negative = [(negative, f)] := by
  cases f with
  | const v => rfl
  | var x => rfl
  | unary op a => cases op <;> first | rfl | cases h
  | binary op a b => cases op <;> first | rfl | cases h

theorem isTerm_of_mem_signedTerms {f g : Formula α} {b negative : Bool}
    (h : (b, g) ∈ f.signedTerms negative) : g.isTerm := by
  induction f generalizing negative with
  | const v | var x =>
    obtain ⟨-, rfl⟩ := Prod.mk.inj (List.mem_singleton.1 h)
    rfl
  | unary op a ih =>
    cases op with
    | negate => exact ih h
    | _ =>
      obtain ⟨-, rfl⟩ := Prod.mk.inj (List.mem_singleton.1 h)
      rfl
  | binary op a b iha ihb =>
    cases op with
    | add | sub => exact (List.mem_append.1 h).elim iha ihb
    | mul | div =>
      obtain ⟨-, rfl⟩ := Prod.mk.inj (List.mem_singleton.1 h)
      rfl

theorem isTerm_of_isFactor {f : Formula α} (h : f.isFactor) (hs : f.isSum = false) : f.isTerm := by
  cases f with
  | const v | var x => rfl
  | unary op a => cases op <;> first | rfl | cases h
  | binary op a b => cases op <;> first | rfl | cases hs

theorem isTerm_foldl_mul (f g : Formula α) (fs : List (Formula α)) :
    (fs.foldl (binary .mul) (binary .mul f g)).isTerm := by
  induction fs generalizing f g with
  | nil => rfl
  | cons h fs ih => exact ih (binary .mul f g) h

end Formula

variable [Scalar α]

/-- The proper values are among the constants that passes make. -/
theorem isClosed_isProper [LawfulScalar α] : IsClosed (Scalar.IsProper (α := α)) where
  isFinite _ h := h.isFinite
  ofValue v w hv h := by
    obtain ⟨u, hu, hproper, -⟩ := exists_ofValue_of_isFinite hv
    cases h.symm.trans hu
    exact hproper
  zero := isProper_zero
  one := isProper_one
  negOne := isProper_neg LawfulScalar.isFinite_one one_beq_zero
  euler := isProper_euler

namespace Monomial

variable {m : Monomial α}

omit [Scalar α] in
theorem eq_of_isConstant (h : m.isConstant) : m = ⟨m.coeff, [], []⟩ := by
  obtain ⟨c, n, d⟩ := m
  simp only [isConstant, Bool.and_eq_true, List.isEmpty_iff] at h
  rw [h.1, h.2]

theorem sorted_of_isConstant (h : m.isConstant) : m.sorted = m := by
  rw [eq_of_isConstant h]
  simp [sorted, sort]

theorem sorted_sorted [LawfulScalar α] (m : Monomial α) : m.sorted.sorted = m.sorted :=
  congrArg₂ (Monomial.mk m.coeff) (sort_of_isSorted (isSorted_sort m.numer))
    (sort_of_isSorted (isSorted_sort m.denom))

theorem isConstant_sorted (m : Monomial α) : m.sorted.isConstant = m.isConstant :=
  congrArg₂ (· && ·) (sort_perm m.numer).isEmpty_eq (sort_perm m.denom).isEmpty_eq

theorem filter_isConstant_map_sorted (ms : List (Monomial α)) :
    (ms.map sorted).filter isConstant = (ms.filter isConstant).map sorted := by
  simp only [List.filter_map, Function.comp_def, isConstant_sorted]

theorem filter_not_isConstant_map_sorted (ms : List (Monomial α)) :
    (ms.map sorted).filter (!·.isConstant) = (ms.filter (!·.isConstant)).map sorted := by
  simp only [List.filter_map, Function.comp_def, isConstant_sorted]

theorem isConstant_eq_of_compareFactors {m' : Monomial α} (h : m.compareFactors m' = .eq) :
    m.isConstant = m'.isConstant := by
  obtain ⟨hn, hd⟩ := Ordering.then_eq_eq.1 h
  have hempty {fs gs : List (Formula α)} (h : compareLists fs gs = .eq) :
      fs.isEmpty = gs.isEmpty := by
    rw [Bool.eq_iff_iff, List.isEmpty_iff_length_eq_zero, List.isEmpty_iff_length_eq_zero,
      (compareLists_eq_iff.1 h).length_eq]
  rw [isConstant, isConstant, hempty hn, hempty hd]

/-- Whether the monomial is not zero, its factors are in order, and it is not a sum or the negation of
one. -/
structure IsSummand (m : Monomial α) : Prop where
  isFinite : isFinite m.coeff
  ne_zero : (m.coeff == 0) = false
  isFactor : ∀ f ∈ m.numer ++ m.denom, f.isFactor
  sorted : m.sorted = m
  not_isSum : ∀ s, m.numer = [s] → m.denom = [] → s.isSum → m.showsCoeff

/-- Whether no rule for products applies to the monomial, and it is not a sum or the negation of
one. -/
structure IsTerm (m : Monomial α) : Prop where
  isReduced : m.IsReduced
  sorted : m.sorted = m
  isProper : ∀ f ∈ m.numer ++ m.denom, f.IsProper
  not_isSum : ∀ s, m.numer = [s] → m.denom = [] → s.isSum → m.showsCoeff

theorem IsTerm.isSummand (h : m.IsTerm) : m.IsSummand :=
  ⟨h.isReduced.isFinite, h.isReduced.ne_zero, h.isReduced.isFactor, h.sorted, h.not_isSum⟩

theorem IsSummand.isProper (h : m.IsSummand) : IsProper m.coeff :=
  isProper_of_ne_zero h.isFinite h.ne_zero

variable [LawfulScalar α]

theorem showsCoeff_negated (m : Monomial α) : m.negated.showsCoeff = m.showsCoeff := by
  change (m.numer.isEmpty || !(-m.coeff == 1 || -m.coeff == -1)) = m.showsCoeff
  rw [neg_beq_one, neg_beq_neg_one, Bool.or_comm (m.coeff == -1), showsCoeff]

theorem weight_negated (m : Monomial α) : m.negated.weight = m.weight := by
  rw [weight, showsCoeff_negated]
  rfl

@[simp] theorem negated_negated (m : Monomial α) : m.negated.negated = m := by
  simp [negated]

theorem map_negated_map_negated (ms : List (Monomial α)) :
    (ms.map negated).map negated = ms := by
  simp [Function.comp_def]

theorem IsReduced.negated (h : m.IsReduced) : m.negated.IsReduced where
  isFinite := (LawfulScalar.isFinite_neg m.coeff).trans h.isFinite
  ne_zero := (neg_beq_zero h.isFinite).trans h.ne_zero
  isFactor := h.isFactor
  isMerged := ⟨h.isMerged.uncancelled, h.isMerged.tangents, h.isMerged.exponents⟩

theorem IsTerm.negated (h : m.IsTerm) : m.negated.IsTerm where
  isReduced := h.isReduced.negated
  sorted := congrArg Monomial.negated h.sorted
  isProper := h.isProper
  not_isSum s hn hd hs := (showsCoeff_negated m).trans (h.not_isSum s hn hd hs)

theorem IsSummand.negated (h : m.IsSummand) : m.negated.IsSummand where
  isFinite := (LawfulScalar.isFinite_neg m.coeff).trans h.isFinite
  ne_zero := (neg_beq_zero h.isFinite).trans h.ne_zero
  isFactor := h.isFactor
  sorted := congrArg Monomial.negated h.sorted
  not_isSum s hn hd hs := (showsCoeff_negated m).trans (h.not_isSum s hn hd hs)

theorem IsSummand.of?_toFormula (h : m.IsSummand) : of? m.toFormula = some m :=
  Monomial.of?_toFormula h.isProper h.isFactor

/-- The formulas for terms with different factors differ. -/
theorem IsSummand.compareFactors_eq {m' : Monomial α} (h : m.IsSummand) (h' : m'.IsSummand)
    (heq : m.toFormula == m'.toFormula) : m.compareFactors m' = .eq := by
  obtain ⟨-, -, hm⟩ := eq_of_ofPieces? h.of?_toFormula
  obtain ⟨-, -, hm'⟩ := eq_of_ofPieces? h'.of?_toFormula
  rw [hm, hm']
  exact Ordering.then_eq_eq.2 ⟨compareLists_eq_iff.2 (forall₂_factors heq false false),
    compareLists_eq_iff.2 (forall₂_factors heq false true)⟩

theorem coeff_beq_neg_one_of_pos (hpos : lt 0 m.coeff) : (m.coeff == -1) = false := by
  refine eq_false_of_ne_true fun h => ?_
  rw [eq_neg_one_of_beq h, LawfulScalar.zero_lt_neg,
    lt_zero_eq_false_of_pos LawfulScalar.zero_lt_one LawfulScalar.isFinite_one] at hpos
  cases hpos

/-- The formula for a positive term is one term. -/
theorem IsSummand.isTerm_toFormula (h : m.IsSummand) (hpos : lt 0 m.coeff) : m.toFormula.isTerm := by
  have hneg := coeff_beq_neg_one_of_pos hpos
  unfold toFormula
  split
  · next hd =>
    unfold numerator
    split
    · rw [ofValue_of_isProper h.isProper]
      rfl
    · next hne =>
      split
      · next h1 =>
        cases hn : m.numer with
        | nil => exact absurd hn hne
        | cons f fs =>
          cases fs with
          | nil =>
            have hfactor := h.isFactor f (by simp [hn])
            have hsum : f.isSum = false := by
              refine eq_false_of_ne_true fun hs => ?_
              have hshows := h.not_isSum f hn hd hs
              simp [showsCoeff, hn, h1] at hshows
            exact isTerm_of_isFactor hfactor hsum
          | cons g fs => exact isTerm_foldl_mul f g fs
      · rw [if_neg (ne_true_of_eq_false hneg)]
        cases hn : m.numer with
        | nil => exact absurd hn hne
        | cons f fs => exact isTerm_foldl_mul (ofValue m.coeff) f fs
  · rfl

end Monomial

/-! ## Sums of terms -/

/-- A negative term, by its magnitude and as it is. -/
def Monomial.subtrahend (m : Monomial α) : Formula α × Formula α := (m.negated.toFormula, m.toFormula)

/-- The sum of positive and of negative terms. -/
def Formula.ofTerms (ps ns : List (Monomial α)) : Formula α :=
  subtractAll (ps.map Monomial.toFormula) (ns.map Monomial.subtrahend)

variable {ps ns : List (Monomial α)} {m : Monomial α}

theorem subtractAll_of_ne_nil {fs : List (Formula α)} (h : fs ≠ [])
    (gs : List (Formula α × Formula α)) :
    subtractAll fs gs = gs.foldl (fun f term => f - term.1) (sum fs) := by
  unfold subtractAll
  split
  · exact absurd rfl h
  · exact absurd rfl h
  · exact absurd rfl h
  · rfl

theorem ofTerms_of_ne_nil (h : ps ≠ []) (ns : List (Monomial α)) : ofTerms ps ns =
    (ns.map Monomial.subtrahend).foldl (fun f term => f - term.1)
      (sum (ps.map Monomial.toFormula)) :=
  subtractAll_of_ne_nil (by simpa using h) _

theorem ofTerms_singleton (m : Monomial α) : ofTerms [m] [] = m.toFormula := rfl

theorem ofTerms_append_positive (h : ps ≠ []) (m : Monomial α) :
    ofTerms (ps ++ [m]) [] = ofTerms ps [] + m.toFormula := by
  cases ps with
  | nil => exact absurd rfl h
  | cons p ps =>
    rw [ofTerms_of_ne_nil h, ofTerms_of_ne_nil (by simp)]
    simp [sum, List.foldl_append]

theorem ofTerms_append_negative (h : ps ≠ []) (ns : List (Monomial α)) (m : Monomial α) :
    ofTerms ps (ns ++ [m]) = ofTerms ps ns - m.negated.toFormula := by
  rw [ofTerms_of_ne_nil h, ofTerms_of_ne_nil h, List.map_append, List.foldl_append]
  rfl

theorem ofTerms_nil (h : 2 ≤ ns.length) :
    ofTerms [] ns = -ofTerms (ns.map Monomial.negated) [] := by
  rcases ns with _ | ⟨m, _ | ⟨m', ns⟩⟩
  · simp at h
  · simp at h
  · simp [ofTerms, subtractAll, Monomial.subtrahend, Function.comp_def]

/-! ### The terms of a sum of terms -/

theorem signedTerms_ofTerms_of_ne_nil (hne : ps ≠ []) (hp : ∀ m ∈ ps, m.toFormula.isTerm)
    (hn : ∀ m ∈ ns, m.negated.toFormula.isTerm) (negative : Bool) :
    (ofTerms ps ns).signedTerms negative =
      ps.map (fun m => (negative, m.toFormula)) ++
        ns.map fun m => (!negative, m.negated.toFormula) := by
  induction ns using List.reverseRecOn with
  | nil =>
    induction ps using List.reverseRecOn with
    | nil => exact absurd rfl hne
    | append_singleton ps m ih =>
      have hm := signedTerms_of_isTerm (hp m (by simp)) negative
      have hp m (h : m ∈ ps) := hp m (List.mem_append_left _ h)
      by_cases hps : ps = []
      · subst hps
        simpa [ofTerms_singleton] using hm
      · simp [ofTerms_append_positive hps, add_eq, signedTerms, ih hps hp, hm]
  | append_singleton ns m ih =>
    have hm := signedTerms_of_isTerm (hn m (by simp)) (!negative)
    have hn m (h : m ∈ ns) := hn m (List.mem_append_left _ h)
    simp [ofTerms_append_negative hne, sub_eq, signedTerms, ih hn, hm]

theorem signedTerms_ofTerms (hlength : ps = [] → 2 ≤ ns.length)
    (hp : ∀ m ∈ ps, m.toFormula.isTerm) (hn : ∀ m ∈ ns, m.negated.toFormula.isTerm)
    (negative : Bool) :
    (ofTerms ps ns).signedTerms negative =
      ps.map (fun m => (negative, m.toFormula)) ++
        ns.map fun m => (!negative, m.negated.toFormula) := by
  by_cases hps : ps = []
  · subst hps
    have hpos : 0 < (ns.map Monomial.negated).length := by
      rw [List.length_map]
      exact Nat.zero_lt_of_lt (hlength rfl)
    have hne := List.ne_nil_of_length_pos hpos
    rw [ofTerms_nil (hlength rfl), neg_eq, signedTerms,
      signedTerms_ofTerms_of_ne_nil hne (by simpa using hn) (by simp)]
    simp [Function.comp_def]
  · exact signedTerms_ofTerms_of_ne_nil hps hp hn negative

variable [LawfulScalar α]

/-! ## Signs -/

theorem Monomial.logArgument?_negated (hv : isFinite m.coeff) (h0 : (m.coeff == 0) = false) :
    m.negated.logArgument? = m.logArgument? := by
  simp only [logArgument?, Monomial.negated, magnitude_neg hv h0]

theorem angleSum?_negated {a b : Monomial α} (ha : isFinite a.coeff ∧ (a.coeff == 0) = false)
    (hb : isFinite b.coeff ∧ (b.coeff == 0) = false) (h : angleSum? a b = none) :
    angleSum? a.negated b.negated = none := by
  have hcosine : cosineSum? a.negated b.negated = cosineSum? a b := by
    simp [cosineSum?, Monomial.negated, Monomial.functionPair?]
  have hsine : sineSum? a.negated b.negated = sineSum? a b := by
    simp [sineSum?, Monomial.negated, Monomial.functionPair?]
  unfold angleSum? at h ⊢
  rw [hcosine, hsine]
  change (if magnitude (-a.coeff) == magnitude (-b.coeff) then _ else _) = none
  rw [magnitude_neg ha.1 ha.2, magnitude_neg hb.1 hb.2]
  split
  · next hm =>
    rw [if_pos hm] at h
    revert h
    cases cosineSum? a b <;> cases sineSum? a b <;> simp
  · rfl

theorem IsMergedSum.negated {terms : List (Monomial α)}
    (hcoeff : ∀ m ∈ terms, isFinite m.coeff ∧ (m.coeff == 0) = false) (h : IsMergedSum terms) :
    IsMergedSum (terms.map Monomial.negated) where
  distinct := List.pairwise_map.2 h.distinct
  logarithms := by
    have hfilter : terms.filter (·.negated.logArgument?.isSome) =
        terms.filter (·.logArgument?.isSome) := List.filter_congr fun m hm => by
      rw [Monomial.logArgument?_negated (hcoeff m hm).1 (hcoeff m hm).2]
    rw [List.filter_map, List.length_map]
    exact hfilter ▸ h.logarithms
  angles := by
    refine List.pairwise_map.2 (h.angles.imp_of_mem fun ha hb hab => ?_)
    exact ⟨angleSum?_negated (hcoeff _ ha) (hcoeff _ hb) hab.1,
      angleSum?_negated (hcoeff _ hb) (hcoeff _ ha) hab.2⟩

/-! ## Sums in order -/

/-- Whether a term comes before another one of the same sign. A constant comes first. -/
def Monomial.Precedes (a b : Monomial α) : Prop :=
  a.isConstant ∨ (b.isConstant = false ∧ (a.toFormula.compare b.toFormula).isLE)

/-- Whether `ps` and `ns` are the positive and the negative terms of a sum, in order, no two of which
can be merged. -/
structure IsSumOrder (ps ns : List (Monomial α)) : Prop where
  isSummand : ∀ m ∈ ps ++ ns, m.IsSummand
  positive : ∀ m ∈ ps, lt 0 m.coeff
  negative : ∀ m ∈ ns, lt m.coeff 0
  merged : IsMergedSum ((ps ++ ns).filter (!·.isConstant))
  constants : ((ps ++ ns).filter Monomial.isConstant).length ≤ 1
  sorted_positive : ps.Pairwise Monomial.Precedes
  sorted_negative : (ns.map Monomial.negated).Pairwise Monomial.Precedes

/-- Whether moreover no rule for products applies to any of the terms. -/
structure IsSumForm (ps ns : List (Monomial α)) : Prop extends IsSumOrder ps ns where
  isTerm : ∀ m ∈ ps ++ ns, m.IsTerm
  isSummand := fun m hm => (isTerm m hm).isSummand

omit [LawfulScalar α] in
theorem assemble_def (constant : α) (terms : List (Monomial α)) : assemble constant terms =
    let positive := sort ((terms.filter fun m => lt 0 m.coeff).map Monomial.toFormula)
    let negative := ((terms.filter fun m => lt m.coeff 0).map Monomial.subtrahend).mergeSort
      fun a b => (a.1.compare b.1).isLE
    if lt 0 constant then subtractAll (ofValue constant :: positive) negative
    else if lt constant 0 then
      subtractAll positive ((ofValue (-constant), ofValue constant) :: negative)
    else subtractAll positive negative := rfl

namespace IsSumOrder

omit [LawfulScalar α] in
theorem sublist {ps' ns' : List (Monomial α)} (h : IsSumOrder ps ns) (hp : ps'.Sublist ps)
    (hn : ns'.Sublist ns) : IsSumOrder ps' ns' where
  isSummand m hm := h.isSummand m ((hp.append hn).mem hm)
  positive m hm := h.positive m (hp.mem hm)
  negative m hm := h.negative m (hn.mem hm)
  merged := h.merged.sublist ((hp.append hn).filter _)
  constants := (((hp.append hn).filter _).length_le).trans h.constants
  sorted_positive := h.sorted_positive.sublist hp
  sorted_negative := h.sorted_negative.sublist (hn.map _)

/-- The opposite of a sum in order. -/
theorem negated (h : IsSumOrder ps ns) :
    IsSumOrder (ns.map Monomial.negated) (ps.map Monomial.negated) where
  isSummand m hm := by
    rw [← List.map_append] at hm
    obtain ⟨m, hmem, rfl⟩ := List.mem_map.1 hm
    exact (h.isSummand m (List.perm_append_comm.mem_iff.1 hmem)).negated
  positive m hm := by
    obtain ⟨m, hmem, rfl⟩ := List.mem_map.1 hm
    exact (LawfulScalar.zero_lt_neg m.coeff).trans (h.negative m hmem)
  negative m hm := by
    obtain ⟨m, hmem, rfl⟩ := List.mem_map.1 hm
    exact (lt_neg_zero m.coeff).trans (h.positive m hmem)
  merged := by
    have hmap : ((ns ++ ps).map Monomial.negated).filter (!·.isConstant) =
        ((ns ++ ps).filter (!·.isConstant)).map Monomial.negated := List.filter_map ..
    rw [← List.map_append, hmap]
    refine IsMergedSum.negated ?_ (h.merged.perm (List.perm_append_comm.filter _))
    intro m hm
    have hterm := h.isSummand m (List.perm_append_comm.mem_iff.1 (List.mem_filter.1 hm).1)
    exact ⟨hterm.isFinite, hterm.ne_zero⟩
  constants := by
    have hmap : ((ns ++ ps).map Monomial.negated).filter Monomial.isConstant =
        ((ns ++ ps).filter Monomial.isConstant).map Monomial.negated := List.filter_map ..
    rw [← List.map_append, hmap, List.length_map]
    exact (List.perm_append_comm.filter _).length_eq.trans_le h.constants
  sorted_positive := h.sorted_negative
  sorted_negative := by simpa [Function.comp_def] using h.sorted_positive

omit [LawfulScalar α] in
theorem map_sorted {ms : List (Monomial α)} (h : IsSumOrder ps ns) (hp : ms.Perm (ps ++ ns)) :
    ms.map Monomial.sorted = ms :=
  (List.map_congr_left fun m hm => (h.isSummand m (hp.mem_iff.1 hm)).sorted).trans (List.map_id _)

/-! ### The normal form -/

omit [LawfulScalar α] in
theorem filter_isConstant_append {terms : List (Monomial α)}
    (h : terms.Pairwise Monomial.Precedes) :
    terms.filter Monomial.isConstant ++ terms.filter (!·.isConstant) = terms := by
  induction terms with
  | nil => rfl
  | cons m terms ih =>
    obtain ⟨hm, h⟩ := List.pairwise_cons.1 h
    cases hc : m.isConstant with
    | true => simp [hc, ih h]
    | false =>
      have hterms : ∀ t ∈ terms, t.isConstant = false := by
        intro t ht
        rcases hm t ht with hm | ⟨ht, -⟩
        · rw [hc] at hm
          cases hm
        · exact ht
      have hnil : terms.filter Monomial.isConstant = [] := by simpa using hterms
      have hself : terms.filter (!·.isConstant) = terms := by simpa using hterms
      simp [hc, hnil, hself]

/-- The positive terms are those that are added. -/
theorem filter_pos (h : IsSumOrder ps ns) :
    ((ps ++ ns).filter (!·.isConstant)).filter (fun m => lt 0 m.coeff) =
      ps.filter (!·.isConstant) := by
  have hpos : (ps.filter (!·.isConstant)).filter (fun m => lt 0 m.coeff) =
      ps.filter (!·.isConstant) :=
    List.filter_eq_self.2 fun m hm => h.positive m (List.mem_filter.1 hm).1
  have hneg : (ns.filter (!·.isConstant)).filter (fun m => lt 0 m.coeff) = [] := by
    refine List.filter_eq_nil_iff.2 fun m hm => ?_
    have hm := (List.mem_filter.1 hm).1
    have hfin := (h.isSummand m (List.mem_append_right _ hm)).isFinite
    exact ne_true_of_eq_false (zero_lt_eq_false_of_neg (h.negative m hm) hfin)
  rw [List.filter_append, List.filter_append, hpos, hneg, List.append_nil]

theorem filter_neg (h : IsSumOrder ps ns) :
    ((ps ++ ns).filter (!·.isConstant)).filter (fun m => lt m.coeff 0) =
      ns.filter (!·.isConstant) := by
  have hpos : (ps.filter (!·.isConstant)).filter (fun m => lt m.coeff 0) = [] := by
    refine List.filter_eq_nil_iff.2 fun m hm => ?_
    have hm := (List.mem_filter.1 hm).1
    have hfin := (h.isSummand m (List.mem_append_left _ hm)).isFinite
    exact ne_true_of_eq_false (lt_zero_eq_false_of_pos (h.positive m hm) hfin)
  have hneg : (ns.filter (!·.isConstant)).filter (fun m => lt m.coeff 0) =
      ns.filter (!·.isConstant) :=
    List.filter_eq_self.2 fun m hm => h.negative m (List.mem_filter.1 hm).1
  rw [List.filter_append, List.filter_append, hpos, hneg, List.nil_append]

omit [LawfulScalar α] in
theorem isSorted_of_precedes {terms : List (Monomial α)} (h : terms.Pairwise Monomial.Precedes) :
    IsSorted ((terms.filter (!·.isConstant)).map Monomial.toFormula) := by
  refine List.pairwise_map.2 ((h.sublist List.filter_sublist).imp_of_mem fun ha _ hab => ?_)
  rcases hab with hc | ⟨-, hle⟩
  · have ha := (List.mem_filter.1 ha).2
    rw [hc] at ha
    cases ha
  · exact hle

/-- Two of the terms have equal factors only if they are the same. -/
theorem eq_of_compareFactors {m m' : Monomial α} (h : IsSumOrder ps ns)
    (hm : m ∈ (ps ++ ns).filter (!·.isConstant)) (hm' : m' ∈ (ps ++ ns).filter (!·.isConstant))
    (heq : m.compareFactors m' = .eq) : m = m' := by
  have : Std.Symm fun m m' : Monomial α => m.compareFactors m' = .eq → m = m' :=
    ⟨fun m m' hmm' heq => (hmm' (Std.OrientedCmp.eq_symm heq)).symm⟩
  exact List.Pairwise.forall_of_forall (R := fun m m' : Monomial α => m.compareFactors m' = .eq → m = m')
    (fun _ _ _ => rfl) (h.merged.distinct.imp fun hne heq => absurd heq hne) hm hm' heq

/-- The terms that are added, in order. -/
theorem sort_positive {terms : List (Monomial α)} (h : IsSumOrder ps ns)
    (hp : terms.Perm ((ps ++ ns).filter (!·.isConstant))) :
    sort ((terms.filter fun m => lt 0 m.coeff).map Monomial.toFormula) =
      (ps.filter (!·.isConstant)).map Monomial.toFormula := by
  have hperm := (sort_perm _).trans (((hp.filter fun m => lt 0 m.coeff).trans
    (.of_eq h.filter_pos)).map Monomial.toFormula)
  have hterm {m : Monomial α} (hm : m ∈ ps.filter (!·.isConstant)) :
      m ∈ (ps ++ ns).filter (!·.isConstant) ∧ m.IsSummand := by
    obtain ⟨hm, hc⟩ := List.mem_filter.1 hm
    have hm := List.mem_append_left ns hm
    exact ⟨List.mem_filter.2 ⟨hm, hc⟩, h.isSummand m hm⟩
  refine hperm.eq_of_pairwise ?_ (isSorted_sort _) (isSorted_of_precedes h.sorted_positive)
  intro f g hf hg hfg hgf
  obtain ⟨m, hm, rfl⟩ := List.mem_map.1 (hperm.mem_iff.1 hf)
  obtain ⟨m', hm', rfl⟩ := List.mem_map.1 hg
  have heq := (hterm hm).2.compareFactors_eq (hterm hm').2
    (beq_iff.2 (Std.OrientedCmp.isLE_antisymm hfg hgf))
  rw [h.eq_of_compareFactors (hterm hm).1 (hterm hm').1 heq]

/-- The terms that are subtracted, in order. -/
theorem sort_negative {terms : List (Monomial α)} (h : IsSumOrder ps ns)
    (hp : terms.Perm ((ps ++ ns).filter (!·.isConstant))) :
    ((terms.filter fun m => lt m.coeff 0).map Monomial.subtrahend).mergeSort
        (fun a b => (a.1.compare b.1).isLE) =
      (ns.filter (!·.isConstant)).map Monomial.subtrahend := by
  have hperm := (List.mergeSort_perm _ fun a b => (a.1.compare b.1).isLE).trans
    (((hp.filter fun m => lt m.coeff 0).trans (.of_eq h.filter_neg)).map Monomial.subtrahend)
  have hterm {m : Monomial α} (hm : m ∈ ns.filter (!·.isConstant)) :
      m ∈ (ps ++ ns).filter (!·.isConstant) ∧ m.IsSummand := by
    obtain ⟨hm, hc⟩ := List.mem_filter.1 hm
    have hm := List.mem_append_right ps hm
    exact ⟨List.mem_filter.2 ⟨hm, hc⟩, h.isSummand m hm⟩
  have hsorted : ((ns.filter (!·.isConstant)).map Monomial.subtrahend).Pairwise
      fun a b => (a.1.compare b.1).isLE := by
    have hs := isSorted_of_precedes h.sorted_negative
    have hfilter : (ns.map Monomial.negated).filter (!·.isConstant) =
        (ns.filter (!·.isConstant)).map Monomial.negated := List.filter_map ..
    rw [hfilter] at hs
    exact List.pairwise_map.2 (List.pairwise_map.1 (List.pairwise_map.1 hs))
  have htrans := transCmp_on Formula.compare (Prod.fst : Formula α × Formula α → Formula α)
  refine hperm.eq_of_pairwise ?_
    (pairwise_mergeSort_isLE (fun a b : Formula α × Formula α => a.1.compare b.1) _) hsorted
  intro a b ha hb hab hba
  obtain ⟨m, hm, rfl⟩ := List.mem_map.1 (hperm.mem_iff.1 ha)
  obtain ⟨m', hm', rfl⟩ := List.mem_map.1 hb
  have heq := (hterm hm).2.negated.compareFactors_eq (hterm hm').2.negated
    (beq_iff.2 (Std.OrientedCmp.isLE_antisymm hab hba))
  rw [h.eq_of_compareFactors (hterm hm).1 (hterm hm').1 heq]

theorem filter_isConstant_append_negative (h : IsSumOrder ps ns) :
    ns.filter Monomial.isConstant ++ ns.filter (!·.isConstant) = ns := by
  have hns := congrArg (List.map Monomial.negated) (filter_isConstant_append h.sorted_negative)
  rwa [List.filter_map, List.filter_map, ← List.map_append, Monomial.map_negated_map_negated,
    Monomial.map_negated_map_negated] at hns

omit [LawfulScalar α] in
/-- A sum in order has no constant, or one that is added or subtracted. -/
theorem constants_cases (h : IsSumOrder ps ns) :
    (ps.filter Monomial.isConstant = [] ∧ ns.filter Monomial.isConstant = []) ∨
      (∃ k, ps.filter Monomial.isConstant = [k] ∧ ns.filter Monomial.isConstant = []) ∨
      ∃ k, ps.filter Monomial.isConstant = [] ∧ ns.filter Monomial.isConstant = [k] := by
  have hlength := h.constants
  rw [List.filter_append, List.length_append] at hlength
  generalize ps.filter Monomial.isConstant = ks, ns.filter Monomial.isConstant = ls at hlength
  cases ks with
  | nil =>
    cases ls with
    | nil => exact .inl ⟨rfl, rfl⟩
    | cons l ls =>
      obtain rfl : ls = [] := List.eq_nil_of_length_eq_zero (by simpa using hlength)
      exact .inr (.inr ⟨l, rfl, rfl⟩)
  | cons k ks =>
    rw [List.length_cons] at hlength
    obtain rfl : ks = [] := List.eq_nil_of_length_eq_zero (by omega)
    obtain rfl : ls = [] := List.eq_nil_of_length_eq_zero (by omega)
    exact .inr (.inl ⟨k, rfl, rfl⟩)

/-- The constant of a sum in order, and the other terms in any order, make the sum. -/
theorem assemble_eq {terms : List (Monomial α)} (h : IsSumOrder ps ns)
    (hp : terms.Perm ((ps ++ ns).filter (!·.isConstant))) :
    assemble (constantPart (ps ++ ns)) terms = ofTerms ps ns := by
  have hps := filter_isConstant_append h.sorted_positive
  have hns := h.filter_isConstant_append_negative
  have hfold {k : Monomial α} (hk : k ∈ ps ++ ns) : 0 + k.coeff = k.coeff :=
    have hproper := (h.isSummand k hk).isProper
    LawfulScalar.zero_add hproper.isFinite hproper.eq_zero
  rw [assemble_def, constantPart, List.filter_append, h.sort_positive hp, h.sort_negative hp]
  rcases h.constants_cases with ⟨hpc, hnc⟩ | ⟨k, hpc, hnc⟩ | ⟨k, hpc, hnc⟩
  · rw [hpc, List.nil_append] at hps
    rw [hnc, List.nil_append] at hns
    simp [hpc, hnc, hps, hns, ofTerms]
  · obtain ⟨hk, hconst⟩ := List.mem_filter.1 (hpc ▸ List.mem_singleton.2 rfl)
    have hmem := List.mem_append_left ns hk
    have hpos := h.positive k hk
    have hformula : k.toFormula = ofValue k.coeff := by
      rw [Monomial.eq_of_isConstant hconst]
      rfl
    rw [hpc, List.singleton_append] at hps
    rw [hnc, List.nil_append] at hns
    simp only [hpc, hnc, List.append_nil, List.foldl_cons, List.foldl_nil, hfold hmem, hns, hpos,
      if_true]
    rw [ofTerms, ← hps, List.map_cons, hformula, hps]
  · obtain ⟨hk, hconst⟩ := List.mem_filter.1 (hnc ▸ List.mem_singleton.2 rfl)
    have hmem := List.mem_append_right ps hk
    have hneg := h.negative k hk
    have hpos := zero_lt_eq_false_of_neg hneg (h.isSummand k hmem).isFinite
    have hpair : k.subtrahend = (ofValue (-k.coeff), ofValue k.coeff) := by
      rw [Monomial.eq_of_isConstant hconst]
      rfl
    rw [hpc, List.nil_append] at hps
    rw [hnc, List.singleton_append] at hns
    simp only [hpc, hnc, List.nil_append, List.foldl_cons, List.foldl_nil, hfold hmem, hps, hpos,
      hneg, if_true, Bool.false_eq_true, if_false]
    rw [ofTerms, ← hns, List.map_cons, hpair, hns]

end IsSumOrder

omit [LawfulScalar α] in
theorem eq_of_perm_of_length_le_one {β : Type} {xs ys : List β} (hp : xs.Perm ys)
    (h : ys.length ≤ 1) : xs = ys := by
  rcases ys with _ | ⟨y, _ | ⟨z, ys⟩⟩
  · exact hp.eq_nil
  · exact hp.eq_singleton
  · simp at h

namespace Formula

omit [LawfulScalar α] in
theorem constantPart_map_sorted (ms : List (Monomial α)) :
    constantPart (ms.map Monomial.sorted) = constantPart ms := by
  rw [constantPart, constantPart, Monomial.filter_isConstant_map_sorted, List.foldl_map]
  rfl

theorem mergedTerms_map_sorted (ms : List (Monomial α)) :
    mergedTerms (ms.map Monomial.sorted) = mergedTerms ms := by
  have hsorted : Monomial.sorted ∘ Monomial.sorted = (Monomial.sorted : Monomial α → Monomial α) :=
    funext Monomial.sorted_sorted
  rw [mergedTerms, mergedTerms, Monomial.filter_not_isConstant_map_sorted, List.map_map, hsorted]

/-- Terms that cannot be merged are put in order, and so are their factors. -/
theorem normalizeSum_of_isSumOrder {f : Formula α} {ms : List (Monomial α)}
    (hms : (f.signedTerms false).mapM Monomial.ofTerm? = some ms)
    (hp : (ms.map Monomial.sorted).Perm (ps ++ ns)) (h : IsSumOrder ps ns) :
    f.normalizeSum.value = ofTerms ps ns := by
  have hterm m (hm : m ∈ ms.map Monomial.sorted) : m.IsSummand := h.isSummand m (hp.mem_iff.1 hm)
  have hmerged := mergedTerms_perm (fun m hm => (hterm m hm).sorted)
    (fun m hm _ => (hterm m hm).ne_zero) (h.merged.perm (hp.filter _).symm)
  rw [mergedTerms_map_sorted] at hmerged
  have hconstant : constantPart ms = constantPart (ps ++ ns) := by
    rw [← constantPart_map_sorted, constantPart, constantPart,
      eq_of_perm_of_length_le_one (hp.filter _) h.constants]
  have hfin : isFinite (constantPart (ps ++ ns)) := by
    have hconstants := h.constants
    rw [constantPart]
    rcases hfilter : (ps ++ ns).filter Monomial.isConstant with _ | ⟨k, _ | ⟨k', ks⟩⟩
    · exact LawfulScalar.isFinite_zero (α := α)
    · have hk := (List.mem_filter.1 (hfilter ▸ List.mem_singleton.2 rfl)).1
      have hproper := (h.isSummand k hk).isProper
      rw [List.foldl_cons, List.foldl_nil, LawfulScalar.zero_add hproper.isFinite hproper.eq_zero]
      exact hproper.isFinite
    · simp [hfilter] at hconstants
  have hall : (mergedTerms ms).all (isFinite ·.coeff) := by
    rw [List.all_eq_true]
    intro m hm
    exact (hterm m (List.mem_filter.1 (hmerged.mem_iff.1 hm)).1).isFinite
  rw [normalizeSum_of_mapM hms, hconstant, hfin, hall, Bool.and_self, if_pos rfl]
  exact h.assemble_eq (hmerged.trans (hp.filter _))

/-- Terms that cannot be merged are put in order. -/
theorem normalizeSum_of_isSumForm {f : Formula α} {ms : List (Monomial α)}
    (hms : (f.signedTerms false).mapM Monomial.ofTerm? = some ms) (hp : ms.Perm (ps ++ ns))
    (h : IsSumForm ps ns) : f.normalizeSum.value = ofTerms ps ns :=
   normalizeSum_of_isSumOrder hms ((h.map_sorted hp).symm ▸ hp) h.toIsSumOrder

end Formula

namespace IsSumForm

omit [LawfulScalar α] in
theorem sublist {ps' ns' : List (Monomial α)} (h : IsSumForm ps ns) (hp : ps'.Sublist ps)
    (hn : ns'.Sublist ns) : IsSumForm ps' ns' where
  toIsSumOrder := h.toIsSumOrder.sublist hp hn
  isTerm m hm := h.isTerm m ((hp.append hn).mem hm)

theorem negated (h : IsSumForm ps ns) :
    IsSumForm (ns.map Monomial.negated) (ps.map Monomial.negated) where
  toIsSumOrder := h.toIsSumOrder.negated
  isTerm m hm := by
    rw [← List.map_append] at hm
    obtain ⟨m, hmem, rfl⟩ := List.mem_map.1 hm
    exact (h.isTerm m (List.perm_append_comm.mem_iff.1 hmem)).negated

end IsSumForm

end SymCalc
