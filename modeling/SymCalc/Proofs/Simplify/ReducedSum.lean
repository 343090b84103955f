import SymCalc.Proofs.Simplify.SumForm

/-!
# Reduced sums

* `Formula.IsTermForm`: whether a formula is a term of a sum as the normal forms of products are;
* `Monomial.arrange`: terms in the order of a sum.

The normal form of a sum is not heavier than the sum (`Formula.weight_normalizeSum_le`). If the terms
are in normal form, then it is lighter, or it has the same terms, in order
(`Formula.normalizeSum_isSumForm_or_lighter`).
-/

namespace SymCalc

open Scalar Formula

variable {α : Type}

/-! ## The weight of the terms -/

theorem Formula.weightSum_signedTerms (f : Formula α) (negative : Bool) :
    weightSum ((f.signedTerms negative).map Prod.snd) = f.weight := by
  induction f generalizing negative with
  | const v | var x => rfl
  | unary op a ih =>
    cases op with
    | negate => exact ih (!negative)
    | _ => rfl
  | binary op a b iha ihb =>
    cases op with
    | add | sub => simp [signedTerms, iha, ihb]
    | mul | div => rfl

variable [Scalar α]

namespace Monomial

theorem weight_pos (m : Monomial α) : 0 < m.weight := by
  rw [← weight_toFormula]
  exact Formula.weight_pos _

theorem weight_of_isConstant {m : Monomial α} (h : m.isConstant) : m.weight = 1 := by
  rw [eq_of_isConstant h]
  rfl

theorem totalWeight_map_sorted (ms : List (Monomial α)) :
    totalWeight (ms.map sorted) = totalWeight ms := by
  simp [totalWeight, Function.comp_def, weight_sorted]

theorem totalWeight_constants (ms : List (Monomial α)) :
    totalWeight (ms.filter isConstant) = (ms.filter isConstant).length := by
  have hmap : (ms.filter isConstant).map weight = (ms.filter isConstant).map fun _ => 1 :=
    List.map_congr_left fun m hm => weight_of_isConstant (List.mem_filter.1 hm).2
  rw [totalWeight, hmap]
  simp

theorem totalWeight_filter_append (ms : List (Monomial α)) :
    (ms.filter isConstant).length + totalWeight (ms.filter (!·.isConstant)) = totalWeight ms := by
  rw [← totalWeight_constants, ← totalWeight_append]
  exact totalWeight_perm (List.filter_append_perm isConstant ms)

end Monomial

variable [LawfulScalar α] {f : Formula α} {ms ps ns : List (Monomial α)}

theorem Monomial.weight_le_of_ofTerm? {t : Bool × Formula α} {m : Monomial α}
    (h : ofTerm? t = some m) : m.weight ≤ t.2.weight := by
  obtain ⟨m', hm', rfl⟩ := Option.map_eq_some_iff.1 h
  have hle := weight_le_of? hm'
  split
  · rwa [weight_negated]
  · exact hle

theorem Monomial.totalWeight_le_weightSum {ts : List (Bool × Formula α)}
    (h : ts.mapM ofTerm? = some ms) : totalWeight ms ≤ weightSum (ts.map Prod.snd) := by
  rw [mapM_eq_some_iff] at h
  induction h with
  | nil => exact Nat.le_refl _
  | cons h _ ih => exact Nat.add_le_add (weight_le_of_ofTerm? h) ih

theorem Monomial.totalWeight_le (h : (f.signedTerms false).mapM ofTerm? = some ms) :
    totalWeight ms ≤ f.weight := by
  rw [← f.weightSum_signedTerms false]
  exact totalWeight_le_weightSum h

/-! ## The weight of the normal form -/

omit [LawfulScalar α] in
theorem weight_subtractAll {fs : List (Formula α)} {gs : List (Formula α × Formula α)}
    (h : ∀ t ∈ gs, t.2.weight = t.1.weight) :
    (subtractAll fs gs).weight ≤ max 1 (weightSum fs + weightSum (gs.map Prod.fst)) := by
  rcases fs with _ | ⟨f, fs⟩
  · rcases gs with _ | ⟨t, _ | ⟨t', gs⟩⟩
    · exact le_max_left ..
    · have ht := h t List.mem_cons_self
      refine le_max_of_le_right ?_
      change t.2.weight ≤ _
      simp [ht]
    · refine le_max_of_le_right ?_
      change (sum ((t :: t' :: gs).map Prod.fst)).weight ≤ _
      rw [weight_sum (by simp), weightSum_nil, Nat.zero_add]
  · refine le_max_of_le_right ?_
    have hmap : gs.foldl (fun f t => f - t.1) (sum (f :: fs)) =
        (gs.map Prod.fst).foldl (binary .sub) (sum (f :: fs)) := List.foldl_map.symm
    rw [subtractAll_of_ne_nil (List.cons_ne_nil f fs), hmap, weight_foldl,
      weight_sum (List.cons_ne_nil f fs)]

theorem weight_filter_sign {terms : List (Monomial α)} (hfin : ∀ m ∈ terms, isFinite m.coeff) :
    Monomial.totalWeight (terms.filter fun m => lt 0 m.coeff) +
      Monomial.totalWeight (terms.filter fun m => lt m.coeff 0) ≤ Monomial.totalWeight terms := by
  induction terms with
  | nil => exact Nat.le_refl _
  | cons m terms ih =>
    obtain ⟨hm, hfin⟩ := List.forall_mem_cons.1 hfin
    have ih := ih hfin
    rw [Monomial.totalWeight_cons]
    rcases sign_cases hm with h | h | h <;> simp [h] <;> omega

theorem weight_assemble {c : α} {terms : List (Monomial α)} (hc : isFinite c)
    (hfin : ∀ m ∈ terms, isFinite m.coeff) : (assemble c terms).weight ≤
      max 1 ((if c == 0 then 0 else 1) + Monomial.totalWeight terms) := by
  have hsign := weight_filter_sign hfin
  have hpos : weightSum (sort ((terms.filter fun m => lt 0 m.coeff).map Monomial.toFormula)) =
      Monomial.totalWeight (terms.filter fun m => lt 0 m.coeff) := by
    rw [weightSum_perm (sort_perm _)]
    simp [weightSum, Monomial.totalWeight, Function.comp_def, Monomial.weight_toFormula]
  have hperm := List.mergeSort_perm ((terms.filter fun m => lt m.coeff 0).map Monomial.subtrahend)
    fun a b => (a.1.compare b.1).isLE
  have hneg : weightSum ((((terms.filter fun m => lt m.coeff 0).map
      Monomial.subtrahend).mergeSort fun a b => (a.1.compare b.1).isLE).map Prod.fst) =
      Monomial.totalWeight (terms.filter fun m => lt m.coeff 0) := by
    rw [weightSum_perm (hperm.map _)]
    simp [weightSum, Monomial.totalWeight, Function.comp_def, Monomial.subtrahend,
      Monomial.weight_toFormula, Monomial.weight_negated]
  have hpair : ∀ t ∈ ((terms.filter fun m => lt m.coeff 0).map
      Monomial.subtrahend).mergeSort fun a b => (a.1.compare b.1).isLE,
      t.2.weight = t.1.weight := by
    intro t ht
    obtain ⟨m, -, rfl⟩ := List.mem_map.1 (hperm.mem_iff.1 ht)
    simp [Monomial.subtrahend, Monomial.weight_toFormula, Monomial.weight_negated]
  rw [assemble_def]
  simp only
  split
  · next hc0 =>
    have h0 := beq_zero_eq_false_of_pos hc0 hc
    refine (weight_subtractAll hpair).trans ?_
    rw [weightSum_cons, weight_ofValue, hpos, hneg, h0, if_neg Bool.false_ne_true]
    omega
  · split
    · next hc0 =>
      have h0 := beq_zero_eq_false_of_neg hc0 hc
      refine (weight_subtractAll (List.forall_mem_cons.2 ⟨?_, hpair⟩)).trans ?_
      · simp
      · rw [List.map_cons, weightSum_cons, weight_ofValue, hpos, hneg, h0,
          if_neg Bool.false_ne_true]
        omega
    · refine (weight_subtractAll hpair).trans ?_
      rw [hpos, hneg]
      omega

omit [LawfulScalar α] in
theorem weight_addLikeTerms_le (t : Monomial α) (terms : List (Monomial α)) :
    Monomial.totalWeight (addLikeTerms t terms).value ≤ Monomial.totalWeight (t :: terms) := by
  induction terms generalizing t with
  | nil => exact Nat.le_refl _
  | cons u terms ih =>
    rw [addLikeTerms]
    split
    · have h := ih { t with coeff := t.coeff + u.coeff }
      have hle := Monomial.weight_le { t with coeff := t.coeff + u.coeff }
      have ht := t.factorWeight_le
      have hu := u.weight_pos
      change _ ≤ t.factorWeight + 1 at hle
      simp only [Traced.value_bind, Monomial.totalWeight_cons] at *
      omega
    · have h := ih u
      simp only [Traced.value_bind, Traced.value_pure, Monomial.totalWeight_cons] at *
      omega

omit [LawfulScalar α] in
theorem weight_combineLikeTerms_le (terms : List (Monomial α)) :
    Monomial.totalWeight (combineLikeTerms terms).value ≤ Monomial.totalWeight terms := by
  have hp := List.mergeSort_perm terms fun a b => (a.compareFactors b).isLE
  rw [← Monomial.totalWeight_perm hp, combineLikeTerms]
  split
  · exact Nat.zero_le _
  · next t ts h =>
    rw [h]
    refine le_trans ?_ (weight_addLikeTerms_le t ts)
    exact ((List.filter_sublist ..).map Monomial.weight).sum_le_sum fun _ _ => Nat.zero_le _

omit [LawfulScalar α] in
theorem weight_mergedTerms_le (ms : List (Monomial α)) : Monomial.totalWeight (mergedTerms ms) ≤
    Monomial.totalWeight (ms.filter (!·.isConstant)) := by
  have hsorted := Monomial.totalWeight_map_sorted (ms.filter (!·.isConstant))
  have hlike := weight_combineLikeTerms_le ((ms.filter (!·.isConstant)).map Monomial.sorted)
  have hlog := mergeLogarithms_eq_or_lighter
    (combineLikeTerms ((ms.filter (!·.isConstant)).map Monomial.sorted)).value
  have hangle := weight_mergeAngleSums_le (mergeLogarithms
    (combineLikeTerms ((ms.filter (!·.isConstant)).map Monomial.sorted)).value).value
  rw [mergedTerms]
  rcases hlog with ⟨hlog, -⟩ | hlog
  · rw [hlog] at hangle ⊢
    omega
  · omega

/-- The constants weigh at least what their sum does. -/
theorem weight_constantPart_le (ms : List (Monomial α)) :
    (if constantPart ms == 0 then 0 else 1) ≤ (ms.filter Monomial.isConstant).length := by
  unfold constantPart
  cases ms.filter Monomial.isConstant with
  | nil => simp
  | cons m ms =>
    rw [List.length_cons]
    split <;> omega

/-- The normal form of a sum, if it is not lighter because it is undefined. -/
theorem Formula.weight_normalizeSum (h : (f.signedTerms false).mapM Monomial.ofTerm? = some ms) :
    f.normalizeSum.value.weight ≤ max 1 ((if constantPart ms == 0 then 0 else 1) +
      Monomial.totalWeight (mergedTerms ms)) := by
  rw [normalizeSum_of_mapM h]
  split
  · next hfin =>
    rw [Bool.and_eq_true, List.all_eq_true] at hfin
    exact weight_assemble hfin.1 hfin.2
  · exact le_max_left ..

/-- The normal form of a sum is not heavier than the sum. -/
theorem Formula.weight_normalizeSum_le (f : Formula α) : f.normalizeSum.value.weight ≤ f.weight := by
  have hpos := weight_pos f
  rcases normalizeSum_cases f with ⟨-, h⟩ | ⟨ms, hms, -⟩
  · rw [h]
    exact hpos
  · have hle := Monomial.totalWeight_le hms
    have hparts := Monomial.totalWeight_filter_append ms
    have hconst := weight_constantPart_le ms
    have hmerged := weight_mergedTerms_le ms
    have h := weight_normalizeSum hms
    omega

/-! ## Terms in normal form -/

/-- Whether the formula is a term of a sum as the normal forms of products are. -/
def Formula.IsTermForm (f : Formula α) : Prop :=
  f = const 0 ∨ ∃ m : Monomial α, m.IsTerm ∧ m.toFormula = f

theorem Monomial.exists_ofTerm?_of_isTermForm {t : Bool × Formula α} (h : t.2.IsTermForm) :
    ∃ m, ofTerm? t = some m ∧ m.weight = t.2.weight ∧
      (m.IsTerm ∨ m.isConstant ∧ isFinite m.coeff ∧ m.coeff == 0) := by
  obtain ⟨negative, f⟩ := t
  rcases h with rfl | ⟨m, hm, rfl⟩
  · have hof : of? (const (0 : α)) = some ⟨0, [], []⟩ := by
      have h := of?_toFormula (m := (⟨0, [], []⟩ : Monomial α)) isProper_zero (by simp)
      rwa [show (⟨0, [], []⟩ : Monomial α).toFormula = ofValue 0 from rfl,
        ofValue_of_isProper isProper_zero] at h
    cases negative with
    | false => exact ⟨_, congrArg (Option.map _) hof, rfl, .inr ⟨rfl, LawfulScalar.isFinite_zero, zero_beq_zero⟩⟩
    | true =>
      refine ⟨_, congrArg (Option.map _) hof, rfl, .inr ⟨rfl, ?_, ?_⟩⟩
      · exact (LawfulScalar.isFinite_neg _).trans LawfulScalar.isFinite_zero
      · exact (neg_beq_zero LawfulScalar.isFinite_zero).trans zero_beq_zero
  · have hof := congrArg (Option.map fun m' => if negative then m'.negated else m')
      hm.isSummand.of?_toFormula
    cases negative with
    | false => exact ⟨_, hof, (weight_toFormula m).symm, .inl hm⟩
    | true => exact ⟨_, hof, (weight_negated m).trans (weight_toFormula m).symm, .inl hm.negated⟩

theorem Monomial.exists_mapM_ofTerm? {ts : List (Bool × Formula α)}
    (h : ∀ t ∈ ts, t.2.IsTermForm) : ∃ ms, ts.mapM ofTerm? = some ms ∧
      totalWeight ms = weightSum (ts.map Prod.snd) ∧
      ∀ m ∈ ms, m.IsTerm ∨ m.isConstant ∧ isFinite m.coeff ∧ m.coeff == 0 := by
  simp only [mapM_eq_some_iff]
  induction ts with
  | nil => exact ⟨[], .nil, rfl, List.forall_mem_nil _⟩
  | cons t ts ih =>
    obtain ⟨ht, hts⟩ := List.forall_mem_cons.1 h
    obtain ⟨m, hm, hweight, hterm⟩ := exists_ofTerm?_of_isTermForm ht
    obtain ⟨ms, hms, hsum, hterms⟩ := ih hts
    refine ⟨m :: ms, .cons hm hms, ?_, List.forall_mem_cons.2 ⟨hterm, hterms⟩⟩
    rw [totalWeight_cons, hweight, hsum, List.map_cons, weightSum_cons]

/-! ## Putting terms in order -/

/-- Terms of one sign in the order of their keys, with the constants first. -/
def Monomial.arrange (key : Monomial α → Formula α) (terms : List (Monomial α)) :
    List (Monomial α) :=
  terms.filter isConstant ++
    (terms.filter (!·.isConstant)).mergeSort fun a b => ((key a).compare (key b)).isLE

omit [LawfulScalar α] in
theorem Monomial.arrange_perm (key : Monomial α → Formula α) (terms : List (Monomial α)) :
    (arrange key terms).Perm terms :=
  ((List.mergeSort_perm ..).append_left _).trans (List.filter_append_perm isConstant terms)

theorem Monomial.pairwise_arrange (key : Monomial α → Formula α) (terms : List (Monomial α)) :
    (arrange key terms).Pairwise fun a b =>
      a.isConstant ∨ (b.isConstant = false ∧ ((key a).compare (key b)).isLE) := by
  refine List.pairwise_append.2 ⟨?_, ?_, fun a ha _ _ => .inl (List.mem_filter.1 ha).2⟩
  · exact List.pairwise_of_forall_mem_list fun a ha _ _ => .inl (List.mem_filter.1 ha).2
  · have htrans := transCmp_on Formula.compare key
    have hsorted := pairwise_mergeSort_isLE (fun a b => (key a).compare (key b))
      (terms.filter (!·.isConstant))
    refine hsorted.imp_of_mem fun _ hb hab => .inr ⟨?_, hab⟩
    have hb := (List.mem_filter.1 (List.mem_mergeSort.1 hb)).2
    rwa [Bool.not_eq_true'] at hb

/-- Terms that cannot be merged can be put in the order of a sum. -/
theorem exists_isSumOrder (hterm : ∀ m ∈ ms, m.IsSummand)
    (hmerged : IsMergedSum (ms.filter (!·.isConstant)))
    (hconst : (ms.filter Monomial.isConstant).length ≤ 1) :
    ∃ ps ns, ms.Perm (ps ++ ns) ∧ IsSumOrder ps ns := by
  have hpos := Monomial.arrange_perm Monomial.toFormula (ms.filter fun m => lt 0 m.coeff)
  have hneg := Monomial.arrange_perm (fun m => m.negated.toFormula)
    (ms.filter fun m => !lt 0 m.coeff)
  have hp := (hpos.append hneg).trans (List.filter_append_perm (fun m => lt 0 m.coeff) ms)
  refine ⟨_, _, hp.symm, ?_⟩
  constructor
  case isSummand => exact fun m hm => hterm m (hp.mem_iff.1 hm)
  case positive => exact fun m hm => (List.mem_filter.1 (hpos.mem_iff.1 hm)).2
  case negative =>
    intro m hm
    obtain ⟨hm, hnot⟩ := List.mem_filter.1 (hneg.mem_iff.1 hm)
    have hterm := hterm m hm
    rcases sign_cases hterm.isFinite with h | h | h
    · rw [h.1] at hnot
      cases hnot
    · exact h.2.1
    · exact absurd h.2.2 (ne_true_of_eq_false hterm.ne_zero)
  case merged => exact hmerged.perm (hp.symm.filter _)
  case constants => exact (hp.filter _).length_eq.trans_le hconst
  case sorted_positive => exact Monomial.pairwise_arrange Monomial.toFormula _
  case sorted_negative => exact List.pairwise_map.2 (Monomial.pairwise_arrange _ _)

theorem exists_isSumForm (hterm : ∀ m ∈ ms, m.IsTerm)
    (hmerged : IsMergedSum (ms.filter (!·.isConstant)))
    (hconst : (ms.filter Monomial.isConstant).length ≤ 1) :
    ∃ ps ns, ms.Perm (ps ++ ns) ∧ IsSumForm ps ns := by
  obtain ⟨ps, ns, hp, horder⟩ :=
    exists_isSumOrder (fun m hm => (hterm m hm).isSummand) hmerged hconst
  exact ⟨ps, ns, hp, { horder with isTerm := fun m hm => hterm m (hp.mem_iff.2 hm) }⟩

/-! ## The normal form -/

/-- A constant that is zero adds nothing. -/
theorem constantPart_of_beq_zero {k : Monomial α} (hfilter : ms.filter Monomial.isConstant = [k])
    (h0 : k.coeff == 0) : constantPart ms == 0 := by
  have hagree := LawfulScalar.add_congr (zero_beq_zero (α := α)) h0
  rw [LawfulScalar.zero_add LawfulScalar.isFinite_zero fun _ => rfl] at hagree
  rw [constantPart, hfilter]
  exact hagree.2 (hagree.1.trans LawfulScalar.isFinite_zero)

/-- Constants that are as many as their sum weighs are not zero. -/
theorem ne_zero_of_length_constants
    (hlength : (ms.filter Monomial.isConstant).length ≤ if constantPart ms == 0 then 0 else 1) :
    ∀ m ∈ ms.filter Monomial.isConstant, (m.coeff == 0) = false := by
  intro m hm
  have hpos := List.length_pos_of_mem hm
  split at hlength
  · omega
  · next hne =>
    obtain ⟨k, hk⟩ := List.length_eq_one_iff.1 (le_antisymm hlength hpos)
    rw [hk] at hm
    cases List.mem_singleton.1 hm
    exact eq_false_of_ne_true fun h0 => hne (constantPart_of_beq_zero hk h0)

omit [Scalar α] [LawfulScalar α] in
/-- A monomial that is not a constant has a factor. -/
theorem Monomial.two_le_factorWeight {m : Monomial α} (hfactor : ∀ g ∈ m.numer ++ m.denom, g.isFactor)
    (hc : m.isConstant = false) : 2 ≤ m.factorWeight := by
  rcases hn : m.numer with _ | ⟨g, gs⟩
  · rcases hd : m.denom with _ | ⟨g, gs⟩
    · simp [isConstant, hn, hd] at hc
    · have hg := two_le_weight_of_isFactor (hfactor g (by simp [hd]))
      rw [factorWeight, hd, weightSum_cons]
      omega
  · have hg := two_le_weight_of_isFactor (hfactor g (by simp [hn]))
    rw [factorWeight, hn, weightSum_cons]
    omega

/-- The normal form of a sum of terms in normal form is lighter than the sum, or its terms cannot be
merged and are put in order. -/
theorem Formula.normalizeSum_isSumForm_or_lighter (hf : 2 ≤ f.weight)
    (h : ∀ t ∈ f.signedTerms false, t.2.IsTermForm) :
    (∃ ms ps ns, (f.signedTerms false).mapM Monomial.ofTerm? = some ms ∧ ms.Perm (ps ++ ns) ∧
        IsSumForm ps ns) ∨
      f.normalizeSum.value.weight < f.weight := by
  obtain ⟨ms, hms, hweight, hterm⟩ := Monomial.exists_mapM_ofTerm? h
  rw [weightSum_signedTerms] at hweight
  have hparts := Monomial.totalWeight_filter_append ms
  have hle := weight_normalizeSum hms
  have hconst := weight_constantPart_le ms
  have hmergedle := weight_mergedTerms_le ms
  have hnonconst m (hm : m ∈ ms) (hc : m.isConstant = false) : m.IsTerm := by
    rcases hterm m hm with h | h
    · exact h
    · rw [h.1] at hc
      cases hc
  have hfactors m (hm : m ∈ ms) (hc : m.isConstant = false) : 2 ≤ m.factorWeight :=
    Monomial.two_le_factorWeight (hnonconst m hm hc).isReduced.isFactor hc
  have hsorted m (hm : m ∈ ms) : m.sorted = m := by
    rcases hterm m hm with h | h
    · exact h.sorted
    · exact Monomial.sorted_of_isConstant h.1
  rcases mergedTerms_isMergedSum_or_lighter hsorted hfactors with ⟨hmerged, -⟩ | hlt
  · by_cases hlt : (if constantPart ms == 0 then 0 else 1) < (ms.filter Monomial.isConstant).length
    · right
      omega
    · left
      have hlength : (ms.filter Monomial.isConstant).length ≤ 1 := by
        split at hlt <;> omega
      have hterm m (hm : m ∈ ms) : m.IsTerm := by
        rcases hterm m hm with h | ⟨hc, -, h0⟩
        · exact h
        · have hne := ne_zero_of_length_constants (not_lt.1 hlt) m (List.mem_filter.2 ⟨hm, hc⟩)
          exact absurd h0 (ne_true_of_eq_false hne)
      obtain ⟨ps, ns, hp, hform⟩ := exists_isSumForm hterm hmerged hlength
      exact ⟨ms, ps, ns, hms, hp, hform⟩
  · right
    omega

end SymCalc
