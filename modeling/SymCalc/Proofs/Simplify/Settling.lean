import SymCalc.Proofs.Simplify.Settled

/-!
# Settling

* `Formula.Settles`: whether a result is settled unless it is undefined or lighter.

The normal form of an operation on settled operands is settled unless it is undefined or lighter
(`Formula.settles_normalizeUnary`, `Formula.settles_normalizeBinary`).
-/

namespace SymCalc

open Scalar Formula

variable {α : Type} [Scalar α] {k : ℕ} {f g a b : Formula α}

/-- Whether `g`, as a result for `f`, is settled unless it is undefined or lighter. -/
def Formula.Settles (k : ℕ) (f g : Formula α) : Prop :=
  g = undefined ∨ g.weight < f.weight ∨ g.weight = f.weight ∧ g.IsSettled k

theorem Formula.settles_of_weight_le (hle : g.weight ≤ f.weight)
    (h : g.weight = f.weight → g.IsSettled k) : Settles k f g := by
  rcases hle.lt_or_eq with hlt | heq
  · exact .inr (.inl hlt)
  · exact .inr (.inr ⟨heq, h heq⟩)

variable [LawfulScalar α]

/-! ## Products -/

omit [Scalar α] [LawfulScalar α] in
theorem Formula.exists_factor_of_countP {below : Bool}
    (h : (f.pieces below).countP Piece.isConst = 0) :
    (f.pieces below).filterMap (·.factor? below) ≠ [] := by
  rcases f.exists_mem_pieces below with ⟨v, hv⟩ | ⟨g, hg⟩
  · exact absurd rfl (List.countP_eq_zero.1 h _ hv)
  · exact List.ne_nil_of_mem (List.mem_filterMap.2 ⟨_, hg, if_pos rfl⟩)

omit [Scalar α] [LawfulScalar α] in
/-- A product without constants that is not a sum itself has a sum as its only factor above the
fraction bar only if there are others below. -/
theorem Formula.denom_ne_nil_of_isTerm (ht : a.isTerm)
    (hconst : (a.pieces false).countP Piece.isConst = 0) {s : Formula α}
    (hn : (a.pieces false).filterMap (·.factor? false) = [s]) (hs : s.isSum) :
    (a.pieces false).filterMap (·.factor? true) ≠ [] := by
  have hself (hf : a.isFactor) (hsum : a.isSum = false) :
      (a.pieces false).filterMap (·.factor? true) ≠ [] := by
    rw [pieces_of_isFactor hf] at hn
    obtain rfl : a = s := by simpa [Piece.factor?] using hn
    rw [hsum] at hs
    cases hs
  cases a with
  | const v => simp [pieces, Piece.isConst] at hconst
  | var x => exact hself rfl rfl
  | unary op a =>
    cases op with
    | negate => cases ht
    | _ => exact hself rfl rfl
  | binary op a b =>
    cases op with
    | add | sub => cases ht
    | mul =>
      simp only [pieces, List.countP_append, Nat.add_eq_zero_iff] at hconst
      have ha := List.length_pos_iff.2 (exists_factor_of_countP hconst.1)
      have hb := List.length_pos_iff.2 (exists_factor_of_countP hconst.2)
      have hlength := congrArg List.length hn
      rw [pieces, List.filterMap_append, List.length_append, List.length_singleton] at hlength
      omega
    | div =>
      simp only [pieces, List.countP_append, Nat.add_eq_zero_iff] at hconst
      rw [pieces, List.filterMap_append]
      exact List.append_ne_nil_of_right_ne_nil _ (exists_factor_of_countP hconst.2)

namespace Monomial

variable {m : Monomial α}

omit [LawfulScalar α] in
theorem IsReduced.sort (h : m.IsReduced) : m.sorted.IsReduced where
  isFinite := h.isFinite
  ne_zero := h.ne_zero
  isFactor g hg := h.isFactor g (by simpa only [List.mem_append, sorted, mem_sort] using hg)
  isMerged :=
    { uncancelled := fun f hf g hg => h.isMerged.uncancelled f (mem_sort.1 hf) g (mem_sort.1 hg)
      tangents := fun f hf g hg => h.isMerged.tangents f (mem_sort.1 hf) g (mem_sort.1 hg)
      exponents :=
        (((sort_perm m.numer).filterMap _).append ((sort_perm m.denom).filterMap _)).length_eq.trans_lt
          h.isMerged.exponents }

end Monomial

/-- The normal form of a product with settled factors settles if its coefficient is not minus one or
it is heavier than `k`, unless it is the negation of a sum. -/
theorem Formula.settles_normalizeProduct (hweight : 2 ≤ f.weight)
    (hfactor : ∀ g c, .factor g c ∈ f.pieces false → g.IsSettled k)
    (hdenom : (f.pieces false).countP Piece.isConst = 0 → ∀ s,
      (f.pieces false).filterMap (·.factor? false) = [s] → s.isSum →
        (f.pieces false).filterMap (·.factor? true) ≠ [])
    (hneg : k < f.weight ∨ ∀ m, Monomial.of? f = some m → (m.coeff == -1) = false) :
    Settles k f f.normalizeProduct.value := by
  rcases normalizeProduct_isReduced_or_lighter hweight with ⟨m, hm, hreduced, hcount, hvalue⟩ | hlt
  · obtain ⟨-, -, hparts⟩ := Monomial.eq_of_ofPieces? hm
    have hn := congrArg Monomial.numer hparts
    have hd := congrArg Monomial.denom hparts
    simp only at hn hd
    rw [hvalue]
    refine settles_of_weight_le ?_ fun heq => ?_
    · rw [Monomial.weight_toFormula, Monomial.weight_sorted]
      exact Monomial.weight_le_of? hm
    · refine hreduced.sort.isSettled_toFormula m.sorted_sorted ?_ ?_
      · intro g hg
        simp only [List.mem_append, Monomial.sorted, mem_sort, hn, hd, List.mem_filterMap,
          Piece.factor?_eq_some] at hg
        rcases hg with ⟨p, hp, rfl⟩ | ⟨p, hp, rfl⟩
        · exact hfactor g false hp
        · exact hfactor g true hp
      · intro hc s hs hsum
        have hnumer : m.numer = [s] := ((sort_perm m.numer).symm.trans (.of_eq hs)).eq_singleton
        have hshows : m.showsCoeff = false := by
          have hc : m.coeff == -1 := hc
          simp [Monomial.showsCoeff, hnumer, hc]
        rw [hshows] at hcount
        refine ⟨fun hnil => ?_, ?_⟩
        · refine hdenom hcount s (hn ▸ hnumer) hsum ?_
          rw [← hd]
          exact ((sort_perm m.denom).symm.trans (.of_eq hnil)).eq_nil
        · rw [← Monomial.weight_toFormula, heq]
          exact hneg.resolve_right fun h => ne_true_of_eq_false (h m hm) hc
  · exact .inr (.inl hlt)

/-! ## Sums -/

omit [Scalar α] [LawfulScalar α] in
theorem Formula.length_signedTerms_pos (f : Formula α) (negative : Bool) :
    0 < (f.signedTerms negative).length := by
  induction f generalizing negative with
  | const v | var x => exact Nat.one_pos
  | unary op a ih =>
    cases op with
    | negate => exact ih _
    | _ => exact Nat.one_pos
  | binary op a b iha _ =>
    cases op with
    | add | sub =>
      rw [signedTerms, List.length_append]
      exact Nat.add_pos_left (iha negative) _
    | mul | div => exact Nat.one_pos

omit [Scalar α] [LawfulScalar α] in
theorem Formula.two_le_length_signedTerms (hs : f.isSum) (negative : Bool) :
    2 ≤ (f.signedTerms negative).length := by
  cases f with
  | binary op a b =>
    cases op with
    | add | sub =>
      rw [signedTerms, List.length_append]
      exact Nat.add_le_add (length_signedTerms_pos a _) (length_signedTerms_pos b _)
    | mul | div => cases hs
  | _ => cases hs

omit [Scalar α] [LawfulScalar α] in
theorem Formula.length_signedTerms_le (f : Formula α) (negative : Bool) :
    (f.signedTerms negative).length ≤ f.weight := by
  rw [← f.weightSum_signedTerms negative]
  induction f.signedTerms negative with
  | nil => exact Nat.le_refl _
  | cons t ts ih =>
    have ht := weight_pos t.2
    rw [List.length_cons, List.map_cons, weightSum_cons]
    omega

/-- A sum of settled terms is lighter than the sum when it is normalized, or it has the same terms. -/
theorem Formula.normalizeSum_of_isSettled_or_lighter
    (hlength : 2 ≤ (f.signedTerms false).length)
    (h : ∀ t ∈ f.signedTerms false, t.2.IsSettled k) :
    (∃ ms ps ns, (f.signedTerms false).mapM Monomial.ofTerm? = some ms ∧ ms.Perm (ps ++ ns) ∧
        IsSumForm ps ns ∧ 2 ≤ (ps ++ ns).length) ∨
      f.normalizeSum.value.weight < f.weight := by
  refine (normalizeSum_isSumForm_or_lighter (hlength.trans (length_signedTerms_le f false))
    fun t ht => (h t ht).isTermForm (isTerm_of_mem_signedTerms ht)).imp_left ?_
  rintro ⟨ms, ps, ns, hms, hp, hform⟩
  refine ⟨ms, ps, ns, hms, hp, hform, ?_⟩
  rwa [← hp.length_eq, ← (mapM_eq_some_iff.1 hms).length_eq]

/-- A positive term with settled factors is settled. -/
theorem Monomial.IsTerm.isSettled_toFormula {m : Monomial α} (h : m.IsTerm) (hpos : lt 0 m.coeff)
    (hf : ∀ g ∈ m.numer ++ m.denom, g.IsSettled k) : m.toFormula.IsSettled k :=
  h.isReduced.isSettled_toFormula h.sorted hf fun hneg =>
    absurd hneg (ne_true_of_eq_false (coeff_beq_neg_one_of_pos hpos))

omit [LawfulScalar α] in
theorem Formula.IsSettled.of_of? {m : Monomial α} (h : f.IsSettled k)
    (hm : Monomial.of? f = some m) : ∀ g ∈ m.numer ++ m.denom, g.IsSettled k := by
  obtain ⟨-, -, rfl⟩ := Monomial.eq_of_ofPieces? hm
  rw [List.forall_mem_append]
  constructor <;>
  · intro g hg
    obtain ⟨p, hp, hpg⟩ := List.mem_filterMap.1 hg
    exact h.of_mem_pieces (Piece.factor?_eq_some.1 hpg ▸ hp)

omit [LawfulScalar α] in
theorem Formula.IsSettled.of_ofTerm? {t : Bool × Formula α} {m : Monomial α}
    (h : t.2.IsSettled k) (hm : Monomial.ofTerm? t = some m) :
    ∀ g ∈ m.numer ++ m.denom, g.IsSettled k := by
  obtain ⟨m', hm', rfl⟩ := Option.map_eq_some_iff.1 hm
  have hfactors := h.of_of? hm'
  split <;> exact hfactors

/-- A sum of settled terms in order is settled. -/
theorem IsSumForm.isSettled_of_factors {ps ns : List (Monomial α)} (h : IsSumForm ps ns)
    (hlength : 2 ≤ (ps ++ ns).length)
    (hf : ∀ m ∈ ps ++ ns, ∀ g ∈ m.numer ++ m.denom, g.IsSettled k) : (ofTerms ps ns).IsSettled k := by
  refine h.isSettled_ofTerms ?_ ?_ ?_
  · rintro rfl
    exact hlength
  · intro m hm
    have hmem := List.mem_append_left ns hm
    exact (h.isTerm m hmem).isSettled_toFormula (h.positive m hm) (hf m hmem)
  · intro m hm
    have hmem := List.mem_append_right ps hm
    exact (h.isTerm m hmem).negated.isSettled_toFormula
      ((LawfulScalar.zero_lt_neg m.coeff).trans (h.negative m hm)) (hf m hmem)

theorem Formula.settles_normalizeSum (hlength : 2 ≤ (f.signedTerms false).length)
    (h : ∀ t ∈ f.signedTerms false, t.2.IsSettled k) : Settles k f f.normalizeSum.value := by
  refine settles_of_weight_le (weight_normalizeSum_le f) fun heq => ?_
  rcases normalizeSum_of_isSettled_or_lighter hlength h with ⟨ms, ps, ns, hms, hp, hform, htwo⟩ | hlt
  · rw [normalizeSum_of_isSumForm hms hp hform]
    refine hform.isSettled_of_factors htwo fun m hm => ?_
    obtain ⟨t, ht, htm⟩ := exists_of_mem_mapM hms (hp.mem_iff.2 hm)
    exact (h t ht).of_ofTerm? htm
  · exact absurd heq hlt.ne

/-! ## Opposites -/

omit [Scalar α] [LawfulScalar α] in
theorem Formula.two_le_weight_of_isTerm (ht : a.isTerm) (hc : a.isConst = false) :
    2 ≤ a.weight := by
  cases a with
  | const v => cases hc
  | var x => exact Nat.le_refl _
  | unary op a => cases op <;> first | exact Nat.le_add_left .. | cases ht
  | binary op a b => exact Nat.add_le_add a.weight_pos b.weight_pos

omit [LawfulScalar α] in
theorem Formula.IsSettled.isConst_of_negate (h : IsSettled k (.unary .negate a)) :
    a.isConst = false := by
  cases h with
  | unary ha h =>
    cases a with
    | const v =>
      obtain ⟨w, hw⟩ := exists_ofValue_eq_const (-v)
      cases hw.symm.trans h
    | _ => rfl

omit [LawfulScalar α] in
theorem Formula.IsSettled.two_le_weight (h : f.IsSettled k) (hc : f.isConst = false) :
    2 ≤ f.weight := by
  induction h with
  | const h => cases hc
  | var x => exact Nat.le_refl _
  | @unary op a ha h ih =>
    cases op with
    | negate => exact ih (isConst_of_negate (.unary ha h))
    | _ => exact Nat.le_add_left ..
  | @binary op a b => exact Nat.add_le_add a.weight_pos b.weight_pos
  | @quotient s b => exact Nat.add_le_add s.weight_pos b.weight_pos

theorem Formula.settles_negate_of_isTerm (h : a.IsSettled k) (ht : a.isTerm)
    (hc : a.isConst = false) (hk : k < a.weight) : Settles k (-a) (-a).normalizeProduct.value := by
  have hpieces : (-a).pieces false = .negation :: a.pieces false := rfl
  have hweight : 2 ≤ a.weight := two_le_weight_of_isTerm ht hc
  refine settles_normalizeProduct hweight ?_ ?_ (.inl hk)
  · intro g c hg
    have hg : .factor g c ∈ a.pieces false := by simpa [hpieces] using hg
    exact h.of_mem_pieces hg
  · intro hconst s hn hs
    simp only [hpieces, List.countP_cons, Piece.isConst, Piece.factor?, List.filterMap_cons] at *
    exact denom_ne_nil_of_isTerm ht hconst hn hs

/-- The normal form of the negation of a settled formula settles if the formula is a sum or heavier than
`k`. -/
theorem Formula.settles_normalizeNegation (h : a.IsSettled k) (hk : a.isTerm → k < a.weight) :
    Settles k (-a) a.normalizeNegation.value := by
  cases hc : a.isConst with
  | true =>
    cases h with
    | @const v hv =>
      have hfin : isFinite (-v) := (LawfulScalar.isFinite_neg v).trans hv.isFinite
      obtain ⟨w, hw, hproper, -⟩ := exists_ofValue_of_isFinite hfin
      refine .inr (.inr ?_)
      change (ofValue (-v)).weight = 1 ∧ (ofValue (-v)).IsSettled k
      rw [hw]
      exact ⟨rfl, .const hproper⟩
    | _ => cases hc
  | false =>
    cases ht : a.isTerm with
    | true =>
      rw [normalizeNegation_of_isTerm ht hc]
      exact settles_negate_of_isTerm h ht hc (hk ht)
    | false =>
      cases hs : a.isSum with
      | true =>
        rw [normalizeNegation_of_isSum hs]
        exact settles_normalizeSum (two_le_length_signedTerms hs true) fun t ht =>
          h.of_mem_signedTerms ht
      | false =>
        cases h with
        | @unary op b hb h =>
          cases op with
          | negate => exact .inr (.inr ⟨rfl, hb⟩)
          | _ => cases ht
        | @binary op => cases op <;> simp [Formula.isTerm, isSum] at ht hs
        | _ => cases ht

/-! ### Signs -/

theorem Monomial.coeff_of_toFormula_eq_const {m : Monomial α} {v : α} (h : m.IsTerm)
    (hv : m.toFormula = .const v) : m.coeff = v := by
  have hof := h.isSummand.of?_toFormula
  rw [hv] at hof
  obtain ⟨-, -, hparts⟩ := Monomial.eq_of_ofPieces? hof
  simpa [pieces, Piece.above, Piece.under] using congrArg Monomial.coeff hparts

/-- A positive term does not count as negative. -/
theorem Monomial.IsTerm.negativeForm? {m : Monomial α} (h : m.IsTerm) (hpos : lt 0 m.coeff) :
    m.toFormula.negativeForm? = none := by
  have ht := h.isSummand.isTerm_toFormula hpos
  have hof := h.isSummand.of?_toFormula
  have hlt := lt_zero_eq_false_of_pos hpos h.isReduced.isFinite
  cases hf : m.toFormula with
  | const v =>
    rw [coeff_of_toFormula_eq_const h hf] at hlt
    exact if_neg (ne_true_of_eq_false hlt)
  | var x => rfl
  | unary op a =>
    rw [hf] at ht
    cases op <;> first | rfl | cases ht
  | binary op a b =>
    rw [hf] at ht hof
    cases op with
    | add | sub => cases ht
    | mul | div => simp [Formula.negativeForm?, hof, hlt, guard]

omit [LawfulScalar α] in
/-- A formula whose negation is a product in normal form is a positive product. -/
theorem Monomial.eq_product_of_toFormula {m : Monomial α} (hf : ∀ f ∈ m.numer, f.isFactor)
    (h : m.toFormula = -a) : m.numer ≠ [] ∧ a = product m.numer := by
  have hmul (f g : Formula α) (fs : List (Formula α)) :
      fs.foldl (binary .mul) (binary .mul f g) ≠ -a := by
    induction fs generalizing f g with
    | nil => exact fun h => nomatch h
    | cons g' fs ih => exact ih _ _
  unfold toFormula at h
  split at h
  · unfold numerator at h
    split at h
    · obtain ⟨w, hw⟩ := exists_ofValue_eq_const m.coeff
      cases hw.symm.trans h
    · next hne =>
      refine ⟨hne, ?_⟩
      split at h
      · cases hn : m.numer with
        | nil => exact absurd hn hne
        | cons f fs =>
          rw [hn] at h
          cases fs with
          | nil =>
            have hfactor := hf f (by simp [hn])
            rw [show f = -a from h] at hfactor
            cases hfactor
          | cons g fs => exact absurd h (hmul f g fs)
      · split at h
        · cases h
          rfl
        · cases hn : m.numer with
          | nil => exact absurd hn hne
          | cons f fs =>
            rw [hn] at h
            exact absurd h (hmul _ f fs)
  · cases h

/-- What a negation in normal form negates does not count as negative. -/
theorem Formula.IsSettled.negativeForm?_of_negate (h : IsSettled k (Formula.unary .negate a)) :
    a.negativeForm? = none := by
  have hc := h.isConst_of_negate
  cases h with
  | unary ha h =>
    have hnormal : a.normalizeNegation.value = -a := h
    cases ht : a.isTerm with
    | true =>
      rw [normalizeNegation_of_isTerm ht hc] at hnormal
      have hweight : 2 ≤ a.weight := two_le_weight_of_isTerm ht hc
      obtain ⟨m, hm, hreduced, hsorted, heq⟩ :=
        exists_monomial_of_normalizeProduct (f := -a) hweight hnormal
      have hchain := hreduced.isChain_numer hsorted
      obtain ⟨hne, ha'⟩ := Monomial.eq_product_of_toFormula hchain.isFactor heq
      rw [← Monomial.toFormula_of_one (c := (1 : α)) hne one_beq_one] at ha'
      subst ha'
      have hproper : ∀ f ∈ m.numer, f.IsProper := by
        have hforall := Monomial.forall_of? hm ha.isProper
        exact hforall.1
      refine Monomial.IsTerm.negativeForm? ?_ LawfulScalar.zero_lt_one
      exact Monomial.isTerm_of_toFormula (hchain.isReduced LawfulScalar.isFinite_one one_beq_zero)
        (hchain.sorted_eq 1) (by simpa using hproper) ht
    | false =>
      cases ha with
      | const => cases hc
      | var x => rfl
      | @unary op b hb hb' =>
        cases op with
        | negate =>
          have hsize : b = -(-b) := hnormal
          have hsize := congrArg size hsize
          simp only [size] at hsize
          omega
        | _ => rfl
      | @binary op b c =>
        cases op with
        | add | sub =>
          refine if_neg fun hbefore => ?_
          rw [show (-_ : Formula α).normalizeSum.value = _ from hnormal] at hbefore
          cases hbefore
        | mul | div => cases ht
      | quotient => cases ht

omit [Scalar α] [LawfulScalar α] in
theorem Formula.signedTerms_not (f : Formula α) (negative : Bool) :
    f.signedTerms (!negative) = (f.signedTerms negative).map fun t => (!t.1, t.2) := by
  induction f, negative using signedTerms.induct with
  | case1 a b negative iha ihb | case2 a b negative iha ihb =>
    rw [signedTerms, signedTerms, List.map_append, iha, ihb]
  | case3 a negative ih => rw [signedTerms, signedTerms, ih]
  | case4 f negative h1 h2 h3 =>
    rw [signedTerms.eq_4 f _ h1 h2 h3, signedTerms.eq_4 f _ h1 h2 h3]
    rfl

/-- The opposite of a formula has the opposite terms. -/
theorem Formula.mapM_signedTerms_neg {ms : List (Monomial α)}
    (h : (f.signedTerms false).mapM Monomial.ofTerm? = some ms) :
    ((-f).signedTerms false).mapM Monomial.ofTerm? = some (ms.map Monomial.negated) := by
  have hterm {t : Bool × Formula α} {m : Monomial α} (h : Monomial.ofTerm? t = some m) :
      Monomial.ofTerm? (!t.1, t.2) = some m.negated := by
    obtain ⟨negative, f⟩ := t
    obtain ⟨m, hm, rfl⟩ := Option.map_eq_some_iff.1 h
    cases negative with
    | false => exact congrArg (Option.map _) hm
    | true => exact (congrArg (Option.map _) hm).trans (congrArg some m.negated_negated.symm)
  rw [neg_eq, signedTerms, signedTerms_not]
  rw [mapM_eq_some_iff, List.forall₂_map_left_iff, List.forall₂_map_right_iff]
  exact (mapM_eq_some_iff.1 h).imp fun _ _ => hterm

/-- The opposite of a sum in order. -/
theorem IsSumOrder.normalizeSum_neg_ofTerms {ps ns : List (Monomial α)} (h : IsSumOrder ps ns)
    (hlength : ps = [] → 2 ≤ ns.length) : (-ofTerms ps ns).normalizeSum.value =
      ofTerms (ns.map Monomial.negated) (ps.map Monomial.negated) := by
  have hp : ((ps ++ ns).map Monomial.negated).Perm
      (ns.map Monomial.negated ++ ps.map Monomial.negated) := by
    rw [← List.map_append]
    exact List.perm_append_comm.map Monomial.negated
  refine normalizeSum_of_isSumOrder (mapM_signedTerms_neg (h.mapM_signedTerms hlength)) ?_ h.negated
  rwa [h.negated.map_sorted hp]

/-- A settled sum consists of terms in order. -/
theorem Formula.IsSettled.exists_isSumForm (h : f.IsSettled k) (hs : f.isSum) :
    ∃ ps ns, IsSumForm ps ns ∧ 2 ≤ (ps ++ ns).length ∧ ofTerms ps ns = f ∧
      ∀ m ∈ ps ++ ns, ∀ g ∈ m.numer ++ m.denom, g.IsSettled k := by
  have hnormal : f.normalizeSum.value = f := by
    cases h with
    | @binary op a b ha hb h =>
      cases op with
      | add | sub => exact h
      | mul | div => cases hs
    | _ => cases hs
  rcases normalizeSum_of_isSettled_or_lighter (two_le_length_signedTerms hs false)
    fun t ht => h.of_mem_signedTerms ht with ⟨ms, ps, ns, hms, hp, hform, hlength⟩ | hlt
  · refine ⟨ps, ns, hform, hlength, ?_, fun m hm => ?_⟩
    · rw [← normalizeSum_of_isSumForm hms hp hform, hnormal]
    · obtain ⟨t, ht, htm⟩ := exists_of_mem_mapM hms (hp.mem_iff.2 hm)
      exact (h.of_mem_signedTerms ht).of_ofTerm? htm
  · rw [hnormal] at hlt
    exact absurd hlt (Nat.lt_irrefl _)

/-- The opposite of a sum does not count as negative if it comes before the sum. -/
theorem Formula.IsSettled.opposite_of_isSum (h : f.IsSettled k) (hs : f.isSum)
    (hbefore : (-f).normalizeSum.value.isBefore f) :
    (-f).normalizeSum.value.IsSettled k ∧ (-f).normalizeSum.value.negativeForm? = none := by
  obtain ⟨ps, ns, hform, hlength, rfl, hfactors⟩ := h.exists_isSumForm hs
  have hopposite := hform.normalizeSum_neg_ofTerms (by rintro rfl; exact hlength)
  have hlength' : 2 ≤ (ns.map Monomial.negated ++ ps.map Monomial.negated).length := by
    simp only [List.length_append, List.length_map] at hlength ⊢
    omega
  rw [hopposite] at hbefore ⊢
  refine ⟨hform.negated.isSettled_of_factors hlength' ?_, ?_⟩
  · intro m hm
    rw [← List.map_append] at hm
    obtain ⟨m, hmem, rfl⟩ := List.mem_map.1 hm
    exact hfactors m (List.perm_append_comm.mem_iff.1 hmem)
  · by_cases hns : ns = []
    · -- Only the opposite of a sum without subtracted terms is a negation, which comes later.
      subst hns
      rw [List.append_nil] at hlength
      rw [List.map_nil, ofTerms_nil (by simpa using hlength)] at hbefore
      generalize hg : ofTerms ps [] = g at hs hbefore
      cases g with
      | binary => cases hbefore
      | _ => cases hs
    · have hne : ns.map Monomial.negated ≠ [] := by simpa using hns
      have hback := hform.negated.normalizeSum_neg_ofTerms fun hnil => absurd hnil hne
      rw [Monomial.map_negated_map_negated, Monomial.map_negated_map_negated] at hback
      have hsum := isSum_ofTerms hne hlength'
      generalize ofTerms (ns.map Monomial.negated) (ps.map Monomial.negated) = g at *
      have hlt : g.compare (ofTerms ps ns) = .lt := by simpa [isBefore] using hbefore
      have hswap : (ofTerms ps ns).compare g = (g.compare (ofTerms ps ns)).swap :=
        Std.OrientedCmp.eq_swap
      have hafter : (-g).normalizeSum.value.isBefore g = false := by
        rw [hback, isBefore, hswap, hlt]
        rfl
      cases g with
      | binary op a b =>
        cases op with
        | add | sub => exact if_neg (ne_true_of_eq_false hafter)
        | mul | div => cases hsum
      | _ => cases hsum

theorem Formula.weight_negativeForm?_le (h : f.negativeForm? = some g) : g.weight ≤ f.weight := by
  rcases negativeForm?_cases h with rfl | ⟨v, rfl, -, rfl⟩ | ⟨m, hm, rfl⟩ | ⟨rfl, -, -⟩
  · exact Nat.le_refl _
  · exact (weight_ofValue _).le
  · rw [Monomial.weight_toFormula, Monomial.weight_negated]
    exact Monomial.weight_le_of? hm
  · exact weight_normalizeSum_le (-f)

/-- The opposite of a settled formula that counts as negative does not count as negative. -/
theorem Formula.IsSettled.negativeForm? (h : f.IsSettled k) (hg : f.negativeForm? = some g) :
    g.IsSettled k ∧ g.negativeForm? = none := by
  have hproduct (hweight : 2 ≤ f.weight) (ht : f.isTerm) (hnormal : f.normalizeProduct.value = f)
      {m : Monomial α} (hm : Monomial.of? f = some m) (hneg : lt m.coeff 0) :
      m.negated.toFormula.IsSettled k ∧ m.negated.toFormula.negativeForm? = none := by
    have hfactors := h.of_of? hm
    obtain ⟨m', hm', hreduced, hsorted, heq⟩ :=
      exists_monomial_of_normalizeProduct hweight hnormal
    cases hm'.symm.trans hm
    have hproper := List.forall_mem_append.2 (Monomial.forall_of? hm h.isProper)
    have hterm := Monomial.isTerm_of_toFormula hreduced hsorted hproper (heq ▸ ht)
    have hpos := (LawfulScalar.zero_lt_neg m.coeff).trans hneg
    exact ⟨hterm.negated.isSettled_toFormula hpos hfactors, hterm.negated.negativeForm? hpos⟩
  cases h with
  | @const v hv =>
    obtain ⟨hneg, hg⟩ := Option.ite_none_right_eq_some.1 hg
    have hproper := isProper_neg hv.isFinite (beq_zero_eq_false_of_neg hneg hv.isFinite)
    rw [ofValue_of_isProper hproper] at hg
    cases hg
    refine ⟨.const hproper, if_neg ?_⟩
    rw [lt_neg_zero, zero_lt_eq_false_of_neg hneg hv.isFinite]
    exact Bool.false_ne_true
  | var x => cases hg
  | @unary op a ha h =>
    cases op with
    | negate =>
      cases hg
      exact ⟨ha, negativeForm?_of_negate (.unary ha h)⟩
    | _ => cases hg
  | @binary op a b ha hb h =>
    have hsettled := IsSettled.binary ha hb h
    cases op with
    | add | sub =>
      obtain ⟨hbefore, hg⟩ := Option.ite_none_right_eq_some.1 hg
      cases hg
      exact hsettled.opposite_of_isSum rfl hbefore
    | mul | div =>
      simp only [Formula.negativeForm?, bind, pure, Option.bind_eq_some_iff, Option.some.injEq] at hg
      obtain ⟨m, hm, ⟨⟩, hneg, rfl⟩ := hg
      exact hproduct (Nat.add_le_add a.weight_pos b.weight_pos) rfl h hm
        (by simpa [guard] using hneg)
  | @quotient s b hs hsum hb hk h =>
    simp only [Formula.negativeForm?, bind, pure, Option.bind_eq_some_iff, Option.some.injEq] at hg
    obtain ⟨m, hm, ⟨⟩, hneg, rfl⟩ := hg
    exact hproduct (Nat.add_le_add s.weight_pos b.weight_pos) rfl h hm
      (by simpa [guard] using hneg)

/-! ## Functions -/

namespace Formula

variable {op : UnaryOp}

omit [LawfulScalar α] in
theorem weight_power {n : ℕ} (hn : n ≠ 0) (f : Formula α) : (f.power n).weight = n * f.weight := by
  have hne : List.replicate n f ≠ [] := by simpa using hn
  rw [power, weight_product hne, weightSum, List.map_replicate, List.sum_replicate_nat]

/-- A power that is written out is lighter than the exponential it comes from. -/
theorem weight_power_lt {n : ℕ} (h : f.logPower? = some (a, n)) :
    (a.power n).weight < (unary .exp f).weight := by
  obtain ⟨c, hm, hcount, hn⟩ := exists_of_logPower? h
  have hle := Monomial.weight_le_of? hm
  have hfactor := Monomial.factorWeight_le (⟨c, [unary .ln a], []⟩ : Monomial α)
  have hweight : Monomial.factorWeight (⟨c, [unary .ln a], []⟩ : Monomial α) = a.weight + 2 := rfl
  have hlt : n < 100 := List.mem_range.1 (List.mem_of_find?_eq_some hcount)
  have hmul : n * a.weight ≤ 99 * a.weight := Nat.mul_le_mul_right _ (by omega)
  rw [weight_power (by omega), show (unary .exp f).weight = 100 * f.weight + 2 from rfl]
  omega

theorem settles_normalizeExp (h : a.IsSettled k) : Settles k (unary .exp a) a.normalizeExp.value := by
  have hpos := a.weight_pos
  have hweight : (unary .exp a).weight = 100 * a.weight + 2 := rfl
  rcases normalizeExp_cases a with ⟨v, rfl, hv⟩ | ⟨b, rfl, hb⟩ | ⟨b, n, hn, hb⟩ | hself
  · right; left
    rw [hv]
    split
    · exact Nat.lt_add_left _ Nat.one_lt_two
    · rw [weight_ofValue]
      omega
  · right; left
    have hb' : (unary .ln b).weight = b.weight + 2 := rfl
    rw [hb]
    omega
  · right; left
    rw [hb]
    exact weight_power_lt hn
  · rw [hself]
    exact .inr (.inr ⟨rfl, .unary h hself⟩)

omit [LawfulScalar α] in
theorem settles_normalizeLn (h : a.IsSettled k) : Settles k (unary .ln a) a.normalizeLn.value := by
  have hpos := a.weight_pos
  have hweight : (unary .ln a).weight = a.weight + 2 := rfl
  rcases normalizeLn_cases a with ⟨v, rfl, -, hv⟩ | ⟨v, rfl, -, hv⟩ | ⟨b, rfl, hb⟩ | hself
  · right; left
    rw [hv]
    split
    · exact Nat.lt_add_left _ Nat.one_lt_two
    · rw [weight_ofValue]
      omega
  · exact .inl hv
  · right; left
    have hb' : (unary .exp b).weight = 100 * b.weight + 2 := rfl
    rw [hb]
    omega
  · rw [hself]
    exact .inr (.inr ⟨rfl, .unary h hself⟩)

omit [Scalar α] [LawfulScalar α] in
theorem isConst_of_two_le_weight (h : 2 ≤ a.weight) : a.isConst = false := by
  cases a with
  | const v => exact absurd h (by simp [weight])
  | _ => rfl

omit [LawfulScalar α] in
theorem normalizeCos_of_negativeForm? (hc : a.isConst = false) (h : a.negativeForm? = none) :
    a.normalizeCos.value = unary .cos a := by
  rcases normalizeCos_cases a with ⟨v, rfl, -⟩ | ⟨g, hg, -⟩ | hself
  · cases hc
  · cases h.symm.trans hg
  · exact hself

theorem settles_normalizeCos (h : a.IsSettled k) : Settles k (unary .cos a) a.normalizeCos.value := by
  have hweight (b : Formula α) : (unary .cos b).weight = b.weight + 2 := rfl
  cases hc : a.isConst with
  | true =>
    cases a with
    | const v =>
      right; left
      change (if v == pi then const (-1) else ofValue (Scalar.cos v)).weight < _
      split
      · exact Nat.lt_add_left _ Nat.one_lt_two
      · rw [weight_ofValue]
        exact Nat.lt_add_left _ Nat.one_lt_two
    | _ => cases hc
  | false =>
    rcases normalizeCos_cases a with ⟨v, rfl, -⟩ | ⟨g, hg, hcos⟩ | hself
    · cases hc
    · rw [hcos]
      refine settles_of_weight_le (Nat.add_le_add_right (weight_negativeForm?_le hg) 2) fun heq => ?_
      obtain ⟨hsettled, hnone⟩ := h.negativeForm? hg
      have htwo := h.two_le_weight hc
      rw [hweight, hweight] at heq
      exact .unary hsettled (normalizeCos_of_negativeForm? (isConst_of_two_le_weight (by omega)) hnone)
    · rw [hself]
      exact .inr (.inr ⟨rfl, .unary h hself⟩)

/-- The negation of a settled function is settled. -/
theorem isSettled_neg_unary (hop : op ≠ .negate) (h : (unary op a).IsSettled k) :
    (-unary op a).IsSettled k := by
  have hfactor : (unary op a).isFactor := by cases op <;> first | rfl | exact absurd rfl hop
  have hchain : IsChain [unary op a] :=
    { isFactor := by simpa using hfactor
      exponents := (List.length_filterMap_le ..).trans_lt Nat.one_lt_two
      sorted := List.pairwise_singleton .. }
  refine hchain.isSettled_neg_product (List.cons_ne_nil _ _) (by simpa using h) ?_
  rintro s ⟨⟩
  rfl

omit [LawfulScalar α] in
theorem normalizeOdd_of_negativeForm? (h : a.negativeForm? = none) (op : UnaryOp) :
    (a.normalizeOdd op).value = unary op a := by
  rcases normalizeOdd_cases op a with ⟨g, hg, -⟩ | hself
  · cases h.symm.trans hg
  · exact hself

/-- The normal form of an odd function settles if the function has the same rule at the opposite of
its argument. -/
theorem settles_normalizeOdd (op : UnaryOp) (hop : op ≠ .negate)
    (hweight : ∀ b : Formula α, (unary op b).weight = b.weight + 2) (h : a.IsSettled k)
    (hself : (normalizeUnary op a).value = (a.normalizeOdd op).value)
    (hopposite : ∀ g, a.negativeForm? = some g → g.weight = a.weight →
      (normalizeUnary op g).value = (g.normalizeOdd op).value) :
    Settles k (unary op a) (normalizeUnary op a).value := by
  rcases normalizeOdd_cases op a with ⟨g, hg, hodd⟩ | hodd
  · rw [hself, hodd]
    have hle := weight_negativeForm?_le hg
    refine settles_of_weight_le ?_ fun heq => ?_
    · rw [neg_eq, weight_negate, hweight, hweight]
      omega
    · rw [neg_eq, weight_negate, hweight, hweight] at heq
      obtain ⟨hsettled, hnone⟩ := h.negativeForm? hg
      refine isSettled_neg_unary hop (.unary hsettled ?_)
      rw [hopposite g hg (by omega), normalizeOdd_of_negativeForm? hnone]
  · rw [hself, hodd]
    exact .inr (.inr ⟨rfl, .unary h (hself.trans hodd)⟩)

omit [LawfulScalar α] in
theorem normalizeSin_of_isConst (hc : a.isConst = false) :
    a.normalizeSin.value = (a.normalizeOdd .sin).value := by
  rcases normalizeSin_cases a with ⟨v, rfl, -⟩ | h
  · cases hc
  · exact h

omit [LawfulScalar α] in
theorem normalizeTan_of_isConst (hc : a.isConst = false) :
    a.normalizeTan.value = (a.normalizeOdd .tan).value := by
  rcases normalizeTan_cases a with ⟨v, rfl, -⟩ | h
  · cases hc
  · exact h

omit [LawfulScalar α] in
theorem normalizePercent_of_ne_zero (h0 : ∀ v, a = const v → (v == 0) = false) :
    a.normalizePercent.value = (a.normalizeOdd .percent).value := by
  rcases normalizePercent_cases a with ⟨v, hv, hzero, -⟩ | h
  · exact absurd hzero (ne_true_of_eq_false (h0 v hv))
  · exact h

/-- The normal form of an odd function settles if the function has a rule of its own for constants only,
which gives a constant. -/
theorem settles_normalizeOdd_of_isConst (op : UnaryOp) (hop : op ≠ .negate)
    (hweight : ∀ b : Formula α, (unary op b).weight = b.weight + 2)
    (hconst : ∀ v : α, (normalizeUnary op (const v)).value.weight = 1)
    (hother : ∀ b : Formula α, b.isConst = false →
      (normalizeUnary op b).value = (b.normalizeOdd op).value) (h : a.IsSettled k) :
    Settles k (unary op a) (normalizeUnary op a).value := by
  cases hc : a.isConst with
  | true =>
    cases a with
    | const v =>
      right; left
      rw [hconst, hweight]
      exact Nat.lt_add_left _ Nat.one_lt_two
    | _ => cases hc
  | false =>
    have htwo := h.two_le_weight hc
    exact settles_normalizeOdd op hop hweight h (hother a hc) fun g _ heq =>
      hother g (isConst_of_two_le_weight (by omega))

theorem settles_normalizeSin (h : a.IsSettled k) : Settles k (unary .sin a) a.normalizeSin.value :=
  settles_normalizeOdd_of_isConst .sin (by simp) (fun _ => rfl) (fun _ => weight_ofValue _)
    (fun _ => normalizeSin_of_isConst) h

theorem settles_normalizeTan (h : a.IsSettled k) : Settles k (unary .tan a) a.normalizeTan.value :=
  settles_normalizeOdd_of_isConst .tan (by simp) (fun _ => rfl) (fun _ => weight_ofValue _)
    (fun _ => normalizeTan_of_isConst) h

theorem settles_normalizePercent (h : a.IsSettled k) :
    Settles k (unary .percent a) a.normalizePercent.value := by
  rcases normalizePercent_cases a with ⟨v, rfl, -, hzero⟩ | hself
  · rw [hzero]
    exact .inr (.inl (Nat.lt_add_left _ Nat.one_lt_two))
  · refine settles_normalizeOdd .percent (by simp) (fun _ => rfl) h hself fun g hg heq => ?_
    refine normalizePercent_of_ne_zero ?_
    rintro w rfl
    have hc : a.isConst := by
      refine Bool.of_not_eq_false fun hc => ?_
      have htwo := h.two_le_weight hc
      have hone : (const w).weight = 1 := rfl
      omega
    cases h with
    | @const v hv =>
      obtain ⟨hneg, hw⟩ := Option.ite_none_right_eq_some.1 hg
      have h0 := beq_zero_eq_false_of_neg hneg hv.isFinite
      rw [ofValue_of_isProper (isProper_neg hv.isFinite h0)] at hw
      cases hw
      exact (neg_beq_zero hv.isFinite).trans h0
    | _ => cases hc

/-- The normal form of a function of a settled formula settles. That of a negation does if the formula
is a sum or heavier than `k`. -/
theorem settles_normalizeUnary (h : a.IsSettled k) (hk : op = .negate → a.isTerm → k < a.weight) :
    Settles k (unary op a) (normalizeUnary op a).value := by
  cases op with
  | negate => exact settles_normalizeNegation h (hk rfl)
  | exp => exact settles_normalizeExp h
  | ln => exact settles_normalizeLn h
  | cos => exact settles_normalizeCos h
  | sin => exact settles_normalizeSin h
  | tan => exact settles_normalizeTan h
  | percent => exact settles_normalizePercent h

/-- The normal form of an operation on two settled formulas settles if the formulas are heavier than `k`
together or the coefficient of their product or quotient is not minus one. -/
theorem settles_normalizeBinary {op : ArithOp} (ha : a.IsSettled k) (hb : b.IsSettled k)
    (hk : k < (binary op a b).weight ∨
      ∀ m, Monomial.of? (binary op a b) = some m → (m.coeff == -1) = false) :
    Settles k (binary op a b) (normalizeBinary op a b).value := by
  have hweight : 2 ≤ a.weight + b.weight := Nat.add_le_add a.weight_pos b.weight_pos
  cases op with
  | add | sub =>
    refine settles_normalizeSum (two_le_length_signedTerms rfl false) fun t ht => ?_
    exact (List.mem_append.1 ht).elim ha.of_mem_signedTerms hb.of_mem_signedTerms
  | mul | div =>
    refine settles_normalizeProduct hweight ?_ ?_ hk
    · intro g c hg
      exact (List.mem_append.1 hg).elim ha.of_mem_pieces hb.of_mem_pieces
    · intro hconst s hn hs
      exact denom_ne_nil_of_isTerm rfl hconst hn hs

end Formula

end SymCalc
