import Mathlib
import SymCalc.Simplify

/-!
# What the stages of a pass do

One lemma for each function of the simplifier says which results it can have and how they come
about. What holds of simplified formulas follows from these lemmas.
-/

namespace SymCalc

section
variable {α : Type}

theorem Piece.factor?_eq_some {p : Piece α} {below : Bool} {f : Formula α} :
    p.factor? below = some f ↔ p = .factor f below := by
  cases p <;> simp [factor?, and_comm, eq_comm]

theorem Formula.eq_of_argument? {op : UnaryOp} {f a : Formula α} (h : f.argument? op = some a) :
    f = unary op a := by
  unfold argument? at h
  split at h
  · split at h
    · next hop =>
      cases h
      rw [hop]
    · cases h
  · cases h

theorem Monomial.eq_of_functionPair? {m : Monomial α} {f g : UnaryOp} {x y : Formula α}
    (h : m.functionPair? f g = some (x, y)) :
    m.numer = [.unary f x, .unary g y] ∧ m.denom = [] := by
  unfold functionPair? at h
  split at h
  · next a b hn hd =>
    simp only [bind, pure, Option.bind_eq_some_iff, Option.some.injEq, Prod.mk.injEq] at h
    obtain ⟨x', hx, y', hy, rfl, rfl⟩ := h
    rw [hn, Formula.eq_of_argument? hx, Formula.eq_of_argument? hy]
    exact ⟨rfl, hd⟩
  · cases h

theorem mapM_eq_some_iff {β : Type} {f : α → Option β} {xs : List α} {ys : List β} :
    xs.mapM f = some ys ↔ List.Forall₂ (fun x y => f x = some y) xs ys := by
  induction xs generalizing ys with
  | nil => simp [eq_comm]
  | cons x xs ih =>
    simp only [List.mapM_cons, bind, pure, Option.bind_eq_some_iff, Option.some.injEq, ih,
      List.forall₂_cons_left_iff]
    constructor
    · rintro ⟨y, hy, ys, hys, rfl⟩
      exact ⟨y, ys, hy, hys, rfl⟩
    · rintro ⟨y, ys, hy, hys, rfl⟩
      exact ⟨y, hy, ys, hys, rfl⟩

theorem exists_of_mem_mapM {β : Type} {f : α → Option β} {xs : List α} {ys : List β} {y : β}
    (h : xs.mapM f = some ys) (hy : y ∈ ys) : ∃ x ∈ xs, f x = some y := by
  rw [mapM_eq_some_iff] at h
  induction h with
  | nil => cases hy
  | cons hxy _ ih =>
    rcases List.mem_cons.1 hy with rfl | hy
    · exact ⟨_, List.mem_cons_self, hxy⟩
    · obtain ⟨x, hx, hxy⟩ := ih hy
      exact ⟨x, List.mem_cons_of_mem _ hx, hxy⟩

theorem mapM_perm {β : Type} {f : α → Option β} {xs xs' : List α} {ys : List β}
    (hp : xs.Perm xs') (h : xs.mapM f = some ys) : ∃ ys', xs'.mapM f = some ys' ∧ ys.Perm ys' := by
  obtain ⟨ys', hys', hperm⟩ := List.perm_comp_forall₂ hp.symm (mapM_eq_some_iff.1 h)
  exact ⟨ys', mapM_eq_some_iff.2 hys', hperm.symm⟩

theorem eraseFirst?_eq_none {p : α → Bool} {xs : List α} :
    eraseFirst? p xs = none ↔ ∀ x ∈ xs, p x = false := by
  induction xs with
  | nil => simp [eraseFirst?]
  | cons x xs ih => cases h : p x <;> simp [eraseFirst?, h, ih]

theorem exists_of_eraseFirst? {p : α → Bool} {xs ys : List α} (h : eraseFirst? p xs = some ys) :
    ∃ as x bs, xs = as ++ x :: bs ∧ p x ∧ ys = as ++ bs := by
  induction xs generalizing ys with
  | nil => cases h
  | cons x xs ih =>
    rw [eraseFirst?] at h
    split at h
    · next hx =>
      cases h
      exact ⟨[], x, xs, rfl, hx, rfl⟩
    · obtain ⟨zs, hz, rfl⟩ := Option.map_eq_some_iff.1 h
      obtain ⟨as, y, bs, rfl, hy, rfl⟩ := ih hz
      exact ⟨x :: as, y, bs, rfl, hy, rfl⟩

theorem sublist_of_eraseFirst? {p : α → Bool} {xs ys : List α} (h : eraseFirst? p xs = some ys) :
    ys.Sublist xs := by
  obtain ⟨as, x, bs, rfl, -, rfl⟩ := exists_of_eraseFirst? h
  exact (List.sublist_cons_self x bs).append_left as

end

namespace Traced

variable {β γ : Type}

@[simp] theorem value_map (f : β → γ) (t : Traced β) : (f <$> t).value = f t.value := rfl

end Traced

variable {α : Type} [Scalar α]

/-! ## Products -/

theorem sublist_cancel (numer denom : List (Formula α)) :
    (cancel numer denom).1.Sublist numer ∧ (cancel numer denom).2.Sublist denom := by
  induction numer generalizing denom with
  | nil => exact ⟨.refl _, .refl _⟩
  | cons f numer ih =>
    rw [cancel]
    split
    · next rest h =>
      obtain ⟨hn, hd⟩ := ih rest
      exact ⟨hn.cons f, hd.trans (sublist_of_eraseFirst? h)⟩
    · exact ⟨(ih denom).1.cons_cons f, (ih denom).2⟩

namespace Monomial

variable {m : Monomial α}

theorem eq_of_ofPieces? {ps : List (Piece α)} (h : ofPieces? ps = some m) :
    (ps.foldl Piece.under 1 == 0) = false ∧ Scalar.isFinite m.coeff ∧
      m = ⟨ps.foldl Piece.above 1 / ps.foldl Piece.under 1, ps.filterMap (·.factor? false),
        ps.filterMap (·.factor? true)⟩ := by
  simp only [ofPieces?] at h
  split at h
  · cases h
  · next hd =>
    obtain ⟨hf, hm⟩ := Option.ite_none_right_eq_some.1 h
    cases hm
    exact ⟨eq_false_of_ne_true hd, hf, rfl⟩

theorem of_ofPieces?_eq_none {ps : List (Piece α)} (h : ofPieces? ps = none) :
    ps.foldl Piece.under 1 == 0 ∨
      Scalar.isFinite (ps.foldl Piece.above 1 / ps.foldl Piece.under 1) = false := by
  simp only [ofPieces?] at h
  split at h
  · next hd => exact .inl hd
  · split at h
    · cases h
    · next hf => exact .inr (eq_false_of_ne_true hf)

theorem value_mergeExponentials (m : Monomial α) : m.mergeExponentials.value =
    if (m.numer.filterMap Formula.exponent?).length +
        (m.denom.filterMap Formula.exponent?).length < 2 then m
    else { m with
      numer := withoutExponentials m.numer ++ [.unary .exp (mergedExponent
        (m.numer.filterMap Formula.exponent?) (m.denom.filterMap Formula.exponent?))]
      denom := withoutExponentials m.denom } :=
  apply_ite Traced.value _ _ _

theorem coeff_mergeExponentials (m : Monomial α) : m.mergeExponentials.value.coeff = m.coeff := by
  rw [value_mergeExponentials]
  split <;> rfl

end Monomial

namespace Formula

variable {f g : Formula α}

/-- The three ways in which a product is normalized. -/
theorem normalizeProduct_cases (f : Formula α) :
    (Monomial.of? f = none ∧ f.normalizeProduct.value = undefined) ∨
    ∃ m, Monomial.of? f = some m ∧
      ((m.coeff == 0 ∧ f.normalizeProduct.value = const 0) ∨
      ((m.coeff == 0) = false ∧
        m.cancelFactors.value.tangentQuotients.steps ⊆ f.normalizeProduct.steps ∧
        f.normalizeProduct.value =
          m.cancelFactors.value.tangentQuotients.value.mergeExponentials.value.sorted.toFormula)) := by
  unfold normalizeProduct Monomial.of?
  simp only
  split
  · next h => exact .inl ⟨h, rfl⟩
  · next m h =>
    refine .inr ⟨m, h, ?_⟩
    by_cases h0 : m.coeff == 0
    · exact .inl ⟨h0, by simp [h0]⟩
    · refine .inr ⟨eq_false_of_ne_true h0, ?_, by simp [h0]⟩
      simp only [Traced.steps_bind, h0]
      intro s hs
      simp [hs]

theorem normalizeProduct_of_coeff_eq_zero {m : Monomial α} (hm : Monomial.of? f = some m)
    (h0 : m.coeff == 0) : f.normalizeProduct.value = const 0 := by
  rcases normalizeProduct_cases f with ⟨hnone, -⟩ | ⟨m', hm', ⟨-, h⟩ | ⟨hne, -, -⟩⟩
  · cases hnone.symm.trans hm
  · exact h
  · cases hm'.symm.trans hm
    exact absurd h0 (ne_true_of_eq_false hne)

theorem normalizeProduct_of_coeff_ne_zero {m : Monomial α} (hm : Monomial.of? f = some m)
    (h0 : (m.coeff == 0) = false) : f.normalizeProduct.value =
      m.cancelFactors.value.tangentQuotients.value.mergeExponentials.value.sorted.toFormula := by
  rcases normalizeProduct_cases f with ⟨hnone, -⟩ | ⟨m', hm', ⟨hzero, -⟩ | ⟨-, -, h⟩⟩
  · cases hnone.symm.trans hm
  · cases hm'.symm.trans hm
    exact absurd hzero (ne_true_of_eq_false h0)
  · cases hm'.symm.trans hm
    exact h

end Formula

/-! ## Sums -/

theorem Monomial.eq_of_logArgument? {m : Monomial α} {a : Formula α}
    (h : m.logArgument? = some a) :
    m.numer = [.unary .ln a] ∧ m.denom = [] ∧ Scalar.magnitude m.coeff == 1 := by
  unfold logArgument? at h
  split at h
  · next hn hd =>
    obtain ⟨hm, ha⟩ := Option.ite_none_right_eq_some.1 h
    cases ha
    exact ⟨hn, hd, hm⟩
  · cases h

/-- The logarithms among the terms, of which those `added` have positive coefficients. -/
def logArguments (added : Bool) (terms : List (Monomial α)) : List (Formula α) :=
  ((terms.filter (·.logArgument?.isSome)).filter fun m => Scalar.lt 0 m.coeff == added).filterMap
    Monomial.logArgument?

theorem value_mergeLogarithms (terms : List (Monomial α)) : (mergeLogarithms terms).value =
    if (terms.filter (·.logArgument?.isSome)).length < 2 then terms
    else terms.filter (!·.logArgument?.isSome) ++
      [mergedLogarithm (logArguments true terms) (logArguments false terms)] := by
  have hfalse (m : Monomial α) : (Scalar.lt 0 m.coeff == false) = !Scalar.lt 0 m.coeff := by
    cases Scalar.lt 0 m.coeff <;> rfl
  have htrue (m : Monomial α) : (Scalar.lt 0 m.coeff == true) = Scalar.lt 0 m.coeff := by
    cases Scalar.lt 0 m.coeff <;> rfl
  unfold mergeLogarithms
  simp only [List.partition_eq_filter_filter, logArguments, hfalse, htrue]
  exact apply_ite Traced.value _ _ _

section
variable {a b t : Monomial α} {f : Formula α} {step : Step}

theorem exists_of_cosineSum? (h : cosineSum? a b = some f) : ∃ x y u v,
    a.functionPair? .cos .cos = some (x, y) ∧ b.functionPair? .sin .sin = some (u, v) ∧
      x == u ∧ y == v ∧ f = .unary .cos (if a.coeff == b.coeff then x - y else x + y) := by
  simp only [cosineSum?, bind, Option.bind_eq_some_iff, pure, Option.some.injEq,
    Prod.exists] at h
  obtain ⟨x, y, hxy, u, v, huv, ⟨⟩, hguard, rfl⟩ := h
  have hguard : x == u ∧ y == v := by simpa [guard] using hguard
  exact ⟨x, y, u, v, hxy, huv, hguard.1, hguard.2, rfl⟩

theorem exists_of_sineSum? (h : sineSum? a b = some f) : ∃ q p p' q',
    a.functionPair? .cos .sin = some (q, p) ∧ b.functionPair? .cos .sin = some (p', q') ∧
      p == p' ∧ q == q' ∧ f = .unary .sin (if a.coeff == b.coeff then p + q else p - q) := by
  simp only [sineSum?, bind, Option.bind_eq_some_iff, pure, Option.some.injEq,
    Prod.exists] at h
  obtain ⟨q, p, hqp, p', q', hpq, ⟨⟩, hguard, rfl⟩ := h
  have hguard : p == p' ∧ q == q' ∧ (p == q) = false := by simpa [guard, and_assoc] using hguard
  exact ⟨q, p, p', q', hqp, hpq, hguard.1, hguard.2.1, rfl⟩

/-- A merged term has the coefficient of the first of the two terms. -/
theorem exists_of_angleSum? (h : angleSum? a b = some (t, step)) :
    Scalar.magnitude a.coeff == Scalar.magnitude b.coeff ∧
      ∃ f, t = ⟨a.coeff, [f], []⟩ ∧ (cosineSum? a b = some f ∨ sineSum? a b = some f) := by
  unfold angleSum? at h
  split at h
  · next hm =>
    refine ⟨hm, ?_⟩
    split at h
    · next hf =>
      cases h
      exact ⟨_, rfl, .inl hf⟩
    · next hf =>
      cases h
      exact ⟨_, rfl, .inr hf⟩
    · cases h
  · cases h

/-- Scanning the other terms finds the first one that can be merged with `a`. -/
theorem exists_of_mergeWith? {terms : List (Monomial α)} {m : Merge α}
    (h : mergeWith? a terms = some m) :
    ∃ (j : ℕ) (hj : j < terms.length), angleSum? a terms[j] = some (m.term, m.step) ∧
      m.others = terms.eraseIdx j ∧
      ∀ l (hl : l < terms.length), l < j → angleSum? a terms[l] = none := by
  induction terms generalizing m with
  | nil => cases h
  | cons b terms ih =>
    rw [mergeWith?] at h
    split at h
    · next hb =>
      cases h
      exact ⟨0, Nat.succ_pos _, hb, rfl, fun l _ hl => absurd hl (Nat.not_lt_zero l)⟩
    · next hb =>
      obtain ⟨m', hm', rfl⟩ := Option.map_eq_some_iff.1 h
      obtain ⟨j, hj, hjb, hothers, hfirst⟩ := ih hm'
      refine ⟨j + 1, Nat.succ_lt_succ hj, hjb, congrArg (b :: ·) hothers, fun l hl hlj => ?_⟩
      cases l with
      | zero => exact hb
      | succ l => exact hfirst l (Nat.lt_of_succ_lt_succ hl) (Nat.lt_of_succ_lt_succ hlj)

/-- The search finds the first term that can be merged with another one. -/
theorem exists_of_firstMerge? {before terms : List (Monomial α)} {m : Merge α}
    (h : firstMerge? before terms = some m) :
    ∃ (i : ℕ) (hi : i < terms.length),
      mergeWith? terms[i] (before ++ terms.eraseIdx i) = some m ∧
      ∀ k (hk : k < terms.length), k < i →
        mergeWith? terms[k] (before ++ terms.eraseIdx k) = none := by
  induction terms generalizing before with
  | nil => cases h
  | cons a terms ih =>
    rw [firstMerge?] at h
    split at h
    · next m' hm =>
      cases h
      exact ⟨0, Nat.succ_pos _, hm, fun k _ hk => absurd hk (Nat.not_lt_zero k)⟩
    · next hnone =>
      obtain ⟨i, hi, him, hfirst⟩ := ih h
      have hmove (k : ℕ) : before ++ (a :: terms).eraseIdx (k + 1) =
          before ++ [a] ++ terms.eraseIdx k := by simp
      refine ⟨i + 1, Nat.succ_lt_succ hi, hmove i ▸ him, fun k hk hki => ?_⟩
      cases k with
      | zero => exact hnone
      | succ k =>
        exact hmove k ▸ hfirst k (Nat.lt_of_succ_lt_succ hk) (Nat.lt_of_succ_lt_succ hki)

theorem perm_of_mergeWith? {terms : List (Monomial α)} {m : Merge α}
    (h : mergeWith? a terms = some m) :
    ∃ b, angleSum? a b = some (m.term, m.step) ∧ terms.Perm (b :: m.others) := by
  obtain ⟨j, hj, hb, hothers, -⟩ := exists_of_mergeWith? h
  rw [hothers]
  exact ⟨terms[j], hb, (List.getElem_cons_eraseIdx_perm hj).symm⟩

/-- A merge takes two terms away. -/
theorem perm_of_firstMerge? {before terms : List (Monomial α)} {m : Merge α}
    (h : firstMerge? before terms = some m) : ∃ a b,
      angleSum? a b = some (m.term, m.step) ∧ (before ++ terms).Perm (a :: b :: m.others) := by
  obtain ⟨i, hi, hm, -⟩ := exists_of_firstMerge? h
  obtain ⟨b, hb, hp⟩ := perm_of_mergeWith? hm
  have hterms := (List.getElem_cons_eraseIdx_perm hi).symm.append_left before
  exact ⟨terms[i], b, hb, (hterms.trans List.perm_middle).trans (hp.cons _)⟩

/-- What every merge keeps, merging all sums of angles keeps. -/
theorem mergeAngleSums_invariant {P : List (Monomial α) → Prop} {terms : List (Monomial α)}
    (hmerge : ∀ ts a b t step rest, angleSum? a b = some (t, step) → ts.Perm (a :: b :: rest) →
      P ts → P (rest ++ [t]))
    (h : P terms) : P (mergeAngleSums terms).value := by
  fun_induction mergeAngleSums terms with
  | case1 => exact h
  | case2 terms m hm _ ih =>
    obtain ⟨a, b, hab, hp⟩ := perm_of_firstMerge? hm
    exact ih (hmerge terms a b m.term m.step m.others hab hp h)

end

/-- The sum of the monomials without factors. -/
def constantPart (ms : List (Monomial α)) : α :=
  (ms.filter Monomial.isConstant).foldl (fun v m => v + m.coeff) 0

/-- The other monomials after all merging. -/
def mergedTerms (ms : List (Monomial α)) : List (Monomial α) :=
  (mergeAngleSums (mergeLogarithms (combineLikeTerms
    ((ms.filter (!·.isConstant)).map Monomial.sorted)).value).value).value

/-- The two ways in which a sum is normalized. -/
theorem Formula.normalizeSum_cases (f : Formula α) :
    ((f.signedTerms false).mapM Monomial.ofTerm? = none ∧ f.normalizeSum.value = undefined) ∨
    ∃ ms, (f.signedTerms false).mapM Monomial.ofTerm? = some ms ∧ f.normalizeSum.value =
      if Scalar.isFinite (constantPart ms) && (mergedTerms ms).all (Scalar.isFinite ·.coeff) then
        assemble (constantPart ms) (mergedTerms ms)
      else undefined := by
  unfold normalizeSum
  split
  · next h => exact .inl ⟨h, rfl⟩
  · next ms h =>
    refine .inr ⟨ms, h, ?_⟩
    simp only [List.partition_eq_filter_filter, Traced.value_bind, constantPart, mergedTerms]
    have hnot : not ∘ Monomial.isConstant = fun m : Monomial α => !m.isConstant := rfl
    rw [hnot, apply_ite Traced.value]
    rfl

/-- The terms that are read from a sum, after all merging, make up its normal form. -/
theorem Formula.normalizeSum_of_mapM {f : Formula α} {ms : List (Monomial α)}
    (hms : (f.signedTerms false).mapM Monomial.ofTerm? = some ms) : f.normalizeSum.value =
      if Scalar.isFinite (constantPart ms) && (mergedTerms ms).all (Scalar.isFinite ·.coeff) then
        assemble (constantPart ms) (mergedTerms ms)
      else undefined := by
  rcases normalizeSum_cases f with ⟨hnone, -⟩ | ⟨ms', hms', h⟩
  · cases hnone.symm.trans hms
  · cases hms'.symm.trans hms
    exact h

/-! ## Functions -/

namespace Formula

variable {f g : Formula α}

/-- Whether the formula is a sum or a difference. -/
def isSum : Formula α → Bool
  | binary .add _ _ | binary .sub _ _ => true
  | _ => false

theorem not_isBefore_of_isSum (hf : f.isSum) (v : α) : (const v).isBefore f = false := by
  cases f with
  | binary op a b => rfl
  | _ => cases hf

/-- The ways in which a formula can count as negative. -/
theorem negativeForm?_cases (h : f.negativeForm? = some g) :
    f = unary .negate g ∨ (∃ v, f = const v ∧ Scalar.lt v 0 ∧ g = ofValue (-v)) ∨
      (∃ m, Monomial.of? f = some m ∧ g = m.negated.toFormula) ∨
      (g = (-f).normalizeSum.value ∧ g.isBefore f ∧ f.isSum) := by
  cases f with
  | const v =>
    obtain ⟨hv, hg⟩ := Option.ite_none_right_eq_some.1 h
    cases hg
    exact .inr (.inl ⟨v, rfl, hv, rfl⟩)
  | var x => cases h
  | unary op a =>
    cases op with
    | negate =>
      cases h
      exact .inl rfl
    | _ => cases h
  | binary op a b =>
    cases op with
    | add | sub =>
      obtain ⟨hlt, hg⟩ := Option.ite_none_right_eq_some.1 h
      cases hg
      exact .inr (.inr (.inr ⟨rfl, hlt, rfl⟩))
    | mul | div =>
      simp only [negativeForm?, bind, pure, Option.bind_eq_some_iff, Option.some.injEq] at h
      obtain ⟨m, hm, ⟨⟩, hneg, rfl⟩ := h
      exact .inr (.inr (.inl ⟨m, hm, rfl⟩))

theorem exists_of_logPower? {a : Formula α} {k : Nat} (h : f.logPower? = some (a, k)) :
    ∃ coeff, Monomial.of? f = some ⟨coeff, [unary .ln a], []⟩ ∧ Scalar.toCount? coeff = some k ∧
      2 ≤ k := by
  unfold logPower? at h
  split at h
  · next coeff base hm =>
    split at h
    · next hk =>
      cases h
      exact ⟨coeff, hm, hk, Nat.le_add_left ..⟩
    · cases h
  · cases h

theorem normalizeNegation_cases (f : Formula α) :
    (∃ v, f = const v ∧ f.normalizeNegation.value = ofValue (-v)) ∨
      (∃ a, f = unary .negate a ∧ f.normalizeNegation.value = a) ∨
      f.normalizeNegation = (-f).normalizeSum ∨ f.normalizeNegation = (-f).normalizeProduct := by
  cases f with
  | const v => exact .inl ⟨v, rfl, rfl⟩
  | var x => exact .inr (.inr (.inr rfl))
  | unary op a =>
    cases op with
    | negate => exact .inr (.inl ⟨a, rfl, rfl⟩)
    | _ => exact .inr (.inr (.inr rfl))
  | binary op a b =>
    cases op with
    | add | sub => exact .inr (.inr (.inl rfl))
    | mul | div => exact .inr (.inr (.inr rfl))

theorem normalizeExp_cases (f : Formula α) :
    (∃ v, f = const v ∧ f.normalizeExp.value =
        if v == 1 then const Scalar.euler else ofValue (Scalar.exp v)) ∨
      (∃ a, f = unary .ln a ∧ f.normalizeExp.value = a) ∨
      (∃ a k, f.logPower? = some (a, k) ∧ f.normalizeExp.value = a.power k) ∨
      f.normalizeExp.value = unary .exp f := by
  unfold normalizeExp
  split
  · exact .inl ⟨_, rfl, rfl⟩
  · exact .inr (.inl ⟨_, rfl, rfl⟩)
  · split
    · next h => exact .inr (.inr (.inl ⟨_, _, h, rfl⟩))
    · exact .inr (.inr (.inr rfl))

theorem normalizeLn_cases (f : Formula α) :
    (∃ v, f = const v ∧ Scalar.lt 0 v ∧ f.normalizeLn.value =
        if v == Scalar.euler then const 1 else ofValue (Scalar.ln v)) ∨
      (∃ v, f = const v ∧ Scalar.lt 0 v = false ∧ f.normalizeLn.value = undefined) ∨
      (∃ a, f = unary .exp a ∧ f.normalizeLn.value = a) ∨ f.normalizeLn.value = unary .ln f := by
  unfold normalizeLn
  split
  · split
    · next h => exact .inl ⟨_, rfl, h, rfl⟩
    · next h => exact .inr (.inl ⟨_, rfl, eq_false_of_ne_true h, rfl⟩)
  · exact .inr (.inr (.inl ⟨_, rfl, rfl⟩))
  · exact .inr (.inr (.inr rfl))

theorem normalizeCos_cases (f : Formula α) :
    (∃ v, f = const v ∧ f.normalizeCos.value =
        if v == Scalar.pi then const (-1) else ofValue (Scalar.cos v)) ∨
      (∃ g, f.negativeForm? = some g ∧ f.normalizeCos.value = unary .cos g) ∨
      f.normalizeCos.value = unary .cos f := by
  unfold normalizeCos
  split
  · exact .inl ⟨_, rfl, rfl⟩
  · split
    · next h => exact .inr (.inl ⟨_, h, rfl⟩)
    · exact .inr (.inr rfl)

theorem normalizeOdd_cases (op : UnaryOp) (f : Formula α) :
    (∃ g, f.negativeForm? = some g ∧ (f.normalizeOdd op).value = -unary op g) ∨
      (f.normalizeOdd op).value = unary op f := by
  unfold normalizeOdd
  split
  · next h => exact .inl ⟨_, h, rfl⟩
  · exact .inr rfl

theorem normalizeSin_cases (f : Formula α) :
    (∃ v, f = const v ∧ f.normalizeSin.value = ofValue (Scalar.sin v)) ∨
      f.normalizeSin.value = (f.normalizeOdd .sin).value := by
  unfold normalizeSin
  split
  · exact .inl ⟨_, rfl, rfl⟩
  · exact .inr rfl

theorem normalizeTan_cases (f : Formula α) :
    (∃ v, f = const v ∧ f.normalizeTan.value = ofValue (Scalar.tan v)) ∨
      f.normalizeTan.value = (f.normalizeOdd .tan).value := by
  unfold normalizeTan
  split
  · exact .inl ⟨_, rfl, rfl⟩
  · exact .inr rfl

theorem normalizePercent_cases (f : Formula α) :
    (∃ v, f = const v ∧ v == 0 ∧ f.normalizePercent.value = const 0) ∨
      f.normalizePercent.value = (f.normalizeOdd .percent).value := by
  unfold normalizePercent
  split
  · next h =>
    refine .inl ?_
    cases f with
    | const v =>
      refine ⟨v, rfl, ?_, rfl⟩
      simp only [value?] at h
      split at h
      · exact h
      · cases h
    | _ => cases h
  · exact .inr rfl

end Formula

/-! ## Passes -/

namespace Formula

@[simp] theorem simplifyOnce_const (v : α) : (const v).simplifyOnce = ofValue v := rfl

theorem simplifyOnce_unary (op : UnaryOp) (a : Formula α) : (unary op a).simplifyOnce =
    if a.simplifyOnce.isUndefined then undefined else (normalizeUnary op a.simplifyOnce).value :=
  apply_ite Traced.value _ _ _

theorem simplifyOnce_binary (op : ArithOp) (a b : Formula α) : (binary op a b).simplifyOnce =
    if a.simplifyOnce.isUndefined || b.simplifyOnce.isUndefined then undefined
    else (normalizeBinary op a.simplifyOnce b.simplifyOnce).value :=
  apply_ite Traced.value _ _ _

theorem value_simplifyFor (f : Formula α) (limit : Nat) : (f.simplifyFor (limit + 1)).value =
    if f.simplifyOnce == f then (f.simplifyOnce, true)
    else (f.simplifyOnce.simplifyFor limit).value :=
  apply_ite Traced.value _ _ _

end Formula
end SymCalc
