import SymCalc.Proofs.Formula.Leaves
import SymCalc.Proofs.Scalar.Lawful
import SymCalc.Proofs.Simplify.Shape

/-!
# The leaves of a simplified formula

* `IsClosed`: a property of finite values that all constants made by a pass have;
* `Monomial.Forall`: all leaves of the factors of a monomial have given properties.

The result of a pass is undefined as a whole or has no undefined part: all its constants have every
closed property, and its variables are among those of the formula (`Formula.Forall.simplifyOnce`).
-/

namespace SymCalc

section
variable {α : Type} {P : α → Prop} {Q : String → Prop} {f g : Formula α} {below b : Bool}

namespace Formula

theorem Forall.of_mem_pieces (hf : f.Forall P Q) (h : .factor g b ∈ f.pieces below) :
    g.Forall P Q := by
  induction f generalizing below with
  | const v => simp [pieces] at h
  | var x =>
    obtain ⟨rfl, -⟩ := Piece.factor.inj (List.mem_singleton.1 h)
    exact hf
  | unary op a ih =>
    cases op with
    | negate => exact ih hf (by simpa [pieces] using h)
    | _ =>
      obtain ⟨rfl, -⟩ := Piece.factor.inj (List.mem_singleton.1 h)
      exact hf
  | binary op a b iha ihb =>
    cases op with
    | mul | div => exact (List.mem_append.1 h).elim (iha hf.1) (ihb hf.2)
    | add | sub =>
      obtain ⟨rfl, -⟩ := Piece.factor.inj (List.mem_singleton.1 h)
      exact hf

theorem Forall.of_mem_signedTerms (hf : f.Forall P Q) (h : (b, g) ∈ f.signedTerms below) :
    g.Forall P Q := by
  induction f generalizing below with
  | const v | var x =>
    obtain ⟨-, rfl⟩ := Prod.mk.inj (List.mem_singleton.1 h)
    exact hf
  | unary op a ih =>
    cases op with
    | negate => exact ih hf h
    | _ =>
      obtain ⟨-, rfl⟩ := Prod.mk.inj (List.mem_singleton.1 h)
      exact hf
  | binary op a b iha ihb =>
    cases op with
    | add | sub => exact (List.mem_append.1 h).elim (iha hf.1) (ihb hf.2)
    | mul | div =>
      obtain ⟨-, rfl⟩ := Prod.mk.inj (List.mem_singleton.1 h)
      exact hf

end Formula
end

variable {α : Type} [Scalar α]

/-- Whether the property is one of finite values that the constants which a pass writes into its
result have: the finite results of computations, and the values that are written down in the
rules. -/
structure IsClosed (P : α → Prop) : Prop where
  isFinite : ∀ v, P v → Scalar.isFinite v
  ofValue : ∀ v w, Scalar.isFinite v → Formula.ofValue v = .const w → P w
  zero : P 0
  one : P 1
  negOne : P (-1)
  euler : P Scalar.euler

variable {P : α → Prop} {Q : String → Prop}

namespace Formula

variable {f : Formula α} {fs : List (Formula α)}

theorem exists_ofValue_eq_const (v : α) : ∃ w, ofValue v = const w := by
  unfold ofValue undefined
  split
  · split <;> exact ⟨_, rfl⟩
  · exact ⟨_, rfl⟩

theorem forall_ofValue (hP : IsClosed P) {v : α} (hv : Scalar.isFinite v) :
    (ofValue v : Formula α).Forall P Q := by
  obtain ⟨w, hw⟩ := exists_ofValue_eq_const v
  rw [hw]
  exact hP.ofValue v w hv hw

/-- The constant for any value is undefined or has the property. -/
theorem undefined_or_forall_ofValue (hP : IsClosed P) (v : α) :
    (ofValue v : Formula α) = undefined ∨ (ofValue v : Formula α).Forall P Q := by
  cases hv : Scalar.isFinite v with
  | false => exact .inl (ofValue_of_not_isFinite hv)
  | true => exact .inr (forall_ofValue hP hv)

theorem mem_sort : f ∈ sort fs ↔ f ∈ fs := List.mem_mergeSort

end Formula

open Formula

/-- Whether the leaves of all factors have the properties. -/
def Monomial.Forall (P : α → Prop) (Q : String → Prop) (m : Monomial α) : Prop :=
  (∀ f ∈ m.numer, f.Forall P Q) ∧ ∀ f ∈ m.denom, f.Forall P Q

/-! ## Products -/

namespace Monomial

variable {m : Monomial α} {f : Formula α}

theorem forall_of? (h : of? f = some m) (hf : f.Forall P Q) : m.Forall P Q := by
  obtain ⟨-, -, rfl⟩ := eq_of_ofPieces? h
  constructor <;>
  · intro g hg
    obtain ⟨p, hp, hpg⟩ := List.mem_filterMap.1 hg
    exact hf.of_mem_pieces (Piece.factor?_eq_some.1 hpg ▸ hp)

theorem Forall.sorted (h : m.Forall P Q) : m.sorted.Forall P Q :=
  ⟨fun f hf => h.1 f (mem_sort.1 hf), fun f hf => h.2 f (mem_sort.1 hf)⟩

theorem Forall.negated (h : m.Forall P Q) : m.negated.Forall P Q := h

theorem Forall.numerator (hP : IsClosed P) (hc : Scalar.isFinite m.coeff) (h : m.Forall P Q) :
    m.numerator.Forall P Q := by
  unfold Monomial.numerator
  split
  · exact forall_ofValue hP hc
  · split
    · exact forall_product hP.one h.1
    · split
      · exact forall_product (Q := Q) hP.one h.1
      · exact forall_product hP.one (List.forall_mem_cons.2 ⟨forall_ofValue hP hc, h.1⟩)

theorem Forall.toFormula (hP : IsClosed P) (hc : Scalar.isFinite m.coeff) (h : m.Forall P Q) :
    m.toFormula.Forall P Q := by
  unfold Monomial.toFormula
  split
  · exact h.numerator hP hc
  · exact ⟨h.numerator hP hc, forall_product hP.one h.2⟩

theorem Forall.cancelFactors (h : m.Forall P Q) : m.cancelFactors.value.Forall P Q :=
  ⟨fun f hf => h.1 f ((sublist_cancel ..).1.mem hf),
    fun f hf => h.2 f ((sublist_cancel ..).2.mem hf)⟩

theorem forall_combineTangents {numer denom tangents : List (Formula α)}
    (hn : ∀ f ∈ numer, f.Forall P Q) (hd : ∀ f ∈ denom, f.Forall P Q)
    (ht : ∀ f ∈ tangents, f.Forall P Q) :
    (∀ f ∈ (combineTangents numer denom tangents).value.1, f.Forall P Q) ∧
      ∀ f ∈ (combineTangents numer denom tangents).value.2, f.Forall P Q := by
  fun_induction combineTangents numer denom tangents with
  | case1 => exact ⟨ht, hd⟩
  | case2 a numer denom tangents rest hrest ih =>
    obtain ⟨ha, hn⟩ := List.forall_mem_cons.1 hn
    exact ih hn (fun f hf => hd f ((sublist_of_eraseFirst? hrest).mem hf))
      (List.forall_mem_append.2 ⟨ht, List.forall_mem_singleton.2 ha⟩)
  | case4 a numer denom tangents rest hrest ih =>
    obtain ⟨ha, hn⟩ := List.forall_mem_cons.1 hn
    have hrest : ∀ f ∈ rest, f.Forall P Q := fun f hf =>
      hd f ((sublist_of_eraseFirst? hrest).mem hf)
    exact ih hn (List.forall_mem_append.2 ⟨hrest, List.forall_mem_singleton.2 ha⟩) ht
  | case3 _ _ _ _ _ ih | case5 _ _ _ _ _ ih | case6 _ _ _ _ _ _ ih =>
    obtain ⟨hf, hn⟩ := List.forall_mem_cons.1 hn
    exact ⟨List.forall_mem_cons.2 ⟨hf, (ih hn hd ht).1⟩, (ih hn hd ht).2⟩

theorem Forall.tangentQuotients (h : m.Forall P Q) : m.tangentQuotients.value.Forall P Q :=
  forall_combineTangents h.1 h.2 (List.forall_mem_nil _)

theorem forall_mergedExponent (hP : IsClosed P) {fs gs : List (Formula α)}
    (hf : ∀ f ∈ fs, f.Forall P Q) (hg : ∀ g ∈ gs, g.Forall P Q) :
    (mergedExponent fs gs).Forall P Q := by
  unfold mergedExponent
  split
  · exact forall_sum (Q := Q) hP.zero hg
  · exact forall_foldl (forall_sum hP.zero hf) hg

theorem Forall.mergeExponentials (hP : IsClosed P) (h : m.Forall P Q) :
    m.mergeExponentials.value.Forall P Q := by
  have hexponents {fs : List (Formula α)} (hs : ∀ f ∈ fs, f.Forall P Q) :
      ∀ f ∈ fs.filterMap exponent?, f.Forall P Q := by
    intro f hf
    obtain ⟨g, hg, hgf⟩ := List.mem_filterMap.1 hf
    unfold exponent? at hgf
    split at hgf
    · cases hgf
      exact (hs _ hg : (unary .exp f).Forall P Q)
    · cases hgf
  have hothers {fs : List (Formula α)} (hs : ∀ f ∈ fs, f.Forall P Q) :
      ∀ f ∈ withoutExponentials fs, f.Forall P Q := fun f hf => hs f (List.mem_filter.1 hf).1
  rw [value_mergeExponentials]
  split
  · exact h
  · exact ⟨List.forall_mem_append.2 ⟨hothers h.1, List.forall_mem_singleton.2
      (forall_mergedExponent (Q := Q) hP (hexponents h.1) (hexponents h.2))⟩, hothers h.2⟩

end Monomial

/-- A product whose coefficient has a finite value is defined. -/
theorem Formula.Forall.normalizeProduct_of_of? (hP : IsClosed P) {f : Formula α} {m : Monomial α}
    (hf : f.Forall P Q) (hm : Monomial.of? f = some m) : f.normalizeProduct.value.Forall P Q := by
  cases h0 : m.coeff == 0 with
  | true =>
    rw [normalizeProduct_of_coeff_eq_zero hm h0]
    exact hP.zero
  | false =>
    have hc : Scalar.isFinite
        m.cancelFactors.value.tangentQuotients.value.mergeExponentials.value.coeff := by
      rw [Monomial.coeff_mergeExponentials]
      exact (Monomial.eq_of_ofPieces? hm).2.1
    rw [normalizeProduct_of_coeff_ne_zero hm h0]
    exact ((((Monomial.forall_of? hm hf).cancelFactors.tangentQuotients).mergeExponentials
      hP).sorted).toFormula hP hc

theorem Formula.Forall.normalizeProduct (hP : IsClosed P) {f : Formula α} (hf : f.Forall P Q) :
    f.normalizeProduct.value = undefined ∨ f.normalizeProduct.value.Forall P Q := by
  rcases normalizeProduct_cases f with ⟨-, h⟩ | ⟨m, hm, -⟩
  · exact .inl h
  · exact .inr (hf.normalizeProduct_of_of? hP hm)

/-! ## Sums -/

section
variable {m : Monomial α} {terms : List (Monomial α)}

theorem Monomial.forall_ofTerm? {term : Bool × Formula α} (h : ofTerm? term = some m)
    (ht : term.2.Forall P Q) : m.Forall P Q := by
  obtain ⟨m', hm', rfl⟩ := Option.map_eq_some_iff.1 h
  have := forall_of? hm' ht
  split <;> exact this

theorem Monomial.isFinite_of_ofTerm? [LawfulScalar α] {term : Bool × Formula α}
    (h : ofTerm? term = some m) : Scalar.isFinite m.coeff := by
  obtain ⟨m', hm', rfl⟩ := Option.map_eq_some_iff.1 h
  have hfin : Scalar.isFinite m'.coeff := (eq_of_ofPieces? hm').2.1
  split
  · exact (LawfulScalar.isFinite_neg m'.coeff).trans hfin
  · exact hfin

theorem forall_addLikeTerms (hm : m.Forall P Q) (ht : ∀ t ∈ terms, t.Forall P Q) :
    ∀ t ∈ (addLikeTerms m terms).value, t.Forall P Q := by
  induction terms generalizing m with
  | nil => exact List.forall_mem_singleton.2 hm
  | cons t terms ih =>
    obtain ⟨h, ht⟩ := List.forall_mem_cons.1 ht
    rw [addLikeTerms]
    split
    · exact ih hm ht
    · exact List.forall_mem_cons.2 ⟨hm, ih h ht⟩

theorem forall_combineLikeTerms (ht : ∀ t ∈ terms, t.Forall P Q) :
    ∀ t ∈ (combineLikeTerms terms).value, t.Forall P Q := by
  have ht : ∀ t ∈ terms.mergeSort fun a b => (a.compareFactors b).isLE, t.Forall P Q :=
    fun t h => ht t (List.mem_mergeSort.1 h)
  unfold combineLikeTerms
  split
  · exact List.forall_mem_nil _
  · next h =>
    rw [h] at ht
    obtain ⟨hm, ht⟩ := List.forall_mem_cons.1 ht
    exact fun t h => forall_addLikeTerms hm ht t (List.mem_filter.1 h).1

theorem forall_mergedLogarithm (hP : IsClosed P) {fs gs : List (Formula α)}
    (hf : ∀ f ∈ fs, f.Forall P Q) (hg : ∀ g ∈ gs, g.Forall P Q) :
    (mergedLogarithm fs gs).Forall P Q := by
  have hprod {fs : List (Formula α)} (hs : ∀ f ∈ fs, f.Forall P Q) :
      (unary .ln (product fs)).Forall P Q := forall_product (Q := Q) hP.one hs
  unfold mergedLogarithm
  split
  · exact ⟨List.forall_mem_singleton.2 (hprod hg), List.forall_mem_nil _⟩
  · exact ⟨List.forall_mem_singleton.2 (hprod hf), List.forall_mem_nil _⟩
  · exact ⟨List.forall_mem_singleton.2 ⟨hprod hf, hprod hg⟩, List.forall_mem_nil _⟩

theorem forall_logArguments (ht : ∀ t ∈ terms, t.Forall P Q) (added : Bool) :
    ∀ f ∈ logArguments added terms, f.Forall P Q := by
  intro f hf
  obtain ⟨t, h, htf⟩ := List.mem_filterMap.1 hf
  have ht := (ht t (List.mem_filter.1 (List.mem_filter.1 h).1).1).1
  rw [(Monomial.eq_of_logArgument? htf).1] at ht
  simpa using ht

theorem forall_mergeLogarithms (hP : IsClosed P) (ht : ∀ t ∈ terms, t.Forall P Q) :
    ∀ t ∈ (mergeLogarithms terms).value, t.Forall P Q := by
  rw [value_mergeLogarithms]
  split
  · exact ht
  · refine List.forall_mem_append.2 ⟨fun t h => ht t (List.mem_filter.1 h).1, ?_⟩
    exact List.forall_mem_singleton.2 (forall_mergedLogarithm hP (forall_logArguments ht _)
      (forall_logArguments ht _))

theorem forall_angleSum? {a b t : Monomial α} {step : Step} (h : angleSum? a b = some (t, step))
    (ha : a.Forall P Q) : t.Forall P Q := by
  have harguments {f g : UnaryOp} {x y : Formula α} (h : a.functionPair? f g = some (x, y)) :
      x.Forall P Q ∧ y.Forall P Q := by
    have ha := ha.1
    rw [(Monomial.eq_of_functionPair? h).1] at ha
    simpa using ha
  obtain ⟨-, f, rfl, hf | hf⟩ := exists_of_angleSum? h
  · obtain ⟨x, y, u, v, hxy, -, -, -, rfl⟩ := exists_of_cosineSum? hf
    refine ⟨List.forall_mem_singleton.2 ?_, List.forall_mem_nil _⟩
    split <;> exact harguments hxy
  · obtain ⟨q, p, p', q', hqp, -, -, -, rfl⟩ := exists_of_sineSum? hf
    refine ⟨List.forall_mem_singleton.2 ?_, List.forall_mem_nil _⟩
    split <;> exact (harguments hqp).symm

theorem forall_mergeAngleSums (ht : ∀ t ∈ terms, t.Forall P Q) :
    ∀ t ∈ (mergeAngleSums terms).value, t.Forall P Q := by
  refine mergeAngleSums_invariant (P := fun ts => ∀ t ∈ ts, Monomial.Forall P Q t) ?_ ht
  intro ts a b t step rest hab hp hts
  have hts : ∀ t ∈ a :: b :: rest, t.Forall P Q := fun t h => hts t (hp.mem_iff.2 h)
  obtain ⟨ha, -, hrest⟩ := by simpa only [List.forall_mem_cons] using hts
  exact List.forall_mem_append.2 ⟨hrest, List.forall_mem_singleton.2 (forall_angleSum? hab ha)⟩

theorem forall_subtractAll (h0 : P 0) {positive : List (Formula α)}
    {negative : List (Formula α × Formula α)} (hp : ∀ f ∈ positive, f.Forall P Q)
    (hn : ∀ t ∈ negative, t.1.Forall P Q ∧ t.2.Forall P Q) :
    (subtractAll positive negative).Forall P Q := by
  unfold subtractAll
  split
  · exact h0
  · exact (List.forall_mem_singleton.1 hn).2
  · refine forall_sum (Q := Q) h0 ?_
    intro f hf
    obtain ⟨t, ht, rfl⟩ := List.mem_map.1 hf
    exact (hn t ht).1
  · rw [← List.foldl_map]
    refine forall_foldl (forall_sum h0 hp) ?_
    intro f hf
    obtain ⟨t, ht, rfl⟩ := List.mem_map.1 hf
    exact (hn t ht).1

variable [LawfulScalar α]

theorem forall_assemble (hP : IsClosed P) {v : α} (hv : Scalar.isFinite v)
    (hc : ∀ t ∈ terms, Scalar.isFinite t.coeff) (ht : ∀ t ∈ terms, t.Forall P Q) :
    (assemble v terms).Forall P Q := by
  have hvalue : (ofValue v : Formula α).Forall P Q := forall_ofValue hP hv
  have hopposite : (ofValue (-v) : Formula α).Forall P Q :=
    forall_ofValue hP ((LawfulScalar.isFinite_neg v).trans hv)
  have hpositive (p : Monomial α → Bool) :
      ∀ f ∈ sort ((terms.filter p).map Monomial.toFormula), f.Forall P Q := by
    intro f hf
    obtain ⟨t, h, rfl⟩ := List.mem_map.1 (mem_sort.1 hf)
    have hmem := (List.mem_filter.1 h).1
    exact (ht t hmem).toFormula hP (hc t hmem)
  have hnegative (p : Monomial α → Bool) (le : Formula α × Formula α → Formula α × Formula α → Bool) :
      ∀ t ∈ ((terms.filter p).map fun m => (m.negated.toFormula, m.toFormula)).mergeSort le,
        t.1.Forall P Q ∧ t.2.Forall P Q := by
    intro f hf
    obtain ⟨t, h, rfl⟩ := List.mem_map.1 (List.mem_mergeSort.1 hf)
    have hmem := (List.mem_filter.1 h).1
    exact ⟨(ht t hmem).negated.toFormula hP ((LawfulScalar.isFinite_neg _).trans (hc t hmem)),
      (ht t hmem).toFormula hP (hc t hmem)⟩
  unfold assemble
  simp only
  split
  · exact forall_subtractAll hP.zero (List.forall_mem_cons.2 ⟨hvalue, hpositive _⟩) (hnegative _ _)
  · split
    · exact forall_subtractAll hP.zero (hpositive _)
        (List.forall_mem_cons.2 ⟨⟨hopposite, hvalue⟩, hnegative _ _⟩)
    · exact forall_subtractAll hP.zero (hpositive _) (hnegative _ _)

/-- A sum whose constant and whose coefficients are finite is defined. -/
theorem Formula.Forall.normalizeSum_of_isFinite (hP : IsClosed P) {f : Formula α}
    {ms : List (Monomial α)} (hf : f.Forall P Q)
    (hms : (f.signedTerms false).mapM Monomial.ofTerm? = some ms)
    (hconst : Scalar.isFinite (constantPart ms))
    (hterms : ∀ t ∈ mergedTerms ms, Scalar.isFinite t.coeff) :
    f.normalizeSum.value.Forall P Q := by
  have hforall : ∀ m ∈ ms, m.Forall P Q := by
    intro m hm
    obtain ⟨t, ht, htm⟩ := exists_of_mem_mapM hms hm
    exact Monomial.forall_ofTerm? htm (hf.of_mem_signedTerms ht)
  have hmerged : ∀ t ∈ mergedTerms ms, t.Forall P Q := by
    refine forall_mergeAngleSums (forall_mergeLogarithms hP (forall_combineLikeTerms ?_))
    intro t ht
    obtain ⟨m, hm, rfl⟩ := List.mem_map.1 ht
    exact (hforall m (List.mem_filter.1 hm).1).sorted
  rw [normalizeSum_of_mapM hms, hconst, Bool.true_and, if_pos (List.all_eq_true.2 hterms)]
  exact forall_assemble hP hconst hterms hmerged

theorem Formula.Forall.normalizeSum (hP : IsClosed P) {f : Formula α} (hf : f.Forall P Q) :
    f.normalizeSum.value = undefined ∨ f.normalizeSum.value.Forall P Q := by
  rcases normalizeSum_cases f with ⟨-, h⟩ | ⟨ms, hms, h⟩
  · exact .inl h
  · split at h
    · next hfin =>
      rw [Bool.and_eq_true, List.all_eq_true] at hfin
      exact .inr (hf.normalizeSum_of_isFinite hP hms hfin.1 hfin.2)
    · exact .inl h

end

/-! ## Functions -/

namespace Formula

variable [LawfulScalar α] {f g : Formula α}

theorem Forall.negativeForm? (hP : IsClosed P) (hf : f.Forall P Q) (h : f.negativeForm? = some g) :
    g.Forall P Q := by
  rcases negativeForm?_cases h with rfl | ⟨v, rfl, -, rfl⟩ | ⟨m, hm, rfl⟩ | ⟨rfl, hlt, hs⟩
  · exact hf
  · exact forall_ofValue hP ((LawfulScalar.isFinite_neg v).trans (hP.isFinite v hf))
  · have hc := (Monomial.eq_of_ofPieces? hm).2.1
    exact (Monomial.forall_of? hm hf).negated.toFormula hP
      ((LawfulScalar.isFinite_neg m.coeff).trans hc)
  · rcases Forall.normalizeSum hP (f := -f) hf with hu | hg
    · rw [hu, undefined, not_isBefore_of_isSum hs] at hlt
      cases hlt
    · exact hg

theorem Forall.normalizeOdd (hP : IsClosed P) (hf : f.Forall P Q) (op : UnaryOp) :
    (f.normalizeOdd op).value.Forall P Q := by
  rcases normalizeOdd_cases op f with ⟨g, hg, h⟩ | h
  · rw [h]
    exact (hf.negativeForm? hP hg : g.Forall P Q)
  · rw [h]
    exact hf

/-- A function of anything but a constant is defined, and so is every percentage. -/
theorem Forall.normalizeUnary_of_isConst (hP : IsClosed P) (hf : f.Forall P Q) {op : UnaryOp}
    (hop : op ≠ .negate) (hconst : f.isConst → op = .percent) :
    (f.normalizeUnary op).value.Forall P Q := by
  cases op with
  | negate => exact absurd rfl hop
  | exp =>
    rcases normalizeExp_cases f with ⟨v, rfl, -⟩ | ⟨a, rfl, h⟩ | ⟨a, k, ha, h⟩ | h
    · cases hconst rfl
    · exact h ▸ hf
    · obtain ⟨coeff, hm, -⟩ := exists_of_logPower? ha
      have hm := (Monomial.forall_of? hm hf).1
      exact h ▸ forall_power hP.one (by simpa using hm) k
    · exact h ▸ hf
  | ln =>
    rcases normalizeLn_cases f with ⟨v, rfl, -⟩ | ⟨v, rfl, -⟩ | ⟨a, rfl, h⟩ | h
    · cases hconst rfl
    · cases hconst rfl
    · exact h ▸ hf
    · exact h ▸ hf
  | cos =>
    rcases normalizeCos_cases f with ⟨v, rfl, -⟩ | ⟨g, hg, h⟩ | h
    · cases hconst rfl
    · exact h ▸ (hf.negativeForm? hP hg : g.Forall P Q)
    · exact h ▸ hf
  | sin =>
    rcases normalizeSin_cases f with ⟨v, rfl, -⟩ | h
    · cases hconst rfl
    · exact h ▸ hf.normalizeOdd hP _
  | tan =>
    rcases normalizeTan_cases f with ⟨v, rfl, -⟩ | h
    · cases hconst rfl
    · exact h ▸ hf.normalizeOdd hP _
  | percent =>
    rcases normalizePercent_cases f with ⟨v, rfl, -, h⟩ | h
    · exact h ▸ hP.zero
    · exact h ▸ hf.normalizeOdd hP _

theorem undefined_or_forall_normalizeUnary_const (hP : IsClosed P) (op : UnaryOp) {v : α}
    (hv : P v) : (normalizeUnary op (const v)).value = undefined ∨
      (normalizeUnary op (const v)).value.Forall P Q := by
  have hrule {p : Prop} [Decidable p] {w : α} (hw : P w) (u : α) :
      (if p then const w else ofValue u) = undefined ∨
        (if p then const w else ofValue u).Forall P Q := by
    split
    · exact .inr hw
    · exact undefined_or_forall_ofValue hP u
  cases op with
  | negate | sin | tan => exact undefined_or_forall_ofValue hP _
  | exp => exact hrule hP.euler _
  | cos => exact hrule hP.negOne _
  | ln =>
    rcases normalizeLn_cases (const v) with ⟨w, -, -, h⟩ | ⟨w, -, -, h⟩ | ⟨a, ha, -⟩ | h
    · exact h ▸ hrule hP.one _
    · exact .inl h
    · cases ha
    · exact .inr (h ▸ hv)
  | percent =>
    have hf : (const v).Forall P Q := hv
    exact .inr (hf.normalizeUnary_of_isConst hP nofun fun _ => rfl)

theorem Forall.normalizeUnary (hP : IsClosed P) (hf : f.Forall P Q) (op : UnaryOp) :
    (f.normalizeUnary op).value = undefined ∨ (f.normalizeUnary op).value.Forall P Q := by
  by_cases hop : op = .negate
  · subst hop
    rcases normalizeNegation_cases f with ⟨v, rfl, h⟩ | ⟨a, rfl, h⟩ | h | h
    · exact h ▸ undefined_or_forall_ofValue hP _
    · exact .inr (h ▸ hf)
    · rw [Formula.normalizeUnary, h]
      exact Forall.normalizeSum (f := -f) hP hf
    · rw [Formula.normalizeUnary, h]
      exact Forall.normalizeProduct (f := -f) hP hf
  · cases f with
    | const v => exact undefined_or_forall_normalizeUnary_const hP op hf
    | var _ | unary _ _ | binary _ _ _ => exact .inr (hf.normalizeUnary_of_isConst hP hop nofun)

theorem Forall.normalizeBinary (hP : IsClosed P) (hf : f.Forall P Q) (hg : g.Forall P Q)
    (op : ArithOp) : (normalizeBinary op f g).value = undefined ∨
      (normalizeBinary op f g).value.Forall P Q := by
  cases op with
  | add | sub => exact Forall.normalizeSum hP ⟨hf, hg⟩
  | mul | div => exact Forall.normalizeProduct hP ⟨hf, hg⟩

/-- The result of a pass is undefined as a whole, or its constants have every closed property,
whatever the constants of the formula are. -/
theorem Forall.simplifyOnce (hP : IsClosed P) (hf : f.Forall (fun _ => True) Q) :
    f.simplifyOnce = undefined ∨ f.simplifyOnce.Forall P Q := by
  induction f with
  | const v => exact undefined_or_forall_ofValue hP v
  | var x => exact .inr hf
  | unary op a ih =>
    rw [simplifyOnce_unary]
    split
    · exact .inl rfl
    · next hdef =>
      rcases ih hf with ha | ha
      · rw [ha, isUndefined_undefined] at hdef
        exact absurd rfl hdef
      · exact ha.normalizeUnary hP op
  | binary op a b iha ihb =>
    rw [simplifyOnce_binary]
    split
    · exact .inl rfl
    · next hdef =>
      rw [Bool.or_eq_true, not_or] at hdef
      rcases iha hf.1 with ha | ha
      · rw [ha, isUndefined_undefined] at hdef
        exact absurd rfl hdef.1
      · rcases ihb hf.2 with hb | hb
        · rw [hb, isUndefined_undefined] at hdef
          exact absurd rfl hdef.2
        · exact ha.normalizeBinary hP hb op

end Formula
end SymCalc
