import Mathlib
import SymCalc.Proofs.Simplify.Product

/-!
# Soundness of the normal form of a sum

* `AddUpTo`: the terms of a sum are defined and add up to a given value.

Every stage keeps what the terms add up to, so the normal form of a sum has the value of the sum
wherever that is defined (`Formula.HasValue.normalizeSum`).
-/

namespace SymCalc

variable {ρ : String → ℝ} {x y : ℝ} {m a b : Monomial Exact} {ms ns : List (Monomial Exact)}

/-- The terms are defined at `ρ` and add up to `x` there. -/
def AddUpTo (ρ : String → ℝ) (ms : List (Monomial Exact)) (x : ℝ) : Prop :=
  (∀ m ∈ ms, m.DefinedAt ρ) ∧ (ms.map (Monomial.valueAt ρ)).sum = x

theorem addUpTo_nil : AddUpTo ρ [] 0 := ⟨List.forall_mem_nil _, rfl⟩

theorem Monomial.HasValue.addUpTo (h : m.HasValue ρ x) : AddUpTo ρ [m] x :=
  ⟨List.forall_mem_singleton.2 h.1, List.sum_singleton.trans h.2⟩

theorem AddUpTo.append (hm : AddUpTo ρ ms x) (hn : AddUpTo ρ ns y) :
    AddUpTo ρ (ms ++ ns) (x + y) := by
  obtain ⟨hm, rfl⟩ := hm
  obtain ⟨hn, rfl⟩ := hn
  exact ⟨List.forall_mem_append.2 ⟨hm, hn⟩, by rw [List.map_append, List.sum_append]⟩

theorem AddUpTo.cons (hm : m.HasValue ρ x) (hn : AddUpTo ρ ns y) : AddUpTo ρ (m :: ns) (x + y) :=
  hm.addUpTo.append hn

theorem AddUpTo.exists_of_cons (h : AddUpTo ρ (m :: ms) x) :
    ∃ y z, m.HasValue ρ y ∧ AddUpTo ρ ms z ∧ x = y + z := by
  obtain ⟨h, rfl⟩ := h
  obtain ⟨hm, hms⟩ := List.forall_mem_cons.1 h
  exact ⟨_, _, ⟨hm, rfl⟩, ⟨hms, rfl⟩, List.sum_cons⟩

theorem AddUpTo.perm (h : AddUpTo ρ ms x) (hp : ms.Perm ns) : AddUpTo ρ ns x := by
  obtain ⟨h, rfl⟩ := h
  exact ⟨fun m hm => h m (hp.mem_iff.2 hm), (hp.map _).sum_eq.symm⟩

/-- What terms add up to can be split in two by any condition. -/
theorem AddUpTo.exists_of_filter (h : AddUpTo ρ ms x) (p : Monomial Exact → Bool) :
    ∃ y z, AddUpTo ρ (ms.filter p) y ∧ AddUpTo ρ (ms.filter (!p ·)) z ∧ x = y + z := by
  obtain ⟨h, rfl⟩ := h
  refine ⟨_, _, ⟨fun m hm => h m (List.mem_of_mem_filter hm), rfl⟩,
    ⟨fun m hm => h m (List.mem_of_mem_filter hm), rfl⟩, ?_⟩
  rw [← List.sum_append, ← List.map_append]
  exact ((List.filter_append_perm p ms).map _).sum_eq.symm

theorem AddUpTo.map_sorted (h : AddUpTo ρ ms x) : AddUpTo ρ (ms.map Monomial.sorted) x := by
  induction ms generalizing x with
  | nil => exact h
  | cons m ms ih =>
    obtain ⟨y, z, hm, hms, rfl⟩ := h.exists_of_cons
    exact .cons hm.sorted (ih hms)

/-- Terms with the coefficient zero add up to zero. -/
theorem AddUpTo.eq_zero (h : AddUpTo ρ ms x) (h0 : ∀ m ∈ ms, m.coeff = 0) : x = 0 := by
  rw [← h.2]
  apply List.sum_eq_zero
  intro y hy
  obtain ⟨m, hm, rfl⟩ := List.mem_map.1 hy
  rw [Monomial.valueAt, h0 m hm, Exact.toReal_zero, zero_mul, zero_div]

/-! ## The terms of a sum -/

/-- The value of a term that is subtracted if so marked. -/
noncomputable def termAt (ρ : String → ℝ) (t : Bool × Formula Exact) : ℝ :=
  if t.1 then -t.2.valueAt ρ else t.2.valueAt ρ

namespace Formula

theorem sum_signedTerms (f : Formula Exact) (negative : Bool) :
    ((f.signedTerms negative).map (termAt ρ)).sum =
      if negative then -f.valueAt ρ else f.valueAt ρ := by
  induction f, negative using signedTerms.induct with
  | case1 a b negative iha ihb =>
    rw [signedTerms, List.map_append, List.sum_append, iha, ihb]
    cases negative with
    | false => rfl
    | true => exact (neg_add ..).symm
  | case2 a b negative iha ihb =>
    rw [signedTerms, List.map_append, List.sum_append, iha, ihb]
    cases negative with
    | false => exact (sub_eq_add_neg ..).symm
    | true =>
      exact (neg_add_eq_sub (a.valueAt ρ) (b.valueAt ρ)).trans (neg_sub (a.valueAt ρ) _).symm
  | case3 a negative ih =>
    rw [signedTerms, ih]
    cases negative with
    | false => rfl
    | true => exact (neg_neg _).symm
  | case4 f negative h1 h2 h3 =>
    rw [signedTerms.eq_4 f negative h1 h2 h3]
    exact List.sum_singleton

theorem DefinedAt.signedTerms {f : Formula Exact} {negative : Bool} (h : f.DefinedAt ρ) :
    ∀ t ∈ f.signedTerms negative, t.2.DefinedAt ρ := by
  induction f, negative using Formula.signedTerms.induct with
  | case1 a b negative iha ihb | case2 a b negative iha ihb =>
    exact List.forall_mem_append.2 ⟨iha h.1, ihb h.2.1⟩
  | case3 a negative ih => exact ih h.1
  | case4 f negative h1 h2 h3 =>
    rw [Formula.signedTerms.eq_4 f negative h1 h2 h3]
    exact List.forall_mem_singleton.2 h

end Formula

theorem Monomial.exists_ofTerm? {t : Bool × Formula Exact} (h : t.2.DefinedAt ρ) :
    ∃ m, ofTerm? t = some m ∧ m.HasValue ρ (termAt ρ t) := by
  obtain ⟨m, hm, hv⟩ := exists_of? h.hasValue
  obtain ⟨negative, f⟩ := t
  refine ⟨_, congrArg _ hm, ?_⟩
  cases negative with
  | false => exact hv
  | true => exact hv.negated

theorem exists_mapM_ofTerm? {ts : List (Bool × Formula Exact)} (h : ∀ t ∈ ts, t.2.DefinedAt ρ) :
    ∃ ms, ts.mapM Monomial.ofTerm? = some ms ∧ AddUpTo ρ ms (ts.map (termAt ρ)).sum := by
  induction ts with
  | nil => exact ⟨[], rfl, addUpTo_nil⟩
  | cons t ts ih =>
    obtain ⟨ht, hts⟩ := List.forall_mem_cons.1 h
    obtain ⟨m, hm, hv⟩ := Monomial.exists_ofTerm? ht
    obtain ⟨ms, hms, hvs⟩ := ih hts
    refine ⟨m :: ms, ?_, .cons hv hvs⟩
    rw [List.mapM_cons, hm, hms]
    rfl

theorem Monomial.HasValue.coeff_eq (h : m.HasValue ρ x) (hc : m.isConstant) :
    m.coeff = .number x := by
  obtain ⟨hm, rfl⟩ := h
  obtain ⟨k, hk⟩ := Exact.exists_number hm.coeff
  obtain ⟨hn, hd⟩ := Bool.and_eq_true_iff.1 hc
  rw [valueAt, List.isEmpty_iff.1 hn, List.isEmpty_iff.1 hd, hk]
  simp

/-- The constants of a sum are added exactly. -/
theorem AddUpTo.constantPart (h : AddUpTo ρ (ms.filter Monomial.isConstant) x) :
    constantPart ms = .number x := by
  have hfold (ms : List (Monomial Exact)) (hc : ∀ m ∈ ms, m.isConstant) (x y : ℝ)
      (h : AddUpTo ρ ms x) : ms.foldl (fun v m => v + m.coeff) (.number y) = .number (y + x) := by
    induction ms generalizing x y with
    | nil =>
      rw [← h.2]
      exact congrArg _ (add_zero y).symm
    | cons m ms ih =>
      obtain ⟨z, w, hm, hms, rfl⟩ := h.exists_of_cons
      obtain ⟨hcm, hcs⟩ := List.forall_mem_cons.1 hc
      rw [List.foldl_cons, hm.coeff_eq hcm, Exact.add_number, ih hcs w (y + z) hms, add_assoc]
  rw [SymCalc.constantPart, Exact.zero_eq, hfold _ (fun m hm => (List.mem_filter.1 hm).2) x 0 h,
    zero_add]

/-! ## Like terms -/

theorem eq_of_compareLists {fs gs : List (Formula Exact)}
    (h : Formula.compareLists fs gs = .eq) : fs = gs := by
  induction fs generalizing gs with
  | nil =>
    cases gs with
    | nil => rfl
    | cons g gs => cases h
  | cons f fs ih =>
    cases gs with
    | nil => cases h
    | cons g gs =>
      obtain ⟨hfg, hr⟩ := Ordering.then_eq_eq.1 h
      have hfg : f = g := Formula.eq_of_beq_exact (by simpa [Formula.beq_eq] using hfg)
      rw [hfg, ih hr]

theorem hasValue_addCoeffs (ha : a.HasValue ρ x) (hb : b.HasValue ρ y)
    (h : a.compareFactors b == .eq) : { a with coeff := a.coeff + b.coeff }.HasValue ρ (x + y) := by
  obtain ⟨hn, hd⟩ := Ordering.then_eq_eq.1 (eq_of_beq h)
  obtain ⟨ha, rfl⟩ := ha
  obtain ⟨hb, rfl⟩ := hb
  obtain ⟨k, hk⟩ := Exact.exists_number ha.coeff
  obtain ⟨l, hl⟩ := Exact.exists_number hb.coeff
  rw [Monomial.valueAt, Monomial.valueAt, ← eq_of_compareLists hn, ← eq_of_compareLists hd, hk, hl]
  refine ⟨⟨rfl, ha.numer, ha.denom, ha.nonzero⟩, ?_⟩
  rw [Monomial.valueAt, Exact.add_number, Exact.toReal_number, Exact.toReal_number,
    Exact.toReal_number]
  ring

theorem AddUpTo.addLikeTerms (h : AddUpTo ρ (m :: ms) x) :
    AddUpTo ρ (addLikeTerms m ms).value x := by
  fun_induction SymCalc.addLikeTerms m ms generalizing x with
  | case1 => exact h
  | case2 m t ts hmt ih =>
    obtain ⟨y, s, hm, hts, rfl⟩ := h.exists_of_cons
    obtain ⟨z, w, ht, hrest, rfl⟩ := hts.exists_of_cons
    rw [← add_assoc]
    exact ih (.cons (hasValue_addCoeffs hm ht hmt) hrest)
  | case3 m t ts hmt ih =>
    obtain ⟨y, z, hm, hts, rfl⟩ := h.exists_of_cons
    exact .cons hm (ih hts)

theorem AddUpTo.combineLikeTerms (h : AddUpTo ρ ms x) :
    AddUpTo ρ (combineLikeTerms ms).value x := by
  have hs := h.perm (List.mergeSort_perm ms fun a b => (a.compareFactors b).isLE).symm
  unfold SymCalc.combineLikeTerms
  split
  · next hnil => rwa [hnil] at hs
  · next t ts hcons =>
    rw [hcons] at hs
    obtain ⟨y, z, hy, hz, rfl⟩ := hs.addLikeTerms.exists_of_filter fun m => !(m.coeff == 0)
    have hz : z = 0 := hz.eq_zero fun m hm => Exact.eq_of_beq (by simpa using (List.mem_filter.1 hm).2)
    rw [hz, add_zero]
    exact hy

/-! ## Logarithms -/

/-- The sum of the logarithms of formulas. -/
noncomputable def sumLog (ρ : String → ℝ) (fs : List (Formula Exact)) : ℝ :=
  (fs.map fun f => Real.log (f.valueAt ρ)).sum

theorem log_prod_valueAt {fs : List (Formula Exact)} (h : ∀ f ∈ fs, 0 < f.valueAt ρ) :
    Real.log (fs.map (Formula.valueAt ρ)).prod = sumLog ρ fs := by
  have h0 : ∀ y ∈ fs.map (Formula.valueAt ρ), y ≠ 0 := by
    intro y hy
    obtain ⟨f, hf, rfl⟩ := List.mem_map.1 hy
    exact (h f hf).ne'
  rw [Real.log_list_prod h0, List.map_map]
  rfl

theorem prod_valueAt_pos {fs : List (Formula Exact)} (h : ∀ f ∈ fs, 0 < f.valueAt ρ) :
    0 < (fs.map (Formula.valueAt ρ)).prod := by
  apply List.prod_pos
  intro y hy
  obtain ⟨f, hf, rfl⟩ := List.mem_map.1 hy
  exact h f hf

theorem Monomial.hasValue_single {f : Formula Exact} (k : ℝ) (h : f.HasValue ρ x) :
    HasValue ρ ⟨.number k, [f], []⟩ (k * x) := by
  obtain ⟨hf, rfl⟩ := h
  refine ⟨⟨rfl, List.forall_mem_singleton.2 hf, List.forall_mem_nil _, List.forall_mem_nil _⟩, ?_⟩
  rw [valueAt, List.map_singleton, List.prod_singleton, List.map_nil, List.prod_nil, div_one,
    Exact.toReal_number]

theorem Monomial.HasValue.logArgument? {f : Formula Exact} (h : m.HasValue ρ x)
    (hf : m.logArgument? = some f) : f.DefinedAt ρ ∧ 0 < f.valueAt ρ ∧
      x = if Scalar.lt 0 m.coeff then Real.log (f.valueAt ρ) else -Real.log (f.valueAt ρ) := by
  obtain ⟨hn, hd, hm⟩ := eq_of_logArgument? hf
  obtain ⟨h, rfl⟩ := h
  obtain ⟨k, hk⟩ := Exact.exists_number h.coeff
  have hln : (Formula.unary .ln f).DefinedAt ρ := h.numer _ (by rw [hn]; exact List.mem_singleton_self _)
  refine ⟨hln.1, hln.2, ?_⟩
  have hval : m.valueAt ρ = k * Real.log (f.valueAt ρ) := by
    rw [valueAt, hn, hd, hk]
    simp [Formula.valueAt, UnaryOp.onReal]
  rw [hk, Exact.magnitude_number, Exact.one_eq, Exact.beq_number] at hm
  rw [hval, hk, Exact.zero_eq]
  rcases eq_or_eq_neg_of_abs_eq hm with rfl | rfl
  · rw [if_pos (Exact.lt_number.2 one_pos), one_mul]
  · rw [if_neg (by simp), neg_one_mul]

theorem hasValue_mergedLogarithm {added subtracted : List (Formula Exact)}
    (ha : ∀ f ∈ added, f.DefinedAt ρ ∧ 0 < f.valueAt ρ)
    (hs : ∀ f ∈ subtracted, f.DefinedAt ρ ∧ 0 < f.valueAt ρ) :
    (mergedLogarithm added subtracted).HasValue ρ (sumLog ρ added - sumLog ρ subtracted) := by
  have hlog {fs : List (Formula Exact)} (h : ∀ f ∈ fs, f.DefinedAt ρ ∧ 0 < f.valueAt ρ) :
      (Formula.unary .ln (.product fs)).HasValue ρ (sumLog ρ fs) := by
    rw [← log_prod_valueAt fun f hf => (h f hf).2]
    exact Formula.HasValue.unary ⟨Formula.definedAt_product.2 fun f hf => (h f hf).1,
      Formula.valueAt_product⟩ .ln (prod_valueAt_pos fun f hf => (h f hf).2)
  unfold mergedLogarithm
  split
  · have h := Monomial.hasValue_single (-1) (hlog hs)
    rw [neg_one_mul, ← zero_sub (sumLog ρ _)] at h
    exact h
  · have h := Monomial.hasValue_single 1 (hlog ha)
    rw [one_mul, ← sub_zero (sumLog ρ _)] at h
    exact h
  · have hp := prod_valueAt_pos fun f hf => (ha f hf).2
    have hq := prod_valueAt_pos fun f hf => (hs f hf).2
    have hdiv : (Formula.product added / .product subtracted).HasValue ρ
        ((added.map (Formula.valueAt ρ)).prod / (subtracted.map (Formula.valueAt ρ)).prod) :=
      Formula.HasValue.binary
        ⟨Formula.definedAt_product.2 fun f hf => (ha f hf).1, Formula.valueAt_product⟩ .div
        ⟨Formula.definedAt_product.2 fun f hf => (hs f hf).1, Formula.valueAt_product⟩ hq.ne'
    have h := Monomial.hasValue_single 1 (hdiv.unary .ln (div_pos hp hq))
    rw [one_mul, UnaryOp.onReal, Real.log_div hp.ne' hq.ne',
      log_prod_valueAt fun f hf => (ha f hf).2, log_prod_valueAt fun f hf => (hs f hf).2] at h
    exact h

theorem logArguments_cons {f : Formula Exact} (hf : m.logArgument? = some f) (added : Bool) :
    logArguments added (m :: ms) =
      if Scalar.lt 0 m.coeff == added then f :: logArguments added ms
      else logArguments added ms := by
  rw [logArguments, List.filter_cons_of_pos (by rw [hf]; rfl), List.filter_cons]
  split
  · exact List.filterMap_cons_some hf
  · rfl

theorem AddUpTo.eq_sumLog (h : AddUpTo ρ (ms.filter (·.logArgument?.isSome)) x) :
    x = sumLog ρ (logArguments true ms) - sumLog ρ (logArguments false ms) := by
  induction ms generalizing x with
  | nil => exact h.2.symm.trans (sub_self 0).symm
  | cons m ms ih =>
    cases hf : m.logArgument? with
    | none =>
      have hdrop (added : Bool) : logArguments added (m :: ms) = logArguments added ms := by
        rw [logArguments, List.filter_cons_of_neg (by simp [hf]), logArguments]
      rw [List.filter_cons_of_neg (by simp [hf])] at h
      rw [hdrop, hdrop]
      exact ih h
    | some f =>
      rw [List.filter_cons_of_pos (by simp [hf])] at h
      obtain ⟨y, z, hm, hms, rfl⟩ := h.exists_of_cons
      obtain ⟨-, -, hy⟩ := hm.logArgument? hf
      have hcons (fs : List (Formula Exact)) :
          sumLog ρ (f :: fs) = Real.log (f.valueAt ρ) + sumLog ρ fs := List.sum_cons
      rw [hy, ih hms, logArguments_cons hf, logArguments_cons hf]
      cases Scalar.lt 0 m.coeff with
      | true =>
        change _ = sumLog ρ (f :: logArguments true ms) - sumLog ρ (logArguments false ms)
        rw [if_pos rfl, hcons]
        ring
      | false =>
        change _ = sumLog ρ (logArguments true ms) - sumLog ρ (f :: logArguments false ms)
        rw [if_neg Bool.false_ne_true, hcons]
        ring

theorem AddUpTo.mergeLogarithms (h : AddUpTo ρ ms x) : AddUpTo ρ (mergeLogarithms ms).value x := by
  rw [value_mergeLogarithms]
  split
  · exact h
  · obtain ⟨y, z, hy, hz, rfl⟩ := h.exists_of_filter (·.logArgument?.isSome)
    have harg (added : Bool) :
        ∀ f ∈ logArguments added ms, f.DefinedAt ρ ∧ 0 < f.valueAt ρ := by
      intro f hf
      obtain ⟨m, hm, hmf⟩ := List.mem_filterMap.1 hf
      have hm := h.1 m (List.mem_of_mem_filter (List.mem_of_mem_filter hm))
      obtain ⟨hd, hpos, -⟩ := Monomial.HasValue.logArgument? ⟨hm, rfl⟩ hmf
      exact ⟨hd, hpos⟩
    rw [hy.eq_sumLog, add_comm]
    exact hz.append (hasValue_mergedLogarithm (harg true) (harg false)).addUpTo

/-! ## Sums of angles -/

theorem Monomial.HasValue.pair {op op' : UnaryOp} {f g : Formula Exact} {k : ℝ}
    (h : HasValue ρ ⟨.number k, [.unary op f, .unary op' g], []⟩ x) :
    f.DefinedAt ρ ∧ g.DefinedAt ρ ∧
      x = k * (op.onReal (f.valueAt ρ) * op'.onReal (g.valueAt ρ)) := by
  obtain ⟨hm, rfl⟩ := h
  obtain ⟨hf, hg⟩ := List.forall_mem_cons.1 hm.numer
  refine ⟨hf.1, (List.forall_mem_singleton.1 hg).1, ?_⟩
  simp [valueAt, Formula.valueAt]

theorem Monomial.eq_of_functionPair?_of_coeff {op op' : UnaryOp} {f g : Formula Exact} {v : Exact}
    (hv : m.coeff = v) (h : m.functionPair? op op' = some (f, g)) :
    m = ⟨v, [.unary op f, .unary op' g], []⟩ := by
  obtain ⟨hn, hd⟩ := eq_of_functionPair? h
  cases m
  subst hn hd hv
  rfl

section
variable {p q : Formula Exact} {k l : ℝ} {same : Bool}

/-- The cosine of a difference, or of a sum, for coefficients that are opposite. -/
theorem Monomial.HasValue.cosineSum
    (ha : HasValue ρ ⟨.number k, [.unary .cos p, .unary .cos q], []⟩ x)
    (hb : HasValue ρ ⟨.number l, [.unary .sin p, .unary .sin q], []⟩ y)
    (hl : l = if same then k else -k) :
    HasValue ρ ⟨.number k, [.unary .cos (if same then p - q else p + q)], []⟩ (x + y) := by
  obtain ⟨hp, hq, rfl⟩ := ha.pair
  obtain ⟨-, -, rfl⟩ := hb.pair
  cases same with
  | true =>
    have hv := hasValue_single k ((Formula.definedAt_sub.2 ⟨hp, hq⟩).hasValue.unary .cos trivial)
    rw [Formula.valueAt_sub, UnaryOp.onReal, Real.cos_sub, mul_add] at hv
    exact hl ▸ hv
  | false =>
    have hv := hasValue_single k ((Formula.definedAt_add.2 ⟨hp, hq⟩).hasValue.unary .cos trivial)
    rw [Formula.valueAt_add, UnaryOp.onReal, Real.cos_add, mul_sub, sub_eq_add_neg,
      ← neg_mul] at hv
    exact hl ▸ hv

/-- The sine of a sum, or of a difference, for coefficients that are opposite. -/
theorem Monomial.HasValue.sineSum
    (ha : HasValue ρ ⟨.number k, [.unary .cos q, .unary .sin p], []⟩ x)
    (hb : HasValue ρ ⟨.number l, [.unary .cos p, .unary .sin q], []⟩ y)
    (hl : l = if same then k else -k) :
    HasValue ρ ⟨.number k, [.unary .sin (if same then p + q else p - q)], []⟩ (x + y) := by
  obtain ⟨hq, hp, rfl⟩ := ha.pair
  obtain ⟨-, -, rfl⟩ := hb.pair
  cases same with
  | true =>
    have hv := hasValue_single k ((Formula.definedAt_add.2 ⟨hp, hq⟩).hasValue.unary .sin trivial)
    rw [Formula.valueAt_add, UnaryOp.onReal, Real.sin_add, mul_add, mul_comm (Real.sin _)] at hv
    exact hl ▸ hv
  | false =>
    have hv := hasValue_single k ((Formula.definedAt_sub.2 ⟨hp, hq⟩).hasValue.unary .sin trivial)
    rw [Formula.valueAt_sub, UnaryOp.onReal, Real.sin_sub, mul_sub, sub_eq_add_neg, ← neg_mul,
      mul_comm (Real.sin _)] at hv
    exact hl ▸ hv

end

/-- Merging two terms by a sum of angles keeps their sum. -/
theorem hasValue_angleSum {t : Monomial Exact} {step : Step} (ha : a.HasValue ρ x)
    (hb : b.HasValue ρ y) (h : angleSum? a b = some (t, step)) : t.HasValue ρ (x + y) := by
  obtain ⟨hm, f, rfl, hf⟩ := exists_of_angleSum? h
  obtain ⟨k, hk⟩ := Exact.exists_number ha.1.coeff
  obtain ⟨l, hl⟩ := Exact.exists_number hb.1.coeff
  rw [hk, hl, Exact.magnitude_number, Exact.magnitude_number, Exact.beq_number] at hm
  have hkl : l = if a.coeff == b.coeff then k else -k := by
    rw [hk, hl]
    split
    · next h => exact (Exact.beq_number.1 h).symm
    · next h =>
      have hopposite := (abs_eq_abs.1 hm).resolve_left fun hkl => h (Exact.beq_number.2 hkl)
      rw [hopposite, neg_neg]
  rcases hf with hf | hf
  · obtain ⟨p, q, p', q', hpq, hpq', hp, hq, rfl⟩ := exists_of_cosineSum? hf
    obtain rfl := Formula.eq_of_beq_exact hp
    obtain rfl := Formula.eq_of_beq_exact hq
    rw [Monomial.eq_of_functionPair?_of_coeff hk hpq] at ha
    rw [Monomial.eq_of_functionPair?_of_coeff hl hpq'] at hb
    rw [hk] at hkl ⊢
    exact ha.cosineSum hb hkl
  · obtain ⟨q, p, p', q', hqp, hpq, hp, hq, rfl⟩ := exists_of_sineSum? hf
    obtain rfl := Formula.eq_of_beq_exact hp
    obtain rfl := Formula.eq_of_beq_exact hq
    rw [Monomial.eq_of_functionPair?_of_coeff hk hqp] at ha
    rw [Monomial.eq_of_functionPair?_of_coeff hl hpq] at hb
    rw [hk] at hkl ⊢
    exact ha.sineSum hb hkl

theorem AddUpTo.mergeAngleSums (h : AddUpTo ρ ms x) : AddUpTo ρ (mergeAngleSums ms).value x := by
  refine mergeAngleSums_invariant (P := fun ts => AddUpTo ρ ts x) ?_ h
  intro ts a b t step rest hab hp h
  obtain ⟨y, s, ha, hs, rfl⟩ := (h.perm hp).exists_of_cons
  obtain ⟨z, w, hb, hrest, rfl⟩ := hs.exists_of_cons
  rw [← add_assoc, add_comm]
  exact hrest.append (hasValue_angleSum ha hb hab).addUpTo

/-! ## Assembling -/

/-- The formulas are defined, and the second is the opposite of the first. -/
def AreOpposite (ρ : String → ℝ) (t : Formula Exact × Formula Exact) : Prop :=
  t.1.DefinedAt ρ ∧ t.2.HasValue ρ (-t.1.valueAt ρ)

theorem hasValue_subtractAll {positive : List (Formula Exact)}
    {negative : List (Formula Exact × Formula Exact)} (hp : ∀ f ∈ positive, f.DefinedAt ρ)
    (hn : ∀ t ∈ negative, AreOpposite ρ t) : (subtractAll positive negative).HasValue ρ
      ((positive.map (Formula.valueAt ρ)).sum - (negative.map (·.1.valueAt ρ)).sum) := by
  have hmap : (negative.map (·.1)).map (Formula.valueAt ρ) = negative.map (·.1.valueAt ρ) :=
    List.map_map
  unfold subtractAll
  split
  · exact ⟨rfl, (sub_zero _).symm⟩
  · next t =>
    have ht := (List.forall_mem_singleton.1 hn).2
    rw [List.map_nil, List.sum_nil, zero_sub, List.map_singleton, List.sum_singleton]
    exact ht
  · refine ⟨Formula.definedAt_neg.2 (Formula.definedAt_sum.2 ?_), ?_⟩
    · intro f hf
      obtain ⟨t, ht, rfl⟩ := List.mem_map.1 hf
      exact (hn t ht).1
    · rw [Formula.valueAt_neg, Formula.valueAt_sum, hmap, List.map_nil, List.sum_nil, zero_sub]
  · have hfold (f : Formula Exact) : negative.foldl (fun f t => f - t.1) f =
        (negative.map (·.1)).foldl (· - ·) f := List.foldl_map.symm
    rw [hfold]
    refine ⟨(Formula.definedAt_foldl .sub fun _ _ => trivial).2
      ⟨Formula.definedAt_sum.2 hp, ?_⟩, ?_⟩
    · intro f hf
      obtain ⟨t, ht, rfl⟩ := List.mem_map.1 hf
      exact (hn t ht).1
    · rw [Formula.valueAt_foldl_sub, Formula.valueAt_sum, hmap]

/-- Terms without a sign are zero. -/
theorem AddUpTo.exists_of_sign (h : AddUpTo ρ ms x) :
    ∃ y z, AddUpTo ρ (ms.filter fun m => Scalar.lt 0 m.coeff) y ∧
      AddUpTo ρ (ms.filter fun m => Scalar.lt m.coeff 0) z ∧ x = y + z := by
  induction ms generalizing x with
  | nil => exact ⟨0, 0, addUpTo_nil, addUpTo_nil, h.2.symm.trans (add_zero 0).symm⟩
  | cons m ms ih =>
    obtain ⟨v, s, hm, hms, rfl⟩ := h.exists_of_cons
    obtain ⟨y, z, hy, hz, rfl⟩ := ih hms
    obtain ⟨k, hk⟩ := Exact.exists_number hm.1.coeff
    have hpos : Scalar.lt 0 m.coeff ↔ 0 < k := by rw [hk, Exact.zero_eq, Exact.lt_number]
    have hneg : Scalar.lt m.coeff 0 ↔ k < 0 := by rw [hk, Exact.zero_eq, Exact.lt_number]
    rw [List.filter_cons, List.filter_cons]
    rcases lt_trichotomy k 0 with h | h | h
    · rw [if_neg (mt hpos.1 h.not_gt), if_pos (hneg.2 h)]
      exact ⟨y, v + z, hy, .cons hm hz, add_left_comm ..⟩
    · have hv : v = 0 :=
        hm.addUpTo.eq_zero (List.forall_mem_singleton.2 (hk.trans (congrArg _ h)))
      rw [if_neg (mt hpos.1 h.not_gt), if_neg (mt hneg.1 h.not_lt), hv, zero_add]
      exact ⟨y, z, hy, hz, rfl⟩
    · rw [if_pos (hpos.2 h), if_neg (mt hneg.1 h.not_gt)]
      exact ⟨v + y, z, .cons hm hy, hz, (add_assoc ..).symm⟩

theorem AddUpTo.map_toFormula (h : AddUpTo ρ ms x) :
    (∀ f ∈ ms.map Monomial.toFormula, f.DefinedAt ρ) ∧
      ((ms.map Monomial.toFormula).map (Formula.valueAt ρ)).sum = x := by
  induction ms generalizing x with
  | nil => exact ⟨List.forall_mem_nil _, h.2⟩
  | cons m ms ih =>
    obtain ⟨y, z, hm, hms, rfl⟩ := h.exists_of_cons
    obtain ⟨hd, hv⟩ := hm.toFormula
    obtain ⟨hds, hvs⟩ := ih hms
    refine ⟨List.forall_mem_cons.2 ⟨hd, hds⟩, ?_⟩
    rw [List.map_cons, List.map_cons, List.sum_cons, hv, hvs]

theorem AddUpTo.map_negated (h : AddUpTo ρ ms x) :
    (∀ t ∈ ms.map fun m => (m.negated.toFormula, m.toFormula), AreOpposite ρ t) ∧
      ((ms.map fun m => (m.negated.toFormula, m.toFormula)).map (·.1.valueAt ρ)).sum = -x := by
  induction ms generalizing x with
  | nil => exact ⟨List.forall_mem_nil _, (neg_eq_zero.2 h.2.symm).symm⟩
  | cons m ms ih =>
    obtain ⟨y, z, hm, hms, rfl⟩ := h.exists_of_cons
    obtain ⟨hd, hv⟩ := hm.negated.toFormula
    obtain ⟨hds, hvs⟩ := ih hms
    refine ⟨List.forall_mem_cons.2 ⟨⟨hd, ?_⟩, hds⟩, ?_⟩
    · rw [hv, neg_neg]
      exact hm.toFormula
    · rw [List.map_cons, List.map_cons, List.sum_cons, hv, hvs, neg_add]

theorem AddUpTo.assemble (h : AddUpTo ρ ms x) (k : ℝ) :
    (assemble (.number k) ms).HasValue ρ (k + x) := by
  obtain ⟨y, z, hy, hz, rfl⟩ := h.exists_of_sign
  obtain ⟨hp, hpv⟩ := hy.map_toFormula
  obtain ⟨hn, hnv⟩ := hz.map_negated
  have hps := List.mergeSort_perm ((ms.filter fun m => Scalar.lt 0 m.coeff).map Monomial.toFormula)
    fun f g => (f.compare g).isLE
  have hns := List.mergeSort_perm ((ms.filter fun m => Scalar.lt m.coeff 0).map
    fun m => (m.negated.toFormula, m.toFormula)) fun a b => (a.1.compare b.1).isLE
  replace hp := fun f hf => hp f (hps.mem_iff.1 hf)
  replace hn := fun t ht => hn t (hns.mem_iff.1 ht)
  rw [← (hps.map _).sum_eq] at hpv
  rw [← (hns.map _).sum_eq] at hnv
  unfold SymCalc.assemble
  split
  · have h := hasValue_subtractAll (List.forall_mem_cons.2 ⟨(Formula.hasValue_ofValue k).1, hp⟩) hn
    rw [List.map_cons, List.sum_cons, hpv, hnv, sub_neg_eq_add, add_assoc,
      Formula.valueAt_ofValue] at h
    exact h
  · next hpos =>
    split
    · have hk : AreOpposite ρ (.ofValue (-.number k), .ofValue (.number k)) := by
        obtain ⟨hd, hv⟩ := Formula.hasValue_ofValue (ρ := ρ) k
        obtain ⟨hnd, hnv⟩ := Formula.hasValue_ofValue (ρ := ρ) (-k)
        exact ⟨hnd, hd, hv.trans (neg_eq_iff_eq_neg.1 hnv.symm)⟩
      have h := hasValue_subtractAll hp (List.forall_mem_cons.2 ⟨hk, hn⟩)
      rw [List.map_cons, List.sum_cons, hpv, hnv, Formula.valueAt_ofValue, Exact.toReal_neg,
        Exact.toReal_number, ← neg_add, sub_neg_eq_add, add_left_comm] at h
      exact h
    · next hneg =>
      have hk : k = 0 := le_antisymm (not_lt.1 (mt Exact.lt_number.2 hpos))
        (not_lt.1 (mt Exact.lt_number.2 hneg))
      have h := hasValue_subtractAll hp hn
      rw [hpv, hnv, sub_neg_eq_add, ← zero_add (y + z), ← hk] at h
      exact h

/-! ## The normal form -/

theorem Formula.HasValue.normalizeSum {f : Formula Exact} (h : f.HasValue ρ x) :
    f.normalizeSum.value.HasValue ρ x := by
  have hd : ∀ t ∈ f.signedTerms false, t.2.DefinedAt ρ := h.1.signedTerms
  obtain ⟨ms, hms, hx⟩ := exists_mapM_ofTerm? hd
  rw [sum_signedTerms, if_neg Bool.false_ne_true, h.2] at hx
  obtain ⟨k, y, hk, hy, rfl⟩ := hx.exists_of_filter Monomial.isConstant
  have hterms : AddUpTo ρ (mergedTerms ms) y :=
    hy.map_sorted.combineLikeTerms.mergeLogarithms.mergeAngleSums
  have hfinite : (mergedTerms ms).all (Scalar.isFinite ·.coeff) :=
    List.all_eq_true.2 fun m hm => (hterms.1 m hm).coeff
  rw [normalizeSum_of_mapM hms, hk.constantPart, hfinite]
  exact hterms.assemble k

end SymCalc
