import SymCalc.Proofs.Formula.Equality
import SymCalc.Proofs.Formula.Power
import SymCalc.Proofs.Simplify.Merging
import SymCalc.Proofs.Simplify.Sum

/-!
# What merging sums of angles gives

* `IsMergeable`: whether the terms at two positions of a sum can be merged;
* `MergeRound`, `MergeRun`: the rounds of a search for the first two such positions, which starts again
  after each merge;
* `Monomial.map`: a monomial with other constants.

There is one run of the search, and it is what `mergeAngleSums` computes (`mergeRun_iff`). Each round takes
two terms out and puts one in (`MergeRound.exists_perm`) that has the value of both
(`MergeRound.addUpTo`). No coefficient is computed, so this is exact for doubles as well
(`mergeAngleSums_exact`).
-/

namespace SymCalc

open Scalar

variable {α : Type} [Scalar α]

/-- Whether the terms at the positions `i` and `j` are the two sides of a sum of angles, in this order. -/
def IsMergeable (terms : List (Monomial α)) (i j : ℕ) : Prop :=
  ∃ (hi : i < terms.length) (hj : j < terms.length), i ≠ j ∧ angleSum? terms[i] terms[j] ≠ none

/-- A round of the search: the first two terms that can be merged, by the position of the first and then
by the one of the second, are taken out, the later one first, and the new term comes last. -/
inductive MergeRound : List (Monomial α) → Step → List (Monomial α) → Prop
  | merge {terms : List (Monomial α)} {i j : ℕ} {t : Monomial α} {step : Step}
      (hi : i < terms.length) (hj : j < terms.length) (hne : i ≠ j)
      (h : angleSum? terms[i] terms[j] = some (t, step))
      (hfirst : ∀ k l, k < i ∨ k = i ∧ l < j → ¬ IsMergeable terms k l) :
      MergeRound terms step ((terms.eraseIdx (max i j)).eraseIdx (min i j) ++ [t])

/-- The rounds of the search, which starts again after each and ends when no two terms can be merged. -/
inductive MergeRun : List (Monomial α) → List Step → List (Monomial α) → Prop
  | done {terms : List (Monomial α)} (h : ∀ i j, ¬ IsMergeable terms i j) : MergeRun terms [] terms
  | round {terms terms' out : List (Monomial α)} {step : Step} {steps : List Step}
      (h : MergeRound terms step terms') (hrun : MergeRun terms' steps out) :
      MergeRun terms (step :: steps) out

variable {a b t : Monomial α} {terms out out' : List (Monomial α)} {step step' : Step}
  {steps steps' : List Step} {m : Merge α} {i j : ℕ}

/-! ## The search -/

/-- The position in a list of what is at the position `j` after another element, at `i`, has been taken out.
Taking out both in either order leaves the same, and what is before it is before `j`. -/
theorem exists_position_of_eraseIdx {β : Type} {xs : List β} (hi : i < xs.length)
    (hj : j < (xs.eraseIdx i).length) :
    ∃ (p : ℕ) (hp : p < xs.length), i ≠ p ∧ (xs.eraseIdx i)[j] = xs[p] ∧
      (xs.eraseIdx i).eraseIdx j = (xs.eraseIdx (max i p)).eraseIdx (min i p) ∧
      ∀ l (hl : l < xs.length), i ≠ l → l < p →
        ∃ (k : ℕ) (hk : k < (xs.eraseIdx i).length), k < j ∧ (xs.eraseIdx i)[k] = xs[l] := by
  have hlength : (xs.eraseIdx i).length = xs.length - 1 := List.length_eraseIdx_of_lt hi
  rcases Nat.lt_or_ge j i with hji | hij
  · refine ⟨j, hji.trans hi, hji.ne', List.getElem_eraseIdx_of_lt _ hji, ?_, ?_⟩
    · rw [max_eq_left hji.le, min_eq_right hji.le]
    · intro l hl hne hlj
      exact ⟨l, hlj.trans hj, hlj, List.getElem_eraseIdx_of_lt _ (hlj.trans hji)⟩
  · -- Everything from `i` on has moved down by one.
    refine ⟨j + 1, by omega, by omega, List.getElem_eraseIdx_of_ge _ hij, ?_, ?_⟩
    · rw [max_eq_right (by omega), min_eq_left (by omega)]
      apply List.ext_getElem?
      intro k
      simp only [List.getElem?_eraseIdx]
      split_ifs <;> first | rfl | omega
    · intro l hl hne hlj
      rcases Nat.lt_or_gt_of_ne hne with hil | hli
      · cases l with
        | zero => exact absurd hil (Nat.not_lt_zero i)
        | succ l =>
          exact ⟨l, by omega, by omega, List.getElem_eraseIdx_of_ge _ (Nat.le_of_lt_succ hil)⟩
      · exact ⟨l, by omega, by omega, List.getElem_eraseIdx_of_lt _ hli⟩

theorem firstMerge?_eq_none_iff_not_isMergeable :
    firstMerge? [] terms = none ↔ ∀ i j, ¬ IsMergeable terms i j := by
  rw [firstMerge?_eq_none, List.pairwise_iff_getElem]
  constructor
  · rintro ⟨-, hpairs⟩ i j ⟨hi, hj, hne, hsome⟩
    rcases Nat.lt_or_gt_of_ne hne with hij | hji
    · exact hsome (hpairs i j hi hj hij).1
    · exact hsome (hpairs j i hj hi hji).2
  · intro h
    have hnone (i j : ℕ) (hi : i < terms.length) (hj : j < terms.length) (hne : i ≠ j) :
        angleSum? terms[i] terms[j] = none := by
      by_contra hsome
      exact h i j ⟨hi, hj, hne, hsome⟩
    constructor
    · intro a _ b hb
      exact absurd hb List.not_mem_nil
    · intro i j hi hj hij
      exact ⟨hnone i j hi hj hij.ne, hnone j i hj hi hij.ne'⟩

/-- What the search finds is a round. -/
theorem mergeRound_of_firstMerge? (h : firstMerge? [] terms = some m) :
    MergeRound terms m.step (m.others ++ [m.term]) := by
  obtain ⟨i, hi, hm, hfirst⟩ := exists_of_firstMerge? h
  obtain ⟨j, hj, hmerge, hothers, hnone⟩ := exists_of_mergeWith? hm
  obtain ⟨p, hp, hne, hget, herase, hbefore⟩ := exists_position_of_eraseIdx hi hj
  rw [hothers, List.nil_append, herase]
  apply MergeRound.merge hi hp hne (hget ▸ hmerge)
  rintro k l hkl ⟨hk, hl, hne', hsome⟩
  rcases hkl with hki | ⟨rfl, hlp⟩
  · have hmem : terms[l] ∈ terms.eraseIdx k :=
      List.mem_eraseIdx_iff_getElem.2 ⟨l, hl, hne'.symm, rfl⟩
    exact hsome (mergeWith?_eq_none.1 (hfirst k hk hki) _ hmem)
  · obtain ⟨q, hq, hqj, hget⟩ := hbefore l hl hne' hlp
    exact hsome (hget ▸ hnone q hq hqj)

theorem mergeRun_mergeAngleSums (terms : List (Monomial α)) :
    MergeRun terms (mergeAngleSums terms).steps (mergeAngleSums terms).value := by
  fun_induction mergeAngleSums terms with
  | case1 terms h => exact .done (firstMerge?_eq_none_iff_not_isMergeable.1 h)
  | case2 terms m h _ ih => exact .round (mergeRound_of_firstMerge? h) ih

/-! ## Runs -/

theorem MergeRound.exists_isMergeable (h : MergeRound terms step out) : ∃ i j, IsMergeable terms i j := by
  cases h with
  | merge hi hj hne h => exact ⟨_, _, hi, hj, hne, by rw [h]; nofun⟩

/-- There is only one round, because there is only one first pair. -/
theorem MergeRound.unique (h : MergeRound terms step out) (h' : MergeRound terms step' out') :
    step = step' ∧ out = out' := by
  cases h with
  | @merge i j t _ hi hj hne h hfirst =>
    cases h' with
    | @merge k l t' _ hk hl hne' h' hfirst' =>
      have hij : IsMergeable terms i j := ⟨hi, hj, hne, by rw [h]; nofun⟩
      have hkl : IsMergeable terms k l := ⟨hk, hl, hne', by rw [h']; nofun⟩
      have hnot := mt (hfirst' i j) (not_not_intro hij)
      have hnot' := mt (hfirst k l) (not_not_intro hkl)
      obtain ⟨rfl, rfl⟩ : i = k ∧ j = l := by omega
      cases h.symm.trans h'
      exact ⟨rfl, rfl⟩

theorem mergeRound_iff : MergeRound terms step out ↔
    ∃ m, firstMerge? [] terms = some m ∧ step = m.step ∧ out = m.others ++ [m.term] := by
  constructor
  · intro h
    obtain ⟨i, j, hij⟩ := h.exists_isMergeable
    cases hm : firstMerge? [] terms with
    | none => exact absurd hij (firstMerge?_eq_none_iff_not_isMergeable.1 hm i j)
    | some m => exact ⟨m, rfl, h.unique (mergeRound_of_firstMerge? hm)⟩
  · rintro ⟨m, hm, rfl, rfl⟩
    exact mergeRound_of_firstMerge? hm

/-- A round takes two terms out and puts one in. -/
theorem MergeRound.exists_perm (h : MergeRound terms step out) : ∃ a b t rest,
    angleSum? a b = some (t, step) ∧ terms.Perm (a :: b :: rest) ∧ out = rest ++ [t] := by
  obtain ⟨m, hm, rfl, rfl⟩ := mergeRound_iff.1 h
  obtain ⟨a, b, hab, hp⟩ := perm_of_firstMerge? hm
  exact ⟨a, b, m.term, m.others, hab, hp, rfl⟩

theorem MergeRun.unique (h : MergeRun terms steps out) (h' : MergeRun terms steps' out') :
    steps = steps' ∧ out = out' := by
  induction h generalizing steps' with
  | done hdone =>
    cases h' with
    | done => exact ⟨rfl, rfl⟩
    | round h' =>
      obtain ⟨i, j, hij⟩ := h'.exists_isMergeable
      exact absurd hij (hdone i j)
  | round h _ ih =>
    cases h' with
    | done hdone =>
      obtain ⟨i, j, hij⟩ := h.exists_isMergeable
      exact absurd hij (hdone i j)
    | round h' hrun' =>
      obtain ⟨rfl, rfl⟩ := h.unique h'
      obtain ⟨rfl, rfl⟩ := ih hrun'
      exact ⟨rfl, rfl⟩

/-- The run is the one that `mergeAngleSums` goes through. -/
theorem mergeRun_iff : MergeRun terms steps out ↔ mergeAngleSums terms = ⟨out, steps⟩ := by
  constructor
  · intro h
    obtain ⟨hsteps, hout⟩ := (mergeRun_mergeAngleSums terms).unique h
    rw [← hsteps, ← hout]
  · intro h
    have hrun := mergeRun_mergeAngleSums terms
    rwa [h] at hrun

theorem MergeRun.length_eq (h : MergeRun terms steps out) :
    out.length + steps.length = terms.length := by
  induction h with
  | done => rfl
  | round h _ ih =>
    obtain ⟨a, b, t, rest, -, hp, rfl⟩ := h.exists_perm
    have hlength := hp.length_eq
    simp only [List.length_append, List.length_cons, List.length_nil] at ih hlength ⊢
    omega

theorem MergeRun.not_isMergeable (h : MergeRun terms steps out) (i j : ℕ) : ¬ IsMergeable out i j := by
  induction h with
  | done h => exact h i j
  | round _ _ ih => exact ih

/-! ## Values -/

/-- The monomial with `g v` in place of every constant `v`. -/
def Monomial.map {β : Type} (g : α → β) (m : Monomial α) : Monomial β :=
  ⟨g m.coeff, m.numer.map (Formula.map g), m.denom.map (Formula.map g)⟩

omit [Scalar α] in
theorem Formula.map_eq_of_forall₂ {β : Type} {r : α → α → Prop} {g : α → β} {f f' : Formula α}
    (hr : ∀ v w, r v w → g v = g w) (h : f.Forall₂ r f') : f.map g = f'.map g := by
  induction f generalizing f' with
  | const v =>
    cases f' with
    | const w => exact congrArg const (hr v w h)
    | _ => cases h
  | var x =>
    cases f' with
    | var y => exact congrArg var h
    | _ => cases h
  | unary op a ih =>
    cases f' with
    | unary op' a' =>
      obtain ⟨rfl, ha⟩ := h
      rw [map, map, ih ha]
    | _ => cases h
  | binary op a b iha ihb =>
    cases f' with
    | binary op' a' b' =>
      obtain ⟨rfl, ha, hb⟩ := h
      rw [map, map, iha ha, ihb hb]
    | _ => cases h

variable {read : α → Exact} {ρ : String → ℝ} {x y : ℝ}

omit [Scalar α] in
theorem Monomial.map_of_functionPair? {op op' : UnaryOp} {f g : Formula α} {k : ℝ} {m : Monomial α}
    (hk : read m.coeff = .number k) (h : m.functionPair? op op' = some (f, g)) :
    m.map read = ⟨.number k, [.unary op (f.map read), .unary op' (g.map read)], []⟩ := by
  obtain ⟨hn, hd⟩ := eq_of_functionPair? h
  rw [map, hk, hn, hd]
  rfl

variable [LawfulScalar α]

theorem Scalar.IsSignedReading.eq_of_sameValue (hread : IsSignedReading read) {v w : α}
    (h : SameValue v w) : read v = read w := by
  have hundefined {v : α} (hv : isNumber v = false) : read v = .undefined := by
    cases hr : read v with
    | number x =>
      have hfinite : isFinite v := hread.isNumber_iff.1 (hr ▸ rfl)
      exact absurd (LawfulScalar.isNumber_of_isFinite hfinite) (ne_true_of_eq_false hv)
    | undefined => rfl
  rcases h with rfl | ⟨hv, hw⟩ | ⟨hv, hw⟩
  · rfl
  · rw [hread.congr hv, hread.congr hw]
  · rw [hundefined hv, hundefined hw]

/-- Equal formulas are read as the same one. -/
theorem Scalar.IsSignedReading.map_eq_of_beq (hread : IsSignedReading read) {f g : Formula α}
    (h : f == g) : f.map read = g.map read :=
  Formula.map_eq_of_forall₂ (fun _ _ => hread.eq_of_sameValue)
    (Formula.compare_eq_iff.1 (Formula.beq_iff.1 h))

/-- Coefficients of the same magnitude are read as the same number or as opposite ones. -/
theorem Scalar.IsSignedReading.eq_or_neg (hread : IsSignedReading read) {v w : α}
    (h : magnitude v == magnitude w) : read w = if v == w then read v else -read v := by
  by_cases hvw : v == w
  · rw [if_pos hvw, hread.congr hvw]
  · rw [if_neg hvw]
    unfold magnitude at h
    split at h
    · split at h
      · exact absurd (LawfulScalar.neg_beq_neg v w ▸ h) hvw
      · rw [← hread.neg, hread.congr h]
    · split at h
      · rw [hread.congr h, hread.neg, LawfulScalar.neg_neg]
      · exact absurd h hvw

/-- Merging two terms by a sum of angles keeps their sum. -/
theorem hasValue_map_angleSum (hread : IsSignedReading read) (ha : (a.map read).HasValue ρ x)
    (hb : (b.map read).HasValue ρ y) (h : angleSum? a b = some (t, step)) :
    (t.map read).HasValue ρ (x + y) := by
  obtain ⟨hm, f, rfl, hf⟩ := exists_of_angleSum? h
  -- Coefficients of the same magnitude that are not equal are read as opposite numbers.
  obtain ⟨k, hk⟩ : ∃ k, read a.coeff = .number k := Exact.exists_number ha.1.coeff
  have hl : read b.coeff = .number (if a.coeff == b.coeff then k else -k) := by
    rw [hread.eq_or_neg hm, hk]
    split <;> rfl
  have hmap (op : UnaryOp) (same : Bool) (f g : Formula α) :
      Monomial.map read ⟨a.coeff, [.unary op (if same then f else g)], []⟩ =
        ⟨.number k, [.unary op (if same then f.map read else g.map read)], []⟩ := by
    rw [Monomial.map, hk]
    cases same <;> rfl
  rcases hf with hf | hf
  · obtain ⟨p, q, p', q', hpq, hpq', hp, hq, rfl⟩ := exists_of_cosineSum? hf
    rw [Monomial.map_of_functionPair? hk hpq] at ha
    rw [Monomial.map_of_functionPair? hl hpq', ← hread.map_eq_of_beq hp,
      ← hread.map_eq_of_beq hq] at hb
    rw [hmap]
    exact ha.cosineSum hb rfl
  · obtain ⟨q, p, p', q', hqp, hpq, hp, hq, rfl⟩ := exists_of_sineSum? hf
    rw [Monomial.map_of_functionPair? hk hqp] at ha
    rw [Monomial.map_of_functionPair? hl hpq, ← hread.map_eq_of_beq hp,
      ← hread.map_eq_of_beq hq] at hb
    rw [hmap]
    exact ha.sineSum hb rfl

/-- A round keeps what the terms add up to. -/
theorem MergeRound.addUpTo (hread : IsSignedReading read) (h : MergeRound terms step out)
    (hx : AddUpTo ρ (terms.map (Monomial.map read)) x) :
    AddUpTo ρ (out.map (Monomial.map read)) x := by
  obtain ⟨a, b, t, rest, hab, hp, rfl⟩ := h.exists_perm
  obtain ⟨y, s, ha, hs, rfl⟩ := (hx.perm (hp.map _)).exists_of_cons
  obtain ⟨z, w, hb, hrest, rfl⟩ := hs.exists_of_cons
  rw [← add_assoc, add_comm, List.map_append]
  exact hrest.append (hasValue_map_angleSum hread ha hb hab).addUpTo

theorem MergeRun.addUpTo (hread : IsSignedReading read) (h : MergeRun terms steps out)
    (hx : AddUpTo ρ (terms.map (Monomial.map read)) x) :
    AddUpTo ρ (out.map (Monomial.map read)) x := by
  induction h with
  | done => exact hx
  | round h _ ih => exact ih (h.addUpTo hread hx)

/-- The search for sums of angles ends, after the one run that it can take. If all terms are defined, which
includes that their coefficients are finite, those at the end are defined and have the same sum, however
constants are read, as long as opposite ones are read as opposite numbers. There is one term less for each
step, and no two of those that are left, new ones included, can be merged. -/
theorem mergeAngleSums_exact (terms : List (Monomial α)) :
    (∀ steps out, MergeRun terms steps out ↔ mergeAngleSums terms = ⟨out, steps⟩) ∧
    (∀ (read : α → Exact) (ρ : String → ℝ), IsSignedReading read →
      (∀ m ∈ terms, (m.map read).DefinedAt ρ) →
        (∀ m ∈ (mergeAngleSums terms).value, (m.map read).DefinedAt ρ) ∧
        ((mergeAngleSums terms).value.map fun m => (m.map read).valueAt ρ).sum =
          (terms.map fun m => (m.map read).valueAt ρ).sum) ∧
    (mergeAngleSums terms).value.length + (mergeAngleSums terms).steps.length = terms.length ∧
    ∀ i j, ¬ IsMergeable (mergeAngleSums terms).value i j := by
  have hrun := mergeRun_mergeAngleSums terms
  refine ⟨fun _ _ => mergeRun_iff, ?_, hrun.length_eq, hrun.not_isMergeable⟩
  intro read ρ hread hdefined
  obtain ⟨hd, hv⟩ := hrun.addUpTo hread ⟨List.forall_mem_map.2 hdefined, rfl⟩
  rw [List.map_map, List.map_map] at hv
  exact ⟨List.forall_mem_map.1 hd, hv⟩

open Formula in
/-- Two merges, of the second term with the last one and of the third with the first one. It makes no
difference whether the doubles nearest to π and to -π are read as themselves or as π and -π. -/
theorem mergeAngleSums_exact_pi :
    let x : Formula Float := var "x"
    let y : Formula Float := var "y"
    let terms : List (Monomial Float) := [⟨-pi, [unary .sin x, unary .sin y], []⟩,
      ⟨1, [unary .cos x, unary .sin y], []⟩, ⟨pi, [unary .cos x, unary .cos y], []⟩,
      ⟨-1, [unary .cos y, unary .sin x], []⟩]
    let sum (read : Float → Exact) (ρ : String → ℝ) (ms : List (Monomial Float)) : ℝ :=
      (ms.map fun m => (m.map read).valueAt ρ).sum
    (mergeAngleSums terms).steps = [.sineAngleSum, .cosineAngleSum] ∧
      (mergeAngleSums terms).value.length = 2 ∧
      ∀ read ∈ [Double.literal, Double.signed], ∀ ρ, IsSignedReading read ∧
        (∀ m ∈ terms, (m.map read).DefinedAt ρ) ∧
        sum read ρ (mergeAngleSums terms).value = sum read ρ terms := by
  intro x y terms sum
  have hsteps : (mergeAngleSums terms).steps = [.sineAngleSum, .cosineAngleSum] := by
    decide +kernel
  have hlength := (mergeAngleSums_exact terms).2.2.1
  rw [hsteps] at hlength
  refine ⟨hsteps, Nat.add_right_cancel hlength, ?_⟩
  intro read hmem ρ
  have hread : IsSignedReading read := by
    rcases List.mem_pair.1 hmem with rfl | rfl
    · exact Double.isSignedReading_literal
    · exact Double.isSignedReading_signed
  have hcoeff : ∀ m ∈ terms, isFinite m.coeff := by decide
  have hnumer : ∀ m ∈ terms, ∀ f ∈ m.numer, (f.map read).DefinedAt ρ := by
    simp [terms, x, y, Formula.map, DefinedAt, UnaryOp.Admits]
  have hdenom : ∀ m ∈ terms, m.denom = [] := by simp [terms]
  have hdefined : ∀ m ∈ terms, (m.map read).DefinedAt ρ := by
    intro m hm
    have hnil : (m.map read).denom = [] := by rw [Monomial.map, hdenom m hm, List.map_nil]
    exact {
      coeff := hread.isNumber_iff.2 (hcoeff m hm)
      numer := List.forall_mem_map.2 (hnumer m hm)
      denom := hnil ▸ List.forall_mem_nil _
      nonzero := hnil ▸ List.forall_mem_nil _ }
  exact ⟨hread, hdefined, ((mergeAngleSums_exact terms).2.1 read ρ hread hdefined).2⟩

end SymCalc
