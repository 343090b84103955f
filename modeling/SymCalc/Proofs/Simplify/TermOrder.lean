import SymCalc.Proofs.Scalar.ExactLaws
import SymCalc.Proofs.Simplify.EqualTerms
import SymCalc.Proofs.Simplify.OutOfRange

/-!
# The order of the terms of a sum

* `Scalar.SumsExactly`: whether values have the same sum in whichever order they are added up;
* `Formula.AddsExactly`: whether this holds of the coefficients of like terms of a sum.

Nothing but the coefficients of like terms can depend on the order of the terms of a sum, since
these are rounded sums. Where they do not, permutations of the terms become equal terms in the same
order once like terms have been combined (`forall₂_combineLikeTerms`), so the sums have equal normal
forms (`Formula.normalizeSum_beq_of_perm`). Exact constants are always added exactly
(`Exact.sumsExactly`).
-/

namespace SymCalc

/-! ## Adding values -/

namespace Scalar

section
variable {α : Type} [Scalar α]

/-- Whether the values have the same sum in whichever order they are added up, or no finite one in
any order. -/
def SumsExactly (vs : List α) : Prop :=
  ∀ ws : List α, ws.Perm vs → Agree (ws.foldl (· + ·) 0) (vs.foldl (· + ·) 0)

instance (v w : α) : Decidable (Agree v w) :=
  inferInstanceAs (Decidable (isFinite v = isFinite w ∧ (isFinite v → v == w)))

instance (vs : List α) : Decidable (SumsExactly vs) :=
  decidable_of_iff (∀ ws ∈ vs.permutations', Agree (ws.foldl (· + ·) 0) (vs.foldl (· + ·) 0))
    (by simp only [SumsExactly, List.mem_permutations'])

example : ¬SumsExactly [(0.1 : Float), 0.2, 0.3] := by decide

/-- The sum of the values, added up from the first one on. -/
def total : List α → α
  | [] => 0
  | v :: vs => vs.foldl (· + ·) v

end

open LawfulScalar

variable {α : Type} [Scalar α] [LawfulScalar α] {u v w : α} {us vs ws : List α}

theorem add_beq_of_beq_zero (hv : v == 0) (hu : isFinite u) : v + u == u := by
  cases h0 : u == 0 with
  | true =>
    have h : Agree (v + u) (0 + 0) := add_congr hv h0
    rw [LawfulScalar.zero_add isFinite_zero fun _ => rfl] at h
    exact beq_of_beq_zero (h.2 (h.1.trans isFinite_zero)) h0
  | false =>
    have h : Agree (v + u) (0 + u) := add_congr hv (beq_self (isNumber_of_isFinite hu))
    rw [LawfulScalar.zero_add hu fun h => absurd h (ne_true_of_eq_false h0)] at h
    exact h.2 (h.1.trans hu)

/-- It does not matter which of two equal values finite ones are added to. -/
theorem agree_foldl_add (hvs : ∀ u ∈ vs, isFinite u) (h : v = w ∨ v == 0 ∧ w == 0) :
    Agree (vs.foldl (· + ·) v) (vs.foldl (· + ·) w) := by
  induction vs generalizing v w with
  | nil =>
    rcases h with rfl | ⟨hv, hw⟩
    · exact agree_of_eq rfl
    · exact .of_beq (beq_of_beq_zero hv hw)
  | cons u vs ih =>
    obtain ⟨hu, hvs⟩ := List.forall_mem_cons.1 hvs
    rcases h with rfl | ⟨hv, hw⟩
    · exact agree_of_eq rfl
    · have hvu := add_beq_of_beq_zero hv hu
      have hwu := add_beq_of_beq_zero hw hu
      exact ih hvs (eq_or_zero_of_beq (beq_trans hvu ((beq_comm _ _).trans hwu)))

theorem agree_foldl_total (hvs : ∀ v ∈ vs, isFinite v) :
    Agree (vs.foldl (· + ·) 0) (total vs) := by
  cases vs with
  | nil => exact agree_of_eq rfl
  | cons v vs =>
    obtain ⟨hv, hvs⟩ := List.forall_mem_cons.1 hvs
    exact agree_foldl_add hvs (eq_or_zero_of_beq (add_beq_of_beq_zero zero_beq_zero hv))

theorem SumsExactly.agree_total (h : SumsExactly us) (hus : ∀ u ∈ us, isFinite u)
    (hv : vs.Perm us) (hw : ws.Perm us) : Agree (total vs) (total ws) := by
  have hvs := agree_foldl_total fun v hmem => hus v (hv.mem_iff.1 hmem)
  have hws := agree_foldl_total fun w hmem => hus w (hw.mem_iff.1 hmem)
  exact (hvs.symm.trans ((h vs hv).trans (h ws hw).symm)).trans hws

end Scalar

theorem Exact.sumsExactly (vs : List Exact) : Scalar.SumsExactly vs := by
  intro ws hp
  have hcomm : RightCommutative fun v w : Exact => v + w := ⟨fun u v w => by
    cases u <;> cases v <;> cases w <;> first | rfl | exact congrArg number (add_right_comm ..)⟩
  exact Scalar.agree_of_eq (hp.foldl_eq 0)

open Scalar Formula

variable {α : Type} [Scalar α] [LawfulScalar α] {f g : Formula α} {a b m n t u : Monomial α}
  {ms ns ts us : List (Monomial α)}

/-! ## Combining like terms -/

theorem compareFactors_congr {a' b' : Monomial α} (ha : a.compareFactors a' = .eq)
    (hb : b.compareFactors b' = .eq) : a.compareFactors b = a'.compareFactors b' :=
  (Std.TransCmp.congr_left ha).trans (Std.TransCmp.congr_right hb)

/-- Terms that the order does not tell apart are combined to such terms. -/
theorem forall₂_addLikeTerms
    (h : List.Forall₂ (fun a b => a.compareFactors b = .eq) (t :: ts) (u :: us)) :
    List.Forall₂ (fun a b => a.compareFactors b = .eq) (addLikeTerms t ts).value
      (addLikeTerms u us).value := by
  fun_induction addLikeTerms t ts generalizing u us with
  | case1 t =>
    cases h with
    | cons htu h =>
      cases h
      exact .cons htu .nil
  | case2 t t' ts heq ih =>
    rcases h with _ | ⟨htu, _ | ⟨htu', h⟩⟩
    rw [addLikeTerms, if_pos (compareFactors_congr htu htu' ▸ heq)]
    exact ih (.cons htu h)
  | case3 t t' ts hne ih =>
    rcases h with _ | ⟨htu, _ | ⟨htu', h⟩⟩
    rw [addLikeTerms, if_neg (compareFactors_congr htu htu' ▸ hne)]
    exact .cons htu (ih (.cons htu' h))

/-- Every term that is left has the coefficients of the terms like it added up. -/
theorem coeff_of_mem_addLikeTerms
    (hsorted : (t :: ts).Pairwise fun a b => (a.compareFactors b).isLE)
    (hm : m ∈ (addLikeTerms t ts).value) :
    (∃ n ∈ t :: ts, m.compareFactors n = .eq) ∧
      m.coeff = total (((t :: ts).filter (m.compareFactors · == .eq)).map Monomial.coeff) := by
  fun_induction addLikeTerms t ts with
  | case1 t =>
    obtain rfl := List.mem_singleton.1 hm
    have hself : m.compareFactors m = .eq := Std.ReflCmp.compare_self
    exact ⟨⟨m, hm, hself⟩, by simp [hself, total]⟩
  | case2 t u ts heq ih =>
    obtain ⟨hle, hsorted⟩ := List.pairwise_cons.1 hsorted
    obtain ⟨⟨n, hn, hmn⟩, hcoeff⟩ := ih (List.pairwise_cons.2
      ⟨(List.forall_mem_cons.1 hle).2, (List.pairwise_cons.1 hsorted).2⟩) hm
    have hu : m.compareFactors u = m.compareFactors t :=
      (Std.TransCmp.congr_right (eq_of_beq heq)).symm
    -- The sum of `t` and `u` has the factors of both, so it is like `m` if they are.
    have hmerged : m.compareFactors { t with coeff := t.coeff + u.coeff } = m.compareFactors t :=
      rfl
    refine ⟨?_, hcoeff.trans ?_⟩
    · rcases List.mem_cons.1 hn with rfl | hn
      · exact ⟨t, List.mem_cons_self, hmn⟩
      · exact ⟨n, List.mem_cons_of_mem _ (List.mem_cons_of_mem _ hn), hmn⟩
    · simp only [List.filter_cons, hmerged, hu]
      split <;> rfl
  | case3 t u ts hne ih =>
    have hlt := compareFactors_lt_of_sorted hsorted hne
    rcases List.mem_cons.1 hm with rfl | hm
    -- Nothing behind the last of the terms like `m` is like it again, since terms are in order.
    · have hself : m.compareFactors m = .eq := Std.ReflCmp.compare_self
      have hnone : (u :: ts).filter (m.compareFactors · == .eq) = [] :=
        List.filter_eq_nil_iff.2 fun n hn => by simp [hlt n hn]
      refine ⟨⟨m, List.mem_cons_self, hself⟩, ?_⟩
      rw [List.filter_cons_of_pos (by simp [hself]), hnone]
      rfl
    · obtain ⟨⟨n, hn, hmn⟩, hcoeff⟩ := ih hsorted.tail hm
      have hmt : m.compareFactors t = .gt :=
        (Std.TransCmp.congr_left hmn).trans (Std.OrientedCmp.gt_of_lt (hlt n hn))
      refine ⟨⟨n, List.mem_cons_of_mem _ hn, hmn⟩, ?_⟩
      rw [List.filter_cons_of_neg (by simp [hmt]), hcoeff]

/-- Whether the terms have the same coefficient as far as finite ones go, and equal factors. -/
def Monomial.AgreesWith (a b : Monomial α) : Prop :=
  a.compareFactors b = .eq ∧ Agree a.coeff b.coeff

/-- Terms in order that are permutations of each other are combined to terms that agree, if
coefficients are added exactly. -/
theorem forall₂_addLikeTerms_of_perm (ht : (t :: ts).Perm ms) (hu : (u :: us).Perm ms)
    (hts : (t :: ts).Pairwise fun a b => (a.compareFactors b).isLE)
    (hus : (u :: us).Pairwise fun a b => (a.compareFactors b).isLE)
    (h : List.Forall₂ (fun a b => a.compareFactors b = .eq) (t :: ts) (u :: us))
    (hfin : ∀ m ∈ ms, isFinite m.coeff)
    (hsums : ∀ m ∈ ms, SumsExactly ((ms.filter (m.compareFactors · == .eq)).map Monomial.coeff)) :
    List.Forall₂ Monomial.AgreesWith (addLikeTerms t ts).value (addLikeTerms u us).value := by
  obtain ⟨hlength, hzip⟩ := List.forall₂_iff_zip.1 (forall₂_addLikeTerms h)
  refine List.forall₂_iff_zip.2 ⟨hlength, fun {a b} hab => ⟨hzip hab, ?_⟩⟩
  obtain ⟨⟨n, hn, han⟩, ha⟩ := coeff_of_mem_addLikeTerms hts (List.of_mem_zip hab).1
  obtain ⟨-, hb⟩ := coeff_of_mem_addLikeTerms hus (List.of_mem_zip hab).2
  -- The terms like `a`, like `b` and like `n` are the same.
  have hlike {a : Monomial α} (h : n.compareFactors a = .eq) :
      (fun m => a.compareFactors m == .eq) = fun m => n.compareFactors m == .eq :=
    funext fun m => by rw [← show n.compareFactors m = _ from Std.TransCmp.congr_left h]
  have hna := Std.OrientedCmp.eq_symm han
  rw [ha, hb, hlike hna, hlike (Std.TransCmp.eq_trans hna (hzip hab))]
  refine (hsums n (ht.mem_iff.1 hn)).agree_total ?_ ((ht.filter _).map _) ((hu.filter _).map _)
  intro v hv
  obtain ⟨m, hm, rfl⟩ := List.mem_map.1 hv
  exact hfin m (List.mem_filter.1 hm).1

/-- Permutations of terms are combined to terms that agree, if coefficients are added exactly. -/
theorem forall₂_combineLikeTerms (hp : ms.Perm ns) (hfin : ∀ m ∈ ms, isFinite m.coeff)
    (hsums : ∀ m ∈ ms, SumsExactly ((ms.filter (m.compareFactors · == .eq)).map Monomial.coeff)) :
    List.Forall₂ Monomial.AgreesWith (combineLikeTerms ms).value (combineLikeTerms ns).value := by
  have h := forall₂_mergeSort_of_perm Monomial.compareFactors hp
  have hms := List.mergeSort_perm ms fun a b => (a.compareFactors b).isLE
  have hns := (List.mergeSort_perm ns fun a b => (a.compareFactors b).isLE).trans hp.symm
  have hsorted := pairwise_mergeSort_isLE Monomial.compareFactors ms
  have hsorted' := pairwise_mergeSort_isLE Monomial.compareFactors ns
  unfold combineLikeTerms
  generalize ms.mergeSort _ = as, ns.mergeSort _ = bs at *
  cases h with
  | nil => exact .nil
  | cons hab h =>
    exact forall₂_filter (fun a b hab => congrArg not hab.2.beq_zero_eq)
      (forall₂_addLikeTerms_of_perm hms hns hsorted hsorted' (.cons hab h) hfin hsums)

omit [LawfulScalar α] in
theorem coeff_of_mem_combineLikeTerms (hm : m ∈ (combineLikeTerms ms).value) :
    (m.coeff == 0) = false := by
  unfold combineLikeTerms at hm
  split at hm
  · cases hm
  · exact Bool.not_eq_true' _ ▸ (List.mem_filter.1 hm).2

/-! ## The terms of a sum -/

namespace Monomial

/-- Terms that agree are equal if their coefficients are finite and not zero. -/
theorem AgreesWith.equals (h : a.AgreesWith b) (hfin : isFinite a.coeff)
    (h0 : (a.coeff == 0) = false) : a.Equals b := by
  obtain ⟨hn, hd⟩ := Ordering.then_eq_eq.1 h.1
  refine ⟨?_, compareLists_eq_iff.1 hn, compareLists_eq_iff.1 hd⟩
  exact (LawfulScalar.eq_or_zero_of_beq (h.2.2 hfin)).resolve_right fun h =>
    absurd h.1 (ne_true_of_eq_false h0)

/-- Whether the terms have the same factors in some order. -/
def isLike (m n : Monomial α) : Bool := m.sorted.compareFactors n.sorted == .eq

omit [LawfulScalar α] in
theorem isConstant_eq_of_isLike (h : m.isLike n) : m.isConstant = n.isConstant := by
  rw [← m.isConstant_sorted, ← n.isConstant_sorted]
  exact isConstant_eq_of_compareFactors (eq_of_beq h)

omit [LawfulScalar α] in
theorem isLike_eq_of_isConstant (hm : m.isConstant) : m.isLike n = n.isConstant := by
  refine Bool.eq_iff_iff.2 ⟨fun h => isConstant_eq_of_isLike h ▸ hm, fun hn => ?_⟩
  rw [isLike, sorted_of_isConstant hm, sorted_of_isConstant hn, eq_of_isConstant hm,
    eq_of_isConstant hn]
  rfl

end Monomial

/-- Whether the coefficients of like terms have the same sum in every order. -/
def AddExactly (ms : List (Monomial α)) : Prop :=
  ∀ m ∈ ms, SumsExactly ((ms.filter m.isLike).map Monomial.coeff)

theorem AddExactly.agree_constantPart (h : AddExactly ms) (hp : ms.Perm ns) :
    Agree (constantPart ms) (constantPart ns) := by
  have heq (ms : List (Monomial α)) : constantPart ms =
      ((ms.filter Monomial.isConstant).map Monomial.coeff).foldl (· + ·) 0 := List.foldl_map.symm
  have hconstants := hp.filter Monomial.isConstant
  rw [heq, heq]
  cases hc : ms.filter Monomial.isConstant with
  | nil =>
    rw [hc] at hconstants
    rw [hconstants.nil_eq]
    exact agree_of_eq rfl
  | cons m rest =>
    have hm : m ∈ ms.filter Monomial.isConstant := hc ▸ List.mem_cons_self
    obtain ⟨hm, hconst⟩ := List.mem_filter.1 hm
    have hlike : Monomial.isConstant = m.isLike :=
      funext fun n => (Monomial.isLike_eq_of_isConstant hconst).symm
    rw [← hc, hlike]
    rw [hlike] at hconstants
    exact (h m hm _ (hconstants.symm.map _)).symm

theorem AddExactly.forall₂_likeTerms (h : AddExactly ms) (hp : ms.Perm ns)
    (hfin : ∀ m ∈ ms, isFinite m.coeff) :
    List.Forall₂ Monomial.AgreesWith (likeTerms ms) (likeTerms ns) := by
  refine forall₂_combineLikeTerms ((hp.filter _).map _) ?_ ?_
  · intro m hm
    obtain ⟨n, hn, rfl⟩ := List.mem_map.1 hm
    exact hfin n (List.mem_filter.1 hn).1
  · intro m hm
    obtain ⟨n, hn, rfl⟩ := List.mem_map.1 hm
    obtain ⟨hn, hconst⟩ := List.mem_filter.1 hn
    have hlike : (ms.filter (!·.isConstant)).filter n.isLike = ms.filter n.isLike := by
      rw [List.filter_filter]
      refine List.filter_congr fun t ht => ?_
      cases hlike : n.isLike t with
      | false => rfl
      | true => rw [← Monomial.isConstant_eq_of_isLike hlike, hconst]; rfl
    have hcoeff : Monomial.coeff ∘ Monomial.sorted = (Monomial.coeff : Monomial α → α) := rfl
    have hcompare : (fun t : Monomial α => n.sorted.compareFactors t == .eq) ∘ Monomial.sorted =
      n.isLike := rfl
    rw [List.filter_map, hcompare, hlike, List.map_map, hcoeff]
    exact h n hn

/-- What is left of the terms after all merging is equal, if all coefficients are finite. -/
theorem AddExactly.forall₂_mergedTerms (h : AddExactly ms) (hp : ms.Perm ns)
    (hfin : ∀ m ∈ ms, isFinite m.coeff) (hmerged : ∀ m ∈ mergedTerms ms, isFinite m.coeff) :
    List.Forall₂ Monomial.Equals (mergedTerms ms) (mergedTerms ns) := by
  obtain ⟨hlength, hzip⟩ := List.forall₂_iff_zip.1 (h.forall₂_likeTerms hp hfin)
  refine forall₂_mergeAngleSums (forall₂_mergeLogarithms (List.forall₂_iff_zip.2 ⟨hlength, ?_⟩))
  intro a b hab
  have ha : a ∈ likeTerms ms := (List.of_mem_zip hab).1
  exact (hzip hab).equals ((isFinite_mergedTerms_iff ms).1 hmerged a ha)
    (coeff_of_mem_combineLikeTerms ha)

theorem AddExactly.isFinite_mergedTerms_iff (h : AddExactly ms) (hp : ms.Perm ns)
    (hfin : ∀ m ∈ ms, isFinite m.coeff) :
    (∀ m ∈ mergedTerms ms, isFinite m.coeff) ↔ ∀ m ∈ mergedTerms ns, isFinite m.coeff := by
  have hlike : (∀ m ∈ likeTerms ms, isFinite m.coeff) ↔ ∀ m ∈ likeTerms ns, isFinite m.coeff := by
    have hagree := h.forall₂_likeTerms hp hfin
    generalize likeTerms ms = ts, likeTerms ns = us at hagree
    induction hagree with
    | nil => rfl
    | cons hab _ ih =>
      rw [List.forall_mem_cons, List.forall_mem_cons, hab.2.1]
      exact and_congr_right' ih
  exact (SymCalc.isFinite_mergedTerms_iff ms).trans
    (hlike.trans (SymCalc.isFinite_mergedTerms_iff ns).symm)

namespace Formula

/-- Whether the coefficients of like terms of the formula, taken as a sum, are added exactly as far
as their order goes. -/
def AddsExactly (f : Formula α) : Prop :=
  ∀ ms, (f.signedTerms false).mapM Monomial.ofTerm? = some ms → AddExactly ms

omit [LawfulScalar α] in
/-- Coefficients of like terms are added exactly if this is true of any of the coefficients. -/
theorem addsExactly_of_sublists (h : ∀ ms ∈ (f.signedTerms false).mapM Monomial.ofTerm?,
    ∀ vs ∈ (ms.map Monomial.coeff).sublists', SumsExactly vs) : f.AddsExactly :=
  fun ms hms _ _ => h ms hms _ (List.mem_sublists'.2 (List.filter_sublist.map _))

theorem normalizeSum_beq_of_perm (hp : (f.signedTerms false).Perm (g.signedTerms false))
    (hadd : f.AddsExactly) : f.normalizeSum.value == g.normalizeSum.value := by
  rcases normalizeSum_cases f with ⟨hnone, hf⟩ | ⟨ms, hms, hf⟩
  · rcases normalizeSum_cases g with ⟨-, hg⟩ | ⟨ns, hns, -⟩
    · rw [hf, hg]
      exact BEq.rfl
    · obtain ⟨ms, hms, -⟩ := mapM_perm hp.symm hns
      cases hnone.symm.trans hms
  · obtain ⟨ns, hns, hperm⟩ := mapM_perm hp hms
    have hg := normalizeSum_of_mapM hns
    have hadd := hadd ms hms
    have hfin m (hm : m ∈ ms) : isFinite m.coeff := by
      obtain ⟨t, -, ht⟩ := exists_of_mem_mapM hms hm
      exact Monomial.isFinite_of_ofTerm? ht
    have hconstant := hadd.agree_constantPart hperm
    have hterms := hadd.isFinite_mergedTerms_iff hperm hfin
    simp only [Bool.and_eq_true, List.all_eq_true] at hf hg
    by_cases h : isFinite (constantPart ms) ∧ ∀ m ∈ mergedTerms ms, isFinite m.coeff
    · rw [if_pos h] at hf
      rw [if_pos ⟨hconstant.1 ▸ h.1, hterms.1 h.2⟩] at hg
      rw [hf, hg]
      exact assemble_congr (hconstant.2 h.1) (hadd.forall₂_mergedTerms hperm hfin h.2)
    · rw [if_neg h] at hf
      rw [if_neg fun h' => h ⟨hconstant.1.trans h'.1, hterms.2 h'.2⟩] at hg
      rw [hf, hg]
      exact BEq.rfl

/-! ## Main statement -/

variable (α) in
/-- The normal form of a sum does not depend on the order and the grouping of its signed terms, if
the coefficients of like terms are added exactly. Nothing is assumed where constants are exact. -/
theorem normalizeSum_perm :
    (∀ f g : Formula α, (f.signedTerms false).Perm (g.signedTerms false) → f.AddsExactly →
      f.normalizeSum.value == g.normalizeSum.value) ∧
    ∀ f g : Formula Exact, (f.signedTerms false).Perm (g.signedTerms false) →
      f.normalizeSum.value == g.normalizeSum.value :=
  ⟨fun _ _ => normalizeSum_beq_of_perm, fun _ _ hp =>
    normalizeSum_beq_of_perm hp fun _ _ _ _ => Exact.sumsExactly _⟩

/-- `2*x+0.5-(y-3*x)` and `3*x-y+0.5+2*x` have equal normal forms. -/
theorem normalizeSum_perm_xy :
    (.const 2 * .var "x" + .const 0.5 - (.var "y" - .const 3 * .var "x") :
      Formula Float).AddsExactly ∧
    ((.const 2 * .var "x" + .const 0.5 - (.var "y" - .const 3 * .var "x") :
      Formula Float).normalizeSum.value ==
        (.const 3 * .var "x" - .var "y" + .const 0.5 + .const 2 * .var "x" :
          Formula Float).normalizeSum.value) := by
  have hadd : (.const 2 * .var "x" + .const 0.5 - (.var "y" - .const 3 * .var "x") :
      Formula Float).AddsExactly := addsExactly_of_sublists (by decide)
  exact ⟨hadd, (normalizeSum_perm Float).1 _ _ (List.reverse_perm _).symm hadd⟩

end Formula
end SymCalc
