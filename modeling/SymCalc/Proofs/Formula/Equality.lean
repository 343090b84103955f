import Mathlib
import SymCalc.Formula.Chain
import SymCalc.Proofs.Formula.Order

/-!
# Equal formulas

* `Scalar.SameValue`: whether two values differ at most in the sign of a zero, or both are no
  numbers;
* `Formula.Forall₂`: whether two formulas are the same tree with related constants.

Formulas are equal for `==` exactly if they are the same tree with the same values
(`Formula.compare_eq_iff`). This is an equivalence that the order respects: lists of equal formulas
sort to lists of equal formulas (`Formula.forall₂_sort`), and so do permutations of one list
(`Formula.forall₂_sort_of_perm`).
-/

namespace SymCalc

/-! ## Related lists -/

section
variable {β γ : Type} {R : β → γ → Prop} {xs : List β} {ys : List γ}

theorem forall₂_filter {p : β → Bool} {q : γ → Bool} (hpq : ∀ x y, R x y → p x = q y)
    (h : List.Forall₂ R xs ys) : List.Forall₂ R (xs.filter p) (ys.filter q) :=
  List.rel_filter (fun x y hxy => Bool.eq_iff_iff.1 (hpq x y hxy)) h

/-- Sorting keeps a relation between lists that the order respects. -/
theorem forall₂_mergeSort {le : β → β → Bool} {le' : γ → γ → Bool}
    (hle : ∀ a a' b b', R a a' → R b b' → le a b = le' a' b') (h : List.Forall₂ R xs ys) :
    List.Forall₂ R (xs.mergeSort le) (ys.mergeSort le') := by
  obtain ⟨hlength, hzip⟩ := List.forall₂_iff_zip.1 h
  let pairs := (xs.zip ys).mergeSort fun p q => le p.1 q.1
  have hfst : pairs.map Prod.fst = ((xs.zip ys).map Prod.fst).mergeSort le :=
    List.map_mergeSort fun _ _ _ _ => rfl
  have hsnd : pairs.map Prod.snd = ((xs.zip ys).map Prod.snd).mergeSort le' :=
    List.map_mergeSort fun p hp q hq => hle _ _ _ _ (hzip hp) (hzip hq)
  rw [List.map_fst_zip hlength.le] at hfst
  rw [List.map_snd_zip hlength.ge] at hsnd
  rw [← hfst, ← hsnd, List.forall₂_map_left_iff, List.forall₂_map_right_iff, List.forall₂_same]
  exact fun p hp => hzip (List.mem_mergeSort.1 hp)

variable (cmp : β → β → Ordering) [Std.TransCmp cmp] {xs' : List β}

/-- The equivalence of elements that an order does not tell apart. -/
def orderSetoid : Setoid β where
  r a b := cmp a b = .eq
  iseqv := ⟨fun _ => Std.ReflCmp.compare_self, Std.OrientedCmp.eq_symm, Std.TransCmp.eq_trans⟩

/-- Permutations of one list sort to lists that the order does not tell apart. -/
theorem forall₂_mergeSort_of_perm (hp : xs.Perm xs') :
    List.Forall₂ (fun a b => cmp a b = .eq) (xs.mergeSort fun a b => (cmp a b).isLE)
      (xs'.mergeSort fun a b => (cmp a b).isLE) := by
  let toClass : β → Quotient (orderSetoid cmp) := Quotient.mk _
  let le : Quotient (orderSetoid cmp) → Quotient (orderSetoid cmp) → Prop :=
    Quotient.lift₂ (fun a b => (cmp a b).isLE = true) fun a b a' b' ha hb => by
      rw [show cmp a b = cmp a' b from Std.TransCmp.congr_left ha,
        show cmp a' b = cmp a' b' from Std.TransCmp.congr_right hb]
  have hsorted (xs : List β) :
      ((xs.mergeSort fun a b => (cmp a b).isLE).map toClass).Pairwise le :=
    List.pairwise_map.2 (pairwise_mergeSort_isLE cmp xs)
  have hperm := ((List.mergeSort_perm xs fun a b => (cmp a b).isLE).trans hp).trans
    (List.mergeSort_perm xs' fun a b => (cmp a b).isLE).symm
  have heq := (hperm.map toClass).eq_of_pairwise (fun a b _ _ => ?_) (hsorted xs) (hsorted xs')
  · rw [← List.forall₂_eq_eq_eq, List.forall₂_map_left_iff, List.forall₂_map_right_iff] at heq
    exact heq.imp fun _ _ => Quotient.exact
  · induction a, b using Quotient.inductionOn₂ with
    | _ a b => exact fun hab hba => Quotient.sound (Std.OrientedCmp.isLE_antisymm hab hba)

end

/-! ## Values -/

namespace Scalar

open LawfulScalar

variable {α : Type} [Scalar α] {v w : α}

/-- Whether two values differ at most in the sign of a zero, or both are no numbers. -/
def SameValue (v w : α) : Prop :=
  v = w ∨ (v == 0 ∧ w == 0) ∨ (isNumber v = false ∧ isNumber w = false)

variable [LawfulScalar α]

theorem isFinite_eq_of_beq (h : v == w) : isFinite v = isFinite w := by
  have hagree := (mul_congr (beq_self (isNumber_of_isFinite (isFinite_one (α := α)))) h).1
  rwa [LawfulScalar.one_mul, LawfulScalar.one_mul] at hagree

theorem sign_of_beq_zero (h : v == 0) : lt 0 v = false ∧ lt v 0 = false := by
  rcases sign_cases ((isFinite_eq_of_beq h).trans isFinite_zero) with
    ⟨-, -, hne⟩ | ⟨-, -, hne⟩ | ⟨hpos, hneg, -⟩
  · exact absurd h (ne_true_of_eq_false hne)
  · exact absurd h (ne_true_of_eq_false hne)
  · exact ⟨hpos, hneg⟩

/-- Equal values have the same sign. -/
theorem sign_congr (h : v == w) : lt 0 v = lt 0 w ∧ lt v 0 = lt w 0 := by
  rcases eq_or_zero_of_beq h with rfl | ⟨hv, hw⟩
  · exact ⟨rfl, rfl⟩
  · obtain ⟨hv, hv'⟩ := sign_of_beq_zero hv
    obtain ⟨hw, hw'⟩ := sign_of_beq_zero hw
    exact ⟨hv.trans hw.symm, hv'.trans hw'.symm⟩

theorem compare_zero_of_beq (h : v == 0) : compare v 0 = .eq := by
  have hv : isFinite v := (isFinite_eq_of_beq h).trans isFinite_zero
  rw [compare_of_isNumber (isNumber_of_isFinite hv) (isNumber_of_isFinite isFinite_zero), if_pos h,
    (sign_of_beq_zero h).2]
  rfl

theorem compare_eq_iff : compare v w = .eq ↔ SameValue v w := by
  constructor
  · intro h
    unfold compare at h
    split at h
    · split at h
      · cases h
      · split at h
        · next hvw => exact (eq_or_zero_of_beq hvw).imp_right .inl
        · cases h
    · cases h
    · cases h
    · next hv hw => exact .inr (.inr ⟨hv, hw⟩)
  · rintro (rfl | ⟨hv, hw⟩ | ⟨hv, hw⟩)
    · exact Std.ReflCmp.compare_self
    · exact Std.TransCmp.eq_trans (compare_zero_of_beq hv)
        (Std.OrientedCmp.eq_symm (compare_zero_of_beq hw))
    · rw [compare, hv, hw]

/-! ### Equality of values -/

omit [LawfulScalar α] in
theorem beq_of_compare (hv : isNumber v) (hw : isNumber w) (h : compare v w = .eq) : v == w := by
  rw [compare_of_isNumber hv hw] at h
  split at h
  · cases h
  · split at h
    · assumption
    · cases h

theorem beq_of_beq_zero (hv : v == 0) (hw : w == 0) : v == w := by
  have hfin {v : α} (h : v == 0) : isNumber v :=
    isNumber_of_isFinite ((isFinite_eq_of_beq h).trans isFinite_zero)
  exact beq_of_compare (hfin hv) (hfin hw) (compare_eq_iff.2 (.inr (.inl ⟨hv, hw⟩)))

theorem beq_trans {u : α} (huv : u == v) (hvw : v == w) : u == w := by
  rcases eq_or_zero_of_beq huv with rfl | ⟨hu, hv⟩
  · exact hvw
  · rcases eq_or_zero_of_beq hvw with rfl | ⟨-, hw⟩
    · exact huv
    · exact beq_of_beq_zero hu hw

theorem Agree.of_beq (h : v == w) : Agree v w := ⟨isFinite_eq_of_beq h, fun _ => h⟩

theorem Agree.trans {u : α} (huv : Agree u v) (hvw : Agree v w) : Agree u w :=
  ⟨huv.1.trans hvw.1, fun hu => beq_trans (huv.2 hu) (hvw.2 (huv.1.symm.trans hu))⟩

theorem Agree.beq_zero_eq (h : Agree v w) : (v == 0) = (w == 0) := by
  have hzero {v w : α} (h : Agree v w) (hv : v == 0) : w == 0 :=
    beq_trans (h.symm.2 (h.1.symm.trans ((isFinite_eq_of_beq hv).trans isFinite_zero))) hv
  exact Bool.eq_iff_iff.2 ⟨hzero h, hzero h.symm⟩

end Scalar

/-! ## Formulas -/

namespace Formula

open Scalar

variable {α : Type}

/-- Whether the formulas are the same tree with constants that are in the relation `r`. -/
def Forall₂ (r : α → α → Prop) : Formula α → Formula α → Prop
  | const v, const w => r v w
  | var x, var y => x = y
  | unary op a, unary op' a' => op = op' ∧ a.Forall₂ r a'
  | binary op a b, binary op' a' b' => op = op' ∧ a.Forall₂ r a' ∧ b.Forall₂ r b'
  | _, _ => False

variable [Scalar α]

theorem compare_var_eq_iff {x y : String} : (var x : Formula α).compare (var y) = .eq ↔ x = y := by
  rw [compare, Std.LawfulEqCmp.compare_eq_iff_eq]

theorem compare_unary_eq_iff {op op' : UnaryOp} {a a' : Formula α} :
    (unary op a).compare (unary op' a') = .eq ↔ op = op' ∧ a.compare a' = .eq := by
  rw [compare, Ordering.then_eq_eq, Std.LawfulEqCmp.compare_eq_iff_eq]
  exact and_congr_left' ⟨UnaryOp.rank_injective, congrArg UnaryOp.rank⟩

theorem compare_binary_eq_iff {op op' : ArithOp} {a a' b b' : Formula α} :
    (binary op a b).compare (binary op' a' b') = .eq ↔
      op = op' ∧ a.compare a' = .eq ∧ b.compare b' = .eq := by
  rw [compare, Ordering.then_eq_eq, Ordering.then_eq_eq, Std.LawfulEqCmp.compare_eq_iff_eq]
  exact and_congr_left' ⟨ArithOp.rank_injective, congrArg ArithOp.rank⟩

variable [LawfulScalar α] {v w : α} {f g : Formula α} {fs gs : List (Formula α)}

theorem ofValue_eq_of_compare (h : Scalar.compare v w = .eq) : ofValue v = ofValue w := by
  have hfin {v : α} (h : isNumber v = false) : isFinite v = false :=
    eq_false_of_ne_true fun hv => ne_true_of_eq_false h (LawfulScalar.isNumber_of_isFinite hv)
  have hzero {v : α} (h : v == 0) : ofValue v = const 0 :=
    ofValue_of_beq_zero ((isFinite_eq_of_beq h).trans LawfulScalar.isFinite_zero) h
  rcases Scalar.compare_eq_iff.1 h with rfl | ⟨hv, hw⟩ | ⟨hv, hw⟩
  · rfl
  · rw [hzero hv, hzero hw]
  · rw [ofValue_of_not_isFinite (hfin hv), ofValue_of_not_isFinite (hfin hw)]

/-- The comparison finds no difference between the same trees with the same values. -/
theorem compare_eq_iff : f.compare g = .eq ↔ f.Forall₂ SameValue g := by
  induction f generalizing g with
  | const v =>
    cases g with
    | const w => exact Scalar.compare_eq_iff
    | _ => exact ⟨nofun, nofun⟩
  | var x =>
    cases g with
    | var y => exact compare_var_eq_iff
    | _ => exact ⟨nofun, nofun⟩
  | unary op a ih =>
    cases g with
    | unary op' a' => rw [compare_unary_eq_iff, ih, Forall₂]
    | _ => exact ⟨nofun, nofun⟩
  | binary op a b iha ihb =>
    cases g with
    | binary op' a' b' => rw [compare_binary_eq_iff, iha, ihb, Forall₂]
    | _ => exact ⟨nofun, nofun⟩

/-! ### Equality as an equivalence -/

omit [LawfulScalar α] in
theorem beq_iff : f == g ↔ f.compare g = .eq := by
  rw [beq_eq, beq_iff_eq]

instance : EquivBEq (Formula α) where
  rfl := beq_iff.2 Std.ReflCmp.compare_self
  symm h := beq_iff.2 (Std.OrientedCmp.eq_symm (beq_iff.1 h))
  trans h h' := beq_iff.2 (Std.TransCmp.eq_trans (beq_iff.1 h) (beq_iff.1 h'))

theorem isSame_self (f : Formula α) : f.isSame f := by
  rw [isSame.eq_def, BEq.rfl, Bool.true_or]

theorem compare_congr {f' g' : Formula α} (hf : f == f') (hg : g == g') :
    f.compare g = f'.compare g' :=
  (Std.TransCmp.congr_left (beq_iff.1 hf)).trans (Std.TransCmp.congr_right (beq_iff.1 hg))

omit [LawfulScalar α] in
theorem compareLists_eq_iff {fs gs : List (Formula α)} :
    compareLists fs gs = .eq ↔ List.Forall₂ (· == ·) fs gs := by
  induction fs generalizing gs with
  | nil =>
    cases gs with
    | nil => exact iff_of_true rfl .nil
    | cons => exact ⟨nofun, nofun⟩
  | cons f fs ih =>
    cases gs with
    | nil => exact ⟨nofun, nofun⟩
    | cons g gs => rw [compareLists, Ordering.then_eq_eq, ih, List.forall₂_cons, beq_iff]

theorem forall₂_sort (h : List.Forall₂ (· == ·) fs gs) :
    List.Forall₂ (· == ·) (sort fs) (sort gs) := by
  refine forall₂_mergeSort (fun a a' b b' ha hb => ?_) h
  rw [compare_congr ha hb]

theorem forall₂_sort_of_perm (hp : fs.Perm gs) : List.Forall₂ (· == ·) (sort fs) (sort gs) :=
  (forall₂_mergeSort_of_perm compare hp).imp fun _ _ => beq_iff.2

end Formula
end SymCalc
