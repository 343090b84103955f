import SymCalc.Proofs.Formula.Rearrangement
import SymCalc.Proofs.Simplify.Merging

/-!
# What cancelling leaves

Whichever factors cancel each other, cancelling removes as many from the numerator as from the
denominator (`countP_cancel`), and at the end nothing is left to cancel (`isUncancelled_cancel`). As
being the same is an equivalence of formulas, this determines how many factors of each class are left on
either side of the fraction bar (`Monomial.isReductionOf_cancelFactors`).
-/

namespace SymCalc

open Formula

variable {α : Type} [Scalar α]

theorem isUncancelled_cancel (numer denom : List (Formula α)) :
    IsUncancelled (cancel numer denom).1 (cancel numer denom).2 := by
  induction numer generalizing denom with
  | nil => exact List.forall_mem_nil _
  | cons f numer ih =>
    rw [cancel]
    split
    · exact ih _
    · next h =>
      refine List.forall_mem_cons.2 ⟨fun g hg => ?_, ih denom⟩
      exact eraseFirst?_eq_none.1 h g ((sublist_cancel numer denom).2.mem hg)

/-- Cancelling keeps the difference of how many factors above and below the fraction bar have a property
that does not tell factors that cancel apart. -/
theorem countP_cancel (p : Formula α → Bool) (numer denom : List (Formula α))
    (h : ∀ f ∈ numer, ∀ g ∈ denom, f.isSame g → p f = p g) :
    ((cancel numer denom).1.countP p : ℤ) - (cancel numer denom).2.countP p =
      numer.countP p - denom.countP p := by
  induction numer generalizing denom with
  | nil => rfl
  | cons f numer ih =>
    obtain ⟨hf, h⟩ := List.forall_mem_cons.1 h
    rw [cancel]
    split
    · next rest hrest =>
      obtain ⟨as, g, bs, rfl, hg, rfl⟩ := exists_of_eraseFirst? hrest
      have hsub := (List.sublist_cons_self g bs).append_left as
      rw [ih _ fun x hx y hy => h x hx y (hsub.mem hy), List.countP_append, List.countP_append,
        List.countP_cons, List.countP_cons, hf g (by simp) hg]
      push_cast
      ring
    · have ih := ih denom h
      rw [List.countP_cons, List.countP_cons]
      push_cast
      linarith

namespace Monomial

/-- The monomial `n` is `m` reduced to lowest terms: factors are only taken away, until none stands above
and below the fraction bar, and what remains of a class of factors on one side is what that side had more
of it than the other. -/
structure IsReductionOf (n m : Monomial α) : Prop where
  coeff_eq : n.coeff = m.coeff
  numer_sublist : n.numer.Sublist m.numer
  denom_sublist : n.denom.Sublist m.denom
  isUncancelled : IsUncancelled n.numer n.denom
  countP_numer (f : Formula α) :
    n.numer.countP f.isSame = m.numer.countP f.isSame - m.denom.countP f.isSame
  countP_denom (f : Formula α) :
    n.denom.countP f.isSame = m.denom.countP f.isSame - m.numer.countP f.isSame

theorem value_cancelFactors (m : Monomial α) : m.cancelFactors.value =
    ⟨m.coeff, (cancel m.numer m.denom).1, (cancel m.numer m.denom).2⟩ := rfl

/-- A step is taken exactly if something is taken away. -/
theorem steps_cancelFactors (m : Monomial α) :
    (m.cancelFactors.value = m ∧ m.cancelFactors.steps = []) ∨
      (m.cancelFactors.value ≠ m ∧ m.cancelFactors.steps = [.cancelFactors]) := by
  have hsteps : m.cancelFactors.steps =
      if (cancel m.numer m.denom).1.length < m.numer.length then [.cancelFactors] else [] := by
    simp [cancelFactors, -bind_pure_comp]
  obtain ⟨hn, hd⟩ := sublist_cancel m.numer m.denom
  -- As many factors are taken away below as above.
  have hlength := countP_cancel (fun _ => true) m.numer m.denom fun _ _ _ _ _ => rfl
  simp only [List.countP_true] at hlength
  rw [hsteps, value_cancelFactors]
  split
  · next hlt =>
    refine .inr ⟨fun heq => ?_, rfl⟩
    have hnumer := congrArg (·.numer.length) heq
    exact absurd hnumer (Nat.ne_of_lt hlt)
  · next hle =>
    left
    rw [hn.eq_of_length_le (Nat.not_lt.1 hle), hd.eq_of_length_le (by omega)]
    exact ⟨rfl, rfl⟩

variable [LawfulScalar α]

theorem isSame_congr {f g : Formula α} (h : f.isSame g) (a : Formula α) :
    a.isSame f = a.isSame g := by
  rw [Bool.eq_iff_iff, isSame_iff, isSame_iff]
  exact ⟨fun ha => ha.trans (isSame_iff.1 h), fun ha => ha.trans (isSame_iff.1 h).symm⟩

/-- Factors of one class do not remain on both sides. -/
theorem countP_eq_zero_or {numer denom : List (Formula α)} (h : IsUncancelled numer denom)
    (a : Formula α) : numer.countP a.isSame = 0 ∨ denom.countP a.isSame = 0 := by
  simp only [← Nat.le_zero, ← Nat.not_lt, List.countP_pos_iff, ← not_and_or]
  rintro ⟨⟨f, hf, haf⟩, g, hg, hag⟩
  have hfg : f.isSame g := isSame_iff.2 ((isSame_iff.1 haf).symm.trans (isSame_iff.1 hag))
  exact Bool.false_ne_true ((h f hf g hg).symm.trans hfg)

/-- Cancelling reduces a monomial to lowest terms, in one step or, if there is nothing to take away, in
none. -/
theorem isReductionOf_cancelFactors (m : Monomial α) :
    m.cancelFactors.value.IsReductionOf m ∧
      ((m.cancelFactors.value = m ∧ m.cancelFactors.steps = []) ∨
        (m.cancelFactors.value ≠ m ∧ m.cancelFactors.steps = [.cancelFactors])) := by
  have huncancelled := isUncancelled_cancel m.numer m.denom
  have hcount (f : Formula α) :=
    countP_cancel f.isSame m.numer m.denom fun _ _ _ _ h => isSame_congr h f
  have hzero (f : Formula α) := countP_eq_zero_or huncancelled f
  rw [value_cancelFactors]
  constructor
  · exact {
      coeff_eq := rfl
      numer_sublist := (sublist_cancel m.numer m.denom).1
      denom_sublist := (sublist_cancel m.numer m.denom).2
      isUncancelled := huncancelled
      countP_numer := fun f => by grind
      countP_denom := fun f => by grind }
  · exact m.steps_cancelFactors

/-- One `x` of two is left in the numerator of `(x*x*y)/(x*z)`, and none in the denominator. -/
theorem isReductionOf_cancelFactors_xxy :
    let m : Monomial Float := ⟨1, [var "x", var "x", var "y"], [var "x", var "z"]⟩
    m.cancelFactors.value.numer.countP (var "x").isSame = 1 ∧
      m.cancelFactors.value.denom.countP (var "x").isSame = 0 := by
  intro m
  have h := (isReductionOf_cancelFactors m).1
  have hnumer : m.numer.countP (var "x").isSame = 2 := by decide +kernel
  have hdenom : m.denom.countP (var "x").isSame = 1 := by decide +kernel
  rw [h.countP_numer, h.countP_denom, hnumer, hdenom]
  exact ⟨rfl, rfl⟩

end Monomial
end SymCalc
