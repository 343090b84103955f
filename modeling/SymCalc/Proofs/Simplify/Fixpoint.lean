import SymCalc.Proofs.Simplify.Convergence

/-!
# Where passes stop

* `Formula.StopsAfter`: whether the pass after the first `k` ones leaves a formula equal.

Passes within a limit give a formula exactly if one of them leaves its formula equal. What they give is
the formula at the first such pass, whatever the limit is, and it agrees with what the functions without
a limit of their own give (`Formula.simplifyWithin?_agrees`).
-/

namespace SymCalc
namespace Formula

variable {α : Type} [Scalar α] {k limit limit' : ℕ} {f g : Formula α}

/-- Whether the pass that follows the first `k` passes leaves the formula equal. -/
def StopsAfter (f : Formula α) (k : ℕ) : Prop := simplifyOnce^[k + 1] f == simplifyOnce^[k] f

theorem stopsAfter_zero : f.StopsAfter 0 ↔ f.simplifyOnce == f := Iff.rfl

theorem stopsAfter_succ : f.StopsAfter (k + 1) ↔ f.simplifyOnce.StopsAfter k := Iff.rfl

/-- Passes within a limit stop exactly if one of them leaves its formula equal. -/
theorem stops_simplifyFor : (f.simplifyFor limit).value.2 ↔ ∃ k < limit, f.StopsAfter k := by
  induction limit generalizing f with
  | zero =>
    refine iff_of_false Bool.false_ne_true ?_
    rintro ⟨k, hk, -⟩
    exact Nat.not_lt_zero k hk
  | succ limit ih =>
    rw [value_simplifyFor]
    split
    · next h => exact iff_of_true rfl ⟨0, Nat.succ_pos limit, stopsAfter_zero.2 h⟩
    · next h =>
      rw [ih]
      constructor
      · rintro ⟨k, hk, hstop⟩
        exact ⟨k + 1, Nat.succ_lt_succ hk, stopsAfter_succ.2 hstop⟩
      · rintro ⟨k, hk, hstop⟩
        cases k with
        | zero => exact absurd (stopsAfter_zero.1 hstop) h
        | succ k => exact ⟨k, Nat.lt_of_succ_lt_succ hk, stopsAfter_succ.1 hstop⟩

variable [LawfulScalar α]

theorem StopsAfter.isFixpoint (h : f.StopsAfter k) : (simplifyOnce^[k + 1] f).IsFixpoint := by
  rw [Function.iterate_succ_apply']
  refine isFixpoint_of_beq ?_
  rw [← Function.iterate_succ_apply' simplifyOnce]
  exact h

/-- Nothing changes after the pass that leaves the formula equal. -/
theorem StopsAfter.iterate_eq (h : f.StopsAfter k) (hk : k < limit) :
    simplifyOnce^[limit] f = simplifyOnce^[k + 1] f := by
  rw [← Nat.sub_add_cancel (Nat.succ_le_of_lt hk), Function.iterate_add_apply, h.isFixpoint.iterate]

theorem isSome_simplifyWithin? :
    (f.simplifyWithin? limit).isSome ↔ ∃ k < limit, f.StopsAfter k := by
  rw [simplifyWithin?_eq, ← stops_simplifyFor]
  split
  · next h => exact iff_of_true rfl h
  · next h => exact iff_of_false Bool.false_ne_true h

theorem StopsAfter.simplifyWithin?_eq (h : f.StopsAfter k) (hk : k < limit) :
    f.simplifyWithin? limit = some (simplifyOnce^[k + 1] f) := by
  rw [Formula.simplifyWithin?_eq, if_pos (stops_simplifyFor.2 ⟨k, hk, h⟩), h.iterate_eq hk]

/-- Passes within a limit give the formula at the first pass that leaves it equal. -/
theorem exists_isLeast_of_simplifyWithin? (h : f.simplifyWithin? limit = some g) :
    ∃ k < limit, IsLeast {k | f.StopsAfter k} k ∧ g = simplifyOnce^[k + 1] f := by
  obtain ⟨m, hm, hstop⟩ := isSome_simplifyWithin?.1 (Option.isSome_of_eq_some h)
  have hne : {k | f.StopsAfter k}.Nonempty := ⟨m, hstop⟩
  have hle : sInf {k | f.StopsAfter k} ≤ m := Nat.sInf_le hstop
  have hleast : f.StopsAfter (sInf {k | f.StopsAfter k}) := Nat.sInf_mem hne
  refine ⟨_, hle.trans_lt hm, ⟨hleast, fun k hk => Nat.sInf_le hk⟩, ?_⟩
  rw [hleast.simplifyWithin?_eq (hle.trans_lt hm)] at h
  exact (Option.some.inj h).symm

/-- What passes within a limit give does not change with a larger limit. -/
theorem simplifyWithin?_mono (h : f.simplifyWithin? limit = some g) (hle : limit ≤ limit') :
    f.simplifyWithin? limit' = some g := by
  obtain ⟨k, hk, hstop⟩ := isSome_simplifyWithin?.1 (Option.isSome_of_eq_some h)
  rw [← h, hstop.simplifyWithin?_eq hk, hstop.simplifyWithin?_eq (hk.trans_le hle)]

theorem simplify_eq_of_simplifyWithin? (h : f.simplifyWithin? limit = some g)
    (hle : limit ≤ maxPasses) : f.simplify = g := by
  obtain ⟨hfix, heq⟩ := simplifyWithin?_eq_some h
  exact hfix.simplify_eq hle heq

/-- If the passes stop, the formulas on the way are all equivalent. -/
theorem isEquivalent_iterate (h : (f.simplifyWithin? maxPasses).isSome) (k : ℕ) :
    (simplifyOnce^[k] f).isEquivalent f := by
  obtain ⟨g, hg⟩ := Option.isSome_iff_exists.1 h
  obtain ⟨hfix, heq⟩ := simplifyWithin?_eq_some hg
  have hiterate : (simplifyOnce^[k] f).simplify = g := by
    rw [simplify_eq_iterate, ← Function.iterate_add_apply, Nat.add_comm,
      Function.iterate_add_apply, heq, hfix.iterate]
  rw [isEquivalent, hiterate, simplify_eq_of_simplifyWithin? hg (Nat.le_refl _)]
  exact beq_self (fun _ => Std.ReflCmp.compare_self) g

omit [LawfulScalar α] in
/-- Passes within a limit give a formula exactly if a pass before the limit leaves its formula equal.
The result is the formula at the first such pass. It is a fixpoint, does not depend on the limit, and is
the simplified formula if no more passes are allowed than for that one. If the passes stop, they go
through equivalent formulas only. -/
theorem simplifyWithin?_agrees (f : Formula Float) (limit : ℕ) :
    ((f.simplifyWithin? limit).isSome ↔ ∃ k < limit, f.StopsAfter k) ∧
    (∀ g, f.simplifyWithin? limit = some g →
      (∃ k < limit, IsLeast {k | f.StopsAfter k} k ∧
        g = simplifyOnce^[k + 1] f ∧ g == simplifyOnce^[k] f) ∧
      g.simplifyOnce == g ∧
      (∀ limit' ≥ limit, f.simplifyWithin? limit' = some g) ∧
      (limit ≤ maxPasses → f.simplify = g ∧ f.simplifyTraced.value = g)) ∧
    ((f.simplifyWithin? maxPasses).isSome → ∀ k, (simplifyOnce^[k] f).isEquivalent f) := by
  refine ⟨isSome_simplifyWithin?, fun g hg => ⟨?_, ?_, ?_, ?_⟩, isEquivalent_iterate⟩
  · obtain ⟨k, hk, hleast, rfl⟩ := exists_isLeast_of_simplifyWithin? hg
    exact ⟨k, hk, hleast, rfl, hleast.1⟩
  · rw [show g.simplifyOnce = g from (simplifyWithin?_eq_some hg).1]
    exact beq_self (fun _ => Std.ReflCmp.compare_self) g
  · exact fun limit' hle => simplifyWithin?_mono hg hle
  · intro hle
    have hsimplify := simplify_eq_of_simplifyWithin? hg hle
    exact ⟨hsimplify, hsimplify⟩

end Formula
end SymCalc
