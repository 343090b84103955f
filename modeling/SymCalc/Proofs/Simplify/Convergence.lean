import SymCalc.Proofs.Scalar.Double
import SymCalc.Proofs.Simplify.SettledPass

/-!
# Passes converge

* `Formula.IsFixpoint`: whether a pass leaves a formula as it is;
* `Formula.passBound`: how many passes a formula of a given weight takes at most.

After so many passes every formula is a fixpoint (`Formula.exists_isFixpoint_iterate`). The number of
passes that are made is limited, so the simplified formula is this fixpoint only if the limit is high
enough (`Formula.simplify_converges`).
-/

namespace SymCalc
namespace Formula

variable {α : Type} [Scalar α] {k w bound n limit : ℕ} {f g : Formula α}

/-! ## Fixpoints -/

/-- Whether a pass leaves the formula as it is. -/
def IsFixpoint (f : Formula α) : Prop := f.simplifyOnce = f

theorem IsFixpoint.iterate (h : f.IsFixpoint) (n : ℕ) : simplifyOnce^[n] f = f :=
  Function.iterate_fixed h n

section
variable [LawfulScalar α]

theorem isFixpoint_undefined : (undefined : Formula α).IsFixpoint := by
  refine ofValue_of_not_isFinite (eq_false_of_ne_true fun hfin => ?_)
  have hnumber := LawfulScalar.isNumber_of_isFinite hfin
  rw [LawfulScalar.isNumber_undefined] at hnumber
  cases hnumber

/-- A formula that has settled up to its own weight is a fixpoint. -/
theorem IsSettled.isFixpoint (h : f.IsSettled f.weight) : f.IsFixpoint :=
  (h.isStable (Nat.le_refl _) 0).1

/-- How many passes a formula of the given weight takes at most. -/
def passBound (w : ℕ) : ℕ := w * (w + 3) / 2

omit [Scalar α] [LawfulScalar α] in
theorem passBound_succ (w : ℕ) : passBound (w + 1) = passBound w + (w + 2) := by
  have h : (w + 1) * (w + 1 + 3) = w * (w + 3) + (w + 2) * 2 := by ring
  rw [passBound, passBound, h, Nat.add_mul_div_right _ _ Nat.zero_lt_two]

omit [Scalar α] [LawfulScalar α] in
theorem passBound_mono : Monotone passBound :=
  monotone_nat_of_le_succ fun w => passBound_succ w ▸ Nat.le_add_right _ _

/-- A formula that settles takes one pass more than its result. -/
theorem Settles.exists_isFixpoint (h : Settles k f f.simplifyOnce)
    (hlighter : ∀ g : Formula α, g.weight < f.weight → ∃ n ≤ bound, (simplifyOnce^[n] g).IsFixpoint)
    (hsettled : f.simplifyOnce.weight = f.weight → f.simplifyOnce.IsSettled k →
      ∃ n ≤ bound, (simplifyOnce^[n] f.simplifyOnce).IsFixpoint) :
    ∃ n ≤ bound + 1, (simplifyOnce^[n] f).IsFixpoint := by
  have hnext : ∃ n ≤ bound, (simplifyOnce^[n] f.simplifyOnce).IsFixpoint := by
    rcases h with hundef | hlt | ⟨heq, h⟩
    · rw [hundef]
      exact ⟨0, Nat.zero_le _, isFixpoint_undefined⟩
    · exact hlighter _ hlt
    · exact hsettled heq h
  obtain ⟨n, hn, hfix⟩ := hnext
  exact ⟨n + 1, Nat.succ_le_succ hn, hfix⟩

/-- A settled formula takes at most as many passes as it is heavier than `k` until it is a fixpoint or
becomes lighter. -/
theorem IsSettled.exists_isFixpoint (h : f.IsSettled k) {j : ℕ} (hj : f.weight ≤ k + j)
    (hlighter : ∀ g : Formula α, g.weight < f.weight → ∃ n ≤ bound, (simplifyOnce^[n] g).IsFixpoint) :
    ∃ n ≤ bound + j, (simplifyOnce^[n] f).IsFixpoint := by
  induction j generalizing k f with
  | zero => exact ⟨0, Nat.zero_le _, (h.isStable hj k).1⟩
  | succ j ih =>
    refine h.settles_simplifyOnce.exists_isFixpoint ?_ fun heq hsettled => ?_
    · intro g hg
      obtain ⟨n, hn, hfix⟩ := hlighter g hg
      exact ⟨n, hn.trans (Nat.le_add_right ..), hfix⟩
    · exact ih hsettled (by omega) (heq ▸ hlighter)

/-- Every formula becomes a fixpoint. -/
theorem exists_isFixpoint_iterate (f : Formula α) :
    ∃ n ≤ passBound f.weight, (simplifyOnce^[n] f).IsFixpoint := by
  induction hw : f.weight using Nat.strong_induction_on generalizing f with
  | h w ih =>
    obtain ⟨w, rfl⟩ := Nat.exists_eq_succ_of_ne_zero (hw ▸ f.weight_pos.ne')
    have hlighter (g : Formula α) (hg : g.weight < f.weight) :
        ∃ n ≤ passBound w, (simplifyOnce^[n] g).IsFixpoint := by
      obtain ⟨n, hn, hfix⟩ := ih g.weight (hw ▸ hg) g rfl
      exact ⟨n, hn.trans (passBound_mono (by omega)), hfix⟩
    rw [passBound_succ]
    refine (settles_simplifyOnce f).exists_isFixpoint (fun g hg => ?_) fun heq hsettled => ?_
    · obtain ⟨n, hn, hfix⟩ := hlighter g hg
      exact ⟨n, hn.trans (Nat.le_add_right ..), hfix⟩
    · exact hsettled.exists_isFixpoint (by omega) (heq ▸ hlighter)

/-! ## Equal formulas -/

/-- A formula that is equal to a proper one has the same normal form. -/
theorem simplifyOnce_congr (hg : g.IsProper) (h : f.compare g = .eq) :
    f.simplifyOnce = g.simplifyOnce := by
  induction f generalizing g with
  | const v =>
    cases g with
    | const w =>
      have hw : Scalar.isNumber w := LawfulScalar.isNumber_of_isFinite hg.isFinite
      have hv : Scalar.isNumber v := by
        refine Bool.of_not_eq_false fun hv => ?_
        change Scalar.compare v w = .eq at h
        rw [Scalar.compare, hv, hw] at h
        cases h
      have hbeq : v == w := by
        change Scalar.compare v w = .eq at h
        rw [Scalar.compare_of_isNumber hv hw] at h
        split at h
        · cases h
        · split at h
          · assumption
          · cases h
      have hagree := LawfulScalar.div_congr hbeq Scalar.one_beq_one
      rw [LawfulScalar.div_one, LawfulScalar.div_one] at hagree
      exact ofValue_eq_of_agree hagree
    | _ => cases h
  | var x =>
    cases g with
    | var y =>
      have hname : x = y := Std.LawfulEqCmp.eq_of_compare h
      rw [hname]
    | _ => cases h
  | unary op a ih =>
    cases g with
    | unary op' a' =>
      obtain ⟨hop, ha⟩ := Ordering.then_eq_eq.1 h
      rw [UnaryOp.rank_injective (Std.LawfulEqCmp.eq_of_compare hop), simplifyOnce_unary,
        simplifyOnce_unary, ih (g := a') hg ha]
    | _ => cases h
  | binary op a b iha ihb =>
    cases g with
    | binary op' a' b' =>
      obtain ⟨hop, hab⟩ := Ordering.then_eq_eq.1 h
      obtain ⟨ha, hb⟩ := Ordering.then_eq_eq.1 hab
      rw [ArithOp.rank_injective (Std.LawfulEqCmp.eq_of_compare hop), simplifyOnce_binary,
        simplifyOnce_binary, iha hg.1 ha, ihb hg.2 hb]
    | _ => cases h

/-- A formula that a pass leaves equal is a fixpoint after the pass. -/
theorem isFixpoint_of_beq (h : f.simplifyOnce == f) : f.simplifyOnce.IsFixpoint := by
  have hforall : f.Forall (fun _ => True) fun _ => True := forall_iff_postOrder.2 fun _ _ => trivial
  rcases Forall.simplifyOnce isClosed_isProper hforall with hundef | hproper
  · rw [hundef]
    exact isFixpoint_undefined
  · have heq : f.simplifyOnce.compare f = .eq := by simpa [beq_eq] using h
    exact (simplifyOnce_congr hproper (Std.OrientedCmp.eq_comm.1 heq)).symm

/-! ## Passes up to a limit -/

theorem fst_simplifyFor (f : Formula α) (limit : ℕ) :
    (f.simplifyFor limit).value.1 = simplifyOnce^[limit] f := by
  induction limit generalizing f with
  | zero => rfl
  | succ limit ih =>
    rw [value_simplifyFor, Function.iterate_succ_apply]
    split
    · next h => exact ((isFixpoint_of_beq h).iterate limit).symm
    · exact ih f.simplifyOnce

/-- Passes that stop before the limit stop at a fixpoint. -/
theorem isFixpoint_of_simplifyFor (h : (f.simplifyFor limit).value.2) :
    (simplifyOnce^[limit] f).IsFixpoint := by
  induction limit generalizing f with
  | zero => cases h
  | succ limit ih =>
    rw [value_simplifyFor] at h
    rw [Function.iterate_succ_apply]
    split at h
    · next hbeq =>
      rw [(isFixpoint_of_beq hbeq).iterate limit]
      exact isFixpoint_of_beq hbeq
    · exact ih h

/-- Passes stop before the limit if they reach a fixpoint before it. -/
theorem simplifyFor_of_isFixpoint (h : (simplifyOnce^[n] f).IsFixpoint) (hn : n < limit) :
    (f.simplifyFor limit).value.2 := by
  induction n generalizing f limit with
  | zero =>
    obtain ⟨limit, rfl⟩ := Nat.exists_eq_succ_of_ne_zero hn.ne'
    have hbeq : f.simplifyOnce == f := by
      rw [show f.simplifyOnce = f from h]
      exact beq_self (fun _ => Std.ReflCmp.compare_self) f
    rw [value_simplifyFor, if_pos hbeq]
  | succ n ih =>
    obtain ⟨limit, rfl⟩ := Nat.exists_eq_succ_of_ne_zero (Nat.ne_zero_of_lt hn)
    rw [value_simplifyFor]
    split
    · rfl
    · exact ih h (Nat.lt_of_succ_lt_succ hn)

theorem simplifyWithin?_eq (f : Formula α) (limit : ℕ) : f.simplifyWithin? limit =
    if (f.simplifyFor limit).value.2 then some (simplifyOnce^[limit] f) else none := by
  rw [← fst_simplifyFor]
  unfold simplifyWithin?
  split
  · next h => rw [h, if_pos rfl]
  · next h => rw [h, if_neg Bool.false_ne_true]

theorem simplifyWithin?_eq_some (h : f.simplifyWithin? limit = some g) :
    g.IsFixpoint ∧ simplifyOnce^[limit] f = g := by
  rw [simplifyWithin?_eq] at h
  obtain ⟨hstop, hg⟩ := Option.ite_none_right_eq_some.1 h
  cases hg
  exact ⟨isFixpoint_of_simplifyFor hstop, rfl⟩

theorem simplify_eq_iterate (f : Formula α) : f.simplify = simplifyOnce^[maxPasses] f :=
  fst_simplifyFor f maxPasses

/-- A fixpoint that is reached before the limit of passes is the simplified formula. -/
theorem IsFixpoint.simplify_eq (h : g.IsFixpoint) (hn : n ≤ maxPasses)
    (hg : simplifyOnce^[n] f = g) : f.simplify = g := by
  rw [simplify_eq_iterate, ← Nat.sub_add_cancel hn, Function.iterate_add_apply, hg, h.iterate]

/-- The simplified formula depends on what the first pass makes. -/
theorem simplify_eq_of_simplifyOnce_eq (h : f.simplifyOnce = g.simplifyOnce) :
    f.simplify = g.simplify := by
  obtain ⟨n, hn⟩ : ∃ n, maxPasses = n + 1 := ⟨255, rfl⟩
  rw [simplify_eq_iterate, simplify_eq_iterate, hn, Function.iterate_succ_apply,
    Function.iterate_succ_apply, h]

omit [LawfulScalar α] in
/-- Passes lead to only one fixpoint. -/
theorem isFixpoint_iterate_unique {m : ℕ} (hm : (simplifyOnce^[m] f).IsFixpoint)
    (hn : (simplifyOnce^[n] f).IsFixpoint) : simplifyOnce^[m] f = simplifyOnce^[n] f := by
  rcases Nat.le_total m n with hle | hle
  · rw [← Nat.sub_add_cancel hle, Function.iterate_add_apply, hm.iterate]
  · rw [← Nat.sub_add_cancel hle, Function.iterate_add_apply, hn.iterate]

end

/-- Passes turn every formula into one fixpoint, and the number of passes that are needed is bounded by
the weight of the formula. The simplified formula is the fixpoint if a pass before the limit changes
nothing, and otherwise only if it is a fixpoint itself. -/
theorem simplify_converges (f : Formula Float) : ∃ g : Formula Float, g.IsFixpoint ∧
    (∀ limit, passBound f.weight < limit → f.simplifyWithin? limit = some g) ∧
    (∀ limit h, f.simplifyWithin? limit = some h → h = g) ∧
    ((f.simplifyWithin? maxPasses).isSome → f.simplify = g) ∧
    (f.simplify.IsFixpoint ↔ f.simplify = g) := by
  obtain ⟨n, hn, hfix⟩ := exists_isFixpoint_iterate f
  have hsimplify := simplify_eq_iterate f
  refine ⟨simplifyOnce^[n] f, hfix, ?_, ?_, ?_, ?_⟩
  · intro limit hlimit
    have hstop := simplifyFor_of_isFixpoint hfix (hn.trans_lt hlimit)
    rw [simplifyWithin?_eq, if_pos hstop,
      isFixpoint_iterate_unique (isFixpoint_of_simplifyFor hstop) hfix]
  · intro limit h hwithin
    obtain ⟨hfixh, rfl⟩ := simplifyWithin?_eq_some hwithin
    exact isFixpoint_iterate_unique hfixh hfix
  · intro hsome
    obtain ⟨h, hwithin⟩ := Option.isSome_iff_exists.1 hsome
    obtain ⟨hfixh, rfl⟩ := simplifyWithin?_eq_some hwithin
    rw [hsimplify]
    exact isFixpoint_iterate_unique hfixh hfix
  · constructor
    · intro h
      rw [hsimplify] at h ⊢
      exact isFixpoint_iterate_unique h hfix
    · intro h
      rw [h]
      exact hfix

end Formula
end SymCalc
