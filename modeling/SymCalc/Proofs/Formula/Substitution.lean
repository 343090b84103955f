import SymCalc.Formula.Substitution
import SymCalc.Proofs.Formula.Variables
import SymCalc.Proofs.Scalar.Double

/-!
# Substitution

A substitution removes the variable that is replaced and brings in those of the replacement if it is
used at all (`Formula.mem_vars_substitute`). No other operation on formulas brings in a variable
(`Formula.vars_subset`). To put a formula in place of a variable or to give the variable its value
comes to the same (`Formula.eval_substitute`), and substitutions for different variables commute
where neither brings in the variable of the other (`Formula.substitute_comm`).
-/

namespace SymCalc
namespace Formula

attribute [local simp] substitute

section
variable {α : Type} {a b : Formula α} {x y : String}

@[simp] theorem mem_vars_const {v : α} : x ∉ (const v).vars := by simp [mem_vars, postOrder]

@[simp] theorem mem_vars_var : x ∈ (var y : Formula α).vars ↔ x = y := by simp [mem_vars, postOrder]

@[simp] theorem mem_vars_unary {op : UnaryOp} : x ∈ (unary op a).vars ↔ x ∈ a.vars := by
  simp [mem_vars, postOrder]

@[simp] theorem mem_vars_binary {op : ArithOp} :
    x ∈ (binary op a b).vars ↔ x ∈ a.vars ∨ x ∈ b.vars := by
  simp [mem_vars, postOrder]

/-- The variables after a substitution. -/
theorem mem_vars_substitute (f r : Formula α) (x : String) : y ∈ (f.substitute x r).vars ↔
    y ∈ f.vars ∧ y ≠ x ∨ x ∈ f.vars ∧ y ∈ r.vars := by
  induction f with
  | const v => simp
  | var z =>
    rw [substitute]
    by_cases hz : z = x
    · subst hz
      simp
    · have hne : ¬ x = z := fun h => hz h.symm
      rw [if_neg hz, mem_vars_var, mem_vars_var]
      constructor
      · rintro rfl
        exact .inl ⟨rfl, hz⟩
      · rintro (⟨h, -⟩ | ⟨h, -⟩)
        · exact h
        · exact absurd h hne
  | unary op a ih => simpa using ih
  | binary op a b iha ihb =>
    rw [substitute, mem_vars_binary, mem_vars_binary, mem_vars_binary, iha, ihb, or_or_or_comm,
      or_and_right, or_and_right]

end

/-- Passes, simplification and derivatives have no new variables, and a substitution has those that
it is asked for. -/
theorem vars_subset (f r : Formula Float) (x : String) :
    f.simplifyOnce.vars ⊆ f.vars ∧ f.simplify.vars ⊆ f.vars ∧ (f.derivative x).vars ⊆ f.vars ∧
      ∀ y, y ∈ (f.substitute x r).vars ↔ y ∈ f.vars ∧ y ≠ x ∨ x ∈ f.vars ∧ y ∈ r.vars :=
  ⟨vars_simplifyOnce f, vars_simplify f, vars_derivative f x, fun _ => mem_vars_substitute f r x⟩

/-! ## Laws of substitution -/

section
variable {α : Type} {f r s : Formula α} {x y : String}

/-- A variable that does not occur is replaced nowhere. -/
theorem substitute_of_notMem (h : x ∉ f.vars) : f.substitute x r = f := by
  induction f with
  | const v => rfl
  | var z => exact if_neg fun hz => h (mem_vars_var.2 hz.symm)
  | unary op a ih => rw [substitute, ih fun hx => h (mem_vars_unary.2 hx)]
  | binary op a b iha ihb =>
    rw [substitute, iha fun hx => h (mem_vars_binary.2 (.inl hx)),
      ihb fun hx => h (mem_vars_binary.2 (.inr hx))]

/-- Two substitutions can be made in either order if neither brings in the variable that the other
one replaces. -/
theorem substitute_comm (hxy : y ≠ x) (hy : y ∉ r.vars) (hx : x ∉ s.vars) :
    (f.substitute x r).substitute y s = (f.substitute y s).substitute x r := by
  induction f with
  | const v => rfl
  | var z =>
    by_cases hzx : z = x
    · subst hzx
      rw [substitute, substitute, if_pos rfl, if_neg hxy.symm, substitute_of_notMem hy, substitute,
        if_pos rfl]
    · by_cases hzy : z = y
      · subst hzy
        rw [substitute, substitute, if_neg hzx, if_pos rfl, substitute_of_notMem hx, substitute,
          if_pos rfl]
      · simp only [substitute, if_neg hzx, if_neg hzy]
  | unary op a ih => simp only [substitute, ih]
  | binary op a b iha ihb => simp only [substitute, iha, ihb]

variable [Scalar α] {b : Bindings α} {v : α}

/-- A formula with a replacement has the value that the formula has where the variable has the value
of the replacement, or both evaluations fail at the same variable. -/
theorem eval_substitute (h : r.eval b = .ok v) (f : Formula α) (x : String) :
    (∃ w, (f.substitute x r).eval b = .ok w ∧ f.eval (b.set x v) = .ok w) ∨
      ∃ z, (f.substitute x r).eval b = .error (.undefinedVariable z (b.similar z)) ∧
        f.eval (b.set x v) = .error (.undefinedVariable z ((b.set x v).similar z)) := by
  induction f with
  | const w => exact .inl ⟨w, rfl, rfl⟩
  | var z =>
    rw [substitute, eval, Bindings.get?_set]
    by_cases hz : z = x
    · rw [if_pos hz, if_pos hz]
      exact .inl ⟨v, h, rfl⟩
    · rw [if_neg hz, if_neg hz, eval]
      cases b.get? z with
      | some w => exact .inl ⟨w, rfl, rfl⟩
      | none => exact .inr ⟨z, rfl, rfl⟩
  | unary op a ih =>
    rw [substitute, eval_unary, eval_unary]
    rcases ih with ⟨w, hl, hr⟩ | ⟨z, hl, hr⟩
    · exact .inl ⟨op.apply w, by rw [hl]; rfl, by rw [hr]; rfl⟩
    · exact .inr ⟨z, by rw [hl]; rfl, by rw [hr]; rfl⟩
  | binary op a c iha ihc =>
    rw [substitute, eval, eval]
    rcases iha with ⟨w, hl, hr⟩ | ⟨z, hl, hr⟩
    · rw [hl, hr]
      rcases ihc with ⟨w', hl', hr'⟩ | ⟨z, hl', hr'⟩
      · rw [hl', hr']
        exact .inl ⟨op.apply w w', rfl, rfl⟩
      · rw [hl', hr']
        exact .inr ⟨z, rfl, rfl⟩
    · rw [hl, hr]
      exact .inr ⟨z, rfl, rfl⟩

/-- Substitution by a formula that has a value is a change of the context; without occurrences it
changes nothing; and two substitutions commute if neither brings in the variable that the other one
replaces. -/
theorem substitution_laws (f r s : Formula α) (x y : String) (b : Bindings α) :
    (∀ v, r.eval b = .ok v →
      (∃ w, (f.substitute x r).eval b = .ok w ∧ f.eval (b.set x v) = .ok w) ∨
        ∃ z, (f.substitute x r).eval b = .error (.undefinedVariable z (b.similar z)) ∧
          f.eval (b.set x v) = .error (.undefinedVariable z ((b.set x v).similar z))) ∧
    (x ∉ f.vars → f.substitute x r = f) ∧
    (y ≠ x → y ∉ r.vars → x ∉ s.vars →
      (f.substitute x r).substitute y s = (f.substitute y s).substitute x r) :=
  ⟨fun _ h => eval_substitute h f x, substitute_of_notMem, substitute_comm⟩

end

/-- With `2*z` for `x`, the evaluation of `x/y` fails as with the value of `2*z` for `x`; `sin(z)`
has no `x`; and it can be put in place of `y` before or after. -/
theorem substitution_laws_quotient :
    let f : Formula Float := var "x" / var "y"
    let r : Formula Float := const 2 * var "z"
    let s : Formula Float := unary .sin (var "z")
    let b : Bindings Float := .set .empty "z" 3
    r.eval b = .ok (2 * 3) ∧
      (∃ z, (f.substitute "x" r).eval b = .error (.undefinedVariable z (b.similar z)) ∧
        f.eval (b.set "x" (2 * 3)) =
          .error (.undefinedVariable z ((b.set "x" (2 * 3)).similar z))) ∧
      "x" ∉ s.vars ∧ s.substitute "x" r = s ∧
      "y" ∉ r.vars ∧
        (f.substitute "x" r).substitute "y" s = (f.substitute "y" s).substitute "x" r := by
  intro f r s b
  have hr : r.eval b = .ok (2 * 3) := rfl
  have hs : "x" ∉ s.vars := by simp [s]
  have hy : "y" ∉ r.vars := by simp [r, mul_eq]
  refine ⟨hr, ((substitution_laws f r s "x" "y" b).1 _ hr).resolve_left fun ⟨w, hw, _⟩ => ?_, hs,
    (substitution_laws s r s "x" "y" b).2.1 hs, hy,
    (substitution_laws f r s "x" "y" b).2.2 (by decide) hy hs⟩
  have hmem : "y" ∈ (f.substitute "x" r).vars := by simp [f, div_eq]
  have hbound : b.isBound "y" := exists_eval_iff.1 ⟨w, hw⟩ "y" hmem
  cases hbound

end Formula
end SymCalc
