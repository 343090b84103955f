import SymCalc.Formula.Derivative
import SymCalc.Formula.Value
import SymCalc.Proofs.Simplify.SumForm

/-!
# The variables of a formula

Derivatives and simplified formulas have no new variables (`Formula.vars_derivative`,
`Formula.vars_simplify`). A formula has a value exactly if all its variables have one
(`Formula.exists_eval_iff`), and the outcome depends on nothing else but the suggestions for those
that have none (`Formula.eval_congr`).
-/

namespace SymCalc

namespace Formula

variable {α : Type} {P : α → Prop} {Q : String → Prop} {f : Formula α} {x : String}

/-! ## Membership -/

theorem name?_eq_some : f.name? = some x ↔ f = var x := by cases f <;> simp [name?]

theorem mem_vars : x ∈ f.vars ↔ var x ∈ f.postOrder := by
  simp [vars, List.mem_eraseDups, name?_eq_some]

/-- A property of all variables, stated for their names. -/
theorem forall_iff_vars : f.Forall (fun _ => True) Q ↔ ∀ x ∈ f.vars, Q x := by
  simp only [mem_vars]
  induction f with
  | const v => simp [Forall, postOrder]
  | var y => simp [Forall, postOrder]
  | unary op a ih => simp [ih, postOrder]
  | binary op a b iha ihb => simp [Forall, iha, ihb, postOrder, or_imp, forall_and]

theorem Forall.of_mem_vars (h : f.Forall P Q) (hx : x ∈ f.vars) : Q x :=
  forall_iff_vars.1 (h.imp (fun _ _ => trivial) fun _ h => h) x hx

/-! ## No new variables -/

section
variable [Scalar α]

theorem Forall.derivative (h : f.Forall (fun _ => True) Q) (x : String) :
    (f.derivative x).Forall (fun _ => True) Q := by
  induction f with
  | const v => trivial
  | var y =>
    rw [Formula.derivative]
    split <;> trivial
  | unary op a ih => cases op <;> simp_all [Formula.derivative, Forall, neg_eq, mul_eq, div_eq]
  | binary op a b iha ihb =>
    cases op <;> simp_all [Formula.derivative, Forall, add_eq, sub_eq, mul_eq, div_eq]

theorem vars_derivative (f : Formula α) (x : String) : (f.derivative x).vars ⊆ f.vars :=
  forall_iff_vars.1 ((forall_iff_vars.2 fun _ h => h).derivative x)

variable [LawfulScalar α]

theorem vars_simplifyOnce (f : Formula α) : f.simplifyOnce.vars ⊆ f.vars := by
  intro x hx
  have hf : f.Forall (fun _ => True) (· ∈ f.vars) := forall_iff_vars.2 fun _ h => h
  rcases hf.simplifyOnce isClosed_isProper with h | h
  · simp [h, mem_vars, undefined, postOrder] at hx
  · exact h.of_mem_vars hx

theorem vars_simplifyFor (f : Formula α) (limit : Nat) :
    (f.simplifyFor limit).value.1.vars ⊆ f.vars := by
  induction limit generalizing f with
  | zero => exact fun _ h => h
  | succ limit ih =>
    rw [value_simplifyFor]
    split
    · exact vars_simplifyOnce f
    · exact List.Subset.trans (ih _) (vars_simplifyOnce f)

/-- Simplification brings no new variables. -/
theorem vars_simplify (f : Formula α) : f.simplify.vars ⊆ f.vars := vars_simplifyFor f maxPasses

end

/-! ## Evaluation -/

variable [Scalar α] {a c : Formula α} {b b' : Bindings α} {p : Problem}

theorem eval_unary (op : UnaryOp) : (unary op a).eval b = (a.eval b).map op.apply := by
  rw [eval]
  cases a.eval b <;> rfl

theorem exists_eval_binary {op : ArithOp} :
    (∃ v, (binary op a c).eval b = .ok v) ↔ (∃ v, a.eval b = .ok v) ∧ ∃ w, c.eval b = .ok w := by
  rw [eval]
  cases a.eval b <;> cases c.eval b <;> simp [bind, Except.bind, pure, Except.pure]

theorem eval_binary_eq_error {op : ArithOp} (h : (binary op a c).eval b = .error p) :
    a.eval b = .error p ∨ c.eval b = .error p := by
  rw [eval] at h
  cases ha : a.eval b <;> cases hc : c.eval b <;>
    simp_all [bind, Except.bind, pure, Except.pure]

/-- Evaluation comes to a value exactly if all variables have one. -/
theorem exists_eval_iff : (∃ v, f.eval b = .ok v) ↔ ∀ x ∈ f.vars, b.isBound x := by
  rw [← forall_iff_vars]
  induction f with
  | const v => simp [eval, Forall]
  | var x =>
    rw [eval]
    cases h : b.get? x <;> simp [Forall, Bindings.isBound, h]
  | unary op a ih =>
    rw [forall_unary, ← ih, eval_unary]
    cases a.eval b <;> simp [Except.map]
  | binary op a c iha ihc => rw [exists_eval_binary, iha, ihc, Forall]

/-- Evaluation fails at the first variable without value, in the order of evaluation. -/
theorem find?_of_eval (h : f.eval b = .error p) :
    ∃ x, (f.postOrder.filterMap name?).find? (fun x => !b.isBound x) = some x ∧
      p = .undefinedVariable x (b.similar x) := by
  induction f with
  | const v => cases h
  | var x =>
    rw [eval] at h
    cases hx : b.get? x with
    | some v => simp [hx] at h
    | none =>
      refine ⟨x, by simp [postOrder, name?, Bindings.isBound, hx], ?_⟩
      simpa [hx, eq_comm] using h
  | unary op a ih =>
    have ha : a.eval b = .error p := by
      rw [eval_unary] at h
      cases ha : a.eval b <;> simp_all [Except.map]
    obtain ⟨x, hx, hp⟩ := ih ha
    exact ⟨x, by simp [postOrder, List.filterMap_append, List.find?_append, hx], hp⟩
  | binary op a c iha ihc =>
    have hnames : (binary op a c).postOrder.filterMap name? =
        a.postOrder.filterMap name? ++ c.postOrder.filterMap name? := by
      simp [postOrder, List.filterMap_append, name?]
    rw [hnames, List.find?_append]
    cases ha : a.eval b with
    | error p' =>
      rw [eval, ha] at h
      cases h
      obtain ⟨x, hx, hp⟩ := iha ha
      exact ⟨x, by rw [hx, Option.some_or], hp⟩
    | ok v =>
      have hnone : (a.postOrder.filterMap name?).find? (fun x => !b.isBound x) = none := by
        have hbound := exists_eval_iff.1 ⟨v, ha⟩
        simp only [List.find?_eq_none, List.mem_filterMap, name?_eq_some]
        rintro x ⟨_, hx, rfl⟩
        simp [hbound x (mem_vars.2 hx)]
      obtain ⟨x, hx, hp⟩ := ihc ((eval_binary_eq_error h).resolve_left (by simp [ha]))
      exact ⟨x, by rw [hnone, Option.none_or, hx], hp⟩

omit [Scalar α] in
theorem mem_vars_of_find? {q : String → Bool}
    (h : (f.postOrder.filterMap name?).find? q = some x) : x ∈ f.vars := by
  obtain ⟨_, hmem, hname⟩ := List.mem_filterMap.1 (List.mem_of_find?_eq_some h)
  rw [name?_eq_some.1 hname] at hmem
  exact mem_vars.2 hmem

/-- Evaluation fails only at a variable that has no value. -/
theorem eval_error (h : f.eval b = .error p) :
    ∃ x ∈ f.vars, b.isBound x = false ∧ p = .undefinedVariable x (b.similar x) := by
  obtain ⟨x, hx, hp⟩ := find?_of_eval h
  exact ⟨x, mem_vars_of_find? hx, by simpa using List.find?_some hx, hp⟩

theorem exists_eval_error_iff : (∃ p, f.eval b = .error p) ↔ ∃ x ∈ f.vars, ¬ b.isBound x := by
  constructor
  · rintro ⟨p, h⟩
    obtain ⟨x, hx, hb, -⟩ := eval_error h
    exact ⟨x, hx, ne_true_of_eq_false hb⟩
  · rintro ⟨x, hx, hb⟩
    cases he : f.eval b with
    | ok v => exact absurd (exists_eval_iff.1 ⟨v, he⟩ x hx) hb
    | error p => exact ⟨p, rfl⟩

/-- The problem of an evaluation that fails is about the first variable without value. -/
theorem eval_eq_error_iff : f.eval b = .error p ↔
    ∃ x, (f.postOrder.filterMap name?).find? (fun x => !b.isBound x) = some x ∧
      p = .undefinedVariable x (b.similar x) := by
  refine ⟨find?_of_eval, ?_⟩
  rintro ⟨x, hx, rfl⟩
  cases he : f.eval b with
  | ok v =>
    have hbound := exists_eval_iff.1 ⟨v, he⟩ x (mem_vars_of_find? hx)
    have hunbound := List.find?_some hx
    rw [hbound] at hunbound
    cases hunbound
  | error p =>
    obtain ⟨y, hy, rfl⟩ := find?_of_eval he
    cases hx.symm.trans hy
    rfl

/-- Evaluation depends on the variables of the formula only: on their values and, as far as `view`
sees them, on the suggestions for those that have none. -/
theorem eval_congr (view : Problem → Problem) (h : ∀ x ∈ f.vars, b.get? x = b'.get? x ∧
      view (.undefinedVariable x (b.similar x)) = view (.undefinedVariable x (b'.similar x))) :
    (f.eval b).mapError view = (f.eval b').mapError view := by
  rw [← forall_iff_vars] at h
  induction f with
  | const v => rfl
  | var x =>
    obtain ⟨hget, hview⟩ : b.get? x = b'.get? x ∧ _ := h
    rw [eval, eval, hget]
    cases b'.get? x with
    | some v => rfl
    | none => exact congrArg Except.error hview
  | unary op a ih =>
    have ih := ih h
    rw [eval_unary, eval_unary]
    cases ha : a.eval b <;> cases ha' : a.eval b' <;> simp_all [Except.mapError, Except.map]
  | binary op a c iha ihc =>
    have iha := iha h.1
    have ihc := ihc h.2
    rw [eval, eval]
    cases ha : a.eval b <;> cases ha' : a.eval b' <;> cases hc : c.eval b <;>
      cases hc' : c.eval b' <;> simp_all [Except.mapError, bind, Except.bind]

end Formula
end SymCalc
