import SymCalc.Session
import SymCalc.Proofs.Formula.RoundTrip
import SymCalc.Proofs.Formula.Variables
import SymCalc.Proofs.Syntax.Failure

/-!
# What commands do to a session

* `Session.Reachable`: the sessions that lines lead to.

A simplification and a derivative fail only where their formula cannot be read, and change nothing
(`Session.execute_simplify`, `Session.execute_differentiate`). An assignment succeeds exactly if all
variables of the simplified formula have values (`Session.exists_assign?_iff`). All names with a value
are read as variables (`Session.Reachable.ofText_eq_var`). Together this is
`Session.execute_of_reachable`.
-/

namespace SymCalc

theorem Bindings.isBound_set {β : Type} (b : Bindings β) (name x : String) (v : β) :
    (b.set name v).isBound x ↔ x = name ∨ b.isBound x := by
  rw [isBound, get?_set, isBound]
  split <;> simp_all

/-- Only variables are assigned to. -/
theorem Command.isVariableName_of_ofLine {line name formula : String}
    (h : ofLine line = .assign name formula) : isVariableName name.toList := by
  unfold ofLine ofTrimmed at h
  split at h
  · cases h
  split at h
  · cases h
  · cases h
  split at h
  · split at h
    · next hname =>
      obtain ⟨rfl, -⟩ := assign.inj h
      rw [String.toList_ofList]
      exact hname
    · cases h
  · cases h

namespace Session

variable {s : Session} {f g : Formula Float} {formula name x : String} {r : Report} {v : Float}

/-! ## Values -/

theorem evaluate_eq_ok_iff : s.evaluate f formula = .ok v ↔ f.eval s.bindings = .ok v := by
  unfold evaluate
  split <;> simp_all

theorem exists_evaluate_iff :
    (∃ v, s.evaluate f formula = .ok v) ↔ ∀ x ∈ f.vars, s.bindings.isBound x := by
  simp only [evaluate_eq_ok_iff, Formula.exists_eval_iff]

theorem problem_of_evaluate (h : s.evaluate f formula = .error r) :
    f.eval s.bindings = .error r.problem := by
  unfold evaluate at h
  split at h
  · cases h
  · next hp =>
    cases h
    exact hp

/-! ## Formulas and derivatives -/

/-- A formula is always shown, because it is evaluated only if that succeeds. -/
theorem exists_show?_eq (s : Session) (f : Formula Float) (formula : String) :
    ∃ lines, s.show? f formula = .ok lines := by
  unfold show?
  simp only
  split
  · next h =>
    rw [Bool.and_eq_true, List.all_eq_true] at h
    obtain ⟨v, hv⟩ := exists_evaluate_iff.2 h.2
    rw [hv]
    exact ⟨_, rfl⟩
  · exact ⟨_, rfl⟩

/-- Showing what is made of a formula fails exactly if the formula cannot be read. -/
theorem show?_ofText_eq_error (made : Formula Float → Formula Float) :
    ((Formula.ofText formula).bind fun f => s.show? (made f) formula) = .error r ↔
      (Formula.ofText formula : Except Report (Formula Float)) = .error r := by
  cases (Formula.ofText formula : Except Report (Formula Float)) with
  | error r' => simp [Except.bind]
  | ok f =>
    obtain ⟨lines, h⟩ := exists_show?_eq s (made f) formula
    simp [Except.bind, h]

theorem execute_simplify : s.execute (.simplify formula) =
    ((Formula.ofText formula).bind fun f => s.show? f formula, s) := rfl

theorem execute_differentiate : s.execute (.differentiate formula) =
    ((Formula.ofText formula).bind fun f => s.show? (f.derivative "x") formula, s) := rfl

/-! ## Assignments -/

theorem assign?_of_error (h : (Formula.ofText formula : Except Report (Formula Float)) = .error r) :
    s.assign? name formula = .error r := by
  rw [assign?, h]
  rfl

theorem assign?_of_ok (h : Formula.ofText formula = .ok f) :
    s.assign? name formula = (s.evaluate f.simplify formula).map fun v =>
      (s.stepLines f.simplifyTraced.steps ++ [name ++ " = " ++ (Formula.ofValue v).toText], v) := by
  have hvalue : f.simplifyTraced.value = f.simplify := rfl
  rw [assign?, h]
  simp only [bind, Except.bind, hvalue]
  cases s.evaluate f.simplify formula <;> rfl

/-- An assignment succeeds exactly if its formula can be read and all variables of the simplified
formula have values. -/
theorem exists_assign?_iff : (∃ p, s.assign? name formula = .ok p) ↔
    ∃ f : Formula Float, Formula.ofText formula = .ok f ∧
      ∀ x ∈ f.simplify.vars, s.bindings.isBound x := by
  cases hf : (Formula.ofText formula : Except Report (Formula Float)) with
  | error r => simp [assign?_of_error hf]
  | ok f =>
    rw [assign?_of_ok hf]
    simp only [Except.ok.injEq, exists_eq_left']
    have hbound : (∃ v, s.evaluate f.simplify formula = .ok v) ↔
        ∀ x ∈ f.simplify.vars, s.bindings.isBound x := exists_evaluate_iff
    rw [← hbound]
    cases s.evaluate f.simplify formula <;> simp [Except.map]

theorem execute_assign_of_ok {lines : List String}
    (h : s.assign? name formula = .ok (lines, v)) : s.execute (.assign name formula) =
      (.ok lines, { s with bindings := s.bindings.set name v }) := by
  rw [execute, h]

theorem execute_assign_of_error (h : s.assign? name formula = .error r) :
    s.execute (.assign name formula) = (.error r, s) := by
  rw [execute, h]

theorem eval_of_assign? {lines : List String} (hf : Formula.ofText formula = .ok f)
    (h : s.assign? name formula = .ok (lines, v)) : f.simplify.eval s.bindings = .ok v := by
  rw [assign?_of_ok hf] at h
  cases he : s.evaluate f.simplify formula with
  | error r => simp [he, Except.map] at h
  | ok w =>
    rw [he] at h
    cases h
    exact evaluate_eq_ok_iff.1 he

/-- An assignment fails because of a variable without value exactly if its formula can be read and
there is such a variable in the simplified formula. -/
theorem exists_execute_assign_undefined_iff :
    (∃ x suggestions spans, (s.execute (.assign name formula)).1 =
        .error ⟨.undefinedVariable x suggestions, spans⟩) ↔
      ∃ f : Formula Float, Formula.ofText formula = .ok f ∧
        ∃ x ∈ f.simplify.vars, ¬ s.bindings.isBound x := by
  cases hf : (Formula.ofText formula : Except Report (Formula Float)) with
  | error r =>
    have hparse : Expr.ofText formula = .error r := by
      unfold Formula.ofText at hf
      cases h : Expr.ofText formula <;> simp_all [Except.map]
    rw [execute_assign_of_error (assign?_of_error hf)]
    simp only [Except.error.injEq, reduceCtorEq, false_and, exists_false, iff_false, not_exists]
    rintro x suggestions spans rfl
    exact Expr.problem_ne_undefinedVariable hparse x suggestions rfl
  | ok f =>
    have ha : s.assign? name formula = _ := assign?_of_ok hf
    have hbound : (∃ v, s.evaluate f.simplify formula = .ok v) ↔
        ∀ x ∈ f.simplify.vars, s.bindings.isBound x := exists_evaluate_iff
    simp only [Except.ok.injEq, exists_eq_left']
    cases he : s.evaluate f.simplify formula with
    | ok v =>
      have hall := hbound.1 ⟨v, he⟩
      rw [he] at ha
      rw [execute_assign_of_ok ha]
      simpa using hall
    | error r =>
      obtain ⟨x, hx, hb, hp⟩ := Formula.eval_error (problem_of_evaluate he)
      rw [he] at ha
      rw [execute_assign_of_error ha]
      exact iff_of_true ⟨x, _, r.spans, by rw [← hp]⟩ ⟨x, hx, by simp [hb]⟩

/-- A failure leaves the session as it is. -/
theorem execute_of_error {c : Command} (h : (s.execute c).1 = .error r) : (s.execute c).2 = s := by
  cases c with
  | assign name formula =>
    cases ha : s.assign? name formula with
    | error r' => rw [execute_assign_of_error ha]
    | ok p =>
      rw [execute_assign_of_ok ha] at h
      cases h
  | _ => rfl

/-! ## Reachable sessions -/

/-- The sessions that running lines leads to, whether they fail or not. -/
inductive Reachable : Session → Prop
  | new (showSteps : Bool) : Reachable (.new showSteps)
  | execute {s : Session} (line : String) : s.Reachable →
      Reachable (s.execute (Command.ofLine line)).2

/-- Every variable with a value has the name of a variable. -/
theorem Reachable.isVariableName (h : s.Reachable) (hx : s.bindings.isBound x) :
    Command.isVariableName x.toList := by
  induction h with
  | new => cases hx
  | @execute s line _ ih =>
    cases hc : Command.ofLine line with
    | assign name formula =>
      rw [hc] at hx
      cases ha : s.assign? name formula with
      | error r =>
        rw [execute_assign_of_error ha] at hx
        exact ih hx
      | ok p =>
        rw [execute_assign_of_ok ha] at hx
        rcases (Bindings.isBound_set ..).1 hx with rfl | hx
        · exact Command.isVariableName_of_ofLine hc
        · exact ih hx
    | _ =>
      rw [hc] at hx
      exact ih hx

theorem Reachable.ofText_eq_var (h : s.Reachable) (hx : s.bindings.isBound x) :
    Formula.ofText x = .ok (.var x : Formula Float) := by
  have := (Formula.spells_var (h.isVariableName hx)).toExpression.ofText_eq
  rwa [String.ofList_toList] at this

/-- In every session that lines lead to, the names with a value are read as variables. A command
that fails changes nothing. A formula or a derivative is shown unless it cannot be read, and changes
nothing. An assignment of a formula that can be read fails, because of a variable without value,
exactly if the simplified formula has one, and otherwise it gives a value to its name only. -/
theorem execute_of_reachable (h : s.Reachable) (line : String) :
    (∀ x, s.bindings.isBound x → Formula.ofText x = .ok (.var x : Formula Float)) ∧
    (∀ r, (s.execute (Command.ofLine line)).1 = .error r →
      (s.execute (Command.ofLine line)).2 = s) ∧
    (∀ formula, Command.ofLine line = .simplify formula ∨
        Command.ofLine line = .differentiate formula →
      (s.execute (Command.ofLine line)).2 = s ∧ ∀ r,
        (s.execute (Command.ofLine line)).1 = .error r ↔
          (Formula.ofText formula : Except Report (Formula Float)) = .error r) ∧
    ∀ name formula, Command.ofLine line = .assign name formula →
      ((∃ x suggestions spans, (s.execute (Command.ofLine line)).1 =
          .error ⟨.undefinedVariable x suggestions, spans⟩) ↔
        ∃ f : Formula Float, Formula.ofText formula = .ok f ∧
          ∃ x ∈ f.simplify.vars, ¬ s.bindings.isBound x) ∧
      ∀ f : Formula Float, Formula.ofText formula = .ok f →
        (∀ x ∈ f.simplify.vars, s.bindings.isBound x) →
        ∃ lines v, (s.execute (Command.ofLine line)).1 = .ok lines ∧
          f.simplify.eval s.bindings = .ok v ∧
          ∀ x, (s.execute (Command.ofLine line)).2.bindings.get? x =
            if x = name then some v else s.bindings.get? x := by
  refine ⟨fun x hx => h.ofText_eq_var hx, fun r => execute_of_error, ?_, ?_⟩
  · rintro formula (hc | hc) <;> rw [hc]
    · exact ⟨rfl, fun r => show?_ofText_eq_error id⟩
    · exact ⟨rfl, fun r => show?_ofText_eq_error (·.derivative "x")⟩
  · intro name formula hc
    rw [hc]
    refine ⟨exists_execute_assign_undefined_iff, fun f hf hx => ?_⟩
    obtain ⟨⟨lines, v⟩, ha⟩ := exists_assign?_iff.2 ⟨f, hf, hx⟩
    rw [execute_assign_of_ok ha]
    exact ⟨lines, v, rfl, eval_of_assign? hf ha, fun x => Bindings.get?_set ..⟩

/-- After an assignment to `x`, the name `x` is read as a variable, and the value of `z` cannot be
assigned. -/
theorem execute_of_reachable_undefined :
    let s := ((new false).execute (Command.ofLine "x = 2")).2
    s.Reachable ∧ Formula.ofText "x" = .ok (.var "x" : Formula Float) ∧
      (∃ x suggestions spans, (s.execute (Command.ofLine "y = z")).1 =
        .error ⟨.undefinedVariable x suggestions, spans⟩) ∧
      (s.execute (Command.ofLine "y = z")).2 = s := by
  intro s
  have hs : s.Reachable := .execute "x = 2" (.new false)
  obtain ⟨hvars, hfail, -, hassign⟩ := execute_of_reachable hs "y = z"
  have hparse : Expr.ofText "z" = .ok (.symbol "z" ⟨0, 1⟩) := by decide +kernel
  have hf : Formula.ofText "z" = .ok (.var "z" : Formula Float) := by
    rw [Formula.ofText, hparse]
    rfl
  have hz : "z" ∈ (Formula.var "z" : Formula Float).simplify.vars := by
    have : (Formula.var "z" : Formula Float).simplify = .var "z" :=
      Formula.simplifyFor_of_simplifyOnce rfl Formula.maxPasses
    simp [this, Formula.mem_vars, Formula.postOrder]
  obtain ⟨x, suggestions, spans, h⟩ := (hassign "y" "z" (by decide)).1.2
    ⟨_, hf, "z", hz, by decide +kernel⟩
  exact ⟨hs, hvars "x" (by decide +kernel), ⟨x, suggestions, spans, h⟩, hfail _ h⟩

end Session
end SymCalc
