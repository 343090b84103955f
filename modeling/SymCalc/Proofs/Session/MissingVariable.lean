import SymCalc.Proofs.Formula.Parsed
import SymCalc.Proofs.Session.State

/-!
# Which variable an error is about

An assignment whose formula has a variable without value fails. The report names the first such
variable of the simplified formula in the order of evaluation, but it shows the place of the first
one in alphabetic order (`Session.execute_undefined`). These need not be the same variable
(`Session.execute_undefined_fails`).
-/

namespace SymCalc

variable {text formula : String} {e : Expr} {x y : String}

/-! ## Variables are tokens -/

theorem Token.eq_of_span_eq {t u : Token} (ht : t ∈ ofText text) (hu : u ∈ ofText text)
    (h : t.span = u.span) : t = u := by
  have : Std.Symm fun t u : Token => t.span = u.span → t = u :=
    ⟨fun t u htu h => (htu h.symm).symm⟩
  refine List.Pairwise.forall_of_forall (R := fun t u : Token => t.span = u.span → t = u)
    (fun _ _ _ => rfl) ?_ ht hu h
  refine pairwise_ofText.imp_of_mem fun {t u} ht _ hle heq => ?_
  have := (isProper_of_mem_ofText ht).start_lt_stop
  rw [heq] at this hle
  omega

namespace Formula

variable {α : Type} [Scalar α] {f : Formula α} {b : Bindings α} {p : Problem}

/-- The variables of the formula of a text are found in the text, where their first tokens are. -/
theorem exists_findWord? (h : ofText text = .ok f) (hx : x ∈ f.vars) :
    ∃ t, (Token.ofText text).find? (Token.isNamed x) = some t ∧ findWord? text x = some t.span := by
  obtain ⟨e, he, rfl⟩ := exists_ofText_eq_ok h
  obtain ⟨t, ht, htx, -⟩ := (Expr.ofText_eq_ok_iff.1 he).exists_isNamed x (vars_ofExpr e hx)
  have ht := (List.mem_filter.1 ht).1
  have hfind := findWord?_of_ofText he (Token.isIdentifier_of_isNamed ht htx)
  cases hfirst : (Token.ofText text).find? (Token.isNamed x) with
  | none => exact absurd htx (List.find?_eq_none.1 hfirst t ht)
  | some u => exact ⟨u, rfl, by rw [hfind, hfirst, Option.map_some]⟩

omit [Scalar α] in
theorem pairwise_vars (f : Formula α) : f.vars.Pairwise (· ≤ ·) :=
  List.pairwise_mergeSort' (· ≤ ·) _

omit [Scalar α] in
/-- The first variable with a property is the least one. -/
theorem le_of_find?_vars {q : String → Bool} (h : f.vars.find? q = some x) (hy : y ∈ f.vars)
    (hq : q y) : x ≤ y := by
  obtain ⟨-, as, bs, hvars, has⟩ := List.find?_eq_some_iff_append.1 h
  have hsorted := f.pairwise_vars
  rw [hvars] at hy hsorted
  rcases List.mem_append.1 hy with hy | hy
  · simp at has
    exact absurd hq (by simp [has y hy])
  · rcases List.mem_cons.1 hy with rfl | hy
    · exact le_rfl
    · exact List.rel_of_pairwise_cons (List.pairwise_append.1 hsorted).2.1 hy

end Formula

namespace Session

open Formula

variable {s : Session} {f : Formula Float} {name : String} {suggestions : List String}
  {spans : List Span}

/-- Only assignments fail because of a variable without value. -/
theorem exists_assign_of_undefined {c : Command}
    (h : (s.execute c).1 = .error ⟨.undefinedVariable x suggestions, spans⟩) :
    ∃ name formula f, c = .assign name formula ∧ Formula.ofText formula = .ok f ∧
      s.evaluate f.simplify formula = .error ⟨.undefinedVariable x suggestions, spans⟩ := by
  have hread {formula : String}
      (h : (Formula.ofText formula : Except Report (Formula Float)) =
        .error ⟨.undefinedVariable x suggestions, spans⟩) : False := by
    rw [Formula.ofText] at h
    cases he : Expr.ofText formula with
    | ok e => simp [he, Except.map] at h
    | error r =>
      rw [he] at h
      cases h
      exact Expr.problem_ne_undefinedVariable he x suggestions rfl
  cases c with
  | simplify formula =>
    rw [execute_simplify] at h
    exact (hread ((show?_ofText_eq_error id).1 h)).elim
  | differentiate formula =>
    rw [execute_differentiate] at h
    exact (hread ((show?_ofText_eq_error (·.derivative "x")).1 h)).elim
  | assign name formula =>
    cases hf : (Formula.ofText formula : Except Report (Formula Float)) with
    | error r =>
      rw [execute_assign_of_error (assign?_of_error hf)] at h
      cases h
      exact (hread hf).elim
    | ok f =>
      refine ⟨name, formula, f, rfl, hf, ?_⟩
      have ha : s.assign? name formula = _ := assign?_of_ok hf
      cases he : s.evaluate f.simplify formula with
      | ok v =>
        rw [he] at ha
        rw [execute_assign_of_ok ha] at h
        cases h
      | error r =>
        rw [he] at ha
        rw [execute_assign_of_error ha] at h
        cases h
        rfl
  | exit | empty => cases h

/-- A failed evaluation shows the place of the least variable without value. -/
theorem exists_of_evaluate {r : Report} (h : s.evaluate f formula = .error r) :
    ∃ y, f.vars.find? (fun x => !s.bindings.isBound x) = some y ∧
      r.spans = (findWord? formula y).toList := by
  obtain ⟨x, hx, hb, -⟩ := eval_error (problem_of_evaluate h)
  have hsome : (f.vars.find? fun x => !s.bindings.isBound x).isSome :=
    List.find?_isSome.2 ⟨x, hx, by simp [hb]⟩
  obtain ⟨y, hy⟩ := Option.isSome_iff_exists.1 hsome
  refine ⟨y, hy, ?_⟩
  unfold evaluate at h
  split at h
  · cases h
  · cases h
    simp only [hy, Option.bind_some]

/-- An error that names a variable without value comes from an assignment, and it is about the first
such variable `x` of the simplified formula in the order of evaluation. The region is that of the
first token that is the least such variable `y`. So it is the one of `x` exactly if no other
variable without value is less. -/
theorem execute_undefined (s : Session) {line : String}
    (h : (s.execute (Command.ofLine line)).1 = .error ⟨.undefinedVariable x suggestions, spans⟩) :
    ∃ name formula, ∃ f : Formula Float, ∃ y t u, Command.ofLine line = .assign name formula ∧
      Formula.ofText formula = .ok f ∧
      (f.simplify.postOrder.filterMap name?).find? (fun z => !s.bindings.isBound z) = some x ∧
      y ∈ f.simplify.vars ∧ ¬ s.bindings.isBound y ∧
      (∀ z ∈ f.simplify.vars, ¬ s.bindings.isBound z → y ≤ z) ∧
      (Token.ofText formula).find? (Token.isNamed y) = some t ∧
      (Token.ofText formula).find? (Token.isNamed x) = some u ∧
      spans = [t.span] ∧
      (t.span = u.span ↔ ∀ z ∈ f.simplify.vars, ¬ s.bindings.isBound z → x ≤ z) := by
  obtain ⟨name, formula, f, hline, hf, heval⟩ := exists_assign_of_undefined h
  obtain ⟨x', hx, hp⟩ := find?_of_eval (problem_of_evaluate heval)
  obtain ⟨rfl, -⟩ := Problem.undefinedVariable.inj hp
  obtain ⟨y, hy, hspans⟩ := exists_of_evaluate heval
  have hxmem : x ∈ f.simplify.vars := by
    obtain ⟨_, hmem, hname⟩ := List.mem_filterMap.1 (List.mem_of_find?_eq_some hx)
    rw [name?_eq_some.1 hname] at hmem
    exact mem_vars.2 hmem
  have hymem := List.mem_of_find?_eq_some hy
  have hxb : ¬ s.bindings.isBound x := by simpa using List.find?_some hx
  have hyb : ¬ s.bindings.isBound y := by simpa using List.find?_some hy
  have hleast z (hz : z ∈ f.simplify.vars) (hb : ¬ s.bindings.isBound z) : y ≤ z :=
    le_of_find?_vars hy hz (by simpa using hb)
  obtain ⟨t, ht, htspan⟩ := exists_findWord? hf (f.vars_simplify hymem)
  obtain ⟨u, hu, -⟩ := exists_findWord? hf (f.vars_simplify hxmem)
  refine ⟨name, formula, f, y, t, u, hline, hf, hx, hymem, hyb, hleast, ht, hu, ?_, ?_, ?_⟩
  · exact hspans.trans (by rw [htspan, Option.toList_some])
  · intro hspan z hz hb
    have htu := Token.eq_of_span_eq (List.mem_of_find?_eq_some ht) (List.mem_of_find?_eq_some hu)
      hspan
    have hnamed {v : Token} {x : String} (h : v.isNamed x) : v.lexeme = x := by
      simp only [Token.isNamed, Bool.and_eq_true, decide_eq_true_eq] at h
      exact h.2
    have hxy : x = y := by
      rw [← hnamed (List.find?_some hu), ← htu, hnamed (List.find?_some ht)]
    exact hxy ▸ hleast z hz hb
  · intro hx
    have hxy : x = y := le_antisymm (hx y hymem hyb) (hleast x hxmem hxb)
    rw [hxy, ht] at hu
    rw [Option.some.inj hu]

/-- The only variable of `2*foo+1` is shown. -/
theorem execute_undefined_foo :
    ((new false).execute (Command.ofLine "z = 2*foo+1")).1 =
        .error ⟨.undefinedVariable "foo" [], [⟨2, 5⟩]⟩ ∧
      ∃ t u : Token, [⟨2, 5⟩] = [t.span] ∧
        (Token.ofText "2*foo+1").find? (Token.isNamed "foo") = some u ∧ t.span = u.span := by
  have h : ((new false).execute (Command.ofLine "z = 2*foo+1")).1 =
      .error ⟨.undefinedVariable "foo" [], [⟨2, 5⟩]⟩ := by decide +kernel
  obtain ⟨name, formula, f, y, t, u, hline, -, -, -, -, -, -, hu, hspans, -⟩ := execute_undefined _ h
  have hformula : Command.ofLine "z = 2*foo+1" = .assign "z" "2*foo+1" := by decide
  obtain ⟨-, rfl⟩ := Command.assign.inj (hformula.symm.trans hline)
  have hfirst : (Token.ofText "2*foo+1").find? (Token.isNamed "foo") =
      some ⟨.name, "foo", ⟨2, 5⟩⟩ := by decide +kernel
  obtain rfl := Option.some.inj (hu.symm.trans hfirst)
  exact ⟨h, t, _, hspans, hfirst, (List.cons.inj hspans).1.symm⟩

/-- A pass that gives an equal formula leaves it as it is. -/
theorem simplify_eq_self_of_beq (hconst : f.Forall Double.IsConstant fun _ => True)
    (h : f.simplifyOnce == f) : f.simplify = f := by
  have hfix : f.simplifyOnce = f := eq_of_beq (fun _ _ => Double.eq_of_compare)
    (Double.forall_isConstant_simplifyOnce (hconst.imp (fun _ _ => trivial) fun _ h => h)) hconst h
  exact simplifyFor_of_simplifyOnce hfix maxPasses

/-- An evaluation that fails shows the least variable without value. -/
theorem evaluate_eq_error {p : Problem} (hp : f.eval s.bindings = .error p) (hx : x ∈ f.vars)
    (hb : ¬ s.bindings.isBound x) (hleast : ∀ z ∈ f.vars, ¬ s.bindings.isBound z → x ≤ z) :
    s.evaluate f formula = .error ⟨p, (findWord? formula x).toList⟩ := by
  cases he : s.evaluate f formula with
  | ok v => cases (evaluate_eq_ok_iff.1 he).symm.trans hp
  | error r =>
    obtain ⟨y, hy, hspans⟩ := exists_of_evaluate he
    have hyb : ¬ s.bindings.isBound y := by simpa using List.find?_some hy
    have hxy : x = y := le_antisymm (hleast y (List.mem_of_find?_eq_some hy) hyb)
      (le_of_find?_vars hy hx (by simpa using hb))
    obtain ⟨problem, spans⟩ := r
    obtain rfl : problem = p := Except.error.inj ((problem_of_evaluate he).symm.trans hp)
    rw [hxy, ← hspans]

/-- The error about `b/a` names `b`, which stands at the start, and shows `a`. -/
theorem execute_undefined_fails :
    ((new false).execute (Command.ofLine "z = b/a")).1 =
        .error ⟨.undefinedVariable "b" [], [⟨2, 3⟩]⟩ ∧
      (Token.ofText "b/a").find? (Token.isNamed "b") = some ⟨.name, "b", ⟨0, 1⟩⟩ := by
  refine ⟨?_, by decide +kernel⟩
  have hline : Command.ofLine "z = b/a" = .assign "z" "b/a" := by decide
  have hf : Formula.ofText "b/a" = .ok (.var "b" / .var "a" : Formula Float) := by
    have hparse : Expr.ofText "b/a" = .ok
        (.binary (.arith .div) ⟨1, 2⟩ (.symbol "b" ⟨0, 1⟩) (.symbol "a" ⟨2, 3⟩) ⟨0, 3⟩) := by
      decide +kernel
    rw [Formula.ofText, hparse]
    rfl
  have hfix : (.var "b" / .var "a" : Formula Float).simplify = .var "b" / .var "a" :=
    simplify_eq_self_of_beq ⟨trivial, trivial⟩ (by decide +kernel)
  have hproblem : (.var "b" / .var "a" : Formula Float).eval (new false).bindings =
      .error (.undefinedVariable "b" []) := by
    simp [div_eq, eval, new, Bindings.get?, Bindings.empty, Bindings.similar, Bindings.names, bind,
      Except.bind]
  have hvars (z : String) : z ∈ (.var "b" / .var "a" : Formula Float).vars ↔ z = "b" ∨ z = "a" := by
    simp [mem_vars, div_eq, postOrder]
  have hevaluate : (new false).evaluate (.var "b" / .var "a") "b/a" =
      .error ⟨.undefinedVariable "b" [], (findWord? "b/a" "a").toList⟩ := by
    refine evaluate_eq_error hproblem ((hvars "a").2 (.inr rfl)) Bool.false_ne_true ?_
    intro z hz _
    rcases (hvars z).1 hz with rfl | rfl <;> decide
  have hfind : findWord? "b/a" "a" = some ⟨2, 3⟩ := by decide
  have hassign : (new false).assign? "z" "b/a" = _ := assign?_of_ok hf
  rw [hfix, hevaluate, hfind] at hassign
  rw [hline, execute_assign_of_error hassign]
  rfl

end Session
end SymCalc
