import SymCalc.Proofs.Formula.Parsed
import SymCalc.Proofs.Session.Assignment
import SymCalc.Proofs.Simplify.Fixpoint

/-!
# Entering what was shown

* `Command.Shows`: which formula a command asks to show.

A simplified formula is a fixpoint, so its text is read as a formula that simplifies to it again
(`Formula.IsFixpoint.simplify_unsigned`), and as a line this text asks to show that formula
(`Command.ofLine_eq_simplify`). So entering what a command showed shows the same again
(`Session.execute_shown`), unless it is the word that leaves the calculator
(`Session.execute_shown_exit`).
-/

namespace SymCalc

/-- The command asks to show the formula `f` simplified. -/
inductive Command.Shows : Command → Formula Float → Prop
  | simplify {formula : String} {f : Formula Float} (h : Formula.ofText formula = .ok f) :
      Shows (.simplify formula) f
  | differentiate {formula : String} {f : Formula Float} (h : Formula.ofText formula = .ok f) :
      Shows (.differentiate formula) (f.derivative "x")

/-- The text of a formula asks to show this formula, unless it is the word `exit`. -/
theorem Command.ofLine_eq_simplify {line : String} (h : Written line.toList)
    (hexit : line ≠ "exit") : ofLine line = .simplify line := by
  have hblank : ∀ c ∈ line.toList, isBlank c = false := fun c hc => (h.isFormulaChar c hc).isBlank
  have hmark : ∀ c ∈ line.toList, c ≠ '=' ∧ c ≠ '@' := fun c hc => (h.isFormulaChar c hc).ne_mark
  have hends : trim line.toList = line.toList :=
    trim_of_ends h.ne_nil (fun c hc => hblank c (List.mem_of_head? hc))
      fun c hc => hblank c (List.mem_of_getLast? hc)
  have hdrop : line.toList.dropWhile (· != '=') = [] := by
    simpa [List.dropWhile_eq_nil_iff] using fun c hc => (hmark c hc).1
  rw [ofLine, hends]
  unfold ofTrimmed
  rw [if_neg fun heq => hexit (String.toList_injective heq)]
  split
  · next hnil => exact absurd hnil h.ne_nil
  · next rest hat => exact absurd rfl (hmark '@' (by simp [hat])).2
  · rw [hdrop, String.ofList_toList]

namespace Formula

variable {f g : Formula Float} {Q : String → Prop}

theorem IsFixpoint.forall_isConstant (h : g.IsFixpoint) (hQ : ∀ x ∈ g.vars, Q x) :
    g.Forall Double.IsConstant Q := by
  have hpass := Double.forall_isConstant_simplifyOnce (forall_iff_vars.2 hQ)
  rwa [show g.simplifyOnce = g from h] at hpass

/-- Writing negative constants as negations does not change what a fixpoint simplifies to. -/
theorem IsFixpoint.simplify_unsigned (h : g.IsFixpoint) (hc : g.Forall Double.IsConstant Q) :
    g.unsigned.simplify = g := by
  rw [simplify_eq_of_simplifyOnce_eq (simplifyOnce_unsigned hc)]
  exact h.simplify_eq (Nat.zero_le _) rfl

/-- The text of a formula is the word `exit` only for the variable with this name. -/
theorem toText_eq_exit_iff
    (hc : g.Forall Double.IsConstant fun x => Command.isVariableName x.toList) :
    g.toText = "exit" ↔ g = var "exit" := by
  constructor
  · intro h
    have hg := ofText_eq_unsigned hc
    have hexit : ofText "exit" = .ok (var "exit" : Formula Float) :=
      (spells_var (x := "exit") (by decide)).toExpression.ofText_eq
    rw [h, hexit] at hg
    have hunsigned := Except.ok.inj hg
    cases g with
    | const v =>
      rw [unsigned] at hunsigned
      split at hunsigned <;> cases hunsigned
    | var x => exact hunsigned.symm
    | unary op a | binary op a b => cases hunsigned
  · rintro rfl
    rfl

end Formula

/-- The variables of a formula that is shown have names of variables. -/
theorem Command.Shows.isVariableName {c : Command} {f : Formula Float} (h : c.Shows f) :
    ∀ x ∈ f.vars, isVariableName x.toList := by
  have hread {formula : String} {f : Formula Float} (h : Formula.ofText formula = .ok f) :
      ∀ x ∈ f.vars, Command.isVariableName x.toList :=
    fun x hx => (Formula.forall_isLiteral_of_ofText h).of_mem_vars hx
  cases h with
  | simplify h => exact hread h
  | @differentiate _ f h => exact fun x hx => hread h x (f.vars_derivative "x" hx)

namespace Session

open Formula

variable {s : Session} {f g : Formula Float} {c : Command} {line : String}

theorem execute_of_shows (h : c.Shows f) : s.execute c = (s.show? f c.formula, s) := by
  cases h with
  | simplify h => rw [execute_simplify, h]; rfl
  | differentiate h => rw [execute_differentiate, h]; rfl

/-- Without steps, what is shown depends on the simplified formula only, and its text comes first. -/
theorem exists_show?_of_simplify (hs : s.showSteps = false) (g : Formula Float) :
    ∃ rest, ∀ f formula, f.simplify = g → s.show? f formula = .ok (g.toText :: rest) := by
  have hvalue (f : Formula Float) : f.simplifyTraced.value = f.simplify := rfl
  by_cases hb : !g.vars.isEmpty && g.vars.all s.bindings.isBound
  · obtain ⟨v, hv⟩ := exists_eval_iff.2 (List.all_eq_true.1 (Bool.and_eq_true_iff.1 hb).2)
    refine ⟨["= " ++ (ofValue v).toText], ?_⟩
    rintro f formula rfl
    simp [show?, hvalue, stepLines, hs, hb, evaluate_eq_ok_iff.2 hv]
  · refine ⟨[], ?_⟩
    rintro f formula rfl
    simp [show?, hvalue, stepLines, hs, hb, pure, Except.pure]

/-- Without steps, what a command shows comes first and can be entered. The same lines are printed then,
unless the formula that is shown is the variable `exit`, whose name as a line means something else. -/
theorem execute_shown (s : Session) (hs : s.showSteps = false)
    (hf : (Command.ofLine line).Shows f) (hg : f.simplifyWithin? maxPasses = some g) :
    let t := (s.execute (Command.ofLine line)).2
    ∃ lines, (s.execute (Command.ofLine line)).1 = .ok lines ∧ lines.head? = some g.toText ∧
      (g ≠ .var "exit" → t.execute (Command.ofLine g.toText) = (.ok lines, t)) ∧
      (g = .var "exit" → Command.ofLine g.toText = .exit) := by
  intro t
  have hexecute := execute_of_shows (s := s) hf
  have hsimplify := simplify_eq_of_simplifyWithin? hg (Nat.le_refl _)
  obtain ⟨hfix, -⟩ := simplifyWithin?_eq_some hg
  have hconst : g.Forall Double.IsConstant fun x => Command.isVariableName x.toList :=
    hfix.forall_isConstant fun x hx => hf.isVariableName x (f.vars_simplify (hsimplify ▸ hx))
  obtain ⟨rest, hshow⟩ := exists_show?_of_simplify hs g
  have ht : t = s := congrArg Prod.snd hexecute
  refine ⟨g.toText :: rest, ?_, rfl, fun hne => ?_, ?_⟩
  · rw [hexecute, hshow f _ hsimplify]
  · have hline : Command.ofLine g.toText = .simplify g.toText := by
      refine Command.ofLine_eq_simplify ?_ fun h => hne ((toText_eq_exit_iff hconst).1 h)
      rw [toText, String.toList_ofList]
      exact written_toChars hconst
    have hread : Command.Shows (.simplify g.toText) g.unsigned :=
      .simplify (ofText_eq_unsigned hconst)
    rw [ht, hline, execute_of_shows hread, hshow _ _ (hfix.simplify_unsigned hconst)]
  · rintro rfl
    decide

/-- With a value for `a`, the line `6*a` shows what the line `2*(3*a)` does. -/
theorem execute_shown_multiple :
    let s := ((new false).execute (Command.ofLine "a = 3")).2
    let t := (s.execute (Command.ofLine "2*(3*a)")).2
    (s.execute (Command.ofLine "2*(3*a)")).1 = .ok ["6*a", "= 18"] ∧
      (t.execute (Command.ofLine "6*a")).1 = .ok ["6*a", "= 18"] := by
  intro s t
  have hprinted : (s.execute (Command.ofLine "2*(3*a)")).1 = .ok ["6*a", "= 18"] := by
    decide +kernel
  have hconverges : ((Formula.ofText "2*(3*a)" : Except Report (Formula Float)).toOption.any
      fun f => (f.simplifyWithin? maxPasses).isSome) := by decide +kernel
  cases hread : (Formula.ofText "2*(3*a)" : Except Report (Formula Float)) with
  | error r =>
    rw [hread] at hconverges
    cases hconverges
  | ok f =>
    rw [hread] at hconverges
    obtain ⟨g, hg⟩ := Option.isSome_iff_exists.1 hconverges
    have hline : Command.ofLine "2*(3*a)" = .simplify "2*(3*a)" := by decide
    have hshows : (Command.ofLine "2*(3*a)").Shows f := hline ▸ .simplify hread
    have hs : s.showSteps = false := by decide +kernel
    obtain ⟨lines, hlines, hhead, hagain, -⟩ := execute_shown s hs hshows hg
    obtain rfl := Except.ok.inj (hlines.symm.trans hprinted)
    have htext : g.toText = "6*a" := (Option.some.inj hhead).symm
    have hne : g ≠ .var "exit" := by
      rintro rfl
      exact absurd htext (by decide)
    have hagain := congrArg Prod.fst (hagain hne)
    rw [htext] at hagain
    exact ⟨hprinted, hagain⟩

/-- The line `exit+0` prints `exit`, and entering this leaves the calculator. -/
theorem execute_shown_exit :
    (new false).Reachable ∧ (new false).showSteps = false ∧
      Command.ofLine "exit+0" = .simplify "exit+0" ∧
      ((Formula.ofText "exit+0" : Except Report (Formula Float)).toOption.any
        fun f => (f.simplifyWithin? maxPasses).isSome) ∧
      ((new false).execute (Command.ofLine "exit+0")).1 = .ok ["exit"] ∧
      ((new false).execute (Command.ofLine "exit")).1 = .ok [] ∧ Command.ofLine "exit" = .exit := by
  refine ⟨.new false, rfl, ?_⟩
  decide +kernel

end Session
end SymCalc
