import SymCalc.Proofs.Formula.Characters
import SymCalc.Proofs.Session.Independence
import SymCalc.Proofs.Simplify.LogTower

/-!
# What assignments print

* `Unbroken`: characters without blanks.

The last line that an assignment prints is again an assignment (`Session.ofLine_toText`), and what it
assigns is the constant that was shown (`Session.assign?_toText`). So it can be entered as a line, and
for a value that is shown as itself this changes nothing (`Session.execute_printed`). Infinite values
and the negative zero are shown as other constants, which later lines can tell apart from them
(`Session.results_printed_infinite`).
-/

namespace SymCalc

/-! ## Blanks at the ends of lines -/

/-- Characters between blanks are what is left by trimming. -/
theorem trim_of_blanks (as cs bs : List Char) (ha : ∀ c ∈ as, isBlank c)
    (hb : ∀ c ∈ bs, isBlank c) (hne : cs ≠ []) (hhead : ∀ c ∈ cs.head?, isBlank c = false)
    (hlast : ∀ c ∈ cs.getLast?, isBlank c = false) : trim (as ++ (cs ++ bs)) = cs := by
  have hfront : ∀ c ∈ (cs ++ bs).head?, isBlank c = false := by
    rwa [List.head?_append_of_ne_nil _ hne]
  have hback : ∀ c ∈ cs.reverse.head?, isBlank c = false := by rwa [List.head?_reverse]
  have hbs : ∀ c ∈ bs.reverse, isBlank c := fun c hc => hb c (List.mem_reverse.1 hc)
  rw [trim, Lexeme.dropWhile_append_of_head? ha hfront, List.reverse_append,
    Lexeme.dropWhile_append_of_head? hbs hback, List.reverse_reverse]

theorem trim_of_ends {cs : List Char} (hne : cs ≠ []) (hhead : ∀ c ∈ cs.head?, isBlank c = false)
    (hlast : ∀ c ∈ cs.getLast?, isBlank c = false) : trim cs = cs := by
  have h := trim_of_blanks [] cs [] (List.forall_mem_nil _) (List.forall_mem_nil _) hne hhead hlast
  rwa [List.nil_append, List.append_nil] at h

/-- What stands around the first equals sign of a line is assigned, if it is the name of a variable and
anything. -/
theorem Command.ofTrimmed_assignment {front back : List Char} (hname : isVariableName (trim front))
    (hequals : ∀ c ∈ front, (c != '=') = true) (hat : front.head? ≠ some '@') :
    ofTrimmed (front ++ '=' :: back) =
      .assign (String.ofList (trim front)) (String.ofList (trim back)) := by
  have hexit : front ++ '=' :: back ≠ "exit".toList := by
    intro h
    have hmem : '=' ∈ "exit".toList := h ▸ List.mem_append_right _ List.mem_cons_self
    exact absurd hmem (by decide)
  unfold ofTrimmed
  rw [if_neg hexit]
  split
  · next h => simp at h
  · next h =>
    cases front with
    | nil => cases h
    | cons c front => exact absurd (congrArg some (List.cons.inj h).1) hat
  · rw [List.takeWhile_append_of_pos hequals, List.dropWhile_append_of_pos hequals]
    simp only [List.takeWhile_cons, List.dropWhile_cons, bne_self_eq_false, Bool.false_eq_true,
      if_false, List.append_nil]
    rw [if_pos hname]

/-- A name and a formula with an equals sign between them are an assignment. -/
theorem Command.ofLine_assignment {name formula : String} (hname : isVariableName name.toList)
    (hne : formula.toList ≠ []) (hhead : ∀ c ∈ formula.toList.head?, isBlank c = false)
    (hlast : ∀ c ∈ formula.toList.getLast?, isBlank c = false) :
    ofLine (name ++ " = " ++ formula) = .assign name formula := by
  obtain ⟨c, cs, hcs, hc, hall⟩ := exists_of_isVariableName hname
  have hblank : ∀ x ∈ c :: cs, isBlank x = false := fun x hx => isBlank_of_isWordChar (hall x hx)
  have blank : ∀ x ∈ [' '], isBlank x := List.forall_mem_singleton.2 rfl
  have hequals : ∀ x ∈ c :: cs ++ [' '], (x != '=') = true := by
    intro x hx
    rw [bne_iff_ne]
    rintro rfl
    rcases List.mem_append.1 hx with hx | hx
    · exact absurd (hall _ hx) (by decide)
    · exact absurd (List.mem_singleton.1 hx) (by decide)
  have hat : (c :: cs ++ [' ']).head? ≠ some '@' := by
    rintro ⟨⟩
    exact absurd hc (by decide)
  have hline : (name ++ " = " ++ formula).toList =
      (c :: cs ++ [' ']) ++ '=' :: ([' '] ++ formula.toList) := by simp [hcs]
  have hends : trim (name ++ " = " ++ formula).toList = (name ++ " = " ++ formula).toList := by
    refine trim_of_ends (by simp [hcs]) (by simpa [hcs] using hblank c) ?_
    rw [String.toList_append, List.getLast?_append_of_ne_nil _ hne]
    exact hlast
  have hfront : trim (c :: cs ++ [' ']) = c :: cs :=
    trim_of_blanks [] (c :: cs) [' '] (List.forall_mem_nil _) blank (List.cons_ne_nil _ _)
      (by simpa using hblank c) fun x hx => hblank x (List.mem_of_getLast? hx)
  have hback : trim ([' '] ++ formula.toList) = formula.toList := by
    have htrim := trim_of_blanks [' '] _ [] blank (List.forall_mem_nil _) hne hhead hlast
    rwa [List.append_nil] at htrim
  rw [ofLine, hends, hline, ofTrimmed_assignment (by rwa [hfront, ← hcs]) hequals hat, hfront, hback,
    ← hcs, String.ofList_toList, String.ofList_toList]

/-! ## The text of a constant -/

/-- Whether the characters are some and none of them is blank. -/
def Unbroken (cs : List Char) : Prop := cs ≠ [] ∧ ∀ c ∈ cs, isBlank c = false

namespace Formula

open Double

variable {v w : Float}

theorem unbroken_constChars (h : IsConstant v) : Unbroken (constChars v) :=
  have hwritten := written_constChars h
  ⟨hwritten.ne_nil, fun c hc => (hwritten.isFormulaChar c hc).isBlank⟩

/-- A value is shown as a constant, which is the value if there is such a constant. -/
theorem exists_isConstant_ofValue (v : Float) :
    ∃ w, ofValue v = const w ∧ IsConstant w ∧ (IsConstant v → w = v) := by
  by_cases hv : IsConstant v
  · exact ⟨v, ofValue_eq_const hv, hv, fun _ => rfl⟩
  · cases hfin : v.isFinite with
    | false =>
      exact ⟨0 / 0, ofValue_of_not_isFinite hfin, .inl (isNaN_iff.2 rfl), fun h => absurd h hv⟩
    | true =>
      obtain rfl : v = -0 := by
        by_contra hne
        exact hv (.inr ⟨hfin, hne⟩)
      exact ⟨0, ofValue_of_beq_zero (by decide) (by decide), by decide,
        fun h => absurd h hv⟩

theorem simplify_unsigned_const (h : IsConstant v) : (const v).unsigned.simplify = const v := by
  have hpass : (const v : Formula Float).simplifyOnce = const v := ofValue_eq_const h
  have hsame : (const v).unsigned.simplifyOnce = (const v : Formula Float).simplifyOnce :=
    simplifyOnce_unsigned (Q := fun _ => True) h
  rw [simplify_eq_of_simplifyOnce_eq hsame]
  exact simplifyFor_of_simplifyOnce hpass maxPasses

/-- A sum of two variables in order is in normal form. -/
theorem isFixpoint_add_vars {α : Type} [Scalar α] [LawfulScalar α] {x y : String}
    (h : Ord.compare x y = .lt) : (var x + var y : Formula α).IsFixpoint := by
  have hcompare : (var x : Formula α).compare (var y) = .lt := h
  have hform : IsSumForm [(⟨1, [var x], []⟩ : Monomial α), ⟨1, [var y], []⟩] [] :=
    { isTerm := by
        have hterm (x : String) : (⟨1, [var x], []⟩ : Monomial α).IsTerm :=
          Monomial.isTerm_factor rfl rfl trivial
        simpa using ⟨hterm x, hterm y⟩
      positive := by simp [LawfulScalar.zero_lt_one]
      negative := List.forall_mem_nil _
      merged :=
        { distinct := List.pairwise_pair.2 (by
            simp [Monomial.compareFactors, compareLists, hcompare])
          logarithms := Nat.zero_lt_two
          angles := List.pairwise_pair.2 ⟨angleSum?_single .., angleSum?_single ..⟩ }
      constants := Nat.zero_le _
      sorted_positive := List.pairwise_pair.2 (.inr ⟨rfl, by
        rw [toFormula_single, toFormula_single, hcompare]
        rfl⟩)
      sorted_negative := .nil }
  have hsettled (k : ℕ) :
      IsSettled k (ofTerms [(⟨1, [var x], []⟩ : Monomial α), ⟨1, [var y], []⟩] []) :=
    hform.isSettled_ofTerms (fun hnil => absurd hnil (List.cons_ne_nil _ _))
      (by simpa [toFormula_single] using ⟨.var x, .var y⟩) (List.forall_mem_nil _)
  have hsum : ofTerms [(⟨1, [var x], []⟩ : Monomial α), ⟨1, [var y], []⟩] [] = var x + var y := by
    rw [ofTerms_of_ne_nil (List.cons_ne_nil _ _)]
    simp [toFormula_single, sum]
  exact (hsum ▸ hsettled _).isFixpoint
end Formula

namespace Bindings

variable {β : Type}

/-- Giving a variable the value that it was just given changes nothing. -/
theorem set_set (b : Bindings β) (name : String) (v w : β) :
    (b.set name v).set name w = b.set name w := by
  simp [set, List.filter_filter]

end Bindings

namespace Session

open Double

variable {s t u : Session} {name formula p : String} {v w : Float} {lines later : List String}

/-- The printed line of an assignment. -/
theorem eq_of_assign? (h : s.assign? name formula = .ok (lines, v)) :
    ∃ steps, lines = steps ++ [name ++ " = " ++ (Formula.ofValue v).toText] := by
  cases hf : (Formula.ofText formula : Except Report (Formula Float)) with
  | error r =>
    rw [assign?_of_error hf] at h
    cases h
  | ok f =>
    rw [assign?_of_ok hf] at h
    cases he : s.evaluate f.simplify formula with
    | error r => simp [he, Except.map] at h
    | ok w =>
      rw [he] at h
      cases h
      exact ⟨_, rfl⟩

/-- The text of a constant gives this constant in every session. -/
theorem assign?_toText (s : Session) (name : String) (hw : IsConstant w) :
    ∃ steps, s.assign? name (Formula.const w).toText =
      .ok (steps ++ [name ++ " = " ++ (Formula.const w).toText], w) := by
  have hf := (Formula.spells_toChars (f := .const w) hw).1.ofText_eq
  have hvalue : s.evaluate (Formula.const w).unsigned.simplify (Formula.const w).toText = .ok w := by
    rw [Formula.simplify_unsigned_const hw]
    exact evaluate_eq_ok_iff.2 rfl
  refine ⟨s.stepLines (Formula.const w).unsigned.simplifyTraced.steps, ?_⟩
  rw [Formula.toText, assign?_of_ok hf, ← Formula.toText, hvalue]
  simp [Except.map, ofValue_eq_const hw]

/-- The line that shows the constant `w` for a variable assigns it to this variable. -/
theorem ofLine_toText (hname : Command.isVariableName name.toList) (hw : IsConstant w) :
    Command.ofLine (name ++ " = " ++ (Formula.const w).toText) =
      .assign name (Formula.const w).toText := by
  have htext : (Formula.const w).toText.toList = Formula.constChars w := String.toList_ofList
  obtain ⟨hne, hblank⟩ := Formula.unbroken_constChars hw
  refine Command.ofLine_assignment hname ?_ ?_ ?_ <;> rw [htext]
  · exact hne
  · exact fun c hc => hblank c (List.mem_of_head? hc)
  · exact fun c hc => hblank c (List.mem_of_getLast? hc)

/-- The last line `p` that an assignment of a value `v` prints shows a constant `w`. Entering `p` prints
it again and binds `w`, and nothing else changes. If `v` is no number, or finite and not the negative
zero, then `w` is `v`, and all later lines give what they give without `p`. -/
theorem execute_printed {line : String} (s : Session)
    (hline : Command.ofLine line = .assign name formula)
    (h : (s.execute (Command.ofLine line)).1 = .ok lines) (hp : lines.getLast? = some p) :
    let t := (s.execute (Command.ofLine line)).2
    ∃ v w shown, t.bindings.get? name = some v ∧ Formula.ofValue v = .const w ∧
      p = name ++ " = " ++ (Formula.const w).toText ∧
      (t.execute (Command.ofLine p)).1 = .ok shown ∧ shown.getLast? = some p ∧
      (∀ x, (t.execute (Command.ofLine p)).2.bindings.get? x =
        if x = name then some w else t.bindings.get? x) ∧
      (IsConstant v → w = v ∧ ∀ later, t.results (p :: later) = .ok shown :: t.results later ∧
        t.after (p :: later) = t.after later) := by
  have hname := Command.isVariableName_of_ofLine hline
  rw [hline] at h ⊢
  cases ha : s.assign? name formula with
  | error r =>
    rw [execute_assign_of_error ha] at h
    cases h
  | ok r =>
    obtain ⟨lines', v⟩ := r
    rw [execute_assign_of_ok ha] at h ⊢
    obtain rfl : lines' = lines := Except.ok.inj h
    obtain ⟨steps, rfl⟩ := eq_of_assign? ha
    obtain ⟨w, hv, hw, hvw⟩ := Formula.exists_isConstant_ofValue v
    rw [hv, List.getLast?_concat, Option.some.injEq] at hp
    subst hp
    intro t
    have hp := ofLine_toText hname hw
    obtain ⟨steps', ha'⟩ := assign?_toText t name hw
    have hexecute := execute_assign_of_ok ha'
    refine ⟨v, w, _, by simp [t, Bindings.get?_set], hv, rfl, by rw [hp, hexecute],
      List.getLast?_concat, fun x => by rw [hp, hexecute, Bindings.get?_set],
      fun hconst => ⟨hvw hconst, fun later => ?_⟩⟩
    have hsame : { t with bindings := t.bindings.set name w } = t := by
      rw [hvw hconst, Bindings.set_set]
    have hexit : Command.ofLine (name ++ " = " ++ (Formula.const w).toText) ≠ .exit := by
      rw [hp]
      nofun
    rw [results_cons hexit, after_cons hexit, hp, hexecute, hsame]
    exact ⟨rfl, rfl⟩

/-- The line `x = 1-3` prints `x = -2`, and entering this changes nothing. -/
theorem execute_printed_negative :
    let t := ((new false).execute (Command.ofLine "x = 1-3")).2
    ∃ shown, (t.execute (Command.ofLine "x = -2")).1 = .ok shown ∧ shown.getLast? = some "x = -2" ∧
      ∀ later, t.results ("x = -2" :: later) = .ok shown :: t.results later := by
  intro t
  have hline : Command.ofLine "x = 1-3" = .assign "x" "1-3" := by decide
  have hprinted : ((new false).execute (Command.ofLine "x = 1-3")).1 = .ok ["x = -2"] := by
    decide +kernel
  obtain ⟨v, w, shown, hv, -, -, hok, hlast, -, hlater⟩ :=
    execute_printed (new false) hline hprinted rfl
  have hall : (t.bindings.get? "x").all fun v => IsConstant v := by decide +kernel
  rw [hv] at hall
  exact ⟨shown, hok, hlast, fun later => ((hlater (by simpa using hall)).2 later).1⟩

/-- The sum of two variables has the sum of their values. -/
theorem execute_add (x y : String) (hx : Command.isVariableName x.toList)
    (hy : Command.isVariableName y.toList) (h : Ord.compare x y = .lt)
    (hv : s.bindings.get? x = some v) (hw : s.bindings.get? y = some w) :
    (s.execute (.assign name (x ++ "+" ++ y))).2 =
      { s with bindings := s.bindings.set name (v + w) } := by
  have hf : Formula.ofText (x ++ "+" ++ y) = .ok (.var x + .var y : Formula Float) := by
    have hsum := Spells.infixed (α := Float) .add (Formula.spells_var hx) (Formula.spells_var hy)
    have := hsum.ofText_eq
    simpa [String.ofList_append, ArithOp.text, String.append_assoc, Formula.add_eq] using this
  have hfix : (.var x + .var y : Formula Float).simplify = .var x + .var y :=
    Formula.simplifyFor_of_simplifyOnce (Formula.isFixpoint_add_vars h) Formula.maxPasses
  have heval : (.var x + .var y : Formula Float).eval s.bindings = .ok (v + w) := by
    simp [Formula.eval, hv, hw, ArithOp.apply, bind, Except.bind, pure, Except.pure]
  have hassign : s.assign? name (x ++ "+" ++ y) = _ := assign?_of_ok hf
  rw [hfix, evaluate_eq_ok_iff.2 heval] at hassign
  rw [execute_assign_of_ok hassign]

/-- After two values have been added, `f` is the reciprocal of their sum. -/
theorem getLast?_results_add (lines : List String) (v w : Float)
    (hexit : ∀ l ∈ lines, Command.ofLine l ≠ .exit)
    (hv : (s.after lines).bindings.get? "c" = some v)
    (hw : (s.after lines).bindings.get? "d" = some w) :
    (s.results (lines ++ ["e = c+d", "f = 1/e"])).getLast? =
      some (({ s.after lines with bindings := (s.after lines).bindings.set "e" (v + w) } :
        Session).execute (.assign "f" "1/e")).1 := by
  have he : Command.ofLine "e = c+d" = .assign "e" "c+d" := by decide
  have hf : Command.ofLine "f = 1/e" = .assign "f" "1/e" := by decide
  have hadd : ((s.after lines).execute (.assign "e" "c+d")).2 = _ :=
    execute_add "c" "d" (by decide) (by decide) (by decide) hv hw
  rw [results_append hexit, results_cons (by simp [he]), results_cons (by simp [hf]), he,
    hf, hadd, results]
  simp

/-- The infinite value of `b` is shown as `UNDEFINED` and the negative zero `a` as `0`, but entering
what is shown changes a quotient. -/
theorem results_printed_infinite :
    let s := (new false).after ["a = 0", "b = 1/a"]
    let t := (new false).after ["z = 0", "a = -z"]
    (new false).results ["a = 0", "b = 1/a"] = [.ok ["a = 0"], .ok ["b = UNDEFINED"]] ∧
      s.results ["c = 1/b"] = [.ok ["c = 0"]] ∧
      s.results ["b = UNDEFINED", "c = 1/b"] = [.ok ["b = UNDEFINED"], .ok ["c = UNDEFINED"]] ∧
      (new false).results ["z = 0", "a = -z"] = [.ok ["z = 0"], .ok ["a = 0"]] ∧
      (t.results ["c = 1/a", "d = 1/z", "e = c+d", "f = 1/e"]).getLast? =
        some (.ok ["f = UNDEFINED"]) ∧
      (t.results ["a = 0", "c = 1/a", "d = 1/z", "e = c+d", "f = 1/e"]).getLast? =
        some (.ok ["f = 0"]) := by
  have hvalues :
      let t := (new false).after ["z = 0", "a = -z"]
      ((t.after ["c = 1/a", "d = 1/z"]).bindings.get? "c" = some (-1 / 0) ∧
        (t.after ["c = 1/a", "d = 1/z"]).bindings.get? "d" = some (1 / 0)) ∧
      (t.after ["a = 0", "c = 1/a", "d = 1/z"]).bindings.get? "c" = some (1 / 0) ∧
        (t.after ["a = 0", "c = 1/a", "d = 1/z"]).bindings.get? "d" = some (1 / 0) := by
    decide +kernel
  obtain ⟨⟨hc, hd⟩, hc', hd'⟩ := hvalues
  refine ⟨by decide +kernel, by decide +kernel, by decide +kernel, by decide +kernel,
    (getLast?_results_add _ _ _ (by decide) hc hd).trans ?_,
    (getLast?_results_add _ _ _ (by decide) hc' hd').trans ?_⟩
  · decide +kernel
  · decide +kernel

end Session
end SymCalc
