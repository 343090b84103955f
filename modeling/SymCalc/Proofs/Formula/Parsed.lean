import SymCalc.Proofs.Decimal.Sign
import SymCalc.Proofs.Formula.RoundTrip
import SymCalc.Proofs.Formula.Variables
import SymCalc.Proofs.Token.Word

/-!
# Formulas that are read

* `Expr.symbols`: the names that stand for constants and variables in a syntax tree;
* `Double.IsLiteral`: the doubles that constants of formulas are read as;
* `Formula.IsReadable`: properties that all constants of formulas that are read have.

The constants of a formula that is read have no sign and its variables have names that are not reserved.
So its text is read as the same formula again (`Formula.ofText_toText_of_ofText`).
-/

namespace SymCalc

/-! ## Variables are tokens -/

namespace Expr

/-- The names in a syntax tree that are no operators, from left to right. -/
def symbols : Expr → List String
  | number _ _ => []
  | symbol name _ => [name]
  | paren inner _ => inner.symbols
  | unary _ _ operand _ => operand.symbols
  | binary _ _ lhs rhs _ => lhs.symbols ++ rhs.symbols

attribute [local simp] symbols

variable {e x : Expr} {op : InfixOp} {s : Span}

theorem symbols_extend : (e.extend op s x).symbols = e.symbols ++ x.symbols := by
  induction e with
  | binary op₁ s₁ lhs rhs span _ ih =>
    rw [extend]
    split <;> simp [ih]
  | _ => rfl

end Expr

variable {text : String} {e : Expr} {x : String}

/-- The names in the tree of a phrase are tokens that are no operators. -/
theorem Reads.exists_isNamed {p : Phrase} {ts : List Token} (h : Reads p ts e) :
    ∀ x ∈ e.symbols, ∃ t ∈ ts, t.isNamed x ∧ Cursor.prefixOp? t = none := by
  induction h with
  | number => exact List.forall_mem_nil _
  | @name t hk hp => simp [Expr.symbols, Token.isNamed, hk, hp]
  | paren _ _ _ ih =>
    intro x hx
    obtain ⟨t, ht, hx⟩ := ih x hx
    exact ⟨t, by simp [ht], hx⟩
  | primary _ ih | postfixed _ ih | operand _ ih => exact ih
  | percent _ _ ih | prefixed _ _ ih =>
    intro x hx
    obtain ⟨t, ht, hx⟩ := ih x hx
    exact ⟨t, by simp [ht], hx⟩
  | infixed _ _ _ ihe ihx =>
    rw [Expr.symbols_extend]
    intro x hx
    rcases List.mem_append.1 hx with hx | hx
    · obtain ⟨t, ht, hx⟩ := ihe x hx
      exact ⟨t, by simp [ht], hx⟩
    · obtain ⟨t, ht, hx⟩ := ihx x hx
      exact ⟨t, by simp [ht], hx⟩

/-- The names of variables are the names of tokens that are not reserved. -/
theorem Command.isVariableName_iff :
    isVariableName x.toList ↔ IsIdentifier x.toList ∧ x ∉ reservedNames := by
  cases hx : x.toList with
  | nil => simp [isVariableName, IsIdentifier]
  | cons c cs =>
    have hname : String.ofList (c :: cs) = x := by rw [← hx, String.ofList_toList]
    simp only [isVariableName, hname, Bool.and_eq_true, List.all_eq_true, Bool.not_eq_true',
      List.contains_eq_mem, decide_eq_false_iff_not]
    refine and_congr_left' ⟨fun h => ⟨c, cs, rfl, h⟩, ?_⟩
    rintro ⟨c', cs', heq, h⟩
    cases heq
    exact h

/-- A name in a text that is accepted stands for a constant, or it is the name of a variable. -/
theorem Expr.isVariableName_of_mem_symbols {α : Type} [Scalar α] (h : ofText text = .ok e)
    (hx : x ∈ e.symbols) (hc : (Formula.constantNamed? x : Option (Formula α)) = none) :
    Command.isVariableName x.toList := by
  obtain ⟨t, ht, hnamed, hp⟩ := (ofText_eq_ok_iff.1 h).exists_isNamed x hx
  refine Command.isVariableName_iff.2
    ⟨Token.isIdentifier_of_isNamed (List.mem_filter.1 ht).1 hnamed, ?_⟩
  simp only [Token.isNamed, Bool.and_eq_true, decide_eq_true_eq] at hnamed
  obtain ⟨hk, rfl⟩ := hnamed
  have hword : (UnaryOp.ofWord? t.lexeme).isSome = false := by
    simpa [Cursor.prefixOp?, hk] using hp
  intro hres
  rcases List.mem_append.1 hres with hres | hres
  · simp only [List.mem_cons, List.not_mem_nil, or_false] at hres
    rcases hres with h | h | h <;> simp [h, Formula.constantNamed?] at hc
  · rw [UnaryOp.isSome_ofWord?.2 hres] at hword
    cases hword

/-! ## Constants and variables -/

namespace Formula

section
variable {α : Type} [Scalar α] {P : α → Prop} {Q : String → Prop} {f a c : Formula α}

/-- A property of the constants that texts can give. -/
structure IsReadable (P : α → Prop) : Prop where
  zero : P 0
  one : P 1
  undefined : P Scalar.undefined
  pi : P Scalar.pi
  euler : P Scalar.euler
  ofDecimal : ∀ d, Scalar.isFinite (Scalar.ofDecimal d : α) → (Scalar.ofDecimal d == (0 : α)) = false →
    P (Scalar.ofDecimal d)

theorem forall_ofPower (hP : IsReadable P) (ha : a.Forall P Q) (hc : c.Forall P Q) :
    (ofPower a c).Forall P Q := by
  unfold ofPower
  split
  · split
    · split
      · exact forall_power hP.one ha _
      · exact ⟨hc, ha⟩
    · exact hP.undefined
  · exact ⟨hc, ha⟩

/-- The constants of a formula that is read can be read, and its variables are names in the syntax tree
that stand for no constants. -/
theorem forall_ofExpr (hP : IsReadable P)
    (hQ : ∀ x ∈ e.symbols, (constantNamed? x : Option (Formula α)) = none → Q x) :
    (ofExpr e).Forall P Q := by
  induction e with
  | number d s =>
    rw [ofExpr, ofValue]
    split
    · next hfin =>
      split
      · exact hP.zero
      · next h0 => exact hP.ofDecimal d hfin (eq_false_of_ne_true h0)
    · exact hP.undefined
  | symbol name s =>
    have hQ := hQ name (List.mem_singleton_self name)
    rw [ofExpr]
    unfold constantNamed? at hQ ⊢
    split
    · exact hP.pi
    split
    · exact hP.euler
    split
    · exact hP.undefined
    · next h₁ h₂ h₃ => exact hQ (by rw [if_neg h₁, if_neg h₂, if_neg h₃])
  | paren inner _ ih | unary _ _ inner _ ih => exact ih hQ
  | binary op _ lhs rhs _ ihl ihr =>
    have hl := ihl fun x hx => hQ x (List.mem_append_left _ hx)
    have hr := ihr fun x hx => hQ x (List.mem_append_right _ hx)
    cases op with
    | power => exact forall_ofPower hP hl hr
    | arith op => exact ⟨hl, hr⟩

/-- The variables of a formula stand in its syntax tree. -/
theorem vars_ofExpr (e : Expr) : (ofExpr e : Formula α).vars ⊆ e.symbols := by
  have hP : IsReadable fun _ : α => True :=
    ⟨trivial, trivial, trivial, trivial, trivial, fun _ _ _ => trivial⟩
  exact forall_iff_vars.1 (forall_ofExpr hP fun x hx _ => hx)

theorem exists_ofText_eq_ok (h : ofText text = .ok f) :
    ∃ e, Expr.ofText text = .ok e ∧ ofExpr e = f := by
  rw [ofText] at h
  cases he : Expr.ofText text with
  | error r =>
    rw [he] at h
    cases h
  | ok e =>
    rw [he] at h
    exact ⟨e, rfl, Except.ok.inj h⟩

end
end Formula

/-! ## Doubles -/

namespace Double

open Formula

variable {v : Float}

/-- Whether the double is no number, or finite and without a sign. -/
def IsLiteral (v : Float) : Prop := v.isNaN ∨ v.isFinite ∧ ¬ v < 0 ∧ v ≠ -0

instance (v : Float) : Decidable (IsLiteral v) := inferInstanceAs (Decidable (_ ∨ _ ∧ _ ∧ _))

theorem IsLiteral.isConstant (h : IsLiteral v) : IsConstant v :=
  h.imp_right fun h => ⟨h.1, h.2.2⟩

theorem IsLiteral.not_lt_zero (h : IsLiteral v) : ¬ v < 0 := by
  rcases h with h | h
  · rw [isNaN_iff.1 h]
    decide
  · exact h.2.1

/-- The constants that are read are literals, those too large for a double included. -/
theorem isReadable_isLiteral : IsReadable IsLiteral where
  zero := by decide
  one := by decide
  undefined := by decide
  pi := by decide
  euler := by decide
  ofDecimal d hfin h0 := by
    refine .inr ⟨hfin, not_lt_zero_of_isUnsigned (isUnsigned_toDouble d), fun hneg => ?_⟩
    rw [show Scalar.ofDecimal d = (-0 : Float) from hneg] at h0
    exact absurd h0 (by decide)

end Double

namespace Formula

open Double

/-- Without negative constants there are no signs to write as negations. -/
theorem Forall.unsigned_eq {f : Formula Float} {Q : String → Prop}
    (h : f.Forall (fun v => ¬ v < 0) Q) : f.unsigned = f := by
  induction f with
  | const v => exact unsigned_const h
  | var x => rfl
  | unary op a ih => rw [unsigned, ih h]
  | binary op a b iha ihb => rw [unsigned, iha h.1, ihb h.2]

theorem forall_isLiteral_of_ofText {text : String} {f : Formula Float} (h : ofText text = .ok f) :
    f.Forall IsLiteral fun x => Command.isVariableName x.toList := by
  obtain ⟨e, he, rfl⟩ := exists_ofText_eq_ok h
  exact forall_ofExpr isReadable_isLiteral fun x hx hc =>
    Expr.isVariableName_of_mem_symbols he hx hc

/-- The formula of a text has no constants but the undefined one and finite ones without a sign, and no
variables with reserved names. Its own text is read as the same formula. -/
theorem ofText_toText_of_ofText {text : String} {f : Formula Float} (h : ofText text = .ok f) :
    f.Forall IsLiteral (fun x => Command.isVariableName x.toList) ∧ ofText f.toText = .ok f := by
  have hforall := forall_isLiteral_of_ofText h
  have hunsigned := (hforall.imp (fun _ h => h.not_lt_zero) fun _ h => h).unsigned_eq
  have hread := ofText_eq_unsigned (hforall.imp (fun _ h => h.isConstant) fun _ h => h)
  rw [hunsigned] at hread
  exact ⟨hforall, hread⟩

/-- A power next to a named constant. -/
theorem ofText_toText_of_ofText_power :
    let f : Formula Float := const Scalar.pi * (var "x" * var "x")
    ofText "PI*x^2" = .ok f ∧
      f.Forall IsLiteral (fun x => Command.isVariableName x.toList) ∧ ofText f.toText = .ok f := by
  have htokens : Token.significant "PI*x^2" =
      ([⟨.name, "PI", ⟨0, 2⟩⟩] ++ ⟨.star, "*", ⟨2, 3⟩⟩ :: [⟨.name, "x", ⟨3, 4⟩⟩]) ++
        ⟨.caret, "^", ⟨4, 5⟩⟩ :: [⟨.number, "2", ⟨5, 6⟩⟩] := by decide +kernel
  have hname (t : Token) (hk : t.kind = .name) (hp : Cursor.prefixOp? t = none) :
      Reads .operand [t] (.symbol t.lexeme t.span) := .postfixed (.primary (.name hk hp))
  have htwo : Reads .operand [⟨.number, "2", ⟨5, 6⟩⟩] (.number ⟨2, 0⟩ ⟨5, 6⟩) :=
    .postfixed (.primary (.number rfl (by decide)))
  have hstar : Cursor.infixOp? ⟨.star, "*", ⟨2, 3⟩⟩ = some (.arith .mul) := rfl
  have hcaret : Cursor.infixOp? ⟨.caret, "^", ⟨4, 5⟩⟩ = some .power := rfl
  have hreads := htokens ▸ Reads.infixed
    (.infixed (.operand (hname _ rfl (by decide))) hstar (hname _ rfl (by decide))) hcaret htwo
  have hpower : ofPower (var "x") (ofValue (Scalar.ofDecimal ⟨2, 0⟩)) =
      (var "x" * var "x" : Formula Float) := by
    have hvalue : (ofValue (Scalar.ofDecimal ⟨2, 0⟩) : Formula Float) =
        const (Scalar.ofDecimal ⟨2, 0⟩) := ofValue_eq_const (by decide)
    have hcount : Scalar.toCount? (Scalar.ofDecimal ⟨2, 0⟩ : Float) = some 2 := by decide
    have hnumber : Scalar.isNumber (Scalar.ofDecimal ⟨2, 0⟩ : Float) := by decide
    rw [hvalue, ofPower, if_pos hnumber, hcount]
    rfl
  have hread : ofText "PI*x^2" = .ok (const Scalar.pi * (var "x" * var "x") : Formula Float) := by
    rw [ofText_eq_of_reads hreads rfl, ← hpower]
    rfl
  exact ⟨hread, ofText_toText_of_ofText hread⟩

end Formula
end SymCalc
