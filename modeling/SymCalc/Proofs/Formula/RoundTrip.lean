import SymCalc.Proofs.Formula.Constant
import SymCalc.Proofs.Formula.Spelling
import SymCalc.Session.Command

/-!
# Reading the text of a formula

* `Formula.unsigned`: a formula in which negative constants are negations;
* `Formula.ofText_toText`: the text of a formula is read as the unsigned formula, which simplifies to
  the same.
-/

namespace SymCalc
namespace Formula

open Double Lexeme

section
variable {α : Type} [Scalar α]

/-- The formula with the negation of the opposite for every negative constant. -/
def unsigned : Formula α → Formula α
  | const v => if Scalar.lt v 0 then unary .negate (const (-v)) else const v
  | var x => var x
  | unary op a => unary op a.unsigned
  | binary op a b => binary op a.unsigned b.unsigned

end

variable {f : Formula Float} {v : Float} {x : String}

/-! ## Reading -/

theorem unsigned_const (h : ¬ v < 0) : (const v).unsigned = const v :=
  if_neg (by simpa [Scalar.lt] using h)

theorem unsigned_const_of_lt_zero (h : v < 0) : (const v).unsigned = -const (-v) :=
  if_pos (by simpa [Scalar.lt] using h)

theorem spells_named {c : Char} {w : List Char} (hc : c.isAlpha) (hw : w.all isNameChar)
    (hop : UnaryOp.ofWord? (String.ofList (c :: w)) = none)
    (hconst : constantNamed? (String.ofList (c :: w)) = some (const v)) (hv : ¬ v < 0) :
    Spells .operand (c :: w) (const v).unsigned := by
  have h := Spells.name (α := Float) hc (List.all_eq_true.1 hw) hop
  rw [hconst] at h
  rw [unsigned_const hv]
  exact h.toPostfixed.toOperand

theorem spells_doubleChars (h : IsConstant v) (hfin : v.isFinite) (hv : ¬ v < 0) :
    Spells .operand (doubleChars v) (const v) := by
  obtain ⟨d, hd, hv⟩ := reads_doubleChars h hfin hv
  have h' := Spells.numeral (α := Float) hd
  rw [show Scalar.ofDecimal d = v from hv, ofValue_eq_const h] at h'
  exact h'.toPostfixed.toOperand

theorem spells_constChars (h : IsConstant v) :
    Spells .operand (constChars v) (const v).unsigned := by
  have heq {w : Float} (hw : ¬ (w = 0 ∨ w = -0)) (h : v == w) : v = w :=
    (eq_or_zero_of_beq h).resolve_right fun h => hw h.2
  unfold constChars
  split
  · next hnan =>
    obtain rfl := isNaN_iff.1 hnan
    exact spells_named (by decide) (by decide) (by decide) rfl
      (by decide)
  · next hnan =>
    split
    · next hpi =>
      obtain rfl := heq (by decide) hpi
      exact spells_named (by decide) (by decide) (by decide) rfl
        (by decide)
    · split
      · next he =>
        obtain rfl := heq (by decide) he
        exact spells_named (by decide) (by decide) (by decide) rfl
          (by decide)
      · by_cases hv : v < 0
        · obtain ⟨m, q, hm, hneg⟩ := unpacked_neg_of_lt_zero h hv
          rw [chars_of_lt_zero h hv, unsigned_const_of_lt_zero hv]
          exact (spells_doubleChars (isConstant_neg h hv) (isFinite_of_unpacked hneg)
            (by simp [lt_zero_iff hneg])).negate
        · rw [unsigned_const hv]
          exact spells_doubleChars h (h.resolve_left hnan).1 hv

theorem spells_var (h : Command.isVariableName x.toList) :
    Spells .operand x.toList (var x : Formula Float) := by
  cases hx : x.toList with
  | nil => simp [hx, Command.isVariableName] at h
  | cons c cs =>
    have hname : String.ofList (c :: cs) = x := by rw [← hx, String.ofList_toList]
    simp only [hx, Command.isVariableName, hname, Bool.and_eq_true, List.all_eq_true,
      Bool.not_eq_true', Command.reservedNames] at h
    obtain ⟨⟨hc, hcs⟩, hres⟩ := h
    have hop : UnaryOp.ofWord? (String.ofList (c :: cs)) = none := by
      rw [hname, ← Option.isNone_iff_eq_none, ← Option.isSome_eq_false_iff, ← Bool.not_eq_true,
        UnaryOp.isSome_ofWord?]
      intro h
      simp_all [UnaryOp.functions, UnaryOp.text]
    have hconst : (constantNamed? x : Option (Formula Float)) = none := by
      simp_all [constantNamed?]
    have h := Spells.name (α := Float) hc hcs hop
    rw [hname, hconst] at h
    exact h.toPostfixed.toOperand

theorem spells_toChars (hc : f.Forall IsConstant fun x => Command.isVariableName x.toList) :
    Spells .expression f.toChars f.unsigned ∧
      (f.needsParens = false → Spells .operand f.toChars f.unsigned) := by
  have hoperand {f : Formula Float} (h : Spells .operand f.toChars f.unsigned) :
      Spells .expression f.toChars f.unsigned ∧
        (f.needsParens = false → Spells .operand f.toChars f.unsigned) :=
    ⟨h.toExpression, fun _ => h⟩
  induction f with
  | const v => exact hoperand (spells_constChars hc)
  | var x => exact hoperand (spells_var hc)
  | unary op a ih =>
    have ha := (ih hc).1.enclose
    have hfunction (hop : op ∈ UnaryOp.functions) :=
      Spells.function hop ha.toPostfixed.toOperand
    cases op with
    | negate => exact hoperand ha.toPostfixed.toOperand.negate
    | percent => exact hoperand ha.toPostfixed.percent.toOperand
    | _ => exact hoperand (hfunction (by decide))
  | binary op a b iha ihb =>
    have hside {g : Formula Float} (h : Spells .expression g.toChars g.unsigned ∧
        (g.needsParens = false → Spells .operand g.toChars g.unsigned)) :
        Spells .operand (if g.needsParens then enclose g.toChars else g.toChars) g.unsigned := by
      split
      · exact h.1.enclose.toPostfixed.toOperand
      · next hg => exact h.2 (eq_false_of_ne_true hg)
    exact ⟨.infixed op (hside (iha hc.1)) (hside (ihb hc.2)), nofun⟩

/-! ## Simplifying -/

theorem simplifyOnce_unsigned {Q : String → Prop} (hc : f.Forall IsConstant Q) :
    f.unsigned.simplifyOnce = f.simplifyOnce := by
  induction f with
  | const v =>
    by_cases hv : v < 0
    · have hneg := isConstant_neg hc hv
      obtain ⟨m, q, hm, h⟩ := unpacked_neg_of_lt_zero hc hv
      have hnum : (const (-v)).isUndefined = false := by
        simp only [isUndefined, Scalar.isNumber, isNaN_of_unpacked h, Bool.not_false, Bool.not_true]
      rw [unsigned_const_of_lt_zero hv, neg_eq, simplifyOnce_unary, simplifyOnce_const,
        ofValue_eq_const hneg, hnum, if_neg (by decide)]
      exact congrArg ofValue (neg_neg v)
    · rw [unsigned_const hv]
  | var x => rfl
  | unary op a ih => simp only [unsigned, simplifyOnce_unary, ih hc]
  | binary op a b iha ihb => simp only [unsigned, simplifyOnce_binary, iha hc.1, ihb hc.2]

theorem forall_unsigned {Q : String → Prop} (hc : f.Forall IsConstant Q) :
    f.unsigned.Forall IsConstant Q := by
  induction f with
  | const v =>
    by_cases hv : v < 0
    · rw [unsigned_const_of_lt_zero hv]
      exact isConstant_neg hc hv
    · rwa [unsigned_const hv]
  | var x => exact hc
  | unary op a ih => exact ih hc
  | binary op a b iha ihb => exact ⟨iha hc.1, ihb hc.2⟩

/-- Passes from a formula that a pass does not change do not change it. -/
theorem simplifyFor_of_simplifyOnce (h : f.simplifyOnce = f) (limit : Nat) :
    (f.simplifyFor limit).value.1 = f := by
  cases limit with
  | zero => rfl
  | succ limit => rw [value_simplifyFor, h, if_pos (beq_self Double.compare_self f)]

/-- Formulas with the same first pass are equivalent. -/
theorem isEquivalent_of_simplifyOnce {Q : String → Prop} {g : Formula Float}
    (hf : f.Forall IsConstant Q) (hg : g.Forall IsConstant Q)
    (h : f.simplifyOnce = g.simplifyOnce) : f.isEquivalent g := by
  have hstop {f : Formula Float} (hf : f.Forall IsConstant Q) (h : f.simplifyOnce == f) :
      f.simplifyOnce = f :=
    eq_of_beq (fun _ _ => Double.eq_of_compare)
      (forall_isConstant_simplifyOnce (hf.imp (fun _ _ => trivial) fun _ h => h)) hf h
  have hsimplify {f : Formula Float} (hf : f.Forall IsConstant Q) :
      f.simplify = (f.simplifyOnce.simplifyFor 255).value.1 := by
    change (f.simplifyFor (255 + 1)).value.1 = _
    rw [value_simplifyFor]
    split
    · next h =>
      have := hstop hf h
      rw [this, simplifyFor_of_simplifyOnce this]
    · rfl
  rw [isEquivalent, hsimplify hf, hsimplify hg, h]
  exact beq_self Double.compare_self _

theorem ofText_eq_unsigned (hc : f.Forall IsConstant fun x => Command.isVariableName x.toList) :
    ofText f.toText = .ok f.unsigned := (spells_toChars hc).1.ofText_eq

/-- The text of a formula is read as the formula with a negation for every negative constant. It
simplifies to the same as the formula. -/
theorem ofText_toText (f : Formula Float)
    (hc : f.Forall IsConstant fun x => Command.isVariableName x.toList) :
    ofText f.toText = .ok f.unsigned ∧ f.unsigned.simplifyOnce = f.simplifyOnce ∧
      f.isEquivalent f.unsigned := by
  have hsame := simplifyOnce_unsigned hc
  exact ⟨ofText_eq_unsigned hc, hsame,
    isEquivalent_of_simplifyOnce hc (forall_unsigned hc) hsame.symm⟩

/-- A negative constant next to a percent sign of a sum. -/
theorem ofText_toText_percent :
    let f : Formula Float := const (-2.5) - unary .percent (var "x" + const Scalar.pi)
    ofText f.toText = .ok f.unsigned ∧ f.unsigned.simplifyOnce = f.simplifyOnce ∧
      f.isEquivalent f.unsigned := by
  have hconstants : IsConstant (-2.5) ∧ IsConstant Scalar.pi := by decide
  have hname : Command.isVariableName "x".toList := by decide
  exact ofText_toText _ ⟨hconstants.1, hname, hconstants.2⟩

end Formula
end SymCalc
