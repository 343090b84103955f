import SymCalc.Formula.OfExpr
import SymCalc.Proofs.Formula.Meaning
import SymCalc.Proofs.Scalar.ExactValue

/-!
# The meaning of a syntax tree

* `Formula.map`: a formula with other constants;
* `Expr.valueAt`, `Expr.DefinedAt`: the value of a syntax tree at an assignment of reals to the names in
  it, and where it has one.

In a syntax tree `^` is the power of reals, with a positive base. The formula of the tree has no powers,
but it has the same value (`Formula.hasValue_ofExpr`), with constants in doubles as well as with exact
ones.
-/

namespace SymCalc

namespace Formula

/-- The formula with `g v` in place of every constant `v`. -/
def map {α β : Type} (g : α → β) : Formula α → Formula β
  | const v => const (g v)
  | var x => var x
  | unary op a => unary op (a.map g)
  | binary op a b => binary op (a.map g) (b.map g)

theorem map_id {α : Type} (f : Formula α) : f.map id = f := by
  induction f with
  | const v => rfl
  | var x => rfl
  | unary op a ih => rw [map, ih]
  | binary op a b iha ihb => rw [map, iha, ihb]

end Formula

/-! ## Syntax trees -/

namespace Expr

/-- The value of a syntax tree at `ρ`, with numerals read by `read`. It means something only if the tree
is defined there. -/
noncomputable def valueAt (read : Decimal → Exact) (ρ : String → ℝ) : Expr → ℝ
  | number d _ => (read d).toReal
  | symbol "PI" _ => Real.pi
  | symbol "E" _ => Real.exp 1
  | symbol name _ => ρ name
  | paren inner _ => inner.valueAt read ρ
  | unary op _ operand _ => op.onReal (operand.valueAt read ρ)
  | binary .power _ lhs rhs _ => lhs.valueAt read ρ ^ rhs.valueAt read ρ
  | binary (.arith op) _ lhs rhs _ => op.onReals (lhs.valueAt read ρ) (rhs.valueAt read ρ)

/-- Whether a syntax tree is defined at `ρ`: its numerals are read as numbers, the name `UNDEFINED` does
not occur, every base of a power is positive, and every operator admits its operands. -/
def DefinedAt (read : Decimal → Exact) (ρ : String → ℝ) : Expr → Prop
  | number d _ => Scalar.isNumber (read d)
  | symbol name _ => name ≠ "UNDEFINED"
  | paren inner _ => inner.DefinedAt read ρ
  | unary op _ operand _ => operand.DefinedAt read ρ ∧ op.Admits (operand.valueAt read ρ)
  | binary .power _ lhs rhs _ =>
    lhs.DefinedAt read ρ ∧ rhs.DefinedAt read ρ ∧ 0 < lhs.valueAt read ρ
  | binary (.arith op) _ lhs rhs _ => lhs.DefinedAt read ρ ∧ rhs.DefinedAt read ρ ∧
    op.Admits (lhs.valueAt read ρ) (rhs.valueAt read ρ)

end Expr

/-! ## Formulas of syntax trees -/

namespace Formula

open Scalar

section
variable {α : Type} [Scalar α] {read : α → Exact} {ρ : String → ℝ} {a b : Formula α} {v : α}
  {x y : ℝ} {name : String}

theorem map_product (hone : read 1 = 1) (fs : List (Formula α)) :
    (product fs).map read = product (fs.map (map read)) := by
  have hfold (f : Formula α) (fs : List (Formula α)) :
      (fs.foldl (· * ·) f).map read = (fs.map (map read)).foldl (· * ·) (f.map read) := by
    induction fs generalizing f with
    | nil => rfl
    | cons g fs ih => exact ih (f * g)
  cases fs with
  | nil => exact congrArg const hone
  | cons f fs => exact hfold f fs

theorem map_power (hone : read 1 = 1) (f : Formula α) (n : ℕ) :
    (f.power n).map read = (f.map read).power n := by
  rw [power, map_product hone, List.map_replicate, power]

variable [LawfulScalar α]

/-- The constant for a value stands for what the value does. -/
theorem hasValue_map_ofValue (h : IsReading read) (hv : isNumber (read v)) :
    ((ofValue v).map read).HasValue ρ (read v).toReal := by
  obtain ⟨w, hw, -, hvw⟩ := exists_ofValue_of_isFinite (h.isNumber_iff.1 hv)
  rw [hw, map, ← h.congr hvw]
  exact ⟨hv, rfl⟩

/-- The formula for a power with a positive base has the value of the power. -/
theorem hasValue_map_ofPower (h : IsReading read) (ha : (a.map read).HasValue ρ x)
    (hb : (b.map read).HasValue ρ y) (hx : 0 < x) : ((ofPower a b).map read).HasValue ρ (x ^ y) := by
  have hexp : ((unary .exp (b * unary .ln a)).map read).HasValue ρ (x ^ y) := by
    rw [Real.rpow_def_of_pos hx, mul_comm]
    exact (hb.binary .mul (ha.unary .ln hx) trivial).unary .exp trivial
  unfold ofPower
  split
  · next v =>
    have hv : read v = .number y := exists_of_hasValue_const hb
    rw [if_pos (LawfulScalar.isNumber_of_isFinite (h.isNumber_iff.1 (hv ▸ rfl)))]
    split
    · next n hn =>
      obtain rfl : (n : ℝ) = y := Exact.number.inj ((h.of_toCount? hn).symm.trans hv)
      rw [map_power h.one, Real.rpow_natCast]
      exact hasValue_power ha n
    · exact hexp
  · exact hexp

/-- The formula of a syntax tree is defined where the tree is, and it has the same value. -/
theorem hasValue_map_ofExpr (h : IsReading read) {e : Expr}
    (he : e.DefinedAt (fun d => read (ofDecimal d)) ρ) :
    ((ofExpr e : Formula α).map read).HasValue ρ (e.valueAt (fun d => read (ofDecimal d)) ρ) := by
  induction e with
  | number d s => exact hasValue_map_ofValue h he
  | symbol name s =>
    have hundefined : name ≠ "UNDEFINED" := he
    rw [ofExpr, constantNamed?]
    by_cases hpi : name = "PI"
    · subst hpi
      rw [if_pos rfl, Option.getD_some, map, h.pi, Expr.valueAt]
      exact hasValue_number _
    · by_cases heuler : name = "E"
      · subst heuler
        rw [if_neg hpi, if_pos rfl, Option.getD_some, map, h.euler, Expr.valueAt]
        exact hasValue_number _
      · rw [if_neg hpi, if_neg heuler, if_neg hundefined, Option.getD_none, map, Expr.valueAt]
        · exact ⟨trivial, rfl⟩
        · exact hpi
        · exact heuler
  | paren inner s ih => exact ih he
  | unary op s' operand s ih => exact (ih he.1).unary op he.2
  | binary op s' lhs rhs s ihl ihr =>
    cases op with
    | power => exact hasValue_map_ofPower h (ihl he.1) (ihr he.2.1) he.2.2
    | arith op => exact (ihl he.1).binary op (ihr he.2.1) he.2.2

end

/-- The formula of a syntax tree is defined where the tree is, and it has the same value, if numerals and
constants are doubles and if they are exact. -/
theorem hasValue_ofExpr (e : Expr) (ρ : String → ℝ) :
    (e.DefinedAt (fun d => Double.exact d.toDouble) ρ →
      ((ofExpr e : Formula Float).map Double.exact).HasValue ρ
        (e.valueAt (fun d => Double.exact d.toDouble) ρ)) ∧
    (e.DefinedAt Scalar.ofDecimal ρ →
      (ofExpr e : Formula Exact).HasValue ρ (e.valueAt Scalar.ofDecimal ρ)) := by
  refine ⟨hasValue_map_ofExpr Double.isReading_exact, fun h => ?_⟩
  rw [← map_id (ofExpr e)]
  exact hasValue_map_ofExpr Exact.isReading_id h

/-- `2^(x^2)` at `x = 3`, where the inner power is a product and the outer one is not. -/
theorem hasValue_ofExpr_tower :
    let e : Expr := .binary .power ⟨1, 2⟩ (.number ⟨2, 0⟩ ⟨0, 1⟩) (.paren (.binary .power ⟨4, 5⟩
      (.symbol "x" ⟨3, 4⟩) (.number ⟨2, 0⟩ ⟨5, 6⟩) ⟨3, 6⟩) ⟨2, 7⟩) ⟨0, 7⟩
    let ρ : String → ℝ := fun _ => 3
    (e.DefinedAt (fun d => Double.exact d.toDouble) ρ ∧ e.DefinedAt Scalar.ofDecimal ρ) ∧
      ((ofExpr e : Formula Float).map Double.exact).HasValue ρ
        (e.valueAt (fun d => Double.exact d.toDouble) ρ) ∧
      (ofExpr e : Formula Exact).HasValue ρ (e.valueAt Scalar.ofDecimal ρ) := by
  intro e ρ
  have hname : "x" ≠ "UNDEFINED" := by decide
  have hdefined (read : Decimal → Exact) (h : read ⟨2, 0⟩ = .number (2 : ℕ)) :
      e.DefinedAt read ρ := by
    have hread : Scalar.isNumber (read ⟨2, 0⟩) ∧ 0 < (read ⟨2, 0⟩).toReal := by simp [h]
    exact ⟨hread.1, ⟨hname, hread.1, three_pos⟩, hread.2⟩
  have hdouble := hdefined (fun d => Double.exact d.toDouble)
    (Double.isReading_exact.ofNat (n := 2) (by decide))
  have hexact := hdefined Scalar.ofDecimal (Exact.isReading_id.ofNat (n := 2) (by decide))
  exact ⟨⟨hdouble, hexact⟩, (hasValue_ofExpr e ρ).1 hdouble, (hasValue_ofExpr e ρ).2 hexact⟩

end Formula
end SymCalc
