import SymCalc.Proofs.Scalar.Lawful
import SymCalc.Proofs.Simplify.Shape

/-!
# The weight of a formula

* `Formula.weight`: the size of a formula, in which signs count nothing and exponentials count so
  much that a power written out is lighter than the exponential it comes from;
* `Monomial.weight`: the weight of the formula for a monomial.

The monomial of a product is not heavier than the product (`Monomial.weight_le_of?`): its
coefficient is only written down if there is a constant in the product.
-/

namespace SymCalc

namespace Formula

variable {α : Type}

/-- The number of operators and leaves, in a measure that fits the rules. -/
def weight : Formula α → Nat
  | const _ => 1
  | var _ => 2
  | unary .negate a => a.weight
  | unary .exp a => 100 * a.weight + 2
  | unary _ a => a.weight + 2
  | binary _ a b => a.weight + b.weight

/-- The weight of several formulas. -/
def weightSum (fs : List (Formula α)) : Nat := (fs.map weight).sum

@[simp] theorem weightSum_nil : weightSum ([] : List (Formula α)) = 0 := rfl

@[simp] theorem weightSum_cons (f : Formula α) (fs : List (Formula α)) :
    weightSum (f :: fs) = f.weight + weightSum fs := rfl

@[simp] theorem weightSum_append (fs gs : List (Formula α)) :
    weightSum (fs ++ gs) = weightSum fs + weightSum gs := by
  simp [weightSum]

theorem weightSum_perm {fs gs : List (Formula α)} (h : fs.Perm gs) :
    weightSum fs = weightSum gs := (h.map weight).sum_nat

@[simp] theorem weight_negate (f : Formula α) : (unary .negate f).weight = f.weight := rfl

@[simp] theorem weight_binary (op : ArithOp) (f g : Formula α) :
    (binary op f g).weight = f.weight + g.weight := rfl

theorem weight_pos (f : Formula α) : 0 < f.weight := by
  induction f with
  | const v | var x => simp [weight]
  | unary op a ih => cases op <;> simp only [weight] <;> omega
  | binary op a b iha ihb =>
    rw [weight_binary]
    omega

theorem weight_foldl (op : ArithOp) (f : Formula α) (fs : List (Formula α)) :
    (fs.foldl (binary op) f).weight = f.weight + weightSum fs := by
  induction fs generalizing f with
  | nil => rfl
  | cons g fs ih =>
    rw [List.foldl_cons, ih, weight_binary, weightSum_cons]
    omega

variable [Scalar α]

@[simp] theorem weight_ofValue (v : α) : (ofValue v).weight = 1 := by
  unfold ofValue undefined
  split
  · split <;> rfl
  · rfl

theorem weight_sum {fs : List (Formula α)} (h : fs ≠ []) : (sum fs).weight = weightSum fs := by
  cases fs with
  | nil => exact absurd rfl h
  | cons f fs => exact weight_foldl .add f fs

theorem weight_product {fs : List (Formula α)} (h : fs ≠ []) :
    (product fs).weight = weightSum fs := by
  cases fs with
  | nil => exact absurd rfl h
  | cons f fs => exact weight_foldl .mul f fs

end Formula

open Formula

variable {α : Type}

/-! ## Monomials -/

/-- The weight of a piece of a product. -/
def Piece.weight : Piece α → Nat
  | negation => 0
  | const _ _ => 1
  | factor f _ => f.weight

theorem Formula.sum_weight_pieces (f : Formula α) (below : Bool) :
    ((f.pieces below).map Piece.weight).sum = f.weight := by
  induction f generalizing below with
  | const v => rfl
  | var x => rfl
  | unary op a ih =>
    cases op with
    | negate => simp [pieces, Piece.weight, ih]
    | _ => rfl
  | binary op a b iha ihb =>
    cases op with
    | mul | div => simp [pieces, iha, ihb]
    | add | sub => simp [pieces, Piece.weight]

theorem sum_weight_eq (ps : List (Piece α)) : (ps.map Piece.weight).sum =
    ps.countP Piece.isConst + (weightSum (ps.filterMap (·.factor? false)) +
      weightSum (ps.filterMap (·.factor? true))) := by
  induction ps with
  | nil => rfl
  | cons p ps ih =>
    rw [List.map_cons, List.sum_cons, ih]
    cases p with
    | negation => simp [Piece.weight, Piece.isConst, Piece.factor?]
    | const v b =>
      simp only [Piece.weight, Piece.isConst, Piece.factor?, List.countP_cons,
        List.filterMap_cons]
      simp
      omega
    | factor f b =>
      cases b <;> simp [Piece.weight, Piece.isConst, Piece.factor?] <;> omega

namespace Monomial

variable [Scalar α]

/-- The weight of the factors. -/
def factorWeight (m : Monomial α) : Nat := weightSum m.numer + weightSum m.denom

/-- Whether the coefficient is written down. -/
def showsCoeff (m : Monomial α) : Bool := m.numer.isEmpty || !(m.coeff == 1 || m.coeff == -1)

/-- The weight of the formula for the monomial. -/
def weight (m : Monomial α) : Nat := m.showsCoeff.toNat + m.factorWeight

theorem weight_numerator (m : Monomial α) :
    m.numerator.weight = m.showsCoeff.toNat + weightSum m.numer := by
  unfold numerator showsCoeff
  split
  · next h => simp [h]
  · next hne =>
    rw [List.isEmpty_eq_false_iff.2 hne, Bool.false_or]
    cases h1 : m.coeff == 1 with
    | true => simp [weight_product hne]
    | false =>
      cases hneg : m.coeff == -1 with
      | true => simp [neg_eq, weight_product hne]
      | false => simp [weight_product]

theorem weight_toFormula (m : Monomial α) : m.toFormula.weight = m.weight := by
  rw [weight, factorWeight]
  unfold toFormula
  split
  · next h => simp [h, weight_numerator]
  · next hne =>
    rw [div_eq, weight_binary, weight_numerator, weight_product hne]
    omega

/-! ### The monomial of a product -/

variable {m : Monomial α}

theorem factorWeight_of? {f : Formula α} (h : of? f = some m) :
    (f.pieces false).countP Piece.isConst + m.factorWeight = f.weight := by
  obtain ⟨-, -, rfl⟩ := eq_of_ofPieces? h
  rw [← sum_weight_pieces f false, sum_weight_eq, factorWeight]

end Monomial

/-- There is a constant or another factor on the side of the fraction bar that the chain is on. -/
theorem Formula.exists_mem_pieces (f : Formula α) (below : Bool) :
    (∃ v, .const v below ∈ f.pieces below) ∨ ∃ g, .factor g below ∈ f.pieces below := by
  induction f generalizing below with
  | const v => exact .inl ⟨v, List.mem_singleton.2 rfl⟩
  | var x => exact .inr ⟨var x, List.mem_singleton.2 rfl⟩
  | unary op a ih =>
    cases op with
    | negate =>
      exact (ih below).imp (Exists.imp fun v => List.mem_cons_of_mem _)
        (Exists.imp fun g => List.mem_cons_of_mem _)
    | _ => exact .inr ⟨_, List.mem_singleton.2 rfl⟩
  | binary op a b iha ihb =>
    cases op with
    | mul | div =>
      exact (iha below).imp (Exists.imp fun v => List.mem_append_left _)
        (Exists.imp fun g => List.mem_append_left _)
    | add | sub => exact .inr ⟨_, List.mem_singleton.2 rfl⟩

variable [Scalar α]

namespace Monomial

/-- The weight of several terms. -/
def totalWeight (terms : List (Monomial α)) : Nat := (terms.map weight).sum

@[simp] theorem totalWeight_nil : totalWeight ([] : List (Monomial α)) = 0 := rfl

@[simp] theorem totalWeight_cons (m : Monomial α) (terms : List (Monomial α)) :
    totalWeight (m :: terms) = m.weight + totalWeight terms := rfl

@[simp] theorem totalWeight_append (terms terms' : List (Monomial α)) :
    totalWeight (terms ++ terms') = totalWeight terms + totalWeight terms' := by
  simp [totalWeight]

theorem totalWeight_perm {terms terms' : List (Monomial α)} (h : terms.Perm terms') :
    totalWeight terms = totalWeight terms' := (h.map weight).sum_nat

theorem factorWeight_le (m : Monomial α) : m.factorWeight ≤ m.weight := Nat.le_add_left ..

theorem weight_le (m : Monomial α) : m.weight ≤ m.factorWeight + 1 := by
  have := Bool.toNat_le m.showsCoeff
  rw [weight]
  omega

end Monomial

/-! ## The coefficient -/

variable [LawfulScalar α]

/-- Without constants, the pieces only decide the sign. -/
theorem foldl_above_of_countP {ps : List (Piece α)} (h : ps.countP Piece.isConst = 0) (v : α) :
    ps.foldl Piece.above v = v ∨ ps.foldl Piece.above v = -v := by
  induction ps generalizing v with
  | nil => exact .inl rfl
  | cons p ps ih =>
    have hps : ps.countP Piece.isConst = 0 := by
      rw [List.countP_eq_zero] at *
      exact fun p hp => h p (List.mem_cons_of_mem _ hp)
    cases p with
    | const w b => simp [Piece.isConst] at h
    | factor f b => exact ih hps v
    | negation =>
      have h := ih hps (-v)
      rw [LawfulScalar.neg_neg] at h
      exact h.symm

omit [LawfulScalar α] in
theorem foldl_under_of_countP {ps : List (Piece α)} (h : ps.countP Piece.isConst = 0) (v : α) :
    ps.foldl Piece.under v = v := by
  induction ps with
  | nil => rfl
  | cons p ps ih =>
    rw [List.countP_eq_zero] at h ih
    cases p with
    | const w b => exact absurd rfl (h _ List.mem_cons_self)
    | factor f b | negation => exact ih fun p hp => h p (List.mem_cons_of_mem _ hp)

namespace Monomial

variable {m : Monomial α} {f : Formula α}

/-- A coefficient that is written down comes from a constant. -/
theorem showsCoeff_le_of? (h : of? f = some m) :
    m.showsCoeff.toNat ≤ (f.pieces false).countP Piece.isConst := by
  obtain ⟨-, -, rfl⟩ := eq_of_ofPieces? h
  by_cases hconst : (f.pieces false).countP Piece.isConst = 0
  · have hnumer : (f.pieces false).filterMap (·.factor? false) ≠ [] := by
      rcases f.exists_mem_pieces false with ⟨v, hv⟩ | ⟨g, hg⟩
      · exact absurd rfl (List.countP_eq_zero.1 hconst _ hv)
      · exact List.ne_nil_of_mem (List.mem_filterMap.2 ⟨_, hg, rfl⟩)
    rw [showsCoeff, List.isEmpty_eq_false_iff.2 hnumer, foldl_under_of_countP hconst]
    rcases foldl_above_of_countP hconst (1 : α) with h | h <;> simp [h]
  · exact (Bool.toNat_le _).trans (Nat.one_le_iff_ne_zero.2 hconst)

theorem weight_le_of? (h : of? f = some m) : m.weight ≤ f.weight := by
  rw [← factorWeight_of? h, weight]
  exact Nat.add_le_add_right (showsCoeff_le_of? h) _

end Monomial

end SymCalc
