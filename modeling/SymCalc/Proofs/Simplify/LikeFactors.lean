import Mathlib
import SymCalc.Proofs.Formula.Equality
import SymCalc.Proofs.Simplify.SumOrder

/-!
# Like factors

* `Piece.coeff`: the number that a piece of a product contributes to the coefficient;
* `Formula.IsPart`: whether a formula can be an operand of a settled one.

The monomial of a product is determined by its pieces in any order (`Monomial.of?_perm`). So settled
formulas that are equal up to the order of operands are equal, if constants are exact
(`Formula.IsPart.eq_of_isSame`), and factors cancel only if they are equal.
-/

namespace SymCalc

open Scalar Formula

variable {f g : Formula Exact} {m n : Monomial Exact} {p : Piece Exact} {ps qs : List (Piece Exact)}
  {v w : Exact}

instance : LawfulBEq (Formula Exact) where
  eq_of_beq := eq_of_beq_exact
  rfl := BEq.rfl

/-- If constants are exact, then a list of formulas has one sorted arrangement. -/
theorem Formula.sort_eq_sort_of_perm {fs gs : List (Formula Exact)} (h : fs.Perm gs) :
    sort fs = sort gs := by
  have hsort := (forall₂_sort_of_perm h).imp fun _ _ => LawfulBEq.eq_of_beq
  rwa [List.forall₂_eq_eq_eq] at hsort

/-! ## The monomial of a product -/

theorem Exact.isNumber_mul (v w : Exact) :
    Scalar.isNumber (v * w) = (Scalar.isNumber v && Scalar.isNumber w) := by
  cases v with
  | undefined => rfl
  | number x => cases w <;> rfl

theorem Exact.isNumber_div (h : Scalar.isNumber (v / w)) :
    Scalar.isNumber v ∧ Scalar.isNumber w ∧ w.toReal ≠ 0 := by
  cases v with
  | undefined => cases h
  | number x =>
    cases w with
    | undefined => cases h
    | number y =>
      refine ⟨rfl, rfl, fun hy => ?_⟩
      rw [toReal_number] at hy
      rw [hy, div_number, numberIf_neg (not_not.2 rfl)] at h
      cases h

namespace Piece

/-- Whether the piece contributes a number, and no zero to the denominator. -/
structure IsSafe (p : Piece Exact) : Prop where
  above : Scalar.isNumber (p.above 1)
  under : Scalar.isNumber (p.under 1)
  ne_zero : (p.under 1).toReal ≠ 0

/-- The number that the piece contributes to the coefficient. -/
noncomputable def coeff (p : Piece Exact) : ℝ := (p.above 1).toReal / (p.under 1).toReal

theorem toReal_above (v : Exact) (p : Piece Exact) :
    (p.above v).toReal = v.toReal * (p.above 1).toReal := by
  cases p with
  | const u below => cases below <;> simp [above]
  | _ => simp [above]

theorem toReal_under (v : Exact) (p : Piece Exact) :
    (p.under v).toReal = v.toReal * (p.under 1).toReal := by
  cases p with
  | const u below => cases below <;> simp [under]
  | _ => simp [under]

theorem isNumber_above (v : Exact) (p : Piece Exact) : Scalar.isNumber (p.above v) =
    (Scalar.isNumber v && Scalar.isNumber (p.above 1)) := by
  have hone : Scalar.isNumber (1 : Exact) = true := rfl
  cases p with
  | const u below => cases below <;> simp [above, Exact.isNumber_mul, hone]
  | negation =>
    have hneg : Scalar.isNumber (-v) = Scalar.isNumber v := LawfulScalar.isFinite_neg v
    have hone : Scalar.isNumber (-1 : Exact) = true := rfl
    simp [above, hneg, hone]
  | factor f below => simp [above, hone]

theorem isNumber_under (v : Exact) (p : Piece Exact) : Scalar.isNumber (p.under v) =
    (Scalar.isNumber v && Scalar.isNumber (p.under 1)) := by
  have hone : Scalar.isNumber (1 : Exact) = true := rfl
  cases p with
  | const u below => cases below <;> simp [under, Exact.isNumber_mul, hone]
  | _ => simp [under, hone]

end Piece

theorem toReal_foldl_pieces (v w : Exact) (ps : List (Piece Exact)) :
    (ps.foldl Piece.above v).toReal / (ps.foldl Piece.under w).toReal =
      v.toReal / w.toReal * (ps.map Piece.coeff).prod := by
  induction ps generalizing v w with
  | nil => simp
  | cons p ps ih =>
    rw [List.foldl_cons, List.foldl_cons, ih, List.map_cons, List.prod_cons, p.toReal_above,
      p.toReal_under, Piece.coeff]
    ring

theorem isNumber_foldl_pieces (v w : Exact) (ps : List (Piece Exact)) :
    (Scalar.isNumber (ps.foldl Piece.above v) ∧ Scalar.isNumber (ps.foldl Piece.under w) ∧
        (ps.foldl Piece.under w).toReal ≠ 0) ↔
      (Scalar.isNumber v ∧ Scalar.isNumber w ∧ w.toReal ≠ 0) ∧ ∀ p ∈ ps, p.IsSafe := by
  induction ps generalizing v w with
  | nil => simp
  | cons p ps ih =>
    have hsafe : p.IsSafe ↔ Scalar.isNumber (p.above 1) ∧ Scalar.isNumber (p.under 1) ∧
        (p.under 1).toReal ≠ 0 := ⟨fun ⟨h₁, h₂, h₃⟩ => ⟨h₁, h₂, h₃⟩, fun ⟨h₁, h₂, h₃⟩ => ⟨h₁, h₂, h₃⟩⟩
    rw [List.foldl_cons, List.foldl_cons, ih, p.isNumber_above, p.isNumber_under, p.toReal_under,
      Bool.and_eq_true, Bool.and_eq_true, mul_ne_zero_iff, List.forall_mem_cons, hsafe]
    tauto

namespace Monomial

/-- The monomial that pieces make up. -/
theorem ofPieces?_eq_some_iff : ofPieces? ps = some m ↔ (∀ p ∈ ps, p.IsSafe) ∧
    m = ⟨.number (ps.map Piece.coeff).prod, ps.filterMap (·.factor? false),
      ps.filterMap (·.factor? true)⟩ := by
  have hone : Scalar.isNumber (1 : Exact) ∧ Scalar.isNumber (1 : Exact) ∧
      (1 : Exact).toReal ≠ 0 := ⟨rfl, rfl, one_ne_zero⟩
  have hsafe := isNumber_foldl_pieces 1 1 ps
  have hcoeff := toReal_foldl_pieces 1 1 ps
  rw [Exact.toReal_one, div_one, one_mul] at hcoeff
  constructor
  · intro h
    obtain ⟨-, hfin, rfl⟩ := eq_of_ofPieces? h
    refine ⟨(hsafe.1 (Exact.isNumber_div hfin)).2, ?_⟩
    have heq : ps.foldl Piece.above 1 / ps.foldl Piece.under 1 = .number (ps.map Piece.coeff).prod :=
      Exact.eq_of_toReal hfin rfl ((Exact.toReal_div ..).trans hcoeff)
    rw [heq]
  · rintro ⟨hps, rfl⟩
    obtain ⟨habove, hunder, h0⟩ := hsafe.2 ⟨hone, hps⟩
    obtain ⟨x, hx⟩ := Exact.exists_number habove
    obtain ⟨y, hy⟩ := Exact.exists_number hunder
    rw [hx, hy, Exact.toReal_number, Exact.toReal_number] at hcoeff
    rw [hy, Exact.toReal_number] at h0
    have hne : ¬ (Exact.number y == 0) := fun h => h0 (Exact.beq_number.1 h)
    simp only [ofPieces?, hx, hy, if_neg hne, Exact.div_number, Exact.numberIf_pos h0, hcoeff]
    rfl

/-- The product of two monomials. -/
noncomputable def mul (m n : Monomial Exact) : Monomial Exact :=
  ⟨m.coeff * n.coeff, m.numer ++ n.numer, m.denom ++ n.denom⟩

theorem of?_mul (hf : of? f = some m) (hg : of? g = some n) : of? (f * g) = some (m.mul n) := by
  obtain ⟨hfs, rfl⟩ := ofPieces?_eq_some_iff.1 hf
  obtain ⟨hgs, rfl⟩ := ofPieces?_eq_some_iff.1 hg
  refine ofPieces?_eq_some_iff.2 ⟨List.forall_mem_append.2 ⟨hfs, hgs⟩, ?_⟩
  have hpieces : (f * g).pieces false = f.pieces false ++ g.pieces false := rfl
  rw [hpieces, List.map_append, List.prod_append, List.filterMap_append, List.filterMap_append]
  rfl

theorem of?_perm (hf : of? f = some m) (hp : (f.pieces false).Perm (g.pieces false)) :
    ∃ n, of? g = some n ∧ m.coeff = n.coeff ∧ m.numer.Perm n.numer ∧ m.denom.Perm n.denom := by
  obtain ⟨hfs, rfl⟩ := ofPieces?_eq_some_iff.1 hf
  refine ⟨_, ofPieces?_eq_some_iff.2 ⟨fun p hpg => hfs p (hp.mem_iff.2 hpg), rfl⟩, ?_, ?_, ?_⟩
  · exact congrArg Exact.number (hp.map _).prod_eq
  · exact hp.filterMap _
  · exact hp.filterMap _

theorem of?_of_isFactor (h : f.isFactor) : of? f = some ⟨1, [f], []⟩ := by
  refine ofPieces?_eq_some_iff.2 ⟨?_, ?_⟩
  · rw [pieces_of_isFactor h]
    exact List.forall_mem_singleton.2 ⟨rfl, rfl, one_ne_zero⟩
  · simp [pieces_of_isFactor h, Piece.coeff, Piece.above, Piece.under, Piece.factor?, Exact.one_eq]

theorem sorted_eq_of_perm (hcoeff : m.coeff = n.coeff) (hnumer : m.numer.Perm n.numer)
    (hdenom : m.denom.Perm n.denom) : m.sorted = n.sorted := by
  rw [sorted, sorted, hcoeff, sort_eq_sort_of_perm hnumer, sort_eq_sort_of_perm hdenom]

end Monomial

/-! ## Equality up to the order of operands -/

namespace Formula

variable {a b : Formula Exact} {op : ArithOp} {k : ℕ}

theorem IsSettled.exists_of? (h : f.IsSettled k) : ∃ m, Monomial.of? f = some m := by
  have hfactor (f : Formula Exact) (hf : f.isFactor) : ∃ m, Monomial.of? f = some m :=
    ⟨_, Monomial.of?_of_isFactor hf⟩
  have hproduct {f : Formula Exact} (hf : 2 ≤ f.weight) (h : f.normalizeProduct.value = f) :
      ∃ m, Monomial.of? f = some m := (exists_monomial_of_normalizeProduct hf h).imp fun _ h => h.1
  induction h with
  | @const v hv =>
    refine ⟨_, Monomial.ofPieces?_eq_some_iff.2 ⟨List.forall_mem_singleton.2 ⟨?_, rfl, one_ne_zero⟩, rfl⟩⟩
    exact (Exact.isNumber_mul 1 v).trans hv.isFinite
  | var x => exact hfactor _ rfl
  | @unary op a _ _ ih =>
    cases op with
    | negate =>
      obtain ⟨m, hm⟩ := ih
      refine ⟨_, Monomial.ofPieces?_eq_some_iff.2 ⟨List.forall_mem_cons.2 ⟨?_, ?_⟩, rfl⟩⟩
      · exact ⟨rfl, rfl, one_ne_zero⟩
      · exact (Monomial.ofPieces?_eq_some_iff.1 hm).1
    | _ => exact hfactor _ rfl
  | @binary op a b _ _ h _ _ =>
    have hweight : 2 ≤ (Formula.binary op a b).weight := Nat.add_le_add a.weight_pos b.weight_pos
    cases op with
    | add | sub => exact hfactor _ rfl
    | mul | div => exact hproduct hweight h
  | @quotient s b _ _ _ _ h _ _ => exact hproduct (Nat.add_le_add s.weight_pos b.weight_pos) h

/-- Whether the formula is settled or the negation of a settled one, as all operands of settled formulas
are. -/
def IsPart (k : ℕ) (f : Formula Exact) : Prop :=
  f.IsSettled k ∨ ∃ s : Formula Exact, f = unary .negate s ∧ s.IsSettled k

theorem IsPart.of_unary {op : UnaryOp} (h : IsPart k (unary op a)) : IsPart k a := by
  rcases h with h | ⟨s, heq, hs⟩
  · cases h with
    | unary ha _ => exact .inl ha
  · cases heq
    exact .inl hs

theorem IsPart.isSettled_binary (h : IsPart k (binary op a b)) :
    IsSettled k (binary op a b) := by
  rcases h with h | ⟨s, heq, -⟩
  · exact h
  · cases heq

theorem IsPart.of_binary (h : IsPart k (binary op a b)) : IsPart k a ∧ IsPart k b := by
  cases h.isSettled_binary with
  | binary ha hb _ => exact ⟨.inl ha, .inl hb⟩
  | quotient hs _ hb _ _ => exact ⟨.inr ⟨_, rfl, hs⟩, .inl hb⟩

theorem IsPart.of_mem_operands (h : IsPart k f) (hg : g ∈ f.operands op) : IsPart k g := by
  induction f with
  | binary op' a b iha ihb =>
    rw [operands] at hg
    split at hg
    · exact (List.mem_append.1 hg).elim (iha h.of_binary.1) (ihb h.of_binary.2)
    · rwa [List.mem_singleton.1 hg]
  | _ => rwa [List.mem_singleton.1 hg]

theorem flatMap_operands_add (f : Formula Exact) (negative : Bool) :
    (f.operands .add).flatMap (·.signedTerms negative) = f.signedTerms negative := by
  induction f with
  | binary op a b iha ihb =>
    cases op with
    | add => simp [operands, signedTerms, iha, ihb]
    | _ => simp [operands]
  | _ => simp [operands]

theorem flatMap_operands_mul (f : Formula Exact) (below : Bool) :
    (f.operands .mul).flatMap (·.pieces below) = f.pieces below := by
  induction f with
  | binary op a b iha ihb =>
    cases op with
    | mul => simp [operands, pieces, iha, ihb]
    | _ => simp [operands]
  | _ => simp [operands]

theorem eq_of_operands_add (hf : IsSettled k (binary .add a b)) (hg : IsSettled k (binary .add f g))
    (hp : ((binary .add a b).operands .add).Perm ((binary .add f g).operands .add)) :
    binary .add a b = binary .add f g := by
  have hterms := hp.flatMap_right (·.signedTerms false)
  rw [flatMap_operands_add, flatMap_operands_add] at hterms
  obtain ⟨ns, hns, hperm⟩ := hf.hasTerms.1.perm hterms
  have hvalue := normalizeSum_congr hf.hasTerms.1 hns (.of_perm hperm)
  cases hf with
  | binary _ _ h =>
    cases hg with
    | binary _ _ h' => exact h.symm.trans (hvalue.trans h')

theorem eq_of_operands_mul (hf : IsSettled k (binary .mul a b)) (hg : IsSettled k (binary .mul f g))
    (hp : ((binary .mul a b).operands .mul).Perm ((binary .mul f g).operands .mul)) :
    binary .mul a b = binary .mul f g := by
  have hpieces := hp.flatMap_right (·.pieces false)
  rw [flatMap_operands_mul, flatMap_operands_mul] at hpieces
  have hmonomial {a b : Formula Exact} (h : IsSettled k (binary .mul a b)) :
      ∃ m, Monomial.of? (binary .mul a b) = some m ∧ m.sorted = m ∧
        m.toFormula = binary .mul a b := by
    have hweight : 2 ≤ (binary .mul a b : Formula Exact).weight :=
      Nat.add_le_add a.weight_pos b.weight_pos
    cases h with
    | binary _ _ h =>
      obtain ⟨m, hm, -, hsorted, hform⟩ := exists_monomial_of_normalizeProduct hweight h
      exact ⟨m, hm, hsorted, hform⟩
  obtain ⟨m, hm, hsorted, hform⟩ := hmonomial hf
  obtain ⟨n, hn, hsorted', hform'⟩ := hmonomial hg
  obtain ⟨n', hn', hcoeff, hnumer, hdenom⟩ := Monomial.of?_perm hm hpieces
  cases hn.symm.trans hn'
  rw [← hform, ← hform', ← hsorted, ← hsorted',
    Monomial.sorted_eq_of_perm hcoeff hnumer hdenom]

/-- Settled formulas that are equal up to the order of operands are equal. -/
theorem IsPart.eq_of_isSame (hf : IsPart k f) (hg : IsPart k g) (h : f.isSame g) : f = g := by
  induction hn : f.size using Nat.strong_induction_on generalizing f g with
  | _ n ih =>
    subst hn
    have ih {a b : Formula Exact} (hlt : a.size < f.size) (ha : IsPart k a) (hb : IsPart k b)
        (hab : a.isSame b) : a = b := ih a.size hlt ha hb hab rfl
    rw [isSame.eq_def, Bool.or_eq_true] at h
    rcases h with h | h
    · exact eq_of_beq_exact h
    · cases f with
      | const v | var x => cases h
      | unary op a =>
        cases g with
        | unary op' a' =>
          obtain ⟨hop, ha⟩ := Bool.and_eq_true_iff.1 h
          rw [of_decide_eq_true hop, ih (Nat.lt_succ_self _) hf.of_unary hg.of_unary ha]
        | _ => cases h
      | binary op a b =>
        cases g with
        | binary op' a' b' =>
          simp only [Bool.if_false_right, Bool.and_eq_true, decide_eq_true_eq] at h
          obtain ⟨rfl, h⟩ := h
          split at h
          · next hc =>
            obtain ⟨hl, hm⟩ := Bool.and_eq_true_iff.1 h
            have hoperand {a b x : Formula Exact} (h : IsPart k (binary op a b))
                (hx : x ∈ a.operands op ++ b.operands op) : IsPart k x :=
              (List.mem_append.1 hx).elim h.of_binary.1.of_mem_operands h.of_binary.2.of_mem_operands
            have hperm := @perm_map_of_isSame _ id _ _ (of_decide_eq_true hl)
              (fun x hx y hy hxy =>
                ih (size_lt_of_mem_operands hx) (hoperand hf hx) (hoperand hg hy) hxy) hm
            rw [List.map_id, List.map_id] at hperm
            cases op with
            | add =>
              exact eq_of_operands_add hf.isSettled_binary hg.isSettled_binary
                (by simpa [operands] using hperm)
            | mul =>
              exact eq_of_operands_mul hf.isSettled_binary hg.isSettled_binary
                (by simpa [operands] using hperm)
            | _ => cases hc
          · obtain ⟨ha, hb⟩ := Bool.and_eq_true_iff.1 h
            rw [ih (by simp only [size]; omega) hf.of_binary.1 hg.of_binary.1 ha,
              ih (by simp only [size]; omega) hf.of_binary.2 hg.of_binary.2 hb]
        | _ => cases h

end Formula

end SymCalc
