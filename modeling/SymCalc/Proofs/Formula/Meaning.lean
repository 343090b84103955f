import Mathlib
import SymCalc.Formula.Chain
import SymCalc.Formula.Value
import SymCalc.Proofs.Scalar.Exact
import SymCalc.Proofs.Simplify.Shape

/-!
# The meaning of a formula over the reals

* `Formula.valueAt`: the value at an assignment of reals to the variables;
* `Formula.DefinedAt`: every divisor is nonzero, every argument of a logarithm is positive, every
  argument of a tangent has a nonzero cosine, and no constant is undefined;
* `Formula.HasValue`: the formula is defined and has the given value.

This is what `Formula.eval` computes with exact constants (`Formula.eval_exact`). Formulas that are
the same up to the order of operands have the same value (`Formula.valueAt_eq_of_isSame`).
-/

namespace SymCalc

/-- The function of the reals that the operator stands for. -/
noncomputable def UnaryOp.onReal : UnaryOp → ℝ → ℝ
  | negate, x => -x
  | exp, x => Real.exp x
  | ln, x => Real.log x
  | cos, x => Real.cos x
  | sin, x => Real.sin x
  | tan, x => Real.tan x
  | percent, x => x / 100

/-- The arguments for which the operator is defined. -/
def UnaryOp.Admits : UnaryOp → ℝ → Prop
  | ln, x => 0 < x
  | tan, x => Real.cos x ≠ 0
  | _, _ => True

/-- The function of two reals that the operator stands for. -/
noncomputable def ArithOp.onReals : ArithOp → ℝ → ℝ → ℝ
  | add, x, y => x + y
  | sub, x, y => x - y
  | mul, x, y => x * y
  | div, x, y => x / y

/-- The operands for which the operator is defined. -/
def ArithOp.Admits : ArithOp → ℝ → ℝ → Prop
  | div, _, y => y ≠ 0
  | _, _, _ => True

namespace Formula

/-- The value of the formula at `ρ`. It means something only if the formula is defined there. -/
noncomputable def valueAt (ρ : String → ℝ) : Formula Exact → ℝ
  | const v => v.toReal
  | var x => ρ x
  | unary op a => op.onReal (a.valueAt ρ)
  | binary op a b => op.onReals (a.valueAt ρ) (b.valueAt ρ)

/-- Whether the formula is defined at `ρ`. -/
def DefinedAt (ρ : String → ℝ) : Formula Exact → Prop
  | const v => Scalar.isNumber v
  | var _ => True
  | unary op a => a.DefinedAt ρ ∧ op.Admits (a.valueAt ρ)
  | binary op a b => a.DefinedAt ρ ∧ b.DefinedAt ρ ∧ op.Admits (a.valueAt ρ) (b.valueAt ρ)

/-- The formula is defined at `ρ` and has the value `x` there. -/
def HasValue (ρ : String → ℝ) (f : Formula Exact) (x : ℝ) : Prop :=
  f.DefinedAt ρ ∧ f.valueAt ρ = x

variable {ρ : String → ℝ} {f g : Formula Exact} {fs : List (Formula Exact)} {v : Exact} {x y : ℝ}

theorem DefinedAt.hasValue (h : f.DefinedAt ρ) : f.HasValue ρ (f.valueAt ρ) := ⟨h, rfl⟩

@[simp] theorem valueAt_neg : (-f).valueAt ρ = -f.valueAt ρ := rfl

@[simp] theorem valueAt_add : (f + g).valueAt ρ = f.valueAt ρ + g.valueAt ρ := rfl

@[simp] theorem valueAt_sub : (f - g).valueAt ρ = f.valueAt ρ - g.valueAt ρ := rfl

@[simp] theorem valueAt_div : (f / g).valueAt ρ = f.valueAt ρ / g.valueAt ρ := rfl

@[simp] theorem definedAt_neg : (-f).DefinedAt ρ ↔ f.DefinedAt ρ :=
  and_iff_left trivial

@[simp] theorem definedAt_add : (f + g).DefinedAt ρ ↔ f.DefinedAt ρ ∧ g.DefinedAt ρ :=
  and_congr_right' (and_iff_left trivial)

@[simp] theorem definedAt_sub : (f - g).DefinedAt ρ ↔ f.DefinedAt ρ ∧ g.DefinedAt ρ :=
  and_congr_right' (and_iff_left trivial)

@[simp] theorem definedAt_div :
    (f / g).DefinedAt ρ ↔ f.DefinedAt ρ ∧ g.DefinedAt ρ ∧ g.valueAt ρ ≠ 0 := .rfl

theorem HasValue.neg (h : f.HasValue ρ x) : (-f).HasValue ρ (-x) :=
  ⟨definedAt_neg.2 h.1, congrArg Neg.neg h.2⟩

theorem HasValue.unary (h : f.HasValue ρ x) (op : UnaryOp) (ho : op.Admits x) :
    (unary op f).HasValue ρ (op.onReal x) := by
  obtain ⟨hf, rfl⟩ := h
  exact ⟨⟨hf, ho⟩, rfl⟩

theorem HasValue.binary (hf : f.HasValue ρ x) (op : ArithOp) (hg : g.HasValue ρ y)
    (ho : op.Admits x y) : (binary op f g).HasValue ρ (op.onReals x y) := by
  obtain ⟨hf, rfl⟩ := hf
  obtain ⟨hg, rfl⟩ := hg
  exact ⟨⟨hf, hg, ho⟩, rfl⟩

theorem DefinedAt.isUndefined (h : f.DefinedAt ρ) : f.isUndefined = false := by
  cases f with
  | const v => exact congrArg (!·) h
  | _ => rfl

/-! ## Constants -/

theorem hasValue_number (x : ℝ) : (const (.number x)).HasValue ρ x := ⟨rfl, rfl⟩

theorem exists_of_hasValue_const (h : (const v).HasValue ρ x) : v = .number x := by
  obtain ⟨y, rfl⟩ := Exact.exists_number h.1
  exact congrArg Exact.number h.2

@[simp] theorem valueAt_ofValue : (ofValue v).valueAt ρ = v.toReal := by
  unfold ofValue
  split
  · split
    · next h => exact (Exact.toReal_eq_of_beq h).symm
    · rfl
  · next h =>
    cases v with
    | number x => exact absurd rfl h
    | undefined => rfl

@[simp] theorem definedAt_ofValue : (ofValue v).DefinedAt ρ ↔ Scalar.isNumber v := by
  unfold ofValue
  split
  · next h =>
    split
    · exact iff_of_true rfl h
    · rfl
  · next h => exact iff_of_false Bool.false_ne_true h

theorem hasValue_ofValue (x : ℝ) : (ofValue (.number x)).HasValue ρ x :=
  ⟨definedAt_ofValue.2 rfl, valueAt_ofValue⟩

/-! ## Sums and products of lists -/

@[simp] theorem valueAt_sum : (sum fs).valueAt ρ = (fs.map (valueAt ρ)).sum := by
  have hfold (f : Formula Exact) (fs : List (Formula Exact)) :
      (fs.foldl (· + ·) f).valueAt ρ = f.valueAt ρ + (fs.map (valueAt ρ)).sum := by
    induction fs generalizing f with
    | nil => exact (add_zero _).symm
    | cons g fs ih => exact (ih (f + g)).trans (add_assoc ..)
  cases fs with
  | nil => rfl
  | cons f fs => exact hfold f fs

@[simp] theorem valueAt_product : (product fs).valueAt ρ = (fs.map (valueAt ρ)).prod := by
  have hfold (f : Formula Exact) (fs : List (Formula Exact)) :
      (fs.foldl (· * ·) f).valueAt ρ = f.valueAt ρ * (fs.map (valueAt ρ)).prod := by
    induction fs generalizing f with
    | nil => exact (mul_one _).symm
    | cons g fs ih => exact (ih (f * g)).trans (mul_assoc ..)
  cases fs with
  | nil => rfl
  | cons f fs => exact hfold f fs

theorem valueAt_foldl_sub : (fs.foldl (· - ·) f).valueAt ρ =
    f.valueAt ρ - (fs.map (valueAt ρ)).sum := by
  induction fs generalizing f with
  | nil => exact (sub_zero _).symm
  | cons g fs ih => exact ih.trans (sub_sub ..)

theorem definedAt_foldl (op : ArithOp) (ho : ∀ x y, op.Admits x y) :
    (fs.foldl (binary op) f).DefinedAt ρ ↔ f.DefinedAt ρ ∧ ∀ g ∈ fs, g.DefinedAt ρ := by
  induction fs generalizing f with
  | nil => simp
  | cons g fs ih => simp [ih, DefinedAt, ho, and_assoc]

@[simp] theorem definedAt_sum : (sum fs).DefinedAt ρ ↔ ∀ f ∈ fs, f.DefinedAt ρ := by
  cases fs with
  | nil => exact iff_of_true rfl (List.forall_mem_nil _)
  | cons f fs => exact (definedAt_foldl .add fun _ _ => trivial).trans List.forall_mem_cons.symm

@[simp] theorem definedAt_product : (product fs).DefinedAt ρ ↔ ∀ f ∈ fs, f.DefinedAt ρ := by
  cases fs with
  | nil => exact iff_of_true rfl (List.forall_mem_nil _)
  | cons f fs => exact (definedAt_foldl .mul fun _ _ => trivial).trans List.forall_mem_cons.symm

theorem hasValue_power (h : f.HasValue ρ x) (n : Nat) : (f.power n).HasValue ρ (x ^ n) := by
  obtain ⟨hf, rfl⟩ := h
  constructor
  · exact definedAt_product.2 fun g hg => List.eq_of_mem_replicate hg ▸ hf
  · rw [power, valueAt_product, List.map_replicate, List.prod_replicate]

/-! ## Evaluation -/

section
variable (op : UnaryOp) (op' : ArithOp)

theorem apply_number : op.apply (Exact.number x) = Exact.numberIf (op.Admits x) (op.onReal x) := by
  cases op with
  | ln | tan => rfl
  | percent =>
    have h100 : (100 : ℝ) ≠ 0 := by norm_num
    rw [UnaryOp.apply, Exact.ofNat_eq, Exact.div_number]
    exact (Exact.numberIf_pos h100).trans (Exact.numberIf_pos trivial).symm
  | _ => exact (Exact.numberIf_pos trivial).symm

theorem apply_undefined : op.apply (.undefined : Exact) = .undefined := by cases op <;> rfl

theorem apply_number_number :
    op'.apply (Exact.number x) (Exact.number y) =
      Exact.numberIf (op'.Admits x y) (op'.onReals x y) := by
  cases op' with
  | div => rfl
  | _ => exact (Exact.numberIf_pos trivial).symm

theorem apply_undefined_left : op'.apply .undefined v = .undefined := by cases op' <;> rfl

theorem apply_undefined_right : op'.apply v .undefined = .undefined := by
  cases op' <;> cases v <;> rfl

end

/-- Evaluation with exact constants gives the value, and no number where there is none. -/
theorem eval_exact {b : Bindings Exact}
    (hb : f.Forall (fun _ => True) fun x => b.get? x = some (.number (ρ x))) :
    f.eval b = .ok (Exact.numberIf (f.DefinedAt ρ) (f.valueAt ρ)) := by
  induction f with
  | const v =>
    cases v with
    | number x => exact congrArg Except.ok (Exact.numberIf_pos rfl).symm
    | undefined => exact congrArg Except.ok (Exact.numberIf_neg Bool.false_ne_true).symm
  | var x =>
    have hx : b.get? x = some (.number (ρ x)) := hb
    rw [eval, hx, Exact.numberIf_pos (by trivial)]
    rfl
  | unary op a ih =>
    rw [eval, ih hb]
    apply congrArg Except.ok
    by_cases ha : a.DefinedAt ρ
    · rw [Exact.numberIf_pos ha, apply_number, DefinedAt, and_iff_right ha, valueAt]
    · rw [Exact.numberIf_neg ha, apply_undefined, Exact.numberIf_neg fun h => ha h.1]
  | binary op a c iha ihc =>
    rw [eval, iha hb.1, ihc hb.2]
    apply congrArg Except.ok
    by_cases ha : a.DefinedAt ρ
    · by_cases hc : c.DefinedAt ρ
      · rw [Exact.numberIf_pos ha, Exact.numberIf_pos hc, apply_number_number, DefinedAt,
          and_iff_right ha, and_iff_right hc, valueAt]
      · rw [Exact.numberIf_neg hc, apply_undefined_right, Exact.numberIf_neg fun h => hc h.2.1]
    · rw [Exact.numberIf_neg ha, apply_undefined_left, Exact.numberIf_neg fun h => ha h.1]

/-! ## Equality up to the order of operands -/

theorem eq_of_beq_exact (h : f == g) : f = g := by
  have htrue (f : Formula Exact) : f.Forall (fun _ => True) fun _ => True := by
    induction f with
    | const _ | var _ => trivial
    | unary op a ih => exact ih
    | binary op a b iha ihb => exact ⟨iha, ihb⟩
  exact eq_of_beq (fun _ _ _ _ => Exact.eq_of_compare) (htrue f) (htrue g) h

theorem sum_operands (f : Formula Exact) :
    ((f.operands .add).map (valueAt ρ)).sum = f.valueAt ρ := by
  induction f with
  | const _ | var _ | unary _ _ _ => exact List.sum_singleton
  | binary op a b iha ihb =>
    cases op with
    | add => simp [operands, iha, ihb, valueAt, ArithOp.onReals]
    | _ => exact List.sum_singleton

theorem prod_operands (f : Formula Exact) :
    ((f.operands .mul).map (valueAt ρ)).prod = f.valueAt ρ := by
  induction f with
  | const _ | var _ | unary _ _ _ => exact List.prod_singleton
  | binary op a b iha ihb =>
    cases op with
    | mul => simp [operands, iha, ihb, valueAt, ArithOp.onReals]
    | _ => exact List.prod_singleton

/-- Erasing matches one after another pairs them with elements of the list. -/
theorem exists_forall₂_of_foldlM {β γ : Type} {p : β → γ → Bool} {xs : List β} {ys zs : List γ}
    (h : xs.foldlM (fun rest x => eraseFirst? (p x) rest) ys = some zs) :
    ∃ ws, List.Forall₂ (fun x w => p x w) xs ws ∧ ys.Perm (ws ++ zs) := by
  induction xs generalizing ys with
  | nil =>
    cases h
    exact ⟨[], .nil, .refl _⟩
  | cons x xs ih =>
    rw [List.foldlM_cons] at h
    obtain ⟨rest, hrest, h⟩ := Option.bind_eq_some_iff.1 h
    obtain ⟨as, y, bs, rfl, hy, rfl⟩ := exists_of_eraseFirst? hrest
    obtain ⟨ws, hws, hp⟩ := ih h
    exact ⟨y :: ws, .cons hy hws, List.perm_middle.trans (hp.cons y)⟩

/-- Operands that are the same in some order have the same images in some order, under a function that
does not tell them apart. -/
theorem perm_map_of_isSame {β : Type} {value : Formula Exact → β} {fs gs : List (Formula Exact)}
    (hl : fs.length = gs.length)
    (hs : ∀ f ∈ fs, ∀ g ∈ gs, f.isSame g → value f = value g)
    (h : (fs.attach.foldlM (fun rest x => eraseFirst? (isSame x.1) rest) gs).isSome) :
    (fs.map value).Perm (gs.map value) := by
  obtain ⟨rest, hrest⟩ := Option.isSome_iff_exists.1 h
  obtain ⟨ws, hws, hp⟩ := exists_forall₂_of_foldlM hrest
  have hlen : rest = [] := by
    have h1 := hws.length_eq
    have h2 := hp.length_eq
    simp only [List.length_attach, List.length_append] at h1 h2
    exact List.eq_nil_of_length_eq_zero (by omega)
  subst hlen
  have hp := hp.trans (.of_eq (List.append_nil ws))
  have hval : fs.attach.map (fun x => value x.1) = ws.map value := by
    apply List.forall₂_eq_eq_eq ▸ List.forall₂_map_left_iff.2 (List.forall₂_map_right_iff.2 _)
    refine List.forall₂_iff_get.2 ⟨hws.length_eq, fun i hi hi' => ?_⟩
    exact hs _ (fs.attach.get ⟨i, hi⟩).2 _ (hp.mem_iff.2 (List.get_mem ws ⟨i, hi'⟩))
      ((List.forall₂_iff_get.1 hws).2 i hi hi')
  rw [List.attach_map_val] at hval
  rw [hval]
  exact hp.symm.map _

theorem valueAt_eq_of_isSame (h : f.isSame g) : f.valueAt ρ = g.valueAt ρ := by
  induction hn : f.size using Nat.strong_induction_on generalizing f g with
  | _ n ih =>
    subst hn
    have ih {a b : Formula Exact} (ha : a.size < f.size) (hab : a.isSame b) :
        a.valueAt ρ = b.valueAt ρ := ih a.size ha hab rfl
    rw [isSame.eq_def, Bool.or_eq_true] at h
    rcases h with h | h
    · rw [eq_of_beq_exact h]
    · cases f with
      | const v | var x => cases h
      | unary op a =>
        cases g with
        | unary op' a' =>
          obtain ⟨hop, ha⟩ := Bool.and_eq_true_iff.1 h
          rw [valueAt, valueAt, of_decide_eq_true hop, ih (Nat.lt_succ_self _) ha]
        | _ => cases h
      | binary op a b =>
        cases g with
        | binary op' a' b' =>
          simp only [Bool.if_false_right, Bool.and_eq_true, decide_eq_true_eq] at h
          obtain ⟨rfl, h⟩ := h
          split at h
          · next hc =>
            obtain ⟨hl, hm⟩ := Bool.and_eq_true_iff.1 h
            have hperm := perm_map_of_isSame (of_decide_eq_true hl)
              (fun x hx y _ hxy => ih (size_lt_of_mem_operands hx) hxy) hm
            cases op with
            | add => simpa [sum_operands, valueAt, ArithOp.onReals] using hperm.sum_eq
            | mul => simpa [prod_operands, valueAt, ArithOp.onReals] using hperm.prod_eq
            | _ => cases hc
          · obtain ⟨ha, hb⟩ := Bool.and_eq_true_iff.1 h
            rw [valueAt, valueAt, ih (by simp only [size]; omega) ha,
              ih (by simp only [size]; omega) hb]
        | _ => cases h

end Formula
end SymCalc
