import SymCalc.Formula.Order

/-!
# The leaves of a formula

* `Formula.Forall`: all constants and all variables of a formula have given properties.

Formulas with the same tree whose constants compare as equal are equal for `==`
(`Formula.beq_self`), and conversely if the constants are told apart by the comparison
(`Formula.eq_of_beq`).
-/

namespace SymCalc
namespace Formula

section
variable {α : Type}

/-- Whether all constants of the formula have the property `P` and all variables `Q`. -/
def Forall (P : α → Prop) (Q : String → Prop) : Formula α → Prop
  | const v => P v
  | var x => Q x
  | unary _ a => a.Forall P Q
  | binary _ a b => a.Forall P Q ∧ b.Forall P Q

variable {P P' : α → Prop} {Q Q' : String → Prop} {f : Formula α} {fs : List (Formula α)}

/-! ## Parts -/

theorem mem_postOrder_self (f : Formula α) : f ∈ f.postOrder := by cases f <;> simp [postOrder]

/-- The parts of a part are parts of the whole formula. -/
theorem mem_postOrder_trans {a g : Formula α} (ha : a ∈ g.postOrder) (hg : g ∈ f.postOrder) :
    a ∈ f.postOrder := by
  induction f with
  | const _ | var _ =>
    cases List.mem_singleton.1 hg
    exact ha
  | unary op c ih =>
    rcases List.mem_append.1 hg with hg | hg
    · exact List.mem_append_left _ (ih hg)
    · cases List.mem_singleton.1 hg
      exact ha
  | binary op c d ihc ihd =>
    rcases List.mem_append.1 hg with hg | hg
    · exact List.mem_append_left _ (List.mem_append.2 ((List.mem_append.1 hg).imp ihc ihd))
    · cases List.mem_singleton.1 hg
      exact ha

/-! ## Constants and variables -/

@[simp] theorem forall_unary {op : UnaryOp} : (unary op f).Forall P Q ↔ f.Forall P Q := .rfl

theorem Forall.imp (hP : ∀ v, P v → P' v) (hQ : ∀ x, Q x → Q' x) (h : f.Forall P Q) :
    f.Forall P' Q' := by
  induction f with
  | const v => exact hP v h
  | var x => exact hQ x h
  | unary op a ih => exact ih h
  | binary op a b iha ihb => exact ⟨iha h.1, ihb h.2⟩

/-- A property of all constants, stated for the parts of the formula. -/
theorem forall_iff_postOrder :
    f.Forall P (fun _ => True) ↔ ∀ v, const v ∈ f.postOrder → P v := by
  induction f with
  | const w => simp [Forall, postOrder]
  | var x => simp [Forall, postOrder]
  | unary op a ih => simp [ih, postOrder]
  | binary op a b iha ihb => simp [Forall, iha, ihb, postOrder, or_imp, forall_and]

theorem forall_foldl {op : ArithOp} (h : f.Forall P Q) (hs : ∀ g ∈ fs, g.Forall P Q) :
    (fs.foldl (binary op) f).Forall P Q := by
  induction fs generalizing f with
  | nil => exact h
  | cons g fs ih =>
    obtain ⟨hg, hs⟩ := List.forall_mem_cons.1 hs
    exact ih ⟨h, hg⟩ hs

end

variable {α : Type} [Scalar α] {P : α → Prop} {Q : String → Prop} {f g : Formula α}
  {fs : List (Formula α)}

theorem forall_sum (h0 : P 0) (hs : ∀ g ∈ fs, g.Forall P Q) : (sum fs).Forall P Q := by
  cases fs with
  | nil => exact h0
  | cons f fs =>
    obtain ⟨hf, hs⟩ := List.forall_mem_cons.1 hs
    exact forall_foldl hf hs

theorem forall_product (h1 : P 1) (hs : ∀ g ∈ fs, g.Forall P Q) : (product fs).Forall P Q := by
  cases fs with
  | nil => exact h1
  | cons f fs =>
    obtain ⟨hf, hs⟩ := List.forall_mem_cons.1 hs
    exact forall_foldl hf hs

theorem forall_power (h1 : P 1) (hf : f.Forall P Q) (n : Nat) : (f.power n).Forall P Q :=
  forall_product h1 fun _ hg => List.eq_of_mem_replicate hg ▸ hf

/-! ## Equality -/

theorem beq_eq : (f == g) = (f.compare g == .eq) := rfl

theorem compare_self (h : ∀ v : α, Scalar.compare v v = .eq) (f : Formula α) :
    f.compare f = .eq := by
  induction f with
  | const v => exact h v
  | var x => exact Std.compare_self (a := x)
  | unary op a ih => simp [compare, ih]
  | binary op a b iha ihb => simp [compare, iha, ihb]

theorem beq_self (h : ∀ v : α, Scalar.compare v v = .eq) (f : Formula α) : f == f := by
  simp [beq_eq, compare_self h]

theorem eq_of_compare (h : ∀ v w : α, P v → P w → Scalar.compare v w = .eq → v = w)
    (hf : f.Forall P Q) (hg : g.Forall P Q) (hfg : f.compare g = .eq) : f = g := by
  induction f generalizing g with
  | const v =>
    cases g with
    | const w => exact congrArg const (h v w hf hg hfg)
    | _ => cases hfg
  | var x =>
    cases g with
    | var y => exact congrArg var (Std.LawfulEqCmp.eq_of_compare hfg)
    | _ => cases hfg
  | unary op a ih =>
    cases g with
    | unary op' a' =>
      obtain ⟨hop, ha⟩ := Ordering.then_eq_eq.1 hfg
      rw [UnaryOp.rank_injective (Std.LawfulEqCmp.eq_of_compare hop), ih hf (g := a') hg ha]
    | _ => cases hfg
  | binary op a b iha ihb =>
    cases g with
    | binary op' a' b' =>
      obtain ⟨hop, hab⟩ := Ordering.then_eq_eq.1 hfg
      obtain ⟨ha, hb⟩ := Ordering.then_eq_eq.1 hab
      rw [ArithOp.rank_injective (Std.LawfulEqCmp.eq_of_compare hop), iha hf.1 hg.1 ha,
        ihb hf.2 hg.2 hb]
    | _ => cases hfg

theorem eq_of_beq (h : ∀ v w : α, P v → P w → Scalar.compare v w = .eq → v = w)
    (hf : f.Forall P Q) (hg : g.Forall P Q) (hfg : f == g) : f = g :=
  eq_of_compare h hf hg (by simpa [beq_eq] using hfg)

end Formula
end SymCalc
