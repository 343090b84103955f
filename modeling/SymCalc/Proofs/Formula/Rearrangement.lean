import Mathlib
import SymCalc.Formula.Chain
import SymCalc.Proofs.Formula.Equality
import SymCalc.Proofs.Formula.Meaning
import SymCalc.Proofs.Scalar.Double

/-!
# Rearranging formulas

* `Formula.Rearranged`: whether a formula becomes another one when operands of sums and of products
  are regrouped and swapped;
* `Formula.Arrangement`: formulas up to this;
* `Formula.outline`: the head of a formula with its operands up to this.

Rearranging permutes the operands of a chain, up to rearranging them
(`Formula.Rearranged.operands`). Matching operands one after another with the first one that is left
and fits therefore finds a match whenever there is one (`foldlM_eraseFirst?_isSome_iff`), because
operands that fit the same one are interchangeable. So `Formula.isSame` decides rearrangement
(`Formula.isSame_iff`).
-/

namespace SymCalc

/-! ## Matching -/

/-- Elements match if they have the same key. Erasing matches one after another works out exactly
if the keys are the same in some order, whichever matches are chosen. -/
theorem foldlM_eraseFirst?_isSome_iff {β γ κ : Type} {p : β → γ → Bool} {k : β → κ} {l : γ → κ}
    {xs : List β} {ys : List γ} (hp : ∀ x ∈ xs, ∀ y ∈ ys, p x y ↔ k x = l y)
    (hlength : xs.length = ys.length) :
    (xs.foldlM (fun rest x => eraseFirst? (p x) rest) ys).isSome ↔ (xs.map k).Perm (ys.map l) := by
  induction xs generalizing ys with
  | nil =>
    obtain rfl := List.eq_nil_of_length_eq_zero hlength.symm
    exact iff_of_true rfl (.refl _)
  | cons x xs ih =>
    obtain ⟨hx, hxs⟩ := List.forall_mem_cons.1 hp
    rw [List.foldlM_cons]
    cases h : eraseFirst? (p x) ys with
    | none =>
      refine iff_of_false Bool.false_ne_true fun hperm => ?_
      obtain ⟨y, hy, hkey⟩ := List.mem_map.1 (hperm.mem_iff.1 List.mem_cons_self)
      have hfalse := eraseFirst?_eq_none.1 h y hy
      rw [(hx y hy).2 hkey.symm] at hfalse
      cases hfalse
    | some rest =>
      obtain ⟨as, y, bs, rfl, hxy, rfl⟩ := exists_of_eraseFirst? h
      -- Whichever match `y` has been erased, the keys that are left are the same in some order.
      have hsub := (List.sublist_cons_self y bs).append_left as
      have hkey : k x = l y := (hx y (by simp)).1 hxy
      have hperm : ((as ++ y :: bs).map l).Perm (k x :: (as ++ bs).map l) :=
        hkey ▸ List.perm_middle.map l
      have hlength : xs.length = (as ++ bs).length := by
        simp only [List.length_append, List.length_cons] at hlength ⊢
        omega
      refine (ih (fun z hz w hw => hxs z hz w (hsub.mem hw)) hlength).trans ?_
      rw [List.map_cons, hperm.congr_right, List.perm_cons]

namespace Formula

variable {α : Type} [Scalar α]

/-! ## Rearrangement -/

/-- Whether the first formula becomes the second one when operands of sums and of products are
regrouped and swapped, at any depth. Equal constants may take each other's place. -/
inductive Rearranged : Formula α → Formula α → Prop
  | const {v w : α} (h : const v == const w) : Rearranged (const v) (const w)
  | var (x : String) : Rearranged (var x) (var x)
  | unary (op : UnaryOp) {a a' : Formula α} (h : Rearranged a a') :
      Rearranged (unary op a) (unary op a')
  | binary (op : ArithOp) {a a' b b' : Formula α} (ha : Rearranged a a') (hb : Rearranged b b') :
      Rearranged (binary op a b) (binary op a' b')
  | swap {op : ArithOp} (hop : op.isCommutative) (a b : Formula α) :
      Rearranged (binary op a b) (binary op b a)
  | regroup {op : ArithOp} (hop : op.isCommutative) (a b c : Formula α) :
      Rearranged (binary op (binary op a b) c) (binary op a (binary op b c))
  | symm {f g : Formula α} (h : Rearranged f g) : Rearranged g f
  | trans {f g h : Formula α} (hfg : Rearranged f g) (hgh : Rearranged g h) : Rearranged f h

theorem Rearranged.of_compare {f g : Formula α} (h : f.compare g = .eq) : Rearranged f g := by
  induction f generalizing g with
  | const v =>
    cases g with
    | const w => exact .const (beq_iff.2 h)
    | _ => cases h
  | var x =>
    cases g with
    | var y =>
      obtain rfl := compare_var_eq_iff.1 h
      exact .var x
    | _ => cases h
  | unary op a ih =>
    cases g with
    | unary op' a' =>
      obtain ⟨rfl, ha⟩ := compare_unary_eq_iff.1 h
      exact .unary op (ih ha)
    | _ => cases h
  | binary op a b iha ihb =>
    cases g with
    | binary op' a' b' =>
      obtain ⟨rfl, ha, hb⟩ := compare_binary_eq_iff.1 h
      exact .binary op (iha ha) (ihb hb)
    | _ => cases h

variable [LawfulScalar α]

theorem Rearranged.refl (f : Formula α) : Rearranged f f := .of_compare Std.ReflCmp.compare_self

variable (α) in
/-- Formulas that are rearranged from each other. -/
def arrangement : Setoid (Formula α) where
  r := Rearranged
  iseqv := ⟨.refl, .symm, .trans⟩

variable (α) in
/-- Formulas up to rearrangement. -/
def Arrangement : Type := Quotient (arrangement α)

/-- The formula up to rearrangement. -/
def arranged (f : Formula α) : Arrangement α := Quotient.mk (arrangement α) f

variable {f g a b a' b' : Formula α} {op : ArithOp} {fs gs : List (Formula α)}

theorem arranged_eq_iff : f.arranged = g.arranged ↔ Rearranged f g :=
  Quotient.eq (r := arrangement α)

/-- The operands of a chain are the same in some order after rearranging, up to rearrangement. -/
theorem Rearranged.operands (h : Rearranged f g) (op : ArithOp) :
    ((f.operands op).map arranged).Perm ((g.operands op).map arranged) := by
  have hsingle {f g : Formula α} (h : Rearranged f g) (hf : f.operands op = [f])
      (hg : g.operands op = [g]) :
      ((f.operands op).map arranged).Perm ((g.operands op).map arranged) := by
    rw [hf, hg]
    exact .of_eq (congrArg (fun c => [c]) (arranged_eq_iff.2 h))
  have hne {op' : ArithOp} (h : op' ≠ op) (a b : Formula α) :
      (Formula.binary op' a b).operands op = [.binary op' a b] := if_neg h
  have heq (a b : Formula α) :
      (Formula.binary op a b).operands op = a.operands op ++ b.operands op := if_pos rfl
  induction h with
  | const h => exact hsingle (.const h) rfl rfl
  | var x => exact hsingle (.var x) rfl rfl
  | unary op' h => exact hsingle (.unary op' h) rfl rfl
  | @binary op' a a' b b' ha hb iha ihb =>
    by_cases hop : op' = op
    · subst hop
      rw [heq, heq, List.map_append, List.map_append]
      exact iha.append ihb
    · exact hsingle (.binary op' ha hb) (hne hop ..) (hne hop ..)
  | @swap op' hc a b =>
    by_cases hop : op' = op
    · subst hop
      rw [heq, heq]
      exact List.perm_append_comm.map _
    · exact hsingle (.swap hc a b) (hne hop ..) (hne hop ..)
  | @regroup op' hc a b c =>
    by_cases hop : op' = op
    · subst hop
      rw [heq, heq, heq, heq, List.append_assoc]
    · exact hsingle (.regroup hc a b c) (hne hop ..) (hne hop ..)
  | symm _ ih => exact ih.symm
  | trans _ _ ih ih' => exact ih.trans ih'

/-! ## Outlines -/

variable (α) in
/-- The head of a formula with its operands up to rearrangement. The operands of a chain have no
order if they may be swapped. -/
inductive Outline where
  | const (v : Quotient (orderSetoid (Scalar.compare (α := α))))
  | var (x : String)
  | unary (op : UnaryOp) (a : Arrangement α)
  | binary (op : ArithOp) (operands : Multiset (Arrangement α) ⊕ Arrangement α × Arrangement α)

/-- The outline of a formula. -/
def outline : Formula α → Outline α
  | const v => .const (Quotient.mk _ v)
  | var x => .var x
  | unary op a => .unary op a.arranged
  | binary op a b => .binary op
      (if op.isCommutative then .inl ↑(((binary op a b).operands op).map arranged)
      else .inr (a.arranged, b.arranged))

/-- Rearranging keeps the outline. -/
theorem Rearranged.outline_eq (h : Rearranged f g) : f.outline = g.outline := by
  have hchain {op : ArithOp} (hop : op.isCommutative) {a b a' b' : Formula α}
      (h : Rearranged (.binary op a b) (.binary op a' b')) :
      (Formula.binary op a b).outline = (Formula.binary op a' b').outline := by
    rw [outline, outline, if_pos hop, if_pos hop, Multiset.coe_eq_coe.2 (h.operands op)]
  induction h with
  | const h => exact congrArg Outline.const (Quotient.sound (beq_iff.1 h))
  | var x => rfl
  | unary op h => exact congrArg (Outline.unary op) (arranged_eq_iff.2 h)
  | binary op ha hb =>
    cases hop : op.isCommutative with
    | true => exact hchain hop (.binary op ha hb)
    | false => rw [outline, outline, hop, arranged_eq_iff.2 ha, arranged_eq_iff.2 hb]; rfl
  | swap hop a b => exact hchain hop (.swap hop a b)
  | regroup hop a b c => exact hchain hop (.regroup hop a b c)
  | symm _ ih => exact ih.symm
  | trans _ _ ih ih' => exact ih.trans ih'

theorem rearranged_of_not_isCommutative (hop : op.isCommutative = false)
    (h : Rearranged (binary op a b) (binary op a' b')) : Rearranged a a' ∧ Rearranged b b' := by
  have hout := (Outline.binary.inj h.outline_eq).2
  rw [hop] at hout
  obtain ⟨ha, hb⟩ := Prod.mk.inj (Sum.inr.inj hout)
  exact ⟨arranged_eq_iff.1 ha, arranged_eq_iff.1 hb⟩

omit [LawfulScalar α] in
theorem Rearranged.kindRank_eq (h : Rearranged f g) : f.kindRank = g.kindRank := by
  induction h with
  | const | var | unary | binary | swap | regroup => rfl
  | symm _ ih => exact ih.symm
  | trans _ _ ih ih' => exact ih.trans ih'

/-! ## Chains -/

/-- Formulas up to rearrangement with an operation whose operands may be swapped. -/
@[reducible] def arrangementSemigroup (hop : op.isCommutative) : CommSemigroup (Arrangement α) where
  mul := Quotient.map₂ (binary op) fun _ _ ha _ _ hb => .binary op ha hb
  mul_assoc a b c := by
    induction a, b, c using Quotient.inductionOn₃ with
    | _ a b c => exact arranged_eq_iff.2 (.regroup hop a b c)
  mul_comm a b := by
    induction a, b using Quotient.inductionOn₂ with
    | _ a b => exact arranged_eq_iff.2 (.swap hop a b)

/-- A chain is determined by its operands in any order, up to rearrangement. -/
theorem rearranged_of_operands (hop : op.isCommutative)
    (h : ((f.operands op).map arranged).Perm ((g.operands op).map arranged)) : Rearranged f g := by
  let := arrangementSemigroup (α := α) hop
  let embed : Arrangement α → WithOne (Arrangement α) := (↑)
  have hprod (f : Formula α) :
      (((f.operands op).map arranged).map embed).prod = f.arranged := by
    induction f with
    | const _ | var _ | unary _ _ _ => exact List.prod_singleton
    | binary op' a b iha ihb =>
      by_cases hop : op' = op
      · subst hop
        rw [Formula.operands, if_pos rfl, List.map_append, List.map_append, List.prod_append, iha,
          ihb]
        exact (WithOne.coe_mul a.arranged b.arranged).symm
      · rw [Formula.operands, if_neg hop]
        exact List.prod_singleton
  have heq := (h.map embed).prod_eq
  rw [hprod, hprod] at heq
  exact arranged_eq_iff.1 (WithOne.coe_inj.1 heq)

/-! ## The decision -/

/-- Operands are matched exactly if they are the same in some order, up to rearrangement. -/
theorem matchOperands_iff (h : ∀ f ∈ fs, ∀ g ∈ gs, f.isSame g ↔ Rearranged f g) :
    (decide (fs.length = gs.length) &&
        (fs.attach.foldlM (fun rest x => eraseFirst? (isSame x.1) rest) gs).isSome) ↔
      (fs.map arranged).Perm (gs.map arranged) := by
  by_cases hlength : fs.length = gs.length
  · have hkey : ∀ x ∈ fs.attach, ∀ g ∈ gs, x.1.isSame g ↔ x.1.arranged = g.arranged :=
      fun x _ g hg => (h x.1 x.2 g hg).trans arranged_eq_iff.symm
    have hmatch := foldlM_eraseFirst?_isSome_iff hkey (List.length_attach.trans hlength)
    rw [List.attach_map_val] at hmatch
    rwa [decide_eq_true hlength, Bool.true_and]
  · rw [decide_eq_false hlength, Bool.false_and]
    refine iff_of_false Bool.false_ne_true fun hperm => hlength ?_
    simpa using hperm.length_eq

omit [LawfulScalar α] in
theorem kindRank_eq_of_isSame (h : f.isSame g) : f.kindRank = g.kindRank := by
  rw [isSame.eq_def, Bool.or_eq_true, beq_iff] at h
  rcases h with h | h
  · exact (Rearranged.of_compare h).kindRank_eq
  · cases f <;> cases g <;> first | rfl | cases h

theorem isSame_binary_iff {op' : ArithOp} (h : ∀ f g : Formula α, f.size < (binary op a b).size →
    (f.isSame g ↔ Rearranged f g)) : (binary op a b).isSame (binary op' a' b') ↔
      Rearranged (binary op a b) (binary op' a' b') := by
  have hoperands (a b : Formula α) : (binary op a b).operands op = a.operands op ++ b.operands op :=
    if_pos rfl
  have hsame : ∀ f ∈ a.operands op ++ b.operands op, ∀ g ∈ a'.operands op ++ b'.operands op,
      (f.isSame g ↔ Rearranged f g) := fun f hf g _ => h f g (size_lt_of_mem_operands hf)
  have hmatch := matchOperands_iff hsame
  have ha := h a a' (by simp only [size]; omega)
  have hb := h b b' (by simp only [size]; omega)
  rw [isSame.eq_def, Bool.or_eq_true, beq_iff]
  constructor
  · rintro (hsame | hsame)
    · exact .of_compare hsame
    simp only [Bool.if_false_right, Bool.and_eq_true, decide_eq_true_eq] at hsame
    obtain ⟨rfl, hsame⟩ := hsame
    split at hsame
    · next hop =>
      refine rearranged_of_operands hop ?_
      rw [hoperands, hoperands]
      exact hmatch.1 hsame
    · obtain ⟨hsamea, hsameb⟩ := Bool.and_eq_true_iff.1 hsame
      exact .binary op (ha.1 hsamea) (hb.1 hsameb)
  · intro hr
    obtain rfl := (Outline.binary.inj hr.outline_eq).1
    right
    simp only [if_true]
    cases hop : op.isCommutative with
    | true =>
      have hperm := hr.operands op
      rw [hoperands, hoperands] at hperm
      exact hmatch.2 hperm
    | false =>
      obtain ⟨hra, hrb⟩ := rearranged_of_not_isCommutative hop hr
      exact Bool.and_eq_true_iff.2 ⟨ha.2 hra, hb.2 hrb⟩

/-- Two formulas are the same up to the order of operands exactly if one is rearranged from the
other. -/
theorem isSame_iff : f.isSame g ↔ Rearranged f g := by
  -- The operands of a chain may lie deep in `f`, so the induction is on the size.
  induction hn : f.size using Nat.strong_induction_on generalizing f g with
  | _ n ih =>
    subst hn
    have ih (a b : Formula α) (ha : a.size < f.size) : a.isSame b ↔ Rearranged a b :=
      ih a.size ha rfl
    have hkind (hne : f.kindRank ≠ g.kindRank) : f.isSame g ↔ Rearranged f g :=
      iff_of_false (fun h => hne (kindRank_eq_of_isSame h)) fun h => hne h.kindRank_eq
    cases f with
    | const v =>
      cases g with
      | const w =>
        rw [isSame.eq_def, Bool.or_false]
        exact ⟨.const, fun h => beq_iff.2 (Quotient.exact (Outline.const.inj h.outline_eq))⟩
      | _ => exact hkind nofun
    | var x =>
      cases g with
      | var y =>
        rw [isSame.eq_def, Bool.or_false, beq_iff]
        refine ⟨.of_compare, fun h => ?_⟩
        obtain rfl := Outline.var.inj h.outline_eq
        exact Std.ReflCmp.compare_self
      | _ => exact hkind nofun
    | unary op a =>
      cases g with
      | unary op' a' =>
        rw [isSame.eq_def, Bool.or_eq_true, beq_iff, Bool.and_eq_true, decide_eq_true_eq,
          ih a a' (Nat.lt_succ_self _)]
        constructor
        · rintro (h | ⟨rfl, h⟩)
          · exact .of_compare h
          · exact .unary op h
        · intro h
          obtain ⟨rfl, ha⟩ := Outline.unary.inj h.outline_eq
          exact .inr ⟨rfl, arranged_eq_iff.1 ha⟩
      | _ => exact hkind nofun
    | binary op a b =>
      cases g with
      | binary op' a' b' => exact isSame_binary_iff ih
      | _ => exact hkind nofun

/-! ## Main statement -/

variable (α) in
/-- `Formula.isSame` decides whether formulas are rearranged from each other. So it is an
equivalence that all operators respect, and it holds of two chains exactly if it holds of their
operands in some order. -/
theorem isSame_decides :
    (∀ f g : Formula α, f.isSame g ↔ Rearranged f g) ∧
    (Equivalence fun f g : Formula α => f.isSame g) ∧
    (∀ (op : UnaryOp) (a a' : Formula α), a.isSame a' → (unary op a).isSame (unary op a')) ∧
    (∀ (op : ArithOp) (a a' b b' : Formula α), a.isSame a' → b.isSame b' →
      (binary op a b).isSame (binary op a' b')) ∧
    ∀ op : ArithOp, op.isCommutative → ∀ a a' b b' : Formula α,
      ((binary op a b).isSame (binary op a' b') ↔
        ∃ gs, gs.Perm ((binary op a' b').operands op) ∧
          List.Forall₂ (fun f g => f.isSame g) ((binary op a b).operands op) gs) := by
  refine ⟨fun _ _ => isSame_iff, ?_⟩
  simp only [isSame_iff]
  refine ⟨(arrangement α).iseqv, fun op _ _ => .unary op, fun op _ _ _ _ => .binary op,
    fun op hop a a' b b' => ⟨fun h => ?_, ?_⟩⟩
  · have hkey : List.Forall₂ (fun c f => f.arranged = c)
        (((binary op a' b').operands op).map arranged) ((binary op a' b').operands op) :=
      List.forall₂_map_left_iff.2 (List.forall₂_same.2 fun _ _ => rfl)
    obtain ⟨gs, hgs, hp⟩ := List.perm_comp_forall₂ (h.operands op) hkey
    refine ⟨gs, hp, (List.forall₂_map_left_iff.1 hgs).imp fun f g heq => ?_⟩
    exact arranged_eq_iff.1 heq.symm
  · rintro ⟨gs, hp, hgs⟩
    have heq : ((binary op a b).operands op).map arranged = gs.map arranged := by
      rw [← List.forall₂_eq_eq_eq, List.forall₂_map_left_iff, List.forall₂_map_right_iff]
      exact hgs.imp fun _ _ => arranged_eq_iff.2
    exact rearranged_of_operands hop (heq ▸ hp.map arranged)

/-- `cos(x+y)*z` and `z*cos(y+x)` are the same, and `x-y` and `y-x` are not. -/
theorem isSame_decides_cos :
    ((.unary .cos (.var "x" + .var "y") * .var "z" : Formula Float).isSame
      (.var "z" * .unary .cos (.var "y" + .var "x"))) ∧
    ¬(.var "x" - .var "y" : Formula Float).isSame (.var "y" - .var "x") := by
  obtain ⟨hiff, -⟩ := isSame_decides Float
  constructor
  · exact (hiff _ _).2
      (.trans (.swap rfl _ _) (.binary .mul (.refl _) (.unary .cos (.swap rfl _ _))))
  · intro h
    have hxy := (rearranged_of_not_isCommutative rfl ((hiff _ _).1 h)).1
    exact absurd (Outline.var.inj hxy.outline_eq) (by decide)

end Formula
end SymCalc
