import SymCalc.Proofs.Formula.Equality
import SymCalc.Proofs.Simplify.Shape

/-!
# Sums of equal terms

* `Monomial.Equals`: whether monomials have the same coefficient and equal factors.

Everything that a sum goes through once like terms have been combined looks at the factors of its
terms with `==` only. So equal terms in the same order have their logarithms and their sums of
angles merged in the same way, and they are put together to equal formulas (`assemble_congr`).
-/

namespace SymCalc

open Scalar Formula

/-! ## Options -/

section
variable {β γ δ ε : Type} {R : β → γ → Prop} {S : δ → ε → Prop}

theorem rel_cases {x : Option β} {y : Option γ} (h : Option.Rel R x y) :
    (x = none ∧ y = none) ∨ ∃ b c, x = some b ∧ y = some c ∧ R b c := by
  cases h with
  | none => exact .inl ⟨rfl, rfl⟩
  | some h => exact .inr ⟨_, _, rfl, rfl, h⟩

theorem rel_bind {x : Option β} {y : Option γ} {f : β → Option δ} {g : γ → Option ε}
    (h : Option.Rel R x y) (hfg : ∀ b c, R b c → Option.Rel S (f b) (g c)) :
    Option.Rel S (x >>= f) (y >>= g) := by
  cases h with
  | none => exact .none
  | some h => exact hfg _ _ h

theorem rel_guard {p q : Prop} [Decidable p] [Decidable q] {x : Option δ} {y : Option ε}
    (hpq : p ↔ q) (h : Option.Rel S x y) :
    Option.Rel S (guard p >>= fun _ => x) (guard q >>= fun _ => y) := by
  by_cases hp : p
  · rw [guard, guard, if_pos hp, if_pos (hpq.1 hp)]
    exact h
  · rw [guard, guard, if_neg hp, if_neg (hp ∘ hpq.2)]
    exact .none

end

variable {α : Type} [Scalar α]

/-! ## Formulas -/

namespace Formula

variable {f g a a' b b' : Formula α} {fs gs : List (Formula α)}

theorem unary_congr (op : UnaryOp) (h : a == a') : unary op a == unary op a' :=
  beq_iff.2 (compare_unary_eq_iff.2 ⟨rfl, beq_iff.1 h⟩)

theorem binary_congr (op : ArithOp) (ha : a == a') (hb : b == b') :
    binary op a b == binary op a' b' :=
  beq_iff.2 (compare_binary_eq_iff.2 ⟨rfl, beq_iff.1 ha, beq_iff.1 hb⟩)

theorem foldl_congr (op : ArithOp) (h : f == g) (hs : List.Forall₂ (· == ·) fs gs) :
    fs.foldl (binary op) f == gs.foldl (binary op) g := by
  induction hs generalizing f g with
  | nil => exact h
  | cons ha _ ih => exact ih (binary_congr op h ha)

/-- Equal formulas are functions of equal arguments, or not functions of this kind. -/
theorem rel_argument? (op : UnaryOp) (h : f == g) :
    Option.Rel (· == ·) (f.argument? op) (g.argument? op) := by
  rw [beq_iff] at h
  cases f with
  | unary op' a =>
    cases g with
    | unary op'' a' =>
      obtain ⟨rfl, ha⟩ := compare_unary_eq_iff.1 h
      by_cases hop : op' = op
      · rw [argument?, argument?, if_pos hop, if_pos hop]
        exact .some (beq_iff.2 ha)
      · rw [argument?, argument?, if_neg hop, if_neg hop]
        exact .none
    | _ => cases h
  | const _ | var _ | binary _ _ _ =>
    cases g with
    | unary _ _ => cases h
    | _ => exact .none

/-- Equal formulas have equal factors. -/
theorem forall₂_factors (h : f == g) (below side : Bool) :
    List.Forall₂ (· == ·) ((f.pieces below).filterMap (·.factor? side))
      ((g.pieces below).filterMap (·.factor? side)) := by
  have hfactor {f g : Formula α} {below : Bool} (h : f == g) :
      List.Forall₂ (· == ·) ([Piece.factor f below].filterMap (·.factor? side))
        ([Piece.factor g below].filterMap (·.factor? side)) := by
    by_cases hside : below = side
    · simpa [Piece.factor?, hside] using h
    · simp [Piece.factor?, hside]
  induction f generalizing g below with
  | const v =>
    cases g with
    | const w => exact .nil
    | _ => cases beq_iff.1 h
  | var x =>
    cases g with
    | var y => exact hfactor h
    | _ => cases beq_iff.1 h
  | unary op a ih =>
    cases g with
    | unary op' a' =>
      obtain ⟨rfl, ha⟩ := compare_unary_eq_iff.1 (beq_iff.1 h)
      cases op with
      | negate => simpa [pieces, Piece.factor?] using ih (beq_iff.2 ha) below
      | _ => exact hfactor h
    | _ => cases beq_iff.1 h
  | binary op a b iha ihb =>
    cases g with
    | binary op' a' b' =>
      obtain ⟨rfl, ha, hb⟩ := compare_binary_eq_iff.1 (beq_iff.1 h)
      cases op with
      | add | sub => exact hfactor h
      | mul | div =>
        rw [pieces, pieces, List.filterMap_append, List.filterMap_append]
        exact List.rel_append (iha (beq_iff.2 ha) _) (ihb (beq_iff.2 hb) _)
    | _ => cases beq_iff.1 h

variable [LawfulScalar α]

theorem product_congr (h : List.Forall₂ (· == ·) fs gs) : product fs == product gs := by
  cases h with
  | nil => exact BEq.rfl
  | cons hf hs => exact foldl_congr .mul hf hs

theorem sum_congr (h : List.Forall₂ (· == ·) fs gs) : sum fs == sum gs := by
  cases h with
  | nil => exact BEq.rfl
  | cons hf hs => exact foldl_congr .add hf hs

end Formula

/-! ## Monomials -/

namespace Monomial

/-- Whether the monomials have the same coefficient and equal factors in the same order. -/
structure Equals (m n : Monomial α) : Prop where
  coeff : m.coeff = n.coeff
  numer : List.Forall₂ (· == ·) m.numer n.numer
  denom : List.Forall₂ (· == ·) m.denom n.denom

theorem logArgument?_eq (m : Monomial α) : m.logArgument? =
    match m.numer, m.denom with
    | [f], [] => if magnitude m.coeff == 1 then f.argument? .ln else none
    | _, _ => none := by
  unfold logArgument?
  split
  · next a hn hd => simp [hn, hd, argument?]
  · next hne =>
    split
    · next f hn hd =>
      cases ha : f.argument? .ln with
      | none => exact (ite_self none).symm
      | some a => exact (hne a (eq_of_argument? ha ▸ hn) hd).elim
    · rfl

namespace Equals

variable {m n : Monomial α}

theorem negated (h : m.Equals n) : m.negated.Equals n.negated :=
  ⟨congrArg Neg.neg h.coeff, h.numer, h.denom⟩

theorem logArgument? (h : m.Equals n) :
    Option.Rel (· == ·) m.logArgument? n.logArgument? := by
  obtain ⟨c, fs, ds⟩ := m
  obtain ⟨c', gs, es⟩ := n
  obtain ⟨rfl, hn, hd⟩ := h
  rw [logArgument?_eq, logArgument?_eq]
  rcases hn with _ | ⟨hf, _ | _⟩
  · exact .none
  · cases hd with
    | nil =>
      simp only
      split
      · exact rel_argument? .ln hf
      · exact .none
    | cons => exact .none
  · exact .none

theorem functionPair? (h : m.Equals n) (f g : UnaryOp) :
    Option.Rel (fun p q => p.1 == q.1 ∧ p.2 == q.2) (m.functionPair? f g)
      (n.functionPair? f g) := by
  obtain ⟨c, fs, ds⟩ := m
  obtain ⟨c', gs, es⟩ := n
  obtain ⟨rfl, hn, hd⟩ := h
  rcases hn with _ | ⟨ha, _ | ⟨hb, _ | _⟩⟩
  · exact .none
  · exact .none
  · cases hd with
    | nil =>
      refine rel_bind (rel_argument? f ha) fun x x' hx => ?_
      exact rel_bind (rel_argument? g hb) fun y y' hy => .some ⟨hx, hy⟩
    | cons => exact .none
  · exact .none

variable [LawfulScalar α]

theorem numerator (h : m.Equals n) : m.numerator == n.numerator := by
  obtain ⟨c, fs, ds⟩ := m
  obtain ⟨c', gs, es⟩ := n
  obtain ⟨rfl, hn, -⟩ := h
  cases hn with
  | nil => exact BEq.rfl
  | cons hf hs =>
    unfold Monomial.numerator
    simp only
    split
    · exact product_congr (.cons hf hs)
    · split
      · exact unary_congr .negate (product_congr (.cons hf hs))
      · exact product_congr (.cons BEq.rfl (.cons hf hs))

theorem toFormula (h : m.Equals n) : m.toFormula == n.toFormula := by
  have hnumer := h.numerator
  obtain ⟨c, fs, ds⟩ := m
  obtain ⟨c', gs, es⟩ := n
  obtain ⟨rfl, -, hd⟩ := h
  cases hd with
  | nil => exact hnumer
  | cons hf hs => exact binary_congr .div hnumer (product_congr (.cons hf hs))

end Equals
end Monomial

variable [LawfulScalar α] {ms ns : List (Monomial α)}

/-! ## Logarithms -/

theorem equals_mergedLogarithm {fs fs' gs gs' : List (Formula α)}
    (hf : List.Forall₂ (· == ·) fs fs') (hg : List.Forall₂ (· == ·) gs gs') :
    (mergedLogarithm fs gs).Equals (mergedLogarithm fs' gs') := by
  have hsingle {v : α} {f g : Formula α} (h : f == g) :
      (⟨v, [.unary .ln f], []⟩ : Monomial α).Equals ⟨v, [.unary .ln g], []⟩ :=
    ⟨rfl, .cons (unary_congr .ln h) .nil, .nil⟩
  cases hf with
  | nil => exact hsingle (product_congr hg)
  | cons hf hs =>
    cases hg with
    | nil => exact hsingle (product_congr (.cons hf hs))
    | cons hg hs' =>
      exact hsingle (binary_congr .div (product_congr (.cons hf hs)) (product_congr (.cons hg hs')))

omit [LawfulScalar α] in
theorem isSome_logArgument?_congr {m n : Monomial α} (h : m.Equals n) :
    m.logArgument?.isSome = n.logArgument?.isSome := by
  have hrel := h.logArgument?
  generalize m.logArgument? = a, n.logArgument? = a' at hrel
  cases hrel <;> rfl

omit [LawfulScalar α] in
theorem forall₂_logArguments (h : List.Forall₂ Monomial.Equals ms ns) (added : Bool) :
    List.Forall₂ (· == ·) (logArguments added ms) (logArguments added ns) := by
  refine List.rel_filterMap (fun m n hmn => hmn.logArgument?) (forall₂_filter ?_
    (forall₂_filter (fun m n => isSome_logArgument?_congr) h))
  exact fun m n hmn => by rw [hmn.coeff]

theorem forall₂_mergeLogarithms (h : List.Forall₂ Monomial.Equals ms ns) :
    List.Forall₂ Monomial.Equals (mergeLogarithms ms).value (mergeLogarithms ns).value := by
  have hlogs := forall₂_filter (fun m n => isSome_logArgument?_congr) h
  rw [value_mergeLogarithms, value_mergeLogarithms, hlogs.length_eq]
  split
  · exact h
  · refine List.rel_append (forall₂_filter (fun m n hmn => ?_) h) (.cons ?_ .nil)
    · rw [isSome_logArgument?_congr hmn]
    · exact equals_mergedLogarithm (forall₂_logArguments h true) (forall₂_logArguments h false)

/-! ## Sums of angles -/

section
variable {a a' b b' : Monomial α}

theorem rel_cosineSum? (ha : a.Equals a') (hb : b.Equals b') :
    Option.Rel (· == ·) (cosineSum? a b) (cosineSum? a' b') := by
  refine rel_bind (ha.functionPair? .cos .cos) fun (x, y) (x', y') ⟨hx, hy⟩ => ?_
  refine rel_bind (hb.functionPair? .sin .sin) fun (u, v) (u', v') ⟨hu, hv⟩ => ?_
  refine rel_guard ?_ (.some (unary_congr .cos ?_))
  · rw [BEq.congr_left hx, BEq.congr_right hu, BEq.congr_left hy, BEq.congr_right hv]
  · rw [ha.coeff, hb.coeff]
    split
    · exact binary_congr .sub hx hy
    · exact binary_congr .add hx hy

theorem rel_sineSum? (ha : a.Equals a') (hb : b.Equals b') :
    Option.Rel (· == ·) (sineSum? a b) (sineSum? a' b') := by
  refine rel_bind (ha.functionPair? .cos .sin) fun (q, p) (q', p') ⟨hq, hp⟩ => ?_
  refine rel_bind (hb.functionPair? .cos .sin) fun (u, v) (u', v') ⟨hu, hv⟩ => ?_
  refine rel_guard ?_ (.some (unary_congr .sin ?_))
  · rw [BEq.congr_left hp, BEq.congr_right hu, BEq.congr_left hq, BEq.congr_right hv,
      BEq.congr_left hp, BEq.congr_right hq]
  · rw [ha.coeff, hb.coeff]
    split
    · exact binary_congr .add hp hq
    · exact binary_congr .sub hp hq

theorem rel_angleSum? (ha : a.Equals a') (hb : b.Equals b') :
    Option.Rel (fun p q => p.1.Equals q.1 ∧ p.2 = q.2) (angleSum? a b) (angleSum? a' b') := by
  have hterm {f g : Formula α} (h : f == g) :
      (⟨a'.coeff, [f], []⟩ : Monomial α).Equals ⟨a'.coeff, [g], []⟩ :=
    ⟨rfl, .cons h .nil, .nil⟩
  rw [angleSum?, angleSum?, ha.coeff, hb.coeff]
  split
  · rcases rel_cases (rel_cosineSum? ha hb) with ⟨hcos, hcos'⟩ | ⟨f, f', hcos, hcos', hf⟩
    · rcases rel_cases (rel_sineSum? ha hb) with ⟨hsin, hsin'⟩ | ⟨f, f', hsin, hsin', hf⟩
      · rw [hcos, hcos', hsin, hsin']
        exact .none
      · rw [hcos, hcos', hsin, hsin']
        exact .some ⟨hterm hf, rfl⟩
    · rw [hcos, hcos']
      exact .some ⟨hterm hf, rfl⟩
  · exact .none

/-- Whether the merges are the same, of equal terms. -/
structure Merge.Equals (m n : Merge α) : Prop where
  term : m.term.Equals n.term
  step : m.step = n.step
  others : List.Forall₂ Monomial.Equals m.others n.others

theorem rel_mergeWith? (ha : a.Equals a') (h : List.Forall₂ Monomial.Equals ms ns) :
    Option.Rel Merge.Equals (mergeWith? a ms) (mergeWith? a' ns) := by
  induction h with
  | nil => exact .none
  | @cons b b' ms ns hb hs ih =>
    rw [mergeWith?, mergeWith?]
    rcases rel_cases (rel_angleSum? ha hb) with
      ⟨hm, hm'⟩ | ⟨⟨t, step⟩, ⟨t', step'⟩, hm, hm', ht, hstep⟩
    · rw [hm, hm']
      rcases rel_cases ih with ⟨hn, hn'⟩ | ⟨m, m', hn, hn', h⟩
      · rw [hn, hn']
        exact .none
      · rw [hn, hn']
        exact .some ⟨h.term, h.step, .cons hb h.others⟩
    · rw [hm, hm']
      exact .some ⟨ht, hstep, hs⟩

theorem rel_firstMerge? {before before' : List (Monomial α)}
    (hbefore : List.Forall₂ Monomial.Equals before before')
    (h : List.Forall₂ Monomial.Equals ms ns) :
    Option.Rel Merge.Equals (firstMerge? before ms) (firstMerge? before' ns) := by
  induction h generalizing before before' with
  | nil => exact .none
  | @cons a a' ms ns ha hs ih =>
    rw [firstMerge?, firstMerge?]
    rcases rel_cases (rel_mergeWith? ha (List.rel_append hbefore hs)) with
      ⟨hm, hm'⟩ | ⟨m, m', hm, hm', h⟩
    · rw [hm, hm']
      exact ih (List.rel_append hbefore (.cons ha .nil))
    · rw [hm, hm']
      exact .some h

theorem forall₂_mergeAngleSums (h : List.Forall₂ Monomial.Equals ms ns) :
    List.Forall₂ Monomial.Equals (mergeAngleSums ms).value (mergeAngleSums ns).value := by
  fun_induction mergeAngleSums ms generalizing ns with
  | case1 ms hnone =>
    rw [mergeAngleSums]
    split
    · exact h
    · next m hsome =>
      have hrel := rel_firstMerge? .nil h
      rw [hnone, hsome] at hrel
      cases hrel
  | case2 ms m hsome _ ih =>
    rw [mergeAngleSums.eq_def ns]
    have hrel := rel_firstMerge? .nil h
    rw [hsome] at hrel
    split
    · next hnone =>
      rw [hnone] at hrel
      cases hrel
    · next n hn =>
      rw [hn] at hrel
      cases hrel with
      | some heq => exact ih (List.rel_append heq.others (.cons heq.term .nil))

end

/-! ## Assembling -/

theorem subtractAll_congr {ps ps' : List (Formula α)} {ts ts' : List (Formula α × Formula α)}
    (hp : List.Forall₂ (· == ·) ps ps')
    (ht : List.Forall₂ (fun s t => s.1 == t.1 ∧ s.2 == t.2) ts ts') :
    subtractAll ps ts == subtractAll ps' ts' := by
  have hfst : List.Forall₂ (· == ·) (ts.map (·.1)) (ts'.map (·.1)) :=
    List.rel_map (fun _ _ h => h.1) ht
  have hfoldl (f : Formula α) (ts : List (Formula α × Formula α)) :
      ts.foldl (fun f term => f - term.1) f = (ts.map (·.1)).foldl (binary .sub) f :=
    List.foldl_map.symm
  cases hp with
  | nil =>
    rcases ht with _ | ⟨hs, _ | _⟩
    · exact BEq.rfl
    · exact hs.2
    · exact unary_congr .negate (sum_congr hfst)
  | cons hf hs =>
    rw [subtractAll, subtractAll, hfoldl, hfoldl]
    · exact foldl_congr .sub (sum_congr (.cons hf hs)) hfst
    all_goals simp

theorem forall₂_positive (h : List.Forall₂ Monomial.Equals ms ns) :
    List.Forall₂ (· == ·) (sort ((ms.filter fun m => lt 0 m.coeff).map Monomial.toFormula))
      (sort ((ns.filter fun m => lt 0 m.coeff).map Monomial.toFormula)) :=
  forall₂_sort (List.rel_map (fun _ _ hmn => hmn.toFormula)
    (forall₂_filter (fun _ _ hmn => by rw [hmn.coeff]) h))

theorem forall₂_negative (h : List.Forall₂ Monomial.Equals ms ns) :
    List.Forall₂ (fun s t => s.1 == t.1 ∧ s.2 == t.2)
      (((ms.filter fun m => lt m.coeff 0).map fun m =>
        (m.negated.toFormula, m.toFormula)).mergeSort fun s t => (s.1.compare t.1).isLE)
      (((ns.filter fun m => lt m.coeff 0).map fun m =>
        (m.negated.toFormula, m.toFormula)).mergeSort fun s t => (s.1.compare t.1).isLE) :=
  forall₂_mergeSort (fun _ _ _ _ hs ht => by rw [compare_congr hs.1 ht.1])
    (List.rel_map (fun _ _ hmn => ⟨hmn.negated.toFormula, hmn.toFormula⟩)
      (forall₂_filter (fun _ _ hmn => by rw [hmn.coeff]) h))

/-- Equal constants and equal terms are put together to equal formulas. -/
theorem assemble_congr {v w : α} (hv : v == w) (h : List.Forall₂ Monomial.Equals ms ns) :
    assemble v ms == assemble w ns := by
  have hofValue {v w : α} (h : v == w) : ofValue v = ofValue w :=
    ofValue_eq_of_agree (.of_beq h)
  have hneg : -v == -w := (LawfulScalar.neg_beq_neg v w).trans hv
  have hpositive := forall₂_positive h
  have hnegative := forall₂_negative h
  obtain ⟨hsign, hsign'⟩ := sign_congr hv
  unfold assemble
  simp only [hsign, hsign', hofValue hv, hofValue hneg]
  split
  · exact subtractAll_congr (.cons BEq.rfl hpositive) hnegative
  · split
    · exact subtractAll_congr hpositive (.cons ⟨BEq.rfl, BEq.rfl⟩ hnegative)
    · exact subtractAll_congr hpositive hnegative

end SymCalc
