import Mathlib.Data.List.Infix
import Mathlib.Data.List.Sort
import Mathlib.Logic.Function.Iterate
import SymCalc.Formula.Walk
import SymCalc.Proofs.Formula.Variables

/-!
# The walk through a formula

* `Formula.at?`: the part of a formula at a place;
* `Formula.occurrences`: all parts with their places, operands before the operation on them;
* `Place.Before`: the order of places in which those inside come first, and then those to the left;
* `Walk.Yields`: the occurrences that a walk comes to, call after call;
* `Walk.visit?`, `Walk.advance`: what one call gives, and the walk after it.

The walk goes through the occurrences in this order (`Walk.yields_occurrences`). Coming to an
operation, it knows that its operands are done by the place it has left last: it has just left the
last operand, or nothing inside the operation at all. Evaluation meets the variables in the same
order (`Walk.ofFormula_postOrder`).
-/

namespace SymCalc

variable {α : Type}

/-! ## Places -/

/-- Whether the first place comes before the second one: it is a place inside, or inside an operand
to the left. -/
def Place.Before (p q : Place) : Prop :=
  (∃ i, i :: q <:+ p) ∨ ∃ above i j, i < j ∧ i :: above <:+ p ∧ j :: above <:+ q

theorem not_cons_isSuffix (i : Nat) (p : Place) : ¬ i :: p <:+ p := fun h => by
  have := h.length_le
  rw [List.length_cons] at this
  omega

theorem eq_of_cons_isSuffix {p above : Place} {i j : Nat} (hi : i :: above <:+ p)
    (hj : j :: above <:+ p) : i = j :=
  (List.cons.inj ((List.suffix_of_suffix_length_le hi hj le_rfl).eq_of_length rfl)).1

theorem Place.Before.irrefl (p : Place) : ¬ p.Before p := by
  rintro (⟨i, h⟩ | ⟨above, i, j, hij, hi, hj⟩)
  · exact not_cons_isSuffix i p h
  · exact absurd (eq_of_cons_isSuffix hi hj) (Nat.ne_of_lt hij)

/-! ## Occurrences -/

namespace Formula

variable {f g : Formula α} {p place : Place} {o : Occurrence α}

/-- The operand of an operation, the first one for 0 and the second one for 1. -/
def operand? : Formula α → Nat → Option (Formula α)
  | unary _ a, 0 => some a
  | binary _ a _, 0 => some a
  | binary _ _ b, 1 => some b
  | _, _ => none

/-- The part of the formula at a place. -/
def at? (f : Formula α) : Place → Option (Formula α)
  | [] => some f
  | i :: place => (f.at? place).bind (·.operand? i)

/-- The occurrences of all parts of a formula that stands at `place`, operands from left to right
before the operations on them. -/
def occurrences (place : Place) : Formula α → List (Occurrence α)
  | const v => [⟨place, const v⟩]
  | var x => [⟨place, var x⟩]
  | unary op a => a.occurrences (0 :: place) ++ [⟨place, unary op a⟩]
  | binary op a b =>
    a.occurrences (0 :: place) ++ b.occurrences (1 :: place) ++ [⟨place, binary op a b⟩]

attribute [local simp] operand? at? occurrences

theorem occurrences_ne_nil (f : Formula α) (place : Place) : f.occurrences place ≠ [] := by
  cases f <;> simp

theorem map_formula_occurrences (f : Formula α) (place : Place) :
    (f.occurrences place).map Occurrence.formula = f.postOrder := by
  induction f generalizing place with
  | const v | var x => rfl
  | unary op a ih => simp [postOrder, ih]
  | binary op a b iha ihb => simp [postOrder, iha, ihb]

/-- A place can be followed from the whole formula downwards as well. -/
theorem at?_append_singleton (f : Formula α) (p : Place) (i : Nat) :
    f.at? (p ++ [i]) = (f.operand? i).bind (·.at? p) := by
  induction p with
  | nil => simp
  | cons j p ih => rw [List.cons_append, at?, ih, Option.bind_assoc]; rfl

theorem operand?_unary {op : UnaryOp} {a : Formula α} {i : Nat} :
    (unary op a).operand? i = some g ↔ i = 0 ∧ a = g := by
  cases i <;> simp

theorem operand?_binary {op : ArithOp} {a b : Formula α} {i : Nat} :
    (binary op a b).operand? i = some g ↔ i = 0 ∧ a = g ∨ i = 1 ∧ b = g := by
  match i with
  | 0 => simp
  | 1 => simp
  | i + 2 => simp

/-- What stands in a formula is the formula itself or stands in an operand. -/
theorem exists_at?_iff : (∃ p, o.place = p ++ place ∧ f.at? p = some o.formula) ↔
    o = ⟨place, f⟩ ∨ ∃ i a, f.operand? i = some a ∧
      ∃ p, o.place = p ++ i :: place ∧ a.at? p = some o.formula := by
  constructor
  · rintro ⟨p, hplace, hp⟩
    rcases List.eq_nil_or_concat p with rfl | ⟨p, i, rfl⟩
    · cases o
      cases hplace
      cases hp
      exact .inl rfl
    · rw [List.concat_eq_append] at hplace hp
      rw [at?_append_singleton, Option.bind_eq_some_iff] at hp
      obtain ⟨a, ha, hp⟩ := hp
      exact .inr ⟨i, a, ha, p, by simpa using hplace, hp⟩
  · rintro (rfl | ⟨i, a, ha, p, hplace, hp⟩)
    · exact ⟨[], rfl, rfl⟩
    · exact ⟨p ++ [i], by simp [hplace], by rw [at?_append_singleton, ha]; exact hp⟩

/-- The occurrences are the places of the formula with the parts that stand there. -/
theorem mem_occurrences_iff :
    o ∈ f.occurrences place ↔ ∃ p, o.place = p ++ place ∧ f.at? p = some o.formula := by
  induction f generalizing place with
  | const v | var x =>
    rw [exists_at?_iff]
    simp
  | unary op a ih =>
    rw [exists_at?_iff, occurrences, List.mem_append, List.mem_singleton, ih, or_comm]
    simp only [operand?_unary, and_assoc, exists_eq_left, exists_and_left, exists_eq_left']
  | binary op a b iha ihb =>
    rw [exists_at?_iff, occurrences, List.mem_append, List.mem_append, List.mem_singleton, iha, ihb,
      or_comm]
    simp only [operand?_binary, or_and_right, exists_or, and_assoc, exists_eq_left, exists_and_left,
      exists_eq_left']

theorem isSuffix_of_mem_occurrences (h : o ∈ f.occurrences place) : place <:+ o.place := by
  obtain ⟨p, hplace, -⟩ := mem_occurrences_iff.1 h
  exact ⟨p, hplace.symm⟩

theorem pairwise_occurrences (f : Formula α) (place : Place) :
    (f.occurrences place).Pairwise fun o o' => o.place.Before o'.place := by
  induction f generalizing place with
  | const v | var x => exact List.pairwise_singleton ..
  | unary op a ih =>
    refine List.pairwise_append.2 ⟨ih _, List.pairwise_singleton .., fun o ho o' ho' => ?_⟩
    cases List.mem_singleton.1 ho'
    exact .inl ⟨0, isSuffix_of_mem_occurrences ho⟩
  | binary op a b iha ihb =>
    refine List.pairwise_append.2 ⟨List.pairwise_append.2 ⟨iha _, ihb _, fun o ho o' ho' => ?_⟩,
      List.pairwise_singleton .., fun o ho o' ho' => ?_⟩
    · exact .inr ⟨place, 0, 1, Nat.zero_lt_one, isSuffix_of_mem_occurrences ho,
        isSuffix_of_mem_occurrences ho'⟩
    · cases List.mem_singleton.1 ho'
      rcases List.mem_append.1 ho with ho | ho
      · exact .inl ⟨0, isSuffix_of_mem_occurrences ho⟩
      · exact .inl ⟨1, isSuffix_of_mem_occurrences ho⟩

theorem nodup_places (f : Formula α) (place : Place) :
    ((f.occurrences place).map Occurrence.place).Nodup := by
  refine List.pairwise_map.2 ((f.pairwise_occurrences place).imp fun {o o'} h heq => ?_)
  rw [heq] at h
  exact h.irrefl _

end Formula

/-! ## Walks -/

namespace Walk

variable {w w' w'' : Walk α} {os os' : List (Occurrence α)} {f : Formula α}

/-- From `w` the walk comes to the occurrences one after another, and then it is at `w'`. -/
inductive Yields : Walk α → List (Occurrence α) → Walk α → Prop where
  | done (w : Walk α) : Yields w [] w
  | next {w w' w'' : Walk α} {o : Occurrence α} {os : List (Occurrence α)}
      (h : w.next? = some (o.formula, w')) (hlast : w'.last? = some o.place)
      (hrest : Yields w' os w'') : Yields w (o :: os) w''

theorem Yields.append (h : Yields w os w') (h' : Yields w' os' w'') : Yields w (os ++ os') w'' := by
  induction h with
  | done => exact h'
  | next hnext hlast _ ih => exact .next hnext hlast (ih h')

/-- What a walk comes to depends on its next step only. -/
theorem Yields.of_next?_eq (h : Yields w' os w'') (hne : os ≠ []) (hnext : w.next? = w'.next?) :
    Yields w os w'' := by
  cases h with
  | done => exact absurd rfl hne
  | next h hlast hrest => exact .next (hnext.trans h) hlast hrest

section
variable {op : UnaryOp} {op' : ArithOp} {a b : Formula α} {place : Place}
  {above : List (Occurrence α)} {last? : Option Place}

theorem next?_unary (h : last? ≠ some (0 :: place)) :
    next? ⟨⟨place, .unary op a⟩ :: above, last?⟩ =
      next? ⟨⟨0 :: place, a⟩ :: ⟨place, .unary op a⟩ :: above, last?⟩ := by
  simp only [next?, descend, if_neg h]

theorem next?_unary_of_left :
    next? ⟨⟨place, .unary op a⟩ :: above, some (0 :: place)⟩ =
      some (.unary op a, ⟨above, some place⟩) := by
  simp only [next?, descend, if_true]

theorem next?_binary (h : last? ≠ some (1 :: place)) :
    next? ⟨⟨place, .binary op' a b⟩ :: above, last?⟩ =
      next? ⟨⟨0 :: place, a⟩ :: ⟨1 :: place, b⟩ :: ⟨place, .binary op' a b⟩ :: above, last?⟩ := by
  simp only [next?, descend, if_neg h]

theorem next?_binary_of_left :
    next? ⟨⟨place, .binary op' a b⟩ :: above, some (1 :: place)⟩ =
      some (.binary op' a b, ⟨above, some place⟩) := by
  simp only [next?, descend, if_true]

end

/-- Whether the walk has not left a place last that is `place` or inside it. -/
def IsOutside (last? : Option Place) (place : Place) : Prop := ∀ p ∈ last?, ¬ place <:+ p

section
variable {place : Place} {last? : Option Place}

theorem IsOutside.ne (h : IsOutside last? place) (i : Nat) : last? ≠ some (i :: place) :=
  fun heq => h _ heq (List.suffix_cons i place)

theorem IsOutside.operand (h : IsOutside last? place) (i : Nat) : IsOutside last? (i :: place) :=
  fun p hp hi => h p hp ((List.suffix_cons i place).trans hi)

theorem isOutside_of_ne {i j : Nat} (h : i ≠ j) : IsOutside (some (i :: place)) (j :: place) := by
  intro p hp hj
  cases hp
  exact h (eq_of_cons_isSuffix (List.suffix_refl _) hj)

end

/-- A walk that comes to a formula, not having been inside it last, goes through all its parts. -/
theorem yields_occurrences (f : Formula α) (place : Place) (above : List (Occurrence α))
    (last? : Option Place) (hlast : IsOutside last? place) :
    Yields ⟨⟨place, f⟩ :: above, last?⟩ (f.occurrences place) ⟨above, some place⟩ := by
  induction f generalizing place above last? with
  | const v | var x => exact .next rfl rfl (.done _)
  | unary op a ih =>
    have ha := ih (0 :: place) (⟨place, .unary op a⟩ :: above) last? (hlast.operand 0)
    exact .append (ha.of_next?_eq (a.occurrences_ne_nil _) (next?_unary (hlast.ne 0)))
      (.next next?_unary_of_left rfl (.done _))
  | binary op a b iha ihb =>
    have ha := iha (0 :: place) (⟨1 :: place, b⟩ :: ⟨place, .binary op a b⟩ :: above) last?
      (hlast.operand 0)
    -- The second operand is entered right after the first one has been left.
    have hb := ihb (1 :: place) (⟨place, .binary op a b⟩ :: above) (some (0 :: place))
      (isOutside_of_ne Nat.zero_ne_one)
    exact .append
      (.append (ha.of_next?_eq (a.occurrences_ne_nil _) (next?_binary (hlast.ne 1))) hb)
      (.next next?_binary_of_left rfl (.done _))

/-- What the next call gives: the part with the place that has been left. -/
def visit? (w : Walk α) : Option (Option Place × Formula α) :=
  w.next?.map fun r => (r.2.last?, r.1)

/-- The walk after one more call. A walk that is over stays as it is. -/
def advance (w : Walk α) : Walk α :=
  match w.next? with
  | some (_, w') => w'
  | none => w

/-- The calls give the occurrences one after another, and nothing from then on. -/
theorem Yields.visit?_iterate (h : Yields w os w') (hover : w'.next? = none) (k : Nat) :
    (advance^[k] w).visit? = os[k]?.map fun o => (some o.place, o.formula) := by
  induction h generalizing k with
  | done w =>
    have hfixed : w.advance = w := by rw [advance, hover]
    rw [Function.iterate_fixed hfixed, visit?, hover]
    rfl
  | next hnext hlast _ ih =>
    cases k with
    | zero => simp [visit?, hnext, hlast]
    | succ k =>
      rw [Function.iterate_succ_apply, advance, hnext]
      exact ih hover k

theorem Yields.take_eq (h : Yields w os w') (hover : w'.next? = none) (n : Nat) :
    w.take n = (os.map Occurrence.formula).take n := by
  induction h generalizing n with
  | done w =>
    cases n with
    | zero => rfl
    | succ n => rw [take, hover]; rfl
  | next hnext _ _ ih =>
    cases n with
    | zero => rfl
    | succ n =>
      rw [take, hnext]
      exact congrArg (_ :: ·) (ih hover n)

end Walk

/-! ## Suggestions -/

namespace Bindings

variable {β : Type} {b : Bindings β} {x y : String}

theorem isBound_iff : b.isBound x ↔ x ∈ b.entries.map Prod.fst := by
  rw [isBound, get?]
  induction b.entries with
  | nil => simp
  | cons e es ih =>
    rw [List.lookup_cons]
    by_cases he : x = e.1
    · simp [he]
    · simp [beq_false_of_ne he, ih, he]

/-- The suggestions are the variables with a value at a distance below 2, each as often as it has
one. -/
theorem similar_perm (b : Bindings β) (x : String) :
    (b.similar x).Perm
      ((b.entries.map Prod.fst).filter fun y => editDistance y.toList x.toList < 2) :=
  (List.mergeSort_perm ..).filter _

theorem mem_similar : y ∈ b.similar x ↔ b.isBound y ∧ editDistance y.toList x.toList < 2 := by
  rw [(b.similar_perm x).mem_iff, List.mem_filter, isBound_iff, decide_eq_true_eq]

theorem pairwise_similar (b : Bindings β) (x : String) : (b.similar x).Pairwise (· ≤ ·) :=
  (List.pairwise_mergeSort' (· ≤ ·) _).filter _

end Bindings

namespace Walk

/-- The calls of the walk through a formula give the occurrences of its parts, every one of them
once, in post-order, and nothing from then on. Evaluation fails exactly if a variable has no value,
at the first such variable on the walk, with the similar variables in order as suggestions. -/
theorem ofFormula_postOrder [Scalar α] (f : Formula α) (b : Bindings α) :
    (∀ k, (advance^[k] (ofFormula f)).visit? =
      (f.occurrences [])[k]?.map fun o => (some o.place, o.formula)) ∧
    (∀ n, (ofFormula f).take n = f.postOrder.take n) ∧
    (f.occurrences []).map Occurrence.formula = f.postOrder ∧
    (∀ p g, ⟨p, g⟩ ∈ f.occurrences [] ↔ f.at? p = some g) ∧
    ((f.occurrences []).map Occurrence.place).Nodup ∧
    (f.occurrences []).Pairwise (fun o o' => o.place.Before o'.place) ∧
    ((∃ p, f.eval b = .error p) ↔ ∃ x ∈ f.vars, ¬ b.isBound x) ∧
    (∀ p, f.eval b = .error p ↔
      ∃ x, (f.postOrder.filterMap Formula.name?).find? (fun x => !b.isBound x) = some x ∧
        p = .undefinedVariable x (b.similar x)) ∧
    ∀ x, (b.similar x).Pairwise (· ≤ ·) ∧
      (b.similar x).Perm
        ((b.entries.map Prod.fst).filter fun y => editDistance y.toList x.toList < 2) ∧
      ∀ y, y ∈ b.similar x ↔ b.isBound y ∧ editDistance y.toList x.toList < 2 := by
  have hyields := yields_occurrences f [] [] none fun _ h => nomatch h
  have hmem (p : Place) (g : Formula α) : ⟨p, g⟩ ∈ f.occurrences [] ↔ f.at? p = some g := by
    rw [Formula.mem_occurrences_iff]
    simp only [List.append_nil, exists_eq_left']
  have htake (n : Nat) : (ofFormula f).take n = f.postOrder.take n := by
    rw [← f.map_formula_occurrences []]
    exact hyields.take_eq rfl n
  exact ⟨hyields.visit?_iterate rfl, htake, f.map_formula_occurrences [], hmem, f.nodup_places [],
    f.pairwise_occurrences [], Formula.exists_eval_error_iff, fun _ => Formula.eval_eq_error_iff,
    fun x => ⟨b.pairwise_similar x, b.similar_perm x, fun _ => Bindings.mem_similar⟩⟩

/-- The two parts `x` of `sin(x+x)` are told apart. -/
example : (ofFormula (.unary .sin (.var "x" + .var "x") : Formula Float)).take 9 =
    [.var "x", .var "x", .var "x" + .var "x", .unary .sin (.var "x" + .var "x")] := rfl

end Walk
end SymCalc
