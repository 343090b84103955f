import SymCalc.Syntax.Grammar

/-!
# What readers return

`Reading.Gives` says that a reading succeeded, with which value and where. Every function that reads
a part of the language has one lemma `gives_…` that says when it succeeds, in terms of the tokens
ahead that are not blank (`Cursor.clean`); later proofs do not open these functions.
-/

namespace SymCalc

namespace Reading

variable {n m : Nat} {β γ : Type}

/-- The reading succeeded with the value `v`, and the cursor after it is `c`. -/
def Gives (r : Reading n β) (v : β) (c : Cursor) : Prop := r.result = .ok v ∧ r.after = c

@[simp] theorem gives_done {v w : β} {c d : Cursor} {h : c.remaining < n} :
    (done v c h).Gives w d ↔ v = w ∧ c = d := by
  simp [Gives, result, after]

@[simp] theorem gives_failed {r : Report} {v : β} {c d : Cursor} :
    (failed r c : Reading n β).Gives v d ↔ False := by
  simp [Gives, result]

@[simp] theorem gives_weaken {r : Reading m β} {h : m ≤ n} {v : β} {c : Cursor} :
    (r.weaken h).Gives v c ↔ r.Gives v c := by
  cases r <;> simp [weaken]

@[simp] theorem gives_attempt {r : Reading n β} {v : β} {c d : Cursor} :
    (Cursor.attempt d r).Gives v c ↔ r.Gives v c := by
  cases r <;> simp [Cursor.attempt]

theorem Gives.remaining_lt {r : Reading n β} {v : β} {c : Cursor} (h : r.Gives v c) :
    c.remaining < n := by
  cases r with
  | done w d lt =>
    obtain ⟨rfl, rfl⟩ := gives_done.1 h
    exact lt
  | failed => exact (gives_failed.1 h).elim

theorem Gives.eq_done {r : Reading n β} {v : β} {c : Cursor} (h : r.Gives v c) :
    ∃ lt, r = .done v c lt := by
  cases r with
  | done w d lt =>
    obtain ⟨rfl, rfl⟩ := gives_done.1 h
    exact ⟨lt, rfl⟩
  | failed => exact (gives_failed.1 h).elim

theorem eq_failed_of_not_gives {r : Reading n β} (h : ∀ v c, ¬ r.Gives v c) :
    ∃ report c, r = .failed report c := by
  cases r with
  | done v c lt => exact (h v c (gives_done.2 ⟨rfl, rfl⟩)).elim
  | failed report c => exact ⟨report, c, rfl⟩

theorem Gives.unique {r : Reading n β} {v w : β} {c d : Cursor} (h : r.Gives v c)
    (h' : r.Gives w d) : v = w ∧ c = d :=
  ⟨Except.ok.inj (h.1.symm.trans h'.1), h.2.symm.trans h'.2⟩

end Reading

namespace Cursor

variable {c d : Cursor} {t : Token} {β : Type}

/-- The tokens ahead that are not blank. -/
def clean (c : Cursor) : List Token := c.ahead.filter (!·.isBlank)

theorem peek?_eq (c : Cursor) : c.peek? = c.clean.head? := (List.head?_filter ..).symm

theorem clean_skipFrom (stop : Nat) (passed ahead : List Token) :
    (skipFrom stop passed ahead).clean = ahead.filter (!·.isBlank) := by
  induction ahead generalizing passed with
  | nil => rfl
  | cons t ts ih =>
    rw [skipFrom]
    split
    · next h => rw [ih, List.filter_cons_of_neg (by simp [h])]
    · rfl

@[simp] theorem clean_skipBlanks (c : Cursor) : c.skipBlanks.clean = c.clean :=
  clean_skipFrom ..

theorem ahead_skipFrom (stop : Nat) (passed ahead : List Token) :
    (skipFrom stop passed ahead).ahead.head? = (ahead.filter (!·.isBlank)).head? := by
  induction ahead generalizing passed with
  | nil => rfl
  | cons t ts ih =>
    rw [skipFrom]
    split
    · next h => rw [ih, List.filter_cons_of_neg (by simp [h])]
    · next h => rw [List.filter_cons_of_pos (by simp [h])]; rfl

theorem current?_skipBlanks (c : Cursor) : c.skipBlanks.current? = c.clean.head? :=
  ahead_skipFrom ..

/-! ## Tokens -/

theorem clean_of_gives_next (h : c.next.Gives t d) : c.clean = t :: d.clean := by
  rw [← clean_skipBlanks]
  have hc := current?_skipBlanks c
  rw [← clean_skipBlanks] at hc
  unfold next at h
  split at h
  · simp at h
  · next passed t' ts stop hs =>
    obtain ⟨rfl, rfl⟩ := Reading.gives_done.1 h
    rw [hs] at hc ⊢
    by_cases hb : t'.isBlank
    · simp only [current?, clean, List.head?_cons, List.filter_cons_of_neg, hb, Bool.not_true,
        Bool.false_eq_true, not_false_eq_true] at hc
      have := List.mem_filter.1 (List.mem_of_head? hc.symm)
      simp [hb] at this
    · exact List.filter_cons_of_pos (by simp [hb])

theorem gives_next_of_clean {ts : List Token} (h : c.clean = t :: ts) :
    ∃ d, c.next.Gives t d ∧ d.clean = ts := by
  cases hn : c.next with
  | done t' d lt =>
    have hg : c.next.Gives t' d := hn ▸ Reading.gives_done.2 ⟨rfl, rfl⟩
    obtain ⟨rfl, rfl⟩ := List.cons.inj ((clean_of_gives_next hg).symm.trans h)
    exact ⟨d, hn ▸ hg, rfl⟩
  | failed r d =>
    have hc := current?_skipBlanks c
    unfold next at hn
    split at hn
    · next hs => simp [hs, h, current?] at hc
    · cases hn

theorem gives_tokenOf {expected : List Token.Kind} {choose : Token → Option β} {v : β} :
    (c.tokenOf expected choose).Gives v d ↔ ∃ t, c.next.Gives t d ∧ choose t = some v := by
  unfold tokenOf
  cases hn : c.next with
  | failed r d => simp
  | done t d' lt =>
    cases hc : choose t with
    | none => simp [hc]
    | some w =>
      simp only [hc, Reading.gives_done]
      constructor
      · rintro ⟨rfl, rfl⟩
        exact ⟨t, ⟨rfl, rfl⟩, hc⟩
      · rintro ⟨t', ⟨rfl, rfl⟩, h⟩
        exact ⟨Option.some.inj (hc.symm.trans h), rfl⟩

theorem not_gives_tokenOf {expected : List Token.Kind} {choose : Token → Option β} :
    (∀ v d, ¬ (c.tokenOf expected choose).Gives v d) ↔ ∀ t ∈ c.clean.head?, choose t = none := by
  simp only [gives_tokenOf, not_exists, not_and]
  constructor
  · intro h t ht
    obtain ⟨ts, ht⟩ := List.head?_eq_some_iff.1 ht
    obtain ⟨d, hn, -⟩ := gives_next_of_clean ht
    exact Option.eq_none_iff_forall_ne_some.2 fun v => h v d t hn
  · intro h v d t hn
    simp [h t (by simp [clean_of_gives_next hn])]

theorem gives_token {kind : Token.Kind} :
    (c.token kind).Gives t d ↔ c.next.Gives t d ∧ t.kind = kind := by
  simp only [token, gives_tokenOf]
  grind

theorem gives_prefixOp {op : UnaryOp} {s : Span} :
    c.prefixOp.Gives (op, s) d ↔ ∃ t, c.next.Gives t d ∧ prefixOp? t = some op ∧ t.span = s := by
  simp only [prefixOp, gives_tokenOf, Option.map_eq_some_iff, Prod.mk.injEq]
  grind

theorem gives_postfixOp {op : UnaryOp} {s : Span} :
    c.postfixOp.Gives (op, s) d ↔
      ∃ t, c.next.Gives t d ∧ t.kind = .percent ∧ op = .percent ∧ t.span = s := by
  simp only [postfixOp, gives_tokenOf]
  grind

theorem gives_infixOp {op : InfixOp} {s : Span} :
    c.infixOp.Gives (op, s) d ↔ ∃ t, c.next.Gives t d ∧ infixOp? t = some op ∧ t.span = s := by
  simp only [infixOp, gives_tokenOf, Option.map_eq_some_iff, Prod.mk.injEq]
  grind

/-! ## Literals -/

theorem gives_number {e : Expr} :
    c.number.Gives e d ↔ ∃ t v, c.next.Gives t d ∧ t.kind = .number ∧
      Decimal.ofChars? t.lexeme.toList = some v ∧ e = .number v t.span := by
  have hs (t : Token) (d : Cursor) :
      (c.token .number).Gives t d ↔ c.next.Gives t d ∧ t.kind = .number := gives_token
  unfold number
  cases ht : c.token .number with
  | failed r d' =>
    simp only [ht, Reading.gives_failed, false_iff] at hs ⊢
    rintro ⟨t, v, hn, hk, -⟩
    exact hs t d ⟨hn, hk⟩
  | done t d' lt =>
    simp only [ht, Reading.gives_done] at hs
    cases hv : Decimal.ofChars? t.lexeme.toList <;>
      simp only [hv, Reading.gives_failed, Reading.gives_done] <;> grind

theorem gives_symbol {e : Expr} :
    c.symbol.Gives e d ↔ ∃ t, c.next.Gives t d ∧ t.kind = .name ∧
      ¬ d.current?.any (·.kind = .openParen) ∧ e = .symbol t.lexeme t.span := by
  have hs (t : Token) (d : Cursor) :
      (c.token .name).Gives t d ↔ c.next.Gives t d ∧ t.kind = .name := gives_token
  unfold symbol
  cases ht : c.token .name with
  | failed r d' =>
    simp only [ht, Reading.gives_failed, false_iff] at hs ⊢
    rintro ⟨t, hn, hk, -⟩
    exact hs t d ⟨hn, hk⟩
  | done t d' lt =>
    simp only [ht, Reading.gives_done] at hs
    simp only
    split <;> simp only [Reading.gives_failed, Reading.gives_done] <;> grind

/-- The token that a reading of a number or of a name starts with. -/
theorem gives_literal {e : Expr} :
    c.literal.Gives e d ↔ c.number.Gives e d ∨ c.symbol.Gives e d := by
  unfold literal
  rw [peek?_eq]
  split
  · next h =>
    rw [Reading.gives_attempt]
    refine ⟨.inr, fun hg => hg.resolve_left ?_⟩
    intro hn
    obtain ⟨t, v, ht, hk, -⟩ := gives_number.1 hn
    simp [clean_of_gives_next ht, hk] at h
  · next h =>
    rw [Reading.gives_attempt]
    refine ⟨.inl, fun hg => hg.resolve_right ?_⟩
    intro hn
    obtain ⟨t, ht, hk, -⟩ := gives_symbol.1 hn
    simp [clean_of_gives_next ht, hk] at h

/-! ## Expressions -/

/-- The token ahead that is not blank, if there is one, is not of the given class. -/
def Avoids (c : Cursor) (kind : Token.Kind) : Prop := ∀ t ∈ c.clean.head?, t.kind ≠ kind

theorem filter_peek?_eq_none {kind : Token.Kind} :
    c.peek?.filter (·.kind = kind) = none ↔ c.Avoids kind := by
  rw [peek?_eq, Option.filter_eq_none_iff, Avoids]
  simp

theorem gives_parenthesized {e : Expr} :
    c.parenthesized.Gives e d ↔ ∃ o c₁ inner c₂ t, c.next.Gives o c₁ ∧ o.kind = .openParen ∧
      c₁.Avoids .closeParen ∧ c₁.expression.Gives inner c₂ ∧ c₂.next.Gives t d ∧
      t.kind = .closeParen ∧ e = .paren inner (o.span.through t.span) := by
  rw [parenthesized]
  constructor
  · intro h
    split at h
    · simp at h
    next o c₁ _ ho =>
    split at h
    · simp at h
    next hp =>
    split at h
    · simp at h
    next inner c₂ _ he =>
    split at h
    · simp at h
    next t c₃ _ ht =>
    obtain ⟨rfl, rfl⟩ := Reading.gives_done.1 h
    obtain ⟨ho, hok⟩ := gives_token.1 (ho ▸ Reading.gives_done.2 ⟨rfl, rfl⟩)
    obtain ⟨ht, htk⟩ := gives_token.1 (ht ▸ Reading.gives_done.2 ⟨rfl, rfl⟩)
    exact ⟨o, c₁, inner, c₂, t, ho, hok, filter_peek?_eq_none.1 hp,
      he ▸ Reading.gives_done.2 ⟨rfl, rfl⟩, ht, htk, rfl⟩
  · rintro ⟨o, c₁, inner, c₂, t, ho, hok, hp, he, ht, htk, rfl⟩
    obtain ⟨_, ho⟩ := (gives_token.2 ⟨ho, hok⟩).eq_done
    obtain ⟨_, he⟩ := he.eq_done
    obtain ⟨_, ht⟩ := (gives_token.2 ⟨ht, htk⟩).eq_done
    simp [ho, filter_peek?_eq_none.2 hp, he, ht]

theorem gives_primary {e : Expr} :
    c.primary.Gives e d ↔
      c.number.Gives e d ∨ c.symbol.Gives e d ∨ c.parenthesized.Gives e d := by
  have hnum (h : c.number.Gives e d) : c.clean.head?.map Token.kind = some .number := by
    obtain ⟨t, v, ht, hk, -⟩ := gives_number.1 h
    simp [clean_of_gives_next ht, hk]
  have hsym (h : c.symbol.Gives e d) : c.clean.head?.map Token.kind = some .name := by
    obtain ⟨t, ht, hk, -⟩ := gives_symbol.1 h
    simp [clean_of_gives_next ht, hk]
  have hpar (h : c.parenthesized.Gives e d) :
      c.clean.head?.map Token.kind = some .openParen := by
    obtain ⟨t, _, _, _, _, ht, hk, -⟩ := gives_parenthesized.1 h
    simp [clean_of_gives_next ht, hk]
  rw [primary, peek?_eq]
  cases hc : c.clean.head? with
  | none => simp_all
  | some t => cases hk : t.kind <;> simp_all [gives_literal]

theorem gives_postfixes {x e : Expr} :
    (postfixes x c).Gives e d ↔
      (∃ t c₁, c.next.Gives t c₁ ∧ t.kind = .percent ∧
        (postfixes (.unary .percent t.span x (x.span.through t.span)) c₁).Gives e d) ∨
      c.Avoids .percent ∧ x = e ∧ c = d := by
  have hnone : (∀ v d, ¬ c.postfixOp.Gives v d) ↔ c.Avoids .percent := by
    rw [postfixOp, not_gives_tokenOf]
    simp [Avoids]
  rw [postfixes]
  cases h : c.postfixOp with
  | failed r c₁ =>
    simp only [h, Reading.gives_failed, not_false_eq_true, implies_true, true_iff] at hnone
    simp only [hnone, true_and, Reading.gives_done]
    refine ⟨.inr, fun h => h.resolve_left ?_⟩
    rintro ⟨t, c₁, hn, hk, -⟩
    exact hnone t (by simp [clean_of_gives_next hn]) hk
  | done v c₁ lt =>
    obtain ⟨op, s⟩ := v
    obtain ⟨t, hn, hk, rfl, rfl⟩ := gives_postfixOp.1 (h ▸ Reading.gives_done.2 ⟨rfl, rfl⟩)
    have hne : ¬ c.Avoids .percent := fun ha => ha t (by simp [clean_of_gives_next hn]) hk
    simp only [Reading.gives_weaken, hne, false_and, or_false]
    refine ⟨fun h => ⟨t, c₁, hn, hk, h⟩, ?_⟩
    rintro ⟨t', c₁', hn', -, h⟩
    obtain ⟨rfl, rfl⟩ := hn.unique hn'
    exact h

theorem gives_operand {e : Expr} :
    c.operand.Gives e d ↔
      (∃ t op c₁ x, c.next.Gives t c₁ ∧ prefixOp? t = some op ∧ c₁.lacksOperand = false ∧
        c₁.operand.Gives x d ∧ e = .unary op t.span x (t.span.through x.span)) ∨
      (∀ t ∈ c.clean.head?, prefixOp? t = none) ∧
        ∃ x c₁, c.primary.Gives x c₁ ∧ (postfixes x c₁).Gives e d := by
  have hnone : (∀ v d, ¬ c.prefixOp.Gives v d) ↔ ∀ t ∈ c.clean.head?, prefixOp? t = none := by
    rw [prefixOp, not_gives_tokenOf]
    simp
  rw [operand]
  constructor
  · intro h
    split at h
    · next op s c₁ _ hop =>
      obtain ⟨t, ht, hto, rfl⟩ := gives_prefixOp.1 (hop ▸ Reading.gives_done.2 ⟨rfl, rfl⟩)
      split at h
      · simp at h
      next hl =>
      split at h
      · simp at h
      next x c₂ _ hx =>
      obtain ⟨rfl, rfl⟩ := Reading.gives_done.1 h
      exact .inl ⟨t, op, c₁, x, ht, hto, by simpa using hl,
        hx ▸ Reading.gives_done.2 ⟨rfl, rfl⟩, rfl⟩
    · next hop =>
      split at h
      · simp at h
      next x c₁ _ hx =>
      exact .inr ⟨hnone.1 (by simp [hop]), x, c₁, hx ▸ Reading.gives_done.2 ⟨rfl, rfl⟩,
        Reading.gives_weaken.1 h⟩
  · rintro (⟨t, op, c₁, x, ht, hop, hl, hx, rfl⟩ | ⟨hp, x, c₁, hx, he⟩)
    · obtain ⟨_, hop⟩ := (gives_prefixOp.2 ⟨t, ht, hop, rfl⟩).eq_done
      obtain ⟨_, hx⟩ := hx.eq_done
      simp [hop, hl, hx]
    · obtain ⟨_, _, hop⟩ := Reading.eq_failed_of_not_gives (hnone.2 hp)
      obtain ⟨_, hx⟩ := hx.eq_done
      simpa [hop, hx] using he

theorem gives_continuation {x e : Expr} :
    (continuation x c).Gives e d ↔
      (∃ t op c₁ y c₂, c.next.Gives t c₁ ∧ infixOp? t = some op ∧ c₁.operand.Gives y c₂ ∧
        (continuation (x.extend op t.span y) c₂).Gives e d) ∨
      (∀ t ∈ c.clean.head?, infixOp? t = none) ∧ x = e ∧ c = d := by
  have hnone : (∀ v d, ¬ c.infixOp.Gives v d) ↔ ∀ t ∈ c.clean.head?, infixOp? t = none := by
    rw [infixOp, not_gives_tokenOf]
    simp
  rw [continuation]
  constructor
  · intro h
    split at h
    · next hop => exact .inr ⟨hnone.1 (by simp [hop]), Reading.gives_done.1 h⟩
    next op s c₁ _ hop =>
    split at h
    · simp at h
    next y c₂ _ hy =>
    obtain ⟨t, ht, hto, rfl⟩ := gives_infixOp.1 (hop ▸ Reading.gives_done.2 ⟨rfl, rfl⟩)
    exact .inl ⟨t, op, c₁, y, c₂, ht, hto, hy ▸ Reading.gives_done.2 ⟨rfl, rfl⟩,
      Reading.gives_weaken.1 h⟩
  · rintro (⟨t, op, c₁, y, c₂, ht, hop, hy, he⟩ | ⟨hi, rfl, rfl⟩)
    · obtain ⟨_, hop⟩ := (gives_infixOp.2 ⟨t, ht, hop, rfl⟩).eq_done
      obtain ⟨_, hy⟩ := hy.eq_done
      simpa [hop, hy] using he
    · obtain ⟨_, _, hop⟩ := Reading.eq_failed_of_not_gives (hnone.2 hi)
      simp [hop]

theorem gives_expression {e : Expr} :
    c.expression.Gives e d ↔ c.Avoids .closeParen ∧
      ∃ x c₁, c.operand.Gives x c₁ ∧ (continuation x c₁).Gives e d := by
  rw [expression]
  constructor
  · intro h
    split at h
    · simp at h
    next hp =>
    split at h
    · simp at h
    next x c₁ _ hx =>
    exact ⟨filter_peek?_eq_none.1 hp, x, c₁, hx ▸ Reading.gives_done.2 ⟨rfl, rfl⟩,
      Reading.gives_weaken.1 h⟩
  · rintro ⟨hp, x, c₁, hx, he⟩
    obtain ⟨_, hx⟩ := hx.eq_done
    simpa [filter_peek?_eq_none.2 hp, hx] using he

theorem gives_full {n : Nat} {r : Reading n β} {v : β} :
    (full r).Gives v d ↔ ∃ c, r.Gives v c ∧ c.clean = [] ∧ c.skipBlanks = d := by
  cases r with
  | failed report c => simp [full]
  | done w c lt =>
    have hc := current?_skipBlanks c
    simp only [full]
    split
    · next h =>
      have hc : c.clean = [] := List.head?_eq_none_iff.1 (hc.symm.trans h)
      simp only [Reading.gives_done]
      grind
    · next t h =>
      have hc : c.clean ≠ [] := by
        intro h'
        simp [h, h'] at hc
      simp only [Reading.gives_done]
      split <;> simp only [Reading.gives_failed] <;> grind

end Cursor
end SymCalc
