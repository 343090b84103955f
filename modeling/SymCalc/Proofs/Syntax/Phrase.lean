import SymCalc.Proofs.Syntax.Gives
import SymCalc.Proofs.Token.Lexeme

/-!
# The grammar of formulas

* `Derives`: which lists of tokens the grammar derives from a kind of phrase;
* `Reads`: the same with the syntax tree of the phrase.

Reading at a cursor is `Reads` on the tokens that are not blank: what a reader returns is read from
the tokens that it consumed (`Cursor.reads_of_gives_expression`), and every phrase is found wherever
it stands before a token that cannot continue it (`Reads.gives`). For a whole text this is
`Expr.ofText_eq_ok_iff`.
-/

namespace SymCalc

/-- The kinds of phrases of the grammar, from tight to loose. -/
inductive Phrase where
  | primary
  | postfixed
  | operand
  | expression

/-- Whether the token is an operator that may stand in front of an operand. -/
def Token.IsPrefix (t : Token) : Prop :=
  t.kind = .minus ∨ t.kind = .percent ∨
    t.kind = .name ∧ t.lexeme ∈ ["exp", "ln", "cos", "sin", "tan"]

/-- Whether the token is an operator that may stand between two operands. -/
def Token.IsInfix (t : Token) : Prop :=
  t.kind ∈ [Token.Kind.plus, .minus, .star, .slash, .caret]

/-- `Derives p ts` means that the grammar derives the tokens `ts` from the kind of phrase `p`. -/
inductive Derives : Phrase → List Token → Prop
  | number {t : Token} : t.kind = .number → Derives .primary [t]
  | name {t : Token} : t.kind = .name → ¬ t.IsPrefix → Derives .primary [t]
  | paren {o c : Token} {ts : List Token} : o.kind = .openParen → Derives .expression ts →
      c.kind = .closeParen → Derives .primary (o :: ts ++ [c])
  | primary {ts : List Token} : Derives .primary ts → Derives .postfixed ts
  | percent {ts : List Token} {t : Token} : Derives .postfixed ts → t.kind = .percent →
      Derives .postfixed (ts ++ [t])
  | postfixed {ts : List Token} : Derives .postfixed ts → Derives .operand ts
  | prefixed {t : Token} {ts : List Token} : t.IsPrefix → Derives .operand ts →
      Derives .operand (t :: ts)
  | operand {ts : List Token} : Derives .operand ts → Derives .expression ts
  | infixed {ts us : List Token} {t : Token} : Derives .expression ts → t.IsInfix →
      Derives .operand us → Derives .expression (ts ++ t :: us)

/-- `Reads p ts e` means that the tokens `ts` are a phrase of kind `p` with the syntax tree `e`. -/
inductive Reads : Phrase → List Token → Expr → Prop
  | number {t : Token} {d : Decimal} : t.kind = .number →
      Decimal.ofChars? t.lexeme.toList = some d → Reads .primary [t] (.number d t.span)
  | name {t : Token} : t.kind = .name → Cursor.prefixOp? t = none →
      Reads .primary [t] (.symbol t.lexeme t.span)
  | paren {o c : Token} {ts : List Token} {e : Expr} : o.kind = .openParen →
      Reads .expression ts e → c.kind = .closeParen →
      Reads .primary (o :: ts ++ [c]) (.paren e (o.span.through c.span))
  | primary {ts : List Token} {e : Expr} : Reads .primary ts e → Reads .postfixed ts e
  | percent {ts : List Token} {t : Token} {e : Expr} : Reads .postfixed ts e →
      t.kind = .percent →
      Reads .postfixed (ts ++ [t]) (.unary .percent t.span e (e.span.through t.span))
  | postfixed {ts : List Token} {e : Expr} : Reads .postfixed ts e → Reads .operand ts e
  | prefixed {t : Token} {op : UnaryOp} {ts : List Token} {e : Expr} :
      Cursor.prefixOp? t = some op → Reads .operand ts e →
      Reads .operand (t :: ts) (.unary op t.span e (t.span.through e.span))
  | operand {ts : List Token} {e : Expr} : Reads .operand ts e → Reads .expression ts e
  | infixed {ts us : List Token} {t : Token} {op : InfixOp} {e x : Expr} :
      Reads .expression ts e → Cursor.infixOp? t = some op → Reads .operand us x →
      Reads .expression (ts ++ t :: us) (e.extend op t.span x)

variable {p : Phrase} {ts us : List Token} {t : Token} {e : Expr} {c d : Cursor}

theorem Token.isPrefix_iff : t.IsPrefix ↔ ∃ op, Cursor.prefixOp? t = some op := by
  rw [← Option.isSome_iff_exists]
  unfold IsPrefix Cursor.prefixOp?
  cases t.kind <;> simp only [UnaryOp.isSome_ofWord?] <;> simp

theorem Token.isInfix_iff : t.IsInfix ↔ ∃ op, Cursor.infixOp? t = some op := by
  unfold IsInfix Cursor.infixOp?
  cases t.kind <;> simp

/-! ## What readers return is a phrase -/

namespace Cursor

theorem reads_of_gives_postfixes {x : Expr} (h : (postfixes x c).Gives e d)
    (hx : Reads .postfixed us x) :
    ∃ ts, c.clean = ts ++ d.clean ∧ Reads .postfixed (us ++ ts) e := by
  induction hn : c.remaining using Nat.strongRecOn generalizing c x us with
  | ind n ih =>
    rcases gives_postfixes.1 h with ⟨t, c₁, ht, hk, h⟩ | ⟨-, rfl, rfl⟩
    · obtain ⟨ts, hts, hr⟩ := ih _ (hn ▸ ht.remaining_lt) h (.percent hx hk) rfl
      refine ⟨t :: ts, by simp [clean_of_gives_next ht, hts], ?_⟩
      simpa using hr
    · exact ⟨[], rfl, by simpa using hx⟩

theorem reads_of_gives_primary (h : c.primary.Gives e d)
    (hp : ∀ t ∈ c.clean.head?, prefixOp? t = none)
    (ih : ∀ {c₁ : Cursor} {x c₂}, c₁.remaining < c.remaining → c₁.expression.Gives x c₂ →
      ∃ ts, c₁.clean = ts ++ c₂.clean ∧ Reads .expression ts x) :
    ∃ ts, c.clean = ts ++ d.clean ∧ Reads .primary ts e := by
  rcases gives_primary.1 h with h | h | h
  · obtain ⟨t, v, ht, hk, hv, rfl⟩ := gives_number.1 h
    exact ⟨[t], clean_of_gives_next ht, .number hk hv⟩
  · obtain ⟨t, ht, hk, -, rfl⟩ := gives_symbol.1 h
    exact ⟨[t], clean_of_gives_next ht, .name hk (hp t (by simp [clean_of_gives_next ht]))⟩
  · obtain ⟨o, c₁, inner, c₂, t, ho, hok, -, hi, ht, htk, rfl⟩ := gives_parenthesized.1 h
    obtain ⟨ts, hts, hr⟩ := ih ho.remaining_lt hi
    exact ⟨o :: ts ++ [t], by simp [clean_of_gives_next ho, hts, clean_of_gives_next ht],
      .paren hok hr htk⟩

theorem reads_of_gives_operand
    (ih : ∀ {c₁ : Cursor} {x c₂}, c₁.remaining < c.remaining → c₁.expression.Gives x c₂ →
      ∃ ts, c₁.clean = ts ++ c₂.clean ∧ Reads .expression ts x)
    (h : c.operand.Gives e d) : ∃ ts, c.clean = ts ++ d.clean ∧ Reads .operand ts e := by
  induction hn : c.remaining using Nat.strongRecOn generalizing c e with
  | ind n ihn =>
    rcases gives_operand.1 h with ⟨t, op, c₁, x, ht, hop, -, hx, rfl⟩ | ⟨hp, x, c₁, hx, he⟩
    · have hlt := ht.remaining_lt
      obtain ⟨ts, hts, hr⟩ := ihn _ (hn ▸ hlt) (fun h => ih (Nat.lt_trans h hlt)) hx rfl
      exact ⟨t :: ts, by simp [clean_of_gives_next ht, hts], .prefixed hop hr⟩
    · obtain ⟨ts, hts, hr⟩ := reads_of_gives_primary hx hp ih
      obtain ⟨us, hus, hr⟩ := reads_of_gives_postfixes he (.primary hr)
      exact ⟨ts ++ us, by simp [hts, hus], .postfixed hr⟩

theorem reads_of_gives_continuation {x : Expr}
    (ih : ∀ {c₁ : Cursor} {y c₂}, c₁.remaining < c.remaining → c₁.operand.Gives y c₂ →
      ∃ ts, c₁.clean = ts ++ c₂.clean ∧ Reads .operand ts y)
    (h : (continuation x c).Gives e d) (hx : Reads .expression us x) :
    ∃ ts, c.clean = ts ++ d.clean ∧ Reads .expression (us ++ ts) e := by
  induction hn : c.remaining using Nat.strongRecOn generalizing c x us with
  | ind n ihn =>
    rcases gives_continuation.1 h with ⟨t, op, c₁, y, c₂, ht, hop, hy, he⟩ | ⟨-, rfl, rfl⟩
    · have hlt := ht.remaining_lt
      have hlt' := Nat.lt_trans hy.remaining_lt hlt
      obtain ⟨vs, hvs, hr⟩ := ih hlt hy
      obtain ⟨ts, hts, hr⟩ := ihn _ (hn ▸ hlt') (fun h => ih (Nat.lt_trans h hlt')) he
        (.infixed hx hop hr) rfl
      refine ⟨t :: vs ++ ts, by simp [clean_of_gives_next ht, hvs, hts], ?_⟩
      simpa using hr
    · exact ⟨[], rfl, by simpa using hx⟩

/-- What is read as an expression is a phrase made of the tokens that were consumed. -/
theorem reads_of_gives_expression (h : c.expression.Gives e d) :
    ∃ ts, c.clean = ts ++ d.clean ∧ Reads .expression ts e := by
  induction hn : c.remaining using Nat.strongRecOn generalizing c e d with
  | ind n ihn =>
    obtain ⟨-, x, c₁, hx, he⟩ := gives_expression.1 h
    have ih {c₁ : Cursor} {x c₂} (hlt : c₁.remaining < c.remaining)
        (h : c₁.expression.Gives x c₂) :
        ∃ ts, c₁.clean = ts ++ c₂.clean ∧ Reads .expression ts x :=
      ihn _ (hn ▸ hlt) h rfl
    obtain ⟨us, hus, hr⟩ := reads_of_gives_operand ih hx
    obtain ⟨ts, hts, hr⟩ := reads_of_gives_continuation
      (fun hlt hy => reads_of_gives_operand
        (fun hlt' => ih (Nat.lt_trans hlt' (Nat.lt_trans hlt hx.remaining_lt))) hy)
      he (.operand hr)
    exact ⟨us ++ ts, by simp [hus, hts], hr⟩

end Cursor

/-! ## Every phrase is found -/

/-- The first token of a phrase can neither end an operand nor continue one. -/
theorem Reads.exists_head (h : Reads p ts e) :
    ∃ t us, ts = t :: us ∧ t.kind ≠ .closeParen ∧ t.kind.isBetweenOperands = false ∧
      (p = .primary ∨ p = .postfixed → Cursor.prefixOp? t = none) := by
  induction h with
  | @number t _ hk _ =>
    exact ⟨t, [], rfl, by simp [hk, Token.Kind.isBetweenOperands, Cursor.prefixOp?]⟩
  | @name t hk hp => exact ⟨t, [], rfl, by simp [hk, Token.Kind.isBetweenOperands, hp]⟩
  | @paren o c us _ hk _ _ _ =>
    exact ⟨o, us ++ [c], rfl, by simp [hk, Token.Kind.isBetweenOperands, Cursor.prefixOp?]⟩
  | primary _ ih =>
    obtain ⟨t, us, rfl, h₁, h₂, h₃⟩ := ih
    exact ⟨t, us, rfl, h₁, h₂, fun _ => h₃ (.inl rfl)⟩
  | @percent _ u _ _ _ ih =>
    obtain ⟨t, us, rfl, h₁, h₂, h₃⟩ := ih
    exact ⟨t, us ++ [u], rfl, h₁, h₂, h₃⟩
  | postfixed _ ih | operand _ ih =>
    obtain ⟨t, us, rfl, h₁, h₂, -⟩ := ih
    exact ⟨t, us, rfl, h₁, h₂, by simp⟩
  | @prefixed t op us _ hop _ _ =>
    refine ⟨t, us, rfl, ?_, ?_, by simp⟩ <;>
      cases hk : t.kind <;> simp_all [Cursor.prefixOp?, Token.Kind.isBetweenOperands]
  | @infixed _ vs u _ _ _ _ _ _ ih _ =>
    obtain ⟨t, us, rfl, h₁, h₂, -⟩ := ih
    exact ⟨t, us ++ u :: vs, rfl, h₁, h₂, by simp⟩

/-- Whether the token after a phrase cannot be taken for a part of it. An opening parenthesis after
a name would be, and so would a percent sign. -/
def Token.IsSeparate (t : Token) : Prop := t.kind ≠ .openParen ∧ t.kind ≠ .percent

/-- The phrase is found wherever it stands before a separate token. What is found of phrases with
repeated parts is their first part, from which reading comes to their end. -/
def Finds : Phrase → List Token → Expr → Prop
  | .primary, ts, e => ∀ (c : Cursor) (rest : List Token), c.clean = ts ++ rest →
      (∀ t ∈ rest.head?, t.kind ≠ .openParen) → ∃ d, c.primary.Gives e d ∧ d.clean = rest
  | .postfixed, ts, e => ∀ (c : Cursor) (rest : List Token), c.clean = ts ++ rest →
      (∀ t ∈ rest.head?, t.kind ≠ .openParen) → ∃ x c₁ d, c.primary.Gives x c₁ ∧ d.clean = rest ∧
        ∀ y d', (Cursor.postfixes e d).Gives y d' → (Cursor.postfixes x c₁).Gives y d'
  | .operand, ts, e => ∀ (c : Cursor) (rest : List Token), c.clean = ts ++ rest →
      (∀ t ∈ rest.head?, t.IsSeparate) → ∃ d, c.operand.Gives e d ∧ d.clean = rest
  | .expression, ts, e => ∀ (c : Cursor) (rest : List Token), c.clean = ts ++ rest →
      (∀ t ∈ rest.head?, t.IsSeparate) → ∃ x c₁ d, c.operand.Gives x c₁ ∧ d.clean = rest ∧
        ∀ y d', (Cursor.continuation e d).Gives y d' → (Cursor.continuation x c₁).Gives y d'

theorem Cursor.not_touches_paren (h : ∀ t ∈ c.clean.head?, t.kind ≠ .openParen) :
    ¬ c.current?.any (·.kind = .openParen) := by
  cases hc : c.current? with
  | none => simp
  | some t =>
    intro ht
    simp only [Option.any_some, decide_eq_true_eq] at ht
    obtain ⟨ts, ha⟩ := List.head?_eq_some_iff.1 hc
    exact h t (by simp [clean, ha, Token.isBlank, ht]) ht

theorem Finds.gives_expression (h : Finds .expression ts e) {rest : List Token}
    (hc : c.clean = ts ++ rest) (hp : ∀ t ∈ c.clean.head?, t.kind ≠ .closeParen)
    (hs : ∀ t ∈ rest.head?, t.IsSeparate ∧ Cursor.infixOp? t = none) :
    ∃ d, c.expression.Gives e d ∧ d.clean = rest := by
  obtain ⟨x, c₁, d, hx, hd, he⟩ := h c rest hc fun t ht => (hs t ht).1
  refine ⟨d, Cursor.gives_expression.2 ⟨hp, x, c₁, hx, he _ _ ?_⟩, hd⟩
  exact Cursor.gives_continuation.2 (.inr ⟨fun t ht => (hs t (hd ▸ ht)).2, rfl, rfl⟩)

theorem Reads.finds (h : Reads p ts e) : Finds p ts e := by
  induction h with
  | number hk hv =>
    intro c rest hc _
    obtain ⟨d, hn, hd⟩ := Cursor.gives_next_of_clean hc
    exact ⟨d, Cursor.gives_primary.2 (.inl (Cursor.gives_number.2 ⟨_, _, hn, hk, hv, rfl⟩)), hd⟩
  | name hk _ =>
    intro c rest hc hr
    obtain ⟨d, hn, hd⟩ := Cursor.gives_next_of_clean hc
    have ht := Cursor.not_touches_paren (c := d) (hd ▸ hr)
    exact ⟨d, Cursor.gives_primary.2 (.inr (.inl (Cursor.gives_symbol.2 ⟨_, hn, hk, ht, rfl⟩))), hd⟩
  | @paren o t us e hok hr htk ih =>
    intro c rest hc _
    have hc : c.clean = o :: (us ++ t :: rest) := by simpa using hc
    obtain ⟨c₁, ho, hc₁⟩ := Cursor.gives_next_of_clean hc
    obtain ⟨t₀, us', rfl, hne, -⟩ := hr.exists_head
    have hp : c₁.Avoids .closeParen := by
      intro t₁ ht₁
      simp only [hc₁, List.cons_append, List.head?_cons, Option.mem_some_iff] at ht₁
      exact ht₁ ▸ hne
    obtain ⟨c₂, he, hc₂⟩ := ih.gives_expression hc₁ hp
      (by simp [Token.IsSeparate, Cursor.infixOp?, htk])
    obtain ⟨d, ht, hd⟩ := Cursor.gives_next_of_clean hc₂
    exact ⟨d, Cursor.gives_primary.2 (.inr (.inr (Cursor.gives_parenthesized.2
      ⟨o, c₁, e, c₂, t, ho, hok, hp, he, ht, htk, rfl⟩))), hd⟩
  | primary _ ih =>
    intro c rest hc hr
    obtain ⟨d, hd, hrest⟩ := ih c rest hc hr
    exact ⟨_, d, d, hd, hrest, fun _ _ h => h⟩
  | @percent us t e _ hk ih =>
    intro c rest hc _
    obtain ⟨x, c₁, d, hx, hd, he⟩ := ih c (t :: rest) (by simpa using hc) (by simp [hk])
    obtain ⟨d', ht, hd'⟩ := Cursor.gives_next_of_clean hd
    exact ⟨x, c₁, d', hx, hd', fun y c' h =>
      he _ _ (Cursor.gives_postfixes.2 (.inl ⟨t, d', ht, hk, h⟩))⟩
  | postfixed hr ih =>
    intro c rest hc hs
    obtain ⟨x, c₁, d, hx, hd, he⟩ := ih c rest hc fun t ht => (hs t ht).1
    obtain ⟨t₀, us', rfl, -, -, hp⟩ := hr.exists_head
    refine ⟨d, Cursor.gives_operand.2 (.inr ⟨?_, x, c₁, hx, he _ _ ?_⟩), hd⟩
    · simpa [hc] using hp (.inr rfl)
    · exact Cursor.gives_postfixes.2 (.inr ⟨fun t ht => (hs t (hd ▸ ht)).2, rfl, rfl⟩)
  | @prefixed t op us e hop hr ih =>
    intro c rest hc hs
    have hc : c.clean = t :: (us ++ rest) := by simpa using hc
    obtain ⟨c₁, ht, hc₁⟩ := Cursor.gives_next_of_clean hc
    obtain ⟨d, he, hd⟩ := ih c₁ rest hc₁ hs
    obtain ⟨t₀, us', rfl, hne, hb, -⟩ := hr.exists_head
    have hl : c₁.lacksOperand = false := by
      simp [Cursor.lacksOperand, Cursor.peek?_eq, hc₁, hne, hb]
    exact ⟨d, Cursor.gives_operand.2 (.inl ⟨t, op, c₁, e, ht, hop, hl, he, rfl⟩), hd⟩
  | operand _ ih =>
    intro c rest hc hs
    obtain ⟨d, hd, hrest⟩ := ih c rest hc hs
    exact ⟨_, d, d, hd, hrest, fun _ _ h => h⟩
  | @infixed us vs t op e y _ hop _ ih ihy =>
    intro c rest hc hs
    have ht : t.IsSeparate := by
      cases hk : t.kind <;> simp_all [Token.IsSeparate, Cursor.infixOp?]
    obtain ⟨x, c₁, d, hx, hd, he⟩ := ih c (t :: vs ++ rest) (by simpa using hc) (by simpa using ht)
    obtain ⟨c₂, ht, hc₂⟩ := Cursor.gives_next_of_clean hd
    obtain ⟨d', hy, hd'⟩ := ihy c₂ rest hc₂ hs
    exact ⟨x, c₁, d', hx, hd', fun z c' h =>
      he _ _ (Cursor.gives_continuation.2 (.inl ⟨t, op, c₂, y, d', ht, hop, hy, h⟩))⟩

/-! ## Whole texts -/

/-- The tokens of a text that are not blank. -/
def Token.significant (text : String) : List Token :=
  (Token.ofText text).filter (!·.isBlank)

/-- A text has a syntax tree exactly if its tokens are an expression with that tree. -/
theorem Expr.ofText_eq_ok_iff {text : String} :
    Expr.ofText text = .ok e ↔ Reads .expression (Token.significant text) e := by
  have hc : (Cursor.ofText text).clean = Token.significant text := rfl
  constructor
  · intro h
    obtain ⟨d, hd, hn, -⟩ := Cursor.gives_full.1 ⟨h, rfl⟩
    obtain ⟨ts, hts, hr⟩ := Cursor.reads_of_gives_expression hd
    rwa [← hc, hts, hn, List.append_nil]
  · intro h
    obtain ⟨t, us, hts, hne, -⟩ := h.exists_head
    have hp : ∀ t ∈ (Cursor.ofText text).clean.head?, t.kind ≠ .closeParen := by
      simpa [hc, hts] using hne
    have hc : (Cursor.ofText text).clean = Token.significant text ++ [] := by rw [hc, List.append_nil]
    obtain ⟨d, he, hd⟩ := h.finds.gives_expression hc hp (by simp)
    exact (Cursor.gives_full.2 ⟨d, he, hd, rfl⟩).1

end SymCalc
