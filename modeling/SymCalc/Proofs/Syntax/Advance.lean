import SymCalc.Proofs.Syntax.Extent
import SymCalc.Proofs.Syntax.Fails

/-!
# What readers consume

* `Cursor.Passes`: a cursor that has read some more tokens than another one;
* `Cursor.Covers`: the region of the tokens between two cursors, blanks in front of them left out;
* `Reading.Advances`: what is true of the cursor after a reading.

A reader that succeeds stops right behind the last token of its value, and one that fails does not go
back. Every function that reads a part of the language has one lemma `advances_…` that says so for it;
`Cursor.advances_expression` takes them together.
-/

namespace SymCalc

theorem Expr.span_extend {e x : Expr} {op : InfixOp} {s : Span} (h : e.IsSpanned) :
    (e.extend op s x).span = e.span.through x.span := by
  have hstart : (e.extend op s x).span.start = e.span.start := start_span_extend h
  have hstop : (e.extend op s x).span.stop = x.span.stop := stop_span_extend
  rw [Span.through, ← hstart, ← hstop]

namespace Cursor

variable {b c d e : Cursor} {s s' : Span} {ts us : List Token} {t : Token}

/-! ## Tokens between cursors -/

/-- Whether `d` is the cursor `c` after it has read the tokens `ts`. -/
structure Passes (c : Cursor) (ts : List Token) (d : Cursor) : Prop where
  passed_eq : d.passed = ts.reverse ++ c.passed
  ahead_eq : c.ahead = ts ++ d.ahead
  stop_eq : d.stop = c.stop

theorem Passes.refl (c : Cursor) : c.Passes [] c := ⟨rfl, rfl, rfl⟩

theorem Passes.trans (h : c.Passes ts d) (h' : d.Passes us e) : c.Passes (ts ++ us) e where
  passed_eq := by rw [h'.passed_eq, h.passed_eq, List.reverse_append, List.append_assoc]
  ahead_eq := by rw [h.ahead_eq, h'.ahead_eq, List.append_assoc]
  stop_eq := h'.stop_eq.trans h.stop_eq

/-- Whether `d` is where `c` is or behind it. -/
def Precedes (c d : Cursor) : Prop := ∃ ts, c.Passes ts d

theorem Precedes.refl (c : Cursor) : c.Precedes c := ⟨[], .refl c⟩

theorem Precedes.trans (h : c.Precedes d) (h' : d.Precedes e) : c.Precedes e :=
  let ⟨_, hts⟩ := h
  let ⟨_, hus⟩ := h'
  ⟨_, hts.trans hus⟩

theorem Precedes.stop_eq (h : c.Precedes d) : d.stop = c.stop :=
  let ⟨_, hts⟩ := h
  hts.stop_eq

/-- Whether the tokens from `c` to `d` stand at `s`: it starts where the first of them starts that is not
blank, and ends with the last one, which is not blank. -/
def Covers (c d : Cursor) (s : Span) : Prop :=
  ∃ ts t u, c.Passes ts d ∧ ts.find? (!·.isBlank) = some t ∧ ts.getLast? = some u ∧
    u.isBlank = false ∧ s = t.span.through u.span

theorem Covers.precedes (h : c.Covers d s) : c.Precedes d :=
  let ⟨ts, _, _, hts, _⟩ := h
  ⟨ts, hts⟩

theorem Covers.trans (h : c.Covers d s) (h' : d.Covers e s') : c.Covers e (s.through s') := by
  obtain ⟨ts, t, u, hts, ht, -, -, rfl⟩ := h
  obtain ⟨us, t', u', hus, -, hu, hb, rfl⟩ := h'
  refine ⟨ts ++ us, t, u', hts.trans hus, ?_, ?_, hb, rfl⟩
  · rw [List.find?_append, ht, Option.some_or]
  · rw [List.getLast?_append, hu, Option.some_or]

/-! ## Blanks -/

theorem passes_skipFrom (stop : ℕ) (passed ahead : List Token) : ∃ bs, (∀ t ∈ bs, t.isBlank) ∧
    (⟨passed, ahead, stop⟩ : Cursor).Passes bs (skipFrom stop passed ahead) := by
  induction ahead generalizing passed with
  | nil => exact ⟨[], nofun, .refl _⟩
  | cons t ts ih =>
    rw [skipFrom]
    split
    · next ht =>
      obtain ⟨bs, hbs, h⟩ := ih (t :: passed)
      have hfirst : (⟨passed, t :: ts, stop⟩ : Cursor).Passes [t] ⟨t :: passed, ts, stop⟩ :=
        ⟨rfl, rfl, rfl⟩
      exact ⟨t :: bs, List.forall_mem_cons.2 ⟨ht, hbs⟩, hfirst.trans h⟩
    · exact ⟨[], nofun, .refl _⟩

theorem passes_skipBlanks (c : Cursor) :
    ∃ bs, (∀ t ∈ bs, t.isBlank) ∧ c.Passes bs c.skipBlanks := passes_skipFrom ..

theorem precedes_skipBlanks (c : Cursor) : c.Precedes c.skipBlanks :=
  let ⟨bs, _, h⟩ := passes_skipBlanks c
  ⟨bs, h⟩

theorem not_isBlank_of_gives_next (h : c.next.Gives t d) : t.isBlank = false := by
  have hmem : t ∈ c.clean := clean_of_gives_next h ▸ List.mem_cons_self
  simpa using (List.mem_filter.1 hmem).2

theorem covers_of_gives_next (h : c.next.Gives t d) : c.Covers d t.span := by
  have ht := not_isBlank_of_gives_next h
  obtain ⟨bs, hbs, hpasses⟩ := passes_skipBlanks c
  unfold next at h
  split at h
  · simp at h
  · next passed t' ts stop hs =>
    obtain ⟨rfl, rfl⟩ := Reading.gives_done.1 h
    rw [hs] at hpasses
    have htoken : (⟨passed, t' :: ts, stop⟩ : Cursor).Passes [t'] ⟨t' :: passed, ts, stop⟩ :=
      ⟨rfl, rfl, rfl⟩
    refine ⟨bs ++ [t'], t', t', hpasses.trans htoken, ?_, List.getLast?_concat, ht, rfl⟩
    rw [List.find?_append, List.find?_eq_none.2 (by simpa using hbs)]
    simp [ht]

end Cursor

namespace Reading

variable {n m : ℕ} {β : Type} {c d : Cursor} {place : β → Span} {r : Reading n β} {v : β}

/-- Whether the cursor after a reading from `c` on is right behind the tokens where its value stands, and
not in front of `c` if it fails. -/
def Advances (c : Cursor) (place : β → Span) : Reading n β → Prop
  | done v d _ => c.Covers d (place v)
  | failed _ d => c.Precedes d

@[simp] theorem advances_done {h : d.remaining < n} :
    (done v d h).Advances c place ↔ c.Covers d (place v) := .rfl

@[simp] theorem advances_failed {report : Report} :
    (failed report d : Reading n β).Advances c place ↔ c.Precedes d := .rfl

@[simp] theorem advances_weaken {r : Reading m β} {h : m ≤ n} :
    (r.weaken h).Advances c place ↔ r.Advances c place := by
  cases r <;> rfl

theorem Advances.precedes (h : r.Advances c place) : c.Precedes r.after := by
  cases r with
  | done => exact Cursor.Covers.precedes h
  | failed => exact h

theorem Advances.covers (h : r.Advances c place) (hv : r.Gives v d) : c.Covers d (place v) := by
  obtain ⟨lt, rfl⟩ := hv.eq_done
  exact h

theorem Advances.attempt (h : r.Advances c place) : (c.attempt r).Advances c place := by
  cases r with
  | done => exact h
  | failed => exact .refl c

end Reading

namespace Cursor

variable {b c d : Cursor} {x y : Expr} {β : Type} {place : β → Span}

/-! ## Tokens -/

theorem advances_next (c : Cursor) : c.next.Advances c Token.span := by
  cases h : c.next with
  | done t d lt => exact covers_of_gives_next (h ▸ Reading.gives_done.2 ⟨rfl, rfl⟩)
  | failed report d =>
    have hskip := precedes_skipBlanks c
    unfold next at h
    split at h
    · next hs =>
      cases h
      exact hs ▸ hskip
    · cases h

theorem advances_tokenOf {expected : List Token.Kind} {choose : Token → Option β}
    (h : ∀ t v, choose t = some v → place v = t.span) :
    (c.tokenOf expected choose).Advances c place := by
  have hnext := advances_next c
  unfold tokenOf
  split
  · next hn =>
    rw [hn] at hnext
    exact hnext
  · next t d _ hn =>
    rw [hn, Reading.advances_done] at hnext
    split
    · next v hv =>
      rw [Reading.advances_done, h t v hv]
      exact hnext
    · exact hnext.precedes

theorem advances_token (c : Cursor) (kind : Token.Kind) : (c.token kind).Advances c Token.span :=
  advances_tokenOf (by grind)

theorem advances_prefixOp (c : Cursor) : c.prefixOp.Advances c Prod.snd :=
  advances_tokenOf (by simp)

theorem advances_postfixOp (c : Cursor) : c.postfixOp.Advances c Prod.snd :=
  advances_tokenOf (by grind)

theorem advances_infixOp (c : Cursor) : c.infixOp.Advances c Prod.snd :=
  advances_tokenOf (by simp)

/-! ## Literals -/

theorem advances_number (c : Cursor) : c.number.Advances c Expr.span := by
  have htoken := advances_token c .number
  unfold number
  split
  · exact .refl c
  · next t d lt ht =>
    rw [ht, Reading.advances_done] at htoken
    split
    · exact htoken
    · exact htoken.precedes

theorem advances_symbol (c : Cursor) : c.symbol.Advances c Expr.span := by
  have htoken := advances_token c .name
  unfold symbol
  split
  · exact .refl c
  · next t d lt ht =>
    rw [ht, Reading.advances_done] at htoken
    split
    · exact htoken.precedes
    · exact htoken

theorem advances_literal (c : Cursor) : c.literal.Advances c Expr.span := by
  unfold literal
  split
  · exact (advances_symbol c).attempt
  · exact (advances_number c).attempt

/-! ## Expressions -/

/-- Induction on the number of tokens ahead. -/
theorem remaining_induction {P : Cursor → Prop}
    (step : ∀ c, (∀ d, d.remaining < c.remaining → P d) → P c) (c : Cursor) : P c :=
  (measure remaining).wf.induction c step

theorem advances_postfixes (h : b.Covers c x.span) : (postfixes x c).Advances b Expr.span := by
  induction c using remaining_induction generalizing x with
  | step c ih =>
    have hop := advances_postfixOp c
    rw [postfixes]
    split
    · exact h
    · next op s d lt hd =>
      rw [hd, Reading.advances_done] at hop
      exact Reading.advances_weaken.2 (ih d lt (h.trans hop))

theorem advances_parenthesized
    (ih : ∀ {d : Cursor}, d.remaining < c.remaining → d.expression.Advances d Expr.span) :
    c.parenthesized.Advances c Expr.span := by
  have hopen := advances_token c .openParen
  rw [parenthesized]
  split
  · exact .refl c
  · next o c₁ lt ho =>
    rw [ho, Reading.advances_done] at hopen
    split
    · exact hopen.precedes
    · have hinner := ih lt
      split
      · exact hopen.precedes
      · next inner c₂ _ hi =>
        rw [hi, Reading.advances_done] at hinner
        have hclose := advances_token c₂ .closeParen
        split
        · exact (hopen.trans hinner).precedes
        · next t c₃ _ ht =>
          rw [ht, Reading.advances_done] at hclose
          exact (hopen.trans hinner).trans hclose

theorem advances_primary
    (ih : ∀ {d : Cursor}, d.remaining < c.remaining → d.expression.Advances d Expr.span) :
    c.primary.Advances c Expr.span := by
  rw [primary]
  split
  · exact .refl c
  · split
    · exact (advances_literal c).attempt
    · exact (advances_literal c).attempt
    · exact (advances_parenthesized ih).attempt
    · exact .refl c

theorem advances_operand
    (ih : ∀ {d : Cursor}, d.remaining < c.remaining → d.expression.Advances d Expr.span) :
    c.operand.Advances c Expr.span := by
  induction c using remaining_induction with
  | step c ihn =>
    have hop := advances_prefixOp c
    rw [operand]
    split
    · next op s c₁ lt hc₁ =>
      rw [hc₁, Reading.advances_done] at hop
      split
      · exact hop.precedes
      · have hx := ihn c₁ lt fun h => ih (Nat.lt_trans h lt)
        split
        · next hc₂ =>
          rw [hc₂] at hx
          exact hop.precedes.trans hx
        · next e c₂ _ hc₂ =>
          rw [hc₂] at hx
          exact hop.trans hx
    · have hx := advances_primary ih
      split
      · exact .refl c
      · next e c₁ _ hc₁ =>
        rw [hc₁] at hx
        exact Reading.advances_weaken.2 (advances_postfixes hx)

theorem rootOp?_of_gives_operand (h : c.operand.Gives x d) : x.rootOp? = none := by
  obtain ⟨us, -, hr⟩ := reads_of_gives_operand (fun _ h => reads_of_gives_expression h) h
  exact hr.rootOp?_eq_none (by simp)

theorem advances_continuation (h : b.Covers c x.span) (hx : x.IsSpanned)
    (ih : ∀ {d : Cursor}, d.remaining < c.remaining → d.operand.Advances d Expr.span) :
    (continuation x c).Advances b Expr.span := by
  induction c using remaining_induction generalizing x with
  | step c ihn =>
    have hop := advances_infixOp c
    rw [continuation]
    split
    · exact h
    · next op s c₁ lt hc₁ =>
      rw [hc₁, Reading.advances_done] at hop
      have hy := ih lt
      split
      · next hc₂ =>
        rw [hc₂] at hy
        exact (h.trans hop).precedes.trans hy
      · next y c₂ lt' hc₂ =>
        have hroot : y.rootOp? = none :=
          rootOp?_of_gives_operand (hc₂ ▸ Reading.gives_done.2 ⟨rfl, rfl⟩)
        rw [hc₂, Reading.advances_done] at hy
        have hcovers : b.Covers c₂ (x.extend op s y).span := by
          rw [Expr.span_extend hx]
          exact (h.trans hop).trans hy
        have hlt := Nat.lt_trans lt' lt
        exact Reading.advances_weaken.2
          (ihn c₂ hlt hcovers (hx.extend hroot) fun h => ih (Nat.lt_trans h hlt))

theorem advances_expression (c : Cursor) : c.expression.Advances c Expr.span := by
  induction c using remaining_induction with
  | step c ih =>
    have hx := advances_operand fun h => ih _ h
    rw [expression]
    split
    · exact .refl c
    · split
      · next hc₁ =>
        rw [hc₁] at hx
        exact hx
      · next x c₁ lt hc₁ =>
        have hroot : x.rootOp? = none :=
          rootOp?_of_gives_operand (hc₁ ▸ Reading.gives_done.2 ⟨rfl, rfl⟩)
        rw [hc₁] at hx
        refine Reading.advances_weaken.2
          (advances_continuation hx (Expr.isSpanned_of_rootOp? hroot) fun h => ?_)
        exact advances_operand fun h' => ih _ (Nat.lt_trans h' (Nat.lt_trans h lt))

theorem advances_unary (c : Cursor) : c.unary.Advances c Expr.span := by
  have hop := advances_prefixOp c
  unfold unary
  split
  · exact .refl c
  · next op s c₁ lt hc₁ =>
    rw [hc₁, Reading.advances_done] at hop
    have hx : c₁.operand.Advances c₁ Expr.span := advances_operand fun _ => advances_expression _
    split
    · next hc₂ =>
      rw [hc₂] at hx
      exact hop.precedes.trans hx
    · next e c₂ _ hc₂ =>
      rw [hc₂] at hx
      exact hop.trans hx

/-! ## Whole texts -/

theorem precedes_full {n : ℕ} {r : Reading n β} (h : r.Advances c place) :
    c.Precedes (full r).after := by
  cases r with
  | failed => exact h
  | done v d lt =>
    have hd : c.Precedes d.skipBlanks := (Covers.precedes h).trans (precedes_skipBlanks d)
    unfold full
    simp only
    split
    · exact hd
    · split <;> exact hd

end Cursor
end SymCalc
