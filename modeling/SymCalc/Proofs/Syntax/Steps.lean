import SymCalc.Syntax.Category
import SymCalc.Proofs.Syntax.Advance

/-!
# Reading a text step by step

* `Cursor.Action`: what can be done at a place between two tokens;
* `Cursor.run`: the place reached by doing some of it, one after another.

No action goes back (`Cursor.precedes_act`), so the tokens in front of a place that is reached and those
ahead are the ones of the text. `Cursor.run_laws` says what looking ahead, reading and trying to read
give there.
-/

namespace SymCalc
namespace Cursor

variable {c d : Cursor} {t : Token}

/-! ## Parts of the language -/

/-- How many tokens have been read. -/
def position (c : Cursor) : ℕ := c.passed.length

theorem Passes.position_eq {ts : List Token} (h : c.Passes ts d) :
    d.position = ts.length + c.position := by
  simp [position, h.passed_eq]

theorem Precedes.position_le (h : c.Precedes d) : c.position ≤ d.position :=
  let ⟨_, hts⟩ := h
  hts.position_eq ▸ Nat.le_add_left ..

/-- The next token that is not blank is the one that is read next. -/
theorem peek?_eq_some_iff : c.peek? = some t ↔ c.next.result = .ok t := by
  rw [peek?_eq]
  constructor
  · intro h
    obtain ⟨ts, hts⟩ := List.head?_eq_some_iff.1 h
    obtain ⟨d, hd, -⟩ := gives_next_of_clean hts
    exact hd.1
  · intro h
    have hgives : c.next.Gives t c.next.after := ⟨h, rfl⟩
    rw [clean_of_gives_next hgives, List.head?_cons]

theorem Covers.exists_tokens {s : Span} (h : c.Covers d s) : ∃ t u, c.peek? = some t ∧
    d.previous? = some u ∧ u.isBlank = false ∧ s = t.span.through u.span ∧
      c.position < d.position := by
  obtain ⟨ts, t, u, hts, ht, hu, hb, hs⟩ := h
  refine ⟨t, u, ?_, ?_, hb, hs, ?_⟩
  · rw [peek?, hts.ahead_eq, List.find?_append, ht, Option.some_or]
  · rw [previous?, hts.passed_eq, List.head?_append, List.head?_reverse, hu, Option.some_or]
  · have hne : 0 < ts.length := List.length_pos_of_mem (List.mem_of_getLast? hu)
    rw [hts.position_eq]
    omega

/-- Reading any part of the language advances. -/
theorem advances_read (c : Cursor) (k : Category) : (c.read k).Advances c k.span :=
  match k with
  | .expression => advances_expression c
  | .primary => advances_primary fun _ => advances_expression _
  | .unary => advances_unary c
  | .literal => advances_literal c
  | .number => advances_number c
  | .symbol => advances_symbol c
  | .parenthesized => advances_parenthesized fun _ => advances_expression _
  | .openParen => advances_token c .openParen
  | .closeParen => advances_token c .closeParen
  | .name => advances_token c .name
  | .numeral => advances_token c .number
  | .prefixOp => advances_prefixOp c
  | .postfixOp => advances_postfixOp c
  | .infixOp => advances_infixOp c

/-! ## Runs -/

/-- What can be done at a place between two tokens. -/
inductive Action where
  | next
  | peek
  | skipBlanks
  | tryRead (k : Category)
  | read (k : Category)
  | readFull (k : Category)
deriving DecidableEq, Repr

/-- The cursor after an action. -/
def act (c : Cursor) : Action → Cursor
  | .next => c.next.after
  | .peek => c
  | .skipBlanks => c.skipBlanks
  | .tryRead k => (c.tryRead k).after
  | .read k => (c.read k).after
  | .readFull k => (c.readFull k).after

/-- The cursor after some actions, from the start of the text on. -/
def run (text : String) (actions : List Action) : Cursor := actions.foldl act (ofText text)

/-- No action goes back. -/
theorem precedes_act (c : Cursor) (a : Action) : c.Precedes (c.act a) := by
  cases a with
  | next => exact (advances_next c).precedes
  | peek => exact .refl c
  | skipBlanks => exact precedes_skipBlanks c
  | tryRead k => exact (advances_read c k).attempt.precedes
  | read k => exact (advances_read c k).precedes
  | readFull k => exact precedes_full (advances_read c k)

theorem precedes_foldl_act (c : Cursor) (actions : List Action) :
    c.Precedes (actions.foldl act c) := by
  induction actions generalizing c with
  | nil => exact .refl c
  | cons a actions ih => exact (precedes_act c a).trans (ih _)

/-- The tokens in front of a place that is reached and those ahead are the ones of the text. -/
theorem tokens_run (text : String) (actions : List Action) :
    (run text actions).passed.reverse ++ (run text actions).ahead = Token.ofText text := by
  obtain ⟨ts, hts⟩ := precedes_foldl_act (ofText text) actions
  have hahead : Token.ofText text = ts ++ (run text actions).ahead := hts.ahead_eq
  have hpassed : (run text actions).passed = ts.reverse ++ [] := hts.passed_eq
  rw [hpassed, hahead, List.append_nil, List.reverse_reverse]

/-- At every place that is reached: it is in the text, the next token that is not blank is the one that
is read next, and reading a part of the language gives a value from there up to the token just read, which
is not blank, or fails without going back, and then trying to read it gives the same report and does not
move. -/
theorem run_laws (text : String) (actions : List Action) (k : Category) :
    let c := run text actions
    (c.passed.reverse ++ c.ahead = Token.ofText text ∧
      c.position ≤ (Token.ofText text).length) ∧
    (∀ t, c.peek? = some t ↔ c.next.result = .ok t) ∧
    match c.read k with
    | .done v d _ => ∃ t u, c.peek? = some t ∧ d.previous? = some u ∧ u.isBlank = false ∧
        (k.span v).start = t.span.start ∧ (k.span v).stop = u.span.stop ∧ c.position < d.position
    | .failed report d => c.position ≤ d.position ∧
        (c.tryRead k).result = .error report ∧ (c.tryRead k).after = c := by
  intro c
  have htokens : c.passed.reverse ++ c.ahead = Token.ofText text := tokens_run text actions
  refine ⟨⟨htokens, ?_⟩, fun t => peek?_eq_some_iff, ?_⟩
  · rw [← htokens, position, List.length_append, List.length_reverse]
    exact Nat.le_add_right ..
  · have hread := advances_read c k
    split
    · next v d lt hd =>
      rw [hd, Reading.advances_done] at hread
      obtain ⟨t, u, ht, hu, hb, hs, hlt⟩ := hread.exists_tokens
      exact ⟨t, u, ht, hu, hb, hs ▸ rfl, hs ▸ rfl, hlt⟩
    · next report d hd =>
      rw [hd, Reading.advances_failed] at hread
      exact ⟨hread.position_le, by simp [tryRead, hd, attempt, Reading.result],
        by simp [tryRead, hd, attempt, Reading.after]⟩

end Cursor
end SymCalc
