import SymCalc.Proofs.Syntax.Parts
import SymCalc.Proofs.Token.Cutting

/-!
# Slices of a text

* `Span.shift`: a region in a text that stands behind another one;
* `Expr.IsSlice`: a part of a syntax tree is the tree of its slice of the text.

The tokens of a phrase are those of a slice of the text, and parentheses around the slice are
parentheses around these tokens (`Token.exists_slice`). So every part of the tree of a text is a slice
of it (`Expr.ofText_slices`).
-/

namespace SymCalc

/-- The region with `n` bytes put in front of the text. -/
def Span.shift (n : Nat) (s : Span) : Span := ⟨s.start + n, s.stop + n⟩

namespace Token

variable {text : String} {pre us post : List Token}

theorem place_shift (n start : Nat) (ls : List Lexeme) :
    place (start + n) ls = (place start ls).map (mapSpan (Span.shift n)) := by
  induction ls generalizing start with
  | nil => rfl
  | cons l ls ih =>
    rw [place, place, List.map_cons, ← ih]
    simp [mapSpan, Span.shift, Nat.add_right_comm]

/-- Tokens that are next to one another are the tokens of the slice of the text where they stand, and
parentheses around the slice are parentheses around these tokens. -/
theorem exists_slice (h : significant text = pre ++ us ++ post) (hus : us ≠ []) :
    ∃ before part after, text.toList = before ++ part ++ after ∧
      (∀ t ∈ us.head?, t.span.start = byteLength before) ∧
      (∀ t ∈ us.getLast?, t.span.stop = byteLength (before ++ part)) ∧
      (significant (String.ofList part)).map (mapSpan (Span.shift (byteLength before))) = us ∧
      (significant (String.ofList (before ++ '(' :: part ++ ')' :: after))).map entry =
        pre.map entry ++ (.openParen, "(") :: us.map entry ++ (.closeParen, ")") :: post.map entry := by
  obtain ⟨as, bs, cs, hplace, rfl, hbs, rfl, hhead, hlast⟩ := exists_of_filter_eq_append h hus
  obtain ⟨ls, behind, hall, hfront, rfl⟩ := exists_of_place_eq_append hplace
  obtain ⟨front, inner, rfl, rfl, hinner⟩ := exists_of_place_eq_append hfront
  have hcut := Lexeme.flatMap_all text.toList
  rw [hall, List.flatMap_append, List.flatMap_append] at hcut
  obtain ⟨hwhole, hbehind⟩ := Lexeme.all_flatMap hall
  obtain ⟨hfront, hinside⟩ := Lexeme.all_flatMap hwhole
  refine ⟨front.flatMap Lexeme.chars, inner.flatMap Lexeme.chars, behind.flatMap Lexeme.chars,
    hcut.symm, ?_, ?_, ?_, ?_⟩
  · intro t ht
    rw [← hhead, ← hinner] at ht
    simpa using start_of_mem_head? ht
  · intro t ht
    rw [← hlast, ← hinner] at ht
    simpa using stop_of_mem_getLast? ht
  · have hshift := place_shift (byteLength (front.flatMap Lexeme.chars)) 0 inner
    rw [hinner] at hshift
    rw [← hbs, hshift, significant, ofText, String.toList_ofList, hinside, List.filter_map]
    rfl
  · rw [entries_significant, String.toList_ofList, Lexeme.all_enclosed, hfront, hinside, hbehind,
      ← hbs, ← hinner]
    simp [entries_filter_place, Lexeme.entry]

end Token

namespace Expr

variable {α : Type} [Scalar α] {text : String} {e : Expr}

variable (α) in
/-- Whether the region of `x`, a part of the tree `e` of a text, is a slice of the text: the slice alone
is a text with the tree `x` at its own place, and the slice in parentheses leaves the formula of the
whole text as it is. -/
def IsSlice (text : String) (e x : Expr) : Prop :=
  ∃ before part after, text.toList = before ++ part ++ after ∧
    x.span = ⟨byteLength before, byteLength (before ++ part)⟩ ∧
    (∃ y, ofText (String.ofList part) = .ok y ∧ y.mapSpans (.shift (byteLength before)) = x) ∧
    Formula.ofText (String.ofList (before ++ '(' :: part ++ ')' :: after)) =
      .ok (Formula.ofExpr e : Formula α)

/-- The parts of a syntax tree are laid out in order, and each of them is a slice of the text. -/
theorem ofText_slices (h : ofText text = .ok e) :
    ∀ x ∈ e.parts, x.IsLaidOut ∧ IsSlice α text e x := by
  intro x hx
  have hread := ofText_eq_ok_iff.1 h
  obtain ⟨pre, us, post, htokens, hus, henclosed⟩ := hread.holds_of_mem_parts (α := α) hx
  obtain ⟨before, part, after, htext, hstart, hstop, hslice, hentries⟩ :=
    Token.exists_slice htokens hus.ne_nil
  have hwithin : us <:+: Token.significant text := ⟨pre, post, htokens.symm⟩
  refine ⟨hus.isLaidOut ?_ (Token.pairwise_significant.sublist hwithin.sublist), before, part, after,
    htext, ?_, ?_, ?_⟩
  · exact fun t ht => (Token.isProper_of_mem_significant (hwithin.subset ht)).start_lt_stop
  · rw [hus.span_eq, Span.through, hstart _ (List.head_mem_head? _),
      hstop _ (List.getLast_mem_getLast? _)]
  · obtain ⟨y, hy, hyx⟩ := hus.exists_of_mapSpan (f := Span.shift (byteLength before)) (g := id)
      (fun _ _ => rfl) (fun _ _ => rfl) (hslice.trans (List.map_id us).symm)
    exact ⟨y, ofText_eq_ok_iff.2 hy, hyx.trans (mapSpans_id x)⟩
  · obtain ⟨e', he', hreplaces⟩ := henclosed ⟨.openParen, "(", .at 0⟩ ⟨.closeParen, ")", .at 0⟩ rfl rfl
    obtain ⟨y, hy, hye⟩ := he'.exists_of_entries (hentries.trans (by simp [Token.entry]))
    rw [Formula.ofText_eq_of_reads hy hye, hreplaces.ofExpr_eq]

theorem ofText_slices_percent : ∃ e, ofText "-2 %" = .ok e ∧
    e.parts.map span = [⟨0, 4⟩, ⟨1, 4⟩, ⟨1, 2⟩] ∧
    ∀ x ∈ e.parts, x.IsLaidOut ∧ IsSlice Float "-2 %" e x := by
  have htokens : Token.significant "-2 %" =
      [⟨.minus, "-", ⟨0, 1⟩⟩] ++ ([⟨.number, "2", ⟨1, 2⟩⟩] ++ [⟨.percent, "%", ⟨3, 4⟩⟩]) := by
    decide +kernel
  have htree : ofText "-2 %" = .ok (unary .negate ⟨0, 1⟩
      (unary .percent ⟨3, 4⟩ (number ⟨2, 0⟩ ⟨1, 2⟩) ⟨1, 4⟩) ⟨0, 4⟩) := by
    rw [ofText_eq_ok_iff, htokens]
    exact .operand (.prefixed rfl (.postfixed (.percent (.primary (.number rfl (by decide))) rfl)))
  exact ⟨_, htree, rfl, ofText_slices htree⟩

end Expr
end SymCalc
