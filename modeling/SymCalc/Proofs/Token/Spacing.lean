import SymCalc.Proofs.Token.Boundary

/-!
# Where tokens stand, and tokens set apart

* `Span.IsPart`: the region of a part of a text;
* `Lexeme.IsWhole`: a lexeme that is a token wherever nothing continues it;
* `Lexeme.spaced`: lexemes with a blank after each.

The lexemes of a text make up the text (`Lexeme.flatMap_all`), so tokens stand at parts of it
(`Token.exists_parts`). Lexemes of texts that are not blank are whole (`Lexeme.isWhole_of_mem_all`), and
any whole lexemes are the ones of some text (`Lexeme.filter_all_spaced`).
-/

namespace SymCalc

/-- The region of a part of the text, from a character to a character. -/
def Span.IsPart (s : Span) (text : String) : Prop :=
  ∃ before part after, text.toList = before ++ part ++ after ∧
    s = ⟨byteLength before, byteLength (before ++ part)⟩

theorem byteLength_toList (text : String) : byteLength text.toList = text.utf8ByteSize := by
  have h (cs : List Char) : byteLength cs = (String.ofList cs).utf8ByteSize := by
    induction cs with
    | nil => rfl
    | cons c cs ih =>
      rw [byteLength_cons, ih, String.ofList_cons, String.utf8ByteSize_append,
        String.utf8ByteSize_singleton]
  rw [h, String.ofList_toList]

theorem Span.isPart_at_end (text : String) : (Span.at text.utf8ByteSize).IsPart text :=
  ⟨text.toList, [], [], by simp, by simp [byteLength_toList, Span.at]⟩

namespace Lexeme

variable {c : Char} {cs rest : List Char} {l : Lexeme} {ls : List Lexeme}

/-! ## Lexemes make up the text -/

theorem isPrefix_fraction (cs : List Char) : fraction cs <+: cs := by
  unfold fraction
  split
  · simp only
    split
    · exact List.nil_prefix
    · exact List.cons_prefix_cons.2 ⟨rfl, List.takeWhile_prefix _⟩
  · exact List.nil_prefix

theorem mem_fraction {x : Char} (h : x ∈ fraction cs) : x.isDigit ∨ x = '.' := by
  unfold fraction at h
  split at h
  · simp only at h
    split at h
    · cases h
    · exact (List.mem_cons.1 h).symm.imp_left List.mem_takeWhile_imp
  · cases h

theorem isPrefix_continuation (c : Char) (rest : List Char) : continuation c rest <+: rest := by
  unfold continuation
  split
  · exact List.takeWhile_prefix _
  split
  · exact List.takeWhile_prefix _
  split
  · conv => rhs; rw [← List.takeWhile_append_dropWhile (p := Char.isDigit) (l := rest)]
    exact (List.prefix_append_right_inj _).2 (isPrefix_fraction _)
  · exact List.nil_prefix

theorem flatMap_all (cs : List Char) : (all cs).flatMap chars = cs := by
  induction cs using all.induct with
  | case1 => simp [all]
  | case2 c rest more ih =>
    rw [all, List.flatMap_cons, ih]
    exact congrArg (c :: ·) (List.prefix_iff_eq_append.1 (isPrefix_continuation c rest))

/-! ## Lexemes set apart -/

/-- A lexeme that is not blank and is a token wherever nothing continues it. -/
structure IsWhole (l : Lexeme) : Prop where
  kind_ne : l.kind ≠ .blank
  all_append : ∀ rest, Separates rest → all (l.chars ++ rest) = l :: all rest

theorem IsWhole.exists_head (h : l.IsWhole) :
    ∃ c cs, l.chars = c :: cs ∧ isSpace c = false := by
  have hmem : l ∈ all (l.chars ++ []) := h.all_append [] separates_nil ▸ List.mem_cons_self
  obtain ⟨c, rest, rfl⟩ := exists_of_mem_all hmem
  have hs : isSpace c ≠ true := fun hs => h.kind_ne (kindOf_of_isSpace hs)
  exact ⟨c, _, rfl, Bool.eq_false_iff.2 hs⟩

theorem isWhole_of_mem_all (h : l ∈ all cs) (hb : l.kind ≠ .blank) : l.IsWhole := by
  obtain ⟨c, rest, rfl⟩ := exists_of_mem_all h
  have hs : ¬ isSpace c := fun hs => hb (kindOf_of_isSpace hs)
  refine ⟨hb, fun rest' hr => ?_⟩
  by_cases ha : c.isAlpha
  · rw [continuation_of_isAlpha ha, kindOf_of_isAlpha ha]
    exact all_word ha (fun _ => List.mem_takeWhile_imp) hr
  by_cases hd : c.isDigit
  · have hk := kindOf_of_isDigit hd
    obtain ⟨d, hd⟩ := Option.isSome_iff_exists.1 (Token.isSome_ofChars?_of_number rest hk)
    rw [all_numeral hd hr, hk]
  · have hc := continuation_eq_nil hs ha hd
    rw [hc]
    exact all_of_continuation (hc _)

/-- The lexemes with a blank after each. -/
def spaced : List Lexeme → List Char
  | [] => []
  | l :: ls => l.chars ++ ' ' :: spaced ls

theorem all_space (h : ∀ c ∈ cs.head?, isSpace c = false) :
    all (' ' :: cs) = ⟨.blank, [' ']⟩ :: all cs := by
  have hc : continuation ' ' ([] ++ cs) = [] := by
    have hnil : ∀ c ∈ ([] : List Char), isSpace c := nofun
    simpa [continuation, isSpace] using takeWhile_append_of_head? hnil h
  exact all_of_continuation hc

/-- Lexemes set apart are the ones of the text that they make up, apart from the blanks. -/
theorem filter_all_spaced (h : ∀ l ∈ ls, l.IsWhole) :
    (all (spaced ls)).filter (·.kind ≠ .blank) = ls := by
  induction ls with
  | nil => simp [spaced, all]
  | cons l ls ih =>
    obtain ⟨hl, hls⟩ := List.forall_mem_cons.1 h
    have hhead : ∀ c ∈ (spaced ls).head?, isSpace c = false := by
      cases ls with
      | nil =>
        intro c hc
        cases hc
      | cons l' ls =>
        obtain ⟨c, cs, hcs, hc⟩ := (hls l' (by simp)).exists_head
        simpa [spaced, hcs] using hc
    rw [spaced, hl.all_append _ (separates_cons rfl (by decide)), all_space hhead,
      List.filter_cons_of_pos (by simp [hl.kind_ne]), List.filter_cons_of_neg (by simp), ih hls]

end Lexeme

/-! ## The places of tokens -/

namespace Token

variable {t : Token} {start : Nat} {ls : List Lexeme} {text : String}

theorem exists_split_of_mem_place (h : t ∈ place start ls) :
    ∃ pre l post, ls = pre ++ l :: post ∧ t.kind = l.kind ∧ t.lexeme = String.ofList l.chars ∧
      t.span = ⟨start + byteLength (pre.flatMap Lexeme.chars),
        start + byteLength (pre.flatMap Lexeme.chars ++ l.chars)⟩ := by
  induction ls generalizing start with
  | nil => cases h
  | cons l ls ih =>
    rcases List.mem_cons.1 h with rfl | h
    · exact ⟨[], l, ls, rfl, rfl, rfl, rfl⟩
    · obtain ⟨pre, l', post, rfl, hk, hx, hs⟩ := ih h
      exact ⟨l :: pre, l', post, rfl, hk, hx, by simp [hs, Nat.add_assoc]⟩

/-- A token of a text stands at its lexeme. -/
theorem exists_parts (h : t ∈ ofText text) :
    ∃ before after, text.toList = before ++ t.lexeme.toList ++ after ∧
      t.span = ⟨byteLength before, byteLength (before ++ t.lexeme.toList)⟩ := by
  obtain ⟨pre, l, post, hls, -, hx, hs⟩ := exists_split_of_mem_place h
  refine ⟨pre.flatMap Lexeme.chars, post.flatMap Lexeme.chars, ?_, ?_⟩
  · rw [← Lexeme.flatMap_all text.toList, hls, hx]
    simp
  · simp [hs, hx]

theorem isPart_span (h : t ∈ ofText text) : t.span.IsPart text := by
  obtain ⟨before, after, htext, hs⟩ := exists_parts h
  exact ⟨before, _, after, htext, hs⟩

theorem isPart_span_through_end (h : t ∈ ofText text) :
    (t.span.through (.at text.utf8ByteSize)).IsPart text := by
  obtain ⟨before, after, htext, hs⟩ := exists_parts h
  refine ⟨before, t.lexeme.toList ++ after, [], by simp [htext], ?_⟩
  rw [← List.append_assoc, ← htext, byteLength_toList, hs]
  rfl

end Token
end SymCalc
