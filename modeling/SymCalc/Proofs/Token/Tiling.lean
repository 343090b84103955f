import SymCalc.Proofs.Syntax.Slices
import SymCalc.Proofs.Token.Word

/-!
# Tokens tile a text by longest match

* `Token.Kind.Fits`: the characters that a token of a class can have;
* `Token.Kind.IsLongest`: the longest start of a text that is a token;
* `Token.IsTiling`: tokens that make up a text, each the longest where it starts;
* `Token.IsBorder`: the ends of tokens.

The class of a token is the one its first character asks for (`Token.Kind.eq_kindOf`), and its other
characters are as many as fit this class (`Token.Kind.Fits.isPrefix_continuation`). So the tokens of a
text tile it, and a text cut at borders of tokens has the same tokens (`Token.ofText_tiles`).
-/

namespace SymCalc

open Lexeme

/-! ## The longest token -/

theorem isPrefix_takeWhile {p : Char → Bool} {cs rest : List Char} (h : cs <+: rest)
    (hall : ∀ x ∈ cs, p x) : cs <+: rest.takeWhile p := by
  obtain ⟨more, rfl⟩ := h
  rw [List.takeWhile_append_of_pos hall]
  exact List.prefix_append ..

theorem Decimal.point_notMem_of_isDigits {ds : List Char} (h : isDigits ds) : '.' ∉ ds := fun hmem =>
  absurd ((isDigits_iff.1 h).2 '.' hmem) (by decide)

namespace Token.Kind

/-- Whether the characters can be a token of the class. -/
def Fits : Kind → List Char → Prop
  | blank, cs => cs ≠ [] ∧ ∀ c ∈ cs, isSpace c
  | plus, cs => cs = ['+']
  | minus, cs => cs = ['-']
  | star, cs => cs = ['*']
  | slash, cs => cs = ['/']
  | caret, cs => cs = ['^']
  | percent, cs => cs = ['%']
  | openParen, cs => cs = ['(']
  | closeParen, cs => cs = [')']
  | name, cs => IsIdentifier cs
  | number, cs => Decimal.isDigits cs ∨
      ∃ ds fs, cs = ds ++ '.' :: fs ∧ Decimal.isDigits ds ∧ Decimal.isDigits fs
  | symbol, cs => ∃ c, cs = [c]

/-- Whether `cs` is the longest token at the start of the text, and `k` is its class. A character is a
symbol only if no token of another class starts with it. -/
structure IsLongest (k : Kind) (cs text : List Char) : Prop where
  isPrefix : cs <+: text
  fits : k.Fits cs
  length_le : ∀ j ds, ds <+: text → Fits j ds → ds.length ≤ cs.length
  eq_of_fits : ∀ j ds, ds <+: text → Fits j ds → j ≠ .symbol → j = k

variable {k : Kind} {c : Char} {cs rest : List Char}

theorem fits_single (c : Char) : Fits (single c) [c] := by
  unfold single
  split
  case h_9 => exact ⟨c, rfl⟩
  all_goals rfl

theorem Fits.ne_nil (h : k.Fits cs) : cs ≠ [] := by
  rintro rfl
  cases k with
  | blank => exact h.1 rfl
  | name =>
    obtain ⟨_, _, heq, -⟩ := h
    cases heq
  | number =>
    rcases h with h | ⟨ds, fs, heq, -⟩
    · cases h
    · exact List.append_ne_nil_of_right_ne_nil ds (List.cons_ne_nil '.' fs) heq.symm
  | symbol =>
    obtain ⟨_, heq⟩ := h
    cases heq
  | _ => cases h

/-- A token is of the class that its first character asks for. -/
theorem Fits.eq_kindOf (h : k.Fits (c :: cs)) (hk : k ≠ .symbol) : k = kindOf c := by
  have hsingle {x : Char} (h : c :: cs = [x]) (hx : kindOf x = k) : k = kindOf c := by
    obtain ⟨rfl, -⟩ := List.cons.inj h
    exact hx.symm
  cases k with
  | blank => exact (kindOf_of_isSpace (h.2 c List.mem_cons_self)).symm
  | name =>
    obtain ⟨_, _, heq, hc, -⟩ := h
    obtain ⟨rfl, -⟩ := List.cons.inj heq
    exact (kindOf_of_isAlpha hc).symm
  | number =>
    rcases h with h | ⟨ds, fs, heq, hds, -⟩
    · exact (kindOf_of_isDigit ((Decimal.isDigits_iff.1 h).2 c List.mem_cons_self)).symm
    · obtain ⟨d, ds, rfl, hd, -⟩ := Decimal.exists_of_isDigits hds
      obtain ⟨rfl, -⟩ := List.cons.inj heq
      exact (kindOf_of_isDigit hd).symm
  | symbol => exact absurd rfl hk
  | _ => exact hsingle h rfl

theorem isPrefix_fraction_of_isDigits {fs : List Char} (h : Decimal.isDigits fs) (rest : List Char) :
    '.' :: fs <+: fraction ('.' :: (fs ++ rest)) := by
  obtain ⟨hne, hall⟩ := Decimal.isDigits_iff.1 h
  simp [fraction, List.takeWhile_append_of_pos hall, hne]

/-- The characters of a token behind the first one are among those that continue it. -/
theorem Fits.isPrefix_continuation (h : k.Fits (c :: cs)) (hcs : cs <+: rest) :
    cs <+: continuation c rest := by
  have hsingle {x : Char} (h : c :: cs = [x]) : cs <+: continuation c rest :=
    (List.cons.inj h).2 ▸ List.nil_prefix
  cases k with
  | blank =>
    obtain ⟨hc, hall⟩ := List.forall_mem_cons.1 h.2
    rw [continuation_of_isSpace hc]
    exact isPrefix_takeWhile hcs hall
  | name =>
    obtain ⟨_, _, heq, hc, hall⟩ := h
    obtain ⟨rfl, rfl⟩ := List.cons.inj heq
    rw [continuation_of_isAlpha hc]
    exact isPrefix_takeWhile hcs hall
  | number =>
    rcases h with h | ⟨ds, fs, heq, hds, hfs⟩
    · obtain ⟨hc, hall⟩ := List.forall_mem_cons.1 (Decimal.isDigits_iff.1 h).2
      rw [continuation_of_isDigit hc]
      exact (isPrefix_takeWhile hcs hall).trans (List.prefix_append ..)
    · obtain ⟨d, ds, rfl, hd, hall⟩ := Decimal.exists_of_isDigits hds
      obtain ⟨rfl, htail⟩ := List.cons.inj heq
      obtain rfl : cs = ds ++ '.' :: fs := htail
      obtain ⟨more, rfl⟩ := hcs
      have hpoint : ∀ x ∈ ('.' :: (fs ++ more)).head?, x.isDigit = false := by simp
      rw [continuation_of_isDigit hd, List.append_assoc, List.cons_append,
        takeWhile_append_of_head? hall hpoint, dropWhile_append_of_head? hall hpoint]
      exact (List.prefix_append_right_inj _).2 (isPrefix_fraction_of_isDigits hfs more)
  | symbol =>
    obtain ⟨_, heq⟩ := h
    exact hsingle heq
  | _ => exact hsingle h

/-- The first token of a text is of the class that its first character asks for. -/
theorem fits_kindOf (c : Char) (rest : List Char) : (kindOf c).Fits (c :: continuation c rest) := by
  by_cases hs : isSpace c
  · rw [kindOf_of_isSpace hs, continuation_of_isSpace hs]
    exact ⟨List.cons_ne_nil _ _, List.forall_mem_cons.2 ⟨hs, fun _ => List.mem_takeWhile_imp⟩⟩
  by_cases ha : c.isAlpha
  · rw [kindOf_of_isAlpha ha, continuation_of_isAlpha ha]
    exact ⟨c, _, rfl, ha, fun _ => List.mem_takeWhile_imp⟩
  by_cases hd : c.isDigit
  · have hk : kindOf c = .number := kindOf_of_isDigit hd
    obtain ⟨d, hd⟩ := Option.isSome_iff_exists.1 (Token.isSome_ofChars?_of_number rest hk)
    rw [hk]
    exact Decimal.exists_of_ofChars? hd
  · rw [kindOf_eq_single hs ha hd, continuation_eq_nil hs ha hd]
    exact fits_single c

/-- The first token of a text is the longest one there. -/
theorem isLongest_kindOf (c : Char) (rest : List Char) :
    (kindOf c).IsLongest (c :: continuation c rest) (c :: rest) := by
  refine ⟨List.cons_prefix_cons.2 ⟨rfl, isPrefix_continuation c rest⟩, fits_kindOf c rest, ?_, ?_⟩
  · intro j ds hds hj
    cases ds with
    | nil => exact absurd rfl hj.ne_nil
    | cons d ds =>
      obtain ⟨rfl, htail⟩ := List.cons_prefix_cons.1 hds
      exact Nat.succ_le_succ (hj.isPrefix_continuation htail).length_le
  · intro j ds hds hj hsymbol
    cases ds with
    | nil => exact absurd rfl hj.ne_nil
    | cons d ds =>
      obtain ⟨rfl, -⟩ := List.cons_prefix_cons.1 hds
      exact hj.eq_kindOf hsymbol

/-- Digits stand behind a point of a numeral. -/
theorem Fits.isDigits_of_point {ds fs : List Char} (h : Fits .number (ds ++ '.' :: fs)) :
    Decimal.isDigits fs := by
  rcases h with h | ⟨es, gs, heq, hes, hgs⟩
  · exact absurd (by simp) (Decimal.point_notMem_of_isDigits h)
  · -- it is the only point, because none is among the digits on either side of it
    rcases List.append_eq_append_iff.1 heq with ⟨as, rfl, htail⟩ | ⟨as, -, htail⟩
    · cases as with
      | nil => exact (List.cons.inj htail).2 ▸ hgs
      | cons a as =>
        obtain ⟨rfl, -⟩ := List.cons.inj htail
        exact absurd (by simp) (Decimal.point_notMem_of_isDigits hes)
    · cases as with
      | nil => exact (List.cons.inj htail).2 ▸ hgs
      | cons a as =>
        obtain ⟨-, rfl⟩ := List.cons.inj htail
        exact absurd (by simp) (Decimal.point_notMem_of_isDigits hgs)

/-- A numeral with a point behind it and no digit after the point is the longest token where it starts. -/
theorem IsLongest.eq_of_point {ds : List Char} (h : k.IsLongest cs (ds ++ '.' :: rest))
    (hds : Fits .number ds) (hrest : ∀ c ∈ rest.head?, c.isDigit = false) : k = .number ∧ cs = ds := by
  have hprefix : ds <+: ds ++ '.' :: rest := List.prefix_append ..
  obtain rfl : Kind.number = k := h.eq_of_fits .number ds hprefix hds (by decide)
  have hle : ds.length ≤ cs.length := h.length_le .number ds hprefix hds
  obtain ⟨more, rfl⟩ := List.prefix_of_prefix_length_le hprefix h.isPrefix hle
  have hmore : more <+: '.' :: rest := (List.prefix_append_right_inj ds).1 h.isPrefix
  cases more with
  | nil => simp
  | cons p fs =>
    -- a longer numeral would have a digit behind the point
    obtain ⟨rfl, hfs⟩ := List.cons_prefix_cons.1 hmore
    obtain ⟨d, fs, rfl, hd, -⟩ := Decimal.exists_of_isDigits h.fits.isDigits_of_point
    obtain ⟨tail, rfl⟩ := hfs
    cases hd.symm.trans (hrest d rfl)

end Token.Kind

/-- Every token of a text is the longest one at the start of what is left of the text. -/
theorem Lexeme.isLongest_of_all_eq {cs : List Char} {l : Lexeme} {ls ks : List Lexeme}
    (h : all cs = ls ++ l :: ks) : l.kind.IsLongest l.chars ((l :: ks).flatMap chars) := by
  obtain ⟨-, hrest⟩ := all_flatMap h
  generalize (l :: ks).flatMap chars = text at hrest ⊢
  cases text with
  | nil => simp [all] at hrest
  | cons c rest =>
    rw [all] at hrest
    obtain ⟨rfl, -⟩ := List.cons.inj hrest
    exact Token.Kind.isLongest_kindOf c rest

/-! ## Tilings -/

theorem byteLength_eq_zero {cs : List Char} : byteLength cs = 0 ↔ cs = [] := by
  cases cs with
  | nil => simp
  | cons c cs => simp [c.utf8Size_pos.ne']

/-- Starts of a text of the same length in bytes are the same. -/
theorem eq_of_byteLength_eq {as bs cs : List Char} (has : as <+: cs) (hbs : bs <+: cs)
    (h : byteLength as = byteLength bs) : as = bs := by
  rcases List.prefix_or_prefix_of_prefix has hbs with ⟨more, rfl⟩ | ⟨more, rfl⟩
  · simp [byteLength_eq_zero.1 (by simpa using h : byteLength more = 0)]
  · simp [byteLength_eq_zero.1 (by simpa using h : byteLength more = 0)]

namespace Token

variable {text : String} {t : Token} {ts us pre post : List Token}

/-- The characters of the tokens, one after another. -/
def chars (ts : List Token) : List Char := ts.flatMap fun t => t.lexeme.toList

@[simp] theorem chars_nil : chars [] = [] := rfl

@[simp] theorem chars_cons (t : Token) (ts : List Token) :
    chars (t :: ts) = t.lexeme.toList ++ chars ts := rfl

@[simp] theorem chars_append (ts us : List Token) : chars (ts ++ us) = chars ts ++ chars us :=
  List.flatMap_append

@[simp] theorem chars_place (start : ℕ) (ls : List Lexeme) :
    chars (place start ls) = ls.flatMap Lexeme.chars := by
  induction ls generalizing start with
  | nil => rfl
  | cons l ls ih => simp [place, ih]

/-- The tokens of a text make it up. -/
theorem chars_ofText (text : String) : chars (ofText text) = text.toList := by
  rw [ofText, chars_place, Lexeme.flatMap_all]

theorem exists_of_ofText_eq_append (h : ofText text = ts ++ us) : ∃ ks js,
    Lexeme.all text.toList = ks ++ js ∧ place 0 ks = ts ∧ place (byteLength (chars ts)) js = us := by
  obtain ⟨ks, js, hall, rfl, hjs⟩ := exists_of_place_eq_append h
  exact ⟨ks, js, hall, rfl, by simpa using hjs⟩

/-- Whether the tokens make up the text, where each of them stands behind the ones before it and is the
longest token at the start of what they leave of the text. -/
structure IsTiling (text : String) (ts : List Token) : Prop where
  chars_eq : chars ts = text.toList
  lexeme_ne : ∀ t ∈ ts, t.lexeme ≠ ""
  isChain : ts.IsChain fun t u => t.span.stop = u.span.start
  span_eq : ∀ pre t post, ts = pre ++ t :: post →
    t.span = ⟨byteLength (chars pre), byteLength (chars (pre ++ [t]))⟩
  isLongest : ∀ pre t post, ts = pre ++ t :: post →
    t.kind.IsLongest t.lexeme.toList (chars (t :: post))

theorem isChain_place (start : ℕ) (ls : List Lexeme) :
    (place start ls).IsChain fun t u => t.span.stop = u.span.start := by
  induction ls generalizing start with
  | nil => exact .nil
  | cons l ls ih =>
    refine List.isChain_cons.2 ⟨fun t ht => ?_, ih _⟩
    exact (start_of_mem_head? ht).symm

/-- The tokens of a text tile it. -/
theorem isTiling_ofText (text : String) : IsTiling text (ofText text) := by
  have hplace {pre post : List Token} {t : Token} (h : ofText text = pre ++ t :: post) :
      t.span = ⟨byteLength (chars pre), byteLength (chars (pre ++ [t]))⟩ ∧
        t.kind.IsLongest t.lexeme.toList (chars (t :: post)) := by
    obtain ⟨ks, js, hall, -, hjs⟩ := exists_of_ofText_eq_append h
    cases js with
    | nil => cases hjs
    | cons l js =>
      obtain ⟨rfl, rfl⟩ := List.cons.inj hjs
      exact ⟨by simp, by simpa using Lexeme.isLongest_of_all_eq hall⟩
  refine ⟨chars_ofText text, fun t ht => ?_, isChain_place _ _, fun _ _ _ h => (hplace h).1,
    fun _ _ _ h => (hplace h).2⟩
  obtain ⟨pre, post, h⟩ := List.append_of_mem ht
  have hne := (hplace h).2.fits.ne_nil
  rintro hempty
  simp [hempty] at hne

/-! ## Borders -/

/-- Whether a token ends at byte `n` of the text, or the text starts there. -/
def IsBorder (text : String) (n : ℕ) : Prop := n = 0 ∨ ∃ t ∈ ofText text, t.span.stop = n

theorem exists_of_isBorder {n : ℕ} (h : IsBorder text n) :
    ∃ pre post, ofText text = pre ++ post ∧ byteLength (chars pre) = n := by
  rcases h with rfl | ⟨t, ht, rfl⟩
  · exact ⟨[], ofText text, rfl, rfl⟩
  · obtain ⟨pre, post, h⟩ := List.append_of_mem ht
    exact ⟨pre ++ [t], post, by simp [h], by rw [(isTiling_ofText text).span_eq pre t post h]⟩

/-- Borders cut a text between two tokens. -/
theorem exists_of_isBorder_of_isBorder {before part after : List Char}
    (h : text.toList = before ++ part ++ after) (hstart : IsBorder text (byteLength before))
    (hstop : IsBorder text (byteLength (before ++ part))) :
    ∃ pre ts post, ofText text = pre ++ ts ++ post ∧ chars pre = before ∧ chars ts = part := by
  have hcut {pre post : List Token} {cs rest : List Char} (hpre : ofText text = pre ++ post)
      (hcs : text.toList = cs ++ rest) (hn : byteLength (chars pre) = byteLength cs) :
      chars pre = cs := by
    refine eq_of_byteLength_eq ⟨chars post, ?_⟩ ⟨rest, hcs.symm⟩ hn
    rw [← chars_append, ← hpre, chars_ofText]
  obtain ⟨pre, behind, hpre, hn⟩ := exists_of_isBorder hstart
  obtain ⟨front, post, hfront, hm⟩ := exists_of_isBorder hstop
  obtain rfl := hcut hpre (by simpa using h) hn
  have hpart : chars front = chars pre ++ part := hcut hfront h hm
  rcases List.prefix_or_prefix_of_prefix ⟨behind, hpre.symm⟩ ⟨post, hfront.symm⟩ with
    ⟨ts, rfl⟩ | ⟨us, rfl⟩
  · exact ⟨pre, ts, post, hfront, rfl, by simpa using hpart⟩
  · -- the second border does not stand before the first one, so the slice is empty
    obtain ⟨hus, rfl⟩ : chars us = [] ∧ part = [] := by simpa using hpart
    exact ⟨front ++ us, [], behind, by simpa using hpre, rfl, rfl⟩

/-- The slice of a text where tokens stand has these tokens. -/
theorem map_ofText_chars (h : ofText text = pre ++ ts ++ post) :
    (ofText (String.ofList (chars ts))).map (mapSpan (Span.shift (byteLength (chars pre)))) = ts := by
  obtain ⟨front, js, hall, hfront, -⟩ := exists_of_ofText_eq_append h
  obtain ⟨ks, is, rfl, rfl, his⟩ := exists_of_place_eq_append hfront
  obtain ⟨-, hts⟩ := Lexeme.all_flatMap (Lexeme.all_flatMap hall).1
  subst his
  rw [ofText, String.toList_ofList, chars_place, chars_place, hts, ← place_shift]

theorem span_within (pre post : List Token) (h : ofText text = pre ++ ts ++ post) (ht : t ∈ ts) :
    byteLength (chars pre) ≤ t.span.start ∧ t.span.start < t.span.stop ∧
      t.span.stop ≤ byteLength (chars (pre ++ ts)) := by
  obtain ⟨us, vs, rfl⟩ := List.append_of_mem ht
  have hspan := (isTiling_ofText text).span_eq (pre ++ us) t (vs ++ post) (by simp [h])
  have hmem : t ∈ ofText text := by simp [h]
  refine ⟨?_, (isProper_of_mem_ofText hmem).start_lt_stop, ?_⟩ <;>
    simp only [hspan, chars_append, chars_cons, chars_nil, List.append_nil, byteLength_append] <;> omega

/-- The tokens between two borders of a text are the ones that stand there. -/
theorem filter_ofText (h : ofText text = pre ++ ts ++ post) :
    ((ofText text).filter fun t => byteLength (chars pre) ≤ t.span.start ∧
      t.span.stop ≤ byteLength (chars (pre ++ ts))) = ts := by
  have hfront {t : Token} (ht : t ∈ pre) : ¬ byteLength (chars pre) ≤ t.span.start := by
    obtain ⟨-, hlt, hle⟩ := span_within [] (ts ++ post) (by simpa using h) ht
    simp only [List.nil_append] at hle
    omega
  have hbehind {t : Token} (ht : t ∈ post) : ¬ t.span.stop ≤ byteLength (chars (pre ++ ts)) := by
    obtain ⟨hle, hlt, -⟩ := span_within (pre ++ ts) [] (by simpa using h) ht
    omega
  have hinside {t : Token} (ht : t ∈ ts) : byteLength (chars pre) ≤ t.span.start ∧
      t.span.stop ≤ byteLength (chars (pre ++ ts)) :=
    ⟨(span_within pre post h ht).1, (span_within pre post h ht).2.2⟩
  rw [h, List.filter_append, List.filter_append,
    List.filter_eq_nil_iff.2 fun t ht hin => hfront ht (of_decide_eq_true hin).1,
    List.filter_eq_self.2 fun t ht => decide_eq_true (hinside ht),
    List.filter_eq_nil_iff.2 fun t ht hin => hbehind ht (of_decide_eq_true hin).2, List.nil_append,
    List.append_nil]

/-- The tokens of a text tile it by longest match, a numeral with a point behind it and no digit after the
point ends before the point, and the tokens of a slice between two borders are the ones that stand there. -/
theorem ofText_tiles (text : String) :
    IsTiling text (ofText text) ∧
    (∀ pre t post ds rest, ofText text = pre ++ t :: post → chars (t :: post) = ds ++ '.' :: rest →
      Kind.Fits .number ds → (∀ c ∈ rest.head?, c.isDigit = false) →
        t.kind = .number ∧ t.lexeme = String.ofList ds) ∧
    ∀ before part after, text.toList = before ++ part ++ after →
      IsBorder text (byteLength before) → IsBorder text (byteLength (before ++ part)) →
        (ofText (String.ofList part)).map (mapSpan (Span.shift (byteLength before))) =
          (ofText text).filter fun t => byteLength before ≤ t.span.start ∧
            t.span.stop ≤ byteLength (before ++ part) := by
  refine ⟨isTiling_ofText text, ?_, ?_⟩
  · intro pre t post ds rest h hrest hds hpoint
    have hlongest := (isTiling_ofText text).isLongest pre t post h
    rw [hrest] at hlongest
    obtain ⟨hk, hlexeme⟩ := hlongest.eq_of_point hds hpoint
    exact ⟨hk, by rw [← hlexeme, String.ofList_toList]⟩
  · intro before part after h hstart hstop
    obtain ⟨pre, ts, post, hsplit, rfl, rfl⟩ := exists_of_isBorder_of_isBorder h hstart hstop
    rw [map_ofText_chars hsplit, ← chars_append, filter_ofText hsplit]

end Token
end SymCalc
