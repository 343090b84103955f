import SymCalc.Proofs.Syntax.Progress
import SymCalc.Proofs.Token.Spacing
import SymCalc.Session

/-!
# Words and names

* `Token.isNamed`: whether a token is a given name;
* `IsIdentifier`: the characters that make up a name;
* `firstToken` and `behind`: the first token of a text, and what is left behind it;
* `AtWordBorder`: the places of a search where no word goes on.

A search for words looks at characters one after another. In a text that is accepted as a formula it
finds the first token that is the name (`findWord?_of_ofText`): no name follows another name or a
numeral directly, so every name starts a word and is all of it. The search gets from one border of
words to the next by one token (`AtWordBorder.exists_behind`).
-/

namespace SymCalc

open Lexeme

/-- Whether the token is the name `x`. -/
def Token.isNamed (x : String) (t : Token) : Bool := t.kind = .name && t.lexeme = x

/-- Whether the characters are a letter with letters, digits and underscores after it. -/
def IsIdentifier (cs : List Char) : Prop :=
  ∃ c more, cs = c :: more ∧ c.isAlpha ∧ ∀ x ∈ more, isNameChar x

variable {name cs rest : List Char} {c : Char} {start : Nat} {afterWord : Bool} {t : Token}

theorem isNameChar_of_isAlpha (h : c.isAlpha) : isNameChar c := by
  simp [isNameChar, Char.isAlphanum, h]

theorem IsIdentifier.forall_isNameChar (h : IsIdentifier name) : ∀ x ∈ name, isNameChar x := by
  obtain ⟨c, more, rfl, hc, hmore⟩ := h
  exact List.forall_mem_cons.2 ⟨isNameChar_of_isAlpha hc, hmore⟩

theorem Token.isNamed_iff {k : Token.Kind} {span : Span} :
    (⟨k, String.ofList cs, span⟩ : Token).isNamed (String.ofList name) ↔ k = .name ∧ cs = name := by
  rw [isNamed, Bool.and_eq_true, decide_eq_true_eq, decide_eq_true_eq, String.ofList_inj]

/-- A name token is an identifier. -/
theorem Token.isIdentifier_of_isNamed {text x : String} (ht : t ∈ ofText text) (h : t.isNamed x) :
    IsIdentifier x.toList := by
  simp only [isNamed, Bool.and_eq_true, decide_eq_true_eq] at h
  obtain ⟨hk, rfl⟩ := h
  obtain ⟨l, hl, hkind, hx, -⟩ := exists_of_mem_place ht
  obtain ⟨c, rest, rfl⟩ := exists_of_mem_all hl
  have hc := isAlpha_of_kindOf (hkind.symm.trans hk)
  refine ⟨c, rest.takeWhile isNameChar, ?_, hc, fun _ => List.mem_takeWhile_imp⟩
  rw [hx, String.toList_ofList, continuation_of_isAlpha hc]

/-! ## Searching through a token -/

/-- A word is not found where its first character is not. -/
theorem findWordFrom?_append {n : Char} {ns : List Char} (h : n ∉ cs) :
    findWordFrom? (n :: ns) start afterWord (cs ++ rest) =
      findWordFrom? (n :: ns) (start + byteLength cs)
        ((cs.getLast?.map isNameChar).getD afterWord) rest := by
  induction cs generalizing start afterWord with
  | nil => rfl
  | cons c cs ih =>
    obtain ⟨hc, hcs⟩ := not_or.1 (mt List.mem_cons.2 h)
    have hlast : (((c :: cs).getLast?.map isNameChar).getD afterWord) =
        (cs.getLast?.map isNameChar).getD (isNameChar c) := by
      rw [List.getLast?_cons]
      cases cs.getLast? <;> rfl
    rw [List.cons_append, findWordFrom?, if_neg (by simp [hc]), ih hcs, hlast, byteLength_cons,
      Nat.add_assoc]
    rfl

/-- A word is not found after the start of another one. -/
theorem findWordFrom?_append_of_isNameChar (name rest : List Char) (start : Nat)
    (h : ∀ x ∈ cs, isNameChar x) :
    findWordFrom? name start true (cs ++ rest) =
      findWordFrom? name (start + byteLength cs) true rest := by
  induction cs generalizing start with
  | nil => rfl
  | cons c cs ih =>
    obtain ⟨hc, hcs⟩ := List.forall_mem_cons.1 h
    have hc : Command.isWordChar c = true := hc
    rw [List.cons_append, findWordFrom?, if_neg (by simp), hc, ih _ hcs, byteLength_cons,
      Nat.add_assoc]

/-- A word stands at the start of a text exactly if it is the longest word there. -/
theorem isPrefixOf_iff_takeWhile (h : ∀ x ∈ name, isNameChar x) (cs : List Char) :
    (name.isPrefixOf cs && !(cs.drop name.length).head?.any Command.isWordChar) ↔
      cs.takeWhile isNameChar = name := by
  rw [Bool.and_eq_true, List.isPrefixOf_iff_prefix, Bool.not_eq_true', Option.any_eq_false]
  constructor
  · rintro ⟨⟨more, rfl⟩, hmore⟩
    rw [List.drop_left] at hmore
    exact takeWhile_append_of_head? h fun c hc => (by simpa using hmore c hc :
      Command.isWordChar c = false)
  · intro hname
    have hcs := List.takeWhile_append_dropWhile (p := isNameChar) (l := cs)
    rw [hname] at hcs
    refine ⟨⟨_, hcs⟩, fun c hc => ?_⟩
    rw [← hcs, List.drop_left] at hc
    have hhead := List.head?_dropWhile_not isNameChar cs
    rw [Option.mem_def.1 hc] at hhead
    exact hhead

/-! ## Tokens that fit -/

namespace Progress

variable {s s' : Progress}

theorem wants_of_next? (h : s.next? t = some s') (hk : t.kind = .name ∨ t.kind = .number) :
    s.wants := by
  obtain ⟨n, wants⟩ := s
  cases wants with
  | true => rfl
  | false =>
    have hnone : (⟨n, false⟩ : Progress).next? t = none := by
      apply next?_of_no_infix <;> rcases hk with hk | hk <;> simp [Cursor.infixOp?, hk]
    cases hnone.symm.trans h

theorem not_wants_of_next?_number (h : s.next? t = some s') (hk : t.kind = .number) :
    s'.wants = false := by
  obtain ⟨n, wants⟩ := s
  obtain rfl : wants = true := wants_of_next? h (.inr hk)
  cases (next?_number hk n).symm.trans h
  rfl

theorem kind_ne_symbol_of_next? (h : s.next? t = some s') : t.kind ≠ .symbol := by
  intro hk
  obtain ⟨n, wants⟩ := s
  cases wants <;> simp [next?, Cursor.prefixOp?, Cursor.infixOp?, hk] at h

end Progress

/-! ## Searching through a formula -/

section

variable {n : Char} {ns : List Char}

theorem findWordFrom?_space (hn : n.isAlpha) (hs : isSpace c) :
    findWordFrom? (n :: ns) start afterWord (c :: continuation c rest ++ cs) =
      findWordFrom? (n :: ns) (start + byteLength (c :: continuation c rest)) false cs := by
  have hblank : ∀ x ∈ c :: continuation c rest, isSpace x := by
    rw [continuation_of_isSpace hs]
    exact List.forall_mem_cons.2 ⟨hs, fun _ => List.mem_takeWhile_imp⟩
  have hnot {x : Char} (hx : isSpace x) : isNameChar x = false := by
    have ha : x.isAlpha = false := eq_false_of_ne_true fun h => not_isSpace_of_isAlpha h hx
    have hd : x.isDigit = false := eq_false_of_ne_true fun h => not_isSpace_of_isDigit h hx
    have hu : x ≠ '_' := by
      rintro rfl
      exact absurd hx (by decide)
    simp [isNameChar, Char.isAlphanum, ha, hd, hu]
  rw [findWordFrom?_append fun h => not_isSpace_of_isAlpha hn (hblank n h)]
  congr 1
  cases hlast : (c :: continuation c rest).getLast? with
  | none => simp at hlast
  | some x => exact hnot (hblank x (List.mem_of_getLast? hlast))

theorem findWordFrom?_single (hn : n.isAlpha) (ha : ¬ c.isAlpha) :
    findWordFrom? (n :: ns) start afterWord (c :: cs) =
      findWordFrom? (n :: ns) (start + c.utf8Size) (isNameChar c) cs := by
  have hc : n ∉ [c] := fun h => ha (List.mem_singleton.1 h ▸ hn)
  exact findWordFrom?_append hc

theorem findWordFrom?_number (hn : n.isAlpha) (hd : c.isDigit) :
    findWordFrom? (n :: ns) start afterWord (c :: continuation c rest ++ cs) =
      findWordFrom? (n :: ns) (start + byteLength (c :: continuation c rest))
        (((c :: continuation c rest).getLast?.map isNameChar).getD afterWord) cs := by
  have hnot : ¬ (n.isDigit ∨ n = '.') := by
    rintro (h | rfl)
    · exact not_isAlpha_of_isDigit h hn
    · exact absurd hn (by decide)
  refine findWordFrom?_append fun h => hnot ?_
  rw [continuation_of_isDigit hd] at h
  rcases List.mem_cons.1 h with rfl | h
  · exact .inl hd
  · exact (List.mem_append.1 h).elim (fun h => .inl (List.mem_takeWhile_imp h)) mem_fraction

/-- At the start of a word, the word is what is searched, or the search goes on behind it. -/
theorem findWordFrom?_word (hname : ∀ x ∈ name, isNameChar x) (hc : isNameChar c) :
    findWordFrom? name start false (c :: rest) =
      if c :: rest.takeWhile isNameChar = name then some ⟨start, start + byteLength name⟩
      else findWordFrom? name (start + byteLength (c :: rest.takeWhile isNameChar)) true
        (rest.dropWhile isNameChar) := by
  have hword := isPrefixOf_iff_takeWhile hname (c :: rest)
  rw [List.takeWhile_cons_of_pos hc] at hword
  rw [findWordFrom?, Bool.not_false, Bool.true_and]
  simp only [hword]
  congr 1
  have hc : Command.isWordChar c = true := hc
  have hmore : ∀ x ∈ rest.takeWhile isNameChar, isNameChar x := fun _ => List.mem_takeWhile_imp
  have h := findWordFrom?_append_of_isNameChar name (rest.dropWhile isNameChar)
    (start + c.utf8Size) hmore
  rw [List.takeWhile_append_dropWhile] at h
  rw [hc, h, byteLength_cons, Nat.add_assoc]

end

/-- The token of a text `c :: rest` that starts at byte `start`. -/
def firstToken (start : Nat) (c : Char) (rest : List Char) : Token :=
  ⟨kindOf c, String.ofList (c :: continuation c rest),
    ⟨start, start + byteLength (c :: continuation c rest)⟩⟩

/-- What is left of the text `c :: rest` behind its first token. -/
def behind (c : Char) (rest : List Char) : List Char := rest.drop (continuation c rest).length

theorem place_all_cons (start : Nat) (c : Char) (rest : List Char) :
    Token.place start (all (c :: rest)) =
      firstToken start c rest ::
        Token.place (firstToken start c rest).span.stop (all (behind c rest)) := by
  rw [all]
  rfl

theorem continuation_append_behind (c : Char) (rest : List Char) :
    c :: continuation c rest ++ behind c rest = c :: rest :=
  congrArg (c :: ·) (List.prefix_iff_eq_append.1 (isPrefix_continuation c rest))

theorem behind_of_isAlpha (h : c.isAlpha) (rest : List Char) :
    behind c rest = rest.dropWhile isNameChar := by
  have happend := congrArg (List.drop (rest.takeWhile isNameChar).length)
    (List.takeWhile_append_dropWhile (p := isNameChar) (l := rest))
  rw [List.drop_left] at happend
  rw [behind, continuation_of_isAlpha h, happend]

theorem isNamed_firstToken_iff (hname : IsIdentifier name) (start : Nat) (c : Char)
    (rest : List Char) :
    (firstToken start c rest).isNamed (String.ofList name) ↔ c :: continuation c rest = name := by
  rw [firstToken, Token.isNamed_iff, and_iff_right_iff_imp]
  intro h
  obtain ⟨n, ns, rfl, hn, -⟩ := hname
  rw [(List.cons.inj h).1]
  exact kindOf_of_isAlpha hn

/-- Whether no word goes on at the start of the characters `cs`: the character before them is none of a
word, or the tokens before them want no operand, or the first of them is none of a word. -/
def AtWordBorder (afterWord : Bool) (s : Progress) (cs : List Char) : Prop :=
  afterWord → s.wants = false ∨ ∀ c ∈ cs.head?, isNameChar c = false

section

variable {s s' : Progress}

theorem atWordBorder_false (s : Progress) (cs : List Char) : AtWordBorder false s cs :=
  fun h => absurd h Bool.false_ne_true

/-- A name that fits at a border starts a word. -/
theorem AtWordBorder.eq_false (h : AtWordBorder afterWord s (c :: rest)) (ha : c.isAlpha)
    (hnext : s.next? (firstToken start c rest) = some s') : afterWord = false := by
  refine eq_false_of_ne_true fun hw => ?_
  have hwants := Progress.wants_of_next? hnext (.inl (kindOf_of_isAlpha ha))
  rcases h hw with h | h
  · rw [h] at hwants
    cases hwants
  · exact absurd (isNameChar_of_isAlpha ha) (ne_true_of_eq_false (h c rfl))

/-- At a border, the name that is searched is found if it fits. -/
theorem AtWordBorder.findWordFrom?_eq_some (h : AtWordBorder afterWord s (c :: rest))
    (hname : IsIdentifier name) (hnext : s.next? (firstToken start c rest) = some s')
    (heq : c :: continuation c rest = name) :
    findWordFrom? name start afterWord (c :: rest) = some (firstToken start c rest).span := by
  have ha : c.isAlpha := isAlpha_of_kindOf
    (Token.isNamed_iff.1 ((isNamed_firstToken_iff hname start c rest).2 heq)).1
  rw [h.eq_false ha hnext, findWordFrom?_word hname.forall_isNameChar (isNameChar_of_isAlpha ha),
    ← continuation_of_isAlpha ha, if_pos heq, firstToken, heq]

/-- At a border, the search goes on behind a token that fits and is not the name, which ends at a
border again. -/
theorem AtWordBorder.exists_behind (h : AtWordBorder afterWord s (c :: rest))
    (hname : IsIdentifier name) (hs : ¬ isSpace c)
    (hnext : s.next? (firstToken start c rest) = some s') (hne : c :: continuation c rest ≠ name) :
    ∃ afterWord', AtWordBorder afterWord' s' (behind c rest) ∧
      findWordFrom? name start afterWord (c :: rest) =
        findWordFrom? name (firstToken start c rest).span.stop afterWord' (behind c rest) := by
  obtain ⟨n, ns, rfl, hn, -⟩ := id hname
  by_cases ha : c.isAlpha
  · refine ⟨true, fun _ => .inr fun x hx => ?_, ?_⟩
    · have hfirst := List.head?_dropWhile_not isNameChar rest
      rw [behind_of_isAlpha ha] at hx
      rwa [Option.mem_def.1 hx] at hfirst
    · rw [h.eq_false ha hnext, findWordFrom?_word hname.forall_isNameChar (isNameChar_of_isAlpha ha),
        ← continuation_of_isAlpha ha, ← behind_of_isAlpha ha, if_neg hne, firstToken]
  by_cases hd : c.isDigit
  · have hwants := Progress.not_wants_of_next?_number hnext (kindOf_of_isDigit hd)
    have hfind : findWordFrom? (n :: ns) start afterWord (c :: continuation c rest ++ behind c rest) =
      findWordFrom? (n :: ns) _ _ _ := findWordFrom?_number hn hd
    rw [continuation_append_behind] at hfind
    exact ⟨_, fun _ => .inl hwants, hfind⟩
  · have hmore := continuation_eq_nil hs ha hd
    -- An underscore is no character of a formula, so no character of a word ends here.
    have hunderscore : c ≠ '_' := by
      rintro rfl
      exact Progress.kind_ne_symbol_of_next? hnext rfl
    have hnot : isNameChar c = false := by simp [isNameChar, Char.isAlphanum, ha, hd, hunderscore]
    refine ⟨false, atWordBorder_false _ _, ?_⟩
    rw [findWordFrom?_single hn ha, hnot, firstToken, behind, hmore]
    rfl

/-- Where tokens fit, a word is found where the first token is that is this name. -/
theorem findWordFrom?_eq (hname : IsIdentifier name) (cs : List Char)
    (hrun : (s.run? ((Token.place start (all cs)).filter (!·.isBlank))).isSome)
    (h : AtWordBorder afterWord s cs) :
    findWordFrom? name start afterWord cs =
      ((Token.place start (all cs)).find? (Token.isNamed (String.ofList name))).map Token.span := by
  induction cs using all.induct generalizing start afterWord s
  case case1 => simp [all, Token.place, findWordFrom?]
  case case2 c rest more ih =>
    have hnamed := isNamed_firstToken_iff hname start c rest
    rw [place_all_cons] at hrun ⊢
    by_cases hs : isSpace c
    · obtain ⟨n, ns, rfl, hn, -⟩ := id hname
      have hk : (firstToken start c rest).kind = .blank := kindOf_of_isSpace hs
      rw [List.filter_cons_of_neg (by simp [Token.isBlank, hk])] at hrun
      rw [List.find?_cons_of_neg (by simp [Token.isNamed, hk]), ← continuation_append_behind c rest,
        findWordFrom?_space hn hs]
      exact ih hrun (atWordBorder_false _ _)
    · have hblank : (firstToken start c rest).isBlank = false := by
        simpa [Token.isBlank, firstToken] using mt isSpace_of_kindOf hs
      rw [List.filter_cons_of_pos (by simp [hblank]), Progress.run?, Option.isSome_bind,
        Option.any_eq_true] at hrun
      obtain ⟨s', hnext, hrun⟩ := hrun
      by_cases heq : c :: continuation c rest = name
      · rw [List.find?_cons_of_pos (hnamed.2 heq), h.findWordFrom?_eq_some hname hnext heq]
        rfl
      · obtain ⟨afterWord', h', hfind⟩ := h.exists_behind hname hs hnext heq
        rw [List.find?_cons_of_neg (mt hnamed.1 heq), hfind]
        exact ih hrun h'

end

/-- In the text of a formula, a word is found where the first token is that is this name. -/
theorem findWord?_of_ofText {text x : String} {e : Expr} (h : Expr.ofText text = .ok e)
    (hx : IsIdentifier x.toList) :
    findWord? text x = ((Token.ofText text).find? (Token.isNamed x)).map Token.span := by
  have hrun := (Expr.ofText_eq_ok_iff.1 h).run?_eq 0
  have hfind := findWordFrom?_eq hx text.toList (Option.isSome_of_eq_some hrun) (atWordBorder_false _ _)
  rwa [String.ofList_toList] at hfind

end SymCalc
