import SymCalc.Formula.OfExpr
import SymCalc.Proofs.Syntax.Extent

/-!
# Which texts are accepted

* `Leaf`, `Expr.leaves`: the literals, operators and parentheses of a syntax tree, in order;
* `Expr.bare`: a syntax tree without its regions;
* `Token.mapSpan`, `Expr.mapSpans`: tokens and syntax trees with other regions.

A phrase has a syntax tree exactly if the grammar derives it (`derives_iff_exists_reads`), and the
leaves of the tree are its tokens (`Reads.leaves_eq`). The regions in the tree follow those of the tokens
(`Reads.exists_of_mapSpan`), and apart from the regions the tree is the same for all phrases of the same
tokens (`Reads.exists_of_entries`). For whole texts these are `Formula.ofText_accepts`.
-/

namespace SymCalc

/-- A literal, an operator or a parenthesis of a syntax tree with its place. A parenthesized
expression knows where its parentheses start and end. -/
inductive Leaf where
  | number (value? : Option Decimal) (span : Span)
  | word (text : String) (span : Span)
  | openParen (start : Nat)
  | closeParen (stop : Nat)

/-- The leaf that a token becomes. -/
def Token.leaf (t : Token) : Leaf :=
  match t.kind with
  | .number => .number (Decimal.ofChars? t.lexeme.toList) t.span
  | .openParen => .openParen t.span.start
  | .closeParen => .closeParen t.span.stop
  | _ => .word t.lexeme t.span

/-- The token without its region. -/
def Token.entry (t : Token) : Token.Kind × String := (t.kind, t.lexeme)

/-- The lexeme as the entry of a token. -/
def Lexeme.entry (l : Lexeme) : Token.Kind × String := (l.kind, String.ofList l.chars)

/-- The token with its region changed. -/
def Token.mapSpan (f : Span → Span) (t : Token) : Token := { t with span := f t.span }

@[simp] theorem Span.through_at (n : Nat) : (Span.at n).through (.at n) = .at n := rfl

namespace Expr

/-- The leaves of a syntax tree from left to right. A unary operator stands on the side of its
operand on which its region is. -/
def leaves : Expr → List Leaf
  | number value span => [.number (some value) span]
  | symbol name span => [.word name span]
  | paren inner span => .openParen span.start :: inner.leaves ++ [.closeParen span.stop]
  | unary op opSpan operand _ =>
    if opSpan.start < operand.span.start then .word op.text opSpan :: operand.leaves
    else operand.leaves ++ [.word op.text opSpan]
  | binary op opSpan lhs rhs _ => lhs.leaves ++ .word op.text opSpan :: rhs.leaves

/-- The tree with empty regions. -/
def bare : Expr → Expr
  | number value _ => number value (.at 0)
  | symbol name _ => symbol name (.at 0)
  | paren inner _ => paren inner.bare (.at 0)
  | unary op _ operand _ => unary op (.at 0) operand.bare (.at 0)
  | binary op _ lhs rhs _ => binary op (.at 0) lhs.bare rhs.bare (.at 0)

/-- The tree with its regions changed. -/
def mapSpans (f : Span → Span) : Expr → Expr
  | number value span => number value (f span)
  | symbol name span => symbol name (f span)
  | paren inner span => paren (inner.mapSpans f) (f span)
  | unary op opSpan operand span => unary op (f opSpan) (operand.mapSpans f) (f span)
  | binary op opSpan lhs rhs span =>
    binary op (f opSpan) (lhs.mapSpans f) (rhs.mapSpans f) (f span)

variable {op : InfixOp} {s : Span} {e x : Expr} {f : Span → Span}

theorem leaves_extend : (e.extend op s x).leaves = e.leaves ++ .word op.text s :: x.leaves := by
  induction e with
  | binary op₁ s₁ lhs rhs span _ ih =>
    rw [extend]
    split <;> simp [leaves, ih]
  | _ => simp [extend, leaves]

@[simp] theorem span_mapSpans (f : Span → Span) (e : Expr) : (e.mapSpans f).span = f e.span := by
  cases e <;> rfl

theorem mapSpans_id (e : Expr) : e.mapSpans id = e := by
  induction e <;> simp_all [mapSpans]

theorem bare_eq_mapSpans (e : Expr) : e.bare = e.mapSpans fun _ => .at 0 := by
  induction e <;> simp_all [bare, mapSpans]

theorem mapSpans_extend (hf : ∀ a b, f (a.through b) = (f a).through (f b)) :
    (e.extend op s x).mapSpans f = (e.mapSpans f).extend op (f s) (x.mapSpans f) := by
  induction e with
  | binary op₁ s₁ lhs rhs span _ ih =>
    simp only [extend, mapSpans]
    split <;> simp [mapSpans, hf, ← ih]
  | _ =>
    rw [extend_of_rootOp? rfl, extend_of_rootOp? rfl, span_mapSpans, span_mapSpans, ← hf]
    rfl

end Expr

namespace Formula

variable {α : Type} [Scalar α]

/-- The formula of a syntax tree does not depend on its regions. -/
theorem ofExpr_bare (e : Expr) : (ofExpr e.bare : Formula α) = ofExpr e := by
  induction e with
  | number | symbol => rfl
  | paren inner _ ih => exact ih
  | unary op _ x _ ih => exact congrArg (unary op) ih
  | binary op _ lhs rhs _ ihl ihr => cases op <;> simp [Expr.bare, ofExpr, ihl, ihr]

end Formula

variable {p : Phrase} {ts us : List Token} {t : Token} {e : Expr}

/-! ## Phrases with a syntax tree -/

theorem Reads.derives (h : Reads p ts e) : Derives p ts := by
  induction h with
  | number hk _ => exact .number hk
  | name hk hp => exact .name hk (by simp [Token.isPrefix_iff, hp])
  | paren ho _ hc ih => exact .paren ho ih hc
  | primary _ ih => exact .primary ih
  | percent _ hk ih => exact .percent ih hk
  | postfixed _ ih => exact .postfixed ih
  | prefixed hop _ ih => exact .prefixed (Token.isPrefix_iff.2 ⟨_, hop⟩) ih
  | operand _ ih => exact .operand ih
  | infixed _ hop _ ihe ihx => exact .infixed ihe (Token.isInfix_iff.2 ⟨_, hop⟩) ihx

theorem Derives.exists_reads (h : Derives p ts) (hts : ∀ t ∈ ts, t.IsProper) :
    ∃ e, Reads p ts e := by
  induction h with
  | @number t hk =>
    obtain ⟨d, hd⟩ := Option.isSome_iff_exists.1 ((hts t (by simp)).numeral hk)
    exact ⟨_, .number hk hd⟩
  | @name t hk hp =>
    refine ⟨_, .name hk ?_⟩
    rwa [Token.isPrefix_iff, ← Option.isSome_iff_exists, Bool.not_eq_true,
      Option.isSome_eq_false_iff, Option.isNone_iff_eq_none] at hp
  | paren ho _ hc ih =>
    obtain ⟨e, he⟩ := ih fun t ht => hts t (by simp [ht])
    exact ⟨_, .paren ho he hc⟩
  | primary _ ih =>
    obtain ⟨e, he⟩ := ih hts
    exact ⟨e, .primary he⟩
  | percent _ hk ih =>
    obtain ⟨e, he⟩ := ih fun t ht => hts t (by simp [ht])
    exact ⟨_, .percent he hk⟩
  | postfixed _ ih =>
    obtain ⟨e, he⟩ := ih hts
    exact ⟨e, .postfixed he⟩
  | prefixed hp _ ih =>
    obtain ⟨op, hop⟩ := Token.isPrefix_iff.1 hp
    obtain ⟨e, he⟩ := ih fun t ht => hts t (by simp [ht])
    exact ⟨_, .prefixed hop he⟩
  | operand _ ih =>
    obtain ⟨e, he⟩ := ih hts
    exact ⟨e, .operand he⟩
  | infixed _ hi _ ihe ihx =>
    obtain ⟨op, hop⟩ := Token.isInfix_iff.1 hi
    obtain ⟨e, he⟩ := ihe fun t ht => hts t (by simp [ht])
    obtain ⟨x, hx⟩ := ihx fun t ht => hts t (by simp [ht])
    exact ⟨_, .infixed he hop hx⟩

/-- A phrase has a syntax tree exactly if the grammar derives it. -/
theorem derives_iff_exists_reads (hts : ∀ t ∈ ts, t.IsProper) :
    Derives p ts ↔ ∃ e, Reads p ts e :=
  ⟨fun h => h.exists_reads hts, fun ⟨_, h⟩ => h.derives⟩

/-! ## The leaves of a syntax tree -/

theorem Token.leaf_of_prefixOp? {op : UnaryOp} (h : Cursor.prefixOp? t = some op)
    (ht : t.IsProper) : t.leaf = .word op.text t.span := by
  have := ht.text_prefix op h
  cases hk : t.kind <;> simp_all [Cursor.prefixOp?, leaf]

theorem Token.leaf_of_infixOp? {op : InfixOp} (h : Cursor.infixOp? t = some op)
    (ht : t.IsProper) : t.leaf = .word op.text t.span := by
  have := ht.text_infix op h
  cases hk : t.kind <;> simp_all [Cursor.infixOp?, leaf]

/-- The leaves of the tree of a phrase are its tokens. -/
theorem Reads.leaves_eq (h : Reads p ts e) (hts : ∀ t ∈ ts, t.IsProper)
    (hs : ts.Pairwise fun a b => a.span.stop ≤ b.span.start) : e.leaves = ts.map Token.leaf := by
  induction h with
  | number hk hd => simp [Expr.leaves, Token.leaf, hk, hd]
  | name hk _ => simp [Expr.leaves, Token.leaf, hk]
  | @paren o c us x ho _ hc ih =>
    have ho' : o.leaf = .openParen o.span.start := by simp [Token.leaf, ho]
    have hc' : c.leaf = .closeParen c.span.stop := by simp [Token.leaf, hc]
    have := ih (fun t ht => hts t (by simp [ht])) (List.pairwise_append.1 hs).1.tail
    simp [Expr.leaves, this, ho', hc', Span.through]
  | primary _ ih | postfixed _ ih | operand _ ih => exact ih hts hs
  | @percent us t x hx hk ih =>
    obtain ⟨hs, -, hlt⟩ := List.pairwise_append.1 hs
    have hop : Cursor.prefixOp? t = some .percent := by simp [Cursor.prefixOp?, hk]
    have hleaf := Token.leaf_of_prefixOp? hop (hts t (by simp))
    have hmem := List.head_mem hx.ne_nil
    have hafter : ¬ t.span.start < x.span.start := by
      have := hlt _ hmem t (by simp)
      have := (hts _ (List.mem_append_left _ hmem)).start_lt_stop
      simp only [hx.span_eq, Span.through]
      omega
    simp [Expr.leaves, hafter, ih (fun t ht => hts t (by simp [ht])) hs, hleaf]
  | @prefixed t op us x hop hx ih =>
    obtain ⟨hlt, hs⟩ := List.pairwise_cons.1 hs
    have hbefore : t.span.start < x.span.start := by
      have := hlt _ (List.head_mem hx.ne_nil)
      have := (hts t (by simp)).start_lt_stop
      simp only [hx.span_eq, Span.through]
      omega
    simp [Expr.leaves, hbefore, ih (fun t ht => hts t (by simp [ht])) hs,
      Token.leaf_of_prefixOp? hop (hts t (by simp))]
  | @infixed us vs t op x y _ hop _ ihx ihy =>
    obtain ⟨hus, hvs, -⟩ := List.pairwise_append.1 hs
    simp [Expr.leaves_extend, ihx (fun t ht => hts t (by simp [ht])) hus,
      ihy (fun t ht => hts t (by simp [ht])) hvs.tail, Token.leaf_of_infixOp? hop (hts t (by simp))]

/-! ## Phrases of the same tokens -/

theorem Token.kind_eq_of_entry {u : Token} (h : u.entry = t.entry) : u.kind = t.kind :=
  congrArg Prod.fst h

theorem Token.lexeme_eq_of_entry {u : Token} (h : u.entry = t.entry) : u.lexeme = t.lexeme :=
  congrArg Prod.snd h

theorem Token.prefixOp?_eq_of_entry {u : Token} (h : u.entry = t.entry) :
    Cursor.prefixOp? u = Cursor.prefixOp? t := by
  simp only [Cursor.prefixOp?, kind_eq_of_entry h, lexeme_eq_of_entry h]

theorem Token.infixOp?_eq_of_entry {u : Token} (h : u.entry = t.entry) :
    Cursor.infixOp? u = Cursor.infixOp? t := by
  simp only [Cursor.infixOp?, kind_eq_of_entry h]

/-- Phrases of the same tokens have trees whose regions are related in the same way as those of the
tokens. -/
theorem Reads.exists_of_mapSpan {f g : Span → Span}
    (hf : ∀ a b, f (a.through b) = (f a).through (f b))
    (hg : ∀ a b, g (a.through b) = (g a).through (g b)) (h : Reads p ts e)
    (hu : us.map (Token.mapSpan f) = ts.map (Token.mapSpan g)) :
    ∃ x, Reads p us x ∧ x.mapSpans f = e.mapSpans g := by
  have hentry {u t : Token} (h : u.mapSpan f = t.mapSpan g) : u.entry = t.entry :=
    (congrArg Token.entry h : (u.mapSpan f).entry = (t.mapSpan g).entry)
  have hspan {u t : Token} (h : u.mapSpan f = t.mapSpan g) : f u.span = g t.span :=
    congrArg Token.span h
  induction h generalizing us with
  | number hk hd =>
    obtain ⟨u, rfl, ht⟩ := List.map_eq_singleton_iff.1 hu
    refine ⟨_, .number ((Token.kind_eq_of_entry (hentry ht)).trans hk)
      (by rwa [Token.lexeme_eq_of_entry (hentry ht)]), ?_⟩
    simp [Expr.mapSpans, hspan ht]
  | name hk hp =>
    obtain ⟨u, rfl, ht⟩ := List.map_eq_singleton_iff.1 hu
    refine ⟨_, .name ((Token.kind_eq_of_entry (hentry ht)).trans hk)
      ((Token.prefixOp?_eq_of_entry (hentry ht)).trans hp), ?_⟩
    simp [Expr.mapSpans, hspan ht, Token.lexeme_eq_of_entry (hentry ht)]
  | paren ho _ hc ih =>
    rw [List.map_append, List.map_cons] at hu
    obtain ⟨ws, vs, rfl, hws, hvs⟩ := List.map_eq_append_iff.1 hu
    obtain ⟨o, ws, rfl, ho', hws⟩ := List.map_eq_cons_iff.1 hws
    obtain ⟨c, rfl, hc'⟩ := List.map_eq_singleton_iff.1 hvs
    obtain ⟨x, hx, hxe⟩ := ih hws
    refine ⟨_, .paren ((Token.kind_eq_of_entry (hentry ho')).trans ho) hx
      ((Token.kind_eq_of_entry (hentry hc')).trans hc), ?_⟩
    simp [Expr.mapSpans, hxe, hf, hg, hspan ho', hspan hc']
  | primary _ ih =>
    obtain ⟨x, hx, hxe⟩ := ih hu
    exact ⟨x, .primary hx, hxe⟩
  | percent _ hk ih =>
    rw [List.map_append] at hu
    obtain ⟨ws, vs, rfl, hws, hvs⟩ := List.map_eq_append_iff.1 hu
    obtain ⟨u, rfl, ht⟩ := List.map_eq_singleton_iff.1 hvs
    obtain ⟨x, hx, hxe⟩ := ih hws
    have hxspan := congrArg Expr.span hxe
    refine ⟨_, .percent hx ((Token.kind_eq_of_entry (hentry ht)).trans hk), ?_⟩
    rw [Expr.span_mapSpans, Expr.span_mapSpans] at hxspan
    simp [Expr.mapSpans, hxe, hf, hg, hxspan, hspan ht]
  | postfixed _ ih =>
    obtain ⟨x, hx, hxe⟩ := ih hu
    exact ⟨x, .postfixed hx, hxe⟩
  | prefixed hop _ ih =>
    obtain ⟨u, ws, rfl, ht, hws⟩ := List.map_eq_cons_iff.1 hu
    obtain ⟨x, hx, hxe⟩ := ih hws
    have hxspan := congrArg Expr.span hxe
    refine ⟨_, .prefixed ((Token.prefixOp?_eq_of_entry (hentry ht)).trans hop) hx, ?_⟩
    rw [Expr.span_mapSpans, Expr.span_mapSpans] at hxspan
    simp [Expr.mapSpans, hxe, hf, hg, hxspan, hspan ht]
  | operand _ ih =>
    obtain ⟨x, hx, hxe⟩ := ih hu
    exact ⟨x, .operand hx, hxe⟩
  | infixed _ hop _ ihx ihy =>
    rw [List.map_append, List.map_cons] at hu
    obtain ⟨ws, vs, rfl, hws, hvs⟩ := List.map_eq_append_iff.1 hu
    obtain ⟨u, vs, rfl, ht, hvs⟩ := List.map_eq_cons_iff.1 hvs
    obtain ⟨x, hx, hxe⟩ := ihx hws
    obtain ⟨y, hy, hye⟩ := ihy hvs
    refine ⟨_, .infixed hx ((Token.infixOp?_eq_of_entry (hentry ht)).trans hop) hy, ?_⟩
    rw [Expr.mapSpans_extend hf, Expr.mapSpans_extend hg, hxe, hye, hspan ht]

/-- Phrases of the same tokens have trees that differ at most in their regions. -/
theorem Reads.exists_of_entries (h : Reads p ts e) (hu : us.map Token.entry = ts.map Token.entry) :
    ∃ x, Reads p us x ∧ x.bare = e.bare := by
  have hmap (ts : List Token) : ts.map (Token.mapSpan fun _ => .at 0) =
      (ts.map Token.entry).map fun entry => ⟨entry.1, entry.2, .at 0⟩ := by
    rw [List.map_map]
    rfl
  simp only [Expr.bare_eq_mapSpans]
  exact h.exists_of_mapSpan (fun _ _ => rfl) (fun _ _ => rfl) (by rw [hmap, hmap, hu])

/-! ## Whole texts -/

namespace Token

variable {text : String}

theorem entries_filter_place (start : Nat) (ls : List Lexeme) :
    ((place start ls).filter (!·.isBlank)).map entry =
      (ls.filter (·.kind ≠ .blank)).map Lexeme.entry := by
  induction ls generalizing start with
  | nil => rfl
  | cons l ls ih =>
    by_cases h : l.kind = .blank
    · simpa [place, isBlank, h] using ih _
    · simpa [place, isBlank, h, entry, Lexeme.entry] using ih _

/-- The entries of the tokens of a text are its lexemes that are not blank. -/
theorem entries_significant (text : String) :
    (significant text).map entry =
      ((Lexeme.all text.toList).filter (·.kind ≠ .blank)).map Lexeme.entry :=
  entries_filter_place ..

theorem isProper_of_mem_significant (h : t ∈ significant text) : t.IsProper :=
  isProper_of_mem_ofText (List.mem_filter.1 h).1

theorem pairwise_significant :
    (significant text).Pairwise fun a b => a.span.stop ≤ b.span.start :=
  pairwise_ofText.sublist List.filter_sublist

end Token

namespace Formula

variable {α : Type} [Scalar α]

/-- The formula of a text does not depend on the regions in its tree. -/
theorem ofText_eq_of_reads {text : String} {e x : Expr}
    (hx : Reads .expression (Token.significant text) x) (h : x.bare = e.bare) :
    (ofText text : Except Report (Formula α)) = .ok (ofExpr e) := by
  rw [ofText, Expr.ofText_eq_ok_iff.2 hx]
  simp only [Except.map]
  rw [← ofExpr_bare (α := α) x, h, ofExpr_bare]

theorem ofText_eq_of_entries {text other : String} {f : Formula α}
    (h : (Token.significant text).map Token.entry = (Token.significant other).map Token.entry)
    (hf : ofText other = .ok f) : ofText text = .ok f := by
  cases ho : Expr.ofText other with
  | error r =>
    rw [ofText, ho] at hf
    cases hf
  | ok e =>
    rw [ofText, ho] at hf
    obtain ⟨x, hx, hxe⟩ := (Expr.ofText_eq_ok_iff.1 ho).exists_of_entries h
    rw [ofText_eq_of_reads hx hxe, ← hf]
    rfl

/-- A text is accepted exactly if the grammar derives its tokens without the blanks. The leaves of
its tree are then these tokens, and any text with the same tokens has the same formula or has none
either. -/
theorem ofText_accepts (text : String) :
    ((∃ e, Expr.ofText text = .ok e) ↔ Derives .expression (Token.significant text)) ∧
      (∀ e, Expr.ofText text = .ok e → e.leaves = (Token.significant text).map Token.leaf) ∧
      ∀ other, (Token.significant text).map Token.entry =
          (Token.significant other).map Token.entry →
        (ofText text : Except Report (Formula α)).toOption = (ofText other).toOption := by
  have hts : ∀ t ∈ Token.significant text, t.IsProper :=
    fun _ => Token.isProper_of_mem_significant
  refine ⟨?_, ?_, ?_⟩
  · simp only [Expr.ofText_eq_ok_iff, derives_iff_exists_reads hts]
  · intro e he
    exact (Expr.ofText_eq_ok_iff.1 he).leaves_eq hts Token.pairwise_significant
  · intro other h
    apply Option.ext
    intro f
    have hok (t : String) :
        (ofText t : Except Report (Formula α)).toOption = some f ↔ ofText t = .ok f := by
      cases (ofText t : Except Report (Formula α)) <;> simp [Except.toOption]
    rw [hok, hok]
    exact ⟨ofText_eq_of_entries h.symm, ofText_eq_of_entries h⟩

/-- The blanks around a percent sign are not a part of the tree. -/
theorem ofText_accepts_percent :
    (∃ e, Expr.ofText "-2 %" = .ok e ∧ e.leaves = (Token.significant "-2 %").map Token.leaf) ∧
      (ofText "-2 %" : Except Report (Formula Float)).toOption = (ofText "- 2%").toOption := by
  obtain ⟨haccepts, hleaves, hsame⟩ := ofText_accepts (α := Float) "-2 %"
  have htokens : Token.significant "-2 %" =
      [⟨.minus, "-", ⟨0, 1⟩⟩] ++ ([⟨.number, "2", ⟨1, 2⟩⟩] ++ [⟨.percent, "%", ⟨3, 4⟩⟩]) := by
    decide +kernel
  obtain ⟨e, he⟩ := haccepts.2 <| htokens ▸
    .operand (.prefixed (.inl rfl) (.postfixed (.percent (.primary (.number rfl)) rfl)))
  exact ⟨⟨e, he, hleaves e he⟩, hsame "- 2%" (by decide +kernel)⟩

end Formula
end SymCalc
