import SymCalc.Proofs.Token.Word

/-!
# Searching for words

* `wordMatches`: the places where a name stands in a text, without overlaps;
* `findMatch?`: the first of these places where the name is a word of its own.

A search that only looks at places without overlaps finds the same word as one that looks everywhere
(`findMatch?_eq_findWord?`): a place that overlaps an earlier one comes after a character of a word.
In a formula, both find the first token that is the name (`findWord?_first`).
-/

namespace SymCalc

variable {text x : String} {name cs : List Char}

/-! ## Places without overlaps -/

/-- The places where `name` stands in a text, each with the text before and the text after it. The
part `before` has been read, and the next `skip` characters belong to the place found last. -/
def wordMatches (name : List Char) :
    (skip : Nat) → (before : List Char) → List Char → List (List Char × List Char)
  | _, before, [] => if name.isEmpty then [(before, [])] else []
  | skip + 1, before, c :: cs => wordMatches name skip (before ++ [c]) cs
  | 0, before, c :: cs =>
    if name.isPrefixOf (c :: cs) then
      (before, (c :: cs).drop name.length) :: wordMatches name (name.length - 1) (before ++ [c]) cs
    else wordMatches name 0 (before ++ [c]) cs

/-- Whether a text ends in a character of a word. -/
def endsInWord (cs : List Char) : Bool := cs.getLast?.any Command.isWordChar

/-- Whether no character of a word stands right before or right after the place. -/
def isWordMatch (place : List Char × List Char) : Bool :=
  !endsInWord place.1 && !place.2.head?.any Command.isWordChar

/-- The region of the first place where the name stands as a word of its own. -/
def findMatch? (text name : String) : Option Span :=
  ((wordMatches name.toList 0 [] text.toList).find? isWordMatch).map fun place =>
    ⟨byteLength place.1, byteLength place.1 + byteLength name.toList⟩

theorem endsInWord_append_singleton (cs : List Char) (c : Char) :
    endsInWord (cs ++ [c]) = Command.isWordChar c := by
  rw [endsInWord, List.getLast?_concat, Option.any_some]

/-- All characters but the first one of a word are skipped. -/
theorem forall_isWordChar_take {c : Char} (hname : ∀ x ∈ name, Command.isWordChar x)
    (h : name.isPrefixOf (c :: cs)) (hne : name ≠ []) :
    Command.isWordChar c ∧ ∀ x ∈ cs.take (name.length - 1), Command.isWordChar x := by
  obtain ⟨n, ns, rfl⟩ := List.exists_cons_of_ne_nil hne
  obtain ⟨rfl, hns⟩ := List.cons_prefix_cons.1 (List.isPrefixOf_iff_prefix.1 h)
  obtain ⟨hn, hall⟩ := List.forall_mem_cons.1 hname
  refine ⟨hn, ?_⟩
  rw [List.length_cons, Nat.add_sub_cancel, ← List.prefix_iff_eq_take.1 hns]
  exact hall

/-- While a place is skipped, a search that looks everywhere finds nothing either. -/
theorem findWordFrom?_eq_find? (hne : name ≠ []) (hname : ∀ x ∈ name, Command.isWordChar x)
    (skip : Nat) (before cs : List Char)
    (hskip : 0 < skip → endsInWord before ∧ ∀ x ∈ cs.take skip, Command.isWordChar x) :
    findWordFrom? name (byteLength before) (endsInWord before) cs =
      ((wordMatches name skip before cs).find? isWordMatch).map fun place =>
        ⟨byteLength place.1, byteLength place.1 + byteLength name⟩ := by
  induction cs generalizing skip before with
  | nil =>
    have hempty : name.isEmpty = false := List.isEmpty_eq_false_iff.2 hne
    simp [findWordFrom?, wordMatches, hempty]
  | cons c cs ih =>
    have ih (skip : Nat) := ih skip (before ++ [c])
    simp only [endsInWord_append_singleton, byteLength_append, byteLength_cons, byteLength_nil,
      Nat.add_zero] at ih
    rw [findWordFrom?]
    cases skip with
    | succ skip =>
      obtain ⟨hbefore, htake⟩ := hskip (Nat.succ_pos skip)
      rw [List.take_succ_cons, List.forall_mem_cons] at htake
      rw [hbefore, wordMatches, if_neg (by simp)]
      exact ih skip fun _ => htake
    | zero =>
      rw [wordMatches]
      by_cases hstarts : name.isPrefixOf (c :: cs)
      · have hguard : (!endsInWord before && name.isPrefixOf (c :: cs) &&
            !((c :: cs).drop name.length).head?.any Command.isWordChar) =
              isWordMatch (before, (c :: cs).drop name.length) := by
          rw [hstarts, Bool.and_true, isWordMatch]
        rw [if_pos hstarts, hguard]
        by_cases hword : isWordMatch (before, (c :: cs).drop name.length)
        · rw [if_pos hword, List.find?_cons_of_pos hword]
          rfl
        · rw [if_neg hword, List.find?_cons_of_neg hword]
          exact ih _ fun _ => forall_isWordChar_take hname hstarts hne
      · rw [if_neg hstarts, if_neg (by simp [hstarts])]
        exact ih 0 fun h => absurd h (Nat.lt_irrefl 0)

/-- A search without overlaps finds the same word as one that looks everywhere. -/
theorem findMatch?_eq_findWord? (text : String) (hx : IsIdentifier x.toList) :
    findMatch? text x = findWord? text x := by
  have hne : x.toList ≠ [] := by
    obtain ⟨c, more, hx, -⟩ := hx
    rw [hx]
    exact List.cons_ne_nil c more
  exact (findWordFrom?_eq_find? hne hx.forall_isNameChar 0 [] text.toList
    fun h => absurd h (Nat.lt_irrefl 0)).symm

/-! ## Searching through a formula -/

/-- In the text of a formula, the search for a name finds the first token that is this name, and
nothing if there is none. It makes no difference whether places may overlap. -/
theorem findWord?_first {e : Expr} (h : Expr.ofText text = .ok e) (x : String) :
    ((∃ t ∈ Token.ofText text, t.kind = .name ∧ t.lexeme = x) →
      ∃ before u after, Token.ofText text = before ++ u :: after ∧
        (u.kind = .name ∧ u.lexeme = x) ∧
        (∀ t ∈ before, ¬ (t.kind = .name ∧ t.lexeme = x)) ∧
        findWord? text x = some u.span ∧ findMatch? text x = some u.span) ∧
    (IsIdentifier x.toList → (∀ t ∈ Token.ofText text, ¬ (t.kind = .name ∧ t.lexeme = x)) →
      findWord? text x = none ∧ findMatch? text x = none) := by
  have hnamed (t : Token) : t.isNamed x ↔ t.kind = .name ∧ t.lexeme = x := by
    simp only [Token.isNamed, Bool.and_eq_true, decide_eq_true_eq]
  constructor
  · rintro ⟨t, ht, hx⟩
    have hident := Token.isIdentifier_of_isNamed ht ((hnamed t).2 hx)
    have hfind := findWord?_of_ofText h hident
    rw [findMatch?_eq_findWord? text hident]
    cases hfirst : (Token.ofText text).find? (Token.isNamed x) with
    | none => exact absurd ((hnamed t).2 hx) (List.find?_eq_none.1 hfirst t ht)
    | some u =>
      obtain ⟨hu, before, after, htokens, hbefore⟩ := List.find?_eq_some_iff_append.1 hfirst
      rw [hfirst, Option.map_some] at hfind
      refine ⟨before, u, after, htokens, (hnamed u).1 hu, fun t ht ht' => ?_, hfind, hfind⟩
      have hnot := hbefore t ht
      rw [(hnamed t).2 ht'] at hnot
      cases hnot
  · intro hident hnone
    have hfirst : (Token.ofText text).find? (Token.isNamed x) = none :=
      List.find?_eq_none.2 fun t ht hx => hnone t ht ((hnamed t).1 hx)
    have hfind := findWord?_of_ofText h hident
    rw [hfirst, Option.map_none] at hfind
    exact ⟨hfind, (findMatch?_eq_findWord? text hident).trans hfind⟩

/-- In `xxx+xx` the name `xx` is found at the end, and `x` is not found. -/
theorem findWord?_first_xx :
    (∃ e, Expr.ofText "xxx+xx" = .ok e) ∧
      findWord? "xxx+xx" "xx" = some ⟨4, 6⟩ ∧ findMatch? "xxx+xx" "xx" = some ⟨4, 6⟩ ∧
      findWord? "xxx+xx" "x" = none ∧ findMatch? "xxx+xx" "x" = none := by
  have htokens : Token.ofText "xxx+xx" = [⟨.name, "xxx", ⟨0, 3⟩⟩, ⟨.plus, "+", ⟨3, 4⟩⟩,
      ⟨.name, "xx", ⟨4, 6⟩⟩] := by decide +kernel
  have hread : Expr.ofText "xxx+xx" = .ok
      (.binary (.arith .add) ⟨3, 4⟩ (.symbol "xxx" ⟨0, 3⟩) (.symbol "xx" ⟨4, 6⟩) ⟨0, 6⟩) := by
    decide +kernel
  have hlast : ⟨.name, "xx", ⟨4, 6⟩⟩ ∈ Token.ofText "xxx+xx" := by simp [htokens]
  obtain ⟨before, u, after, hsplit, hu, -, hfind, hmatch⟩ :=
    (findWord?_first hread "xx").1 ⟨_, hlast, rfl, rfl⟩
  have hmem : u ∈ Token.ofText "xxx+xx" := by simp [hsplit]
  have hu : u = ⟨.name, "xx", ⟨4, 6⟩⟩ := by
    rw [htokens] at hmem
    simp only [List.mem_cons, List.not_mem_nil, or_false] at hmem
    rcases hmem with rfl | rfl | rfl
    · exact absurd hu.2 (by decide)
    · exact absurd hu.2 (by decide)
    · rfl
  rw [hu] at hfind hmatch
  have hx : IsIdentifier "x".toList := ⟨'x', [], rfl, by decide, List.forall_mem_nil _⟩
  have hnone := (findWord?_first hread "x").2 hx (by rw [htokens]; decide)
  exact ⟨⟨_, hread⟩, hfind, hmatch, hnone⟩

end SymCalc
