import SymCalc.Proofs.Token.Spacing

/-!
# Cutting a text between tokens

* `Lexeme.Breaks`: whether characters continue no token that ends before them.

A text that is cut between two tokens has the same tokens on both sides of the cut
(`Lexeme.all_flatMap`), and parentheses that are put in there are one more token each
(`Lexeme.all_enclosed`).
-/

namespace SymCalc

/-! ## Lists -/

section
variable {β : Type} {p : β → Bool} {xs ys : List β}

/-- Elements of a filtered list that are next to one another are what is filtered from a part of the list
that begins and ends with such elements. -/
theorem exists_of_filter_eq_append {pre post : List β} (h : xs.filter p = pre ++ ys ++ post)
    (hys : ys ≠ []) : ∃ as bs cs, xs = as ++ bs ++ cs ∧ as.filter p = pre ∧ bs.filter p = ys ∧
      cs.filter p = post ∧ bs.head? = ys.head? ∧ bs.getLast? = ys.getLast? := by
  obtain ⟨zs, cs, rfl, hzs, hcs⟩ := List.filter_eq_append_iff.1 h
  obtain ⟨as, bs, rfl, has, hbs⟩ := List.filter_eq_append_iff.1 hzs
  obtain ⟨y, ys, rfl⟩ := List.exists_cons_of_ne_nil hys
  obtain ⟨first, bs, rfl, hfirst, hy, hbs⟩ := List.filter_eq_cons_iff.1 hbs
  have hfirst : first.filter p = [] := List.filter_eq_nil_iff.2 hfirst
  cases ys using List.reverseRecOn with
  | nil => exact ⟨as ++ first, [y], bs ++ cs, by simp, by simp [has, hfirst], by simp [hy],
      by simp [hbs, hcs], rfl, rfl⟩
  | append_singleton ys z =>
    obtain ⟨bs, last, rfl, hmiddle, hlast⟩ := List.filter_eq_append_iff.1 hbs
    obtain ⟨between, last, rfl, hbetween, hz, hlast⟩ := List.filter_eq_cons_iff.1 hlast
    have hbetween : between.filter p = [] := List.filter_eq_nil_iff.2 hbetween
    refine ⟨as ++ first, y :: bs ++ between ++ [z], last ++ cs, by simp, by simp [has, hfirst],
      by simp [hy, hmiddle, hbetween, hz], by simp [hlast, hcs], rfl, ?_⟩
    exact List.getLast?_concat.trans (List.getLast?_concat (l := y :: ys)).symm

end

namespace Lexeme

variable {c : Char} {cs ds rest : List Char} {ls ks : List Lexeme} {p : Char → Bool}

/-! ## Cuts -/

theorem takeWhile_of_isPrefix (h : cs.takeWhile p <+: ds) (hd : ds <+: cs) :
    ds.takeWhile p = cs.takeWhile p ∧ ds.dropWhile p <+: cs.dropWhile p := by
  obtain ⟨xs, rfl⟩ := h
  obtain ⟨ys, hys⟩ := hd
  have hdrop : cs.takeWhile p ++ (xs ++ ys) = cs.takeWhile p ++ cs.dropWhile p := by
    rw [← List.append_assoc, hys, List.takeWhile_append_dropWhile]
  have hdrop := List.append_cancel_left hdrop
  have hall : ∀ x ∈ cs.takeWhile p, p x := fun _ => List.mem_takeWhile_imp
  have hhead : ∀ x ∈ xs.head?, p x = false := by
    intro x hx
    have hfirst := List.head?_dropWhile_not p cs
    rw [← hdrop, List.head?_append, Option.mem_def.1 hx] at hfirst
    exact hfirst
  rw [takeWhile_append_of_head? hall hhead, dropWhile_append_of_head? hall hhead]
  exact ⟨rfl, hdrop ▸ List.prefix_append xs ys⟩

theorem fraction_of_isPrefix (h : fraction cs <+: ds) (hd : ds <+: cs) :
    fraction ds = fraction cs := by
  cases ds with
  | nil =>
    rw [List.prefix_nil.1 h]
    rfl
  | cons d ds =>
    cases cs with
    | nil => simp at hd
    | cons c cs =>
      obtain ⟨rfl, htail⟩ := List.cons_prefix_cons.1 hd
      by_cases hpoint : d = '.'
      · subst hpoint
        have hfraction (cs : List Char) : fraction ('.' :: cs) =
            if (cs.takeWhile Char.isDigit).isEmpty then [] else '.' :: cs.takeWhile Char.isDigit := rfl
        have hdigits : cs.takeWhile Char.isDigit <+: ds := by
          rw [hfraction] at h
          split at h
          · next hempty => exact List.isEmpty_iff.1 hempty ▸ List.nil_prefix
          · exact (List.cons_prefix_cons.1 h).2
        rw [hfraction, hfraction, (takeWhile_of_isPrefix hdigits htail).1]
      · rw [fraction_of_ne hpoint, fraction_of_ne hpoint]

/-- A token stays as it is if some of the text behind it is left out. -/
theorem continuation_of_isPrefix (h : continuation c cs <+: ds) (hd : ds <+: cs) :
    continuation c ds = continuation c cs := by
  unfold continuation at h ⊢
  split
  · next hs =>
    rw [if_pos hs] at h
    exact (takeWhile_of_isPrefix h hd).1
  split
  · next hs ha =>
    rw [if_neg hs, if_pos ha] at h
    exact (takeWhile_of_isPrefix h hd).1
  split
  · next hs ha hdigit =>
    rw [if_neg hs, if_neg ha, if_pos hdigit] at h
    have hdigits := takeWhile_of_isPrefix ((List.prefix_append ..).trans h) hd
    rw [hdigits.1, fraction_of_isPrefix _ hdigits.2]
    rw [← List.takeWhile_append_dropWhile (p := Char.isDigit) (l := ds), hdigits.1] at h
    exact (List.prefix_append_right_inj _).1 h
  · rfl

/-- The tokens on both sides of a cut between tokens. -/
theorem all_flatMap (h : all cs = ls ++ ks) :
    all (ls.flatMap chars) = ls ∧ all (ks.flatMap chars) = ks := by
  induction ls generalizing cs with
  | nil =>
    refine ⟨by simp [all], ?_⟩
    rw [← List.nil_append ks, ← h, flatMap_all]
  | cons l ls ih =>
    cases cs with
    | nil => simp [all] at h
    | cons c rest =>
      rw [all, List.cons_append] at h
      obtain ⟨rfl, htail⟩ := List.cons.inj h
      obtain ⟨hls, hks⟩ := ih htail
      refine ⟨?_, hks⟩
      have hrest : rest.drop (continuation c rest).length = ls.flatMap chars ++ ks.flatMap chars := by
        rw [← List.flatMap_append, ← htail, flatMap_all]
      have hcont : continuation c (continuation c rest ++ ls.flatMap chars) = continuation c rest := by
        refine continuation_of_isPrefix (List.prefix_append ..) ⟨ks.flatMap chars, ?_⟩
        rw [List.append_assoc, ← hrest]
        exact List.prefix_iff_eq_append.1 (isPrefix_continuation c rest)
      rw [List.flatMap_cons, List.cons_append, all_of_continuation hcont, hls]

/-! ## Breaks -/

/-- Whether the characters continue no token that ends before them. -/
def Breaks (rest : List Char) : Prop :=
  ∀ c ∈ rest.head?, isSpace c = false ∧ isNameChar c = false ∧ c ≠ '.'

theorem mem_continuation {x : Char} (h : x ∈ continuation c cs) :
    isSpace x ∨ isNameChar x ∨ x = '.' := by
  have hdigit (h : x.isDigit) : isNameChar x := by simp [isNameChar, Char.isAlphanum, h]
  unfold continuation at h
  split at h
  · exact .inl (List.mem_takeWhile_imp h)
  split at h
  · exact .inr (.inl (List.mem_takeWhile_imp h))
  split at h
  · rcases List.mem_append.1 h with h | h
    · exact .inr (.inl (hdigit (List.mem_takeWhile_imp h)))
    · exact .inr ((mem_fraction h).imp_left hdigit)
  · cases h

/-- A token ends before characters that continue none. -/
theorem continuation_append (h : Breaks ds) : continuation c (cs ++ ds) = continuation c cs := by
  refine (continuation_of_isPrefix ?_ (List.prefix_append cs ds)).symm
  have hprefix := isPrefix_continuation c (cs ++ ds)
  rcases List.prefix_or_prefix_of_prefix hprefix (List.prefix_append cs ds) with hle | ⟨xs, hxs⟩
  · exact hle
  · rw [← hxs] at hprefix ⊢
    obtain ⟨ys, hys⟩ := (List.prefix_append_right_inj cs).1 hprefix
    cases xs with
    | nil => simp
    | cons x xs =>
      have hmem : x ∈ continuation c (cs ++ ds) := hxs ▸ by simp
      obtain ⟨hs, hn, hp⟩ := h x (by simp [← hys])
      rcases mem_continuation hmem with hx | hx | hx
      · cases hs.symm.trans hx
      · cases hn.symm.trans hx
      · exact absurd hx hp

/-- Characters that continue no token do not change the tokens before them. -/
theorem all_append (h : Breaks ds) : all (cs ++ ds) = all cs ++ all ds := by
  induction cs using all.induct with
  | case1 => simp [all]
  | case2 c rest more ih =>
    have hle : more.length ≤ rest.length := (isPrefix_continuation c rest).length_le
    rw [List.cons_append, all, all, continuation_append h, List.drop_append_of_le_length hle, ih,
      List.cons_append]

/-- The tokens of a text with parentheses put into it. -/
theorem all_enclosed (before part after : List Char) :
    all (before ++ '(' :: part ++ ')' :: after) =
      all before ++ ⟨.openParen, ['(']⟩ :: all part ++ ⟨.closeParen, [')']⟩ :: all after := by
  have hbreak {x : Char} (hs : isSpace x = false) (hn : isNameChar x = false) (hp : x ≠ '.')
      (cs : List Char) : Breaks (x :: cs) := by
    rintro _ ⟨⟩
    exact ⟨hs, hn, hp⟩
  rw [List.append_assoc, List.cons_append, all_append (hbreak rfl rfl (by decide) _),
    all_single rfl rfl, all_append (hbreak rfl rfl (by decide) _), all_single rfl rfl]
  simp [single]

end Lexeme

/-! ## The places of tokens -/

namespace Token

variable {start : ℕ} {ls : List Lexeme} {t : Token} {ts us : List Token}

theorem exists_of_place_eq_append (h : place start ls = ts ++ us) : ∃ ks js, ls = ks ++ js ∧
    place start ks = ts ∧ place (start + byteLength (ks.flatMap Lexeme.chars)) js = us := by
  induction ts generalizing start ls with
  | nil => exact ⟨[], ls, rfl, rfl, h⟩
  | cons t ts ih =>
    cases ls with
    | nil => cases h
    | cons l ls =>
      obtain ⟨rfl, htail⟩ := List.cons.inj h
      obtain ⟨ks, js, rfl, hks, hjs⟩ := ih htail
      refine ⟨l :: ks, js, rfl, congrArg _ hks, ?_⟩
      simpa [Nat.add_assoc] using hjs

theorem start_of_mem_head? (h : t ∈ (place start ls).head?) : t.span.start = start := by
  cases ls with
  | nil => cases h
  | cons l ls =>
    cases h
    rfl

theorem stop_of_mem_getLast? (h : t ∈ (place start ls).getLast?) :
    t.span.stop = start + byteLength (ls.flatMap Lexeme.chars) := by
  induction ls generalizing start with
  | nil => cases h
  | cons l ls ih =>
    cases ls with
    | nil =>
      obtain rfl := List.mem_singleton.1 (List.mem_of_getLast? h)
      simp
    | cons k ks => simpa [Nat.add_assoc] using ih h

end Token
end SymCalc
