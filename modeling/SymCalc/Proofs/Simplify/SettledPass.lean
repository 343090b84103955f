import SymCalc.Proofs.Simplify.Settling

/-!
# Passes over settled formulas

A pass makes no formula heavier (`Formula.weight_simplifyOnce_le`). If the formula stays as heavy and
defined, then the first pass settles it (`Formula.settles_simplifyOnce`), and each further pass settles
its quotients up to the next weight (`Formula.IsSettled.settles_simplifyOnce`). A formula that has
settled up to its own weight is a fixpoint (`Formula.IsSettled.isStable`).
-/

namespace SymCalc

open Scalar

variable {α : Type} [Scalar α]

namespace Formula

variable {k : ℕ} {f g a b : Formula α} {op : UnaryOp} {op' : ArithOp}

section
variable [LawfulScalar α]

/-! ## A pass makes nothing heavier -/

theorem weight_normalizeProduct_le (f : Formula α) : f.normalizeProduct.value.weight ≤ f.weight := by
  have hpos := weight_pos f
  rcases normalizeProduct_cases f with ⟨-, h⟩ | ⟨m, hm, ⟨-, h⟩ | ⟨-, -, h⟩⟩
  · rw [h]
    exact hpos
  · rw [h]
    exact hpos
  · have hle := Monomial.weight_le_of? hm
    rw [h, Monomial.weight_toFormula, Monomial.weight_sorted]
    rcases m.isMerged_or_lighter with hmerged | hlt
    · rwa [hmerged.stages_eq]
    · have hstages := Monomial.weight_le
        m.cancelFactors.value.tangentQuotients.value.mergeExponentials.value
      have hfactors := m.factorWeight_le
      omega

theorem weight_normalizeNegation_le (f : Formula α) :
    f.normalizeNegation.value.weight ≤ f.weight := by
  rcases normalizeNegation_cases f with ⟨v, rfl, h⟩ | ⟨a, rfl, h⟩ | h | h
  · rw [h, weight_ofValue]
    exact weight_pos _
  · rw [h]
    exact Nat.le_refl _
  · rw [h]
    exact weight_normalizeSum_le (-f)
  · rw [h]
    exact weight_normalizeProduct_le (-f)

omit [LawfulScalar α] in
theorem weight_ofValue_le (v : α) (n : ℕ) : (ofValue v).weight ≤ n + 2 := by
  rw [weight_ofValue]
  omega

theorem weight_normalizeOdd_le (hop : ∀ b : Formula α, (unary op b).weight = b.weight + 2)
    (f : Formula α) : (f.normalizeOdd op).value.weight ≤ (unary op f).weight := by
  rcases normalizeOdd_cases op f with ⟨g, hg, h⟩ | h
  · have hle := weight_negativeForm?_le hg
    rw [h, neg_eq, weight_negate, hop, hop]
    omega
  · rw [h]

theorem weight_normalizeExp_le (f : Formula α) :
    f.normalizeExp.value.weight ≤ (unary .exp f).weight := by
  change _ ≤ 100 * f.weight + 2
  rcases normalizeExp_cases f with ⟨v, rfl, h⟩ | ⟨a, rfl, h⟩ | ⟨a, n, hn, h⟩ | h
  · rw [h]
    split
    · exact Nat.le_add_left ..
    · exact weight_ofValue_le ..
  · have hweight : (unary .ln a).weight = a.weight + 2 := rfl
    rw [h]
    omega
  · rw [h]
    exact (weight_power_lt hn).le
  · rw [h]
    exact Nat.le_refl _

omit [LawfulScalar α] in
theorem weight_normalizeLn_le (f : Formula α) :
    f.normalizeLn.value.weight ≤ (unary .ln f).weight := by
  change _ ≤ f.weight + 2
  rcases normalizeLn_cases f with ⟨v, rfl, -, h⟩ | ⟨v, rfl, -, h⟩ | ⟨a, rfl, h⟩ | h
  · rw [h]
    split
    · exact Nat.le_add_left ..
    · exact weight_ofValue_le ..
  · rw [h]
    exact Nat.le_add_left ..
  · have hweight : (unary .exp a).weight = 100 * a.weight + 2 := rfl
    rw [h]
    omega
  · rw [h]
    exact Nat.le_refl _

theorem weight_normalizeCos_le (f : Formula α) :
    f.normalizeCos.value.weight ≤ (unary .cos f).weight := by
  change _ ≤ f.weight + 2
  rcases normalizeCos_cases f with ⟨v, rfl, h⟩ | ⟨g, hg, h⟩ | h
  · rw [h]
    split
    · exact Nat.le_add_left ..
    · exact weight_ofValue_le ..
  · rw [h]
    exact Nat.add_le_add_right (weight_negativeForm?_le hg) 2
  · rw [h]
    exact Nat.le_refl _

theorem weight_normalizeSin_le (f : Formula α) :
    f.normalizeSin.value.weight ≤ (unary .sin f).weight := by
  rcases normalizeSin_cases f with ⟨v, rfl, h⟩ | h
  · rw [h]
    exact weight_ofValue_le ..
  · rw [h]
    exact weight_normalizeOdd_le (fun _ => rfl) f

theorem weight_normalizeTan_le (f : Formula α) :
    f.normalizeTan.value.weight ≤ (unary .tan f).weight := by
  rcases normalizeTan_cases f with ⟨v, rfl, h⟩ | h
  · rw [h]
    exact weight_ofValue_le ..
  · rw [h]
    exact weight_normalizeOdd_le (fun _ => rfl) f

theorem weight_normalizePercent_le (f : Formula α) :
    f.normalizePercent.value.weight ≤ (unary .percent f).weight := by
  rcases normalizePercent_cases f with ⟨v, rfl, -, h⟩ | h
  · rw [h]
    exact Nat.le_add_left ..
  · rw [h]
    exact weight_normalizeOdd_le (fun _ => rfl) f

theorem weight_normalizeUnary_le (op : UnaryOp) (f : Formula α) :
    (normalizeUnary op f).value.weight ≤ (unary op f).weight := by
  cases op with
  | negate => exact weight_normalizeNegation_le f
  | exp => exact weight_normalizeExp_le f
  | ln => exact weight_normalizeLn_le f
  | cos => exact weight_normalizeCos_le f
  | sin => exact weight_normalizeSin_le f
  | tan => exact weight_normalizeTan_le f
  | percent => exact weight_normalizePercent_le f

theorem weight_normalizeBinary_le (op : ArithOp) (f g : Formula α) :
    (normalizeBinary op f g).value.weight ≤ (binary op f g).weight := by
  cases op with
  | add | sub => exact weight_normalizeSum_le _
  | mul | div => exact weight_normalizeProduct_le _

omit [Scalar α] [LawfulScalar α] in
theorem weight_unary_le (op : UnaryOp) (h : a.weight ≤ b.weight) :
    (unary op a).weight ≤ (unary op b).weight := by
  cases op <;> simp only [weight] <;> omega

omit [Scalar α] [LawfulScalar α] in
theorem weight_unary_lt (op : UnaryOp) (h : a.weight < b.weight) :
    (unary op a).weight < (unary op b).weight := by
  cases op <;> simp only [weight] <;> omega

/-- A pass makes no formula heavier. -/
theorem weight_simplifyOnce_le (f : Formula α) : f.simplifyOnce.weight ≤ f.weight := by
  induction f with
  | const v => exact (weight_ofValue v).le
  | var x => exact Nat.le_refl _
  | unary op a ih =>
    rw [simplifyOnce_unary]
    split
    · exact weight_pos _
    · exact (weight_normalizeUnary_le op _).trans (weight_unary_le op ih)
  | binary op a b iha ihb =>
    rw [simplifyOnce_binary]
    split
    · exact weight_pos _
    · exact (weight_normalizeBinary_le op _ _).trans (Nat.add_le_add iha ihb)

/-! ## One pass -/

theorem settles_simplifyOnce_unary (ha : Settles k a a.simplifyOnce)
    (hk : op = .negate → a.simplifyOnce.IsSettled k → a.simplifyOnce.weight = a.weight →
      a.simplifyOnce.isTerm → k < a.weight) :
    Settles k (unary op a) (unary op a).simplifyOnce := by
  rw [simplifyOnce_unary]
  rcases ha with hundef | hlt | ⟨heq, hsettled⟩
  · rw [hundef, isUndefined_undefined]
    exact .inl rfl
  · split
    · exact .inl rfl
    · exact .inr (.inl ((weight_normalizeUnary_le op _).trans_lt (weight_unary_lt op hlt)))
  · rw [hsettled.isUndefined, if_neg Bool.false_ne_true]
    have hunary : (unary op a.simplifyOnce).weight = (unary op a).weight :=
      le_antisymm (weight_unary_le op heq.le) (weight_unary_le op heq.ge)
    have h : Settles k (unary op a.simplifyOnce) _ :=
      settles_normalizeUnary hsettled fun hop ht => heq ▸ hk hop hsettled heq ht
    rwa [Settles, hunary] at h

theorem simplifyOnce_binary_cases (ha : Settles k a a.simplifyOnce)
    (hb : Settles k b b.simplifyOnce) : (binary op' a b).simplifyOnce = undefined ∨
      (binary op' a b).simplifyOnce.weight < (binary op' a b).weight ∨
      (a.simplifyOnce.weight = a.weight ∧ a.simplifyOnce.IsSettled k) ∧
        (b.simplifyOnce.weight = b.weight ∧ b.simplifyOnce.IsSettled k) ∧
        (binary op' a b).simplifyOnce =
          (normalizeBinary op' a.simplifyOnce b.simplifyOnce).value := by
  have hwa := weight_simplifyOnce_le a
  have hwb := weight_simplifyOnce_le b
  rw [simplifyOnce_binary]
  split
  · exact .inl rfl
  · next hdef =>
    have hle := weight_normalizeBinary_le op' a.simplifyOnce b.simplifyOnce
    rw [weight_binary] at hle ⊢
    rcases ha with hundef | hlt | ha
    · rw [hundef, isUndefined_undefined] at hdef
      exact absurd rfl hdef
    · right; left
      omega
    · rcases hb with hundef | hlt | hb
      · rw [hundef, isUndefined_undefined, Bool.or_true] at hdef
        exact absurd rfl hdef
      · right; left
        omega
      · exact .inr (.inr ⟨ha, hb, rfl⟩)

theorem settles_simplifyOnce_binary (ha : Settles k a a.simplifyOnce)
    (hb : Settles k b b.simplifyOnce) (hk : k < (binary op' a b).weight ∨
      ∀ m, Monomial.of? (binary op' a.simplifyOnce b.simplifyOnce) = some m →
        (m.coeff == -1) = false) :
    Settles k (binary op' a b) (binary op' a b).simplifyOnce := by
  have hcases : (binary op' a b).simplifyOnce = _ ∨ _ := simplifyOnce_binary_cases ha hb
  rcases hcases with h | h | ⟨⟨hwa, ha⟩, ⟨hwb, hb⟩, h⟩
  · exact .inl h
  · exact .inr (.inl h)
  · have hweight : (binary op' a.simplifyOnce b.simplifyOnce).weight = (binary op' a b).weight :=
      congrArg₂ (· + ·) hwa hwb
    have hsettles : Settles k (binary op' a.simplifyOnce b.simplifyOnce) _ :=
      settles_normalizeBinary ha hb (hweight ▸ hk)
    rwa [Settles, hweight, ← h] at hsettles

/-- The first pass settles a formula. -/
theorem settles_simplifyOnce (f : Formula α) : Settles 0 f f.simplifyOnce := by
  induction f with
  | const v =>
    cases hv : isFinite v with
    | true =>
      obtain ⟨w, hw, hproper, -⟩ := exists_ofValue_of_isFinite hv
      rw [simplifyOnce_const, hw]
      exact .inr (.inr ⟨rfl, .const hproper⟩)
    | false => exact .inl (ofValue_of_not_isFinite hv)
  | var x => exact .inr (.inr ⟨rfl, .var x⟩)
  | unary op a ih => exact settles_simplifyOnce_unary ih fun _ _ _ _ => a.weight_pos
  | binary op a b iha ihb => exact settles_simplifyOnce_binary iha ihb (.inl (weight_pos _))

/-! ## Stable parts -/

theorem simplifyOnce_unary_of_isSettled (ha : a.simplifyOnce = a) (hsettled : a.IsSettled k)
    (h : (normalizeUnary op a).value = unary op a) : (unary op a).simplifyOnce = unary op a := by
  rw [simplifyOnce_unary, ha, hsettled.isUndefined, if_neg Bool.false_ne_true, h]

theorem simplifyOnce_binary_of_isSettled (ha : a.simplifyOnce = a) (hb : b.simplifyOnce = b)
    (hsettleda : a.IsSettled k) (hsettledb : b.IsSettled k)
    (h : (normalizeBinary op' a b).value = binary op' a b) :
    (binary op' a b).simplifyOnce = binary op' a b := by
  rw [simplifyOnce_binary, ha, hb, hsettleda.isUndefined, hsettledb.isUndefined, Bool.or_self,
    if_neg Bool.false_ne_true, h]

/-- A settled formula without a heavy quotient is a fixpoint. -/
theorem IsSettled.isStable (h : f.IsSettled k) (hk : f.weight ≤ k) (j : ℕ) :
    f.simplifyOnce = f ∧ f.IsSettled j := by
  induction h with
  | const h => exact ⟨ofValue_of_isProper h, .const h⟩
  | var x => exact ⟨rfl, .var x⟩
  | @unary op a ha h ih =>
    have hle : a.weight ≤ (Formula.unary op a).weight := by
      cases op <;> simp only [weight] <;> omega
    obtain ⟨hself, hsettled⟩ := ih (hle.trans hk)
    exact ⟨simplifyOnce_unary_of_isSettled hself hsettled h, .unary hsettled h⟩
  | @binary op a b ha hb h iha ihb =>
    rw [weight_binary] at hk
    obtain ⟨hselfa, ha⟩ := iha (by omega)
    obtain ⟨hselfb, hb⟩ := ihb (by omega)
    exact ⟨simplifyOnce_binary_of_isSettled hselfa hselfb ha hb h, .binary ha hb h⟩
  | quotient _ _ _ hlt => exact absurd hk (Nat.not_le.2 hlt)

/-! ## The next pass -/

theorem isTerm_normalizeSum (hlength : 2 ≤ (f.signedTerms false).length)
    (h : ∀ t ∈ f.signedTerms false, t.2.IsSettled k)
    (heq : f.normalizeSum.value.weight = f.weight) : f.normalizeSum.value.isTerm = false := by
  rcases normalizeSum_of_isSettled_or_lighter hlength h with ⟨ms, ps, ns, hms, hp, hform, htwo⟩ | hlt
  · rw [normalizeSum_of_isSumForm hms hp hform]
    by_cases hps : ps = []
    · subst hps
      rw [List.nil_append] at htwo
      rw [ofTerms_nil htwo]
      rfl
    · have hsum := isSum_ofTerms hps htwo
      generalize ofTerms ps ns = g at hsum
      cases g with
      | binary op a b => cases op <;> first | rfl | cases hsum
      | _ => cases hsum
  · exact absurd heq hlt.ne

theorem isTerm_simplifyOnce (ha : Settles k a a.simplifyOnce) (hb : Settles k b b.simplifyOnce)
    (hs : (binary op' a b).isSum)
    (heq : (binary op' a b).simplifyOnce.weight = (binary op' a b).weight) :
    (binary op' a b).simplifyOnce.isTerm = false := by
  rcases simplifyOnce_binary_cases ha hb with h | h | ⟨⟨hwa, ha⟩, ⟨hwb, hb⟩, h⟩
  · have hposa := a.weight_pos
    have hposb := b.weight_pos
    have hundef : (undefined : Formula α).weight = 1 := rfl
    rw [h, weight_binary, hundef] at heq
    omega
  · exact absurd heq h.ne
  · rw [h] at heq ⊢
    have hweight : (binary op' a.simplifyOnce b.simplifyOnce).weight = (binary op' a b).weight :=
      congrArg₂ (· + ·) hwa hwb
    cases op' with
    | add | sub =>
      refine isTerm_normalizeSum (k := k) (two_le_length_signedTerms rfl false) (fun t ht => ?_)
        (heq.trans hweight.symm)
      exact (List.mem_append.1 ht).elim ha.of_mem_signedTerms hb.of_mem_signedTerms
    | mul | div => cases hs

/-- A quotient in normal form shows the numerator and the denominator of its monomial. -/
theorem exists_of_normalizeProduct_div
    (h : (binary .div a b).normalizeProduct.value = binary .div a b) :
    ∃ m : Monomial α, m.IsReduced ∧ m.denom ≠ [] ∧ m.numerator = a ∧ product m.denom = b := by
  have hweight : 2 ≤ (binary .div a b).weight := Nat.add_le_add a.weight_pos b.weight_pos
  obtain ⟨m, hm, hreduced, hsorted, heq⟩ := exists_monomial_of_normalizeProduct hweight h
  have hfactor := (List.forall_mem_append.1 hreduced.isFactor).1
  refine ⟨m, hreduced, ?_⟩
  cases hd : m.denom with
  | nil =>
    -- Without a denominator no piece stands below the fraction bar, but those of `b` do.
    have hpieces := Monomial.pieces_numerator hreduced.isProper hfactor
    have hnumerator : m.numerator = binary .div a b := by
      rw [← heq]
      unfold Monomial.toFormula
      rw [hd]
    rw [hnumerator, pieces] at hpieces
    have hbelow p (hp : p ∈ b.pieces true) :
        p ∈ m.coeffPieces ∨ ∃ f ∈ m.numer, .factor f false = p := by
      have hmem := List.mem_append_right (a.pieces false) hp
      rw [show b.pieces true = b.pieces (!false) from rfl, hpieces, List.mem_append,
        List.mem_map] at hmem
      exact hmem
    rcases b.exists_mem_pieces true with ⟨v, hv⟩ | ⟨g, hg⟩
    · rcases hbelow _ hv with hv | ⟨f, -, hf⟩
      · unfold Monomial.coeffPieces at hv
        split at hv
        · simp at hv
        · split at hv <;> simp at hv
      · cases hf
    · rcases hbelow _ hg with hg | ⟨f, -, hf⟩
      · unfold Monomial.coeffPieces at hg
        split at hg
        · simp at hg
        · split at hg <;> simp at hg
      · cases hf
  | cons g gs =>
    have hquotient : m.toFormula = m.numerator / product m.denom := by
      unfold Monomial.toFormula
      rw [hd]
    rw [hquotient] at heq
    injection heq with _ ha hb
    exact ⟨List.cons_ne_nil _ _, ha, hd ▸ hb⟩

/-- What a negation in normal form negates is not a quotient. -/
theorem not_normalizeProduct_neg_div :
    (-binary .div a b).normalizeProduct.value ≠ -binary .div a b := by
  intro h
  have hweight : 2 ≤ (-binary .div a b).weight := Nat.add_le_add a.weight_pos b.weight_pos
  obtain ⟨m, hm, hreduced, hsorted, heq⟩ := exists_monomial_of_normalizeProduct hweight h
  have hfactor := (List.forall_mem_append.1 hreduced.isFactor).1
  obtain ⟨hne, hab⟩ := Monomial.eq_product_of_toFormula hfactor heq
  cases hn : m.numer with
  | nil => exact hne hn
  | cons f fs =>
    have hf := hfactor f (by simp [hn])
    have hfoldl (g : Formula α) (gs : List (Formula α)) (hg : ∀ c d, g ≠ binary .div c d) :
        gs.foldl (binary .mul) g ≠ binary .div a b := by
      induction gs generalizing g with
      | nil => exact hg a b
      | cons g' gs ih => exact ih _ fun c d h => nomatch h
    rw [hn] at hab
    refine hfoldl f fs ?_ hab.symm
    rintro c d rfl
    cases hf

omit [Scalar α] [LawfulScalar α] in
theorem ne_neg_neg (f : Formula α) : f ≠ -(-f) := by
  intro h
  have hsize := congrArg size h
  simp only [size] at hsize
  omega

/-- What a negation in normal form negates is a fixpoint if it is at most one heavier than `k`. -/
theorem IsSettled.isStable_of_negate (h : IsSettled k (Formula.unary .negate a))
    (hk : a.weight ≤ k + 1) (j : ℕ) : a.simplifyOnce = a ∧ a.IsSettled j := by
  cases h with
  | unary ha h =>
    cases ha with
    | const hv => exact ⟨ofValue_of_isProper hv, .const hv⟩
    | var x => exact ⟨rfl, .var x⟩
    | @unary op b hb hb' =>
      have hlt : b.weight ≤ k := by
        cases op with
        | negate => exact absurd h (ne_neg_neg b)
        | _ =>
          simp only [weight] at hk
          omega
      obtain ⟨hself, hsettled⟩ := hb.isStable hlt j
      exact ⟨simplifyOnce_unary_of_isSettled hself hsettled hb', .unary hsettled hb'⟩
    | @binary op b c hb hc hbc =>
      have hposb := b.weight_pos
      have hposc := c.weight_pos
      rw [weight_binary] at hk
      obtain ⟨hselfb, hb⟩ := hb.isStable (by omega) j
      obtain ⟨hselfc, hc⟩ := hc.isStable (by omega) j
      exact ⟨simplifyOnce_binary_of_isSettled hselfb hselfc hb hc hbc, .binary hb hc hbc⟩
    | quotient => exact absurd h not_normalizeProduct_neg_div

/-- The opposite of a settled sum is a sum, or the sum has only positive terms. -/
theorem IsSettled.isSum_normalizeSum_neg (h : a.IsSettled k) (hs : a.isSum) :
    (-a).normalizeSum.value.isSum ∨ (-a).normalizeSum.value = -a := by
  obtain ⟨ps, ns, hform, hlength, rfl, -⟩ := h.exists_isSumForm hs
  rw [hform.normalizeSum_neg_ofTerms (by rintro rfl; exact hlength)]
  by_cases hns : ns = []
  · subst hns
    rw [List.append_nil] at hlength
    right
    rw [List.map_nil, ofTerms_nil (by simpa using hlength), Monomial.map_negated_map_negated]
  · refine .inl (isSum_ofTerms (by simpa using hns) ?_)
    simp only [List.length_append, List.length_map] at hlength ⊢
    omega

omit [LawfulScalar α] in
theorem settles_of_eq (hself : f.simplifyOnce = f) (h : f.IsSettled k) :
    Settles k f f.simplifyOnce := by
  rw [hself]
  exact .inr (.inr ⟨rfl, h⟩)

/-- A quotient with a negated sum in its numerator settles in the next pass if it is one heavier than
`k`. -/
theorem settles_quotient {s : Formula α} (hs : s.IsSettled k) (hsum : s.isSum) (hb : b.IsSettled k)
    (hweight : (binary .div (-s) b).weight ≤ k + 1)
    (h : (binary .div (-s) b).normalizeProduct.value = binary .div (-s) b) :
    Settles (k + 1) (binary .div (-s) b) (binary .div (-s) b).simplifyOnce := by
  have hposs := s.weight_pos
  have hposb := b.weight_pos
  rw [weight_binary, neg_eq, weight_negate] at hweight
  obtain ⟨hselfs, hs⟩ := hs.isStable (by omega) (k + 1)
  obtain ⟨hselfb, hb⟩ := hb.isStable (by omega) (k + 1)
  have hnegation : s.normalizeNegation = (-s).normalizeSum := normalizeNegation_of_isSum hsum
  have hneg : (-s).simplifyOnce = (-s).normalizeSum.value := by
    rw [neg_eq, simplifyOnce_unary, hselfs, hs.isUndefined, if_neg Bool.false_ne_true]
    exact congrArg Traced.value hnegation
  rcases hs.isSum_normalizeSum_neg hsum with ht | hself
  · have hnumer : Settles (k + 1) (-s) (-s).simplifyOnce := by
      rw [hneg]
      exact settles_normalizeSum (two_le_length_signedTerms hsum true) fun t ht =>
        hs.of_mem_signedTerms ht
    refine settles_simplifyOnce_binary hnumer (settles_of_eq hselfb hb) (.inr fun m hm => ?_)
    -- The sum above the fraction bar has taken up the sign, so the coefficient is one.
    obtain ⟨m', hreduced, hne, -, rfl⟩ := exists_of_normalizeProduct_div h
    have hdenom := (List.forall_mem_append.1 hreduced.isFactor).2
    have hfactor : (-s).normalizeSum.value.isFactor := by
      generalize (-s).normalizeSum.value = t at ht
      cases t with
      | binary op c d => cases op <;> first | rfl | cases ht
      | _ => cases ht
    have hof := Monomial.of?_toFormula (m := ⟨1, [(-s).normalizeSum.value], m'.denom⟩) isProper_one
      (List.forall_mem_cons.2 ⟨hfactor, hdenom⟩)
    have hformula : (⟨1, [(-s).normalizeSum.value], m'.denom⟩ : Monomial α).toFormula =
        binary .div (-s).normalizeSum.value (product m'.denom) := by
      cases hd : m'.denom with
      | nil => exact absurd hd hne
      | cons d ds => simp [Monomial.toFormula, Monomial.numerator, product, div_eq]
    rw [hneg, hselfb, ← hformula, hof] at hm
    cases hm
    rw [← neg_beq_one, neg_one_beq_one]
  · have hself' : (-s).simplifyOnce = -s := hneg.trans hself
    have hnumer : (-s).IsSettled (k + 1) :=
      .unary hs ((congrArg Traced.value hnegation).trans hself)
    exact settles_of_eq (simplifyOnce_binary_of_isSettled hself' hselfb hnumer hb h)
      (.binary hnumer hb h)

theorem IsSettled.settles_and_not_isTerm (h : f.IsSettled k) :
    Settles (k + 1) f f.simplifyOnce ∧
      (f.isSum → f.simplifyOnce.weight = f.weight → f.simplifyOnce.isTerm = false) := by
  induction h with
  | const h =>
    exact ⟨settles_of_eq (ofValue_of_isProper h) (.const h), fun hs => absurd hs Bool.false_ne_true⟩
  | var x => exact ⟨settles_of_eq rfl (.var x), fun hs => absurd hs Bool.false_ne_true⟩
  | @unary op a ha h ih =>
    refine ⟨?_, fun hs => absurd hs Bool.false_ne_true⟩
    by_cases hlt : k + 1 < (Formula.unary op a).weight
    · refine settles_simplifyOnce_unary ih.1 ?_
      rintro rfl _ _ _
      exact hlt
    · have hstable : a.simplifyOnce = a ∧ a.IsSettled (k + 1) := by
        cases op with
        | negate => exact (IsSettled.unary ha h).isStable_of_negate (Nat.not_lt.1 hlt) (k + 1)
        | _ =>
          simp only [weight] at hlt
          exact ha.isStable (by omega) (k + 1)
      obtain ⟨hself, hsettled⟩ := hstable
      exact settles_of_eq (simplifyOnce_unary_of_isSettled hself hsettled h) (.unary hsettled h)
  | @binary op a b ha hb h iha ihb =>
    constructor
    · by_cases hlt : k + 1 < (Formula.binary op a b).weight
      · exact settles_simplifyOnce_binary iha.1 ihb.1 (.inl hlt)
      · have hposa := a.weight_pos
        have hposb := b.weight_pos
        rw [weight_binary] at hlt
        obtain ⟨hselfa, ha⟩ := ha.isStable (by omega) (k + 1)
        obtain ⟨hselfb, hb⟩ := hb.isStable (by omega) (k + 1)
        exact settles_of_eq (simplifyOnce_binary_of_isSettled hselfa hselfb ha hb h) (.binary ha hb h)
    · exact isTerm_simplifyOnce iha.1 ihb.1
  | @quotient s b hs hsum hb hk h ihs ihb =>
    refine ⟨?_, fun hs => absurd hs Bool.false_ne_true⟩
    by_cases hlt : k + 1 < (Formula.binary .div (-s) b).weight
    · have hnumer : Settles (k + 1) (-s) (-s).simplifyOnce :=
        settles_simplifyOnce_unary ihs.1 fun _ _ heq ht =>
          absurd ht (ne_true_of_eq_false (ihs.2 hsum heq))
      exact settles_simplifyOnce_binary hnumer ihb.1 (.inl hlt)
    · exact settles_quotient hs hsum hb (Nat.not_lt.1 hlt) h

theorem IsSettled.settles_simplifyOnce (h : f.IsSettled k) :
    Settles (k + 1) f f.simplifyOnce := h.settles_and_not_isTerm.1

end

end Formula
end SymCalc
