import SymCalc.Proofs.Session.State

/-!
# Lines that do not interfere

* `Command.vars`: the variables of the formula of a command;
* `Report.bare`: a report without suggestions;
* `Session.AgreesOn`: sessions that a formula with given variables cannot tell apart;
* `Session.results`, `Session.after`: the result of every line, and the session after all of them;
* `Session.BindsNothing`: a line that gives no variable a value;
* `Bindings.Same`: the same variables with the same values.

Sessions that agree on the variables of a command do the same with it (`Session.execute_congr`), and
sessions with the same bindings the same with all lines (`Session.Same.results`). So lines that bind
nothing can be removed (`Session.eraseIdx_results`), and assignments that do not use each other's name
can be swapped (`Session.results_swap`). Together this is `Session.noninterference`.
-/

namespace SymCalc

/-- The problem without the suggestions that come from names with a value. -/
def Problem.bare : Problem → Problem
  | undefinedVariable name _ => undefinedVariable name []
  | p => p

@[simp] theorem Problem.message_bare (p : Problem) : p.bare.message = p.message := by
  cases p <;> rfl

/-- The report with its problem as seen by `view`. -/
def Report.map (view : Problem → Problem) (r : Report) : Report := ⟨view r.problem, r.spans⟩

/-- The report without the suggestions that come from names with a value. -/
def Report.bare : Report → Report := Report.map Problem.bare

/-- The variables of the formula of a command, if it can be read. -/
def Command.vars (c : Command) : List String :=
  match (Formula.ofText c.formula : Except Report (Formula Float)) with
  | .ok f => f.vars
  | .error _ => []

theorem Command.vars_eq {c : Command} {f : Formula Float}
    (h : Formula.ofText c.formula = .ok f) : c.vars = f.vars := by
  rw [vars, h]

namespace Session

variable {s s' : Session} {view : Problem → Problem} {xs ys : List String} {f : Formula Float}
  {c : Command}

/-! ## Sessions that agree -/

/-- Whether the sessions show steps alike, give the same values to the variables `xs`, and as far as
`view` sees them make the same suggestions for those without one. -/
structure AgreesOn (view : Problem → Problem) (s s' : Session) (xs : List String) : Prop where
  showSteps : s.showSteps = s'.showSteps
  get? : ∀ x ∈ xs, s.bindings.get? x = s'.bindings.get? x
  undefined : ∀ x ∈ xs, view (.undefinedVariable x (s.bindings.similar x)) =
    view (.undefinedVariable x (s'.bindings.similar x))

theorem AgreesOn.mono (h : s.AgreesOn view s' ys) (hsub : xs ⊆ ys) : s.AgreesOn view s' xs :=
  ⟨h.showSteps, fun x hx => h.get? x (hsub hx), fun x hx => h.undefined x (hsub hx)⟩

theorem AgreesOn.isBound (h : s.AgreesOn view s' xs) {x : String} (hx : x ∈ xs) :
    s.bindings.isBound x = s'.bindings.isBound x := by
  rw [Bindings.isBound, Bindings.isBound, h.get? x hx]

/-- Without suggestions only the values count. -/
theorem agreesOn_bare (hs : s.showSteps = s'.showSteps)
    (h : ∀ x ∈ xs, s.bindings.get? x = s'.bindings.get? x) : s.AgreesOn Problem.bare s' xs :=
  ⟨hs, h, fun _ _ => rfl⟩

theorem evaluate_congr (h : s.AgreesOn view s' f.vars) (formula : String) :
    (s.evaluate f formula).mapError (Report.map view) =
      (s'.evaluate f formula).mapError (Report.map view) := by
  have heval := Formula.eval_congr view fun x hx => ⟨h.get? x hx, h.undefined x hx⟩
  have hfind : f.vars.find? (fun x => !s.bindings.isBound x) =
      f.vars.find? fun x => !s'.bindings.isBound x :=
    List.find?_congr fun x hx => by rw [h.isBound hx]
  unfold evaluate
  rw [hfind]
  cases he : f.eval s.bindings <;> cases he' : f.eval s'.bindings <;>
    simp_all [Except.mapError, Report.map]

theorem stepLines_congr (h : s.showSteps = s'.showSteps) (steps : List Step) :
    s.stepLines steps = s'.stepLines steps := by
  rw [stepLines, stepLines, h]

theorem show?_congr (h : s.AgreesOn view s' f.vars) (formula : String) :
    s.show? f formula = s'.show? f formula := by
  have h : s.AgreesOn view s' f.simplify.vars := h.mono f.vars_simplify
  have hvalue : f.simplifyTraced.value = f.simplify := rfl
  have hall : f.simplify.vars.all s.bindings.isBound = f.simplify.vars.all s'.bindings.isBound := by
    rw [Bool.eq_iff_iff, List.all_eq_true, List.all_eq_true]
    exact forall₂_congr fun x hx => by rw [h.isBound hx]
  unfold show?
  simp only [hvalue, stepLines_congr h.showSteps, hall]
  split
  · next hb =>
    rw [Bool.and_eq_true, List.all_eq_true] at hb
    obtain ⟨v', hv'⟩ := exists_evaluate_iff.2 hb.2
    obtain ⟨v, hv⟩ := exists_evaluate_iff.2 fun x hx => (h.isBound hx).trans (hb.2 x hx)
    have heq := evaluate_congr h formula
    rw [hv, hv'] at heq ⊢
    cases heq
    rfl
  · rfl

theorem assign?_congr {name formula : String}
    (h : s.AgreesOn view s' (Command.assign name formula).vars) :
    (s.assign? name formula).mapError (Report.map view) =
      (s'.assign? name formula).mapError (Report.map view) := by
  cases hf : (Formula.ofText formula : Except Report (Formula Float)) with
  | error r => rw [assign?_of_error hf, assign?_of_error hf]
  | ok f =>
    rw [Command.vars_eq (c := .assign name formula) hf] at h
    have heq := evaluate_congr (h.mono f.vars_simplify) formula
    rw [assign?_of_ok hf, assign?_of_ok hf, stepLines_congr h.showSteps]
    cases he : s.evaluate f.simplify formula <;> cases he' : s'.evaluate f.simplify formula <;>
      simp_all [Except.mapError, Except.map]

/-- What a command does to two sessions: nothing, or it gives one variable the same value in both. -/
def DoesAlike (c : Command) (s t s' t' : Session) : Prop :=
  t = s ∧ t' = s' ∨ ∃ name formula v, c = .assign name formula ∧
    t = { s with bindings := s.bindings.set name v } ∧
    t' = { s' with bindings := s'.bindings.set name v }

/-- Sessions that agree on the variables of a command do the same with it. -/
theorem execute_congr (h : s.AgreesOn view s' c.vars) :
    (s.execute c).1.mapError (Report.map view) = (s'.execute c).1.mapError (Report.map view) ∧
      DoesAlike c s (s.execute c).2 s' (s'.execute c).2 := by
  have hshow (made : Formula Float → Formula Float) (hmade : ∀ f, (made f).vars ⊆ f.vars) :
      ((Formula.ofText c.formula).bind fun f => s.show? (made f) c.formula) =
        (Formula.ofText c.formula).bind fun f => s'.show? (made f) c.formula := by
    cases hf : (Formula.ofText c.formula : Except Report (Formula Float)) with
    | error r => rfl
    | ok f =>
      rw [Command.vars_eq hf] at h
      exact show?_congr (h.mono (hmade f)) c.formula
  cases c with
  | simplify formula =>
    rw [execute_simplify, execute_simplify]
    exact ⟨congrArg _ (hshow id fun f => List.Subset.refl _), .inl ⟨rfl, rfl⟩⟩
  | differentiate formula =>
    rw [execute_differentiate, execute_differentiate]
    exact ⟨congrArg _ (hshow (·.derivative "x") fun f => f.vars_derivative "x"), .inl ⟨rfl, rfl⟩⟩
  | assign name formula =>
    have heq := assign?_congr h
    cases ha : s.assign? name formula with
    | error r =>
      cases ha' : s'.assign? name formula with
      | error r' =>
        rw [ha, ha'] at heq
        rw [execute_assign_of_error ha, execute_assign_of_error ha']
        exact ⟨congrArg Except.error (Except.error.inj heq), .inl ⟨rfl, rfl⟩⟩
      | ok p' =>
        rw [ha, ha'] at heq
        cases heq
    | ok p =>
      cases ha' : s'.assign? name formula with
      | error r' =>
        rw [ha, ha'] at heq
        cases heq
      | ok p' =>
        rw [ha, ha'] at heq
        cases heq
        rw [execute_assign_of_ok ha, execute_assign_of_ok ha']
        exact ⟨rfl, .inr ⟨name, formula, p.2, rfl, rfl, rfl⟩⟩
  | exit | empty => exact ⟨rfl, .inl ⟨rfl, rfl⟩⟩

end Session

/-! ## The same bindings -/

namespace Bindings

variable {β : Type} {b b' : Bindings β}

/-- Whether the same variables have the same values. -/
structure Same (b b' : Bindings β) : Prop where
  get? : ∀ x, b.get? x = b'.get? x
  names : (b.entries.map (·.1)).Perm (b'.entries.map (·.1))

theorem map_entries_set (b : Bindings β) (name : String) (v : β) :
    (b.set name v).entries.map (·.1) = name :: (b.entries.map (·.1)).filter (· ≠ name) := by
  simp [set, List.filter_map, Function.comp_def]

theorem Same.set (h : b.Same b') (name : String) (v : β) : (b.set name v).Same (b'.set name v) := by
  refine ⟨fun x => by rw [get?_set, get?_set, h.get? x], ?_⟩
  rw [map_entries_set, map_entries_set]
  exact (h.names.filter _).cons name

theorem same_set_comm (b : Bindings β) {x y : String} (hxy : x ≠ y) (v w : β) :
    ((b.set x v).set y w).Same ((b.set y w).set x v) := by
  refine ⟨fun z => ?_, ?_⟩
  · simp only [get?_set]
    split <;> split <;> simp_all
  · have hboth : ((b.entries.map (·.1)).filter (· ≠ x)).filter (· ≠ y) =
        ((b.entries.map (·.1)).filter (· ≠ y)).filter (· ≠ x) := by
      simp only [List.filter_filter, Bool.and_comm]
    simp only [map_entries_set]
    rw [List.filter_cons_of_pos (by simpa using hxy),
      List.filter_cons_of_pos (by simpa using hxy.symm), hboth]
    exact .swap x y _

theorem Same.names_eq (h : b.Same b') : b.names = b'.names := by
  have hsorted (b : Bindings β) : b.names.Pairwise fun x y => decide (x ≤ y) = true :=
    List.pairwise_mergeSort (by simpa using fun _ _ _ => le_trans) (by simpa using le_total) _
  have hperm : b.names.Perm b'.names :=
    (List.mergeSort_perm ..).trans (h.names.trans (List.mergeSort_perm ..).symm)
  refine hperm.eq_of_pairwise ?_ (hsorted b) (hsorted b')
  exact fun x y _ _ hxy hyx => le_antisymm (of_decide_eq_true hxy) (of_decide_eq_true hyx)

theorem Same.similar (h : b.Same b') (x : String) : b.similar x = b'.similar x := by
  rw [Bindings.similar, Bindings.similar, h.names_eq]

end Bindings

namespace Session

/-! ## Lists of lines -/

/-- The result of every line, up to a line that asks to leave. -/
def results (s : Session) : List String → List (Except Report (List String))
  | [] => []
  | line :: lines =>
    match Command.ofLine line with
    | .exit => []
    | command => (s.execute command).1 :: (s.execute command).2.results lines

/-- The session after the lines, up to a line that asks to leave. -/
def after (s : Session) : List String → Session
  | [] => s
  | line :: lines =>
    match Command.ofLine line with
    | .exit => s
    | command => (s.execute command).2.after lines

/-- Whether a line gives no variable a value: it is blank, a formula, a derivative or an assignment
that fails. -/
def BindsNothing (s : Session) (line : String) : Prop :=
  match Command.ofLine line with
  | .empty | .simplify _ | .differentiate _ => True
  | .assign name formula => ∃ r, (s.execute (.assign name formula)).1 = .error r
  | .exit => False

variable {s s' : Session} {line : String} {lines pre post : List String}

theorem results_cons (h : Command.ofLine line ≠ .exit) : s.results (line :: lines) =
    (s.execute (Command.ofLine line)).1 :: (s.execute (Command.ofLine line)).2.results lines := by
  rw [results]
  split
  · next hexit => exact absurd hexit h
  · rfl

theorem after_cons (h : Command.ofLine line ≠ .exit) :
    s.after (line :: lines) = (s.execute (Command.ofLine line)).2.after lines := by
  rw [after]
  split
  · next hexit => exact absurd hexit h
  · rfl

theorem results_cons_exit (h : Command.ofLine line = .exit) : s.results (line :: lines) = [] := by
  rw [results, h]

/-- What lines put out is what their results put out. -/
theorem run_eq (s : Session) (lines : List String) : s.run lines =
    ((lines.map Command.ofLine).zip (s.results lines)).flatMap fun p => outputs p.1 p.2 := by
  induction lines generalizing s with
  | nil => rfl
  | cons line lines ih =>
    rw [run]
    split
    · next hexit => simp [results_cons_exit hexit]
    · next hexit => simp [results_cons hexit, ih]

theorem results_append (h : ∀ l ∈ pre, Command.ofLine l ≠ .exit) :
    s.results (pre ++ post) = s.results pre ++ (s.after pre).results post := by
  induction pre generalizing s with
  | nil => rfl
  | cons l pre ih =>
    obtain ⟨hl, hpre⟩ := List.forall_mem_cons.1 h
    rw [List.cons_append, results_cons hl, results_cons hl, after_cons hl, ih hpre, List.cons_append]

theorem after_append (h : ∀ l ∈ pre, Command.ofLine l ≠ .exit) :
    s.after (pre ++ post) = (s.after pre).after post := by
  induction pre generalizing s with
  | nil => rfl
  | cons l pre ih =>
    obtain ⟨hl, hpre⟩ := List.forall_mem_cons.1 h
    rw [List.cons_append, after_cons hl, after_cons hl, ih hpre]

/-! ## Removing lines -/

theorem BindsNothing.execute_eq (h : s.BindsNothing line) : Command.ofLine line ≠ .exit ∧
    (s.execute (Command.ofLine line)).2 = s := by
  unfold BindsNothing at h
  cases hc : Command.ofLine line with
  | assign name formula =>
    rw [hc] at h
    obtain ⟨r, hr⟩ := h
    exact ⟨nofun, execute_of_error hr⟩
  | exit =>
    rw [hc] at h
    exact h.elim
  | _ => exact ⟨nofun, rfl⟩

/-- A line that binds nothing can be removed. -/
theorem eraseIdx_results (h : (s.after pre).BindsNothing line) :
    (s.results (pre ++ line :: post)).eraseIdx pre.length = s.results (pre ++ post) := by
  induction pre generalizing s with
  | nil =>
    obtain ⟨hexit, hs⟩ : _ ∧ (s.execute (Command.ofLine line)).2 = s := BindsNothing.execute_eq h
    rw [List.nil_append, List.nil_append, results_cons hexit, hs]
    rfl
  | cons l pre ih =>
    by_cases hexit : Command.ofLine l = .exit
    · simp [results_cons_exit hexit]
    · rw [after_cons hexit] at h
      rw [List.cons_append, List.cons_append, results_cons hexit, results_cons hexit,
        List.length_cons, List.eraseIdx_cons_succ, ih h]

/-! ## Swapping lines -/

/-- Whether the sessions have the same bindings and show steps alike. -/
structure Same (s s' : Session) : Prop where
  showSteps : s.showSteps = s'.showSteps
  bindings : s.bindings.Same s'.bindings

theorem Same.execute (h : s.Same s') (c : Command) :
    (s.execute c).1 = (s'.execute c).1 ∧ (s.execute c).2.Same (s'.execute c).2 := by
  have hagree : s.AgreesOn id s' c.vars :=
    ⟨h.showSteps, fun x _ => h.bindings.get? x, fun x _ => by rw [h.bindings.similar x]⟩
  obtain ⟨hresult, hdoes⟩ := execute_congr hagree
  have hid (x : Except Report (List String)) : x.mapError (Report.map id) = x := by cases x <;> rfl
  rw [hid, hid] at hresult
  refine ⟨hresult, ?_⟩
  rcases hdoes with ⟨ht, ht'⟩ | ⟨name, formula, v, -, ht, ht'⟩
  · rwa [ht, ht']
  · rw [ht, ht']
    exact ⟨h.showSteps, h.bindings.set name v⟩

/-- Sessions with the same bindings have the same results. -/
theorem Same.results (h : s.Same s') (lines : List String) :
    s.results lines = s'.results lines ∧ (s.after lines).Same (s'.after lines) := by
  induction lines generalizing s s' with
  | nil => exact ⟨rfl, h⟩
  | cons line lines ih =>
    by_cases hexit : Command.ofLine line = .exit
    · rw [results_cons_exit hexit, results_cons_exit hexit, after, after, hexit]
      exact ⟨rfl, h⟩
    · obtain ⟨hresult, hsame⟩ := h.execute (Command.ofLine line)
      obtain ⟨hresults, hafter⟩ := ih hsame
      rw [results_cons hexit, results_cons hexit, after_cons hexit, after_cons hexit, hresult,
        hresults]
      exact ⟨rfl, hafter⟩

/-- Assignments that do not use each other's name give the same in either order. -/
theorem assign_swap {n m f g : String} {p q : List String × Float}
    (hn : n ∉ (Command.assign m g).vars) (hm : m ∉ (Command.assign n f).vars)
    (hp : s.assign? n f = .ok p)
    (hq : Session.assign? { s with bindings := s.bindings.set n p.2 } m g = .ok q) :
    s.assign? m g = .ok q ∧
      Session.assign? { s with bindings := s.bindings.set m q.2 } n f = .ok p := by
  have hset {x y g : String} (v : Float) (hx : x ∉ (Command.assign y g).vars) :
      (s.assign? y g).mapError (Report.map Problem.bare) =
        (Session.assign? { s with bindings := s.bindings.set x v } y g).mapError
          (Report.map Problem.bare) := by
    refine assign?_congr (agreesOn_bare rfl fun z hz => ?_)
    rw [Bindings.get?_set, if_neg]
    rintro rfl
    exact hx hz
  have hok {x y : Except Report (List String × Float)} {z : List String × Float}
      (h : x.mapError (Report.map Problem.bare) = y.mapError (Report.map Problem.bare))
      (hy : y = .ok z) : x = .ok z := by
    cases x <;> simp_all [Except.mapError]
  exact ⟨hok (hset p.2 hn) hq, hok (hset q.2 hm).symm hp⟩

theorem exists_assign?_of_execute {n f : String} {la : List String}
    (h : (s.execute (.assign n f)).1 = .ok la) : ∃ v, s.assign? n f = .ok (la, v) := by
  cases ha : s.assign? n f with
  | error r =>
    rw [execute_assign_of_error ha] at h
    cases h
  | ok p =>
    rw [execute_assign_of_ok ha] at h
    cases h
    exact ⟨p.2, rfl⟩

theorem results_assign {n f : String} {la : List String} {v : Float}
    (hc : Command.ofLine line = .assign n f) (ha : s.assign? n f = .ok (la, v))
    (lines : List String) :
    s.results (line :: lines) = .ok la :: results ⟨s.bindings.set n v, s.showSteps⟩ lines ∧
      s.after (line :: lines) = after ⟨s.bindings.set n v, s.showSteps⟩ lines := by
  have hexit : Command.ofLine line ≠ .exit := hc ▸ nofun
  rw [results_cons hexit, after_cons hexit, hc, execute_assign_of_ok ha]
  exact ⟨rfl, rfl⟩

/-- Neighbouring assignments to different names that do not use each other's name can be swapped. -/
theorem results_swap {a b n m f g : String} {la lb : List String}
    (ha : Command.ofLine a = .assign n f) (hb : Command.ofLine b = .assign m g) (hnm : n ≠ m)
    (hn : n ∉ (Command.assign m g).vars) (hm : m ∉ (Command.assign n f).vars)
    (hla : (s.execute (.assign n f)).1 = .ok la)
    (hlb : ((s.execute (.assign n f)).2.execute (.assign m g)).1 = .ok lb) (post : List String) :
    ∃ rest, s.results (a :: b :: post) = .ok la :: .ok lb :: rest ∧
      s.results (b :: a :: post) = .ok lb :: .ok la :: rest ∧
      (s.after (a :: b :: post)).Same (s.after (b :: a :: post)) := by
  obtain ⟨v, hp⟩ := exists_assign?_of_execute hla
  rw [execute_assign_of_ok hp] at hlb
  obtain ⟨w, hq⟩ := exists_assign?_of_execute hlb
  obtain ⟨hq', hp'⟩ := assign_swap hn hm hp hq
  obtain ⟨hra, hta⟩ := results_assign ha hp (b :: post)
  obtain ⟨hrb, htb⟩ := results_assign hb hq post
  obtain ⟨hrb', htb'⟩ := results_assign hb hq' (a :: post)
  obtain ⟨hra', hta'⟩ := results_assign ha hp' post
  have hsame : Same ⟨(s.bindings.set n v).set m w, s.showSteps⟩
      ⟨(s.bindings.set m w).set n v, s.showSteps⟩ := ⟨rfl, s.bindings.same_set_comm hnm v w⟩
  obtain ⟨hresults, hafter⟩ := hsame.results post
  rw [hra, hrb, hrb', hra', hta, htb, htb', hta', ← hresults]
  exact ⟨_, rfl, rfl, hafter⟩

/-- Lines do not interfere. What a command does depends on the values of the variables in its
formula, apart from suggestions. A line that binds nothing can be removed, and neighbouring
assignments to different names that do not use each other's name can be swapped. -/
theorem noninterference :
    (∀ (s s' : Session) (c : Command), s.showSteps = s'.showSteps →
      (∀ x ∈ c.vars, s.bindings.get? x = s'.bindings.get? x) →
      (s.execute c).1.mapError Report.bare = (s'.execute c).1.mapError Report.bare ∧
        DoesAlike c s (s.execute c).2 s' (s'.execute c).2) ∧
    (∀ (s : Session) (pre post : List String) (line : String), (s.after pre).BindsNothing line →
      (s.results (pre ++ line :: post)).eraseIdx pre.length = s.results (pre ++ post)) ∧
    ∀ (s : Session) (pre post : List String) (a b n m f g : String) (la lb : List String),
      (∀ l ∈ pre, Command.ofLine l ≠ .exit) →
      Command.ofLine a = .assign n f → Command.ofLine b = .assign m g → n ≠ m →
      n ∉ (Command.assign m g).vars → m ∉ (Command.assign n f).vars →
      ((s.after pre).execute (.assign n f)).1 = .ok la →
      (((s.after pre).execute (.assign n f)).2.execute (.assign m g)).1 = .ok lb →
      ∃ rest, s.results (pre ++ a :: b :: post) = s.results pre ++ .ok la :: .ok lb :: rest ∧
        s.results (pre ++ b :: a :: post) = s.results pre ++ .ok lb :: .ok la :: rest ∧
        (s.after (pre ++ a :: b :: post)).Same (s.after (pre ++ b :: a :: post)) := by
  refine ⟨fun s s' c hs h => execute_congr (agreesOn_bare hs h),
    fun s pre post line h => eraseIdx_results h, ?_⟩
  intro s pre post a b n m f g la lb hpre ha hb hnm hn hm hla hlb
  obtain ⟨rest, hab, hba, hsame⟩ := results_swap ha hb hnm hn hm hla hlb post
  rw [results_append hpre, results_append hpre, after_append hpre, after_append hpre, hab, hba]
  exact ⟨rest, rfl, rfl, hsame⟩

/-- An assignment of `x` fails alike whether or not `y` has a value, a derivative between two lines can
be removed, and the assignments of two numbers can be swapped. -/
theorem noninterference_assignments :
    ((new false).execute (.assign "z" "x")).1.mapError Report.bare =
        (((new false).execute (Command.ofLine "y = 2")).2.execute (.assign "z" "x")).1.mapError
          Report.bare ∧
      ((new false).results ["y = 2", "@x", "x"]).eraseIdx 1 = (new false).results ["y = 2", "x"] ∧
      ((new false).after ["a = 1", "b = 2"]).Same ((new false).after ["b = 2", "a = 1"]) := by
  obtain ⟨hagree, hremove, hswap⟩ := noninterference
  refine ⟨(hagree _ _ _ (by decide +kernel) ?_).1,
    hremove (new false) ["y = 2"] ["x"] "@x" ?_, ?_⟩
  · have hvars : (Command.assign "z" "x").vars = ["x"] := by decide +kernel
    have hx : (((new false).execute (Command.ofLine "y = 2")).2.bindings.get? "x").isNone := by
      decide +kernel
    rw [hvars]
    intro y hy
    rw [List.mem_singleton.1 hy, Option.isNone_iff_eq_none.1 hx]
    rfl
  · have hc : Command.ofLine "@x" = .differentiate "x" := by decide
    rw [BindsNothing, hc]
    trivial
  · obtain ⟨rest, -, -, hsame⟩ := hswap (new false) [] [] "a = 1" "b = 2" "a" "b" "1" "2" ["a = 1"]
      ["b = 2"] nofun (by decide) (by decide) (by decide) (by decide +kernel)
      (by decide +kernel) (by decide +kernel) (by decide +kernel)
    exact hsame

end Session
end SymCalc
