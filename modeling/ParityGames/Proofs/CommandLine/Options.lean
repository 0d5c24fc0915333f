import ParityGames.CommandLine.Options
import ParityGames.Proofs.Data.Checked

/-! # Options that are understood

Whatever the arguments are, the solvers that run are ones that have a name. The help text is shown
exactly if an argument asks for it and everything before that argument is understood.
-/

namespace ParityGames

namespace Options

variable {o o' : Options} {P : Options → Prop} {arguments before : List String}

theorem understood_eq_ok_iff {α : Type} {next? : Option α} {a : α} :
    understood next? = .ok a ↔ next? = some a := by
  cases next? <;> simp [understood]

theorem understood_ne_help {α : Type} {next? : Option α} :
    understood next? ≠ .error .help := by
  cases next? <;> simp [understood]

theorem understood_bind_eq_ok_iff {α β : Type} {next? : Option α} {f : α → Except Refusal β}
    {b : β} : (understood next? >>= f) = .ok b ↔ ∃ next, next? = some next ∧ f next = .ok b := by
  simp only [bind_eq_ok_iff, understood_eq_ok_iff]

theorem understood_bind_eq_help_iff {α β : Type} {next? : Option α} {f : α → Except Refusal β} :
    (understood next? >>= f) = .error .help ↔
      ∃ next, next? = some next ∧ f next = .error .help := by
  simp only [bind_eq_error_iff, understood_ne_help, understood_eq_ok_iff, false_or]

/-- Every argument that can be entered keeps the property. -/
structure Kept (P : Options → Prop) : Prop where
  path : ∀ {o o' : Options} {path : String}, o.enterPath path = some o' → P o → P o'
  value : ∀ {o o' : Options} {option value : String}, o.enter option value = some o' → P o → P o'
  moves : ∀ {o : Options}, P o → P { o with moves := true }

theorem Kept.paths (hP : Kept P) {paths : List String} (h : paths.foldlM enterPath o = some o')
    (ho : P o) : P o' := by
  induction paths generalizing o with
  | nil =>
      cases h
      exact ho
  | cons path rest ih =>
      rw [List.foldlM_cons] at h
      obtain ⟨next, hnext, h⟩ := Option.bind_eq_some_iff.1 h
      exact ih h (hP.path hnext ho)

theorem Kept.parseFrom (hP : Kept P) (h : o.parseFrom arguments = .ok o') (ho : P o) : P o' := by
  fun_induction Options.parseFrom o arguments with
  | case1 =>
      cases h
      exact ho
  | case2 => exact hP.paths (understood_eq_ok_iff.1 h) ho
  | case3 => cases h
  | case4 o rest hmoves ih => exact ih h (hP.moves ho)
  | case5 => cases h
  | case6 o argument rest _ _ _ _ ih =>
      obtain ⟨next, hnext, h⟩ := understood_bind_eq_ok_iff.1 h
      exact ih next h (hP.path hnext ho)
  | case7 o argument _ _ _ _ option value rest _ ih =>
      obtain ⟨next, hnext, h⟩ := understood_bind_eq_ok_iff.1 h
      exact ih next h (hP.value hnext ho)
  | case8 => cases h
  | case9 => cases h
  | case10 o argument _ _ _ _ option value rest _ _ ih =>
      obtain ⟨next, hnext, h⟩ := understood_bind_eq_ok_iff.1 h
      exact ih next h (hP.value hnext ho)

def IsNamed (o : Options) : Prop :=
  ∀ choice, o.choice? = some choice → choice ∈ Choice.named.map (·.2)

theorem kept_isNamed : Kept IsNamed where
  path := by
    intro o o' path h ho
    unfold enterPath at h
    split at h
    · cases h
    · cases h
      exact ho
  value := by
    intro o o' option value h ho
    unfold enter at h
    split at h
    · split at h
      · cases h
      · obtain ⟨choice, hlookup, rfl⟩ := Option.map_eq_some_iff.1 h
        rintro _ ⟨⟩
        obtain ⟨before, after, hnamed, -⟩ := List.lookup_eq_some_iff.1 hlookup
        exact List.mem_map.2 ⟨(value, choice), by simp [hnamed], rfl⟩
    · split at h
      · cases h
      · obtain ⟨n, -, rfl⟩ := Option.map_eq_some_iff.1 h
        exact ho
    · split at h
      · cases h
      · obtain ⟨n, -, rfl⟩ := Option.map_eq_some_iff.1 h
        exact ho
    · cases h
  moves := fun ho => ho

theorem isNamed_of_parse {path : String} (h : parse arguments = .ok (path, o)) : o.IsNamed := by
  obtain ⟨final, hparse, h⟩ := bind_eq_ok_iff.1 h
  obtain ⟨path, -, h⟩ := understood_bind_eq_ok_iff.1 h
  cases h
  exact kept_isNamed.parseFrom hparse fun _ hnone => nomatch hnone

/-- At least one solver runs, and all that run are among those tried by default. -/
theorem IsNamed.solvers (h : o.IsNamed) :
    o.solvers ≠ [] ∧ ∀ solver ∈ o.solvers, solver ∈ Solver.all o.limit? := by
  have hchoice : ∀ choice ∈ Choice.named.map (·.2), choice.solvers o.limit? ≠ [] ∧
      ∀ solver ∈ choice.solvers o.limit?, solver ∈ Solver.all o.limit? := by
    simp [Choice.named, Choice.solvers, Solver.all]
  unfold Options.solvers
  cases hsome : o.choice? with
  | none => simp [Choice.solvers, Solver.all]
  | some choice => exact hchoice choice (h choice hsome)

/-! ## Asking for help -/

/-- Arguments that are read to the end, and what they leave behind for those that follow. -/
structure Takes (o : Options) (taken : List String) (o' : Options) : Prop where
  no_dash : "--" ∉ taken
  parseFrom_append : ∀ rest, o.parseFrom (taken ++ rest) = o'.parseFrom rest

theorem Takes.trans {o'' : Options} {taken taken' : List String} (h : o.Takes taken o')
    (h' : o'.Takes taken' o'') : o.Takes (taken ++ taken') o'' where
  no_dash := by
    rw [List.mem_append, not_or]
    exact ⟨h.no_dash, h'.no_dash⟩
  parseFrom_append := fun rest => by
    rw [List.append_assoc, h.parseFrom_append, h'.parseFrom_append]

theorem takes_switch (hmoves : ¬ o.moves = true) :
    o.Takes ["--strategy"] { o with moves := true } where
  no_dash := by decide
  parseFrom_append := fun rest => by
    rw [List.cons_append, parseFrom, if_neg hmoves, List.nil_append]

section

variable {argument option value : String} (hdash : argument ≠ "--")
  (hswitch : argument ≠ "--strategy") (hhelp : ¬ asksForHelp argument = true)

include hdash hswitch hhelp

theorem takes_path (hoption : (!isOption argument) = true)
    (h : o.enterPath argument = some o') : o.Takes [argument] o' where
  no_dash := by simpa using hdash.symm
  parseFrom_append := fun rest => by
    rw [List.cons_append, List.nil_append, parseFrom.eq_def]
    split <;> simp_all [understood]

theorem takes_attached (hoption : ¬ (!isOption argument) = true)
    (hsplit : splitValue argument = (option, some value)) (h : o.enter option value = some o') :
    o.Takes [argument] o' where
  no_dash := by simpa using hdash.symm
  parseFrom_append := fun rest => by
    rw [List.cons_append, List.nil_append, parseFrom.eq_def]
    split <;> simp_all [understood]

theorem takes_detached (hoption : ¬ (!isOption argument) = true)
    (hsplit : splitValue argument = (option, none)) (hvalue : ¬ isOption value = true)
    (h : o.enter option value = some o') : o.Takes [argument, value] o' where
  no_dash := by
    have hdash' : value ≠ "--" := by
      rintro rfl
      exact hvalue (by decide)
    simp [hdash.symm, hdash'.symm]
  parseFrom_append := fun rest => by
    simp [parseFrom, hhelp, hoption, hsplit, hvalue, h, understood]

end

/-- Behind arguments that are understood, the others are read as if they came first. -/
theorem takes_of_parseFrom {taken : List String} (h : o.parseFrom taken = .ok o')
    (hdash : "--" ∉ taken) : o.Takes taken o' := by
  fun_induction Options.parseFrom o taken with
  | case1 =>
      cases h
      exact ⟨hdash, fun _ => rfl⟩
  | case2 => exact absurd List.mem_cons_self hdash
  | case3 => cases h
  | case4 o rest hmoves ih =>
      exact (takes_switch hmoves).trans (ih h (List.not_mem_of_not_mem_cons hdash))
  | case5 => cases h
  | case6 o argument rest hne hswitch hhelp hoption ih =>
      obtain ⟨next, hnext, h⟩ := understood_bind_eq_ok_iff.1 h
      exact (takes_path hne hswitch hhelp hoption hnext).trans
        (ih next h (List.not_mem_of_not_mem_cons hdash))
  | case7 o argument hne hswitch hhelp hoption option value rest hsplit ih =>
      obtain ⟨next, hnext, h⟩ := understood_bind_eq_ok_iff.1 h
      exact (takes_attached hne hswitch hhelp hoption hsplit hnext).trans
        (ih next h (List.not_mem_of_not_mem_cons hdash))
  | case8 => cases h
  | case9 => cases h
  | case10 o argument hne hswitch hhelp hoption option value rest hsplit hvalue ih =>
      obtain ⟨next, hnext, h⟩ := understood_bind_eq_ok_iff.1 h
      exact (takes_detached hne hswitch hhelp hoption hsplit hvalue hnext).trans
        (ih next h (List.not_mem_of_not_mem_cons (List.not_mem_of_not_mem_cons hdash)))

/-- An argument asks for help, and all arguments before it are understood. -/
def HelpAsked (o : Options) (arguments : List String) : Prop :=
  ∃ before argument rest o', arguments = before ++ argument :: rest ∧ o.Takes before o' ∧
    asksForHelp argument = true

theorem Takes.helpAsked {taken : List String} (h : o.Takes taken o')
    (hasked : o'.HelpAsked arguments) : o.HelpAsked (taken ++ arguments) := by
  obtain ⟨before, argument, rest, last, rfl, hbefore, hhelp⟩ := hasked
  exact ⟨taken ++ before, argument, rest, last, (List.append_assoc ..).symm, h.trans hbefore, hhelp⟩

theorem helpAsked_of_parseFrom (h : o.parseFrom arguments = .error .help) :
    o.HelpAsked arguments := by
  fun_induction Options.parseFrom o arguments with
  | case1 => cases h
  | case2 => exact absurd h understood_ne_help
  | case3 => cases h
  | case4 o rest hmoves ih => exact (takes_switch hmoves).helpAsked (ih h)
  | case5 o argument rest _ _ hhelp =>
      exact ⟨[], argument, rest, o, rfl, ⟨List.not_mem_nil, fun _ => rfl⟩, hhelp⟩
  | case6 o argument rest hne hswitch hhelp hoption ih =>
      obtain ⟨next, hnext, h⟩ := understood_bind_eq_help_iff.1 h
      exact (takes_path hne hswitch hhelp hoption hnext).helpAsked (ih next h)
  | case7 o argument hne hswitch hhelp hoption option value rest hsplit ih =>
      obtain ⟨next, hnext, h⟩ := understood_bind_eq_help_iff.1 h
      exact (takes_attached hne hswitch hhelp hoption hsplit hnext).helpAsked (ih next h)
  | case8 => cases h
  | case9 => cases h
  | case10 o argument hne hswitch hhelp hoption option value rest hsplit hvalue ih =>
      obtain ⟨next, hnext, h⟩ := understood_bind_eq_help_iff.1 h
      exact (takes_detached hne hswitch hhelp hoption hsplit hvalue hnext).helpAsked (ih next h)

theorem parseFrom_help {argument : String} (hhelp : asksForHelp argument = true)
    (rest : List String) : o.parseFrom (argument :: rest) = .error .help := by
  have hdash : argument ≠ "--" := by
    rintro rfl
    cases hhelp
  have hswitch : argument ≠ "--strategy" := by
    rintro rfl
    cases hhelp
  rw [parseFrom.eq_def]
  split <;> simp_all

/-- The help text is shown exactly if an argument asks for it before any double dash, and all
arguments before it are understood. What follows it does not matter. -/
theorem parse_eq_help_iff : parse arguments = .error .help ↔
    ∃ before argument rest o, arguments = before ++ argument :: rest ∧ "--" ∉ before ∧
      empty.parseFrom before = .ok o ∧ asksForHelp argument = true := by
  have hparse : parse arguments = .error .help ↔ empty.parseFrom arguments = .error .help := by
    rw [parse, bind_eq_error_iff]
    refine or_iff_left ?_
    rintro ⟨o, -, h⟩
    obtain ⟨path, -, h⟩ := understood_bind_eq_help_iff.1 h
    cases h
  rw [hparse]
  constructor
  · intro h
    obtain ⟨before, argument, rest, o, rfl, hbefore, hhelp⟩ := helpAsked_of_parseFrom h
    have hparsed := hbefore.parseFrom_append []
    rw [List.append_nil, parseFrom] at hparsed
    exact ⟨before, argument, rest, o, rfl, hbefore.no_dash, hparsed, hhelp⟩
  · rintro ⟨before, argument, rest, o, rfl, hdash, hbefore, hhelp⟩
    rw [(takes_of_parseFrom hbefore hdash).parseFrom_append]
    exact parseFrom_help hhelp rest

end Options

end ParityGames
