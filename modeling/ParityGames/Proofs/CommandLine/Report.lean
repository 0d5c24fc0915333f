import ParityGames.Proofs.CommandLine.Options
import ParityGames.Proofs.CommandLine.Verdict
import ParityGames.Proofs.GameFile.Reading
import ParityGames.Proofs.Solution.Checked
import ParityGames.Proofs.Solver.Agreement

/-! # One answer for every choice of solvers

Every solver that gets its time comes to a solution that passes the check, and all solutions agree
on the regions. So no report on a game ends early, and all of them give the same verdict.
-/

namespace ParityGames

namespace Report

variable {file : GameFile} {f : FileGame} {g : Game} {s : Solution}

/-! ## Timings of solvers that succeed -/

def AllHold (g : Game) (timings : List (String × Timing)) : Prop :=
  ∀ entry ∈ timings, ∃ s, entry.2 = .solved s ∧ s.Holds g

theorem check_eq_none (hg : g.Coherent) (hs : s.Holds g) : s.check g = .ok none :=
  hs.solves.fits.checkIn hg _

theorem AllHold.tail {entry : String × Timing} {rest : List (String × Timing)}
    (h : AllHold g (entry :: rest)) : AllHold g rest :=
  fun other hother => h other (List.mem_cons_of_mem _ hother)

theorem AllHold.checkedSolutions (hg : g.Coherent) {timings : List (String × Timing)}
    (h : AllHold g timings) : ∃ solutions, checkedSolutions g (timings.map (·.2)) = .ok solutions ∧
      solutions.length = timings.length ∧ ∀ s ∈ solutions, s.Holds g := by
  induction timings with
  | nil => exact ⟨[], rfl, rfl, fun s hs => nomatch hs⟩
  | cons entry rest ih =>
      obtain ⟨s, hsolved, hs⟩ := h entry (by simp)
      obtain ⟨solutions, hrest, hlength, hall⟩ := ih h.tail
      refine ⟨s :: solutions, ?_, by simp [hlength], List.forall_mem_cons.2 ⟨hs, hall⟩⟩
      simp only [List.map_cons, hsolved, Report.checkedSolutions, Timing.solution?,
        check_eq_none hg hs, hrest]
      rfl

theorem AllHold.attempted (hg : g.Coherent) {timings : List (String × Timing)}
    (h : AllHold g timings) : attempted g timings = timings := by
  induction timings with
  | nil => rfl
  | cons entry rest ih =>
      obtain ⟨name, timing⟩ := entry
      obtain ⟨s, hsolved, hs⟩ := h (name, timing) (by simp)
      obtain rfl : timing = .solved s := hsolved
      simp only [Report.attempted, Report.checkedSolutions, Timing.solution?, check_eq_none hg hs,
        ih h.tail]
      rfl

theorem agreedSolution_eq {rest : List Solution} (hs : s.Holds g) (hrest : ∀ t ∈ rest, t.Holds g) :
    agreedSolution (s :: rest) = .ok s := by
  have hnone : (rest.find? fun t => Player.both.any fun p => t.region p ≠ s.region p) = none := by
    rw [List.find?_eq_none]
    intro t ht
    simp [(hrest t ht).region_eq hs]
  simp only [agreedSolution, hnone]

theorem AllHold.forTimings (hg : f.game.Coherent) {timings : List (String × Timing)}
    (h : AllHold f.game timings) (hne : timings ≠ []) (moves : Bool) :
    ∃ s, s.Holds f.game ∧ forTimings f moves timings =
      (.took "Preprocessing" :: timings.map (fun entry => timingLine entry.1 entry.2) ++
        solutionLines f moves s, none) := by
  obtain ⟨solutions, hchecked, hlength, hall⟩ := h.checkedSolutions hg
  cases solutions with
  | nil => exact absurd (List.length_eq_zero_iff.1 hlength.symm) hne
  | cons s rest =>
      have hs := hall s (by simp)
      refine ⟨s, hs, ?_⟩
      simp only [Report.forTimings, h.attempted hg, hchecked, ok_bind,
        agreedSolution_eq hs fun t ht => hall t (List.mem_cons_of_mem _ ht)]

/-! ## The report -/

def timings (o : Options) (g : Game) : List (String × Timing) :=
  o.solvers.map fun solver => (solver.name, timing o g solver)

theorem timing_holds {o : Options} {solver : Solver} (htimeout : o.timeout? = none)
    (hsolver : solver ∈ Solver.all none) (hg : g.Reachable) (htotal : g.isTotal = true)
    (hroom : ProgressMeasures.HasRoom g) : ∃ s, timing o g solver = .solved s ∧ s.Holds g := by
  obtain ⟨s, hrun, hs⟩ := Solver.run_holds hsolver hg htotal fun _ _ => hroom
  refine ⟨s, ?_, hs⟩
  simp [timing, htimeout, hrun, Ending.ofOutcome, Timing.ofEnding]

theorem filter_heading {o : Options} (h : AllHold g (timings o g)) :
    (.took "Preprocessing" :: (timings o g).map fun entry => timingLine entry.1 entry.2).filter
      ReportLine.isVerdict = [] := by
  rw [List.filter_cons_of_neg (by decide), List.filter_eq_nil_iff]
  intro line hline
  obtain ⟨entry, hentry, rfl⟩ := List.mem_map.1 hline
  obtain ⟨s, hsolved, -⟩ := h entry hentry
  obtain ⟨solver, -, rfl⟩ := List.mem_map.1 hentry
  simp only at hsolved
  simp [hsolved, isVerdict_timingLine]

/-- The start vertex has a winner, and the players' lists are in order and name every id of the file
once. -/
structure Answers (file : GameFile) (winner? : Option (Nat × Player)) (won : Player → List Nat) :
    Prop where
  increasing : ∀ p, (won p).Pairwise (· < ·)
  nodup : (won .even ++ won .odd).Nodup
  mem_iff : ∀ id, id ∈ won .even ++ won .odd ↔ ∃ row ∈ file.rows, row.id = id
  start : winner?.map (·.1) = file.start?
  wins : ∀ id p, winner? = some (id, p) → id ∈ won p

theorem answers_of_holds (hf : GameFile.Names f file) (hs : s.Holds f.game) :
    Answers file (startWinner? f s) (regionIds f s) where
  increasing := regionIds_increasing hf hs.shares
  nodup := regionIds_nodup hf hs.shares
  mem_iff := by
    intro id
    rw [(regionIds_perm_ids hf hs.shares).mem_iff, List.mem_map]
  start := (startWinner?_spec hf hs.shares).1
  wins := fun id p hwinner => (startWinner?_spec hf hs.shares).2 (id, p) hwinner

/-- A file that describes a game has one answer. Whichever solvers are asked for, if they are given
the time and the steps they need, the report comes to its end and gives this answer. -/
theorem one_answer {text : String} (hread : GameFile.read text = .ok file)
    (hgame : file.toGame = .ok f) (hroom : ProgressMeasures.HasRoom f.game) :
    ∃ (s : Solution) (winner? : Option (Nat × Player)) (won : Player → List Nat),
      s.Solves f.game ∧
      (∀ p id, id ∈ won p ↔ ∃ v, (s.region p).contains v = true ∧ f.idOf v = id) ∧
      Answers file winner? won ∧
      ∀ arguments path o, Options.parse arguments = .ok (path, o) → o.timeout? = none →
        o.limit? = none →
          (∀ solver ∈ o.solvers, ∃ t, timing o f.game solver = .solved t ∧
            t.check f.game = .ok none ∧ ∀ p, t.region p = s.region p) ∧
          (make text arguments).2 = none ∧
          (make text arguments).1.filter ReportLine.isVerdict = verdict winner? won := by
  have hreachable := GameFile.toGame_reachable hgame
  have htotal := GameFile.toGame_total hgame
  have hnames := GameFile.toGame_names hgame
  obtain ⟨s, hs⟩ := Zielonka.exists_holds hreachable.coherent htotal
  refine ⟨s, startWinner? f s, regionIds f s, hs.solves, fun p id => mem_regionIds,
    answers_of_holds hnames hs, fun arguments path o hparse htimeout hlimit => ?_⟩
  obtain ⟨hne, hsolvers⟩ := (Options.isNamed_of_parse hparse).solvers
  rw [hlimit] at hsolvers
  have hsolved : ∀ solver ∈ o.solvers, ∃ t, timing o f.game solver = .solved t ∧
      t.Holds f.game := fun solver hsolver =>
    timing_holds htimeout (hsolvers solver hsolver) hreachable htotal hroom
  have hall : AllHold f.game (timings o f.game) := by
    intro entry hentry
    obtain ⟨solver, hsolver, rfl⟩ := List.mem_map.1 hentry
    exact hsolved solver hsolver
  obtain ⟨t, ht, hlines⟩ :=
    hall.forTimings hreachable.coherent (by simpa [timings] using hne) o.moves
  have hmake : make text arguments = forTimings f o.moves (timings o f.game) := by
    unfold make load
    simp only [hparse, hread, hgame]
    rfl
  rw [hmake, hlines]
  refine ⟨fun solver hsolver => ?_, rfl, ?_⟩
  · obtain ⟨t, hsolved, ht⟩ := hsolved solver hsolver
    exact ⟨t, hsolved, check_eq_none hreachable.coherent ht, ht.region_eq hs⟩
  · rw [List.filter_append, filter_heading hall, List.nil_append,
      filter_solutionLines hnames ht.shares]
    exact verdict_congr (ht.region_eq hs)

theorem one_answer_ferry :
    (make GameFile.ferryText ["ferry", "--solver", "all"]).2 = none ∧
      ((make GameFile.ferryText ["ferry", "--solver", "all"]).1.filter ReportLine.isVerdict).map
        ReportLine.text =
        ["Winner from 7: player 1", "Won by player 0: []", "Won by player 1: [7, 10]"] := by
  have hread : GameFile.read GameFile.ferryText = .ok GameFile.ferry := by decide +kernel
  obtain ⟨f, hgame, hmax⟩ : ∃ f, GameFile.ferry.toGame = .ok f ∧ f.game.maxPriority? = some 3 :=
    ⟨_, rfl, by decide +kernel⟩
  have hroom : ProgressMeasures.HasRoom f.game := by
    intro d hd
    obtain rfl : 3 = d := Option.some.inj (hmax.symm.trans hd)
    decide
  have hparse : ∀ arguments ∈ [["ferry"], ["ferry", "--solver", "all"]],
      ((Options.parse arguments).toOption.any fun parsed =>
        decide (parsed.2.timeout? = none ∧ parsed.2.limit? = none)) = true := by decide +kernel
  obtain ⟨_, winner?, won, -, -, -, hall⟩ := one_answer hread hgame hroom
  have hverdict : ∀ arguments ∈ [["ferry"], ["ferry", "--solver", "all"]],
      (make GameFile.ferryText arguments).2 = none ∧
        (make GameFile.ferryText arguments).1.filter ReportLine.isVerdict =
          verdict winner? won := by
    intro arguments harguments
    have hfree := hparse arguments harguments
    cases hparsed : Options.parse arguments with
    | error cause => simp [hparsed, Except.toOption] at hfree
    | ok parsed =>
        simp only [hparsed, Except.toOption, Option.any_some, decide_eq_true_eq] at hfree
        exact (hall arguments parsed.1 parsed.2 hparsed hfree.1 hfree.2).2
  refine ⟨(hverdict _ (by simp)).1, ?_⟩
  rw [(hverdict _ (by simp)).2, ← (hverdict ["ferry"] (by simp)).2]
  decide +kernel

end Report

end ParityGames
