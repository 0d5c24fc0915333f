import ParityGames.CommandLine.Report
import ParityGames.Proofs.Data.Choosing
import ParityGames.Proofs.GameFile.Converted
import ParityGames.Proofs.Solution.Checked

/-! # The verdict of a report

The verdict says who wins from the start vertex, if there is one, and what each player wins. It
depends on the regions of the solution only, and names every id of the file once.
-/

namespace ParityGames

def ReportLine.isVerdict (line : ReportLine) : Bool :=
  "Won by ".toList.isPrefixOf line.text.toList || "Winner from ".toList.isPrefixOf line.text.toList

namespace Report

variable {file : GameFile} {f : FileGame} {s : Solution} {p : Player}

/-! ## Regions in ids -/

theorem mem_regionIds {id : Nat} :
    id ∈ regionIds f s p ↔ ∃ v, (s.region p).contains v = true ∧ f.idOf v = id := by
  rw [regionIds, Ranking.sort_eq_insertionSort]
  simp

theorem regionIds_perm : (regionIds f s p).Perm ((s.region p).toList.map f.idOf) := by
  rw [regionIds, Ranking.sort_eq_insertionSort]
  exact List.perm_insertionSort _ _

theorem regionIds_perm_ids (hf : GameFile.Names f file) (hs : s.Shares f.game) :
    (regionIds f s .even ++ regionIds f s .odd).Perm (file.rows.map (·.id)) := by
  have hregions := hs.perm_vertices.map f.idOf
  rw [List.map_append, hf.ids] at hregions
  exact (regionIds_perm.append regionIds_perm).trans hregions

theorem regionIds_nodup (hf : GameFile.Names f file) (hs : s.Shares f.game) :
    (regionIds f s .even ++ regionIds f s .odd).Nodup :=
  (regionIds_perm_ids hf hs).nodup_iff.2 hf.nodup

theorem regionIds_increasing (hf : GameFile.Names f file) (hs : s.Shares f.game) (p : Player) :
    (regionIds f s p).Pairwise (· < ·) := by
  have hboth := List.nodup_append.1 (regionIds_nodup hf hs)
  have hnodup : (regionIds f s p).Nodup := by
    cases p with
    | even => exact hboth.1
    | odd => exact hboth.2.1
  have hsorted : (regionIds f s p).Pairwise (· ≤ ·) := by
    rw [regionIds, Ranking.sort_eq_insertionSort]
    exact List.pairwise_insertionSort _ _
  exact (hsorted.and hnodup).imp fun h => Nat.lt_of_le_of_ne h.1 h.2

/-! ## Lines -/

def startWinner? (f : FileGame) (s : Solution) : Option (Nat × Player) :=
  f.start?.bind fun v => (s.winner? v).map fun p => (f.idOf v, p)

/-- The lines that say who wins from where, and what the players win. -/
def verdict (winner? : Option (Nat × Player)) (won : Player → List Nat) : List ReportLine :=
  (winner?.map fun w => .plain s!"Winner from {w.1}: player {w.2.number}").toList ++
    Player.both.map fun p => .plain s!"Won by {p.name}: {Text.numberList (won p)}"

theorem winner_line_isVerdict (id number : Nat) :
    (ReportLine.plain s!"Winner from {id}: player {number}").isVerdict = true := by
  unfold ReportLine.isVerdict ReportLine.text
  simp only [String.append_assoc, String.toList_append]
  exact Bool.or_eq_true_iff.2 (.inr (List.isPrefixOf_iff_prefix.2 (List.prefix_append _ _)))

theorem won_line_isVerdict (name ids : String) :
    (ReportLine.plain s!"Won by {name}: {ids}").isVerdict = true := by
  unfold ReportLine.isVerdict ReportLine.text
  simp only [String.append_assoc, String.toList_append]
  exact Bool.or_eq_true_iff.2 (.inl (List.isPrefixOf_iff_prefix.2 (List.prefix_append _ _)))

theorem isVerdict_eq_false {line : ReportLine} (h : line.text.toList.head? ≠ some 'W') :
    line.isVerdict = false := by
  unfold ReportLine.isVerdict
  cases hchars : line.text.toList with
  | nil => rfl
  | cons c rest =>
      have hc : ('W' == c) = false := by
        rw [hchars, List.head?_cons] at h
        simpa using fun heq => h (congrArg some heq.symm)
      simp [List.isPrefixOf, hc]

theorem isVerdict_timingLine (solver : Solver) (s : Solution) :
    (timingLine solver.name (.solved s)).isVerdict = false := by
  have hnames : ∀ name ∈ ["zielonka", "promotion", "spm", "spm-linear", "improvement"],
      (ReportLine.took s!"{name}: solve").isVerdict = false := by decide
  apply hnames
  cases solver with
  | progressMeasures policy => cases policy <;> simp [Solver.name]
  | _ => simp [Solver.name]

theorem isVerdict_moveLines {t : Territory} {line : ReportLine} (h : line ∈ moveLines f t) :
    line.isVerdict = false := by
  unfold moveLines at h
  obtain ⟨move, -, rfl⟩ := List.mem_map.1 h
  apply isVerdict_eq_false
  simp only [ReportLine.text, String.append_assoc, String.toList_append]
  rw [List.head?_append_of_ne_nil _ (by decide)]
  decide

theorem filter_territoryLines (f : FileGame) (s : Solution) (moves : Bool) (p : Player) :
    (territoryLines f s moves p).filter ReportLine.isVerdict =
      [.plain s!"Won by {p.name}: {Text.numberList (regionIds f s p)}"] := by
  have hmoves : (moveLines f (s.of p)).filter ReportLine.isVerdict = [] :=
    List.filter_eq_nil_iff.2 fun line hline => by simp [isVerdict_moveLines hline]
  unfold territoryLines
  rw [List.filter_cons_of_pos (won_line_isVerdict _ _)]
  cases moves with
  | false => rfl
  | true => rw [if_pos rfl, hmoves]

theorem filter_solutionLines (hf : GameFile.Names f file) (hs : s.Shares f.game) (moves : Bool) :
    (solutionLines f moves s).filter ReportLine.isVerdict =
      verdict (startWinner? f s) (regionIds f s) := by
  unfold solutionLines verdict startWinner?
  rw [List.filter_append, List.filter_flatMap]
  simp only [filter_territoryLines]
  congr 1
  cases hstart : f.start? with
  | none => rfl
  | some v =>
      obtain ⟨p, hp, -⟩ := hs.exists_winner (hf.start_active v hstart)
      simp only [winnerLine, hp, Option.bind_some, Option.map_some, Option.toList_some]
      exact List.filter_cons_of_pos (winner_line_isVerdict _ _)

theorem startWinner?_spec (hf : GameFile.Names f file) (hs : s.Shares f.game) :
    (startWinner? f s).map (·.1) = file.start? ∧
      ∀ w, startWinner? f s = some w → w.1 ∈ regionIds f s w.2 := by
  rw [← hf.start]
  unfold startWinner?
  cases hstart : f.start? with
  | none => exact ⟨rfl, fun w hw => nomatch hw⟩
  | some v =>
      obtain ⟨p, hp, hin⟩ := hs.exists_winner (hf.start_active v hstart)
      simp only [hp, Option.bind_some, Option.map_some]
      refine ⟨trivial, ?_⟩
      rintro _ ⟨⟩
      exact mem_regionIds.2 ⟨v, hin, rfl⟩

theorem verdict_congr {s' : Solution} (h : ∀ p, s.region p = s'.region p) :
    verdict (startWinner? f s) (regionIds f s) = verdict (startWinner? f s') (regionIds f s') := by
  have hwinner : s.winner? = s'.winner? := by
    funext v
    simp only [Solution.winner?, h]
  have hids : regionIds f s = regionIds f s' := by
    funext p
    simp only [regionIds, h]
  rw [startWinner?, startWinner?, hwinner, hids]

end Report

end ParityGames
