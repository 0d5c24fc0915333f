import ParityGames.Proofs.Improvement.Rounds

/-! # Strategy improvement under a limit

A limit on the rounds does not change what a round does. Where the rounds end within the limit the
run is the unlimited one, with its solution and its records. Where they go on, the run ends after
the first round beyond the limit, with the records of the unlimited run up to there.
-/

namespace ParityGames

open Run

namespace Improvement

variable {s s' t u : Improvement} {g : Game} {m n count k : Nat}

/-- The rounds that lead to stable moves are determined by the state. -/
theorem Rounds.unique (h : s.Rounds n t) (h' : s.Rounds m u) : n = m ∧ t = u := by
  induction h generalizing m with
  | stable hrun hstable =>
      cases h' with
      | stable hrun' hstable' => exact ⟨rfl, Except.ok.inj (hrun.symm.trans hrun')⟩
      | improve hround hrest =>
          obtain ⟨t', hrun', himprove⟩ := hround
          obtain rfl := Except.ok.inj (hrun.symm.trans hrun')
          rw [himprove] at hstable
          cases hstable
  | improve hround _ ih =>
      obtain ⟨t', hrun, himprove⟩ := hround
      cases h' with
      | stable hrun' hstable' =>
          obtain rfl := Except.ok.inj (hrun.symm.trans hrun')
          rw [himprove] at hstable'
          cases hstable'
      | improve hround' hrest' =>
          obtain ⟨u', hrun', himprove'⟩ := hround'
          obtain rfl := Except.ok.inj (hrun.symm.trans hrun')
          obtain rfl := congrArg Prod.fst (himprove.symm.trans himprove')
          obtain ⟨rfl, htu⟩ := ih hrest'
          exact ⟨rfl, htu⟩

/-! ## Records of rounds -/

def roundRecords (count n : Nat) : List Record := (List.range' (count + 1) n).map .improved

theorem roundRecords_succ (count n : Nat) :
    roundRecords count (n + 1) = .improved (count + 1) :: roundRecords (count + 1) n := by
  rw [roundRecords, List.range'_succ, List.map_cons]
  rfl

theorem take_roundRecords (count : Nat) (h : k ≤ n) :
    (roundRecords count n).take k = roundRecords count k := by
  rw [roundRecords, ← List.map_take, List.take_range'_of_length_ge h]
  rfl

/-- The records of the loop are those of the rounds that are made. -/
theorem Rounds.records (h : s.Rounds n t) {fuel : Nat} (hfuel : n < fuel) (count : Nat) :
    (stabilise none fuel s count).records = roundRecords count n := by
  obtain ⟨fuel, rfl⟩ := Nat.exists_eq_add_one_of_ne_zero (Nat.ne_zero_of_lt hfuel)
  induction h generalizing fuel count with
  | stable hrun hstable =>
      rw [stabilise_stable hrun hstable]
      rfl
  | @improve s s' t n hround _ ih =>
      obtain ⟨fuel, rfl⟩ := Nat.exists_eq_add_one_of_ne_zero (show fuel ≠ 0 by omega)
      rw [stabilise_round hround (by simp), roundRecords_succ, ← ih (count + 1) fuel (by omega)]
      rfl

/-- Under a limit no round is made after the first one beyond it. -/
theorem Rounds.records_limited (h : s.Rounds n t) {limit fuel count : Nat} (hfuel : n < fuel)
    (hcount : count ≤ limit) :
    (stabilise (some limit) fuel s count).records =
      roundRecords count (min n (limit + 1 - count)) := by
  obtain ⟨fuel, rfl⟩ := Nat.exists_eq_add_one_of_ne_zero (Nat.ne_zero_of_lt hfuel)
  induction h generalizing fuel count with
  | stable hrun hstable =>
      rw [stabilise_stable hrun hstable, Nat.zero_min]
      rfl
  | @improve s s' t n hround _ ih =>
      -- The limit is looked at behind the record, so the round beyond it is still recorded.
      by_cases hover : limit < count + 1
      · have hlast : min (n + 1) (limit + 1 - count) = 0 + 1 := by omega
        rw [stabilise_beyond hround hover, hlast, roundRecords_succ]
        rfl
      · have hwithin : count < limit := Nat.le_of_not_lt hover
        have hmore : min (n + 1) (limit + 1 - count) = min n (limit + 1 - (count + 1)) + 1 := by
          omega
        obtain ⟨fuel, rfl⟩ := Nat.exists_eq_add_one_of_ne_zero (show fuel ≠ 0 by omega)
        rw [stabilise_round hround (by simpa using hwithin), hmore, roundRecords_succ,
          ← ih hwithin fuel (by omega)]
        rfl

/-! ## Whole runs -/

theorem report_solve (limit? : Option Nat) (htotal : g.isTotal = true) :
    (solve limit? g).report (fun _ => false) =
      match (stabilise limit? (roundBound g) (start g) 0).outcome with
      | .ok (t, n) => (.ok t.solution,
          (stabilise limit? (roundBound g) (start g) 0).records ++ [.improvementDone g.size n])
      | .error stop => (.error stop, (stabilise limit? (roundBound g) (start g) 0).records) := by
  rw [report_never _ _ fun _ => rfl]
  simp only [solve, htotal, Bool.not_true, Bool.false_eq_true, if_false]
  rw [outcome_bind, records_bind]
  cases (stabilise limit? (roundBound g) (start g) 0).outcome with
  | ok result => rfl
  | error stop => exact Prod.ext rfl (List.append_nil _)

/-- A limit only cuts. The rounds come to an end; if there are no more of them than the limit, the
run is the unlimited one, and otherwise it ends with the limit and with the records of the rounds up
to the first one beyond it. -/
theorem limit_cuts (hg : g.Reachable) (htotal : g.isTotal = true) :
    (∃ n t, (start g).Rounds n t) ∧
    ∀ n t, (start g).Rounds n t →
      (solve none g).report (fun _ => false) =
        (.ok t.solution, roundRecords 0 n ++ [.improvementDone g.size n]) ∧
      ∀ limit, (solve (some limit) g).report (fun _ => false) =
        if n ≤ limit then (solve none g).report fun _ => false
        else (.error (.iterationLimit limit),
          ((solve none g).report fun _ => false).2.take (limit + 1)) := by
  have hready := start_ready hg htotal
  obtain ⟨n, t, hrounds, hfuel⟩ := exists_rounds hready
  have hgame : (start g).game = g := rfl
  rw [hgame] at hfuel
  refine ⟨⟨n, t, hrounds⟩, fun n' t' hrounds' => ?_⟩
  obtain ⟨rfl, rfl⟩ := hrounds.unique hrounds'
  have hfree : (solve none g).report (fun _ => false) =
      (.ok t.solution, roundRecords 0 n ++ [.improvementDone g.size n]) := by
    rw [report_solve none htotal, hrounds.outcome hfuel 0, hrounds.records hfuel 0, Nat.zero_add]
  refine ⟨hfree, fun limit => ?_⟩
  rw [report_solve (some limit) htotal, hrounds.outcome_limited hfuel (Nat.zero_le limit),
    hrounds.records_limited hfuel (Nat.zero_le limit), Nat.zero_add, Nat.sub_zero, hfree]
  by_cases hle : n ≤ limit
  · rw [if_neg (Nat.not_lt.2 hle), if_pos hle, Nat.min_eq_left (Nat.le_succ_of_le hle)]
  · have hlt : limit < n := Nat.lt_of_not_le hle
    have hlong : limit + 1 ≤ (roundRecords 0 n).length := by
      rw [roundRecords, List.length_map, List.length_range']
      exact hlt
    rw [if_pos hlt, if_neg hle, Nat.min_eq_right hlt, List.take_append_of_le_length hlong,
      take_roundRecords 0 hlt]

/-- Three vertices of player even, whose moves are switched in three rounds. -/
def climb : GameBuilder :=
  ⟨VertexTable.ofList [⟨.even, 3, [1, 0]⟩, ⟨.even, 1, [1, 0]⟩, ⟨.even, 1, [2, 0]⟩]⟩

theorem limit_cuts_climb : ∃ g t, climb.build = .ok g ∧ (start g).Rounds 3 t ∧
    (solve (some 1) g).report (fun _ => false) =
      (.error (.iterationLimit 1), [.improved 1, .improved 2]) ∧
    (solve (some 3) g).report (fun _ => false) =
      (.ok t.solution, [.improved 1, .improved 2, .improved 3, .improvementDone 3 3]) := by
  obtain ⟨g, hmade, htotal, hsize, hcount⟩ : ∃ g, climb.build = .ok g ∧ g.isTotal = true ∧
      g.size = 3 ∧ ((solve none g).report fun _ => false).2.length = 4 :=
    ⟨_, rfl, by decide +kernel⟩
  obtain ⟨⟨n, t, hrounds⟩, hreport⟩ := limit_cuts (.build hmade) htotal
  obtain ⟨hfree, hlimited⟩ := hreport n t hrounds
  obtain rfl : n = 3 := by simpa [hfree, roundRecords] using hcount
  refine ⟨g, t, hmade, hrounds, ?_, ?_⟩
  · rw [hlimited 1, hfree]
    rfl
  · rw [hlimited 3, hfree, hsize]
    rfl

end Improvement

end ParityGames
