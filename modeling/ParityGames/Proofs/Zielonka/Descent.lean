import ParityGames.Proofs.Zielonka.Calls
import ParityGames.Proofs.Zielonka.Solved

/-! # Zielonka's recursion descends

Every call splits off an attractor of active vertices and passes on what is left, so in a total game
the nested calls receive smaller and smaller total games. What a nested call returns has moves only
in what was passed on, and an attractor has moves only outside of that and of its targets, so no
union has to choose between two moves.
-/

namespace ParityGames

namespace Zielonka

variable {g : Game} {p : Player} {a b : Territory} {target : Set Nat} {s : Solution}
  {events : List Event} {depth d v : Nat}

/-! ## Parts that are passed on -/

/-- What a game passes on to a call that is nested so deep: a total part with fewer active vertices,
so few that they and the depth stay within the bound. -/
structure Descends (bound depth : Nat) (g part : Game) : Prop where
  partOf : part.PartOf g
  total : part.isTotal = true
  subset : ∀ v, part.contains v = true → g.contains v = true
  fewer : ∃ v, g.contains v = true ∧ part.contains v = false
  depth_add_size_le : depth + part.size ≤ bound

/-- What the attractor of an active target leaves of a total game. -/
theorem descends_difference (hg : g.Coherent) (htotal : g.isTotal = true)
    (ha : a.IsAttractor g p target) (hv : v ∈ target) (depth : Nat) :
    (g.difference a.region).Coherent ∧
      Descends (depth + g.size) (depth + 1) g (g.difference a.region) := by
  obtain ⟨hcoherent, hof, hpart⟩ := Game.difference_spec hg a.region
  have hsize := ha.size_lt hv hpart
  have hin := ha.of_target hv
  exact ⟨hcoherent, {
    partOf := hof
    total := ha.total_rest hof hpart htotal
    subset := by
      intro w hw
      rw [hpart, Bool.and_eq_true] at hw
      exact hw.1
    fewer := ⟨v, ha.active hin, by simp [hpart, hin]⟩
    depth_add_size_le := by omega }⟩

/-- The greatest priority has an active vertex, so less than the whole game is left below it. -/
theorem descends_below (hg : g.Coherent) (htotal : g.isTotal = true)
    (highest : g.maxPriority? = some d)
    (attracts : attractor g p (g.verticesWithPriority d) = .ok a) (depth : Nat) :
    ∃ target, a.IsAttractor g p target ∧ (g.difference a.region).Coherent ∧
      Descends (depth + g.size) (depth + 1) g (g.difference a.region) := by
  have ha := isAttractor_of_attractor hg attracts
  obtain ⟨⟨top, htop, hpriority⟩, -⟩ := hg.maxPriority_some highest
  have hmem := hg.mem_verticesWithPriority.2 ⟨htop, hpriority⟩
  exact ⟨_, ha, descends_difference hg htotal ha ⟨hmem, htop⟩ depth⟩

/-- What the opponent wins below the top holds in the whole game. If it is not empty, less than the
whole game is left beside its attractor. -/
theorem descends_beside {rest : Solution} (hg : g.Coherent) (htotal : g.isTotal = true)
    (ha : a.IsAttractor g p target) (hrest : rest.Holds (g.difference a.region))
    (contested : (rest.of p.opponent).region.isEmpty = false)
    (attracts : attractorOfSet g p.opponent (rest.of p.opponent).region = .ok b) (depth : Nat) :
    (rest.of p.opponent).Holds g p.opponent ∧ (g.difference b.region).Coherent ∧
      Descends (depth + g.size) (depth + 1) g (g.difference b.region) := by
  obtain ⟨-, hof, hpart⟩ := Game.difference_spec hg a.region
  have htaken : (rest.of p.opponent).Holds g p.opponent :=
    (hrest.holds p.opponent).of_rest (by rwa [Player.opponent_opponent]) hof hpart
  obtain ⟨v, hv⟩ : ∃ v, (rest.of p.opponent).region.contains v = true := by
    simpa [VertexSet.isEmpty_iff] using Bool.eq_false_iff.1 contested
  have hb := isAttractor_of_attractorOfSet hg attracts
  exact ⟨htaken, descends_difference hg htotal hb ⟨hv, htaken.dominion.active v hv⟩ depth⟩

/-! ## All that is done in a call -/

/-- The sound events: a call descends, and a union has the moves of both territories because no two
of them compete. -/
def Event.Sound (bound : Nat) : Event → Prop
  | .call depth g part => Descends bound depth g part
  | .merge t other m => t.MovesApart other ∧
      ∀ v w, m.moves.get? v = some w ↔ t.moves.get? v = some w ∨ other.moves.get? v = some w

theorem Event.Sound.mono {event : Event} {bound bound' : Nat} (h : event.Sound bound)
    (hle : bound ≤ bound') : event.Sound bound' := by
  cases event with
  | call depth g part =>
      exact { h with depth_add_size_le := Nat.le_trans h.depth_add_size_le hle }
  | merge t other m => exact h

/-- What is sound in a nested call is sound in the call that it is nested in. -/
theorem Descends.sound_nested {part : Game} {bound : Nat} (h : Descends bound depth g part)
    (hevents : ∀ event ∈ events, event.Sound (depth + part.size)) :
    ∀ event ∈ events, event.Sound bound :=
  fun event hevent => (hevents event hevent).mono h.depth_add_size_le

theorem Event.sound_merge {t other m : Territory} (hapart : t.MovesApart other)
    (h : t.merge other = .ok m) (bound : Nat) : (Event.merge t other m).Sound bound :=
  ⟨hapart, hapart.move_iff h⟩

namespace Call

theorem holds (h : Call depth g s events) (hg : g.Coherent) (htotal : g.isTotal = true) :
    s.Holds g := by
  obtain ⟨s', n, hrun, hs⟩ :=
    solveWithin_holds (g.size + events.length + 1) g depth hg htotal (by omega)
  rw [h.outcome (by omega)] at hrun
  cases hrun
  exact hs

/-- By induction on the nested calls. They receive total games, so their solutions hold there, which
is why the second target is not empty and why the moves are apart. -/
theorem sound (h : Call depth g s events) (hg : g.Coherent) (htotal : g.isTotal = true) :
    ∀ event ∈ events, event.Sound (depth + g.size) := by
  induction h with
  | blank => simp
  | @topped depth d g p a won rest below highest _ attracts lower _ merged ih =>
      obtain ⟨target, ha, hcoherent, hdown⟩ := descends_below hg htotal highest attracts depth
      obtain ⟨-, -, hpart⟩ := Game.difference_spec hg a.region
      have hrest := lower.holds hcoherent hdown.total
      have hbelow := hdown.sound_nested (ih hcoherent hdown.total)
      have hwon := Event.sound_merge ((hrest.holds p).apart_attractor hpart ha) merged
      rw [List.cons_append, List.forall_mem_cons, List.forall_mem_append,
        List.forall_mem_singleton]
      exact ⟨hdown, hbelow, hwon _⟩
  | @setback depth d g p a b united lost rest final below beside highest _ attracts lower contested
      attracts' again merged merged' ih ih' =>
      obtain ⟨target, ha, hcoherent, hdown⟩ := descends_below hg htotal highest attracts depth
      have hrest := lower.holds hcoherent hdown.total
      have hbelow := hdown.sound_nested (ih hcoherent hdown.total)
      obtain ⟨htaken, hcoherent', hdown'⟩ :=
        descends_beside hg htotal ha hrest contested attracts' depth
      have hb := isAttractor_of_attractorOfSet hg attracts'
      obtain ⟨-, -, hpart⟩ := Game.difference_spec hg b.region
      have hfinal := (again.holds hcoherent' hdown'.total).holds p.opponent
      have hbeside := hdown'.sound_nested (ih' hcoherent' hdown'.total)
      have hunited := Event.sound_merge (hfinal.apart_attractor hpart hb) merged
      have hlost := Event.sound_merge (hfinal.apart_target hpart hb htaken merged) merged'
      rw [List.cons_append, List.forall_mem_cons, List.forall_mem_append, List.cons_append,
        List.forall_mem_cons, List.forall_mem_append, List.forall_mem_cons,
        List.forall_mem_singleton]
      exact ⟨hdown, hbelow, hdown', hbeside, hunited _, hlost _⟩

end Call

/-- Zielonka's recursion on a total game comes to its end under every bound on the nesting that is
above the number of active vertices, and the last record tells how many calls were made. Every
nested call receives a total game with fewer active vertices than its caller's, at a depth that does
not exceed the number of active vertices, and no union drops a move. -/
theorem recursion_descends (hg : g.Reachable) (htotal : g.isTotal = true) :
    ∃ s events, Call 0 g s events ∧
      (∀ fuel, g.size < fuel →
        (solveWithin fuel g 0).outcome = .ok (s, callCount events + 1)) ∧
      (solve g).outcome = .ok s ∧
      (solve g).records.getLast? = some (.recursionDone g.size (callCount events + 1)) ∧
      ∀ s' events', Call 0 g s' events' → ∀ event ∈ events', event.Sound g.size := by
  have hcoherent := hg.coherent
  obtain ⟨s, n, hrun, -⟩ := solveWithin_holds (g.size + 1) g 0 hcoherent htotal (by omega)
  obtain ⟨events, hcall, rfl⟩ := exists_call hrun
  refine ⟨s, events, hcall, fun fuel hfuel => ?_, ?_, ?_, fun s' events' hcall' => ?_⟩
  · obtain ⟨s', n', hrun', -⟩ := solveWithin_holds fuel g 0 hcoherent htotal hfuel
    obtain ⟨events', hcall', rfl⟩ := exists_call hrun'
    obtain ⟨rfl, hcount⟩ := hcall.result_unique hcall'
    rw [hrun', hcount]
  · simp only [solve, htotal, Bool.not_true, Bool.false_eq_true, if_false, Run.outcome_bind,
      Run.outcome_write, Run.outcome_pure, hrun, ok_bind]
  · simp only [solve, htotal, Bool.not_true, Bool.false_eq_true, if_false, Run.records_bind,
      Run.outcome_write, Run.records_write, Run.records_pure, hrun, List.append_nil,
      List.getLast?_concat]
  · simpa using hcall'.sound hcoherent htotal

/-- Ten nested calls, and setbacks at two depths. -/
theorem recursion_descends_duel : ∃ g, duel.build = .ok g ∧ ∃ s events, Call 0 g s events ∧
    (solve g).outcome = .ok s ∧ callCount events = 10 ∧ ∀ event ∈ events, event.Sound 5 := by
  obtain ⟨g, hmade, hshape⟩ : ∃ g, duel.build = .ok g ∧ (g.isTotal = true ∧ g.size = 5 ∧
      (solve g).records.getLast? = some (.recursionDone 5 11)) :=
    ⟨_, rfl, by decide +kernel⟩
  obtain ⟨htotal, hsize, hlast⟩ := hshape
  obtain ⟨s, events, hcall, -, hsolve, hrecord, hsound⟩ := recursion_descends (.build hmade) htotal
  obtain ⟨-, hcount⟩ := Record.recursionDone.inj (Option.some.inj (hlast.symm.trans hrecord))
  exact ⟨g, hmade, s, events, hcall, hsolve, by omega, hsize ▸ hsound s events hcall⟩

end Zielonka

end ParityGames
