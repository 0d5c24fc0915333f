import ParityGames.Proofs.Improvement.Distances
import ParityGames.Proofs.Improvement.Least

/-! # The response of player odd in a component

The evaluation of a component leaves a chart of it in which the moves of player odd are the best
ones: no other edge inside the component leads to a lesser standing, and where the standings are
equal none leads to a distance that is better for player odd.
-/

namespace ParityGames

open Relation

namespace Improvement

variable {s t : Improvement} {g : Game} {choice : Nat → Nat} {head : Nat}
  {region : Nat → Prop} {above : List Nat}

/-- A chart of a component whose moves are best for player odd. -/
structure Surveyed (s : Improvement) (g : Game) (choice : Nat → Nat) (head : Nat)
    (region : Nat → Prop) (above : List Nat) : Prop
    extends s.Charted g choice head region above where
  zero : (s.profile head).distance = 0
  least : ∀ u v, g.Arc choice u v → region u → region v →
    Charted.standing s g above (s.move u) ≤ Charted.standing s g above v ∧
      (Charted.standing s g above (s.move u) = Charted.standing s g above v → u ≠ head →
        g.pace head (s.profile u).distance ≤ g.pace head ((s.profile v).distance + 1))

/-- Only the profiles and moves of the component count. -/
theorem Surveyed.congr (h : s.Surveyed g choice head region above) {region' : Nat → Prop}
    (hregion : ∀ v, region' v ↔ region v)
    (hprofile : ∀ v, region v → t.profile v = s.profile v)
    (hmove : ∀ v, region v → t.move v = s.move v) :
    t.Surveyed g choice head region' above where
  toCharted := h.toCharted.congr hregion hprofile hmove
  zero := by
    rw [hprofile head h.head_mem]
    exact h.zero
  least := by
    intro u v harc hu hv
    rw [hregion] at hu hv
    have hstanding : ∀ w, region w → Charted.standing t g above w = Charted.standing s g above w := by
      intro w hw
      unfold Charted.standing
      rw [hprofile w hw]
    rw [hmove u hu, hstanding v hv, hstanding _ (h.moves u hu).2, hprofile u hu, hprofile v hv]
    exact h.least u v harc hu hv

structure Evaluates (s t : Improvement) (g : Game) (choice : Nat → Nat) (head : Nat)
    (members : VertexSet) : Prop where
  keeps : t.Keeps g choice
  profile : ∀ v, members.contains v = false → t.profile v = s.profile v
  move : ∀ v, members.contains v = false → t.move v = s.move v
  heads : ∀ v, members.contains v = true → (t.profile v).head = head
  surveyed : ∃ above, t.Surveyed g choice head (fun v => members.contains v = true) above

end Improvement

namespace Component

open Improvement

variable {c : Component} {s t : Improvement} {g : Game} {choice : Nat → Nat} {head : Nat}
  {members : VertexSet} {above : List Nat}

theorem Least.congr (h : c.Least g choice above)
    (hbefore : ∀ v, (t.profile v).before = (c.state.profile v).before) :
    ({ c with state := t } : Component).Least g choice above := by
  have hstanding : ∀ v, Charted.standing t g above v = Charted.standing c.state g above v := by
    intro v
    unfold Charted.standing
    rw [hbefore]
  intro a v w harc ha hv hw
  show Charted.standing t g above w ≤ Charted.standing t g above v ∧ (_ → _)
  rw [hstanding, hstanding]
  exact h a v w harc ha hv hw

/-- In an even component the live edges form no closed walk below its start but that of the head:
a greater vertex was cut for, and a lesser one would be a head that is worse. -/
theorem Cut.eq_head_of_loop (hc : c.Cut g choice s above)
    (habove : ∀ x, x ∈ above ↔ c.members.contains x = true ∧ g.rank c.head < g.rank x)
    (hloops : ∀ u, c.members.contains u = true →
      TransGen (fun a b => (g.Arc choice a b ∧ c.members.contains a = true) ∧ g.rank a ≤ g.rank u)
        u u → g.worth c.head ≤ g.worth u)
    (heven : Player.ofPriority (g.priorityOf c.head) = .even) {u : Nat}
    (hu : TransGen (fun a b => b ∈ c.liveSuccessors a ∧ g.rank a ≤ g.rank u) u u) :
    u = c.head := by
  obtain ⟨v, hfirst, -⟩ := TransGen.head'_iff.1 hu
  have hin := (hc.flow.inside u v hfirst.1).1
  rcases Nat.lt_trichotomy (g.rank c.head) (g.rank u) with hlt | heq | hgt
  · have hdone := (habove u).2 ⟨hin, hlt⟩
    exact absurd (TransGen.mono (fun a b hab => hab.1) _ _ hu) (hc.flow.acyclic u hdone)
  · exact (Game.rank_inj (hc.lt_of_mem hc.flow.head_mem) (hc.lt_of_mem hin) heq).symm
  · have hle := hloops u hin (TransGen.mono (fun a b hab =>
      ⟨⟨hc.arcs a b hab.1, (hc.flow.inside a b hab.1).1⟩, hab.2⟩) _ _ hu)
    have hlt := Game.worth_lt_of_rank_lt hgt
    rw [heven, if_pos rfl] at hlt
    exact absurd hlt (Int.not_lt.2 hle)

theorem Cut.evaluates (hc : c.Cut g choice s above) (hleast : c.Least g choice above)
    (htimed : c.Timed g)
    (habove : ∀ x, x ∈ above ↔ c.members.contains x = true ∧ g.rank c.head < g.rank x)
    (hsorted : above.Pairwise fun x y => g.rank y < g.rank x) :
    s.Evaluates c.state g choice c.head c.members where
  keeps := hc.keeps
  profile := hc.profile
  move := hc.move
  heads := hc.heads
  surveyed := by
    refine ⟨above, hc.charted htimed.placed habove hsorted, htimed.zero, ?_⟩
    intro u v harc hu hv
    obtain ⟨hle, hlive⟩ := hleast u v _ harc hu hv (htimed.placed u hu).1
    exact ⟨hle, fun heq hne => htimed.pace u v (hlive heq) hne⟩

/-- The search that fits the head settles all members. -/
theorem Cut.settles (hc : c.Cut g choice s above)
    (habove : ∀ x, x ∈ above ↔ c.members.contains x = true ∧ g.rank c.head < g.rank x)
    (hloops : ∀ u, c.members.contains u = true →
      TransGen (fun a b => (g.Arc choice a b ∧ c.members.contains a = true) ∧ g.rank a ≤ g.rank u)
        u u → g.worth c.head ≤ g.worth u) :
    ∃ t order,
      c.settleFor (Player.ofPriority (g.priorityOf c.head)) = .ok { c with state := t } ∧
      ({ c with state := t } : Component).Cut g choice s above ∧
      (∀ v, (t.profile v).before = (c.state.profile v).before) ∧
      ({ c with state := t } : Component).Timed g ∧ c.Assigns { c with state := t } order := by
  cases hplayer : Player.ofPriority (g.priorityOf c.head) with
  | even =>
      exact settleLate_spec hc hplayer fun u hu => hc.eq_head_of_loop habove hloops hplayer hu
  | odd => exact settleSoon_spec hc hplayer

theorem evaluate_spec (hkeeps : s.Keeps g choice) (hcloses : Closes g choice head members) :
    ∃ c, (start s head members).evaluate = .ok c ∧
      s.Evaluates c.state g choice head members := by
  have hhead := hcloses.active head hcloses.head_mem
  obtain ⟨hcut, hcutHead, hcutMembers, hleast⟩ := cut_induction hkeeps hcloses
    (fun done c => c.Least g choice done) (Least.start hkeeps hcloses.active)
    (fun done u c hc hu _ h => h.cutFor hc hu) (List.append_nil _).symm
  have hmem := fun u => @mem_above (start s head members) g choice u hkeeps hcloses.active hhead
  have hsorted := @above_sorted (start s head members) g choice hkeeps hcloses.active hhead
  have heval := evaluate_eq (start s head members)
  have hwinner : ((start s head members).state.relevance (start s head members).head).winner =
      Player.ofPriority (g.priorityOf head) := hkeeps.winner_relevance hhead
  rw [hwinner] at heval
  change ∀ u, _ ↔ members.contains u = true ∧ g.rank head < g.rank u at hmem
  generalize (start s head members).above = above
    at hcut hcutHead hcutMembers hleast hmem hsorted heval
  generalize above.foldl cutFor (start s head members).reset = c
    at hcut hcutHead hcutMembers hleast heval
  subst hcutHead hcutMembers
  obtain ⟨t, -, hrun, ht, hbefore, htimed, -⟩ := hcut.settles hmem hcloses.loops
  exact ⟨_, heval.trans hrun, ht.evaluates (hleast.congr hbefore) htimed hmem hsorted⟩

end Component

end ParityGames
