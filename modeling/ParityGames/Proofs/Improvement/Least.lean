import ParityGames.Proofs.Improvement.Charted

/-! # What the cuts leave

Among all edges of a member that stay in its component, the live ones are those that lead to the
least standing. So the response of player odd is a best one, as far as the vertices above the head
decide.
-/

namespace ParityGames

open Relation

namespace Game

variable {g : Game}

theorem digit_of_even {x : Nat} (h : Player.ofPriority (g.priorityOf x) = .even) (met : Bool) :
    g.digit x met = if met then 1 else 0 := by
  unfold digit
  rw [h]
  cases met <;> rfl

theorem digit_of_odd {x : Nat} (h : Player.ofPriority (g.priorityOf x) = .odd) (met : Bool) :
    g.digit x met = if met then 0 else 1 := by
  unfold digit
  rw [h]
  cases met <;> rfl

theorem standing_concat (g : Game) (done : List Nat) (u : Nat) (met : Nat → Bool) :
    g.standing (done ++ [u]) met = g.digit u (met u) + 2 * g.standing done met := by
  rw [standing_append]
  simp [standing]

end Game

namespace Component

open Improvement

variable {c t : Component} {s : Improvement} {g : Game} {choice : Nat → Nat} {u : Nat}
  {done noted restricted : List Nat} {allowed : VertexSet}

/-- No edge inside the component leads to a lesser standing than a live one, and those that lead to
the same standing are live. -/
def Least (c : Component) (g : Game) (choice : Nat → Nat) (done : List Nat) : Prop :=
  ∀ a v w, g.Arc choice a v → c.members.contains a = true → c.members.contains v = true →
    w ∈ c.liveSuccessors a →
      Charted.standing c.state g done w ≤ Charted.standing c.state g done v ∧
        (Charted.standing c.state g done w = Charted.standing c.state g done v →
          v ∈ c.liveSuccessors a)

theorem Cut.not_mem_before (h : c.Cut g choice s done) (hnew : u ∉ done) {v : Nat}
    (hv : c.members.contains v = true) : u ∉ (c.state.profile v).before := by
  intro hu
  rw [h.listed v hv, List.mem_filter] at hu
  exact hnew hu.1

/-- Noting `u` adds its digit to the standings. -/
theorem Noted.standing_concat (h : c.Noted t u noted restricted allowed)
    (hc : c.Cut g choice s done) (hnew : u ∉ done) {v : Nat} (hv : c.members.contains v = true) :
    Charted.standing t.state g (done ++ [u]) v =
      g.digit u (v ∈ noted) + 2 * Charted.standing c.state g done v := by
  unfold Charted.standing
  rw [Game.standing_concat, decide_eq_decide.2 (h.mem_before_self (hc.not_mem_before hnew hv))]
  congr 2
  apply Game.standing_congr
  intro x hx
  exact decide_eq_decide.2 (h.mem_before (fun heq => hnew (heq ▸ hx)) v)

namespace Least

theorem start {head : Nat} {members : VertexSet} (hkeeps : s.Keeps g choice)
    (hactive : ∀ v, members.contains v = true → g.contains v = true) :
    (Component.start s head members).reset.Least g choice [] := by
  intro a v w harc ha hv _
  have hlive : v ∈ (Component.start s head members).liveSuccessors a :=
    (liveSuccessors_start hkeeps hactive a v).2 ⟨harc, ha, hv⟩
  exact ⟨Nat.le_refl 0, fun _ => hlive⟩

/-- A cut that keeps those live edges whose targets have the least digit. -/
theorem cut (h : c.Least g choice done) (hc : c.Cut g choice s done)
    (ht : c.Noted t u noted restricted allowed) (hnew : u ∉ done)
    (hdigit : ∀ a v w, v ∈ c.liveSuccessors a → w ∈ c.liveSuccessors a →
      (a ∈ restricted → allowed.contains w = true) →
      g.digit u (w ∈ noted) ≤ g.digit u (v ∈ noted) ∧
        (g.digit u (w ∈ noted) = g.digit u (v ∈ noted) →
          a ∈ restricted → allowed.contains v = true)) :
    t.Least g choice (done ++ [u]) := by
  intro a v w harc ha hv hw
  rw [ht.members] at ha hv
  obtain ⟨hlive, hallowed⟩ := (ht.mem_live a w).1 hw
  obtain ⟨hle, hback⟩ := h a v w harc ha hv hlive
  have hbit := g.digit_le_one u (decide (w ∈ noted))
  rw [ht.standing_concat hc hnew hv, ht.standing_concat hc hnew (hc.flow.inside a w hlive).2]
  rcases Nat.lt_or_eq_of_le hle with hlt | heq
  · exact ⟨by omega, fun hsame => by omega⟩
  · have hvlive := hback heq
    obtain ⟨hle', hsame'⟩ := hdigit a v w hvlive hlive hallowed
    exact ⟨by omega, fun hsame => (ht.mem_live a v).2 ⟨hvlive, hsame' (by omega)⟩⟩

theorem evade (h : c.Least g choice done) (hc : c.Cut g choice s done) (hu : c.Next g done u)
    (heven : Player.ofPriority (g.priorityOf u) = .even) :
    (c.evade u).Least g choice (done ++ [u]) := by
  have hbasin := fun v => @Cut.contains_liveBasin c s g choice v done hc c.head u hc.flow.head_mem
  have hsafe : ∀ a w, w ∈ c.liveSuccessors a → a ≠ u →
      (c.liveBasin c.head u).contains w = true → (c.liveBasin c.head u).contains a = true := by
    intro a w hlive hne hw
    exact (hbasin a).2 (ReflTransGen.head ⟨hlive, hne⟩ ((hbasin w).1 hw))
  have hnoted : ∀ a w, w ∈ c.liveSuccessors a →
      g.digit u (w ∈ c.members.toList.filter fun v => !(c.liveBasin c.head u).contains v) =
        if (c.liveBasin c.head u).contains w = true then 0 else 1 := by
    intro a w hlive
    have hw := (hc.flow.inside a w hlive).2
    rw [Game.digit_of_even heven]
    simp only [List.mem_filter, VertexSet.mem_toList, hw, true_and]
    cases (c.liveBasin c.head u).contains w <;> rfl
  refine h.cut hc (noted_restrict u _ _ ((VertexSet.nodup_toList _).filter _) fun v hv => ?_) hu.new
    fun a v w hv hw hallowed => ?_
  · rw [hc.keeps.length_profiles]
    exact hc.lt_of_mem (VertexSet.mem_toList.1 (List.mem_filter.1 hv).1)
  · rw [hnoted a v hv, hnoted a w hw]
    by_cases ha : a ∈ (c.liveBasin c.head u).toList ++ [u]
    · rw [hallowed ha, if_pos rfl]
      refine ⟨Nat.zero_le _, fun heq _ => ?_⟩
      by_contra hout
      rw [if_neg hout] at heq
      cases heq
    · have hout : ¬ (c.liveBasin c.head u).contains a = true ∧ a ≠ u := by
        simpa [VertexSet.mem_toList] using ha
      rw [if_neg fun hin => hout.1 (hsafe a w hw hout.2 hin),
        if_neg fun hin => hout.1 (hsafe a v hv hout.2 hin)]
      exact ⟨Nat.le_refl _, fun _ ha' => absurd ha' ha⟩

theorem pursue (h : c.Least g choice done) (hc : c.Cut g choice s done) (hu : c.Next g done u)
    (hodd : Player.ofPriority (g.priorityOf u) = .odd) :
    (c.pursue u).Least g choice (done ++ [u]) := by
  have hbasin := fun v => @Cut.contains_liveBasin c s g choice v done hc u c.head hu.mem
  have hcycle := hu.acyclic hodd
  have htoward : ∀ a w, w ∈ c.liveSuccessors a →
      ¬ ((c.liveBasin u c.head).contains a = true ∧ a ≠ u) →
      ¬ (c.liveBasin u c.head).contains w = true := by
    intro a w hlive hout hw
    have hw := (hbasin w).1 hw
    by_cases hhead : a = c.head
    · subst hhead
      exact hc.flow.not_basin_of_head hu.mem hcycle (TransGen.single hlive) hw
    · have ha := (hbasin a).2 (ReflTransGen.head ⟨hlive, hhead⟩ hw)
      obtain rfl : a = u := by
        by_contra hne
        exact hout ⟨ha, hne⟩
      exact hcycle (TransGen.head' hlive (ReflTransGen.mono (fun _ _ hab => hab.1) _ _ hw))
  have hnoted : ∀ w, g.digit u (w ∈ (c.liveBasin u c.head).toList) =
      if (c.liveBasin u c.head).contains w = true then 0 else 1 := by
    intro w
    rw [Game.digit_of_odd hodd]
    simp only [VertexSet.mem_toList]
    cases (c.liveBasin u c.head).contains w <;> rfl
  refine h.cut hc (noted_restrict u _ _ (VertexSet.nodup_toList _) fun v hv => ?_) hu.new
    fun a v w hv hw hallowed => ?_
  · rw [hc.keeps.length_profiles]
    exact hc.lt_of_mem (hc.flow.mem_of_basin hu.mem ((hbasin v).1 (VertexSet.mem_toList.1 hv)))
  · rw [hnoted, hnoted]
    by_cases ha : a ∈ (c.liveBasin u c.head).toList.filter fun v => v ≠ u
    · rw [hallowed ha, if_pos rfl]
      refine ⟨Nat.zero_le _, fun heq _ => ?_⟩
      by_contra hout
      rw [if_neg hout] at heq
      cases heq
    · have hout : ¬ ((c.liveBasin u c.head).contains a = true ∧ a ≠ u) := by
        simpa [VertexSet.mem_toList] using ha
      rw [if_neg (htoward a w hw hout), if_neg (htoward a v hv hout)]
      exact ⟨Nat.le_refl _, fun _ ha' => absurd ha' ha⟩

theorem cutFor (h : c.Least g choice done) (hc : c.Cut g choice s done) (hu : c.Next g done u) :
    (c.cutFor u).Least g choice (done ++ [u]) := by
  unfold Component.cutFor
  rw [hc.keeps.winner_relevance (hc.active u hu.mem)]
  cases hwinner : Player.ofPriority (g.priorityOf u) with
  | even => exact h.evade hc hu hwinner
  | odd => exact h.pursue hc hu hwinner

end Least

end Component

end ParityGames
