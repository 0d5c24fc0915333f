import ParityGames.Proofs.Improvement.Ready

/-! # Cuts keep a component connected

Whatever edges are cut for the vertices above its head, every member of a component still reaches
the head, and the head is still left. So the settling that follows never runs out of edges, its
counters are never found empty, and every member gets a move and a distance.
-/

namespace ParityGames

open Relation

/-- A walk along edges until it meets the head for the first time, with the vertices on the way. -/
inductive Route (successors : Nat → List Nat) (head : Nat) : Nat → List Nat → Prop
  | arrive : Route successors head head []
  | step {v w : Nat} {path : List Nat} (hne : v ≠ head) (hedge : w ∈ successors v)
      (h : Route successors head w path) : Route successors head v (v :: path)

namespace Component

variable {c t : Component} {s : Improvement} {g : Game} {choice : Nat → Nat} {v x : Nat}
  {done path : List Nat}

def cutAll (c : Component) (done : List Nat) : Component := done.foldl cutFor c.reset

/-- After some cuts all members reach the head, and the head is left. Among the vertices that were
cut for, the routes from a member pass exactly those that its profile lists. -/
structure Connected (c : Component) (done : List Nat) : Prop where
  reaches : ∀ v, c.members.contains v = true →
    ∃ path, Route (c.cutAll done).liveSuccessors c.head v path
  leaves : (c.cutAll done).liveSuccessors c.head ≠ []
  passes : ∀ v path, c.members.contains v = true →
    Route (c.cutAll done).liveSuccessors c.head v path →
    ∀ x, x ∈ ((c.cutAll done).state.profile v).before ↔ x ∈ done ∧ x ∈ path

/-- All members are settled, each exactly once, along live edges and one step farther from the head
than their moves. -/
structure Complete (c t : Component) (order : List Arrival) : Prop where
  settles : (c.cutAll c.above).Settles t order
  once : (order.map Arrival.vertex).Nodup
  covers : ∀ v, v ∈ order.map Arrival.vertex ↔ c.members.contains v = true
  move : ∀ v, c.members.contains v = true →
    t.state.move v ∈ (c.cutAll c.above).liveSuccessors v
  zero : (t.state.profile c.head).distance = 0
  distance : ∀ v, c.members.contains v = true → v ≠ c.head →
    (t.state.profile v).distance = (t.state.profile (t.state.move v)).distance + 1

namespace Cut

theorem exists_route (h : c.Cut g choice s done) (hv : c.members.contains v = true) :
    ∃ path, Route c.liveSuccessors c.head v path := by
  have hreaches := h.flow.reaches v hv
  induction hreaches using ReflTransGen.head_induction_on with
  | refl => exact ⟨[], .arrive⟩
  | @head v w hedge _ ih =>
      by_cases hhead : v = c.head
      · exact ⟨[], hhead ▸ .arrive⟩
      · obtain ⟨path, hpath⟩ := ih (h.flow.inside v w hedge).2
        exact ⟨v :: path, .step hhead hedge hpath⟩

/-- A route meets what it meets from its next vertex on, and its first vertex. -/
theorem mem_before_iff_mem_path (h : c.Cut g choice s done)
    (hroute : Route c.liveSuccessors c.head v path) (hx : x ∈ done) :
    x ∈ (c.state.profile v).before ↔ x ∈ path := by
  induction hroute with
  | arrive => simp [h.flow.starts x hx]
  | @step v w path hne hedge _ ih =>
      rw [h.flow.meets_iff x v w hx hne hedge, ih, List.mem_cons]

theorem mem_before_iff (h : c.Cut g choice s done) (hv : c.members.contains v = true)
    (hroute : Route c.liveSuccessors c.head v path) (x : Nat) :
    x ∈ (c.state.profile v).before ↔ x ∈ done ∧ x ∈ path := by
  have hdone : x ∈ (c.state.profile v).before → x ∈ done := by
    intro hx
    rw [h.listed v hv, List.mem_filter] at hx
    exact hx.1
  constructor
  · intro hx
    exact ⟨hdone hx, (h.mem_before_iff_mem_path hroute (hdone hx)).1 hx⟩
  · rintro ⟨hx, hpath⟩
    exact (h.mem_before_iff_mem_path hroute hx).2 hpath

/-- Without the edges that leave the head no walk is closed, for the greatest vertex of a closed
walk would be the head. -/
theorem acyclic_off_head (h : c.Cut g choice s done)
    (hloops : ∀ u, TransGen (fun a b => b ∈ c.liveSuccessors a ∧ g.rank a ≤ g.rank u) u u →
      u = c.head) (v : Nat) :
    ¬ TransGen (fun a b => b ∈ c.liveSuccessors a ∧ a ≠ c.head) v v := by
  intro hloop
  have hactive : ∀ u, TransGen (fun a b => b ∈ c.liveSuccessors a ∧ a ≠ c.head) u u →
      g.contains u = true := by
    intro u hu
    obtain ⟨w, hfirst, -⟩ := TransGen.head'_iff.1 hu
    exact h.active u (h.flow.inside u w hfirst.1).1
  have hnext : ∀ u, TransGen (fun a b => b ∈ c.liveSuccessors a ∧ a ≠ c.head) u u →
      ∃ w, (w ∈ c.liveSuccessors u ∧ u ≠ c.head) ∧
        TransGen (fun a b => b ∈ c.liveSuccessors a ∧ a ≠ c.head) w w := by
    intro u hu
    obtain ⟨w, hfirst, hback⟩ := TransGen.head'_iff.1 hu
    exact ⟨w, hfirst, TransGen.tail' hback hfirst⟩
  obtain ⟨top, htop, hwalk⟩ := Game.exists_closed_walk h.keeps.coherent hactive hnext hloop
  obtain ⟨w, hfirst, -⟩ := TransGen.head'_iff.1 htop
  exact hfirst.2 (hloops top (TransGen.mono (fun a b hab => ⟨hab.1.1.1, hab.2⟩) _ _ hwalk))

end Cut

section

variable {head : Nat} {members : VertexSet} (hkeeps : s.Keeps g choice)
  (hcloses : Closes g choice head members)

include hkeeps hcloses

theorem cutAll_cut (hdone : done <+: (start s head members).above) :
    ((start s head members).cutAll done).Cut g choice s done ∧
      ((start s head members).cutAll done).head = head ∧
      ((start s head members).cutAll done).members = members := by
  obtain ⟨left, hleft⟩ := hdone
  obtain ⟨hcut, hhead, hmembers, -⟩ := cut_induction hkeeps hcloses (fun _ _ => True) trivial
    (fun _ _ _ _ _ _ _ => trivial) hleft.symm
  exact ⟨hcut, hhead, hmembers⟩

theorem connected_of_prefix (hdone : done <+: (start s head members).above) :
    (start s head members).Connected done := by
  obtain ⟨hcut, hhead, hmembers⟩ := cutAll_cut hkeeps hcloses hdone
  have hroute := fun v => @Cut.exists_route _ s g choice v done hcut
  have hpasses := fun v path => @Cut.mem_before_iff _ s g choice v done path hcut
  obtain ⟨w, hedge, -⟩ := hcut.flow.returns
  rw [hhead] at hroute hpasses hedge
  rw [hmembers] at hroute hpasses
  exact ⟨hroute, List.ne_nil_of_mem hedge, hpasses⟩

theorem winner_head : ((start s head members).state.relevance head).winner =
    Player.ofPriority (g.priorityOf head) :=
  hkeeps.winner_relevance (hcloses.active head hcloses.head_mem)

theorem mem_above_start (x : Nat) : x ∈ (start s head members).above ↔
    members.contains x = true ∧ g.rank head < g.rank x :=
  mem_above hkeeps hcloses.active (hcloses.active head hcloses.head_mem)

/-- All members that are more relevant than the head are cut for. -/
theorem mem_above_iff_cmp (x : Nat) : x ∈ (start s head members).above ↔
    members.contains x = true ∧
      Relevance.cmp ((start s head members).state.relevance x)
        ((start s head members).state.relevance head) = .gt := by
  rw [mem_above_start hkeeps hcloses]
  refine and_congr_right fun hx => ?_
  have hcmp := hkeeps.cmp_relevance (hcloses.active x hx)
    (hcloses.active head hcloses.head_mem)
  rw [← Nat.compare_eq_gt, ← hcmp]
  exact Iff.rfl

/-- After all cuts of an even component only the head closes walks. -/
theorem acyclic_of_even (heven : ((start s head members).state.relevance head).winner = .even)
    (v : Nat) : ¬ TransGen (fun a b => b ∈ ((start s head members).cutAll
      (start s head members).above).liveSuccessors a ∧ a ≠ head) v v := by
  have hmem := mem_above_start hkeeps hcloses
  obtain ⟨hcut, hhead, hmembers⟩ := cutAll_cut hkeeps hcloses (List.prefix_refl _)
  rw [winner_head hkeeps hcloses] at heven
  generalize (start s head members).above = above at hcut hhead hmembers hmem ⊢
  generalize (start s head members).cutAll above = c at hcut hhead hmembers ⊢
  subst hhead hmembers
  exact hcut.acyclic_off_head (fun u hu => hcut.eq_head_of_loop hmem hcloses.loops heven hu) v

/-- After all cuts the head has a move, and the search that fits it settles all members. -/
theorem evaluate_complete :
    (∃ first, ((start s head members).cutAll (start s head members).above).headMove =
      .ok first) ∧
    ∃ t order, (start s head members).evaluate = .ok t ∧
      (start s head members).Complete t order := by
  have hmem := mem_above_start hkeeps hcloses
  obtain ⟨hcut, hhead, hmembers⟩ := cutAll_cut hkeeps hcloses (List.prefix_refl _)
  have hwinner : Player.ofPriority (g.priorityOf
      ((start s head members).cutAll (start s head members).above).head) =
      ((start s head members).state.relevance head).winner := by
    rw [hhead, winner_head hkeeps hcloses]
  obtain ⟨first, hfirst, -⟩ := hcut.headMove_ok
  obtain ⟨t, order, hrun, -, -, htimed, hassigns⟩ :=
    hcut.settles (by rw [hhead, hmembers]; exact hmem)
      (by rw [hhead, hmembers]; exact hcloses.loops)
  have hcovers := hassigns.covers
  have hplaced := htimed.placed
  have hzero := htimed.zero
  unfold Placed at hplaced
  simp only at hplaced hzero
  rw [hmembers] at hcovers hplaced
  rw [hhead] at hplaced hzero
  rw [hwinner] at hrun
  exact ⟨⟨first, hfirst⟩, _, order, (evaluate_eq _).trans hrun, hassigns.settles, hassigns.once,
    hcovers, fun v hv => (hplaced v hv).1, hzero, fun v hv => (hplaced v hv).2⟩

end

end Component

namespace Improvement

variable {s : Improvement} {g : Game} {choice : Nat → Nat}

/-- The components that a valuation evaluates, as they are at the beginning of their evaluation: the
heads before have been tried, and the next one is not skipped. -/
inductive Opens (s : Improvement) : Component → Prop
  | next {done rest : List Nat} {w : Nat} {t : Improvement} {evaluated : VertexSet}
      (hheads : s.heads = done ++ w :: rest)
      (hrun : done.foldlM tryHead (s, VertexSet.empty s.game.vertexCount) = .ok (t, evaluated))
      (hnew : evaluated.contains w = false) (hcycle : t.headsCycle evaluated w = true) :
      Opens s (Component.start t w (t.basin evaluated w fun _ => true))

/-- A component that is evaluated holds no cycle that is better for player odd: its head would have
been tried before. -/
theorem Opens.closes {c : Component} (hc : s.Opens c) (h : s.Keeps g choice) :
    ∃ t w members, c = Component.start t w members ∧ t.Keeps g choice ∧
      Component.Closes g choice w members := by
  cases hc with
  | @next done rest w t evaluated hheads hrun hnew hcycle =>
      obtain ⟨t', evaluated', hrun', hvaluing, -⟩ := h.tries_induction hheads
        (fun _ _ _ => True) trivial (fun _ _ _ _ _ _ => trivial)
        fun _ _ _ _ _ _ _ _ _ _ => trivial
      obtain ⟨rfl, rfl⟩ := Prod.mk.inj (Except.ok.inj (hrun'.symm.trans hrun))
      obtain ⟨hw, -, -, hdone⟩ := h.heads_split hheads
      exact ⟨_, w, _, rfl, hvaluing.keeps, hvaluing.keeps.closes_basin hw hnew hcycle
        fun u hu hlt hleft => hvaluing.idle u (hdone u hu hlt) hleft⟩

/-- Whatever moves player even has, the valuation comes through, and the cuts of a component, one
for every member more relevant than its head, never disconnect it. After all cuts of an even
component the edges that do not leave the head form no cycle. So the head always has a move, no
counter is found empty, and all members are settled. -/
theorem cuts_keep_connected (h : s.Ready) :
    (∃ t, s.valuation = .ok t) ∧ ∀ c, s.Opens c →
      (∀ x, x ∈ c.above ↔ c.members.contains x = true ∧
        Relevance.cmp (c.state.relevance x) (c.state.relevance c.head) = .gt) ∧
      (∀ done, done <+: c.above → c.Connected done) ∧
      ((c.state.relevance c.head).winner = .even → ∀ v, ¬ TransGen (fun a b =>
        b ∈ (c.cutAll c.above).liveSuccessors a ∧ a ≠ c.head) v v) ∧
      (∃ first, (c.cutAll c.above).headMove = .ok first) ∧
      ∃ t order, c.evaluate = .ok t ∧ c.Complete t order ∧
        ((c.state.relevance c.head).winner = .even → (c.cutAll c.above).settleLate = .ok t) ∧
        ((c.state.relevance c.head).winner = .odd → (c.cutAll c.above).settleSoon = .ok t) := by
  obtain ⟨t, hrun, -⟩ := valuation_spec h.keeps h.total
  refine ⟨⟨t, hrun⟩, fun c hc => ?_⟩
  obtain ⟨s', w, members, rfl, hkeeps, hcloses⟩ := hc.closes h.keeps
  obtain ⟨hfirst, t, order, hrun, hcomplete⟩ := Component.evaluate_complete hkeeps hcloses
  refine ⟨Component.mem_above_iff_cmp hkeeps hcloses,
    fun done => Component.connected_of_prefix hkeeps hcloses,
    Component.acyclic_of_even hkeeps hcloses, hfirst, t, order, hrun, hcomplete, fun heven => ?_,
    fun hodd => ?_⟩
  · rw [Component.evaluate_eq, heven] at hrun
    exact hrun
  · rw [Component.evaluate_eq, hodd] at hrun
    exact hrun

/-- In the second round vertex `2` heads an even component with two vertices to cut for. -/
theorem cuts_keep_connected_duel : ∃ g t c, duel.build = .ok g ∧ (start g).valuation = .ok t ∧
    t.improve.1.Ready ∧ t.improve.1.Opens c ∧ c.head = 2 ∧ c.above = [4, 0] ∧ c.Connected [4] ∧
    (∀ v, ¬ TransGen (fun a b => b ∈ (c.cutAll c.above).liveSuccessors a ∧ a ≠ c.head) v v) ∧
    ∃ u order, (c.cutAll c.above).settleLate = .ok u ∧ c.Complete u order := by
  obtain ⟨g, hmade, htotal, -⟩ := duel_total
  have hready := start_ready (.build hmade) htotal
  obtain ⟨t, hrun, -⟩ := valuation_spec hready.keeps hready.total
  have hshape : (duel.build.toOption.any fun g => (start g).valuation.toOption.any fun t =>
      decide (t.improve.1.heads = [3, 1] ++ 2 :: [0, 4]) &&
        ([3, 1].foldlM tryHead (t.improve.1,
          VertexSet.empty t.improve.1.game.vertexCount)).toOption.any fun x =>
            !x.2.contains 2 && x.1.headsCycle x.2 2 &&
              decide ((Component.start x.1 2 (x.1.basin x.2 2 fun _ => true)).above = [4, 0] ∧
                (x.1.relevance 2).winner = .even)) = true := by
    decide +kernel
  simp only [hmade, hrun, Except.toOption, Option.any_some, Bool.and_eq_true,
    decide_eq_true_eq] at hshape
  obtain ⟨hheads, hshape⟩ := hshape
  cases hfold : [3, 1].foldlM tryHead (t.improve.1,
      VertexSet.empty t.improve.1.game.vertexCount) with
  | error cause =>
      rw [hfold] at hshape
      cases hshape
  | ok x =>
      simp only [hfold, Option.any_some, Bool.and_eq_true, Bool.not_eq_true',
        decide_eq_true_eq] at hshape
      obtain ⟨⟨hnew, hcycle⟩, habove, heven⟩ := hshape
      have hopens := Opens.next hheads hfold hnew hcycle
      obtain ⟨-, hprefix, hacyclic, -, u, order, -, hcomplete, hlate, -⟩ :=
        (cuts_keep_connected (hready.improve hrun)).2 _ hopens
      have hfirst : [4] <+: [4, 0] := ⟨[0], rfl⟩
      exact ⟨g, t, _, hmade, hrun, hready.improve hrun, hopens, rfl, habove,
        hprefix [4] (habove ▸ hfirst), hacyclic heven, u, order, hlate heven, hcomplete⟩

end Improvement

end ParityGames
