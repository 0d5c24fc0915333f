import ParityGames.Proofs.Improvement.Surveyed

/-! # The valuation

Heads are tried from the worst for player even on. A vertex that was tried and is not evaluated is
the greatest vertex of no closed walk of vertices that are left, so every component is closed under
what it needs, and in the end no vertex is left.
-/

namespace ParityGames

open Relation

namespace Improvement

variable {s t : Improvement} {g : Game} {choice : Nat → Nat} {evaluated : VertexSet}
  {u v w : Nat}

namespace Keeps

theorem basin_spec (h : s.Keeps g choice) (hw : g.contains w = true) (accept : Nat → Bool) :
    (s.basin evaluated w accept).capacity = g.vertexCount ∧
      ∀ v, (s.basin evaluated w accept).contains v = true ↔
        ReflTransGen (fun a b => g.Arc choice a b ∧ evaluated.contains a = false ∧
          accept a = true) v w := by
  have hsource : ∀ a b, g.contains b = true →
      (a ∈ ((s.predecessors b).filter fun u => !evaluated.contains u && accept u) ↔
        g.Arc choice a b ∧ evaluated.contains a = false ∧ accept a = true) := by
    intro a b hb
    rw [List.mem_filter, h.mem_predecessors hb, Bool.and_eq_true, Bool.not_eq_true']
  have hlt : ∀ v < s.game.vertexCount, ∀ u ∈ (s.predecessors v).filter fun u =>
      !evaluated.contains u && accept u, u < s.game.vertexCount := by
    intro v _ u hu
    have hu := (List.mem_filter.1 (List.mem_filter.1 hu).1).1
    unfold Game.predecessors at hu
    rw [h.game] at hu ⊢
    exact h.coherent.contains_lt (List.mem_filter.1 hu).2
  have hstart : w < s.game.vertexCount := h.game ▸ h.coherent.contains_lt hw
  obtain ⟨hcapacity, hmem⟩ := reach_spec hstart hlt
  refine ⟨hcapacity.trans (by rw [h.game]), fun v => ?_⟩
  refine (hmem v).trans ⟨fun hwalk => ?_, fun hwalk => ?_⟩
  · suffices g.contains v = true ∧ ReflTransGen (fun a b => g.Arc choice a b ∧
        evaluated.contains a = false ∧ accept a = true) v w from this.2
    induction hwalk using ReflTransGen.head_induction_on with
    | refl => exact ⟨hw, ReflTransGen.refl⟩
    | head hedge _ ih =>
        have hstep := (hsource _ _ ih.1).1 hedge
        exact ⟨hstep.1.1, ReflTransGen.head hstep ih.2⟩
  · refine ReflTransGen.mono (fun a b hab => ?_) _ _ hwalk
    exact (hsource a b (Game.contains_of_mem_successors hab.1.2.1)).2 hab

theorem exists_arc (h : s.Keeps g choice) (htotal : g.isTotal = true)
    (hu : g.contains u = true) : ∃ v, g.Arc choice u v := by
  cases howner : g.owner u with
  | even => exact ⟨choice u, hu, h.chosen u hu howner, fun _ => rfl⟩
  | odd =>
      obtain ⟨v, hv⟩ := Game.isTotal_iff.1 htotal u hu
      refine ⟨v, hu, hv, fun heven => ?_⟩
      rw [howner] at heven
      cases heven

/-- Whether the vertex is the greatest of a closed walk of vertices that are left. -/
theorem headsCycle_iff (h : s.Keeps g choice) (hw : g.contains w = true)
    (hnew : evaluated.contains w = false) : s.headsCycle evaluated w = true ↔
      TransGen (fun a b => (g.Arc choice a b ∧ evaluated.contains a = false) ∧
        g.rank a ≤ g.rank w) w w := by
  have hstep : ∀ a b, (g.Arc choice a b ∧ evaluated.contains a = false ∧
      decide (Relevance.cmp (s.relevance a) (s.relevance w) ≠ .gt) = true) ↔
      (g.Arc choice a b ∧ evaluated.contains a = false) ∧ g.rank a ≤ g.rank w := by
    intro a b
    rw [decide_eq_true_eq, and_assoc]
    apply and_congr_right
    intro harc
    rw [h.cmp_relevance_ne_gt harc.1 hw]
  have hbasin := (@basin_spec s g choice evaluated w h hw fun v =>
    Relevance.cmp (s.relevance v) (s.relevance w) ≠ .gt).2
  simp only [hstep] at hbasin
  unfold headsCycle
  rw [List.any_eq_true, TransGen.head'_iff]
  apply exists_congr
  intro v
  rw [h.mem_successors hw, hbasin]
  constructor
  · rintro ⟨harc, hback⟩
    exact ⟨⟨⟨harc, hnew⟩, Nat.le_refl _⟩, hback⟩
  · rintro ⟨⟨⟨harc, -⟩, -⟩, hback⟩
    exact ⟨harc, hback⟩

/-- The vertices that are not evaluated and reach a head make up a component. -/
theorem closes_basin (h : s.Keeps g choice) (hw : g.contains w = true)
    (hnew : evaluated.contains w = false) (hcycle : s.headsCycle evaluated w = true)
    (hidle : ∀ u, g.contains u = true → g.worth u < g.worth w → evaluated.contains u = false →
      ¬ TransGen (fun a b => (g.Arc choice a b ∧ evaluated.contains a = false) ∧
        g.rank a ≤ g.rank u) u u) :
    Component.Closes g choice w (s.basin evaluated w fun _ => true) := by
  have hbasin := (@basin_spec s g choice evaluated w h hw fun _ => true).2
  simp only [and_true] at hbasin
  generalize s.basin evaluated w (fun _ => true) = members at hbasin
  have hin : members.contains w = true := (hbasin w).2 ReflTransGen.refl
  have hmem : ∀ a b, g.Arc choice a b → evaluated.contains a = false →
      members.contains b = true → members.contains a = true := fun a b harc ha hb =>
    (hbasin a).2 (ReflTransGen.head ⟨harc, ha⟩ ((hbasin b).1 hb))
  have hleft : ∀ v, members.contains v = true →
      g.contains v = true ∧ evaluated.contains v = false := by
    intro v hv
    rcases ((hbasin v).1 hv).cases_head with rfl | ⟨x, hedge, -⟩
    · exact ⟨hw, hnew⟩
    · exact ⟨hedge.1.1, hedge.2⟩
  exact {
    active := fun v hv => (hleft v hv).1
    head_mem := hin
    reaches := by
      intro v hv
      have hwalk := (hbasin v).1 hv
      clear hv
      induction hwalk using ReflTransGen.head_induction_on with
      | refl => exact ReflTransGen.refl
      | head hedge hrest ih =>
          have hb := (hbasin _).2 hrest
          exact ReflTransGen.head ⟨hedge.1, hmem _ _ hedge.1 hedge.2 hb, hb⟩ ih
    returns := by
      obtain ⟨v, hfirst, hback⟩ := TransGen.head'_iff.1 ((h.headsCycle_iff hw hnew).1 hcycle)
      suffices members.contains v = true ∧ ReflTransGen (fun a b => (g.Arc choice a b ∧
          members.contains a = true ∧ members.contains b = true) ∧ g.rank a ≤ g.rank w) v w from
        ⟨v, hfirst.1.1, this⟩
      clear hfirst
      induction hback using ReflTransGen.head_induction_on with
      | refl => exact ⟨hin, ReflTransGen.refl⟩
      | head hedge _ ih =>
          have ha := hmem _ _ hedge.1.1 hedge.1.2 ih.1
          exact ⟨ha, ReflTransGen.head ⟨⟨hedge.1.1, ha, ih.1⟩, hedge.2⟩ ih.2⟩
    loops := by
      intro u hu hloop
      by_contra hlt
      apply hidle u (hleft u hu).1 (Int.not_le.1 hlt) (hleft u hu).2
      refine TransGen.mono (fun a b hab => ?_) _ _ hloop
      exact ⟨⟨hab.1.1, (hleft a hab.1.2).2⟩, hab.2⟩ }

end Keeps

/-- What the valuation keeps true, `done` being the heads that were tried. -/
structure Valuing (s : Improvement) (g : Game) (choice : Nat → Nat) (evaluated : VertexSet)
    (done : List Nat) : Prop where
  keeps : s.Keeps g choice
  capacity : evaluated.capacity = g.vertexCount
  active : ∀ v, evaluated.contains v = true → g.contains v = true
  closed : ∀ u v, g.Arc choice u v → evaluated.contains v = true → evaluated.contains u = true
  idle : ∀ u ∈ done, evaluated.contains u = false →
    ¬ TransGen (fun a b => (g.Arc choice a b ∧ evaluated.contains a = false) ∧
      g.rank a ≤ g.rank u) u u
  heads : ∀ v, evaluated.contains v = true → (s.profile v).head ∈ done
  rises : ∀ u v, g.Arc choice u v → evaluated.contains v = true →
    g.worth (s.profile u).head ≤ g.worth (s.profile v).head
  loops : ∀ u, TransGen (fun a b => (g.Arc choice a b ∧ evaluated.contains a = true ∧
      (s.profile a).head = (s.profile u).head) ∧ g.rank a ≤ g.rank u) u u →
    g.worth (s.profile u).head ≤ g.worth u
  stays : ∀ u, evaluated.contains u = true → g.owner u = .even →
    evaluated.contains (choice u) = true ∧ (s.profile (choice u)).head = (s.profile u).head
  surveyed : ∀ v, evaluated.contains v = true →
    ∃ above, s.Surveyed g choice (s.profile v).head
      (fun u => evaluated.contains u = true ∧ (s.profile u).head = (s.profile v).head) above

namespace Valuing

variable {done : List Nat}

theorem skip (h : s.Valuing g choice evaluated done) (hw : g.contains w = true)
    (hskip : evaluated.contains w = true ∨ s.headsCycle evaluated w = false) :
    s.Valuing g choice evaluated (done ++ [w]) :=
  { h with
    idle := by
      intro u hu hleft
      rcases List.mem_append.1 hu with hu | hu
      · exact h.idle u hu hleft
      · rw [List.mem_singleton.1 hu] at hleft ⊢
        rw [← h.keeps.headsCycle_iff hw hleft]
        rcases hskip with hin | hnone
        · rw [hin] at hleft
          cases hleft
        · rw [hnone]
          exact Bool.false_ne_true
    heads := fun v hv => List.mem_append_left _ (h.heads v hv) }

end Valuing

/-- The component of the head `w` is evaluated after the heads in `done`. -/
structure Extends (s t : Improvement) (g : Game) (choice : Nat → Nat) (w : Nat) (done : List Nat)
    (evaluated members all : VertexSet) : Prop where
  valuing : s.Valuing g choice evaluated done
  evaluates : s.Evaluates t g choice w members
  closes : Component.Closes g choice w members
  new : w ∉ done
  capacity : all.capacity = g.vertexCount
  mem_all : ∀ v, all.contains v = true ↔ evaluated.contains v = true ∨ members.contains v = true
  left : ∀ v, members.contains v = true → evaluated.contains v = false
  sources : ∀ u v, g.Arc choice u v → members.contains v = true →
    evaluated.contains u = true ∨ members.contains u = true

namespace Extends

variable {done : List Nat} {members all : VertexSet}

theorem kept (h : s.Extends t g choice w done evaluated members all)
    (hv : evaluated.contains v = true) : t.profile v = s.profile v ∧ t.move v = s.move v := by
  have hout : members.contains v = false := by
    rw [Bool.eq_false_iff]
    intro hin
    rw [h.left v hin] at hv
    cases hv
  exact ⟨h.evaluates.profile v hout, h.evaluates.move v hout⟩

/-- The head of a vertex tells whether it was evaluated before. -/
theorem head_ne (h : s.Extends t g choice w done evaluated members all)
    (hv : evaluated.contains v = true) : (t.profile v).head ≠ w := by
  intro heq
  rw [(h.kept hv).1] at heq
  exact h.new (heq ▸ h.valuing.heads v hv)

theorem closed (h : s.Extends t g choice w done evaluated members all) (harc : g.Arc choice u v)
    (hv : all.contains v = true) : all.contains u = true := by
  rw [h.mem_all] at hv ⊢
  rcases hv with hv | hv
  · exact Or.inl (h.valuing.closed u v harc hv)
  · exact h.sources u v harc hv

theorem idle (h : s.Extends t g choice w done evaluated members all) (hu : u ∈ done ++ [w])
    (hout : all.contains u = false) :
    ¬ TransGen (fun a b => (g.Arc choice a b ∧ all.contains a = false) ∧ g.rank a ≤ g.rank u)
      u u := by
  intro hloop
  have hstill : ∀ v, all.contains v = false → evaluated.contains v = false := by
    intro v hv
    rw [Bool.eq_false_iff] at hv ⊢
    exact fun hin => hv ((h.mem_all v).2 (Or.inl hin))
  rcases List.mem_append.1 hu with hu | hu
  · apply h.valuing.idle u hu (hstill u hout)
    apply TransGen.mono (fun a b hab => ?_) _ _ hloop
    exact ⟨⟨hab.1.1, hstill a hab.1.2⟩, hab.2⟩
  · rw [List.mem_singleton.1 hu, Bool.eq_false_iff] at hout
    exact hout ((h.mem_all w).2 (Or.inr h.closes.head_mem))

theorem heads (h : s.Extends t g choice w done evaluated members all)
    (hv : all.contains v = true) : (t.profile v).head ∈ done ++ [w] := by
  rcases (h.mem_all v).1 hv with hv | hv
  · rw [(h.kept hv).1]
    exact List.mem_append_left _ (h.valuing.heads v hv)
  · rw [h.evaluates.heads v hv]
    exact List.mem_append_right _ (List.mem_singleton.2 rfl)

theorem rises (h : s.Extends t g choice w done evaluated members all)
    (hbefore : ∀ u ∈ done, g.worth u ≤ g.worth w) (harc : g.Arc choice u v)
    (hv : all.contains v = true) : g.worth (t.profile u).head ≤ g.worth (t.profile v).head := by
  rcases (h.mem_all v).1 hv with hv | hv
  · rw [(h.kept hv).1, (h.kept (h.valuing.closed u v harc hv)).1]
    exact h.valuing.rises u v harc hv
  · rw [h.evaluates.heads v hv]
    rcases h.sources u v harc hv with hu | hu
    · rw [(h.kept hu).1]
      exact hbefore _ (h.valuing.heads u hu)
    · rw [h.evaluates.heads u hu]

theorem loops (h : s.Extends t g choice w done evaluated members all)
    (hloop : TransGen (fun a b => (g.Arc choice a b ∧ all.contains a = true ∧
      (t.profile a).head = (t.profile u).head) ∧ g.rank a ≤ g.rank u) u u) :
    g.worth (t.profile u).head ≤ g.worth u := by
  obtain ⟨x, hfirst, -⟩ := TransGen.head'_iff.1 hloop
  rcases (h.mem_all u).1 hfirst.1.2.1 with hu | hu
  · rw [(h.kept hu).1] at hloop ⊢
    apply h.valuing.loops u
    apply TransGen.mono (fun a b hab => ?_) _ _ hloop
    have ha : evaluated.contains a = true := by
      apply ((h.mem_all a).1 hab.1.2.1).resolve_right
      intro ha
      apply h.new
      rw [← h.evaluates.heads a ha, hab.1.2.2]
      exact h.valuing.heads u hu
    have hhead := hab.1.2.2
    rw [(h.kept ha).1] at hhead
    exact ⟨⟨hab.1.1, ha, hhead⟩, hab.2⟩
  · rw [h.evaluates.heads u hu] at hloop ⊢
    apply h.closes.loops u hu
    apply TransGen.mono (fun a b hab => ?_) _ _ hloop
    have ha : members.contains a = true :=
      ((h.mem_all a).1 hab.1.2.1).resolve_left fun ha => h.head_ne ha hab.1.2.2
    exact ⟨⟨hab.1.1, ha⟩, hab.2⟩

theorem stays (h : s.Extends t g choice w done evaluated members all)
    (hu : all.contains u = true) (howner : g.owner u = .even) :
    all.contains (choice u) = true ∧ (t.profile (choice u)).head = (t.profile u).head := by
  rw [h.mem_all]
  rcases (h.mem_all u).1 hu with hu | hu
  · obtain ⟨hin, heq⟩ := h.valuing.stays u hu howner
    rw [(h.kept hin).1, (h.kept hu).1]
    exact ⟨Or.inl hin, heq⟩
  · have hin : members.contains (choice u) = true := by
      rcases (h.closes.reaches u hu).cases_head with rfl | ⟨v, hedge, -⟩
      · obtain ⟨v, harc, hv, -⟩ := h.closes.returns
        rwa [← harc.2.2 howner]
      · rw [← hedge.1.2.2 howner]
        exact hedge.2.2
    rw [h.evaluates.heads _ hin, h.evaluates.heads u hu]
    exact ⟨Or.inr hin, rfl⟩

theorem surveyed (h : s.Extends t g choice w done evaluated members all)
    (hv : all.contains v = true) :
    ∃ above, t.Surveyed g choice (t.profile v).head
      (fun u => all.contains u = true ∧ (t.profile u).head = (t.profile v).head) above := by
  rcases (h.mem_all v).1 hv with hv | hv
  · rw [(h.kept hv).1]
    obtain ⟨above, habove⟩ := h.valuing.surveyed v hv
    refine ⟨above, habove.congr (fun u => ?_) (fun u hu => (h.kept hu.1).1)
      fun u hu => (h.kept hu.1).2⟩
    rw [h.mem_all]
    constructor
    · rintro ⟨hu | hu, heq⟩
      · exact ⟨hu, by rw [← heq, (h.kept hu).1]⟩
      · rw [h.evaluates.heads u hu] at heq
        exact absurd (heq ▸ h.valuing.heads v hv) h.new
    · rintro ⟨hu, heq⟩
      exact ⟨Or.inl hu, by rw [(h.kept hu).1, heq]⟩
  · rw [h.evaluates.heads v hv]
    obtain ⟨above, habove⟩ := h.evaluates.surveyed
    refine ⟨above, habove.congr (fun u => ?_) (fun _ _ => rfl) fun _ _ => rfl⟩
    rw [h.mem_all]
    constructor
    · rintro ⟨hu | hu, heq⟩
      · exact absurd heq (h.head_ne hu)
      · exact hu
    · intro hu
      exact ⟨Or.inr hu, h.evaluates.heads u hu⟩

theorem valuing_next (h : s.Extends t g choice w done evaluated members all)
    (hbefore : ∀ u ∈ done, g.worth u ≤ g.worth w) : t.Valuing g choice all (done ++ [w]) where
  keeps := h.evaluates.keeps
  capacity := h.capacity
  active := by
    intro v hv
    rcases (h.mem_all v).1 hv with hv | hv
    · exact h.valuing.active v hv
    · exact h.closes.active v hv
  closed := fun u v harc hv => h.closed harc hv
  idle := fun u hu hout => h.idle hu hout
  heads := fun v hv => h.heads hv
  rises := fun u v harc hv => h.rises hbefore harc hv
  loops := fun u hloop => h.loops hloop
  stays := fun u hu howner => h.stays hu howner
  surveyed := fun v hv => h.surveyed hv

end Extends

namespace Valuing

variable {done : List Nat}

theorem extends_basin (h : s.Valuing g choice evaluated done) (hw : g.contains w = true)
    (hnot : w ∉ done) (hdone : ∀ u, g.contains u = true → g.worth u < g.worth w → u ∈ done)
    (hnew : evaluated.contains w = false) (hcycle : s.headsCycle evaluated w = true) :
    ∃ c, (Component.start s w (s.basin evaluated w fun _ => true)).evaluate = .ok c ∧
      s.Extends c.state g choice w done evaluated (s.basin evaluated w fun _ => true)
        (evaluated.union (s.basin evaluated w fun _ => true)) := by
  obtain ⟨hcapacity, hmembers⟩ :=
    @Keeps.basin_spec s g choice evaluated w h.keeps hw fun _ => true
  simp only [and_true] at hmembers
  have hcloses := h.keeps.closes_basin hw hnew hcycle fun u hu hlt hleft =>
    h.idle u (hdone u hu hlt) hleft
  obtain ⟨c, hrun, ht⟩ := Component.evaluate_spec h.keeps hcloses
  refine ⟨c, hrun, h, ht, hcloses, hnot, (VertexSet.capacity_union _ _).trans h.capacity,
    fun v => ?_, fun v hv => ?_, fun u v harc hv => ?_⟩
  · rw [VertexSet.contains_union (h.capacity.trans hcapacity.symm), Bool.or_eq_true]
  · rcases ((hmembers v).1 hv).cases_head with rfl | ⟨x, hedge, -⟩
    · exact hnew
    · exact hedge.2
  · by_cases hu : evaluated.contains u = true
    · exact Or.inl hu
    · rw [Bool.not_eq_true] at hu
      exact Or.inr ((hmembers u).2 (ReflTransGen.head ⟨harc, hu⟩ ((hmembers v).1 hv)))

/-- Once all heads were tried, a vertex that is left would start a walk through such vertices, and
the greatest one that it meets infinitely often would have been evaluated. -/
theorem all_evaluated (h : s.Valuing g choice evaluated done) (htotal : g.isTotal = true)
    (hdone : ∀ u, g.contains u = true → u ∈ done) (hv : g.contains v = true) :
    evaluated.contains v = true := by
  by_contra hleft
  rw [Bool.not_eq_true] at hleft
  have hnext : ∀ u, g.contains u = true ∧ evaluated.contains u = false →
      ∃ x, g.Arc choice u x ∧ g.contains x = true ∧ evaluated.contains x = false := by
    intro u hu
    obtain ⟨x, harc⟩ := h.keeps.exists_arc htotal hu.1
    refine ⟨x, harc, Game.contains_of_mem_successors harc.2.1, ?_⟩
    rw [Bool.eq_false_iff]
    intro hx
    have hu' := h.closed u x harc hx
    rw [hu.2] at hu'
    cases hu'
  obtain ⟨top, htop, hloop⟩ := Game.exists_closed_walk h.keeps.coherent
    (fun u hu => hu.1) hnext ⟨hv, hleft⟩
  refine h.idle top (hdone top htop.1) htop.2 (TransGen.mono (fun a b hab => ?_) _ _ hloop)
  exact ⟨⟨hab.1.1, hab.1.2.2⟩, hab.2⟩

end Valuing

structure Valued (s : Improvement) (g : Game) (choice : Nat → Nat) : Prop where
  keeps : s.Keeps g choice
  head_active : ∀ v, g.contains v = true → g.contains (s.profile v).head = true
  rises : ∀ u v, g.Arc choice u v → g.worth (s.profile u).head ≤ g.worth (s.profile v).head
  loops : ∀ u, TransGen (fun a b => (g.Arc choice a b ∧ (s.profile a).head = (s.profile u).head) ∧
    g.rank a ≤ g.rank u) u u → g.worth (s.profile u).head ≤ g.worth u
  stays : ∀ u, g.contains u = true → g.owner u = .even →
    (s.profile (choice u)).head = (s.profile u).head
  surveyed : ∀ v, g.contains v = true →
    ∃ above, s.Surveyed g choice (s.profile v).head
      (fun u => g.contains u = true ∧ (s.profile u).head = (s.profile v).head) above

namespace Valued

theorem move_arc (hs : s.Valued g choice) (hu : g.contains u = true) :
    g.Arc choice u (s.move u) := by
  obtain ⟨above, habove⟩ := hs.surveyed u hu
  exact (habove.moves u ⟨hu, rfl⟩).1

theorem move_active (hs : s.Valued g choice) (hu : g.contains u = true) :
    g.contains (s.move u) = true ∧ (s.profile (s.move u)).head = (s.profile u).head := by
  obtain ⟨above, habove⟩ := hs.surveyed u hu
  exact (habove.moves u ⟨hu, rfl⟩).2

theorem distance_move (hs : s.Valued g choice) (hu : g.contains u = true)
    (hne : (s.profile u).head ≠ u) :
    (s.profile u).distance = (s.profile (s.move u)).distance + 1 := by
  obtain ⟨above, habove⟩ := hs.surveyed u hu
  exact habove.distance u ⟨hu, rfl⟩ hne.symm

end Valued

theorem Keeps.mem_heads (h : s.Keeps g choice) : v ∈ s.heads ↔ g.contains v = true := by
  unfold heads
  rw [Ranking.sortBy_eq_insertionSort, List.mem_insertionSort, h.game, Game.mem_vertices]

theorem Keeps.heads_sorted (h : s.Keeps g choice) :
    s.heads.Pairwise fun u v => g.worth u < g.worth v := by
  have _ := @transCmp_on _ _ Reward.cmp _ s.reward
  have hsorted := Ranking.sortBy_cmp_pairwise
    (fun a b => Reward.cmp (s.reward a) (s.reward b)) s.game.vertices
  have hnodup : s.heads.Nodup := by
    unfold heads
    rw [Ranking.sortBy_eq_insertionSort, (List.perm_insertionSort _ _).nodup_iff]
    exact s.game.active.nodup_toList
  apply (hsorted.and hnodup).imp_of_mem
  intro a b hu hv huv
  have hu := h.mem_heads.1 hu
  have hv := h.mem_heads.1 hv
  have hle := huv.1
  rw [h.cmp_reward hu hv, Int.compare_ne_gt] at hle
  refine Int.lt_iff_le_and_ne.2 ⟨hle, fun heq => huv.2 ?_⟩
  exact Game.worth_inj (h.coherent.contains_lt hu) (h.coherent.contains_lt hv) heq

theorem Keeps.valuing_start (h : s.Keeps g choice) :
    s.Valuing g choice (VertexSet.empty g.vertexCount) [] where
  keeps := h
  capacity := VertexSet.capacity_empty _
  active := by simp
  closed := by simp
  idle := by simp
  heads := by simp
  rises := by simp
  loops := by
    intro u hloop
    obtain ⟨x, hfirst, -⟩ := TransGen.head'_iff.1 hloop
    simp at hfirst
  stays := by simp
  surveyed := by simp

/-- Heads are tried in the order of their worths, the worst first. -/
theorem Keeps.heads_split (h : s.Keeps g choice) {done rest : List Nat}
    (hitems : s.heads = done ++ w :: rest) :
    g.contains w = true ∧ w ∉ done ∧ (∀ u ∈ done, g.worth u ≤ g.worth w) ∧
      ∀ u, g.contains u = true → g.worth u < g.worth w → u ∈ done := by
  have hsorted := h.heads_sorted
  have hmem := fun u => @Keeps.mem_heads s g choice u h
  rw [hitems] at hsorted hmem
  obtain ⟨-, hfrom, hbefore⟩ := List.pairwise_append.1 hsorted
  refine ⟨(hmem w).1 (by simp), fun hw => ?_, fun u hu => ?_, fun u hu hlt => ?_⟩
  · exact Int.lt_irrefl _ (hbefore w hw w List.mem_cons_self)
  · exact Int.le_of_lt (hbefore u hu w List.mem_cons_self)
  · rcases List.mem_append.1 ((hmem u).2 hu) with hu | hu
    · exact hu
    · rcases List.mem_cons.1 hu with rfl | hu
      · exact absurd hlt (Int.lt_irrefl _)
      · have hgt := (List.pairwise_cons.1 hfrom).1 u hu
        omega

theorem tryHead_skip (hskip : evaluated.contains w = true ∨ s.headsCycle evaluated w = false) :
    tryHead (s, evaluated) w = .ok (s, evaluated) := by
  have hcond : (evaluated.contains w || !s.headsCycle evaluated w) = true := by
    simpa using hskip
  unfold tryHead
  simp only [hcond, if_true]
  rfl

theorem tryHead_evaluate {c : Component} (hnew : evaluated.contains w = false)
    (hcycle : s.headsCycle evaluated w = true)
    (hrun : (Component.start s w (s.basin evaluated w fun _ => true)).evaluate = .ok c) :
    tryHead (s, evaluated) w =
      .ok (c.state, evaluated.union (s.basin evaluated w fun _ => true)) := by
  unfold tryHead
  simp only [hnew, hcycle, Bool.not_true, Bool.or_self, Bool.false_eq_true, if_false, hrun, ok_bind]
  rfl

/-- The first heads are tried, with whatever else the evaluations keep true. -/
theorem Keeps.tries_induction (h : s.Keeps g choice) {tried left : List Nat}
    (hheads : s.heads = tried ++ left)
    (motive : List Nat → Improvement → VertexSet → Prop)
    (hstart : motive [] s (VertexSet.empty g.vertexCount))
    (hskip : ∀ done w t evaluated,
      evaluated.contains w = true ∨ t.headsCycle evaluated w = false →
      motive done t evaluated → motive (done ++ [w]) t evaluated)
    (hevaluate : ∀ done w t evaluated c, evaluated.contains w = false →
      t.headsCycle evaluated w = true →
      (Component.start t w (t.basin evaluated w fun _ => true)).evaluate = .ok c →
      t.Extends c.state g choice w done evaluated (t.basin evaluated w fun _ => true)
        (evaluated.union (t.basin evaluated w fun _ => true)) →
      motive done t evaluated → motive (done ++ [w]) c.state
        (evaluated.union (t.basin evaluated w fun _ => true))) :
    ∃ t evaluated, tried.foldlM tryHead (s, VertexSet.empty s.game.vertexCount) =
        .ok (t, evaluated) ∧
      t.Valuing g choice evaluated tried ∧ motive tried t evaluated := by
  have hfold := foldlM_ok tryHead tried (s, VertexSet.empty s.game.vertexCount)
    (fun done x => x.1.Valuing g choice x.2 done ∧ motive done x.1 x.2) (by
      rw [h.game]
      exact ⟨h.valuing_start, hstart⟩) ?_
  · obtain ⟨⟨t, evaluated⟩, hrun, hvaluing, hmotive⟩ := hfold
    exact ⟨t, evaluated, hrun, hvaluing, hmotive⟩
  · rintro done w rest ⟨t, evaluated⟩ hitems ⟨hvaluing, hmotive⟩
    have hvaluing : t.Valuing g choice evaluated done := hvaluing
    rw [hitems, List.append_assoc, List.cons_append] at hheads
    obtain ⟨hw, hnot, hbefore, hdone⟩ := h.heads_split hheads
    by_cases hidle : evaluated.contains w = true ∨ t.headsCycle evaluated w = false
    · exact ⟨_, tryHead_skip hidle, hvaluing.skip hw hidle, hskip done w t evaluated hidle hmotive⟩
    · obtain ⟨hnew, hcycle⟩ := not_or.1 hidle
      rw [Bool.not_eq_true] at hnew
      rw [Bool.not_eq_false] at hcycle
      obtain ⟨c, hrun, hextends⟩ := hvaluing.extends_basin hw hnot hdone hnew hcycle
      exact ⟨_, tryHead_evaluate hnew hcycle hrun, hextends.valuing_next hbefore,
        hevaluate done w t evaluated c hnew hcycle hrun hextends hmotive⟩

theorem valuation_induction (h : s.Keeps g choice)
    (motive : List Nat → Improvement → VertexSet → Prop)
    (hstart : motive [] s (VertexSet.empty g.vertexCount))
    (hskip : ∀ done w t evaluated,
      evaluated.contains w = true ∨ t.headsCycle evaluated w = false →
      motive done t evaluated → motive (done ++ [w]) t evaluated)
    (hevaluate : ∀ done w t evaluated c, evaluated.contains w = false →
      t.headsCycle evaluated w = true →
      (Component.start t w (t.basin evaluated w fun _ => true)).evaluate = .ok c →
      t.Extends c.state g choice w done evaluated (t.basin evaluated w fun _ => true)
        (evaluated.union (t.basin evaluated w fun _ => true)) →
      motive done t evaluated → motive (done ++ [w]) c.state
        (evaluated.union (t.basin evaluated w fun _ => true))) :
    ∃ t evaluated, s.valuation = .ok t ∧ t.Valuing g choice evaluated s.heads ∧
      motive s.heads t evaluated := by
  obtain ⟨t, evaluated, hrun, hvaluing, hmotive⟩ := h.tries_induction
    (List.append_nil s.heads).symm motive hstart hskip hevaluate
  refine ⟨t, evaluated, ?_, hvaluing, hmotive⟩
  unfold valuation
  rw [hrun]
  rfl

theorem Valuing.valued (ht : t.Valuing g choice evaluated s.heads) (h : s.Keeps g choice)
    (htotal : g.isTotal = true) :
    (∀ v, evaluated.contains v = true ↔ g.contains v = true) ∧ t.Valued g choice := by
  have hall : ∀ v, g.contains v = true → evaluated.contains v = true := fun v hv =>
    ht.all_evaluated htotal (fun u hu => h.mem_heads.2 hu) hv
  have hiff : ∀ v, evaluated.contains v = true ↔ g.contains v = true := fun v =>
    ⟨ht.active v, hall v⟩
  have hsurveyed := ht.surveyed
  have hloops := ht.loops
  simp only [hiff] at hsurveyed hloops
  exact ⟨hiff, {
    keeps := ht.keeps
    head_active := fun v hv => h.mem_heads.1 (ht.heads v (hall v hv))
    rises := fun u v harc =>
      ht.rises u v harc (hall v (Game.contains_of_mem_successors harc.2.1))
    loops := by
      intro u hloop
      refine hloops u (TransGen.mono (fun a b hab => ?_) _ _ hloop)
      exact ⟨⟨hab.1.1, hab.1.1.1, hab.1.2⟩, hab.2⟩
    stays := fun u hu howner => (ht.stays u (hall u hu) howner).2
    surveyed := hsurveyed }⟩

/-- The valuation comes through, and values every active vertex. -/
theorem valuation_spec (h : s.Keeps g choice) (htotal : g.isTotal = true) :
    ∃ t, s.valuation = .ok t ∧ t.Valued g choice := by
  obtain ⟨t, evaluated, hrun, hvaluing, -⟩ := valuation_induction h (fun _ _ _ => True)
    trivial (fun _ _ _ _ _ _ => trivial) fun _ _ _ _ _ _ _ _ _ _ => trivial
  exact ⟨t, hrun, (hvaluing.valued h htotal).2⟩

end Improvement

end ParityGames
