import ParityGames.Proofs.Promotion.Orderly

/-! # The steps of the search

Every step comes through. It goes down to a lower region or promotes the region that it has grown,
and the regions are in order again; or the region is a dominion.
-/

namespace ParityGames

namespace Promotion

variable {g h : Game} {s : State} {z : Territory}

namespace Grown

theorem descend (hz : Grown g s h z) (hg : g.Coherent) (hs : s.Orderly g) {next : Nat}
    (hnext : nextPriority? h z.region = some next) :
    State.Orderly { s.enter z with priority := next } g := by
  obtain ⟨⟨u, hu, huout, hupriority⟩, hmax⟩ := nextPriority?_eq_some hnext
  simp only [hz.partOf.priorityOf] at hupriority hmax
  obtain ⟨hufree, hult⟩ := hz.free hs hu huout
  have hlt : next < s.priority := by omega
  exact {
    labels_length := (VertexTable.length_foldl_put _ (fun _ => some s.priority) _).trans
      hs.labels_length
    moves_length := (VertexTable.length_foldl_entries _ _).trans hs.moves_length
    low := by
      intro v hv hfree
      have hnone : (s.enter z).label v = none := hfree
      obtain ⟨hin, hout⟩ := hz.rest_of_low hg hs hv fun q hq => by
        rw [hnone] at hq
        cases hq
      exact hmax v hin hout
    owned := fun v w hmove => hz.owned_enter hg hs hmove
    at_least := fun v r hv => Nat.le_trans (Nat.le_of_lt hlt) (hz.at_least_enter hg hs hv)
    used := by
      intro v r hv
      have hv' : (s.enter z).label v = some r := hv
      rw [hz.label_enter hg hs] at hv'
      split at hv'
      · exact Option.some.inj hv' ▸ hs.exists_priority
      · exact hs.used v r hv'
    quasi := hz.quasi_enter hg hs
    guarded := fun r _ v w hv hlow howner hw => hz.guarded_enter hg hs hv hlow howner hw
    total := fun r _ v hv hbelow => hz.total_enter hg hs hv hbelow
    target := by
      refine ⟨u, ((hz.contains u).1 hu).1, Or.inr ⟨?_, hupriority⟩⟩
      have hnone := hz.label_enter hg hs u
      rw [if_neg (by simp [huout]), hufree] at hnone
      exact hnone }

end Grown

/-- The region is held in the part in which it was grown, and `t` has all the moves for it. -/
structure Held (g : Game) (s : State) (z : Territory) (t : State) : Prop where
  labels : t.labels = (s.enter z).labels
  moves_length : t.moves.length = g.vertexCount
  kept : ∀ v, z.region.contains v = false → t.move v = (s.enter z).move v
  owned : ∀ v w, t.move v = some w → z.region.contains v = true →
    g.owner v = Player.ofPriority s.priority
  quasi : g.QuasiDominion (Player.ofPriority s.priority) s.priority z.area (s.above s.priority)
    t.move
  own : ∀ v ∈ z.area, g.owner v = Player.ofPriority s.priority →
    ∃ w ∈ z.area, t.move v = some w ∧ w ∈ g.successors v
  other : ∀ v ∈ z.area, g.owner v ≠ Player.ofPriority s.priority → ∀ w ∈ g.successors v,
    w ∈ z.area ∨ w ∈ s.above s.priority

namespace Grown

theorem held (hz : Grown g s h z) (hg : g.Coherent) (hs : s.Orderly g)
    (hopen : isOpen g h (Player.ofPriority s.priority) z.region = false)
    (hleaky : isLeaky g h (Player.ofPriority s.priority) z.region = false) :
    Held g s z ((s.enter z).complete g h (Player.ofPriority s.priority) z.region) := by
  have hquasi := hz.quasi hg hs
  have hlength : (s.enter z).moves.length = g.vertexCount :=
    (VertexTable.length_foldl_entries _ _).trans hs.moves_length
  obtain ⟨hlength', hmove⟩ := State.complete_spec (h := h)
    (p := Player.ofPriority s.priority) hlength
    (fun v hv => hg.contains_lt (hz.active hv).1) fun v w hv howner hw => by
      rcases hquasi.own v hv howner with ⟨x, hx, hx', -⟩ | ⟨hnone, -⟩
      · rw [hw] at hx'
        exact Option.some.inj hx' ▸ hx
      · rw [hw] at hnone
        cases hnone
  -- The region is not open, so a move that stays in it can be found where there is none.
  have hown : ∀ v ∈ z.area, g.owner v = Player.ofPriority s.priority → (s.enter z).move v = none →
      ∃ w ∈ z.area, ((s.enter z).complete g h (Player.ofPriority s.priority) z.region).move v =
        some w ∧ w ∈ g.successors v := by
    intro v hv howner hnone
    obtain ⟨x, hx, hxz⟩ := isOpen_eq_false.1 hopen v hv howner
    obtain ⟨w, hw⟩ := Option.isSome_iff_exists.1 (List.find?_isSome.2 ⟨x, hx, hxz⟩)
    have hwz := List.find?_some hw
    have hedge := List.mem_of_find?_eq_some hw
    refine ⟨w, hwz, ?_, ((hz.partOf.mem_successors (hz.active hwz).1).1 hedge).1⟩
    rw [hmove, if_pos ⟨hv, howner⟩, hnone, hw]
    rfl
  have hcomplete := hquasi.complete (fun v _ w hw => ?_) hown
  · refine {
      labels := rfl
      moves_length := hlength'
      kept := fun v hv => by simp [hmove, hv]
      owned := fun v w hw hv => ?_
      quasi := hcomplete
      own := fun v hv howner => ?_
      other := fun v hv howner w hw => ?_ }
    · by_contra howner
      rw [hmove, if_neg fun hboth => howner hboth.2] at hw
      obtain ⟨r, hlabel, hr⟩ := hz.owned_enter hg hs hw
      rw [hz.label_enter hg hs, if_pos hv] at hlabel
      exact howner (hr.trans (congrArg Player.ofPriority (Option.some.inj hlabel).symm))
    · rcases hcomplete.own v hv howner with hkeep | ⟨hnone, -⟩
      · exact hkeep
      · cases hold : (s.enter z).move v with
        | none => exact hown v hv howner hold
        | some w =>
            rw [hmove, if_pos ⟨hv, howner⟩, hold] at hnone
            cases hnone
    · by_cases habove : w ∈ s.above s.priority
      · exact Or.inr habove
      · have hactive := Game.contains_of_mem_successors hw
        have hedge := (hz.partOf.mem_successors hactive).2 ⟨hw, (hz.contains w).2 ⟨hactive, habove⟩⟩
        exact Or.inl (isLeaky_eq_false.1 hleaky v hv howner w hedge)
  · rw [hmove, hw]
    split <;> rfl

end Grown

namespace Held

variable {t : State}

theorem label_eq (ht : Held g s z t) (v : Nat) : t.label v = (s.enter z).label v := by
  rw [State.label, ht.labels]
  rfl

/-- Without an escape the region is a dominion. -/
theorem closed (ht : Held g s z t) (hz : Grown g s h z) (hg : g.Coherent) (hs : s.Orderly g)
    (hescape : escape? t g (Player.ofPriority s.priority) z.region = none) :
    (t.territory g (Player.ofPriority s.priority) z.region).Holds g
      (Player.ofPriority s.priority) := by
  have hget : ∀ v, (t.territory g (Player.ofPriority s.priority) z.region).moves.get? v =
      if z.region.contains v = true ∧ g.owner v = Player.ofPriority s.priority then t.move v
      else none := State.get?_territory
  have hother : ∀ v ∈ z.area, g.owner v ≠ Player.ofPriority s.priority → ∀ w ∈ g.successors v,
      w ∈ z.area := by
    intro v hv howner w hw
    by_contra hout
    rcases ht.other v hv howner w hw with hin | ⟨r, hr, hlabel⟩
    · exact hout hin
    · have hnone := escape?_eq_none hescape hv howner hw (by simpa [Territory.mem_area] using hout)
      rw [ht.label_eq, (hz.label_above hg hs hr w).2 hlabel] at hnone
      cases hnone
  refine ⟨hz.attractor.capacity.trans hz.partOf.vertexCount,
    (ht.quasi.dominion ht.own hother).congr fun v hv howner => ?_, fun v => ?_⟩
  · rw [hget, if_pos ⟨hv, howner⟩]
  · rw [hget]
    constructor
    · rintro ⟨w, hw⟩
      split at hw
      · assumption
      · cases hw
    · intro hboth
      obtain ⟨w, -, hmove, -⟩ := ht.own v hboth.1 hboth.2
      exact ⟨w, (if_pos hboth).trans hmove⟩

/-- The opponent can escape only to regions above, and these belong to the same player. -/
theorem escape_above (ht : Held g s z t) (hz : Grown g s h z) (hg : g.Coherent) (hs : s.Orderly g)
    {v w r : Nat} (hv : z.region.contains v = true)
    (howner : g.owner v ≠ Player.ofPriority s.priority) (hw : w ∈ g.successors v)
    (hout : z.region.contains w = false) (hlabel : t.label w = some r) :
    s.priority < r ∧ s.label w = some r ∧ Player.ofPriority r = Player.ofPriority s.priority := by
  obtain ⟨q, hq, hlabel'⟩ := (ht.other v hv howner w hw).resolve_left (by
    simp [Territory.mem_area, hout])
  rw [ht.label_eq, (hz.label_above hg hs hq w).2 hlabel'] at hlabel
  obtain rfl := Option.some.inj hlabel
  refine ⟨hq, hlabel', ?_⟩
  by_contra hne
  refine hs.guarded q hq v w (hz.active hv).1 (fun r hr => ?_) ?_ hw hlabel'
  · rcases hz.label_cases hs hv with hfree | hsame
    · rw [hfree] at hr
      cases hr
    · rw [hsame] at hr
      exact Option.some.inj hr ▸ hq
  · rw [Player.eq_opponent_of_ne howner, Player.eq_opponent_of_ne hne]

theorem label_promote (ht : Held g s z t) (hz : Grown g s h z) (hg : g.Coherent)
    (hs : s.Orderly g) {target : Nat} (htarget : s.priority < target) (v r : Nat) :
    (t.promote g z.region target).label v = some r ↔
      z.region.contains v = true ∧ r = target ∨ target ≤ r ∧ s.label v = some r := by
  have hlength : t.labels.length = g.vertexCount := by
    rw [ht.labels]
    exact (VertexTable.length_foldl_put _ (fun _ => some s.priority) _).trans hs.labels_length
  rw [State.label_promote hlength (fun v hv => hg.contains_lt (hz.active hv).1)
    (fun v hv => hg.contains_lt hv)]
  by_cases hv : z.region.contains v = true
  · have hlow : ¬ (target ≤ r ∧ s.label v = some r) := fun hlabel =>
      (hz.active hv).2 ⟨r, by omega, hlabel.2⟩
    simp only [hv, if_true, true_and, hlow, or_false, Option.some.injEq]
    exact eq_comm
  · have hlabel : t.label v = s.label v := by rw [ht.label_eq, hz.label_enter hg hs, if_neg hv]
    rw [if_neg hv]
    by_cases hin : v ∈ t.dissolved g z.region target
    · obtain ⟨-, -, q, hq, hlabelq⟩ := State.mem_dissolved.1 hin
      rw [if_pos hin]
      rw [hlabel] at hlabelq
      simp only [hv, Bool.false_eq_true, false_and, false_or, hlabelq, Option.some.injEq,
        reduceCtorEq, false_iff]
      omega
    · rw [if_neg hin, hlabel]
      simp only [hv, Bool.false_eq_true, false_and, false_or]
      refine ⟨fun hr => ⟨?_, hr⟩, fun hr => hr.2⟩
      by_contra hlt
      exact hin (State.mem_dissolved.2
        ⟨hs.active hr, by simpa using hv, r, by omega, hlabel.trans hr⟩)

theorem move_promote (ht : Held g s z t) (hz : Grown g s h z) (hg : g.Coherent)
    (hs : s.Orderly g) {target : Nat} (htarget : s.priority < target) {v r : Nat}
    (hv : (t.promote g z.region target).label v = some r) :
    (t.promote g z.region target).move v = t.move v := by
  rw [State.move_promote ht.moves_length fun v hv => hg.contains_lt hv, if_neg]
  intro hin
  obtain ⟨-, hout, q, hq, hlabelq⟩ := State.mem_dissolved.1 hin
  rcases (ht.label_promote hz hg hs htarget v r).1 hv with ⟨hvz, -⟩ | ⟨hle, hlabel⟩
  · rw [hvz] at hout
    cases hout
  · rw [ht.label_eq, hz.label_enter hg hs, if_neg (by simp [hout]), hlabel] at hlabelq
    obtain rfl := Option.some.inj hlabelq
    omega

theorem region_promote (ht : Held g s z t) (hz : Grown g s h z) (hg : g.Coherent)
    (hs : s.Orderly g) {target r : Nat} (htarget : s.priority < target) (hr : target < r) :
    (t.promote g z.region target).region r = s.region r := by
  ext v
  rw [State.mem_region, ht.label_promote hz hg hs htarget]
  constructor
  · rintro (⟨-, rfl⟩ | ⟨-, hv⟩)
    · omega
    · exact hv
  · exact fun hv => Or.inr ⟨Nat.le_of_lt hr, hv⟩

theorem above_promote (ht : Held g s z t) (hz : Grown g s h z) (hg : g.Coherent)
    (hs : s.Orderly g) {target r : Nat} (htarget : s.priority < target) (hr : target ≤ r) :
    (t.promote g z.region target).above r = s.above r := by
  ext v
  refine exists_congr fun q => and_congr_right fun hq => ?_
  exact Set.ext_iff.1 (ht.region_promote hz hg hs htarget (Nat.lt_of_le_of_lt hr hq)) v

theorem region_promote_self (ht : Held g s z t) (hz : Grown g s h z) (hg : g.Coherent)
    (hs : s.Orderly g) {target : Nat} (htarget : s.priority < target) :
    (t.promote g z.region target).region target = s.region target ∪ z.area := by
  ext v
  rw [State.mem_region, ht.label_promote hz hg hs htarget, Set.mem_union, State.mem_region,
    Territory.mem_area]
  constructor
  · rintro (⟨hv, -⟩ | ⟨-, hv⟩)
    · exact Or.inr hv
    · exact Or.inl hv
  · intro hv
    rcases hv with hv | hv
    · exact Or.inr ⟨Nat.le_refl target, hv⟩
    · exact Or.inl ⟨hv, rfl⟩

theorem quasi_above (ht : Held g s z t) (hz : Grown g s h z) (hg : g.Coherent) (hs : s.Orderly g)
    {r : Nat} (hr : s.priority < r) :
    g.QuasiDominion (Player.ofPriority r) r (s.region r) (s.above r) t.move := by
  refine (hz.quasi_above hg hs hr).congr fun v hv => ht.kept v ?_
  by_contra hin
  exact (hz.active (by simpa using hin)).2 ⟨r, hr, hv⟩

/-- The lowest escape and the region make up a quasi-dominion. -/
theorem quasi_escape (ht : Held g s z t) (hz : Grown g s h z) (hg : g.Coherent) (hs : s.Orderly g)
    {target : Nat} (hescape : escape? t g (Player.ofPriority s.priority) z.region = some target) :
    g.QuasiDominion (Player.ofPriority target) target (s.region target ∪ z.area) (s.above target)
      t.move := by
  obtain ⟨⟨x, y, hx, hxowner, hy, hyout, hylabel⟩, hmin⟩ := escape?_eq_some hescape
  obtain ⟨hlt, -, hparity⟩ := ht.escape_above hz hg hs hx hxowner hy hyout hylabel
  apply (ht.quasi_above hz hg hs hlt).unite rfl (hparity ▸ ht.quasi) (Nat.le_of_lt hlt)
  · rintro v (hv | hv) ⟨q, hq, hlabelq⟩
    · rw [State.mem_region.1 hv] at hlabelq
      obtain rfl := Option.some.inj hlabelq
      omega
    · exact (hz.active hv).2 ⟨q, by omega, hlabelq⟩
  · intro v hv howner
    exact ht.own v hv (howner.trans hparity)
  · intro v hv howner w hw
    rw [hparity] at howner
    by_cases hwz : z.region.contains w = true
    · exact Or.inl hwz
    · obtain ⟨q, hq, hlabelq⟩ := (ht.other v hv howner w hw).resolve_left hwz
      have hle := hmin v w q hv howner hw (by simpa using hwz)
        ((ht.label_eq w).trans ((hz.label_above hg hs hq w).2 hlabelq))
      rcases Nat.lt_or_eq_of_le hle with hlt' | rfl
      · exact Or.inr (Or.inr ⟨q, hlt', hlabelq⟩)
      · exact Or.inr (Or.inl hlabelq)

theorem quasi_promote (ht : Held g s z t) (hz : Grown g s h z) (hg : g.Coherent)
    (hs : s.Orderly g) {target : Nat} (htarget : s.priority < target)
    (hescape : escape? t g (Player.ofPriority s.priority) z.region = some target) (r : Nat) :
    g.QuasiDominion (Player.ofPriority r) r ((t.promote g z.region target).region r)
      ((t.promote g z.region target).above r) (t.promote g z.region target).move := by
  rcases Nat.lt_or_ge r target with hr | hr
  · refine State.quasi_of_lt (fun v q hq => ?_) hr
    rcases (ht.label_promote hz hg hs htarget v q).1 hq with ⟨-, rfl⟩ | ⟨hle, -⟩
    · exact Nat.le_refl q
    · exact hle
  · refine Game.QuasiDominion.congr ?_ fun v hv => ht.move_promote hz hg hs htarget hv
    rw [ht.above_promote hz hg hs htarget hr]
    rcases Nat.lt_or_eq_of_le hr with hr | rfl
    · rw [ht.region_promote hz hg hs htarget hr]
      exact ht.quasi_above hz hg hs (by omega)
    · rw [ht.region_promote_self hz hg hs htarget]
      exact ht.quasi_escape hz hg hs hescape

/-- The moves that are left after a promotion belong to the player of the region. -/
theorem owned_promote (ht : Held g s z t) (hz : Grown g s h z) (hg : g.Coherent)
    (hs : s.Orderly g) {target v w : Nat} (htarget : s.priority < target)
    (hparity : Player.ofPriority target = Player.ofPriority s.priority)
    (hw : (t.promote g z.region target).move v = some w) :
    ∃ r, (t.promote g z.region target).label v = some r ∧ g.owner v = Player.ofPriority r := by
  have hlabel := ht.label_promote hz hg hs htarget v
  rw [State.move_promote ht.moves_length fun v hv => hg.contains_lt hv] at hw
  split at hw
  · cases hw
  · rename_i hnot
    by_cases hv : z.region.contains v = true
    · have howner := ht.owned v w hw hv
      exact ⟨target, (hlabel target).2 (Or.inl ⟨hv, rfl⟩), howner.trans hparity.symm⟩
    · rw [ht.kept v (by simpa using hv)] at hw
      obtain ⟨r, hr, howner⟩ := hz.owned_enter hg hs hw
      have hr' : s.label v = some r := by rwa [hz.label_enter hg hs, if_neg hv] at hr
      refine ⟨r, (hlabel r).2 (Or.inr ⟨?_, hr'⟩), howner⟩
      by_contra hlow
      exact hnot (State.mem_dissolved.2
        ⟨hs.active hr', by simpa using hv, r, by omega, (ht.label_eq v).trans hr⟩)

/-- The regions are in order after a promotion to the lowest escape. -/
theorem promote (ht : Held g s z t) (hz : Grown g s h z) (hg : g.Coherent) (hs : s.Orderly g)
    {target : Nat} (hescape : escape? t g (Player.ofPriority s.priority) z.region = some target) :
    (t.promote g z.region target).Orderly g := by
  obtain ⟨⟨x, y, hx, hxowner, hy, hyout, hylabel⟩, -⟩ := escape?_eq_some hescape
  obtain ⟨hlt, hylabel', hparity⟩ := ht.escape_above hz hg hs hx hxowner hy hyout hylabel
  have hlabel := ht.label_promote hz hg hs hlt
  -- Above the target nothing changes, so what holds there is taken over.
  have hregion : ∀ {q}, target < q → ∀ v,
      (t.promote g z.region target).label v = some q ↔ s.label v = some q := fun hq v =>
    Set.ext_iff.1 (ht.region_promote hz hg hs hlt hq) v
  exact {
    labels_length := by
      rw [State.length_promote.1, ht.labels]
      exact (VertexTable.length_foldl_put _ (fun _ => some s.priority) _).trans hs.labels_length
    moves_length := State.length_promote.2.trans ht.moves_length
    low := by
      intro v hv hfree
      show g.priorityOf v ≤ target
      cases hlabelv : s.label v with
      | none => exact Nat.le_trans (hs.low v hv hlabelv) (Nat.le_of_lt hlt)
      | some r =>
          have hle := (hs.quasi r).low v hlabelv
          by_contra hhigh
          rw [(hlabel v r).2 (Or.inr ⟨by omega, hlabelv⟩)] at hfree
          cases hfree
    owned := fun v w hw => ht.owned_promote hz hg hs hlt hparity hw
    at_least := by
      intro v r hv
      show target ≤ r
      rcases (hlabel v r).1 hv with ⟨-, rfl⟩ | ⟨hle, -⟩
      · exact Nat.le_refl r
      · exact hle
    used := by
      intro v r hv
      rcases (hlabel v r).1 hv with ⟨-, rfl⟩ | ⟨-, hlabelv⟩
      · exact hs.used y r hylabel'
      · exact hs.used v r hlabelv
    quasi := ht.quasi_promote hz hg hs hlt hescape
    guarded := by
      intro r hr v w hv hlow howner hw hlabelw
      have hr' : target < r := hr
      refine hs.guarded r (by omega) v w hv (fun q hq => ?_) howner hw
        ((hregion hr' w).1 hlabelw)
      by_cases hqt : target < q
      · exact hlow q ((hregion hqt v).2 hq)
      · omega
    total := by
      intro r hr v hv hbelow
      have hr' : target ≤ r := hr
      rw [ht.above_promote hz hg hs hlt hr'] at hbelow ⊢
      exact hs.total r (by omega) v hv hbelow
    target := ⟨x, (hz.active hx).1, Or.inl ((hlabel x target).2 (Or.inl ⟨hx, rfl⟩))⟩ }

end Held

end Promotion

end ParityGames
