import ParityGames.Attractor
import ParityGames.Proofs.Play.Dominion
import Mathlib.Data.Set.Insert

/-! # The backward search of attractors

The search knows of every edge into the region whether it was met. A vertex outside of the region
waits: one of the player has no edge that was met, one of the opponent has at least one that was
not, and their number is the one that is counted down. Vertices join one after the other, and the
order in which they join is the rank that falls along the moves.
-/

namespace ParityGames

/-- A vertex can be put on top of an attracting region if its edges lead into it. -/
theorem Game.Attracts.insert {g : Game} {p : Player} {target region : Set Nat}
    {move move' : Nat → Option Nat} {rank : Nat → Nat} {u bound : Nat}
    (h : g.Attracts p target region move rank) (hu : g.contains u = true) (hout : u ∉ region)
    (hmove : ∀ v, v ≠ u → move' v = move v) (hbound : ∀ v ∈ region, rank v ≤ bound)
    (hown : g.owner u = p → ∃ w ∈ region, move' u = some w ∧ w ∈ g.successors u)
    (hother : g.owner u ≠ p → ∀ w ∈ g.successors u, w ∈ region) :
    g.Attracts p target (Insert.insert u region) move'
      fun v => if v = u then bound + 1 else rank v := by
  have hold : ∀ v ∈ region, v ≠ u := by
    rintro v hv rfl
    exact hout hv
  exact {
    subset := fun v hv => Set.mem_insert_of_mem u (h.subset hv)
    active := by
      intro v hv
      rcases hv with rfl | hv
      · exact hu
      · exact h.active v hv
    own := by
      intro v hv ht howner
      rcases hv with rfl | hv
      · obtain ⟨w, hw, hmove', hedge⟩ := hown howner
        have hle := hbound w hw
        refine ⟨w, Set.mem_insert_of_mem v hw, hmove', hedge, ?_⟩
        simp only [if_true, if_neg (hold w hw)]
        omega
      · obtain ⟨w, hw, hmove', hedge, hlt⟩ := h.own v hv ht howner
        refine ⟨w, Set.mem_insert_of_mem u hw, (hmove v (hold v hv)).trans hmove', hedge, ?_⟩
        simp only [if_neg (hold v hv), if_neg (hold w hw)]
        exact hlt
    other := by
      intro v hv ht howner w hedge
      rcases hv with rfl | hv
      · have hw := hother howner w hedge
        have hle := hbound w hw
        refine ⟨Set.mem_insert_of_mem v hw, ?_⟩
        simp only [if_true, if_neg (hold w hw)]
        omega
      · obtain ⟨hw, hlt⟩ := h.other v hv ht howner w hedge
        refine ⟨Set.mem_insert_of_mem u hw, ?_⟩
        simp only [if_neg (hold v hv), if_neg (hold w hw)]
        exact hlt }

namespace Attractor

variable {g : Game} {p : Player} {target : Set Nat} {size : Nat}

def State.area (s : State) : Set Nat := {v | s.region.contains v = true}

/-- What the search keeps true. `done` are the vertices of the region that are no longer pending,
`met` the edges that were looked at, and `size` is the number of targets. -/
structure Invariant (g : Game) (p : Player) (target : Set Nat) (size : Nat) (done : List Nat)
    (met : Nat → Nat → Bool) (s : State) : Prop where
  capacity : s.region.capacity = g.vertexCount
  length : s.unmet.length = g.vertexCount
  listed : ∀ v, s.region.contains v = true ↔ v ∈ done ∨ v ∈ s.pending
  nodup : (done ++ s.pending).Nodup
  attracts : ∃ rank, g.Attracts p target s.area s.moves.get? rank ∧
    ∀ v, s.region.contains v = true → rank v + size ≤ s.region.size
  size_le : size ≤ s.region.size
  hasMove : ∀ v, (∃ w, s.moves.get? v = some w) ↔
    s.region.contains v = true ∧ v ∉ target ∧ g.owner v = p
  met_region : ∀ u w, met u w = true → s.region.contains w = true
  waits_own : ∀ u, g.contains u = true → s.region.contains u = false → g.owner u = p →
    ∀ w ∈ g.successors u, met u w = false
  waits_other : ∀ u, g.contains u = true → s.region.contains u = false → g.owner u ≠ p →
    (s.unmet.getD u none).getD (g.successors u).length =
        (g.successors u).countP (fun w => !met u w) ∧
      (g.successors u ≠ [] → 0 < (g.successors u).countP fun w => !met u w)

/-- A vertex joins whose edges lead into the region. -/
structure Joins (g : Game) (p : Player) (u : Nat) (s t : State) : Prop where
  active : g.contains u = true
  out : s.region.contains u = false
  region : t.region = s.region.insert u
  pending : t.pending = u :: s.pending
  moves : ∀ v, v ≠ u → t.moves.get? v = s.moves.get? v
  length : t.unmet.length = s.unmet.length
  unmet : ∀ v, v ≠ u → t.unmet.getD v none = s.unmet.getD v none
  own : g.owner u = p → ∃ w, t.moves.get? u = some w ∧ w ∈ g.successors u ∧
    s.region.contains w = true
  other : g.owner u ≠ p → t.moves.get? u = none ∧
    ∀ w ∈ g.successors u, s.region.contains w = true

variable {done : List Nat} {met : Nat → Nat → Bool} {s t : State} {u : Nat}

namespace Invariant

theorem active (h : Invariant g p target size done met s) {v : Nat}
    (hv : s.region.contains v = true) : g.contains v = true := by
  obtain ⟨rank, hrank, -⟩ := h.attracts
  exact hrank.active v hv

theorem congr (h : Invariant g p target size done met s) {other : Nat → Nat → Bool}
    (hregion : ∀ u w, other u w = true → s.region.contains w = true)
    (hmet : ∀ u, g.contains u = true → s.region.contains u = false →
      ∀ w ∈ g.successors u, other u w = met u w) :
    Invariant g p target size done other s :=
  { h with
    met_region := hregion
    waits_own := by
      intro u hu hout howner w hw
      rw [hmet u hu hout w hw]
      exact h.waits_own u hu hout howner w hw
    waits_other := by
      intro u hu hout howner
      have hcount : (g.successors u).countP (fun w => !other u w) =
          (g.successors u).countP fun w => !met u w :=
        List.countP_congr fun w hw => by rw [hmet u hu hout w hw]
      rw [hcount]
      exact h.waits_other u hu hout howner }

theorem mem_region_joined (h : Invariant g p target size done met s) (hg : g.Coherent)
    (ht : Joins g p u s t) (v : Nat) :
    t.region.contains v = true ↔ v = u ∨ s.region.contains v = true := by
  have hlt : u < s.region.capacity := h.capacity ▸ hg.contains_lt ht.active
  rw [ht.region, VertexSet.contains_insert]
  simp [hlt, or_comm]

theorem out_of_joined (h : Invariant g p target size done met s) (hg : g.Coherent)
    (ht : Joins g p u s t) {v : Nat} (hv : t.region.contains v = false) :
    v ≠ u ∧ s.region.contains v = false := by
  have hnot : ¬ (v = u ∨ s.region.contains v = true) := by
    rw [← h.mem_region_joined hg ht, hv]
    exact Bool.false_ne_true
  exact ⟨fun heq => hnot (Or.inl heq), by simpa using fun hc => hnot (Or.inr hc)⟩

/-- The rank of the vertex that joins is above all ranks so far. -/
theorem attracts_joined (h : Invariant g p target size done met s) (hg : g.Coherent)
    (ht : Joins g p u s t) : ∃ rank, g.Attracts p target t.area t.moves.get? rank ∧
      ∀ v, t.region.contains v = true → rank v + size ≤ t.region.size := by
  obtain ⟨rank, hrank, hbound⟩ := h.attracts
  have hmem := h.mem_region_joined hg ht
  have hnot : u ∉ s.area := by simp [State.area, ht.out]
  have hle := h.size_le
  have hsize : t.region.size = s.region.size + 1 := by
    rw [ht.region, VertexSet.size_insert ht.out (h.capacity ▸ hg.contains_lt ht.active)]
  have harea : t.area = Insert.insert u s.area := Set.ext hmem
  refine ⟨fun v => if v = u then s.region.size - size + 1 else rank v, ?_, ?_⟩
  · rw [harea]
    refine hrank.insert ht.active hnot ht.moves (fun v hv => ?_) ?_
      fun howner => (ht.other howner).2
    · have hv := hbound v hv
      omega
    · intro howner
      obtain ⟨w, hmove, hedge, hw⟩ := ht.own howner
      exact ⟨w, hw, hmove, hedge⟩
  · intro v hv
    rcases (hmem v).1 hv with rfl | hv
    · simp only [if_true]
      omega
    · have hne : v ≠ u := fun heq => hnot (heq ▸ hv)
      have hv := hbound v hv
      simp only [if_neg hne]
      omega

theorem join (h : Invariant g p target size done met s) (hg : g.Coherent) (ht : Joins g p u s t) :
    Invariant g p target size done met t := by
  have hmem := h.mem_region_joined hg ht
  have hnot : u ∉ target := by
    intro hin
    obtain ⟨rank, hrank, -⟩ := h.attracts
    have hu : s.region.contains u = true := hrank.subset hin
    rw [ht.out] at hu
    cases hu
  exact {
    capacity := by rw [ht.region, VertexSet.capacity_insert, h.capacity]
    length := ht.length.trans h.length
    listed := by
      intro v
      rw [hmem, h.listed, ht.pending, List.mem_cons]
      exact or_left_comm
    nodup := by
      have hfresh : u ∉ done ++ s.pending := by
        rw [List.mem_append, ← h.listed, ht.out]
        exact Bool.false_ne_true
      rw [ht.pending]
      exact List.nodup_middle.2 (List.nodup_cons.2 ⟨hfresh, h.nodup⟩)
    attracts := h.attracts_joined hg ht
    size_le := by
      rw [ht.region]
      exact Nat.le_trans h.size_le (VertexSet.size_le_of_subset fun v hv => by simp [hv])
    hasMove := by
      intro v
      rw [hmem]
      by_cases hv : v = u
      · subst hv
        by_cases howner : g.owner v = p
        · obtain ⟨w, hw, -⟩ := ht.own howner
          simp [hw, hnot, howner]
        · simp [(ht.other howner).1, howner]
      · rw [ht.moves v hv, h.hasMove v]
        simp [hv]
    met_region := fun v w hmet => (hmem w).2 (Or.inr (h.met_region v w hmet))
    waits_own := fun v hv hnew => h.waits_own v hv (h.out_of_joined hg ht hnew).2
    waits_other := by
      intro v hv hnew howner
      have hout := h.out_of_joined hg ht hnew
      rw [ht.unmet v hout.1]
      exact h.waits_other v hv hout.2 howner }

end Invariant

def alsoMet (met : Nat → Nat → Bool) (u v : Nat) : Nat → Nat → Bool :=
  fun x y => met x y || (decide (x = u) && decide (y = v))

theorem countP_unmet {met : Nat → Nat → Bool} {u v : Nat} {targets : List Nat}
    (hnodup : targets.Nodup) (hv : v ∈ targets) (hmet : met u v = false) :
    targets.countP (fun w => !met u w) =
      targets.countP (fun w => !alsoMet met u v u w) + 1 := by
  apply countP_eq_add_one hnodup hv (by simp [hmet]) (by simp [alsoMet])
  intro w _ hne
  simp [alsoMet, hne]

theorem alsoMet_of_ne {u v x : Nat} (hx : x ≠ u) (w : Nat) : alsoMet met u v x w = met x w := by
  simp [alsoMet, hx]

namespace Invariant

variable {v : Nat}

theorem region_of_alsoMet (h : Invariant g p target size done met s)
    (hv : s.region.contains v = true) {x y : Nat} (hxy : alsoMet met u v x y = true) :
    s.region.contains y = true := by
  simp only [alsoMet, Bool.or_eq_true, Bool.and_eq_true, decide_eq_true_eq] at hxy
  rcases hxy with hxy | ⟨-, rfl⟩
  · exact h.met_region x y hxy
  · exact hv

theorem alsoMet_of_mem (h : Invariant g p target size done met s)
    (hu : s.region.contains u = true) (hv : s.region.contains v = true) :
    Invariant g p target size done (alsoMet met u v) s := by
  refine h.congr (fun x y hxy => h.region_of_alsoMet hv hxy) fun x _ hout w _ => ?_
  refine alsoMet_of_ne ?_ w
  rintro rfl
  rw [hu] at hout
  cases hout

theorem join_alsoMet (h : Invariant g p target size done met s) (hg : g.Coherent)
    (ht : Joins g p u s t) (hv : s.region.contains v = true) :
    Invariant g p target size done (alsoMet met u v) t ∧ t.region.contains v = true := by
  have hlt : u < s.region.capacity := h.capacity ▸ hg.contains_lt ht.active
  have hu : t.region.contains u = true := by simp [ht.region, hlt]
  have hv' : t.region.contains v = true := by simp [ht.region, hv]
  exact ⟨(h.join hg ht).alsoMet_of_mem hu hv', hv'⟩

theorem meetEdge_own (hv : s.region.contains v = true) (hu : g.contains u = true)
    (hout : s.region.contains u = false) (hedge : v ∈ g.successors u) (howner : g.owner u = p) :
    ∃ t, meetEdge g p v s u = .ok t ∧ Joins g p u s t := by
  refine ⟨{ s.join u with moves := s.moves.insert u v }, by simp [meetEdge, hout, howner], ?_⟩
  exact {
    active := hu
    out := hout
    region := rfl
    pending := rfl
    moves := fun x hx => by simp [hx]
    length := rfl
    unmet := fun _ _ => rfl
    own := fun _ => ⟨v, by simp, hedge, hv⟩
    other := fun hne => absurd howner hne }

theorem meetEdge_last (h : Invariant g p target size done met s) (hg : g.Coherent)
    (hv : s.region.contains v = true) (hu : g.contains u = true)
    (hout : s.region.contains u = false) (howner : g.owner u ≠ p)
    (hcount : (s.unmet.getD u none).getD (g.successors u).length = 1)
    (hleft : (g.successors u).countP (fun w => !alsoMet met u v u w) = 0) :
    ∃ t, meetEdge g p v s u = .ok t ∧ Joins g p u s t := by
  have hlt : u < s.unmet.length := by
    rw [h.length]
    exact hg.contains_lt hu
  refine ⟨({ s with unmet := s.unmet.put u (some 0) }).join u,
    by simp [meetEdge, hout, howner, hcount], ?_⟩
  exact {
    active := hu
    out := hout
    region := rfl
    pending := rfl
    moves := fun _ _ => rfl
    length := VertexTable.length_put _ _ _
    unmet := by
      intro x hx
      show (s.unmet.put u (some 0)).getD x none = s.unmet.getD x none
      rw [VertexTable.getD_put, if_neg fun hboth => hx hboth.1]
    own := fun heq => absurd heq howner
    other := by
      intro _
      have hnomove := mt (h.hasMove u).1 (by simp [hout])
      refine ⟨Option.eq_none_iff_forall_ne_some.2 fun w hw => hnomove ⟨w, hw⟩, fun w hw => ?_⟩
      have hmet := List.countP_eq_zero.1 hleft w hw
      exact h.region_of_alsoMet hv (by simpa using hmet) }

theorem meetEdge_more (h : Invariant g p target size done met s) (hg : g.Coherent)
    (hv : s.region.contains v = true) (hu : g.contains u = true)
    (hout : s.region.contains u = false) (howner : g.owner u ≠ p) {left : Nat} (hpos : left ≠ 0)
    (hcount : (s.unmet.getD u none).getD (g.successors u).length = left + 1)
    (hleft : (g.successors u).countP (fun w => !alsoMet met u v u w) = left) :
    ∃ t, meetEdge g p v s u = .ok t ∧ Invariant g p target size done (alsoMet met u v) t ∧
      t.region.contains v = true := by
  have hlt : u < s.unmet.length := by
    rw [h.length]
    exact hg.contains_lt hu
  refine ⟨{ s with unmet := s.unmet.put u (some left) },
    by simp [meetEdge, hout, howner, hcount, hpos], ?_, hv⟩
  exact { h with
    length := (VertexTable.length_put _ _ _).trans h.length
    met_region := fun x y hxy => h.region_of_alsoMet hv hxy
    waits_own := by
      intro x hx hxout hxowner w hw
      have hne : x ≠ u := fun heq => howner (heq ▸ hxowner)
      rw [alsoMet_of_ne hne]
      exact h.waits_own x hx hxout hxowner w hw
    waits_other := by
      intro x hx hxout hxowner
      show ((s.unmet.put u (some left)).getD x none).getD _ = _ ∧ _
      rw [VertexTable.getD_put]
      by_cases hne : x = u
      · subst hne
        rw [if_pos ⟨rfl, hlt⟩, hleft]
        exact ⟨rfl, fun _ => Nat.pos_of_ne_zero hpos⟩
      · rw [if_neg fun hboth => hne hboth.1]
        simp only [alsoMet_of_ne hne]
        exact h.waits_other x hx hxout hxowner }

end Invariant

/-- Looking at an edge into the region keeps the invariant, and counts down to zero at most. -/
theorem meetEdge_ok (h : Invariant g p target size done met s) (hg : g.Coherent) {u v : Nat}
    (hv : s.region.contains v = true) (hu : g.contains u = true) (hedge : v ∈ g.successors u)
    (hmet : met u v = false) :
    ∃ t, meetEdge g p v s u = .ok t ∧ Invariant g p target size done (alsoMet met u v) t ∧
      t.region.contains v = true := by
  cases hout : s.region.contains u with
  | true => exact ⟨s, if_pos hout, h.alsoMet_of_mem hout hv, hv⟩
  | false =>
      by_cases howner : g.owner u = p
      · obtain ⟨t, hstep, ht⟩ := Invariant.meetEdge_own hv hu hout hedge howner
        exact ⟨t, hstep, h.join_alsoMet hg ht hv⟩
      · obtain ⟨hcount, -⟩ := h.waits_other u hu hout howner
        rw [countP_unmet (hg.nodup_successors u) hedge hmet] at hcount
        generalize hleft : (g.successors u).countP (fun w => !alsoMet met u v u w) = left at hcount
        by_cases hzero : left = 0
        · subst hzero
          obtain ⟨t, hstep, ht⟩ := h.meetEdge_last hg hv hu hout howner hcount hleft
          exact ⟨t, hstep, h.join_alsoMet hg ht hv⟩
        · exact h.meetEdge_more hg hv hu hout howner hzero hcount hleft

/-! ## The whole search -/

/-- Looking at all edges into the next pending vertex makes it a done one. -/
theorem expand_ok (hg : g.Coherent) {v : Nat} {rest : List Nat} (hpending : s.pending = v :: rest)
    (h : Invariant g p target size done (fun _ w => decide (w ∈ done)) s) :
    ∃ t, (g.predecessors v).foldlM (meetEdge g p v) { s with pending := rest } = .ok t ∧
      Invariant g p target size (v :: done) (fun _ w => decide (w ∈ v :: done)) t := by
  have hv : s.region.contains v = true := (h.listed v).2 (by simp [hpending])
  have hnodup : (v :: (done ++ rest)).Nodup := by
    have hn := h.nodup
    rw [hpending] at hn
    exact List.nodup_middle.1 hn
  have hnew : v ∉ done := fun hd =>
    (List.nodup_cons.1 hnodup).1 (List.mem_append_left rest hd)
  have hpred := hg.nodup_predecessors (h.active hv)
  let met (us : List Nat) : Nat → Nat → Bool :=
    fun x w => decide (w ∈ done) || (decide (w = v) && decide (x ∈ us))
  have hstart : Invariant g p target size (v :: done) (met []) { s with pending := rest } :=
    { h with
      listed := by
        intro w
        rw [h.listed, hpending, List.mem_cons, List.mem_cons]
        exact or_left_comm.trans or_assoc.symm
      nodup := hnodup
      met_region := by
        intro u w hw
        exact h.met_region u w (by simpa [met] using hw)
      waits_own := by
        intro u hu hout howner w hw
        have hold := h.waits_own u hu hout howner w hw
        simpa [met] using hold
      waits_other := by
        intro u hu hout howner
        have hold := h.waits_other u hu hout howner
        simpa [met] using hold }
  -- By induction on the sources of `v` that were looked at; `v` is done from the start.
  obtain ⟨t, hfold, ht, hvt⟩ := foldlM_ok (meetEdge g p v) (g.predecessors v)
    { s with pending := rest }
    (fun us t => Invariant g p target size (v :: done) (met us) t ∧ t.region.contains v = true)
    ⟨hstart, hv⟩
    (fun us u more t hitems ⟨ht, hvt⟩ => by
      have hmem : u ∈ g.predecessors v := by simp [hitems]
      have hfresh : u ∉ us := by
        intro hus
        rw [hitems] at hpred
        exact (List.nodup_append.1 hpred).2.2 u hus u (by simp) rfl
      obtain ⟨hu, hedge⟩ := (hg.mem_predecessors (ht.active hvt)).1 hmem
      obtain ⟨t', hstep, ht', hvt'⟩ :=
        meetEdge_ok ht hg hvt hu hedge (by simp [met, hnew, hfresh])
      have heq : ∀ x w, met (us ++ [u]) x w = alsoMet (met us) u v x w := by
        intro x w
        by_cases hw : w = v <;> simp [met, alsoMet, hw, Bool.or_assoc]
      exact ⟨t', hstep, ht'.congr (fun x w hxw => ht'.met_region x w (heq x w ▸ hxw))
        (fun x _ _ w _ => heq x w), hvt'⟩)
  refine ⟨t, hfold, ht.congr (fun _ w hw => ?_) fun x hx _ w hw => ?_⟩
  · exact (ht.listed w).2 (Or.inl (by simpa using hw))
  · by_cases hwv : w = v
    · subst hwv
      have hmem := (hg.mem_predecessors (ht.active hvt)).2 ⟨hx, hw⟩
      simp [met, hmem]
    · simp [met, hwv]

theorem search_ok (hg : g.Coherent) (fuel : Nat)
    (h : Invariant g p target size done (fun _ w => decide (w ∈ done)) s)
    (hfuel : g.vertexCount ≤ fuel + done.length) :
    ∃ t done, search g p fuel s = .ok t ∧ t.pending = [] ∧
      Invariant g p target size done (fun _ w => decide (w ∈ done)) t := by
  induction fuel generalizing s done with
  | zero =>
      cases hpending : s.pending with
      | nil => exact ⟨s, done, by simp [search, hpending], hpending, h⟩
      | cons v rest =>
          -- more vertices would be listed than there are
          have hlt : ∀ w ∈ done ++ s.pending, w < g.vertexCount := by
            intro w hw
            exact hg.contains_lt (h.active ((h.listed w).2 (List.mem_append.1 hw)))
          have hle := length_le_of_lt h.nodup hlt
          rw [hpending, List.length_append, List.length_cons] at hle
          omega
  | succ fuel ih =>
      cases hpending : s.pending with
      | nil => exact ⟨s, done, by simp [search, hpending], hpending, h⟩
      | cons v rest =>
          obtain ⟨t, hfold, ht⟩ := expand_ok hg hpending h
          have hle : g.vertexCount ≤ fuel + (v :: done).length := by
            rw [List.length_cons]
            omega
          obtain ⟨u, done', hsearch, hu⟩ := ih ht hle
          refine ⟨u, done', ?_, hu⟩
          unfold search
          simp only [hpending, hfold]
          exact hsearch

theorem start_spec (hg : g.Coherent) (targets : List Nat) :
    let s := start g targets
    s.region.capacity = g.vertexCount ∧ s.moves = SortedMap.empty ∧
      s.unmet = VertexTable.fill none g.vertexCount ∧ s.pending.Nodup ∧
      (∀ v, s.region.contains v = true ↔ v ∈ s.pending) ∧
      ∀ v, v ∈ s.pending ↔ v ∈ targets.filter g.contains := by
  refine foldl_induction (fun (s : State) v => if s.region.contains v then s else s.join v)
    (targets.filter g.contains) _
    (fun done s => s.region.capacity = g.vertexCount ∧ s.moves = SortedMap.empty ∧
      s.unmet = VertexTable.fill none g.vertexCount ∧ s.pending.Nodup ∧
      (∀ v, s.region.contains v = true ↔ v ∈ s.pending) ∧ ∀ v, v ∈ s.pending ↔ v ∈ done)
    ⟨VertexSet.capacity_empty _, rfl, rfl, List.nodup_nil, by simp, by simp⟩ ?_
  rintro done v rest s hitems ⟨hcap, hmoves, hunmet, hnodup, hregion, hdone⟩
  have hmem : v ∈ targets.filter g.contains := by simp [hitems]
  have hlt : v < s.region.capacity := by
    rw [hcap]
    exact hg.contains_lt (List.mem_filter.1 hmem).2
  by_cases hv : s.region.contains v = true
  · simp only [if_pos hv]
    refine ⟨hcap, hmoves, hunmet, hnodup, hregion, fun w => ?_⟩
    rw [List.mem_append, List.mem_singleton, hdone]
    constructor
    · exact Or.inl
    · intro hw
      rcases hw with hw | rfl
      · exact hw
      · rwa [← hdone, ← hregion]
  · have hfresh : v ∉ s.pending := fun hp => hv ((hregion v).2 hp)
    simp only [if_neg hv]
    refine ⟨?_, hmoves, hunmet, List.nodup_cons.2 ⟨hfresh, hnodup⟩, fun w => ?_, fun w => ?_⟩
    · exact (VertexSet.capacity_insert _ _).trans hcap
    · show (s.region.insert v).contains w = true ↔ w ∈ v :: s.pending
      rw [VertexSet.contains_insert, List.mem_cons, ← hregion]
      simp [hlt, or_comm]
    · show w ∈ v :: s.pending ↔ w ∈ done ++ [v]
      rw [List.mem_cons, List.mem_append, List.mem_singleton, hdone, or_comm]

theorem start_ok (hg : g.Coherent) (p : Player) (targets : List Nat) :
    Invariant g p {v | v ∈ targets ∧ g.contains v = true} (start g targets).region.size []
      (fun _ w => decide (w ∈ ([] : List Nat))) (start g targets) := by
  obtain ⟨hcap, hmoves, hunmet, hnodup, hregion, hpending⟩ := start_spec hg targets
  have harea : ∀ v, (start g targets).region.contains v = true ↔
      v ∈ targets ∧ g.contains v = true := by
    intro v
    rw [hregion, hpending, List.mem_filter]
  exact {
    capacity := hcap
    length := by rw [hunmet, VertexTable.length_fill]
    listed := by
      intro v
      rw [hregion]
      simp
    nodup := hnodup
    attracts := by
      refine ⟨fun _ => 0, ?_, fun v _ => Nat.le_of_eq (Nat.zero_add _)⟩
      exact {
        subset := fun v hv => (harea v).2 hv
        active := fun v hv => ((harea v).1 hv).2
        own := fun v hv hnot => absurd ((harea v).1 hv) hnot
        other := fun v hv hnot => absurd ((harea v).1 hv) hnot }
    size_le := Nat.le_refl _
    hasMove := by
      intro v
      rw [hmoves, harea]
      simp only [SortedMap.get?_empty, reduceCtorEq, exists_false, false_iff]
      exact fun h => h.2.1 h.1
    met_region := by simp
    waits_own := by simp
    waits_other := by
      intro u _ _ _
      rw [hunmet]
      refine ⟨by simp, fun hne => ?_⟩
      simpa [List.length_pos_iff] using hne }

end Attractor

/-- The territory is what the player can force into the target, and outside of it the opponent can
stay outside. -/
structure Territory.IsAttractor (t : Territory) (g : Game) (p : Player) (target : Set Nat) :
    Prop where
  capacity : t.region.capacity = g.vertexCount
  attracts : ∃ rank, g.Attracts p target {v | t.region.contains v = true} t.moves.get? rank
  hasMove : ∀ v, (∃ w, t.moves.get? v = some w) ↔
    t.region.contains v = true ∧ v ∉ target ∧ g.owner v = p
  escapes_own : ∀ v, g.contains v = true → t.region.contains v = false → g.owner v = p →
    ∀ w ∈ g.successors v, t.region.contains w = false
  escapes_other : ∀ v, g.contains v = true → t.region.contains v = false → g.owner v ≠ p →
    g.successors v ≠ [] → ∃ w ∈ g.successors v, t.region.contains w = false

/-- The search comes through with nothing left pending, and its region and moves are the attractor. -/
theorem attractor_ok {g : Game} (hg : g.Coherent) (p : Player) (targets : List Nat) :
    ∃ s done, attractor g p targets = .ok ⟨s.region, s.moves⟩ ∧ s.pending = [] ∧
      Attractor.Invariant g p {v | v ∈ targets ∧ g.contains v = true}
        (Attractor.start g targets).region.size done (fun _ w => decide (w ∈ done)) s := by
  obtain ⟨s, done, hsearch, hpending, h⟩ :=
    Attractor.search_ok hg g.vertexCount (Attractor.start_ok hg p targets) (by simp)
  refine ⟨s, done, ?_, hpending, h⟩
  simp only [attractor, hsearch]
  rfl

theorem attractor_spec {g : Game} (hg : g.Coherent) (p : Player) (targets : List Nat) :
    ∃ t, attractor g p targets = .ok t ∧
      t.IsAttractor g p {v | v ∈ targets ∧ g.contains v = true} := by
  obtain ⟨s, done, hmade, hpending, h⟩ := attractor_ok hg p targets
  have hmet : ∀ w, decide (w ∈ done) = s.region.contains w := by
    intro w
    rw [Bool.eq_iff_iff, h.listed, hpending]
    simp
  exact ⟨_, hmade, {
    capacity := h.capacity
    attracts := by
      obtain ⟨rank, hrank, -⟩ := h.attracts
      exact ⟨rank, hrank⟩
    hasMove := h.hasMove
    escapes_own := by
      intro v hv hout howner w hw
      rw [← hmet]
      exact h.waits_own v hv hout howner w hw
    escapes_other := by
      intro v hv hout howner hne
      have hpos := (h.waits_other v hv hout howner).2 hne
      obtain ⟨w, hw, hnot⟩ := List.countP_pos_iff.1 hpos
      exact ⟨w, hw, by simpa [← hmet] using hnot⟩ }⟩

theorem attractorOfSet_spec {g : Game} (hg : g.Coherent) (p : Player) (targets : VertexSet) :
    ∃ t, attractorOfSet g p targets = .ok t ∧
      t.IsAttractor g p {v | targets.contains v = true ∧ g.contains v = true} := by
  obtain ⟨t, ht, hspec⟩ := attractor_spec hg p targets.toList
  simp only [VertexSet.mem_toList] at hspec
  exact ⟨t, ht, hspec⟩

theorem isAttractor_of_attractor {g : Game} {p : Player} {targets : List Nat} {t : Territory}
    (hg : g.Coherent) (h : attractor g p targets = .ok t) :
    t.IsAttractor g p {v | v ∈ targets ∧ g.contains v = true} := by
  obtain ⟨t', ht, hspec⟩ := attractor_spec hg p targets
  cases h.symm.trans ht
  exact hspec

theorem isAttractor_of_attractorOfSet {g : Game} {p : Player} {targets : VertexSet} {t : Territory}
    (hg : g.Coherent) (h : attractorOfSet g p targets = .ok t) :
    t.IsAttractor g p {v | targets.contains v = true ∧ g.contains v = true} := by
  obtain ⟨t', ht, hspec⟩ := attractorOfSet_spec hg p targets
  cases h.symm.trans ht
  exact hspec

namespace Territory.IsAttractor

variable {g part : Game} {p : Player} {target : Set Nat} {t : Territory}

theorem active (h : t.IsAttractor g p target) {v : Nat} (hv : t.region.contains v = true) :
    g.contains v = true := by
  obtain ⟨rank, hrank⟩ := h.attracts
  exact hrank.active v hv

theorem of_target (h : t.IsAttractor g p target) {v : Nat} (hv : v ∈ target) :
    t.region.contains v = true := by
  obtain ⟨rank, hrank⟩ := h.attracts
  exact hrank.subset hv

theorem move_of_target (h : t.IsAttractor g p target) {v : Nat} (hv : v ∈ target) :
    t.moves.get? v = none := by
  apply Option.eq_none_iff_forall_ne_some.2
  intro w hw
  exact ((h.hasMove v).1 ⟨w, hw⟩).2.1 hv

/-- What is left when an attractor is taken out of a total game is total. -/
theorem total_rest (h : t.IsAttractor g p target) (hof : part.PartOf g)
    (hpart : ∀ v, part.contains v = (g.contains v && !t.region.contains v))
    (htotal : g.isTotal = true) : part.isTotal = true := by
  rw [Game.isTotal_iff] at htotal ⊢
  intro v hv
  have hv' : g.contains v = true ∧ t.region.contains v = false := by
    simpa [hpart] using hv
  obtain ⟨w, hw⟩ := htotal v hv'.1
  have hstay : ∃ x ∈ g.successors v, t.region.contains x = false := by
    by_cases howner : g.owner v = p
    · exact ⟨w, hw, h.escapes_own v hv'.1 hv'.2 howner w hw⟩
    · exact h.escapes_other v hv'.1 hv'.2 howner (List.ne_nil_of_mem hw)
  obtain ⟨x, hx, hout⟩ := hstay
  have hactive := Game.contains_of_mem_successors hx
  refine ⟨x, (hof.mem_successors hactive).2 ⟨hx, ?_⟩⟩
  simp [hpart, hactive, hout]

/-- What is left when the attractor of some active vertex is taken out is smaller. -/
theorem size_lt (h : t.IsAttractor g p target) {v : Nat} (hv : v ∈ target)
    (hpart : ∀ w, part.contains w = (g.contains w && !t.region.contains w)) :
    part.size < g.size := by
  have hin := h.of_target hv
  refine VertexSet.size_lt_of_subset (fun w hw => ?_) (h.active hin) ?_
  · have hw' := (hpart w).symm.trans hw
    simp only [Bool.and_eq_true] at hw'
    exact hw'.1
  · exact (hpart v).trans (by simp [hin])

end Territory.IsAttractor

end ParityGames
