import ParityGames.Solution.Winning
import ParityGames.Proofs.Play.Dominion

/-! # Territories that hold

A territory holds if its region with its moves is a dominion and it has no moves besides. Such a
territory is winning, and this is how all solvers earn their solutions.
-/

namespace ParityGames

namespace Territory

variable {t : Territory} {g : Game} {p : Player}

def area (t : Territory) : Set Nat := {v | t.region.contains v = true}

theorem mem_area {v : Nat} : v ∈ t.area ↔ t.region.contains v = true := Iff.rfl

structure Holds (t : Territory) (g : Game) (p : Player) : Prop where
  capacity : t.region.capacity = g.vertexCount
  dominion : g.Dominion p t.area t.moves.get?
  hasMove : ∀ v, (∃ w, t.moves.get? v = some w) ↔ t.region.contains v = true ∧ g.owner v = p

theorem Holds.winning (h : t.Holds g p) : t.Winning g p where
  active := h.dominion.active
  hasMove := h.hasMove
  stays := by
    intro v w hmove
    obtain ⟨hv, howner⟩ := (h.hasMove v).1 ⟨w, hmove⟩
    obtain ⟨x, hx, hmove', hedge⟩ := h.dominion.keeps v hv howner
    obtain rfl : w = x := Option.some.inj (hmove.symm.trans hmove')
    exact ⟨hedge, hx⟩
  wins := by
    intro play hplay hstart hfollows
    have hobeys : g.Obeys p t.moves.get? play := fun i =>
      ⟨(hplay i).2, fun howner w hmove => hfollows i w howner hmove⟩
    refine ⟨fun i => ?_, h.dominion.wins_of_mem hobeys hstart⟩
    have hstay := hobeys.stays (fun _ _ => h.dominion.step_mem) hstart i
    rwa [tail_apply, Nat.zero_add] at hstay

theorem holds_empty (g : Game) (p : Player) : (empty g.vertexCount).Holds g p where
  capacity := rfl
  dominion := by
    have harea : (empty g.vertexCount).area = ∅ := by
      ext v
      simp [mem_area, empty]
    rw [harea]
    exact Game.Dominion.empty g p _
  hasMove := by
    intro v
    simp [empty]

/-- The territory has the vertices of both, and the moves of the first where that has one. -/
structure Unites (m t other : Territory) : Prop where
  capacity : m.region.capacity = t.region.capacity
  contains : ∀ v, m.region.contains v = (t.region.contains v || other.region.contains v)
  moves : ∀ v, m.moves.get? v = (t.moves.get? v).or (other.moves.get? v)

theorem merge_spec {other : Territory} (hc : t.region.capacity = other.region.capacity) :
    ∃ m, t.merge other = .ok m ∧ m.Unites t other := by
  refine ⟨⟨t.region.union other.region, fillMoves t.moves other.moves.entries⟩, ?_,
    VertexSet.capacity_union _ _, fun v => VertexSet.contains_union hc v, fun v => ?_⟩
  · simp only [merge, VertexSet.unite, VertexSet.combine_of_eq hc]
    rfl
  · rw [get?_fillMoves, SortedMap.lookup_entries]

theorem get?_of_merge {m other : Territory} (h : t.merge other = .ok m) (v : Nat) :
    m.moves.get? v = (t.moves.get? v).or (other.moves.get? v) := by
  obtain ⟨region, -, hm⟩ := bind_eq_ok_iff.1 h
  cases hm
  rw [get?_fillMoves, SortedMap.lookup_entries]

def MovesApart (t other : Territory) : Prop :=
  ∀ v, t.moves.get? v = none ∨ other.moves.get? v = none

theorem MovesApart.move_iff {m other : Territory} (hapart : t.MovesApart other)
    (h : t.merge other = .ok m) (v w : Nat) :
    m.moves.get? v = some w ↔ t.moves.get? v = some w ∨ other.moves.get? v = some w := by
  rw [get?_of_merge h]
  rcases hapart v with hnone | hnone <;> simp [hnone]

namespace Unites

variable {m other third : Territory}

theorem comm (h : m.Unites t other) (hc : t.region.capacity = other.region.capacity)
    (hmoves : ∀ v, t.moves.get? v = none ∨ other.moves.get? v = none) : m.Unites other t where
  capacity := h.capacity.trans hc
  contains v := (h.contains v).trans (Bool.or_comm _ _)
  moves := by
    intro v
    rw [h.moves]
    rcases hmoves v with hnone | hnone <;> simp [hnone]

theorem assoc {u : Territory} (h : m.Unites u third) (hu : u.Unites t other)
    {v : Territory} (hv : v.Unites other third) : m.Unites t v where
  capacity := h.capacity.trans hu.capacity
  contains w := by rw [h.contains, hu.contains, hv.contains, Bool.or_assoc]
  moves w := by rw [h.moves, hu.moves, hv.moves, Option.or_assoc]

end Unites

theorem Holds.moves_eq_none (h : t.Holds g p) {v : Nat} (hv : t.region.contains v = false) :
    t.moves.get? v = none := by
  apply Option.eq_none_iff_forall_ne_some.2
  intro w hw
  have hin := ((h.hasMove v).1 ⟨w, hw⟩).1
  rw [hv] at hin
  cases hin

/-- A territory that holds, united with one that holds in a part of the rest, if the opponent can
leave the part only into the first. -/
theorem Holds.union {part : Game} {m other : Territory} (ht : t.Holds g p) (hof : part.PartOf g)
    (hpart : ∀ v, part.contains v = true → g.contains v = true ∧ t.region.contains v = false)
    (hother : other.Holds part p)
    (hexit : ∀ v, other.region.contains v = true → g.owner v ≠ p → ∀ w ∈ g.successors v,
      part.contains w = true ∨ t.region.contains w = true)
    (hm : m.Unites t other) : m.Holds g p where
  capacity := hm.capacity.trans ht.capacity
  dominion := by
    have harea : m.area = t.area ∪ other.area := by
      ext v
      simp only [mem_area, Set.mem_union, hm.contains, Bool.or_eq_true]
    rw [harea]
    refine Game.Dominion.union (ht.dominion.congr fun v hv howner => ?_) hof
      (fun v hv => (hpart v hv).1) (hother.dominion.congr fun v hv howner => ?_) hexit
    · obtain ⟨w, hw⟩ := (ht.hasMove v).2 ⟨hv, howner⟩
      simp [hm.moves, hw]
    · have hout := (hpart v (hother.dominion.active v hv)).2
      simp [hm.moves, ht.moves_eq_none hout]
  hasMove := by
    intro v
    simp only [hm.moves, hm.contains, Option.or_eq_some_iff, exists_or, Bool.or_eq_true]
    constructor
    · rintro (hmove | ⟨w, -, hmove⟩)
      · obtain ⟨hv, howner⟩ := (ht.hasMove v).1 hmove
        exact ⟨Or.inl hv, howner⟩
      · obtain ⟨hv, howner⟩ := (hother.hasMove v).1 ⟨w, hmove⟩
        exact ⟨Or.inr hv, by rwa [hof.owner] at howner⟩
    · rintro ⟨hv | hv, howner⟩
      · exact Or.inl ((ht.hasMove v).2 ⟨hv, howner⟩)
      · obtain ⟨w, hw⟩ := (hother.hasMove v).2 ⟨hv, by rwa [hof.owner]⟩
        have hout := (hpart v (hother.dominion.active v hv)).2
        exact Or.inr ⟨w, ht.moves_eq_none hout, hw⟩

/-- What holds in a part that the opponent cannot leave from there holds in the game. -/
theorem Holds.of_part {part : Game} (h : t.Holds part p) (hof : part.PartOf g)
    (hpart : ∀ v, part.contains v = true → g.contains v = true)
    (hexit : ∀ v, t.region.contains v = true → g.owner v ≠ p → ∀ w ∈ g.successors v,
      part.contains w = true) : t.Holds g p where
  capacity := h.capacity.trans hof.vertexCount
  dominion := h.dominion.of_part hof hpart hexit
  hasMove v := by rw [h.hasMove, hof.owner]

end Territory

/-- A solution whose territories hold and share out the active vertices. -/
structure Solution.Holds (s : Solution) (g : Game) : Prop where
  shares : s.Shares g
  holds : ∀ p, (s.of p).Holds g p

/-- Two territories that hold do not meet, so they only have to cover the game. -/
theorem Solution.Holds.ofWinner {g : Game} {p : Player} {won lost : Territory}
    (hwon : won.Holds g p) (hlost : lost.Holds g p.opponent)
    (hall : ∀ v, g.contains v = true → won.region.contains v = true ∨
      lost.region.contains v = true) : (Solution.ofWinner p won lost).Holds g := by
  have hout : ∀ v, ¬ (won.region.contains v = true ∧ lost.region.contains v = true) :=
    fun v hv => hwon.dominion.disjoint hlost.dominion hv.1 hv.2
  have hin : ∀ v, won.region.contains v = true ∨ lost.region.contains v = true ↔
      g.contains v = true := by
    intro v
    constructor
    · intro hv
      rcases hv with hv | hv
      · exact hwon.dominion.active v hv
      · exact hlost.dominion.active v hv
    · exact hall v
  cases p with
  | even =>
      refine ⟨fun v => ⟨hin v, hout v⟩, fun q => ?_⟩
      cases q with
      | even => exact hwon
      | odd => exact hlost
  | odd =>
      refine ⟨fun v => ⟨or_comm.trans (hin v), fun hv => hout v hv.symm⟩, fun q => ?_⟩
      cases q with
      | even => exact hlost
      | odd => exact hwon

theorem Solution.Holds.covers {s : Solution} {g : Game} (h : s.Holds g) (p : Player) (v : Nat)
    (hv : g.contains v = true) :
    (s.of p).region.contains v = true ∨ (s.of p.opponent).region.contains v = true := by
  have hshared := ((h.shares v).1).2 hv
  cases p with
  | even => exact hshared
  | odd => exact hshared.symm

theorem Solution.Holds.solves {s : Solution} {g : Game} (h : s.Holds g) : s.Solves g :=
  ⟨h.shares, fun p => (h.holds p).winning⟩

end ParityGames
