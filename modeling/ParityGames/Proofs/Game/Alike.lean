import ParityGames.Proofs.Game.Composition

/-! # Games that are alike

Two games are alike if they have the same arena, the same active vertices and the same priorities
of these. They may still differ in the priorities of inactive vertices, and in the order in which
the vertices of a priority are listed; whatever else can be read off them is the same.
-/

namespace ParityGames

namespace Game

variable {g g' part part' : Game}

/-! ## The arena of a game that can be made -/

/-- The edges into a vertex are entered once, when the game is built. -/
theorem Reachable.incoming (h : g.Reachable) : g.arena.incoming =
    Incoming.ofEdges g.vertexCount (GameBuilder.edgesOf g.arena.successors) := by
  induction h with
  | build made =>
      obtain ⟨rows, -, -, hcount, hrows, hincoming, -⟩ := GameBuilder.build_spec made
      rw [hincoming, hcount, hrows]
  | subgame _ made ih =>
      rw [vertexCount, (partOf_subgame made).arena]
      exact ih
  | difference dropped hreached ih =>
      rw [vertexCount, (difference_spec hreached.coherent dropped).2.1.arena]
      exact ih
  | setPriority _ made ih =>
      rw [vertexCount, arena_setPriority made]
      exact ih

theorem Reachable.arena_eq (hg : g.Reachable) (hg' : g'.Reachable)
    (howners : g.arena.owners = g'.arena.owners)
    (hsuccessors : g.arena.successors = g'.arena.successors) : g.arena = g'.arena := by
  have hincoming : g.arena.incoming = g'.arena.incoming := by
    rw [hg.incoming, hg'.incoming, vertexCount, howners, hsuccessors]
    rfl
  cases harena : g.arena
  cases harena' : g'.arena
  simp_all

/-! ## Games that differ in their index alone -/

/-- The games differ in nothing that concerns an active vertex, except for the listings. -/
structure Alike (g g' : Game) : Prop where
  coherent : g.Coherent
  coherent' : g'.Coherent
  arena : g.arena = g'.arena
  active : g.active = g'.active
  priorityOf : ∀ v, g.contains v = true → g.priorityOf v = g'.priorityOf v

def withIndex (g : Game) (priorities : VertexTable Nat) (buckets : SortedMap (List Nat)) : Game :=
  { g with priorities := priorities, buckets := buckets }

namespace Alike

theorem contains (h : g.Alike g') (v : Nat) : g.contains v = g'.contains v := by
  rw [Game.contains, h.active]
  rfl

theorem counts (h : g.Alike g') : g.counts = g'.counts := by
  have hpriorities : g.vertices.map g.priorityOf = g'.vertices.map g'.priorityOf := by
    rw [vertices, vertices, ← h.active]
    exact List.map_congr_left fun v hv => h.priorityOf v (mem_vertices.1 hv)
  have htallies := h.coherent.counts
  rw [hpriorities] at htallies
  exact htallies.unique h.coherent'.counts

theorem eq_withIndex (h : g.Alike g') : g' = g.withIndex g'.priorities g'.buckets := by
  have harena := h.arena
  have hactive := h.active
  have hcounts := h.counts
  cases g
  cases g'
  simp only at harena hactive hcounts
  subst harena hactive hcounts
  rfl

theorem vertexCount (h : g.Alike g') : g.vertexCount = g'.vertexCount := by
  rw [h.eq_withIndex]
  rfl

theorem size (h : g.Alike g') : g.size = g'.size := by
  rw [h.eq_withIndex]
  rfl

theorem owner (h : g.Alike g') : g.owner = g'.owner := by
  rw [h.eq_withIndex]
  rfl

theorem successors (h : g.Alike g') : g.successors = g'.successors := by
  rw [h.eq_withIndex]
  rfl

theorem vertices (h : g.Alike g') : g.vertices = g'.vertices := by
  rw [h.eq_withIndex]
  rfl

theorem isTotal (h : g.Alike g') : g.isTotal = g'.isTotal := by
  rw [h.eq_withIndex]
  rfl

theorem maxPriority? (h : g.Alike g') : g.maxPriority? = g'.maxPriority? := by
  rw [h.eq_withIndex]
  rfl

theorem countWithPriority (h : g.Alike g') : g.countWithPriority = g'.countWithPriority := by
  rw [h.eq_withIndex]
  rfl

theorem activePriorities (h : g.Alike g') : g.activePriorities = g'.activePriorities := by
  rw [h.eq_withIndex]
  rfl

theorem priority? (h : g.Alike g') : g.priority? = g'.priority? := by
  funext v
  rw [Game.priority?, Game.priority?, ← h.contains]
  split
  · rename_i hv
    rw [h.priorityOf v hv]
  · rfl

/-- The vertices of a priority are listed in any order. -/
theorem mem_verticesWithPriority (h : g.Alike g') (priority v : Nat) :
    v ∈ g.verticesWithPriority priority ↔ v ∈ g'.verticesWithPriority priority := by
  rw [h.coherent.mem_verticesWithPriority, h.coherent'.mem_verticesWithPriority, ← h.contains]
  exact and_congr_right fun hv => by rw [h.priorityOf v hv]

/-! ## Parts -/

theorem parts (h : g.Alike g') (hpart : part.Coherent) (hof : part.PartOf g)
    (hpart' : part'.Coherent) (hof' : part'.PartOf g')
    (hsub : ∀ v, part.contains v = true → g.contains v = true)
    (hcontains : ∀ v, part.contains v = part'.contains v) : part.Alike part' where
  coherent := hpart
  coherent' := hpart'
  arena := hof.arena.trans (h.arena.trans hof'.arena.symm)
  active := by
    refine VertexSet.ext ?_ hcontains
    rw [hpart.capacity, hpart'.capacity, hof.vertexCount, hof'.vertexCount, h.vertexCount]
  priorityOf v hv := by
    rw [hof.priorityOf, hof'.priorityOf, h.priorityOf v (hsub v hv)]

theorem difference (h : g.Alike g') (dropped : VertexSet) :
    (g.difference dropped).Alike (g'.difference dropped) := by
  obtain ⟨hdrop, hof, hcontains⟩ := difference_spec h.coherent dropped
  obtain ⟨hdrop', hof', hcontains'⟩ := difference_spec h.coherent' dropped
  refine h.parts hdrop hof hdrop' hof' (fun v hv => ?_) fun v => ?_
  · rw [hcontains, Bool.and_eq_true] at hv
    exact hv.1
  · rw [hcontains, hcontains', h.contains]

theorem subgame (h : g.Alike g') (keep : VertexSet) :
    (∃ cause, g.subgame keep = .error cause ∧ g'.subgame keep = .error cause) ∨
    ∃ part part', g.subgame keep = .ok part ∧ g'.subgame keep = .ok part' ∧
      part.Alike part' := by
  by_cases hkeep : keep.capacity = g.vertexCount
  · obtain ⟨part, hpart, hcoherent, hof, hcontains⟩ := subgame_spec h.coherent hkeep
    obtain ⟨part', hpart', hcoherent', hof', hcontains'⟩ :=
      subgame_spec h.coherent' (hkeep.trans h.vertexCount)
    refine Or.inr ⟨part, part', hpart, hpart', h.parts hcoherent hof hcoherent' hof'
      (fun v hv => ?_) fun v => ?_⟩
    · rw [hcontains, Bool.and_eq_true] at hv
      exact hv.2
    · rw [hcontains, hcontains', h.contains]
  · have hne : keep.capacity ≠ g.active.capacity := by rwa [h.coherent.capacity]
    refine Or.inl ⟨.capacityMismatch, ?_, ?_⟩
    · rw [Game.subgame, VertexSet.intersect, VertexSet.combine_of_ne hne]
      rfl
    · rw [Game.subgame, VertexSet.intersect, ← h.active, VertexSet.combine_of_ne hne]
      rfl

end Alike

/-- Games are alike if they have the same owners, edges, active vertices and priorities of these,
however they were made. -/
theorem Reachable.alike (hg : g.Reachable) (hg' : g'.Reachable)
    (howners : g.arena.owners = g'.arena.owners)
    (hsuccessors : g.arena.successors = g'.arena.successors) (hactive : g.active = g'.active)
    (hpriority : ∀ v, g.priority? v = g'.priority? v) : g.Alike g' where
  coherent := hg.coherent
  coherent' := hg'.coherent
  arena := hg.arena_eq hg' howners hsuccessors
  active := hactive
  priorityOf v hv := by
    have hsame := hpriority v
    have hv' : g'.contains v = true := by rwa [contains, ← hactive]
    rw [priority?, priority?, if_pos hv, if_pos hv'] at hsame
    exact Option.some.inj hsame

end Game

end ParityGames
