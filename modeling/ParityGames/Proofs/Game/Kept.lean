import ParityGames.Proofs.Game.Additions
import ParityGames.Proofs.Game.Alike
import ParityGames.Proofs.Game.Edges
import ParityGames.Proofs.Game.Packed
import Mathlib.Data.Finset.Prod

/-! # The edges that were added are kept

A built game has exactly the edges that were added, seen from their sources and from their targets,
and so has every game that it is cut down to, as far as their ends are active.
-/

namespace ParityGames

open GameBuilder

namespace Game

variable {g part : Game} {additions : List Addition} {b : GameBuilder}

/-- What a game is cut down to or changed to, in any number of steps. -/
inductive Derives (g : Game) : Game → Prop
  | whole : Derives g g
  | subgame {part next : Game} {keep : VertexSet} (h : Derives g part)
      (made : part.subgame keep = .ok next) : Derives g next
  | difference {part : Game} (dropped : VertexSet) (h : Derives g part) :
      Derives g (part.difference dropped)
  | setPriority {part next : Game} {v priority : Nat} (h : Derives g part)
      (made : part.setPriority v priority = .ok next) : Derives g next

theorem Derives.spec (h : g.Derives part) (hg : g.Reachable) :
    part.Reachable ∧ part.arena = g.arena := by
  induction h with
  | whole => exact ⟨hg, rfl⟩
  | subgame _ made ih => exact ⟨.subgame ih.1 made, (partOf_subgame made).arena.trans ih.2⟩
  | difference dropped _ ih =>
      exact ⟨.difference dropped ih.1, (difference_spec ih.1.coherent dropped).2.1.arena.trans ih.2⟩
  | setPriority _ made ih =>
      exact ⟨.setPriority ih.1 made, (arena_setPriority made).trans ih.2⟩

def activePairs (g : Game) (additions : List Addition) : Finset (Nat × Nat) :=
  (g.vertices.toFinset ×ˢ g.vertices.toFinset).filter fun pair =>
    .edge pair.1 pair.2 ∈ additions

/-- The edges of the game are the edges that were added. -/
structure Keeps (g : Game) (additions : List Addition) : Prop where
  successors_increasing : ∀ v, (g.successors v).Pairwise (· < ·)
  mem_successors : ∀ v w, w ∈ g.successors v ↔ .edge v w ∈ additions ∧ g.contains w = true
  predecessors_increasing : ∀ v, (g.predecessors v).Pairwise (· < ·)
  mem_predecessors : ∀ u v, u ∈ g.predecessors v ↔ .edge u v ∈ additions ∧ g.contains u = true
  activeIncoming : ∀ v, g.activeIncoming.of v = if g.contains v then g.predecessors v else []
  edgeCount : g.edgeCount = (g.activePairs additions).card
  activeIncoming_edgeCount : g.activeIncoming.edgeCount = (g.activePairs additions).card

/-- The rows of the game, read from packed rows of targets and from packed rows of sources. -/
structure Stores (g : Game) (targets : Packed) : Prop where
  successors : ∀ v < g.vertexCount, (targets.row v).filter g.contains = g.successors v
  predecessors : ∀ v < g.vertexCount,
    ((Packed.ofEdges g.vertexCount (targets.edges g.vertexCount)).row v).filter g.contains =
      g.predecessors v
  activeIncoming : ∀ v < g.vertexCount,
    (Packed.ofEdges g.vertexCount g.edges).row v = g.activeIncoming.of v
  edgeCount : (Packed.ofEdges g.vertexCount g.edges).items.length = g.activeIncoming.edgeCount

/-! ## Rows of a built game -/

theorem mem_row_of_build (h : b.Collects additions) (made : b.build = .ok g) (v w : Nat) :
    w ∈ g.row v ↔ .edge v w ∈ additions := by
  rw [← h.mem_targets]
  by_cases hv : v < b.drafts.length
  · rw [(row_eq_ok_iff.1 (row_of_build made hv)).1, Ranking.mem_distinct]
  · obtain ⟨rows, hlength, -, -, hrows, -⟩ := build_spec made
    rw [row, hrows, VertexTable.getD_of_length_le (hlength ▸ Nat.le_of_not_lt hv),
      VertexTable.getD_of_length_le (Nat.le_of_not_lt hv)]
    rfl

theorem keeps_of_build (h : b.Collects additions) (made : b.build = .ok g)
    (hpart : g.Derives part) : part.Keeps additions := by
  obtain ⟨hreached, harena⟩ := hpart.spec (.build made)
  have hcoherent := hreached.coherent
  have hrow : ∀ v w, w ∈ part.row v ↔ .edge v w ∈ additions := by
    intro v w
    rw [row, harena]
    exact mem_row_of_build h made v w
  have hsuccessors : ∀ v w, w ∈ part.successors v ↔
      .edge v w ∈ additions ∧ part.contains w = true := by
    intro v w
    rw [Game.mem_successors, hrow]
  -- outside of the arena there are no edges
  have hout : ∀ v, ¬ v < part.vertexCount → part.predecessors v = [] := by
    intro v hv
    rw [predecessors, hreached.incoming, Incoming.of_ofEdges_of_le _ (Nat.le_of_not_lt hv)]
    rfl
  have hpairs : part.edges.toFinset = part.activePairs additions := by
    ext ⟨u, v⟩
    simp only [activePairs, List.mem_toFinset, mem_edges, hsuccessors, Finset.mem_filter,
      Finset.mem_product, mem_vertices]
    tauto
  have hcount : part.edges.length = (part.activePairs additions).card := by
    rw [← hpairs, List.toFinset_card_of_nodup hcoherent.nodup_edges]
  exact {
    successors_increasing := hcoherent.successors_increasing
    mem_successors := hsuccessors
    predecessors_increasing := fun v => by
      by_cases hv : v < part.vertexCount
      · exact hcoherent.predecessors_increasing hv
      · rw [hout v hv]
        exact List.Pairwise.nil
    mem_predecessors := fun u v => by
      by_cases hv : v < part.vertexCount
      · rw [hcoherent.mem_predecessors_iff hv, hrow]
      · rw [hout v hv, ← hrow u v]
        exact iff_of_false List.not_mem_nil fun hedge => hv (hcoherent.row_lt u v hedge.1)
    activeIncoming := hcoherent.activeIncoming_of
    edgeCount := hcount
    activeIncoming_edgeCount :=
      (Packed.length_ofEdges fun _ => hcoherent.target_lt).2.trans hcount }

/-! ## Packed rows of a built game -/

theorem stores_of_build {packed : Packed} (made : b.build = .ok g) (hpacked : b.pack = .ok packed)
    (hpart : g.Derives part) : part.Stores packed := by
  obtain ⟨hreached, harena⟩ := hpart.spec (.build made)
  have hcoherent := hreached.coherent
  obtain ⟨_, hlength, -, hcount, rfl, -⟩ := build_spec made
  have hrows : part.arena.successors.length = part.vertexCount := by
    rw [vertexCount, harena, hlength, ← hcount]
    rfl
  have hholds : packed.Holds part.arena.successors.toList := by
    rw [b.pack_eq, made] at hpacked
    rw [harena, ← Except.ok.inj hpacked]
    exact Packed.holds_ofRows _
  have hedges : ∀ e ∈ edgesOf part.arena.successors, e.2 < part.vertexCount := by
    intro e he
    rw [edgesOf, VertexTable.entries_eq _ [], List.flatMap_map] at he
    obtain ⟨u, -, he⟩ := List.mem_flatMap.1 he
    obtain ⟨w, hw, rfl⟩ := List.mem_map.1 he
    exact hcoherent.row_lt u w hw
  exact {
    successors := fun v hv => by
      rw [hholds.row_eq (hrows.symm ▸ hv)]
      rfl
    predecessors := fun v hv => by
      rw [← hrows, hholds.edges_eq, hrows, Packed.row_ofEdges hedges hv, ← hreached.incoming]
      rfl
    activeIncoming := fun v hv => Packed.row_ofEdges (fun _ => hcoherent.target_lt) hv
    edgeCount := by
      obtain ⟨hitems, hcount⟩ := Packed.length_ofEdges fun _ => hcoherent.target_lt
      exact hitems.trans hcount.symm }

/-- An edge can only be added from a vertex that was added. Building is refused for the first vertex
without an edge or with an edge to a vertex that is never added; otherwise the edges are kept, in
the game and in everything it is cut down to, and packing them changes nothing. -/
theorem added_edges_kept (additions : List Addition) :
    ((∃ b, ofAdditions additions = .ok b) ↔ ∀ i source target,
      additions[i]? = some (.edge source target) → source < vertexTotal (additions.take i)) ∧
    ∀ b, ofAdditions additions = .ok b →
      ((∃ e, b.build = .error e) ↔ ∃ v < vertexTotal additions,
        (∀ w, .edge v w ∉ additions) ∨ ∃ w, .edge v w ∈ additions ∧ vertexTotal additions ≤ w) ∧
      (∀ e, b.build = .error e ↔ ∃ v < vertexTotal additions, Defect additions v e ∧
        ∀ u < v, ∀ cause, ¬ Defect additions u cause) ∧
      ∀ g, b.build = .ok g → ∃ packed, b.pack = .ok packed ∧
        ∀ part, g.Derives part → part.Keeps additions ∧ part.Stores packed := by
  refine ⟨exists_ofAdditions_iff, fun b hb => ?_⟩
  have hcollects := collects_of_additions hb
  refine ⟨hcollects.exists_build_error_iff, fun e => hcollects.build_eq_error_iff,
    fun g made => ?_⟩
  have hpacked := b.pack_eq
  rw [made] at hpacked
  exact ⟨_, hpacked, fun part hpart =>
    ⟨keeps_of_build hcollects made hpart, stores_of_build made hpacked hpart⟩⟩

/-- A vertex that may stay or go on to the other one, which stays. -/
def ledge : List Addition := [.vertex .even 0, .vertex .even 0, .edge 0 1, .edge 0 0, .edge 1 1]

/-- Without the second vertex the first one keeps its loop, and its other edge is still listed. -/
theorem ledge_rest : ∃ b g, ofAdditions ledge = .ok b ∧ b.build = .ok g ∧
    (g.difference (VertexSet.ofList 2 [1])).contains 1 = false ∧
    (g.difference (VertexSet.ofList 2 [1])).successors 0 = [0] ∧
    (g.difference (VertexSet.ofList 2 [1])).predecessors 1 = [0] :=
  ⟨_, _, rfl, rfl, by decide +kernel⟩

theorem added_edges_kept_ledge : ∃ b g, ofAdditions ledge = .ok b ∧ b.build = .ok g ∧
    (g.difference (VertexSet.ofList 2 [1])).Keeps ledge ∧
    (g.difference (VertexSet.ofList 2 [1])).successors 0 = [0] ∧
    (g.difference (VertexSet.ofList 2 [1])).predecessors 1 = [0] := by
  obtain ⟨b, g, hb, made, -, hsuccessors, hpredecessors⟩ := ledge_rest
  obtain ⟨-, hbuilder⟩ := added_edges_kept ledge
  obtain ⟨-, -, hgame⟩ := hbuilder b hb
  obtain ⟨_, -, hparts⟩ := hgame g made
  obtain ⟨hkeeps, -⟩ := hparts _ (.difference _ .whole)
  exact ⟨b, g, hb, made, hkeeps, hsuccessors, hpredecessors⟩

/-- An inactive vertex is no successor of any vertex, but its predecessors are still listed. -/
theorem predecessors_of_inactive : ∃ b g part, ofAdditions ledge = .ok b ∧ b.build = .ok g ∧
    g.Derives part ∧ part.contains 1 = false ∧ part.predecessors 1 = [0] ∧
    ¬ ∀ u, u ∈ part.predecessors 1 ↔ part.contains u = true ∧ 1 ∈ part.successors u := by
  obtain ⟨b, g, hb, made, hinactive, hsuccessors, hpredecessors⟩ := ledge_rest
  refine ⟨b, g, _, hb, made, .difference _ .whole, hinactive, hpredecessors, fun h => ?_⟩
  have hedge := ((h 0).1 (by simp [hpredecessors])).2
  rw [hsuccessors] at hedge
  exact absurd hedge (by decide)

end Game

end ParityGames
