import ParityGames.Proofs.Game.Views
import Mathlib.Data.List.Sort

/-! # The edges of a game

The edges between active vertices, by source and then by target, and what can be read off them: the
predecessors of active vertices once more.
-/

namespace ParityGames

theorem Incoming.of_ofEdges_of_le {count v : Nat} (edges : List (Nat × Nat)) (h : count ≤ v) :
    (Incoming.ofEdges count edges).of v = [] :=
  VertexTable.getD_of_length_le (by rwa [Incoming.length_ofEdges])

namespace Game

variable {g : Game} {u v : Nat}

theorem mem_edges : (u, v) ∈ g.edges ↔ g.contains u = true ∧ v ∈ g.successors u := by
  simp only [edges, List.mem_flatMap, List.mem_map, mem_vertices, Prod.mk.injEq]
  constructor
  · rintro ⟨x, hx, y, hy, rfl, rfl⟩
    exact ⟨hx, hy⟩
  · rintro ⟨hu, hv⟩
    exact ⟨u, hu, v, hv, rfl, rfl⟩

namespace Coherent

theorem successors_increasing (hg : g.Coherent) (v : Nat) :
    (g.successors v).Pairwise (· < ·) := (hg.row_increasing v).filter _

theorem edges_increasing (hg : g.Coherent) :
    g.edges.Pairwise fun e f => e.1 < f.1 ∨ e.1 = f.1 ∧ e.2 < f.2 := by
  refine List.pairwise_flatMap.2 ⟨fun u _ => ?_, ?_⟩
  · rw [List.pairwise_map]
    exact (hg.successors_increasing u).imp fun hlt => Or.inr ⟨rfl, hlt⟩
  · refine g.active.toList_increasing.imp fun {u w} hlt e he f hf => Or.inl ?_
    obtain ⟨_, -, rfl⟩ := List.mem_map.1 he
    obtain ⟨_, -, rfl⟩ := List.mem_map.1 hf
    exact hlt

theorem nodup_edges (hg : g.Coherent) : g.edges.Nodup := by
  refine hg.edges_increasing.imp fun {e f} hlt heq => ?_
  rw [heq] at hlt
  omega

theorem target_lt (hg : g.Coherent) {e : Nat × Nat} (he : e ∈ g.edges) : e.2 < g.vertexCount :=
  hg.contains_lt (contains_of_mem_successors (mem_edges.1 he).2)

theorem predecessors_increasing (hg : g.Coherent) (hv : v < g.vertexCount) :
    (g.predecessors v).Pairwise (· < ·) := by
  rw [predecessors, hg.incoming v hv]
  exact (List.pairwise_lt_range.filter _).filter _

/-- Edges into inactive vertices are seen from their targets alone. -/
theorem mem_predecessors_iff (hg : g.Coherent) (hv : v < g.vertexCount) :
    u ∈ g.predecessors v ↔ v ∈ g.row u ∧ g.contains u = true := by
  rw [predecessors, hg.incoming v hv, List.mem_filter, List.mem_filter, List.mem_range,
    decide_eq_true_eq, and_congr_left_iff]
  exact fun hu => and_iff_right (hg.contains_lt hu)

/-- The incoming edges between active vertices are those of the arena. -/
theorem activeIncoming_of (hg : g.Coherent) (v : Nat) :
    g.activeIncoming.of v = if g.contains v then g.predecessors v else [] := by
  by_cases hlt : v < g.vertexCount
  · have hmem : ∀ u, u ∈ g.activeIncoming.of v ↔ g.contains u = true ∧ v ∈ g.successors u := by
      intro u
      rw [activeIncoming, Incoming.of_ofEdges _ hlt, List.mem_map]
      simp only [List.mem_filter, beq_iff_eq]
      constructor
      · rintro ⟨e, ⟨he, rfl⟩, rfl⟩
        exact mem_edges.1 he
      · exact fun h => ⟨(u, v), ⟨mem_edges.2 h, rfl⟩, rfl⟩
    split
    · rename_i hv
      have hincreasing : (g.activeIncoming.of v).Pairwise (· < ·) := by
        rw [activeIncoming, Incoming.of_ofEdges _ hlt, List.pairwise_map, List.pairwise_filter]
        refine hg.edges_increasing.imp fun {e f} hle he hf => hle.resolve_right fun heq => ?_
        rw [beq_iff_eq.1 he, beq_iff_eq.1 hf] at heq
        exact Nat.lt_irrefl v heq.2
      refine hincreasing.sortedLT.eq_of_mem_iff (hg.predecessors_increasing hlt).sortedLT ?_
      exact fun u => (hmem u).trans (hg.mem_predecessors hv).symm
    · rename_i hv
      exact List.eq_nil_iff_forall_not_mem.2 fun u hu =>
        hv (contains_of_mem_successors ((hmem u).1 hu).2)
  · have hv : ¬ g.contains v = true := fun hv => hlt (hg.contains_lt hv)
    rw [if_neg hv]
    exact Incoming.of_ofEdges_of_le g.edges (Nat.le_of_not_lt hlt)

end Coherent

end Game

end ParityGames
