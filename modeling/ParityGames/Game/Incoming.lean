import ParityGames.VertexTable

/-!
# Incoming edges

For every vertex the sources of the edges into it, in the order in which the edges are given.
-/

namespace ParityGames

structure Incoming where
  sources : VertexTable (List Nat)
deriving DecidableEq

namespace Incoming

/-- Enter the edges, each a source and a target, for vertices below `count`. -/
def ofEdges (count : Nat) (edges : List (Nat × Nat)) : Incoming :=
  ⟨edges.foldr (fun edge table => table.put edge.2 (edge.1 :: table.getD edge.2 []))
    (VertexTable.fill [] count)⟩

def of (incoming : Incoming) (v : Nat) : List Nat := incoming.sources.getD v []

def edgeCount (incoming : Incoming) : Nat := incoming.sources.toList.flatten.length

@[simp] theorem length_ofEdges (count : Nat) (edges : List (Nat × Nat)) :
    (ofEdges count edges).sources.length = count := by
  unfold ofEdges
  induction edges with
  | nil => simp
  | cons edge rest ih => simpa using ih

/-- The row of a vertex lists the sources of exactly its edges, in the order given. -/
theorem of_ofEdges {count : Nat} (edges : List (Nat × Nat)) {v : Nat} (hv : v < count) :
    (ofEdges count edges).of v = (edges.filter (fun edge => edge.2 == v)).map (·.1) := by
  induction edges with
  | nil => simp [ofEdges, of]
  | cons edge rest ih =>
      have hl := length_ofEdges count rest
      unfold ofEdges at hl ih ⊢
      simp only [of, List.foldr_cons, VertexTable.getD_put, hl] at ih ⊢
      by_cases h : v = edge.2
      · subst h
        simp [hv, ih]
      · simp [h, Ne.symm h, ih]

end Incoming

end ParityGames
