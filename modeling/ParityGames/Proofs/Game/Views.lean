import ParityGames.Game.Play
import ParityGames.Proofs.Game.Reached

/-! # What a coherent game lists

Membership in the lists of a game, and what a part of a game shares with it.
-/

namespace ParityGames

namespace SortedMap

variable {α : Type} {m : SortedMap α}

theorem lookup_entries (m : SortedMap α) (k : Nat) : m.entries.lookup k = m.get? k := by
  unfold get?
  induction m.entries with
  | nil => rfl
  | cons entry rest ih =>
      rw [List.lookup_cons, lookupEntry, ih]
      by_cases hk : k = entry.1
      · simp [hk]
      · have hne : (k == entry.1) = false := by simpa using hk
        simp [hk, hne]

theorem lastKey?_eq_none_iff : m.lastKey? = none ↔ ∀ k, m.get? k = none := by
  rw [lastKey?, List.getLast?_eq_none_iff]
  constructor
  · intro h k
    have hk : k ∉ m.keys := by simp [h]
    rw [mem_keys_iff] at hk
    simpa using hk
  · intro h
    rw [List.eq_nil_iff_forall_not_mem]
    intro k hk
    rw [mem_keys_iff, h k] at hk
    cases hk

theorem lastKey?_eq_some {d : Nat} (h : m.lastKey? = some d) :
    (m.get? d).isSome ∧ ∀ k, (m.get? k).isSome → k ≤ d := by
  rw [lastKey?, List.getLast?_eq_some_iff] at h
  obtain ⟨below, hkeys⟩ := h
  refine ⟨mem_keys_iff.1 (by simp [hkeys]), fun k hk => ?_⟩
  have hmem := mem_keys_iff.2 hk
  have hincreasing := m.keys_increasing
  rw [hkeys] at hmem hincreasing
  rcases List.mem_append.1 hmem with hmem | hmem
  · exact Nat.le_of_lt ((List.pairwise_append.1 hincreasing).2.2 k hmem d (by simp))
  · exact Nat.le_of_eq (by simpa using hmem)

end SortedMap

namespace Game

variable {g : Game}

@[simp] theorem mem_vertices {v : Nat} : v ∈ g.vertices ↔ g.contains v = true :=
  VertexSet.mem_toList

theorem size_eq_length (g : Game) : g.size = g.vertices.length :=
  VertexSet.size_eq_length_toList _

theorem mem_successors {v w : Nat} : w ∈ g.successors v ↔ w ∈ g.row v ∧ g.contains w = true := by
  rw [successors, List.mem_filter]
  rfl

theorem contains_of_mem_successors {v w : Nat} (h : w ∈ g.successors v) : g.contains w = true :=
  (mem_successors.1 h).2

theorem isTotal_iff : g.isTotal = true ↔ ∀ v, g.contains v = true → ∃ w, w ∈ g.successors v := by
  simp only [isTotal, List.all_eq_true, mem_vertices]
  apply forall₂_congr
  intro v _
  cases g.successors v <;> simp

namespace Coherent

theorem contains_lt (h : g.Coherent) {v : Nat} (hv : g.contains v = true) : v < g.vertexCount :=
  h.capacity ▸ VertexSet.lt_capacity hv

theorem length_vertices_le (h : g.Coherent) : g.vertices.length ≤ g.vertexCount :=
  length_le_of_lt g.active.nodup_toList fun _ hv => h.contains_lt (mem_vertices.1 hv)

theorem nodup_successors (h : g.Coherent) (v : Nat) : (g.successors v).Nodup :=
  ((h.row_increasing v).imp fun hlt => Nat.ne_of_lt hlt).filter _

theorem mem_predecessors (h : g.Coherent) {u v : Nat} (hv : g.contains v = true) :
    u ∈ g.predecessors v ↔ g.contains u = true ∧ v ∈ g.successors u := by
  rw [predecessors, h.incoming v (h.contains_lt hv), List.mem_filter, List.mem_filter,
    List.mem_range, mem_successors]
  constructor
  · rintro ⟨⟨_, hrow⟩, hu⟩
    exact ⟨hu, by simpa using hrow, hv⟩
  · rintro ⟨hu, hrow, _⟩
    exact ⟨⟨h.contains_lt hu, by simpa using hrow⟩, hu⟩

theorem nodup_predecessors (h : g.Coherent) {v : Nat} (hv : g.contains v = true) :
    (g.predecessors v).Nodup := by
  rw [predecessors, h.incoming v (h.contains_lt hv)]
  exact (List.nodup_range.filter _).filter _

theorem mem_verticesWithPriority (h : g.Coherent) {p v : Nat} :
    v ∈ g.verticesWithPriority p ↔ g.contains v = true ∧ g.priorityOf v = p := by
  have hbucket := h.mem_bucket p v
  rw [bucket] at hbucket
  rw [verticesWithPriority, List.mem_filter, hbucket]
  constructor
  · rintro ⟨⟨_, hp⟩, hv⟩
    exact ⟨hv, hp⟩
  · rintro ⟨hv, hp⟩
    exact ⟨⟨h.contains_lt hv, hp⟩, hv⟩

theorem countWithPriority (h : g.Coherent) (p : Nat) :
    g.countWithPriority p = (g.vertices.map g.priorityOf).count p :=
  h.counts.getD p

theorem isSome_counts (h : g.Coherent) (p : Nat) :
    (g.counts.get? p).isSome ↔ ∃ v, g.contains v = true ∧ g.priorityOf v = p := by
  have hmem : p ∈ g.vertices.map g.priorityOf ↔ ∃ v, g.contains v = true ∧ g.priorityOf v = p := by
    simp
  rw [h.counts p, ← hmem, ← List.count_pos_iff, Nat.pos_iff_ne_zero]
  split
  · rename_i hzero
    simp [hzero]
  · rename_i hpos
    simp only [Option.isSome_some, true_iff]
    exact hpos

theorem maxPriority_none (h : g.Coherent) (hmax : g.maxPriority? = none) (v : Nat) :
    g.contains v = false := by
  have hnone := SortedMap.lastKey?_eq_none_iff.1 hmax (g.priorityOf v)
  rw [Bool.eq_false_iff]
  intro hv
  have hsome := (h.isSome_counts (g.priorityOf v)).2 ⟨v, hv, rfl⟩
  rw [hnone] at hsome
  cases hsome

theorem exists_maxPriority (h : g.Coherent) (hsome : ∃ v, g.contains v = true) :
    ∃ d, g.maxPriority? = some d := by
  cases hmax : g.maxPriority? with
  | none =>
      obtain ⟨v, hv⟩ := hsome
      rw [h.maxPriority_none hmax v] at hv
      cases hv
  | some d => exact ⟨d, rfl⟩

theorem maxPriority_some (h : g.Coherent) {d : Nat} (hmax : g.maxPriority? = some d) :
    (∃ v, g.contains v = true ∧ g.priorityOf v = d) ∧
      ∀ v, g.contains v = true → g.priorityOf v ≤ d := by
  obtain ⟨hsome, hle⟩ := SortedMap.lastKey?_eq_some hmax
  refine ⟨(h.isSome_counts d).1 hsome, fun v hv => ?_⟩
  exact hle _ ((h.isSome_counts _).2 ⟨v, hv, rfl⟩)

end Coherent

namespace PartOf

variable {part whole : Game}

theorem vertexCount (h : part.PartOf whole) : part.vertexCount = whole.vertexCount := by
  rw [Game.vertexCount, h.arena]
  rfl

theorem owner (h : part.PartOf whole) (v : Nat) : part.owner v = whole.owner v := by
  rw [Game.owner, h.arena]
  rfl

theorem row (h : part.PartOf whole) (v : Nat) : part.row v = whole.row v := by
  rw [Game.row, h.arena]
  rfl

theorem priorityOf (h : part.PartOf whole) (v : Nat) : part.priorityOf v = whole.priorityOf v := by
  rw [Game.priorityOf, h.priorities]
  rfl

theorem mem_successors (h : part.PartOf whole) {v w : Nat} (hw : whole.contains w = true) :
    w ∈ part.successors v ↔ w ∈ whole.successors v ∧ part.contains w = true := by
  rw [Game.mem_successors, Game.mem_successors, h.row]
  simp [hw]

end PartOf

end Game

end ParityGames
