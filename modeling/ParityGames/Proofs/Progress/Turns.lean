import ParityGames.Progress.Schedule
import ParityGames.Proofs.Data.Checked
import ParityGames.Proofs.Game.Edges

/-! # What schedules cover

A vertex is settled until one of its successors changes. A schedule covers a game if every vertex
is settled that it need not hand out again, so all of them are settled when it ends.
-/

namespace ParityGames

namespace Schedule

variable {g : Game} {s t : Schedule} {settled : Nat → Prop} {v : Nat}

/-- Whether a place was handed out within the last turns before a position. -/
def Recent (count position unchanged i : Nat) : Prop :=
  i < position ∧ position ≤ i + unchanged ∨ position ≤ i ∧ position + count ≤ i + unchanged

def Covers (g : Game) (settled : Nat → Prop) : Schedule → Prop
  | .round vertices position unchanged =>
      vertices = VertexTable.ofList g.vertices ∧ unchanged ≤ g.vertices.length ∧
      (g.vertices = [] ∨ position < g.vertices.length) ∧
      ∀ i v, g.vertices[i]? = some v → Recent g.vertices.length position unchanged i → settled v
  | .queue incoming waiting queued =>
      incoming = g.activeIncoming ∧ queued.capacity = g.vertexCount ∧ waiting.Nodup ∧
      (∀ v, v ∈ waiting ↔ queued.contains v = true) ∧
      (∀ v ∈ waiting, g.contains v = true) ∧
      ∀ v, g.contains v = true → v ∉ waiting → settled v

def turnsLeft (g : Game) : Schedule → Nat
  | .round _ _ unchanged => g.vertices.length - unchanged
  | .queue _ waiting _ => waiting.length

theorem length_le_of_active {waiting : List Nat} (hnodup : waiting.Nodup)
    (hactive : ∀ v ∈ waiting, g.contains v = true) : waiting.length ≤ g.vertices.length :=
  hnodup.length_le_of_subset fun v hv => Game.mem_vertices.2 (hactive v hv)

theorem covers_start (hg : g.Coherent) (policy : Policy) :
    (start g policy).Covers g settled ∧ (start g policy).turnsLeft g = g.vertices.length := by
  cases policy with
  | linear =>
      refine ⟨⟨rfl, Nat.zero_le _, ?_, ?_⟩, rfl⟩
      · cases g.vertices with
        | nil => exact Or.inl rfl
        | cons v rest => exact Or.inr (Nat.succ_pos _)
      · intro i v hi hrecent
        have hlt := (List.getElem?_eq_some_iff.1 hi).1
        unfold Recent at hrecent
        omega
  | predecessor =>
      refine ⟨⟨rfl, hg.capacity, VertexSet.nodup_toList _, ?_, ?_, ?_⟩, rfl⟩
      · intro v
        exact VertexSet.mem_toList
      · intro v hv
        exact Game.mem_vertices.1 hv
      · intro v hv hout
        exact absurd (Game.mem_vertices.2 hv) hout

theorem settled_of_next_none (hs : s.Covers g settled) (hnext : s.next.1 = none)
    (hv : g.contains v = true) : settled v := by
  cases s with
  | round vertices position unchanged =>
      obtain ⟨rfl, hle, hposition, hsettled⟩ := hs
      have hend : ¬ unchanged < g.vertices.length := by
        intro hlt
        simp [next, hlt] at hnext
      obtain ⟨i, hi, hget⟩ := List.getElem_of_mem (Game.mem_vertices.2 hv)
      refine hsettled i v (List.getElem?_eq_some_iff.2 ⟨hi, hget⟩) ?_
      have hin : position < g.vertices.length := by
        rcases hposition with hnil | hin
        · rw [hnil] at hi
          cases hi
        · exact hin
      unfold Recent
      omega
  | queue incoming waiting queued =>
      obtain ⟨-, -, -, -, -, hsettled⟩ := hs
      cases waiting with
      | nil => exact hsettled v hv (by simp)
      | cons u rest => cases hnext

/-- A turn of a round: the next place is handed out. -/
theorem next_round {position unchanged : Nat}
    (hposition : g.vertices = [] ∨ position < g.vertices.length)
    (hnext : (round (VertexTable.ofList g.vertices) position unchanged).next = (some v, t)) :
    unchanged < g.vertices.length ∧ g.vertices[position]? = some v ∧
      t = round (VertexTable.ofList g.vertices) ((position + 1) % g.vertices.length)
        (unchanged + 1) := by
  simp only [next, VertexTable.length_ofList, VertexTable.getD_ofList] at hnext
  split at hnext
  · rename_i hlt
    have hin : position < g.vertices.length := by
      rcases hposition with hnil | hin
      · rw [hnil] at hlt
        cases hlt
      · exact hin
    obtain ⟨hv, rfl⟩ := Prod.mk.inj hnext
    rw [List.getElem?_eq_getElem hin] at hv ⊢
    exact ⟨hlt, congrArg some (Option.some.inj hv), rfl⟩
  · cases hnext

/-- A turn of a queue: its first vertex is handed out. -/
theorem mem_rest_iff {rest : List Nat} {queued : VertexSet} (hnodup : (v :: rest).Nodup)
    (hqueued : ∀ u, u ∈ v :: rest ↔ queued.contains u = true) (u : Nat) :
    u ∈ rest ↔ (queued.remove v).contains u = true := by
  have hfresh := (List.nodup_cons.1 hnodup).1
  rw [VertexSet.contains_remove, Bool.and_eq_true, ← hqueued, List.mem_cons]
  simp only [Bool.not_eq_true', decide_eq_false_iff_not]
  constructor
  · intro hu
    exact ⟨Or.inr hu, fun heq => hfresh (heq ▸ hu)⟩
  · rintro ⟨hu | hu, hne⟩
    · exact absurd hu hne
    · exact hu

theorem contains_of_next (hs : s.Covers g settled) (hnext : s.next = (some v, t)) :
    g.contains v = true := by
  cases s with
  | round vertices position unchanged =>
      obtain ⟨rfl, hle, hposition, -⟩ := hs
      obtain ⟨-, hget, -⟩ := next_round hposition hnext
      exact Game.mem_vertices.1 (List.mem_of_getElem? hget)
  | queue incoming waiting queued =>
      obtain ⟨-, -, -, -, hactive, -⟩ := hs
      cases waiting with
      | nil => cases hnext
      | cons u rest =>
          cases hnext
          exact hactive v (by simp)

theorem covers_next (hs : s.Covers g settled) (hnext : s.next = (some v, t)) (hv : settled v) :
    t.Covers g settled ∧ t.turnsLeft g < s.turnsLeft g := by
  cases s with
  | round vertices position unchanged =>
      obtain ⟨rfl, hle, hposition, hsettled⟩ := hs
      obtain ⟨hlt, hget, rfl⟩ := next_round hposition hnext
      have hin := (List.getElem?_eq_some_iff.1 hget).1
      refine ⟨⟨rfl, hlt, Or.inr (Nat.mod_lt _ (by omega)), fun i u hi hrecent => ?_⟩, ?_⟩
      · have hilt := (List.getElem?_eq_some_iff.1 hi).1
        by_cases hip : i = position
        · subst hip
          rw [hget] at hi
          exact Option.some.inj hi ▸ hv
        · apply hsettled i u hi
          unfold Recent at hrecent ⊢
          by_cases hwrap : position + 1 = g.vertices.length
          · rw [hwrap, Nat.mod_self] at hrecent
            omega
          · rw [Nat.mod_eq_of_lt (by omega)] at hrecent
            omega
      · show g.vertices.length - (unchanged + 1) < g.vertices.length - unchanged
        omega
  | queue incoming waiting queued =>
      obtain ⟨hincoming, hcapacity, hnodup, hqueued, hactive, hsettled⟩ := hs
      cases waiting with
      | nil => cases hnext
      | cons u rest =>
          cases hnext
          refine ⟨⟨hincoming, ?_, (List.nodup_cons.1 hnodup).2, mem_rest_iff hnodup hqueued,
            fun w hw => hactive w (by simp [hw]), fun w hw hout => ?_⟩, Nat.lt_succ_self _⟩
          · rw [VertexSet.capacity_remove, hcapacity]
          · by_cases hwv : w = v
            · exact hwv ▸ hv
            · exact hsettled w hw (by simp [hwv, hout])

theorem Covers.mono {settled' : Nat → Prop} (hs : s.Covers g settled)
    (h : ∀ u, settled u → settled' u) : s.Covers g settled' := by
  cases s with
  | round vertices position unchanged =>
      obtain ⟨hvertices, hle, hposition, hsettled⟩ := hs
      exact ⟨hvertices, hle, hposition, fun i u hi hrecent => h u (hsettled i u hi hrecent)⟩
  | queue incoming waiting queued =>
      obtain ⟨hincoming, hcapacity, hnodup, hqueued, hactive, hsettled⟩ := hs
      exact ⟨hincoming, hcapacity, hnodup, hqueued, hactive, fun u hu hout => h u (hsettled u hu hout)⟩

/-- The vertices that are not waiting yet are put at the end, in the order in which they come. -/
theorem foldl_enqueue {sources : List Nat} (hnodup : sources.Nodup) (waiting : List Nat)
    (queued : VertexSet) (hlt : ∀ u ∈ sources, u < queued.capacity) :
    ∃ queued', sources.foldl enqueue (waiting, queued) =
        (waiting ++ sources.filter (fun u => !queued.contains u), queued') ∧
      queued'.capacity = queued.capacity ∧
      ∀ u, queued'.contains u = true ↔ queued.contains u = true ∨ u ∈ sources := by
  induction sources generalizing waiting queued with
  | nil => exact ⟨queued, by simp, rfl, by simp⟩
  | cons u rest ih =>
      obtain ⟨hfresh, hrest⟩ := List.nodup_cons.1 hnodup
      by_cases hin : queued.contains u = true
      · have hsame : enqueue (waiting, queued) u = (waiting, queued) := if_pos hin
        obtain ⟨queued', hfold, hcapacity, hcontains⟩ :=
          ih hrest waiting queued fun w hw => hlt w (List.mem_cons_of_mem u hw)
        refine ⟨queued', ?_, hcapacity, fun w => ?_⟩
        · rw [List.foldl_cons, hsame, hfold, List.filter_cons_of_neg (by simp [hin])]
        · rw [hcontains, List.mem_cons]
          constructor
          · exact Or.imp_right Or.inr
          · rintro (hw | rfl | hw)
            · exact Or.inl hw
            · exact Or.inl hin
            · exact Or.inr hw
      · have hjoin : enqueue (waiting, queued) u = (waiting ++ [u], queued.insert u) := if_neg hin
        obtain ⟨queued', hfold, hcapacity, hcontains⟩ :=
          ih hrest (waiting ++ [u]) (queued.insert u) fun w hw => by
            rw [VertexSet.capacity_insert]
            exact hlt w (List.mem_cons_of_mem u hw)
        have hsame : rest.filter (fun w => !(queued.insert u).contains w) =
            rest.filter fun w => !queued.contains w := by
          refine List.filter_congr fun w hw => ?_
          have hne : w ≠ u := fun heq => hfresh (heq ▸ hw)
          simp [VertexSet.contains_insert, hne]
        refine ⟨queued', ?_, hcapacity.trans (VertexSet.capacity_insert _ _), fun w => ?_⟩
        · rw [List.foldl_cons, hjoin, hfold, hsame, List.filter_cons_of_pos (by simp [hin]),
            List.append_assoc, List.singleton_append]
        · have hu := hlt u List.mem_cons_self
          simp only [hcontains, VertexSet.contains_insert, Bool.or_eq_true, Bool.and_eq_true,
            decide_eq_true_eq, hu, and_true, List.mem_cons]
          tauto

/-- The queue after a vertex changed: its predecessors wait, those that did not wait before behind
the others. -/
theorem lifted_queue (hg : g.Coherent) (hv : g.contains v = true) (waiting : List Nat)
    {queued : VertexSet} (hcapacity : queued.capacity = g.vertexCount) :
    ∃ queued', (queue g.activeIncoming waiting queued).lifted v = queue g.activeIncoming
        (waiting ++ (g.predecessors v).filter fun u => !queued.contains u) queued' ∧
      queued'.capacity = g.vertexCount ∧
      ∀ u, queued'.contains u = true ↔ queued.contains u = true ∨ u ∈ g.predecessors v := by
  obtain ⟨queued', hfold, hcap, hcontains⟩ := foldl_enqueue (hg.nodup_predecessors hv) waiting
    queued fun u hu => by
      rw [hcapacity]
      exact hg.contains_lt ((hg.mem_predecessors hv).1 hu).1
  refine ⟨queued', ?_, hcap.trans hcapacity, hcontains⟩
  rw [lifted, hg.activeIncoming_of, if_pos hv]
  simp only [hfold]

theorem Covers.lifted (hs : s.Covers g settled) (hg : g.Coherent) (hv : g.contains v = true)
    {settled' : Nat → Prop}
    (hkept : ∀ u, g.contains u = true → v ∉ g.successors u → settled u → settled' u) :
    (s.lifted v).Covers g settled' ∧ (s.lifted v).turnsLeft g ≤ g.vertices.length := by
  cases s with
  | round vertices position unchanged =>
      obtain ⟨rfl, -, hposition, -⟩ := hs
      refine ⟨⟨rfl, Nat.zero_le _, hposition, fun i u hi hrecent => ?_⟩, Nat.sub_le _ _⟩
      have hlt := (List.getElem?_eq_some_iff.1 hi).1
      unfold Recent at hrecent
      omega
  | queue incoming waiting queued =>
      obtain ⟨rfl, hcapacity, hnodup, hqueued, hactive, hsettled⟩ := hs
      obtain ⟨queued', hlifted, hcap, hcontains⟩ := lifted_queue hg hv waiting hcapacity
      have hmem : ∀ u, u ∈ waiting ++ (g.predecessors v).filter (fun u => !queued.contains u) ↔
          u ∈ waiting ∨ u ∈ g.predecessors v := by
        intro u
        rw [List.mem_append, List.mem_filter, hqueued u]
        cases queued.contains u <;> simp
      have hactive' : ∀ u ∈ waiting ++ (g.predecessors v).filter (fun u => !queued.contains u),
          g.contains u = true := by
        intro u hu
        rcases (hmem u).1 hu with hu | hu
        · exact hactive u hu
        · exact ((hg.mem_predecessors hv).1 hu).1
      have hnodup' : (waiting ++ (g.predecessors v).filter
          (fun u => !queued.contains u)).Nodup := by
        refine List.nodup_append.2 ⟨hnodup, (hg.nodup_predecessors hv).filter _, ?_⟩
        rintro u hu w hw rfl
        rw [List.mem_filter, (hqueued u).1 hu] at hw
        exact absurd hw.2 (by simp)
      rw [hlifted]
      refine ⟨⟨rfl, hcap, hnodup', fun u => ?_, hactive', fun u hu hout => ?_⟩,
        length_le_of_active hnodup' hactive'⟩
      · rw [hmem, hcontains, hqueued]
      · rw [hmem, not_or, hg.mem_predecessors hv] at hout
        exact hkept u hu (fun hedge => hout.2 ⟨hu, hedge⟩) (hsettled u hu hout.1)

theorem covers_lifted (hg : g.Coherent) (hs : s.Covers g settled)
    (hnext : s.next = (some v, t)) {settled' : Nat → Prop}
    (hkept : ∀ u, g.contains u = true → u ≠ v → v ∉ g.successors u → settled u → settled' u)
    (hv : settled' v ∨ v ∈ g.successors v) :
    (t.lifted v).Covers g settled' ∧ (t.lifted v).turnsLeft g ≤ g.vertices.length := by
  have hafter : s.Covers g fun u => u = v ∨ settled u := hs.mono fun u hu => Or.inr hu
  obtain ⟨hcovers, -⟩ := covers_next hafter hnext (Or.inl rfl)
  refine hcovers.lifted hg (contains_of_next hs hnext) fun u hu hedge hsettled => ?_
  by_cases huv : u = v
  · subst huv
    exact hv.resolve_right hedge
  · exact hkept u hu huv hedge (hsettled.resolve_left huv)

end Schedule

end ParityGames
