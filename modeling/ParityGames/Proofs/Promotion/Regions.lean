import ParityGames.Solver.Promotion
import ParityGames.Proofs.Data.Checked
import ParityGames.Proofs.Data.Listing
import ParityGames.Proofs.Game.Views

/-! # What the operations on regions change

Labels and moves after entering, completing and promoting a region, and what the tests of a region
decide.
-/

namespace ParityGames

namespace SortedMap

variable {α : Type}

theorem get?_ofList_graph (f : Nat → Option α) (places : List Nat) (v : Nat) :
    (ofList (places.filterMap fun u => (f u).map fun a => (u, a))).get? v =
      if v ∈ places then f v else none := by
  suffices ∀ m : SortedMap α,
      ((places.filterMap fun u => (f u).map fun a => (u, a)).foldl
        (fun m pair => m.insert pair.1 pair.2) m).get? v =
      if v ∈ places ∧ (f v).isSome then f v else m.get? v by
    rw [ofList, this]
    cases hf : f v <;> simp
  induction places with
  | nil => simp
  | cons u rest ih =>
      intro m
      cases hf : f u with
      | none =>
          rw [List.filterMap_cons_none (by simp [hf]), ih]
          by_cases hv : v = u
          · simp [hv, hf]
          · simp [hv]
      | some a =>
          rw [List.filterMap_cons_some (by rw [hf]; rfl), List.foldl_cons, ih, get?_insert]
          by_cases hv : v = u
          · simp [hv, hf]
          · simp [hv]

end SortedMap

namespace VertexTable

theorem foldl_entries (m : SortedMap Nat) (t : VertexTable (Option Nat)) :
    m.entries.foldl (fun t move => t.put move.1 (some move.2)) t =
      m.keys.foldl (fun t v => t.put v (m.get? v)) t := by
  rw [SortedMap.keys, List.foldl_map]
  apply List.foldl_ext _ _ _
  intro t move hmem
  rw [SortedMap.get?_eq_some_iff.2 hmem]

theorem getD_foldl_entries (m : SortedMap Nat) (t : VertexTable (Option Nat)) (v : Nat) :
    (m.entries.foldl (fun t move => t.put move.1 (some move.2)) t).getD v none =
      if v < t.length then (m.get? v).or (t.getD v none) else t.getD v none := by
  rw [foldl_entries, getD_foldl_put]
  simp only [SortedMap.mem_keys_iff]
  cases hv : m.get? v with
  | none => simp
  | some w => simp

theorem length_foldl_entries (m : SortedMap Nat) (t : VertexTable (Option Nat)) :
    (m.entries.foldl (fun t move => t.put move.1 (some move.2)) t).length = t.length := by
  rw [foldl_entries, length_foldl_put]

end VertexTable

namespace Promotion

namespace State

def region (s : State) (r : Nat) : Set Nat := {v | s.label v = some r}

def above (s : State) (r : Nat) : Set Nat := {v | ∃ q, r < q ∧ s.label v = some q}

@[simp] theorem mem_region {s : State} {r v : Nat} : v ∈ s.region r ↔ s.label v = some r :=
  Iff.rfl

@[simp] theorem mem_above {s : State} {r v : Nat} :
    v ∈ s.above r ↔ ∃ q, r < q ∧ s.label v = some q := Iff.rfl

variable {s : State} {g h : Game} {p : Player} {z : Territory} {v : Nat}

theorem mem_below : v ∈ s.below g ↔ g.contains v = true ∧ v ∉ s.above s.priority := by
  rw [below, List.mem_filter, Game.mem_vertices]
  apply and_congr_right
  intro _
  cases hl : s.label v with
  | none => simp [hl]
  | some r => simp [hl]

theorem mem_targets (hsub : ∀ v, h.contains v = true → g.contains v = true) :
    v ∈ s.targets g h ↔ h.contains v = true ∧
      (s.label v = some s.priority ∨ s.label v = none ∧ g.priorityOf v = s.priority) := by
  rw [targets, List.mem_filter, Game.mem_vertices]
  apply and_congr_right
  intro hv
  cases hl : s.label v with
  | none => simp [Game.priority?, hsub v hv]
  | some r => simp

theorem label_enter (hlength : s.labels.length = g.vertexCount)
    (hz : ∀ v, z.region.contains v = true → v < g.vertexCount) (v : Nat) :
    (s.enter z).label v = if z.region.contains v = true then some s.priority else s.label v := by
  simp only [label, enter]
  rw [VertexTable.getD_foldl_put z.region.toList (fun _ => some s.priority)]
  by_cases hv : z.region.contains v = true
  · simp [hv, hlength, hz v hv]
  · simp [hv]

theorem move_enter (hlength : s.moves.length = g.vertexCount)
    (hz : ∀ v w, z.moves.get? v = some w → v < g.vertexCount) (v : Nat) :
    (s.enter z).move v = (z.moves.get? v).or (s.move v) := by
  simp only [move, enter]
  rw [VertexTable.getD_foldl_entries]
  cases hv : z.moves.get? v with
  | none => simp
  | some w => simp [hlength, hz v w hv]

/-- Completing adds moves where there are none, if the moves in the region stay there. -/
theorem complete_spec {z : VertexSet} (hlength : s.moves.length = g.vertexCount)
    (hz : ∀ v, z.contains v = true → v < g.vertexCount)
    (hkeeps : ∀ v w, z.contains v = true → g.owner v = p → s.move v = some w →
      z.contains w = true) :
    (s.complete g h p z).moves.length = g.vertexCount ∧
      ∀ v, (s.complete g h p z).move v =
        if z.contains v = true ∧ g.owner v = p then
          (s.move v).or ((h.successors v).find? z.contains)
        else s.move v := by
  have hmem : ∀ v, v ∈ z.toList.filter (fun v => g.owner v = p) ↔
      z.contains v = true ∧ g.owner v = p := by
    intro v
    simp
  have hnodup : (z.toList.filter fun v => g.owner v = p).Nodup := z.nodup_toList.filter _
  suffices (s.complete g h p z).moves.length = g.vertexCount ∧
      ∀ v, (s.complete g h p z).moves.getD v none =
        if v ∈ z.toList.filter (fun v => g.owner v = p) then
          (s.move v).or ((h.successors v).find? z.contains)
        else s.move v by
    simp only [hmem] at this
    exact this
  -- By induction on the vertices that were looked at: they have the new moves, the others the old.
  refine foldl_induction _ _ _ (fun done (t : VertexTable (Option Nat)) =>
    t.length = g.vertexCount ∧ ∀ v, t.getD v none =
      if v ∈ done then (s.move v).or ((h.successors v).find? z.contains) else s.move v)
    ⟨hlength, fun v => by simp [move]⟩ ?_
  rintro done u rest t hitems ⟨ht, hget⟩
  have hu := (hmem u).1 (by simp [hitems])
  have hfresh : u ∉ done := by
    rw [hitems] at hnodup
    exact fun hin => (List.nodup_append.1 hnodup).2.2 u hin u (by simp) rfl
  have hput : ∀ value : Option Nat,
      value = (s.move u).or ((h.successors u).find? z.contains) →
      (t.put u value).length = g.vertexCount ∧ ∀ v, (t.put u value).getD v none =
        if v ∈ done ++ [u] then (s.move v).or ((h.successors v).find? z.contains)
        else s.move v := by
    rintro value rfl
    refine ⟨(VertexTable.length_put ..).trans ht, fun v => ?_⟩
    rw [VertexTable.getD_put, hget]
    by_cases hv : v = u
    · simp [hv, ht, hz u hu.1]
    · simp [hv]
  have hold : t.getD u none = s.move u := by rw [hget, if_neg hfresh]
  cases hmove : s.move u with
  | none =>
      simp only [hold, hmove]
      exact hput _ (by simp [hmove])
  | some w =>
      simp only [hold, hmove, hkeeps u w hu.1 hu.2 hmove, if_true]
      refine ⟨ht, fun v => ?_⟩
      rw [hget]
      by_cases hv : v = u
      · simp [hv, hmove]
      · simp [hv]

/-- The vertices whose regions are dissolved when `z` is promoted. -/
def dissolved (s : State) (g : Game) (z : VertexSet) (target : Nat) : List Nat :=
  g.vertices.filter fun v =>
    !z.contains v && (match s.label v with | some r => r < target | none => false)

theorem mem_dissolved {z : VertexSet} {target : Nat} :
    v ∈ s.dissolved g z target ↔
      g.contains v = true ∧ z.contains v = false ∧ ∃ r < target, s.label v = some r := by
  rw [dissolved, List.mem_filter, Game.mem_vertices]
  apply and_congr_right
  intro _
  cases hl : s.label v with
  | none => simp
  | some r => simp

theorem label_promote {z : VertexSet} {target : Nat} (hlength : s.labels.length = g.vertexCount)
    (hz : ∀ v, z.contains v = true → v < g.vertexCount)
    (hg : ∀ v, g.contains v = true → v < g.vertexCount) (v : Nat) :
    (s.promote g z target).label v =
      if z.contains v = true then some target
      else if v ∈ s.dissolved g z target then none else s.label v := by
  have hin : v ∈ s.dissolved g z target → v < g.vertexCount := fun hv =>
    hg v (mem_dissolved.1 hv).1
  have hlabels : (s.promote g z target).label v =
      (z.toList.foldl (fun t v => t.put v (some target))
        ((s.dissolved g z target).foldl (fun t v => t.put v none) s.labels)).getD v none := rfl
  rw [hlabels, VertexTable.getD_foldl_put z.toList (fun _ => some target),
    VertexTable.length_foldl_put _ (fun _ => none), VertexTable.getD_foldl_put _ (fun _ => none),
    hlength]
  refine if_congr ?_ rfl (if_congr ?_ rfl rfl)
  · exact (and_congr_left' VertexSet.mem_toList).trans (and_iff_left_of_imp (hz v))
  · exact and_iff_left_of_imp hin

theorem move_promote {z : VertexSet} {target : Nat} (hlength : s.moves.length = g.vertexCount)
    (hg : ∀ v, g.contains v = true → v < g.vertexCount) (v : Nat) :
    (s.promote g z target).move v = if v ∈ s.dissolved g z target then none else s.move v := by
  have hin : v ∈ s.dissolved g z target → v < g.vertexCount := fun hv =>
    hg v (mem_dissolved.1 hv).1
  have hmoves : (s.promote g z target).move v =
      ((s.dissolved g z target).foldl (fun t v => t.put v none) s.moves).getD v none := rfl
  rw [hmoves, VertexTable.getD_foldl_put _ (fun _ => none), hlength]
  exact if_congr (and_iff_left_of_imp hin) rfl rfl

theorem length_promote {z : VertexSet} {target : Nat} :
    (s.promote g z target).labels.length = s.labels.length ∧
      (s.promote g z target).moves.length = s.moves.length := by
  constructor
  · exact (VertexTable.length_foldl_put _ (fun _ => some target) _).trans
      (VertexTable.length_foldl_put _ (fun _ => none) _)
  · exact VertexTable.length_foldl_put _ (fun _ => none) _

theorem get?_territory {z : VertexSet} (v : Nat) :
    (s.territory g p z).moves.get? v =
      if z.contains v = true ∧ g.owner v = p then s.move v else none := by
  simp only [territory]
  rw [SortedMap.get?_ofList_graph (fun v => s.move v)]
  simp

end State

variable {g h : Game} {p : Player} {z : VertexSet} {s : State}

theorem isOpen_eq_false : isOpen g h p z = false ↔
    ∀ v, z.contains v = true → g.owner v = p → ∃ w ∈ h.successors v, z.contains w = true := by
  simp [isOpen]

theorem isLeaky_eq_false : isLeaky g h p z = false ↔
    ∀ v, z.contains v = true → g.owner v ≠ p → ∀ w ∈ h.successors v, z.contains w = true := by
  simp [isLeaky]

theorem mem_outside {priority : Nat} :
    priority ∈ (h.vertices.filter fun v => !z.contains v).filterMap h.priority? ↔
      ∃ v, h.contains v = true ∧ z.contains v = false ∧ h.priorityOf v = priority := by
  rw [List.mem_filterMap]
  apply exists_congr
  intro v
  rw [List.mem_filter, Game.mem_vertices, and_assoc]
  apply and_congr_right
  intro hv
  simp [Game.priority?, hv]

theorem nextPriority?_eq_none (hnone : nextPriority? h z = none) (v : Nat)
    (hv : h.contains v = true) : z.contains v = true := by
  have hnil := List.max?_eq_none_iff.1 hnone
  by_contra hout
  have hmem := mem_outside.2 ⟨v, hv, by simpa using hout, rfl⟩
  rw [hnil] at hmem
  cases hmem

theorem nextPriority?_eq_some {next : Nat} (hsome : nextPriority? h z = some next) :
    (∃ v, h.contains v = true ∧ z.contains v = false ∧ h.priorityOf v = next) ∧
      ∀ v, h.contains v = true → z.contains v = false → h.priorityOf v ≤ next := by
  obtain ⟨hmem, hmax⟩ := List.max?_eq_some_iff.1 hsome
  exact ⟨mem_outside.1 hmem, fun v hv hout => hmax _ (mem_outside.2 ⟨v, hv, hout, rfl⟩)⟩

theorem mem_escapes {r : Nat} :
    r ∈ (((z.toList.filter fun v => g.owner v ≠ p).flatMap g.successors).filter
      (fun w => !z.contains w)).filterMap s.label ↔
    ∃ v w, z.contains v = true ∧ g.owner v ≠ p ∧ w ∈ g.successors v ∧ z.contains w = false ∧
      s.label w = some r := by
  simp only [List.mem_filterMap, List.mem_filter, List.mem_flatMap, VertexSet.mem_toList,
    decide_eq_true_eq, Bool.not_eq_true']
  constructor
  · rintro ⟨w, ⟨⟨v, ⟨hv, howner⟩, hw⟩, hout⟩, hlabel⟩
    exact ⟨v, w, hv, howner, hw, hout, hlabel⟩
  · rintro ⟨v, w, hv, howner, hw, hout, hlabel⟩
    exact ⟨w, ⟨⟨v, ⟨hv, howner⟩, hw⟩, hout⟩, hlabel⟩

theorem escape?_eq_none (hnone : escape? s g p z = none) {v w : Nat} (hv : z.contains v = true)
    (howner : g.owner v ≠ p) (hw : w ∈ g.successors v) (hout : z.contains w = false) :
    s.label w = none := by
  have hnil := List.min?_eq_none_iff.1 hnone
  rw [Option.eq_none_iff_forall_ne_some]
  intro r hlabel
  have hmem := mem_escapes.2 ⟨v, w, hv, howner, hw, hout, hlabel⟩
  rw [hnil] at hmem
  cases hmem

theorem escape?_eq_some {target : Nat} (hsome : escape? s g p z = some target) :
    (∃ v w, z.contains v = true ∧ g.owner v ≠ p ∧ w ∈ g.successors v ∧ z.contains w = false ∧
      s.label w = some target) ∧
    ∀ v w r, z.contains v = true → g.owner v ≠ p → w ∈ g.successors v → z.contains w = false →
      s.label w = some r → target ≤ r := by
  obtain ⟨hmem, hmin⟩ := List.min?_eq_some_iff.1 hsome
  exact ⟨mem_escapes.1 hmem, fun v w r hv howner hw hout hlabel =>
    hmin r (mem_escapes.2 ⟨v, w, hv, howner, hw, hout, hlabel⟩)⟩

end Promotion

end ParityGames
