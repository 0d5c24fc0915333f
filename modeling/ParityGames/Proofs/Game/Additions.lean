import ParityGames.Proofs.Game.Built
import Mathlib.Data.List.Induction
import Mathlib.Data.Nat.Find

/-! # Vertices and edges added to a builder

A builder is filled by calls that add a vertex or an edge. An edge can only be added from a vertex
that was added before; what is wrong with a vertex is known when all the calls are.
-/

namespace ParityGames

inductive Addition where
  | vertex (owner : Player) (priority : Nat)
  | edge (source target : Nat)
deriving DecidableEq, Repr

def vertexTotal (additions : List Addition) : Nat :=
  additions.countP fun
    | .vertex .. => true
    | .edge .. => false

/-- An edge from a vertex that was not added before it. -/
def Addition.Dangling (earlier : List Addition) : Addition → Prop
  | .vertex .. => False
  | .edge source _ => vertexTotal earlier ≤ source

/-- What is wrong with a vertex: it has no edge, or an edge to a vertex that is never added; then
the least such target counts. -/
inductive Defect (additions : List Addition) (v : Nat) : GameError → Prop
  | noSuccessors (none : ∀ w, .edge v w ∉ additions) : Defect additions v (.noSuccessors v)
  | unknownVertex {w : Nat} (added : .edge v w ∈ additions) (unknown : vertexTotal additions ≤ w)
      (least : ∀ x, .edge v x ∈ additions → vertexTotal additions ≤ x → w ≤ x) :
      Defect additions v (.unknownVertex v w)

namespace GameBuilder

def add (b : GameBuilder) : Addition → Except Fault GameBuilder
  | .vertex owner priority => .ok (b.addVertex owner priority)
  | .edge source target => b.addEdge source target

def ofAdditions (additions : List Addition) : Except Fault GameBuilder :=
  additions.foldlM add empty

structure Collects (b : GameBuilder) (additions : List Addition) : Prop where
  length : b.drafts.length = vertexTotal additions
  mem_targets : ∀ v w, w ∈ (b.drafts.getD v default).targets ↔ .edge v w ∈ additions

variable {b b' : GameBuilder} {additions : List Addition}

theorem Collects.vertex (h : b.Collects additions) (owner : Player) (priority : Nat) :
    (b.addVertex owner priority).Collects (additions ++ [.vertex owner priority]) where
  length := by
    have hlength := h.length
    unfold VertexTable.length at hlength
    simp [addVertex, VertexTable.push, VertexTable.length, vertexTotal, hlength]
  mem_targets := by
    intro v w
    have hrow : ((b.addVertex owner priority).drafts.getD v default).targets =
        (b.drafts.getD v default).targets := by
      simp only [addVertex, VertexTable.push, VertexTable.getD, Array.getD_eq_getD_getElem?,
        Array.getElem?_push]
      split
      · rename_i hv
        rw [hv, Array.getElem?_eq_none (Nat.le_refl _)]
        rfl
      · rfl
    rw [hrow, h.mem_targets]
    simp

theorem addEdge_eq_ok_iff {source target : Nat} : b.addEdge source target = .ok b' ↔
    source < b.drafts.length ∧ b' = ⟨b.drafts.put source
      { b.drafts.getD source default with
        targets := target :: (b.drafts.getD source default).targets }⟩ := by
  unfold addEdge VertexTable.read VertexTable.length VertexTable.getD
  rw [Array.getD_eq_getD_getElem?]
  by_cases hv : source < b.drafts.rows.size
  · simp [hv, pure, Except.pure, eq_comm]
  · simp [hv]

theorem Collects.edge (h : b.Collects additions) {source target : Nat}
    (made : b.addEdge source target = .ok b') :
    b'.Collects (additions ++ [.edge source target]) := by
  obtain ⟨hsource, rfl⟩ := addEdge_eq_ok_iff.1 made
  refine ⟨?_, fun v w => ?_⟩
  · rw [VertexTable.length_put, h.length]
    simp [vertexTotal]
  · rw [VertexTable.getD_put, List.mem_append, List.mem_singleton, Addition.edge.injEq,
      ← h.mem_targets]
    by_cases hv : v = source
    · subst hv
      simp [hsource, or_comm]
    · simp [hv]

theorem ofAdditions_concat (additions : List Addition) (last : Addition) :
    ofAdditions (additions ++ [last]) = (ofAdditions additions >>= fun b => b.add last) := by
  simp [ofAdditions]

theorem collects_of_additions (h : ofAdditions additions = .ok b) : b.Collects additions := by
  induction additions using List.reverseRecOn generalizing b with
  | nil =>
      cases h
      refine ⟨rfl, fun v w => iff_of_false ?_ List.not_mem_nil⟩
      rw [VertexTable.getD_of_length_le (Nat.zero_le v)]
      exact List.not_mem_nil
  | append_singleton additions last ih =>
      rw [ofAdditions_concat] at h
      obtain ⟨before, hbefore, hlast⟩ := bind_eq_ok_iff.1 h
      cases last with
      | vertex owner priority =>
          cases hlast
          exact (ih hbefore).vertex owner priority
      | edge source target => exact (ih hbefore).edge hlast

theorem Collects.exists_add_iff (h : b.Collects additions) {last : Addition} :
    (∃ b', b.add last = .ok b') ↔ ¬ last.Dangling additions := by
  cases last with
  | vertex owner priority => simp [add, Addition.Dangling]
  | edge source target => simp [add, addEdge_eq_ok_iff, h.length, Addition.Dangling]

/-- The calls come through if no edge is dangling. -/
theorem exists_ofAdditions_iff_not_dangling : (∃ b, ofAdditions additions = .ok b) ↔
    ¬ ∃ i, ∃ a : Addition, additions[i]? = some a ∧ a.Dangling (additions.take i) := by
  induction additions using List.reverseRecOn with
  | nil => simp [ofAdditions, pure, Except.pure]
  | append_singleton additions last ih =>
      rw [exists_place_concat Addition.Dangling, not_or, ← ih, ofAdditions_concat]
      constructor
      · rintro ⟨b', h⟩
        obtain ⟨b, hb, hlast⟩ := bind_eq_ok_iff.1 h
        exact ⟨⟨b, hb⟩, (collects_of_additions hb).exists_add_iff.1 ⟨b', hlast⟩⟩
      · rintro ⟨⟨b, hb⟩, hnot⟩
        obtain ⟨b', hlast⟩ := (collects_of_additions hb).exists_add_iff.2 hnot
        exact ⟨b', bind_eq_ok_iff.2 ⟨b, hb, hlast⟩⟩

theorem exists_ofAdditions_iff : (∃ b, ofAdditions additions = .ok b) ↔
    ∀ i source target, additions[i]? = some (.edge source target) →
      source < vertexTotal (additions.take i) := by
  rw [exists_ofAdditions_iff_not_dangling]
  constructor
  · intro hnot i source target hi
    exact Nat.lt_of_not_le fun hle => hnot ⟨i, _, hi, hle⟩
  · rintro hsource ⟨i, a, hi, hdangling⟩
    cases a with
    | vertex owner priority => exact hdangling
    | edge source target => exact absurd hdangling (Nat.not_le.2 (hsource i source target hi))

/-! ## What is wrong with a vertex -/

theorem Collects.row_eq_error_iff (h : b.Collects additions) {v : Nat} {cause : GameError} :
    row b.drafts.length v (b.drafts.getD v default).targets = .error cause ↔
      Defect additions v cause := by
  rw [GameBuilder.row_eq_error_iff, h.length]
  simp only [h.mem_targets, List.eq_nil_iff_forall_not_mem]
  constructor
  · rintro (⟨hnone, rfl⟩ | ⟨w, hw, hunknown, hleast, rfl⟩)
    · exact .noSuccessors hnone
    · exact .unknownVertex hw hunknown hleast
  · intro hdefect
    cases hdefect with
    | noSuccessors hnone => exact Or.inl ⟨hnone, rfl⟩
    | unknownVertex hw hunknown hleast => exact Or.inr ⟨_, hw, hunknown, hleast, rfl⟩

/-- What is wrong with the first vertex that has a defect is reported. -/
theorem Collects.build_eq_error_iff (h : b.Collects additions) {e : GameError} :
    b.build = .error e ↔ ∃ v < vertexTotal additions, Defect additions v e ∧
      ∀ u < v, ∀ cause, ¬ Defect additions u cause := by
  have hsound : ∀ u, (∃ sorted, row b.drafts.length u (b.drafts.getD u default).targets =
      .ok sorted) ↔ ∀ cause, ¬ Defect additions u cause := by
    intro u
    simp only [← h.row_eq_error_iff]
    cases row b.drafts.length u (b.drafts.getD u default).targets <;> simp
  rw [GameBuilder.build_eq_error_iff, h.length.symm]
  simp only [hsound, h.row_eq_error_iff, and_comm]

theorem exists_defect_iff {v : Nat} : (∃ cause, Defect additions v cause) ↔
    (∀ w, .edge v w ∉ additions) ∨ ∃ w, .edge v w ∈ additions ∧ vertexTotal additions ≤ w := by
  classical
  constructor
  · rintro ⟨cause, hdefect⟩
    cases hdefect with
    | noSuccessors hnone => exact Or.inl hnone
    | unknownVertex hw hunknown _ => exact Or.inr ⟨_, hw, hunknown⟩
  · rintro (hnone | hunknown)
    · exact ⟨_, .noSuccessors hnone⟩
    · obtain ⟨hw, hle⟩ := Nat.find_spec hunknown
      exact ⟨_, .unknownVertex hw hle fun x hx hx' => Nat.find_min' hunknown ⟨hx, hx'⟩⟩

theorem Collects.exists_build_error_iff (h : b.Collects additions) : (∃ e, b.build = .error e) ↔
    ∃ v < vertexTotal additions, (∀ w, .edge v w ∉ additions) ∨
      ∃ w, .edge v w ∈ additions ∧ vertexTotal additions ≤ w := by
  classical
  simp only [h.build_eq_error_iff, ← exists_defect_iff]
  constructor
  · rintro ⟨e, v, hv, hdefect, -⟩
    exact ⟨v, hv, e, hdefect⟩
  · intro hdefective
    obtain ⟨hv, e, hdefect⟩ := Nat.find_spec hdefective
    refine ⟨e, _, hv, hdefect, fun u hu cause hcause => ?_⟩
    exact Nat.find_min hdefective hu ⟨Nat.lt_trans hu hv, cause, hcause⟩

end GameBuilder

end ParityGames
