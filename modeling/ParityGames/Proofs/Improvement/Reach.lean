import ParityGames.Improvement.Valuation
import ParityGames.Proofs.Data.Checked
import ParityGames.Proofs.Data.Listing
import Mathlib.Logic.Relation

/-! # The search for a basin

The backward search finds the vertices from which the start is reached, and no others. A vertex is
listed once: it is pending first and done afterwards.
-/

namespace ParityGames

open Relation

/-- What the search keeps true, `done` being the vertices that are no longer pending. -/
structure Searching (sources : Nat → List Nat) (capacity start : Nat) (done pending : List Nat)
    (seen : VertexSet) : Prop where
  capacity : seen.capacity = capacity
  listed : ∀ v, seen.contains v = true ↔ v ∈ done ∨ v ∈ pending
  nodup : (done ++ pending).Nodup
  found : seen.contains start = true
  reaches : ∀ v, seen.contains v = true → ReflTransGen (fun a b => a ∈ sources b) v start

namespace Searching

variable {sources : Nat → List Nat} {capacity start u v : Nat} {done pending : List Nat}
  {seen : VertexSet}

theorem insert (h : Searching sources capacity start done pending seen) (hu : u < capacity)
    (hnew : seen.contains u = false) (hv : v ∈ done) (hedge : u ∈ sources v) :
    Searching sources capacity start done (u :: pending) (seen.insert u) := by
  have hmem : ∀ w, (seen.insert u).contains w = true ↔ w = u ∨ seen.contains w = true := by
    intro w
    rw [VertexSet.contains_insert]
    simp [h.capacity, hu, or_comm]
  exact {
    capacity := (VertexSet.capacity_insert seen u).trans h.capacity
    listed := by
      intro w
      rw [hmem, h.listed, List.mem_cons]
      exact or_left_comm
    nodup := by
      have hfresh : u ∉ done ++ pending := by
        rw [List.mem_append, ← h.listed, hnew]
        exact Bool.false_ne_true
      exact List.nodup_middle.2 (List.nodup_cons.2 ⟨hfresh, h.nodup⟩)
    found := (hmem start).2 (Or.inr h.found)
    reaches := by
      intro w hw
      rcases (hmem w).1 hw with rfl | hw
      · exact ReflTransGen.head hedge (h.reaches v ((h.listed v).2 (Or.inl hv)))
      · exact h.reaches w hw }

theorem length_le (h : Searching sources capacity start done pending seen) :
    done.length + pending.length ≤ capacity := by
  rw [← List.length_append]
  apply length_le_of_lt h.nodup
  intro v hv
  rw [List.mem_append, ← h.listed] at hv
  rw [← h.capacity]
  exact VertexSet.lt_capacity hv

theorem expand (h : Searching sources capacity start done (v :: pending) seen)
    (hsources : ∀ u ∈ sources v, u < capacity) :
    ∃ pending' seen', (sources v).foldl
        (fun (pending, seen) u =>
          if seen.contains u then (pending, seen) else (u :: pending, seen.insert u))
        (pending, seen) = (pending', seen') ∧
      Searching sources capacity start (v :: done) pending' seen' ∧
      (∀ u, seen.contains u = true → seen'.contains u = true) ∧
      ∀ u ∈ sources v, seen'.contains u = true := by
  have htaken : Searching sources capacity start (v :: done) pending seen := by
    refine { h with listed := fun u => ?_, nodup := ?_ }
    · rw [h.listed, List.mem_cons, List.mem_cons]
      exact ⟨fun hu => by tauto, fun hu => by tauto⟩
    · exact List.nodup_middle.1 h.nodup
  have hfold := foldl_induction
    (fun (x : List Nat × VertexSet) u =>
      if x.2.contains u then (x.1, x.2) else (u :: x.1, x.2.insert u))
    (sources v) (pending, seen)
    (fun looked x => Searching sources capacity start (v :: done) x.1 x.2 ∧
      (∀ u, seen.contains u = true → x.2.contains u = true) ∧
      ∀ u ∈ looked, x.2.contains u = true)
    ⟨htaken, fun u hu => hu, fun u hu => nomatch hu⟩ ?_
  · exact ⟨_, _, rfl, hfold⟩
  · rintro looked u rest ⟨pending, seen'⟩ hitems ⟨hx, hold, hlooked⟩
    have hedge : u ∈ sources v := by simp [hitems]
    by_cases hu : seen'.contains u = true
    · simp only [hu, if_true]
      refine ⟨hx, hold, fun w hw => ?_⟩
      rcases List.mem_append.1 hw with hw | hw
      · exact hlooked w hw
      · rwa [List.mem_singleton.1 hw]
    · simp only [if_neg hu]
      have hlt := hsources u hedge
      have hinsert := hx.insert hlt (by simpa using hu) List.mem_cons_self hedge
      have hkeep : ∀ w, seen'.contains w = true → (seen'.insert u).contains w = true := by
        intro w hw
        rw [VertexSet.contains_insert, hw, Bool.true_or]
      refine ⟨hinsert, fun w hw => hkeep w (hold w hw), fun w hw => ?_⟩
      rcases List.mem_append.1 hw with hw | hw
      · exact hkeep w (hlooked w hw)
      · rw [List.mem_singleton.1 hw]
        exact (hinsert.listed u).2 (Or.inr List.mem_cons_self)

end Searching

/-- With as much fuel as vertices are left, the search ends with a set closed under sources. -/
theorem reachFrom_spec {sources : Nat → List Nat} {capacity start : Nat}
    (hsources : ∀ v < capacity, ∀ u ∈ sources v, u < capacity) (fuel : Nat)
    {done pending : List Nat} {seen : VertexSet}
    (h : Searching sources capacity start done pending seen)
    (hclosed : ∀ v ∈ done, ∀ u ∈ sources v, seen.contains u = true)
    (hfuel : capacity ≤ fuel + done.length) :
    ∃ all, Searching sources capacity start all [] (reachFrom sources fuel pending seen) ∧
      ∀ v ∈ all, ∀ u ∈ sources v, (reachFrom sources fuel pending seen).contains u = true := by
  induction fuel generalizing done pending seen with
  | zero =>
      have hlength := h.length_le
      have hnil : pending = [] := List.length_eq_zero_iff.1 (by omega)
      subst hnil
      exact ⟨done, h, hclosed⟩
  | succ fuel ih =>
      cases pending with
      | nil => exact ⟨done, h, hclosed⟩
      | cons v rest =>
          have hv : v < capacity := by
            rw [← h.capacity]
            exact VertexSet.lt_capacity ((h.listed v).2 (Or.inr List.mem_cons_self))
          obtain ⟨pending', seen', hfold, hnext, hold, hnew⟩ := h.expand (hsources v hv)
          unfold reachFrom
          simp only [hfold]
          refine ih hnext (fun w hw u hu => ?_) ?_
          · rcases List.mem_cons.1 hw with rfl | hw
            · exact hnew u hu
            · exact hold u (hclosed w hw u hu)
          · rw [List.length_cons]
            omega

theorem reach_spec {sources : Nat → List Nat} {capacity start : Nat}
    (hstart : start < capacity) (hsources : ∀ v < capacity, ∀ u ∈ sources v, u < capacity) :
    (reach capacity start sources).capacity = capacity ∧
      ∀ v, (reach capacity start sources).contains v = true ↔
        ReflTransGen (fun a b => a ∈ sources b) v start := by
  have hmem : ∀ v, ((VertexSet.empty capacity).insert start).contains v = true ↔ v = start := by
    intro v
    rw [VertexSet.contains_insert]
    simp [hstart]
  have hinit : Searching sources capacity start [] [start]
      ((VertexSet.empty capacity).insert start) := by
    refine ⟨VertexSet.capacity_insert _ _, fun v => ?_, by simp, (hmem start).2 rfl, fun v hv => ?_⟩
    · rw [hmem]
      simp
    · rw [(hmem v).1 hv]
  obtain ⟨all, hend, hclosed⟩ :=
    reachFrom_spec hsources capacity hinit (fun v hv => nomatch hv) (by simp)
  change Searching _ _ _ _ _ (reach capacity start sources) at hend
  change ∀ v ∈ all, ∀ u ∈ sources v, (reach capacity start sources).contains u = true at hclosed
  refine ⟨hend.capacity, fun v => ⟨hend.reaches v, fun hreaches => ?_⟩⟩
  -- the search has every vertex on the way, from the start back to `v`
  induction hreaches using ReflTransGen.head_induction_on with
  | refl => exact hend.found
  | head hedge _ ih =>
      refine hclosed _ ?_ _ hedge
      have hlisted := (hend.listed _).1 ih
      exact hlisted.resolve_right (List.not_mem_nil)

end ParityGames
