import ParityGames.Game.Reachable
import ParityGames.Proofs.Data.Checked
import ParityGames.Proofs.Data.Listing

/-! # Coherent games

What every game that can be made keeps true: the two edge tables list the same edges, in increasing
order and inside the arena, and the two priority indexes say of every priority exactly which
vertices have it and how many of these are active.
-/

namespace ParityGames

/-! ## Counting priorities -/

/-- The map holds the number of times every priority occurs in the list, and no zero. -/
def Tallies (counts : SortedMap Nat) (priorities : List Nat) : Prop :=
  ∀ p, counts.get? p = if priorities.count p = 0 then none else some (priorities.count p)

namespace Tallies

variable {counts : SortedMap Nat} {priorities : List Nat}

theorem nil : Tallies SortedMap.empty [] := by
  intro p
  simp

theorem perm {other : List Nat} (h : Tallies counts priorities) (hp : priorities.Perm other) :
    Tallies counts other := by
  intro p
  rw [h p, hp.count_eq]

theorem getD (h : Tallies counts priorities) (p : Nat) :
    (counts.get? p).getD 0 = priorities.count p := by
  rw [h p]
  split <;> simp_all

theorem countIn (h : Tallies counts priorities) (q : Nat) :
    Tallies (Game.countIn counts q) (q :: priorities) := by
  intro p
  rw [Game.countIn, SortedMap.get?_alter, h.getD q]
  by_cases hp : p = q
  · subst hp
    simp
  · have hcount : (q :: priorities).count p = priorities.count p := by
      rw [List.count_cons_of_ne (Ne.symm hp)]
    rw [if_neg hp, hcount]
    exact h p

theorem countOut {q : Nat} (h : Tallies counts (q :: priorities)) :
    Tallies (Game.countOut counts q) priorities := by
  intro p
  rw [Game.countOut, SortedMap.get?_alter]
  by_cases hp : p = q
  · subst hp
    rw [if_pos rfl, h p, List.count_cons_self, if_neg (Nat.succ_ne_zero _)]
    cases hcount : priorities.count p with
    | zero => rfl
    | succ n => rfl
  · rw [if_neg hp, h p, List.count_cons_of_ne (Ne.symm hp)]

end Tallies

namespace Game

variable {g : Game}

/-- The vertices of a priority, active or not. -/
def bucket (g : Game) (priority : Nat) : List Nat := (g.buckets.get? priority).getD []

def row (g : Game) (v : Nat) : List Nat := g.arena.successors.getD v []

/-- The tables of the game agree with each other. -/
structure Coherent (g : Game) : Prop where
  capacity : g.active.capacity = g.vertexCount
  priorities_length : g.priorities.length = g.vertexCount
  row_lt : ∀ v w, w ∈ g.row v → w < g.vertexCount
  row_increasing : ∀ v, (g.row v).Pairwise (· < ·)
  incoming : ∀ v, v < g.vertexCount →
    g.arena.incoming.of v = (List.range g.vertexCount).filter fun u => decide (v ∈ g.row u)
  mem_bucket : ∀ p v, v ∈ g.bucket p ↔ v < g.vertexCount ∧ g.priorityOf v = p
  bucket_nodup : ∀ p, (g.bucket p).Nodup
  counts : Tallies g.counts (g.vertices.map g.priorityOf)

/-! ## Parts of a coherent game -/

theorem tallies_restrict (g : Game) (active : VertexSet) :
    Tallies (g.restrict active).counts (active.toList.map g.priorityOf) := by
  have h := foldl_induction (fun counts v => countIn counts (g.priorityOf v)) active.toList
    SortedMap.empty
    (fun done counts => Tallies counts (done.map g.priorityOf))
    Tallies.nil
    (fun done a rest counts _ ht => by
      have hperm : (g.priorityOf a :: done.map g.priorityOf).Perm
          ((done ++ [a]).map g.priorityOf) := by
        rw [List.map_append]
        exact @List.perm_append_comm _ [g.priorityOf a] _
      exact (ht.countIn (g.priorityOf a)).perm hperm)
  exact h

theorem Coherent.restrict (h : g.Coherent) {active : VertexSet}
    (hc : active.capacity = g.vertexCount) : (g.restrict active).Coherent where
  capacity := hc
  priorities_length := h.priorities_length
  row_lt := h.row_lt
  row_increasing := h.row_increasing
  incoming := h.incoming
  mem_bucket := h.mem_bucket
  bucket_nodup := h.bucket_nodup
  counts := g.tallies_restrict active

theorem Coherent.deactivate (h : g.Coherent) {v : Nat} (hv : g.contains v = true) :
    (g.deactivate v).Coherent where
  capacity := (g.active.capacity_remove v).trans h.capacity
  priorities_length := h.priorities_length
  row_lt := h.row_lt
  row_increasing := h.row_increasing
  incoming := h.incoming
  mem_bucket := h.mem_bucket
  bucket_nodup := h.bucket_nodup
  counts := (h.counts.perm ((VertexSet.toList_remove_perm hv).map g.priorityOf)).countOut

/-- Only the active set and the number of active vertices of every priority tell a part from the
game it was cut from. -/
structure PartOf (part g : Game) : Prop where
  arena : part.arena = g.arena
  priorities : part.priorities = g.priorities
  buckets : part.buckets = g.buckets

theorem PartOf.refl (g : Game) : g.PartOf g := ⟨rfl, rfl, rfl⟩

theorem PartOf.trans {part middle whole : Game} (h : part.PartOf middle)
    (h' : middle.PartOf whole) : part.PartOf whole :=
  ⟨h.arena.trans h'.arena, h.priorities.trans h'.priorities, h.buckets.trans h'.buckets⟩

theorem difference_spec (h : g.Coherent) (dropped : VertexSet) :
    (g.difference dropped).Coherent ∧ (g.difference dropped).PartOf g ∧
      ∀ v, (g.difference dropped).contains v = (g.contains v && !dropped.contains v) := by
  have hnodup : (dropped.toList.filter g.contains).Nodup := dropped.nodup_toList.filter _
  have hfold := foldl_induction Game.deactivate (dropped.toList.filter g.contains) g
    (fun done part => part.Coherent ∧ part.PartOf g ∧
      ∀ v, part.contains v = (g.contains v && !decide (v ∈ done)))
    ⟨h, PartOf.refl g, fun v => by simp⟩
    (fun done a rest part hitems ⟨hpart, hof, hcontains⟩ => by
      have hmem : a ∈ dropped.toList.filter g.contains := by simp [hitems]
      have hactive : g.contains a = true := (List.mem_filter.1 hmem).2
      have hnew : a ∉ done := by
        intro hdone
        rw [hitems] at hnodup
        exact (List.nodup_append.1 hnodup).2.2 a hdone a (by simp) rfl
      have ha : part.contains a = true := by simp [hcontains, hactive, hnew]
      refine ⟨hpart.deactivate ha, ⟨hof.arena, hof.priorities, hof.buckets⟩, fun v => ?_⟩
      have hremove : (part.deactivate a).contains v = (part.contains v && !decide (v = a)) :=
        VertexSet.contains_remove part.active a v
      rw [hremove, hcontains v]
      by_cases hv : v = a <;> simp [hv])
  refine ⟨hfold.1, hfold.2.1, fun v => ?_⟩
  rw [show g.difference dropped = (dropped.toList.filter g.contains).foldl Game.deactivate g
    from rfl, hfold.2.2 v]
  by_cases hv : g.contains v = true <;> simp [hv]

theorem subgame_spec (h : g.Coherent) {keep : VertexSet} (hc : keep.capacity = g.vertexCount) :
    ∃ part, g.subgame keep = .ok part ∧ part.Coherent ∧ part.PartOf g ∧
      ∀ v, part.contains v = (keep.contains v && g.contains v) := by
  have hcap : keep.capacity = g.active.capacity := hc.trans h.capacity.symm
  have hinter : (keep.inter g.active).capacity = g.vertexCount := by
    rw [VertexSet.capacity_inter, hc]
  refine ⟨g.restrict (keep.inter g.active), ?_, h.restrict hinter, ⟨rfl, rfl, rfl⟩, fun v => ?_⟩
  · simp only [subgame, VertexSet.intersect, VertexSet.combine_of_eq hcap]
    rfl
  · exact VertexSet.contains_inter hcap v

theorem Coherent.subgame (h : g.Coherent) {keep : VertexSet} {part : Game}
    (made : g.subgame keep = .ok part) : part.Coherent := by
  by_cases hcap : keep.capacity = g.active.capacity
  · obtain ⟨_, hpart, hcoherent, -⟩ := subgame_spec h (hcap.trans h.capacity)
    rw [hpart] at made
    cases made
    exact hcoherent
  · simp only [Game.subgame, VertexSet.intersect, VertexSet.combine_of_ne hcap] at made
    cases made

end Game

end ParityGames
