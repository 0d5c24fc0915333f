import ParityGames.Proofs.Game.Coherence

/-! # Games that can be made are coherent

A built game is coherent, and every operation on games keeps coherence.
-/

namespace ParityGames

namespace Game

variable {g : Game}

/-! ## Changing a priority -/

theorem priorityOf_setPriority {changed : Game} {v priority : Nat} (h : g.Coherent)
    (hv : g.contains v = true) (made : g.setPriority v priority = .ok changed) (w : Nat) :
    changed.priorityOf w = if w = v then priority else g.priorityOf w := by
  simp only [setPriority, if_pos hv, Except.ok.injEq] at made
  have hlt : v < g.priorities.length := by
    rw [h.priorities_length, ← h.capacity]
    exact VertexSet.lt_capacity hv
  subst made
  simp [priorityOf, VertexTable.getD_put, hlt]

theorem bucket_setPriority {changed : Game} {v priority : Nat} (hv : g.contains v = true)
    (made : g.setPriority v priority = .ok changed) (p : Nat) :
    changed.bucket p =
      let rest := if p = g.priorityOf v then (g.bucket p).erase v else g.bucket p
      if p = priority then rest ++ [v] else rest := by
  simp only [setPriority, if_pos hv, Except.ok.injEq] at made
  subst made
  have hwithout : ∀ q, ((g.buckets.alter (g.priorityOf v) fun bucket =>
      let rest := (bucket.getD []).erase v
      if rest.isEmpty then none else some rest).get? q).getD [] =
        if q = g.priorityOf v then (g.bucket q).erase v else g.bucket q := by
    intro q
    rw [SortedMap.get?_alter]
    by_cases hq : q = g.priorityOf v
    · subst hq
      simp only [if_true, bucket]
      split <;> simp_all
    · simp [hq, bucket]
  simp only [bucket] at hwithout ⊢
  rw [SortedMap.get?_alter]
  by_cases hp : p = priority
  · subst hp
    simp only [if_true, Option.getD_some]
    rw [hwithout p]
  · simp only [hp, if_false]
    exact hwithout p

/-- What a change of the priority of `v` leaves of a bucket before `v` is put back. -/
theorem mem_rest_bucket (h : g.Coherent) {v : Nat} (p w : Nat) :
    (w ∈ if p = g.priorityOf v then (g.bucket p).erase v else g.bucket p) ↔
      w ≠ v ∧ w < g.vertexCount ∧ g.priorityOf w = p := by
  split
  · rw [(h.bucket_nodup p).mem_erase_iff, h.mem_bucket]
  · rename_i hp
    rw [h.mem_bucket]
    constructor
    · rintro ⟨hlt, rfl⟩
      exact ⟨fun hw => hp (by rw [hw]), hlt, rfl⟩
    · exact fun hw => hw.2

theorem mem_bucket_setPriority {changed : Game} {v priority : Nat} (h : g.Coherent)
    (hv : g.contains v = true) (made : g.setPriority v priority = .ok changed) (p w : Nat) :
    w ∈ changed.bucket p ↔ w < g.vertexCount ∧ changed.priorityOf w = p := by
  have hlt : v < g.vertexCount := h.capacity ▸ VertexSet.lt_capacity hv
  have hrest := mem_rest_bucket h (v := v) p w
  rw [bucket_setPriority hv made, priorityOf_setPriority h hv made]
  by_cases hw : w = v
  · subst hw
    by_cases hp : p = priority
    · simp [hp, hlt]
    · simp only [if_neg hp, hrest]
      simp [Ne.symm hp]
  · by_cases hp : p = priority
    · simp only [if_pos hp, List.mem_append, hrest]
      simp [hw]
    · simp only [if_neg hp, hrest]
      simp [hw]

theorem nodup_bucket_setPriority {changed : Game} {v priority : Nat} (h : g.Coherent)
    (hv : g.contains v = true) (made : g.setPriority v priority = .ok changed) (p : Nat) :
    (changed.bucket p).Nodup := by
  have hrest : (if p = g.priorityOf v then (g.bucket p).erase v else g.bucket p).Nodup := by
    split
    · exact (h.bucket_nodup p).erase v
    · exact h.bucket_nodup p
  have hnot : v ∉ (if p = g.priorityOf v then (g.bucket p).erase v else g.bucket p) := by
    rw [mem_rest_bucket h]
    exact fun hv => hv.1 rfl
  rw [bucket_setPriority hv made]
  simp only
  split
  · rw [List.nodup_append]
    refine ⟨hrest, by simp, ?_⟩
    rintro x hx y hy rfl
    rw [List.mem_singleton] at hy
    subst hy
    exact hnot hx
  · exact hrest

theorem tallies_setPriority {changed : Game} {v priority : Nat} (h : g.Coherent)
    (hv : g.contains v = true) (made : g.setPriority v priority = .ok changed) :
    Tallies changed.counts (changed.vertices.map changed.priorityOf) := by
  have hpriority := priorityOf_setPriority h hv made
  have hperm := VertexSet.toList_remove_perm hv
  have hold : Tallies (countOut g.counts (g.priorityOf v))
      ((g.active.remove v).toList.map g.priorityOf) :=
    (h.counts.perm (hperm.map g.priorityOf)).countOut
  have hsame : (g.active.remove v).toList.map g.priorityOf =
      (g.active.remove v).toList.map changed.priorityOf := by
    apply List.map_congr_left
    intro w hw
    have hne : w ≠ v := by
      rintro rfl
      simp at hw
    rw [hpriority, if_neg hne]
  have hnew := hold.countIn priority
  rw [hsame, show priority = changed.priorityOf v by rw [hpriority, if_pos rfl],
    ← List.map_cons] at hnew
  have hcounts : changed.counts = countIn (countOut g.counts (g.priorityOf v))
      (changed.priorityOf v) ∧ changed.vertices = g.active.toList := by
    rw [hpriority, if_pos rfl]
    simp only [setPriority, if_pos hv, Except.ok.injEq] at made
    subst made
    exact ⟨rfl, rfl⟩
  rw [hcounts.1, hcounts.2]
  exact hnew.perm (hperm.map changed.priorityOf).symm

theorem Coherent.setPriority {changed : Game} {v priority : Nat} (h : g.Coherent)
    (made : g.setPriority v priority = .ok changed) : changed.Coherent := by
  by_cases hv : g.contains v = true
  · have harena : changed.arena = g.arena ∧ changed.active = g.active ∧
        changed.priorities = g.priorities.put v priority := by
      simp only [Game.setPriority, if_pos hv, Except.ok.injEq] at made
      subst made
      exact ⟨rfl, rfl, rfl⟩
    have hcount : changed.vertexCount = g.vertexCount := by
      rw [vertexCount, harena.1]
      rfl
    have hrow : ∀ u, changed.row u = g.row u := by
      intro u
      rw [row, harena.1]
      rfl
    exact {
      capacity := by rw [harena.2.1, hcount, h.capacity]
      priorities_length := by rw [harena.2.2, VertexTable.length_put, hcount, h.priorities_length]
      row_lt := by
        intro u w hw
        rw [hcount]
        exact h.row_lt u w (hrow u ▸ hw)
      row_increasing := by
        intro u
        rw [hrow u]
        exact h.row_increasing u
      incoming := by
        intro w hw
        simp only [harena.1, hcount, hrow]
        exact h.incoming w (hcount ▸ hw)
      mem_bucket := by
        intro p w
        rw [hcount]
        exact mem_bucket_setPriority h hv made p w
      bucket_nodup := nodup_bucket_setPriority h hv made
      counts := tallies_setPriority h hv made }
  · simp only [Game.setPriority, if_neg hv] at made
    cases made

end Game

/-! ## Building -/

namespace GameBuilder

theorem row_eq_ok {count v : Nat} {targets sorted : List Nat}
    (h : row count v targets = .ok sorted) :
    sorted.Pairwise (· < ·) ∧ ∀ w ∈ sorted, w < count := by
  unfold row at h
  simp only at h
  split at h
  · cases h
  · split at h
    · cases h
    · rename_i hfind
      cases h
      refine ⟨Ranking.distinct_increasing targets, fun w hw => ?_⟩
      have hnot := List.find?_eq_none.1 hfind w hw
      simpa using hnot

theorem rows_spec {count : Nat} {entries : List (Nat × Draft)} {rows : List (List Nat)}
    (h : entries.mapM (fun entry => row count entry.1 entry.2.targets) = .ok rows) :
    rows.length = entries.length ∧
      ∀ r ∈ rows, r.Pairwise (· < ·) ∧ ∀ w ∈ r, w < count := by
  have hforall := mapM_eq_ok h
  clear h
  induction hforall with
  | nil => simp
  | cons hrow _ ih =>
      refine ⟨by simp [ih.1], ?_⟩
      intro r hr
      rcases List.mem_cons.1 hr with rfl | hr
      · exact row_eq_ok hrow
      · exact ih.2 r hr

theorem bucketsOf_spec (priorities : VertexTable Nat) (p : Nat) :
    ((bucketsOf priorities).get? p) =
      let members := (List.range priorities.length).filter fun v => priorities.getD v 0 = p
      if members = [] then none else some members := by
  have h := foldl_induction
    (fun buckets v => SortedMap.alter buckets (priorities.getD v 0) fun bucket =>
      some (bucket.getD [] ++ [v]))
    (List.range priorities.length) SortedMap.empty
    (fun done buckets => ∀ q, buckets.get? q =
      let members := done.filter fun v => priorities.getD v 0 = q
      if members = [] then none else some members)
    (fun q => by simp)
    (fun done v rest buckets _ hdone q => by
      have hgetD : ((buckets.get? q).getD []) =
          done.filter fun v => priorities.getD v 0 = q := by
        rw [hdone q]
        simp only
        split <;> simp_all
      rw [SortedMap.get?_alter, List.filter_append]
      by_cases hq : q = priorities.getD v 0
      · subst hq
        simp only [if_true, hgetD]
        simp
      · have hsingle : [v].filter (fun v => priorities.getD v 0 = q) = [] := by
          simp [Ne.symm hq]
        rw [if_neg hq, hdone q, hsingle, List.append_nil])
  rw [bucketsOf, VertexTable.entries_eq priorities 0, List.foldl_map]
  exact h p

theorem filter_edgesOf (rows : VertexTable (List Nat))
    (hrows : ∀ u, (rows.getD u []).Nodup) (v : Nat) :
    ((edgesOf rows).filter fun edge => edge.2 == v).map (·.1) =
      (List.range rows.length).filter fun u => decide (v ∈ rows.getD u []) := by
  have hone : ∀ u, (((rows.getD u []).map fun target => (u, target)).filter
      fun edge => edge.2 == v).map (·.1) = if v ∈ rows.getD u [] then [u] else [] := by
    intro u
    have hnodup := hrows u
    generalize rows.getD u [] = targets at hnodup ⊢
    induction targets with
    | nil => simp
    | cons w rest ih =>
        obtain ⟨hw, hrest⟩ := List.nodup_cons.1 hnodup
        by_cases hv : w = v
        · subst hv
          have hnone : rest.filter (fun target => target == w) = [] := by
            rw [List.filter_eq_nil_iff]
            intro x hx hxw
            exact hw (by simpa using (beq_iff_eq.1 hxw) ▸ hx)
          simp [List.filter_map, Function.comp_def, hnone]
        · have hne : (w == v) = false := by simpa using hv
          have hmem : v ∈ w :: rest ↔ v ∈ rest := by simp [Ne.symm hv]
          rw [List.map_cons, List.filter_cons, if_neg (by simp [hne]), ih hrest]
          simp only [hmem]
  rw [edgesOf, VertexTable.entries_eq rows [], List.flatMap_map, List.filter_flatMap,
    List.map_flatMap]
  simp only [hone]
  induction List.range rows.length with
  | nil => rfl
  | cons u rest ih =>
      rw [List.flatMap_cons, ih]
      by_cases hv : v ∈ rows.getD u [] <;> simp [hv]

/-- The tables of a built game, read off the drafts. -/
theorem build_spec {b : GameBuilder} {g : Game} (made : b.build = .ok g) :
    ∃ rows : VertexTable (List Nat), rows.length = b.drafts.length ∧
      (∀ u, (rows.getD u []).Pairwise (· < ·) ∧ ∀ w ∈ rows.getD u [], w < b.drafts.length) ∧
      g.vertexCount = b.drafts.length ∧ g.arena.successors = rows ∧
      g.arena.incoming = Incoming.ofEdges b.drafts.length (edgesOf rows) ∧
      g.priorities = b.drafts.map (·.priority) ∧ g.buckets = bucketsOf g.priorities ∧
      g.counts = g.buckets.mapValues List.length ∧ g.active = VertexSet.full b.drafts.length := by
  obtain ⟨rows, hrows, hg⟩ := bind_eq_ok_iff.1 made
  obtain ⟨hlength, hgood⟩ := rows_spec hrows
  cases hg
  refine ⟨VertexTable.ofList rows, ?_, ?_, VertexTable.length_map _ _, rfl, rfl, rfl, rfl, rfl, rfl⟩
  · rw [VertexTable.length_ofList, hlength, VertexTable.entries_eq b.drafts default,
      List.length_map, List.length_range]
  · intro u
    rw [VertexTable.getD_ofList]
    cases hu : rows[u]? with
    | none => simp
    | some r => exact hgood r (List.mem_of_getElem? hu)

theorem build_coherent {b : GameBuilder} {g : Game} (made : b.build = .ok g) : g.Coherent := by
  obtain ⟨rows, hlength, hrow, hcount, hrows, hincoming, hpriorities, hbuckets, hcounts, hactive⟩ :=
    build_spec made
  have hpriorities_length : g.priorities.length = g.vertexCount := by
    rw [hpriorities, VertexTable.length_map, hcount]
  have hmembers : ∀ p, g.bucket p =
      (List.range g.vertexCount).filter fun v => decide (g.priorityOf v = p) := by
    intro p
    rw [Game.bucket, hbuckets, bucketsOf_spec, hpriorities_length]
    simp only [Game.priorityOf]
    split <;> simp_all
  exact {
    capacity := by rw [hactive, VertexSet.capacity_full, hcount]
    priorities_length := hpriorities_length
    row_lt := by
      intro v w hw
      rw [Game.row, hrows] at hw
      exact hcount ▸ (hrow v).2 w hw
    row_increasing := by
      intro v
      rw [Game.row, hrows]
      exact (hrow v).1
    incoming := by
      intro v hv
      have hnodup : ∀ u, (rows.getD u []).Nodup :=
        fun u => (hrow u).1.imp fun h => Nat.ne_of_lt h
      rw [hcount] at hv ⊢
      simp only [hincoming, Incoming.of_ofEdges _ hv, filter_edgesOf rows hnodup, hlength,
        Game.row, hrows]
    mem_bucket := by
      intro p v
      simp [hmembers]
    bucket_nodup := by
      intro p
      rw [hmembers]
      exact List.nodup_range.filter _
    counts := by
      intro p
      have hvertices : g.vertices = List.range g.vertexCount := by
        simp [Game.vertices, hactive, hcount, VertexSet.toList]
      have hlen : (g.vertices.map g.priorityOf).count p = (g.bucket p).length := by
        rw [hvertices, hmembers, List.count, List.countP_map, List.countP_eq_length_filter]
        congr 1
      rw [hlen, hcounts, SortedMap.get?_mapValues, Game.bucket, hbuckets, bucketsOf_spec]
      simp only
      split
      · simp
      · rename_i hne
        simp only [Option.map_some, Option.getD_some]
        rw [if_neg (mt List.length_eq_zero_iff.1 hne)] }

end GameBuilder

theorem Game.Reachable.coherent {g : Game} (h : g.Reachable) : g.Coherent := by
  induction h with
  | build made => exact GameBuilder.build_coherent made
  | subgame _ made ih => exact ih.subgame made
  | difference dropped _ ih => exact (Game.difference_spec ih dropped).1
  | setPriority _ made ih => exact ih.setPriority made

/-- Five vertices of which each player wins some. -/
def duel : GameBuilder :=
  ⟨VertexTable.ofList [⟨.even, 2, [2, 1]⟩, ⟨.odd, 1, [0, 3]⟩, ⟨.even, 0, [2]⟩, ⟨.odd, 3, [4, 3]⟩,
    ⟨.even, 4, [3, 0]⟩]⟩

theorem duel_total :
    ∃ g, duel.build = .ok g ∧ g.isTotal = true ∧ g.maxPriority? = some 4 :=
  ⟨_, rfl, by decide, by decide +kernel⟩

end ParityGames
