import ParityGames.Proofs.Game.Views

/-! # The priority index

The buckets share out all vertices of the arena by their priorities, and the counts tell for every
priority how many of its vertices are active. Every operation on games keeps both exact, so the
greatest priority, the test for emptiness and the listing of a priority may be read off them.
-/

namespace ParityGames

namespace Game

variable {g part : Game}

/-! ## No bucket is empty -/

/-- A priority that no vertex has is left out of the buckets. -/
def Filled (g : Game) : Prop := ∀ p, g.buckets.get? p ≠ some []

theorem filled_of_build {b : GameBuilder} (made : b.build = .ok g) : g.Filled := by
  obtain ⟨-, -, -, -, -, -, -, hbuckets, -, -⟩ := GameBuilder.build_spec made
  intro p
  rw [hbuckets, GameBuilder.bucketsOf_spec]
  simp only
  split
  · exact fun h => nomatch h
  · rename_i hmembers
    exact fun h => hmembers (Option.some.inj h)

theorem partOf_subgame {keep : VertexSet} (made : g.subgame keep = .ok part) : part.PartOf g := by
  obtain ⟨active, -, hpart⟩ := bind_eq_ok_iff.1 made
  cases hpart
  exact ⟨rfl, rfl, rfl⟩

theorem PartOf.filled (hof : part.PartOf g) (h : g.Filled) : part.Filled := by
  intro p
  rw [hof.buckets]
  exact h p

theorem Filled.setPriority {changed : Game} {v priority : Nat} (h : g.Filled)
    (made : g.setPriority v priority = .ok changed) : changed.Filled := by
  unfold Game.setPriority at made
  split at made
  · cases made
    intro p
    simp only [SortedMap.get?_alter]
    by_cases hp : p = priority
    · rw [if_pos hp]
      exact fun h => List.append_ne_nil_of_right_ne_nil _ (List.cons_ne_nil v []) (Option.some.inj h)
    · rw [if_neg hp]
      by_cases hold : p = g.priorityOf v
      · rw [if_pos hold]
        split
        · exact fun h => nomatch h
        · rename_i hrest
          exact fun h => hrest (by rw [Option.some.inj h]; rfl)
      · rw [if_neg hold]
        exact h p
  · cases made

theorem Reachable.filled (h : g.Reachable) : g.Filled := by
  induction h with
  | build made => exact filled_of_build made
  | subgame _ made ih => exact (partOf_subgame made).filled ih
  | difference dropped hreached ih =>
      exact (difference_spec hreached.coherent dropped).2.1.filled ih
  | setPriority _ made ih => exact ih.setPriority made

/-! ## What the index says -/

/-- The index agrees with the active vertices and the priorities of all vertices. -/
structure Indexed (g : Game) : Prop where
  /-- The counts have exactly the priorities of active vertices, with their numbers. -/
  counts : ∀ p n, g.counts.get? p = some n ↔
    0 < n ∧ n = (g.vertices.filter fun v => g.priorityOf v = p).length
  /-- A bucket is not empty, and lists once each of the vertices of its priority. -/
  bucket : ∀ p vertices, g.buckets.get? p = some vertices →
    vertices ≠ [] ∧ vertices.Nodup ∧ ∀ v, v ∈ vertices ↔ v < g.vertexCount ∧ g.priorityOf v = p
  /-- Every vertex, active or not, is in the bucket of its priority. -/
  bucketed : ∀ v, v < g.vertexCount →
    ∃ vertices, g.buckets.get? (g.priorityOf v) = some vertices ∧ v ∈ vertices
  maxPriority : ∀ d, g.maxPriority? = some d ↔
    (∃ v, g.contains v = true ∧ g.priorityOf v = d) ∧
      ∀ v, g.contains v = true → g.priorityOf v ≤ d
  isEmpty : g.isEmpty = true ↔ g.size = 0
  withPriority : ∀ p, (g.verticesWithPriority p).Nodup ∧
    ∀ v, v ∈ g.verticesWithPriority p ↔ g.contains v = true ∧ g.priorityOf v = p

namespace Coherent

theorem counts_eq_some_iff (h : g.Coherent) (p n : Nat) : g.counts.get? p = some n ↔
    0 < n ∧ n = (g.vertices.filter fun v => g.priorityOf v = p).length := by
  have hcount : (g.vertices.map g.priorityOf).count p =
      (g.vertices.filter fun v => g.priorityOf v = p).length := by
    rw [List.count, List.countP_map, List.countP_eq_length_filter]
    rfl
  rw [h.counts p, hcount]
  split
  · rename_i hzero
    rw [hzero]
    constructor
    · exact fun h => nomatch h
    · rintro ⟨hpos, rfl⟩
      exact absurd hpos (Nat.lt_irrefl 0)
  · rename_i hpos
    rw [Option.some.injEq, eq_comm]
    exact ⟨fun hn => ⟨hn ▸ Nat.pos_of_ne_zero hpos, hn⟩, fun hn => hn.2⟩

theorem maxPriority_eq_some_iff (h : g.Coherent) (d : Nat) : g.maxPriority? = some d ↔
    (∃ v, g.contains v = true ∧ g.priorityOf v = d) ∧
      ∀ v, g.contains v = true → g.priorityOf v ≤ d := by
  refine ⟨h.maxPriority_some, ?_⟩
  rintro ⟨⟨v, hv, rfl⟩, hle⟩
  obtain ⟨d, hmax⟩ := h.exists_maxPriority ⟨v, hv⟩
  obtain ⟨⟨w, hw, rfl⟩, hle'⟩ := h.maxPriority_some hmax
  rw [hmax, Nat.le_antisymm (hle w hw) (hle' v hv)]

theorem isEmpty_iff (h : g.Coherent) : g.isEmpty = true ↔ g.size = 0 := by
  rw [Game.isEmpty, SortedMap.isEmpty_iff, size_eq_length, List.length_eq_zero_iff]
  constructor
  · intro hcounts
    refine List.eq_nil_iff_forall_not_mem.2 fun v hv => ?_
    have hsome := (h.isSome_counts (g.priorityOf v)).2 ⟨v, mem_vertices.1 hv, rfl⟩
    rw [hcounts, SortedMap.get?_empty] at hsome
    cases hsome
  · intro hvertices
    refine SortedMap.ext_get? fun p => ?_
    rw [h.counts p, hvertices, SortedMap.get?_empty]
    rfl

theorem indexed (h : g.Coherent) (hfilled : g.Filled) : g.Indexed where
  counts := h.counts_eq_some_iff
  bucket := by
    intro p vertices hget
    have hbucket : g.bucket p = vertices := by rw [Game.bucket, hget, Option.getD_some]
    refine ⟨?_, hbucket ▸ h.bucket_nodup p, fun v => ?_⟩
    · rintro rfl
      exact hfilled p hget
    · rw [← hbucket]
      exact h.mem_bucket p v
  bucketed := by
    intro v hv
    have hmem := (h.mem_bucket (g.priorityOf v) v).2 ⟨hv, rfl⟩
    rw [Game.bucket] at hmem
    cases hget : g.buckets.get? (g.priorityOf v) with
    | none =>
        rw [hget] at hmem
        cases hmem
    | some vertices =>
        rw [hget, Option.getD_some] at hmem
        exact ⟨vertices, rfl, hmem⟩
  maxPriority := h.maxPriority_eq_some_iff
  isEmpty := h.isEmpty_iff
  withPriority p := ⟨(h.bucket_nodup p).filter _, fun _ => h.mem_verticesWithPriority⟩

end Coherent

/-! ## Changing a priority -/

/-- The game with another priority at `v`, which became the last vertex of that priority. -/
structure Reprioritised (g : Game) (v priority : Nat) (changed : Game) : Prop where
  arena : changed.arena = g.arena
  active : changed.active = g.active
  priorities : changed.priorities = g.priorities.put v priority
  priorityOf : ∀ w, changed.priorityOf w = if w = v then priority else g.priorityOf w
  /-- The other vertices keep their buckets and their order there. -/
  order : ∀ p, (changed.bucket p).filter (· ≠ v) = (g.bucket p).filter (· ≠ v)
  last : ∃ others, changed.bucket priority = others ++ [v]

theorem setPriority_of_active (h : g.Coherent) {v : Nat} (hv : g.contains v = true)
    (priority : Nat) :
    ∃ changed, g.setPriority v priority = .ok changed ∧ g.Reprioritised v priority changed := by
  have hbucket : ∀ p, (if p = g.priorityOf v then (g.bucket p).erase v else g.bucket p).filter
      (· ≠ v) = (g.bucket p).filter (· ≠ v) := by
    intro p
    split
    · rw [(h.bucket_nodup p).erase_eq_filter, List.filter_filter]
      refine List.filter_congr fun w _ => ?_
      simp
    · rfl
  obtain ⟨changed, made⟩ : ∃ changed, g.setPriority v priority = .ok changed :=
    ⟨_, by rw [setPriority, if_pos hv]⟩
  refine ⟨changed, made, ?_⟩
  have hbuckets := bucket_setPriority hv made
  have hpriority := priorityOf_setPriority h hv made
  rw [setPriority, if_pos hv] at made
  cases made
  refine ⟨rfl, rfl, rfl, hpriority, fun p => ?_, ?_⟩
  · rw [hbuckets p]
    simp only
    split
    · rw [List.filter_append, hbucket p]
      simp
    · exact hbucket p
  · rw [hbuckets priority]
    simp only [if_true]
    exact ⟨_, rfl⟩

theorem setPriority_of_inactive {v : Nat} (hv : g.contains v = false) (priority : Nat) :
    g.setPriority v priority = .error (.inactiveVertex v) := by
  rw [setPriority, hv]
  rfl

/-- The index of a game that can be made is exact. A priority is changed at active vertices alone,
and nothing but that priority changes; for any other vertex there is an error and no new game. -/
theorem priority_index_exact (hg : g.Reachable) :
    g.Indexed ∧
    (∀ v priority, g.contains v = true → ∃ changed, g.setPriority v priority = .ok changed ∧
      g.Reprioritised v priority changed ∧ changed.Indexed) ∧
    ∀ v priority, g.contains v = false →
      g.setPriority v priority = .error (.inactiveVertex v) := by
  refine ⟨hg.coherent.indexed hg.filled, fun v priority hv => ?_,
    fun v priority hv => setPriority_of_inactive hv priority⟩
  obtain ⟨changed, made, hchanged⟩ := setPriority_of_active hg.coherent hv priority
  have hreached : changed.Reachable := .setPriority hg made
  exact ⟨changed, made, hchanged, hreached.coherent.indexed hreached.filled⟩

theorem priority_index_exact_duel : ∃ g, duel.build = .ok g ∧ g.Indexed ∧
    (∃ changed, g.setPriority 1 4 = .ok changed ∧ g.Reprioritised 1 4 changed ∧
      changed.Indexed) ∧
    g.setPriority 5 4 = .error (.inactiveVertex 5) := by
  obtain ⟨g, hmade, -, -⟩ := duel_total
  have hactive : (duel.build.toOption.any fun g => g.contains 1 && !g.contains 5) = true := by
    decide +kernel
  simp only [hmade, Except.toOption, Option.any_some, Bool.and_eq_true, Bool.not_eq_true']
    at hactive
  obtain ⟨hindexed, hchange, hrefuse⟩ := priority_index_exact (.build hmade)
  exact ⟨g, hmade, hindexed, hchange 1 4 hactive.1, hrefuse 5 4 hactive.2⟩

end Game

end ParityGames
