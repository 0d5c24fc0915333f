import ParityGames.Proofs.Promotion.Steps

/-! # The potential of a search

A vertex in a region weighs as much as all vertices in lower regions together can, so a promotion
raises the weight whatever it dissolves. Going down raises the weight as well, unless the region was
there before; then the next region is a new one.
-/

namespace ParityGames

namespace Promotion

def depth (g : Game) (r : Nat) : Nat := (g.activePriorities.filter (· < r)).length

def weight (g : Game) : Option Nat → Nat
  | none => 0
  | some r => (g.vertexCount + 1) ^ depth g r

namespace State

def weight (s : State) (g : Game) : Nat :=
  (g.vertices.map fun v => Promotion.weight g (s.label v)).sum

def isFresh (s : State) (g : Game) : Bool :=
  g.vertices.all fun v => s.label v ≠ some s.priority

def potential (s : State) (g : Game) : Nat :=
  2 * s.weight g + if s.isFresh g then 1 else 0

end State

variable {g h : Game} {s t : State} {z : Territory}

theorem mem_activePriorities (hg : g.Coherent) {r : Nat} :
    r ∈ g.activePriorities ↔ ∃ v, g.contains v = true ∧ g.priorityOf v = r := by
  rw [Game.activePriorities, SortedMap.mem_keys_iff, hg.isSome_counts]

theorem nodup_activePriorities (g : Game) : g.activePriorities.Nodup :=
  (SortedMap.keys_increasing g.counts).imp fun hlt => Nat.ne_of_lt hlt

theorem length_activePriorities_le (hg : g.Coherent) :
    g.activePriorities.length ≤ g.vertexCount := by
  have hsub : g.activePriorities ⊆ g.vertices.map g.priorityOf := by
    intro r hr
    obtain ⟨v, hv, hpriority⟩ := (mem_activePriorities hg).1 hr
    exact List.mem_map.2 ⟨v, Game.mem_vertices.2 hv, hpriority⟩
  have hle := (nodup_activePriorities g).length_le_of_subset hsub
  rw [List.length_map] at hle
  exact Nat.le_trans hle (hg.length_vertices_le)

/-- Depth grows strictly from an active priority on. -/
theorem depth_lt {q r : Nat} (hq : q ∈ g.activePriorities) (hlt : q < r) :
    depth g q < depth g r := by
  have hnodup : (q :: g.activePriorities.filter (· < q)).Nodup :=
    List.nodup_cons.2 ⟨by simp, (nodup_activePriorities g).filter _⟩
  apply hnodup.length_le_of_subset
  intro d hd
  rcases List.mem_cons.1 hd with rfl | hd
  · exact List.mem_filter.2 ⟨hq, by simpa using hlt⟩
  · obtain ⟨hactive, hlow⟩ := List.mem_filter.1 hd
    refine List.mem_filter.2 ⟨hactive, ?_⟩
    simp only [decide_eq_true_eq] at hlow ⊢
    omega

theorem depth_lt_vertexCount (hg : g.Coherent) {r : Nat} (hr : r ∈ g.activePriorities) :
    depth g r < g.vertexCount := by
  have hnodup : (r :: g.activePriorities.filter (· < r)).Nodup :=
    List.nodup_cons.2 ⟨by simp, (nodup_activePriorities g).filter _⟩
  have hsub : r :: g.activePriorities.filter (· < r) ⊆ g.activePriorities := by
    intro d hd
    rcases List.mem_cons.1 hd with rfl | hd
    · exact hr
    · exact (List.mem_filter.1 hd).1
  exact Nat.lt_of_lt_of_le (hnodup.length_le_of_subset hsub) (length_activePriorities_le hg)

theorem weight_pos (r : Nat) : 0 < weight g (some r) := Nat.pow_pos (by omega)

namespace State.Orderly

theorem mem_activePriorities (hs : s.Orderly g) (hg : g.Coherent) {v r : Nat}
    (hv : s.label v = some r) : r ∈ g.activePriorities :=
  (Promotion.mem_activePriorities hg).2 (hs.used v r hv)

theorem weight_lt (hs : s.Orderly g) (hg : g.Coherent) :
    s.weight g < (g.vertexCount + 1) ^ g.vertexCount := by
  have hle : ∀ v, (g.vertexCount + 1) * Promotion.weight g (s.label v) ≤
      (g.vertexCount + 1) ^ g.vertexCount := by
    intro v
    cases hlabel : s.label v with
    | none => simp [Promotion.weight]
    | some r =>
        have hdepth := depth_lt_vertexCount hg (hs.mem_activePriorities hg hlabel)
        calc (g.vertexCount + 1) * Promotion.weight g (some r)
            = (g.vertexCount + 1) ^ (depth g r + 1) := by
              rw [Promotion.weight, Nat.pow_succ, Nat.mul_comm]
          _ ≤ (g.vertexCount + 1) ^ g.vertexCount := Nat.pow_le_pow_right (by omega) hdepth
  have hsum : ∀ items : List Nat,
      (g.vertexCount + 1) * (items.map fun v => Promotion.weight g (s.label v)).sum ≤
        items.length * (g.vertexCount + 1) ^ g.vertexCount := by
    intro items
    induction items with
    | nil => simp
    | cons v rest ih =>
        have hv := hle v
        rw [List.map_cons, List.sum_cons, List.length_cons, Nat.mul_add,
          Nat.add_mul rest.length 1, Nat.one_mul]
        omega
  have hbound := Nat.le_trans (hsum g.vertices)
    (Nat.mul_le_mul_right _ (hg.length_vertices_le))
  have hpos : 0 < (g.vertexCount + 1) ^ g.vertexCount := Nat.pow_pos (by omega)
  refine Nat.lt_of_mul_lt_mul_left (a := g.vertexCount + 1) (Nat.lt_of_le_of_lt hbound ?_)
  rw [Nat.add_mul, Nat.one_mul]
  omega

theorem potential_lt (hs : s.Orderly g) (hg : g.Coherent) : s.potential g < searchBound g := by
  have hweight := hs.weight_lt hg
  have hpos : 0 < (g.vertexCount + 2) ^ g.vertexCount := Nat.pow_pos (by omega)
  have hbase : (g.vertexCount + 1) ^ g.vertexCount ≤ (g.vertexCount + 2) ^ g.vertexCount :=
    Nat.pow_le_pow_left (by omega) _
  have hbound : 2 * (g.vertexCount + 2) ^ g.vertexCount ≤ searchBound g := by
    calc 2 * (g.vertexCount + 2) ^ g.vertexCount
        ≤ (g.vertexCount + 2) * (g.vertexCount + 2) ^ g.vertexCount :=
          Nat.mul_le_mul_right _ (by omega)
      _ = (g.vertexCount + 2) ^ (g.vertexCount + 1) := by rw [Nat.pow_succ, Nat.mul_comm]
      _ ≤ searchBound g := Nat.pow_le_pow_right (by omega) (by omega)
  have hfresh : s.potential g ≤ 2 * s.weight g + 1 := by
    unfold potential
    split <;> omega
  omega

end State.Orderly

theorem Grown.potential_descend (hz : Grown g s h z) (hg : g.Coherent) (hs : s.Orderly g)
    {next : Nat} (hnext : nextPriority? h z.region = some next) :
    s.potential g < State.potential { s.enter z with priority := next } g := by
  let t : State := { s.enter z with priority := next }
  show s.potential g < t.potential g
  have hlabel : ∀ v, t.label v =
      if z.region.contains v = true then some s.priority else s.label v :=
    hz.label_enter hg hs
  have hle : ∀ v ∈ g.vertices, weight g (s.label v) ≤ weight g (t.label v) + 0 := by
    intro v _
    rw [hlabel]
    split
    · rename_i hv
      rcases hz.label_cases hs hv with hfree | hsame
      · simp [hfree, weight]
      · simp [hsame]
    · simp
  obtain ⟨x, hx, hxtarget⟩ := hs.target
  have hxz : z.region.contains x = true := by
    rcases hxtarget with hsame | ⟨hfree, hpriority⟩
    · exact hz.of_label hsame
    · exact hz.attractor.of_target (Or.inr ⟨hx, hfree, hpriority⟩)
  by_cases hjoined : ∃ v, z.region.contains v = true ∧ s.label v = none
  · obtain ⟨v, hv, hfree⟩ := hjoined
    -- A new label weighs more than the freshness of a region.
    have hrise : s.weight g + 0 + 1 ≤ t.weight g := by
      apply sum_add_le (Game.mem_vertices.2 (hz.active hv).1) hle
      have hpos : 0 < weight g (some s.priority) := weight_pos _
      rw [hlabel, if_pos hv, hfree, Nat.mul_zero]
      exact hpos
    have hfresh : s.potential g ≤ 2 * s.weight g + 1 := by
      unfold State.potential
      split <;> omega
    have hnew : 2 * t.weight g ≤ t.potential g := Nat.le_add_right _ _
    omega
  · -- the region was there before, and the next one was not
    have hsame : ∀ v, z.region.contains v = true → s.label v = some s.priority := fun v hv =>
      (hz.label_cases hs hv).resolve_left fun hfree => hjoined ⟨v, hv, hfree⟩
    have hweight : s.weight g + 0 + 0 ≤ t.weight g :=
      sum_add_le (Game.mem_vertices.2 hx) hle (by simpa using hle x (Game.mem_vertices.2 hx))
    have hold : s.isFresh g = false := by
      simp only [State.isFresh, List.all_eq_false]
      exact ⟨x, Game.mem_vertices.2 hx, by simp [hsame x hxz]⟩
    have hnew : t.isFresh g = true := by
      simp only [State.isFresh, List.all_eq_true, decide_eq_true_eq]
      intro v _ hv
      obtain ⟨⟨u, hu, huout, hupriority⟩, -⟩ := nextPriority?_eq_some hnext
      have hlt := (hz.free hs hu huout).2
      rw [hz.partOf.priorityOf] at hupriority
      have hge : s.priority ≤ next := by
        rw [hlabel] at hv
        split at hv
        · exact Nat.le_of_eq (Option.some.inj hv)
        · exact hs.at_least v _ hv
      omega
    simp only [State.potential, hold, hnew, Bool.false_eq_true, if_false, if_true]
    omega

theorem Held.potential_promote (ht : Held g s z t) (hz : Grown g s h z) (hg : g.Coherent)
    (hs : s.Orderly g) {target : Nat}
    (hescape : escape? t g (Player.ofPriority s.priority) z.region = some target) :
    s.potential g < (t.promote g z.region target).potential g := by
  obtain ⟨⟨x, y, hx, hxowner, hy, hyout, hylabel⟩, -⟩ := escape?_eq_some hescape
  obtain ⟨hlt, hylabel', -⟩ := ht.escape_above hz hg hs hx hxowner hy hyout hylabel
  have hlabel := ht.label_promote hz hg hs hlt
  have hpriority := (mem_activePriorities hg).2 hs.exists_priority
  -- what a vertex can weigh below the target
  obtain ⟨e, he⟩ : ∃ e, depth g target = e + 1 :=
    Nat.exists_eq_succ_of_ne_zero (by have hdepth := depth_lt hpriority hlt; omega)
  have hlow : ∀ r ∈ g.activePriorities, r < target →
      weight g (some r) ≤ (g.vertexCount + 1) ^ e := by
    intro r hr hrlt
    have hdepth := depth_lt hr hrlt
    exact Nat.pow_le_pow_right (by omega) (by omega)
  have htop : weight g (some target) = (g.vertexCount + 1) ^ e * (g.vertexCount + 1) := by
    rw [weight, he, Nat.pow_succ]
  have hbefore : ∀ v, z.region.contains v = true →
      weight g (s.label v) ≤ (g.vertexCount + 1) ^ e := by
    intro v hv
    rcases hz.label_cases hs hv with hfree | hsame
    · simp [hfree, weight]
    · rw [hsame]
      exact hlow _ hpriority hlt
  have hrise : s.weight g + (g.vertexCount + 1) ^ e + 0 ≤
      (t.promote g z.region target).weight g := by
    refine sum_add_le (Game.mem_vertices.2 (hz.active hx).1) (fun v _ => ?_) ?_
    · by_cases hv : z.region.contains v = true
      · exact Nat.le_trans (hbefore v hv) (Nat.le_add_left _ _)
      · cases hlabelv : s.label v with
        | none => simp [weight]
        | some r =>
            by_cases hr : r < target
            · exact Nat.le_trans (hlow r (hs.mem_activePriorities hg hlabelv) hr)
                (Nat.le_add_left _ _)
            · rw [(hlabel v r).2 (Or.inr ⟨by omega, hlabelv⟩)]
              exact Nat.le_add_right _ _
    · rw [(hlabel x target).2 (Or.inl ⟨hx, rfl⟩), htop]
      have hx' := hbefore x hx
      have hcount := Nat.mul_le_mul_right ((g.vertexCount + 1) ^ e) (hg.length_vertices_le)
      rw [Nat.mul_add, Nat.mul_one, Nat.mul_comm _ g.vertexCount]
      omega
  have hpos : 0 < (g.vertexCount + 1) ^ e := Nat.pow_pos (by omega)
  have hfresh : s.potential g ≤ 2 * s.weight g + 1 := by
    unfold State.potential
    split <;> omega
  have hnew : 2 * (t.promote g z.region target).weight g ≤
      (t.promote g z.region target).potential g := Nat.le_add_right _ _
  omega

end Promotion

end ParityGames
