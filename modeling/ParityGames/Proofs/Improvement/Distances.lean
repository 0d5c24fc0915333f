import ParityGames.Proofs.Improvement.Settling

/-! # Distances to the head

Both searches settle the members in the order of their distances. In an odd component no live edge
leads to a member from which the head is nearer than from the move, in an even component none leads
to a member from which it is farther. So among the live edges player odd takes the best one.
-/

namespace ParityGames

open Relation

namespace Game

/-- The distance to a head as player even sees it: it comes to good heads early and to bad ones
late. -/
def pace (g : Game) (head distance : Nat) : Int :=
  if Player.ofPriority (g.priorityOf head) = .even then -distance else distance

end Game

namespace Component

variable {c : Component} {s : Improvement} {g : Game} {choice : Nat → Nat} {u v : Nat}
  {done settled more : List Nat} {seen : VertexSet} {arrivals rest : List Arrival} {a : Arrival}

/-- Arrivals in the order of their distances, which differ by one at most. -/
structure Ordered (arrivals : List Arrival) : Prop where
  sorted : arrivals.Pairwise fun a b => a.distance ≤ b.distance
  span : ∀ a ∈ arrivals, ∀ b ∈ arrivals, b.distance ≤ a.distance + 1

namespace Ordered

theorem single (a : Arrival) : Ordered [a] := by
  refine ⟨List.pairwise_singleton _ _, fun b hb d hd => ?_⟩
  rw [List.mem_singleton.1 hb, List.mem_singleton.1 hd]
  exact Nat.le_succ _

theorem first_le (h : Ordered (a :: rest)) {b : Arrival} (hb : b ∈ rest) :
    a.distance ≤ b.distance :=
  (List.pairwise_cons.1 h.sorted).1 b hb

theorem tail (h : Ordered (a :: rest)) : Ordered rest :=
  ⟨(List.pairwise_cons.1 h.sorted).2, fun b hb d hd =>
    h.span b (List.mem_cons_of_mem a hb) d (List.mem_cons_of_mem a hd)⟩

theorem distance_of_mem_map {sources : List Nat} {distance : Nat} {b : Arrival}
    (hb : b ∈ sources.map fun u => (⟨u, v, distance⟩ : Arrival)) : b.distance = distance := by
  obtain ⟨u, -, rfl⟩ := List.mem_map.1 hb
  rfl

theorem append (h : Ordered (a :: rest)) (sources : List Nat) :
    Ordered (rest ++ sources.map fun u => ⟨u, a.vertex, a.distance + 1⟩) := by
  have hlater : ∀ b ∈ sources.map fun u => (⟨u, a.vertex, a.distance + 1⟩ : Arrival),
      b.distance = a.distance + 1 := fun b hb => distance_of_mem_map hb
  generalize sources.map (fun u => (⟨u, a.vertex, a.distance + 1⟩ : Arrival)) = later at hlater ⊢
  have hrest : ∀ b ∈ rest, b.distance ≤ a.distance + 1 := fun b hb =>
    h.span a List.mem_cons_self b (List.mem_cons_of_mem a hb)
  refine ⟨List.pairwise_append.2 ⟨h.tail.sorted, ?_, fun b hb d hd => ?_⟩, fun b hb d hd => ?_⟩
  · rw [List.pairwise_iff_forall_sublist]
    intro b d hbd
    rw [hlater b (hbd.subset (by simp)), hlater d (hbd.subset (by simp))]
  · rw [hlater d hd]
    exact hrest b hb
  · rcases List.mem_append.1 hb with hb | hb
    · rcases List.mem_append.1 hd with hd | hd
      · exact h.tail.span b hb d hd
      · rw [hlater d hd]
        exact Nat.succ_le_succ (h.first_le hb)
    · rw [hlater b hb]
      rcases List.mem_append.1 hd with hd | hd
      · exact Nat.le_succ_of_le (hrest d hd)
      · rw [hlater d hd]
        exact Nat.le_succ _

theorem first_le_append (h : Ordered (a :: rest)) {sources : List Nat} {b : Arrival}
    (hb : b ∈ rest ++ sources.map fun u => ⟨u, a.vertex, a.distance + 1⟩) :
    a.distance ≤ b.distance := by
  rcases List.mem_append.1 hb with hb | hb
  · exact h.first_le hb
  · rw [distance_of_mem_map hb]
    exact Nat.le_succ _

end Ordered

/-- All members are settled, and no live edge is better for player odd than the move. -/
structure Timed (c : Component) (g : Game) : Prop where
  placed : c.Placed
  zero : (c.state.profile c.head).distance = 0
  pace : ∀ u w, w ∈ c.liveSuccessors u → u ≠ c.head →
    g.pace c.head (c.state.profile u).distance ≤
      g.pace c.head ((c.state.profile w).distance + 1)

theorem Cut.distance_settled (hc : c.Cut g choice s done)
    (ha : c.members.contains a.vertex = true) (w : Nat) :
    ((c.settled a).state.profile w).distance =
      if w = a.vertex then a.distance else (c.state.profile w).distance := by
  rw [hc.profile_settled ha]
  split <;> rfl

theorem Cut.distance_settled_self (hc : c.Cut g choice s done)
    (ha : c.members.contains a.vertex = true) :
    ((c.settled a).state.profile a.vertex).distance = a.distance := by
  rw [hc.distance_settled ha, if_pos rfl]

theorem Cut.distance_settled_of_ne (hc : c.Cut g choice s done)
    (ha : c.members.contains a.vertex = true) (hne : v ≠ a.vertex) :
    ((c.settled a).state.profile v).distance = (c.state.profile v).distance := by
  rw [hc.distance_settled ha, if_neg hne]

/-! ## Arriving soon -/

structure Nearest (c : Component) (seen : VertexSet) (arrivals : List Arrival) : Prop where
  ordered : Ordered arrivals
  passed : ∀ v, seen.contains v = true → ∀ a ∈ arrivals,
    (c.state.profile v).distance ≤ a.distance
  near : ∀ u w, seen.contains w = true → w ∈ c.liveSuccessors u →
    (seen.contains u = true ∧
      (c.state.profile u).distance ≤ (c.state.profile w).distance + 1) ∨
    ∃ a ∈ arrivals, a.vertex = u ∧ a.distance ≤ (c.state.profile w).distance + 1
  begins : (seen.contains c.head = true ∧ (c.state.profile c.head).distance = 0) ∨
    seen.contains c.head = false ∧ ∃ first, arrivals = [⟨c.head, first, 0⟩]

namespace Nearest

theorem skip (h : c.Nearest seen (a :: rest)) (ha : seen.contains a.vertex = true) :
    c.Nearest seen rest where
  ordered := h.ordered.tail
  passed := fun v hv b hb => h.passed v hv b (List.mem_cons_of_mem a hb)
  near := by
    intro u w hw hedge
    rcases h.near u w hw hedge with hu | ⟨b, hb, rfl, hle⟩
    · exact Or.inl hu
    · rcases List.mem_cons.1 hb with rfl | hb
      · have hpassed := h.passed _ ha b List.mem_cons_self
        exact Or.inl ⟨ha, Nat.le_trans hpassed hle⟩
      · exact Or.inr ⟨b, hb, rfl, hle⟩
  begins := by
    rcases h.begins with hhead | ⟨hnew, first, hfirst⟩
    · exact Or.inl hhead
    · obtain ⟨rfl, -⟩ := List.cons.inj hfirst
      rw [hnew] at ha
      cases ha

theorem step (h : c.Nearest seen (a :: rest)) (hc : c.Cut g choice s done)
    (harriving : c.Arriving seen (a :: rest)) (hcapacity : seen.capacity = g.vertexCount)
    (hnew : seen.contains a.vertex = false) :
    (c.settled a).Nearest (seen.insert a.vertex)
      (rest ++ ((c.settled a).livePredecessors a.vertex).map fun u =>
        ⟨u, a.vertex, a.distance + 1⟩) := by
  have hlive := (harriving.arrives a List.mem_cons_self).1
  have ha := (hc.flow.inside _ _ hlive).1
  have hseen := fun w => @Cut.mem_insert c s g choice a.vertex w done seen hc hcapacity ha
  have hsources := fun u => @Cut.mem_livePredecessors _ _ _ _ u a.vertex _ (hc.settled hlive)
  have hold : ∀ w, seen.contains w = true →
      ((c.settled a).state.profile w).distance = (c.state.profile w).distance := by
    intro w hw
    refine hc.distance_settled_of_ne ha ?_
    rintro rfl
    rw [hnew] at hw
    cases hw
  have hself := hc.distance_settled_self ha
  exact {
    ordered := h.ordered.append _
    passed := by
      intro w hw b hb
      refine Nat.le_trans ?_ (h.ordered.first_le_append hb)
      rcases (hseen w).1 hw with rfl | hw
      · rw [hself]
      · rw [hold w hw]
        exact h.passed w hw a List.mem_cons_self
    near := by
      intro u w hw hedge
      rcases (hseen w).1 hw with rfl | hw
      · refine Or.inr ⟨⟨u, a.vertex, a.distance + 1⟩, List.mem_append_right _ ?_, rfl, ?_⟩
        · exact List.mem_map.2 ⟨u, (hsources u).2 hedge, rfl⟩
        · rw [hself]
      · rw [hold w hw]
        rcases h.near u w hw hedge with ⟨hu, hle⟩ | ⟨b, hb, rfl, hle⟩
        · exact Or.inl ⟨(hseen u).2 (Or.inr hu), by rwa [hold u hu]⟩
        · rcases List.mem_cons.1 hb with rfl | hb
          · exact Or.inl ⟨(hseen _).2 (Or.inl rfl), by rwa [hself]⟩
          · exact Or.inr ⟨b, List.mem_append_left _ hb, rfl, hle⟩
    begins := by
      refine Or.inl ?_
      rcases h.begins with ⟨hhead, hzero⟩ | ⟨-, first, hfirst⟩
      · exact ⟨(hseen _).2 (Or.inr hhead), (hold _ hhead).trans hzero⟩
      · obtain ⟨rfl, -⟩ := List.cons.inj hfirst
        exact ⟨(hseen _).2 (Or.inl rfl), hself⟩ }

theorem timed (h : c.Nearest seen []) (hc : c.Cut g choice s done) (harriving : c.Arriving seen [])
    (hodd : Player.ofPriority (g.priorityOf c.head) = .odd) : c.Timed g where
  placed := harriving.placed_of_nil hc
  zero := by
    rcases h.begins with ⟨-, hzero⟩ | ⟨-, first, hnil⟩
    · exact hzero
    · cases hnil
  pace := by
    intro u w hedge hne
    have hin := hc.flow.inside u w hedge
    rcases h.near u w (harriving.all_seen hc hin.2) hedge with ⟨-, hle⟩ | ⟨a, ha, -⟩
    · unfold Game.pace
      rw [hodd, if_neg (by decide), if_neg (by decide)]
      omega
    · cases ha

end Nearest

theorem seen_next {order : List Arrival} (hc : c.Cut g choice s done)
    (hcapacity : seen.capacity = g.vertexCount) (ha : c.members.contains a.vertex = true)
    (hnew : seen.contains a.vertex = false)
    (honce : (order.map Arrival.vertex).Nodup)
    (hseen : ∀ v, v ∈ order.map Arrival.vertex ↔ seen.contains v = true) :
    ((order ++ [a]).map Arrival.vertex).Nodup ∧
      ∀ v, v ∈ (order ++ [a]).map Arrival.vertex ↔ (seen.insert a.vertex).contains v = true := by
  rw [List.map_append, List.map_singleton]
  refine ⟨List.nodup_append.2 ⟨honce, List.nodup_singleton _, ?_⟩, fun v => ?_⟩
  · rintro v hv _ hv' rfl
    rw [hseen, List.mem_singleton.1 hv', hnew] at hv
    cases hv
  · rw [List.mem_append, List.mem_singleton, hseen, hc.mem_insert hcapacity ha, or_comm]

/-- In an odd component player odd comes to the head as soon as the live edges allow. -/
theorem settleSoon_spec (hc : c.Cut g choice s done)
    (hodd : Player.ofPriority (g.priorityOf c.head) = .odd) :
    ∃ t order, c.settleSoon = .ok { c with state := t } ∧
      ({ c with state := t } : Component).Cut g choice s done ∧
      (∀ v, (t.profile v).before = (c.state.profile v).before) ∧
      ({ c with state := t } : Component).Timed g ∧ c.Assigns { c with state := t } order := by
  obtain ⟨first, hfirst, hlive⟩ := hc.headMove_ok
  have hnearest : c.Nearest (VertexSet.empty g.vertexCount) [⟨c.head, first, 0⟩] :=
    ⟨Ordered.single _, by simp, by simp, Or.inr ⟨by simp, first, rfl⟩⟩
  have hfuel := Nat.mul_le_mul_right g.vertexCount
    (Nat.sub_le g.vertexCount (VertexSet.empty g.vertexCount).size)
  obtain ⟨t, all, hrun, hcut, harriving, hnearest, hbefore, order, hsettles, honce, hseen⟩ :=
    settleSoonFrom_induction
    (fun t seen arrivals => t.Nearest seen arrivals ∧
      (∀ v, (t.state.profile v).before = (c.state.profile v).before) ∧
      ∃ order, c.Settles t order ∧ (order.map Arrival.vertex).Nodup ∧
        ∀ v, v ∈ order.map Arrival.vertex ↔ seen.contains v = true)
    (fun t seen a rest ha h => ⟨h.1.skip ha, h.2⟩)
    (fun t seen a rest ht harriving hcapacity hnew h => by
      obtain ⟨hnearest, hbefore, order, hsettles, honce, hseen⟩ := h
      have hlive := (harriving.arrives a List.mem_cons_self).1
      have ha := (ht.flow.inside _ _ hlive).1
      exact ⟨hnearest.step ht harriving hcapacity hnew, fun v =>
        (ht.before_settled ha v).trans (hbefore v), _, hsettles.next hlive,
        seen_next ht hcapacity ha hnew honce hseen⟩)
    (g.vertexCount * g.vertexCount + 1) hc (arriving_start g.vertexCount hlive)
    ⟨hnearest, fun _ => rfl, [], .start, List.nodup_nil, by simp⟩ (VertexSet.capacity_empty _)
    (by rw [List.length_singleton]; omega)
  refine ⟨t, order, ?_, hcut, hbefore, hnearest.timed hcut harriving hodd, hsettles, honce,
    fun v => ?_⟩
  · unfold settleSoon
    rw [hfirst, ok_bind, hc.keeps.game]
    exact hrun
  · rw [hseen]
    exact ⟨harriving.seen_mem v, harriving.all_seen hcut⟩

/-! ## Arriving late -/

/-- A move of a member whose live successors are all settled, to the last one of them. -/
def Latest (c : Component) (settled : List Nat) (v next distance : Nat) : Prop :=
  next ∈ c.liveSuccessors v ∧ (v = c.head → distance = 0) ∧
    (v ≠ c.head → distance = (c.state.profile next).distance + 1 ∧
      ∀ w ∈ c.liveSuccessors v, w ∈ settled ∧
        (c.state.profile w).distance ≤ (c.state.profile next).distance)

structure Farthest (c : Component) (settled : List Nat) (arrivals : List Arrival) : Prop where
  ordered : Ordered arrivals
  passed : ∀ v ∈ settled, ∀ a ∈ arrivals, (c.state.profile v).distance ≤ a.distance
  ready : ∀ u, c.members.contains u = true → u ≠ c.head →
    (∀ w ∈ c.liveSuccessors u, w ∈ settled) → u ∈ settled ∨ ∃ a ∈ arrivals, a.vertex = u
  arrives : ∀ a ∈ arrivals, c.Latest settled a.vertex a.move a.distance
  placed : ∀ v ∈ settled, c.Latest settled v (c.state.move v) (c.state.profile v).distance

theorem Latest.arrive {next distance : Nat} (h : c.Latest settled v next distance)
    (hc : c.Cut g choice s done) (ha : c.members.contains a.vertex = true)
    (hnew : a.vertex ∉ settled) :
    (c.settled a).Latest (settled ++ [a.vertex]) v next distance := by
  have hold : ∀ w ∈ settled,
      ((c.settled a).state.profile w).distance = (c.state.profile w).distance := by
    intro w hw
    refine hc.distance_settled_of_ne ha ?_
    rintro rfl
    exact hnew hw
  refine ⟨h.1, h.2.1, fun hne => ?_⟩
  obtain ⟨hdistance, hall⟩ := h.2.2 hne
  have hnext := hold next (hall next h.1).1
  refine ⟨hnext ▸ hdistance, fun w hw => ⟨List.mem_append_left _ (hall w hw).1, ?_⟩⟩
  rw [hold w (hall w hw).1, hnext]
  exact (hall w hw).2

namespace Farthest

theorem step (h : c.Farthest settled (a :: rest)) (hc : c.Cut g choice s done)
    (hnew : a.vertex ∉ settled)
    (hmore : ∀ u, u ∈ more ↔ a.vertex ∈ c.liveSuccessors u ∧ u ≠ c.head ∧
      ∀ w ∈ c.liveSuccessors u, w ∈ settled ++ [a.vertex]) :
    (c.settled a).Farthest (settled ++ [a.vertex])
      (rest ++ more.map fun u => ⟨u, a.vertex, a.distance + 1⟩) := by
  have harrives := h.arrives a List.mem_cons_self
  have ha := (hc.flow.inside _ _ harrives.1).1
  have hself := hc.distance_settled_self ha
  have hle : ∀ w ∈ settled ++ [a.vertex],
      ((c.settled a).state.profile w).distance ≤ a.distance := by
    intro w hw
    by_cases heq : w = a.vertex
    · rw [heq, hself]
    · have hw : w ∈ settled := (List.mem_append.1 hw).resolve_right fun hw =>
        heq (List.mem_singleton.1 hw)
      rw [hc.distance_settled_of_ne ha heq]
      exact h.passed w hw a List.mem_cons_self
  exact {
    ordered := h.ordered.append more
    passed := fun w hw b hb => Nat.le_trans (hle w hw) (h.ordered.first_le_append hb)
    ready := by
      intro u hu hne hall
      -- A member becomes ready with the arrival of its last live successor, or was ready before.
      by_cases hedge : a.vertex ∈ c.liveSuccessors u
      · have hmem := (hmore u).2 ⟨hedge, hne, hall⟩
        exact Or.inr ⟨⟨u, a.vertex, a.distance + 1⟩,
          List.mem_append_right _ (List.mem_map.2 ⟨u, hmem, rfl⟩), rfl⟩
      · have hall' : ∀ w ∈ c.liveSuccessors u, w ∈ settled := by
          intro w hw
          refine (List.mem_append.1 (hall w hw)).resolve_right fun heq => hedge ?_
          exact List.mem_singleton.1 heq ▸ hw
        rcases h.ready u hu hne hall' with hu | ⟨b, hb, rfl⟩
        · exact Or.inl (List.mem_append_left _ hu)
        · rcases List.mem_cons.1 hb with rfl | hb
          · exact Or.inl (List.mem_append_right _ (List.mem_singleton.2 rfl))
          · exact Or.inr ⟨b, List.mem_append_left _ hb, rfl⟩
    arrives := by
      intro b hb
      rcases List.mem_append.1 hb with hb | hb
      · exact (h.arrives b (List.mem_cons_of_mem a hb)).arrive hc ha hnew
      · obtain ⟨u, hu, rfl⟩ := List.mem_map.1 hb
        obtain ⟨hedge, hne, hall⟩ := (hmore u).1 hu
        refine ⟨hedge, fun heq => absurd heq hne, fun _ => ⟨by rw [hself], fun w hw => ?_⟩⟩
        rw [hself]
        exact ⟨hall w hw, hle w (hall w hw)⟩
    placed := by
      intro v hv
      rw [hc.move_settled ha, hc.distance_settled ha]
      by_cases heq : v = a.vertex
      · subst heq
        rw [if_pos rfl, if_pos rfl]
        exact harrives.arrive hc ha hnew
      · have hv : v ∈ settled := (List.mem_append.1 hv).resolve_right fun hv =>
          heq (List.mem_singleton.1 hv)
        rw [if_neg heq, if_neg heq]
        exact (h.placed v hv).arrive hc ha hnew }

/-- A member that is left would wait for another one that is left, and so on. -/
theorem all_settled (h : c.Farthest settled []) (hc : c.Cut g choice s done)
    (hhead : c.head ∈ settled)
    (hloops : ∀ u, TransGen (fun a b => b ∈ c.liveSuccessors a ∧ g.rank a ≤ g.rank u) u u →
      u = c.head) (hv : c.members.contains v = true) : v ∈ settled := by
  by_contra hleft
  have hnext : ∀ u, c.members.contains u = true ∧ u ∉ settled →
      ∃ w, w ∈ c.liveSuccessors u ∧ c.members.contains w = true ∧ w ∉ settled := by
    intro u hu
    by_contra hnone
    have hall : ∀ w ∈ c.liveSuccessors u, w ∈ settled := by
      intro w hw
      by_contra hw'
      exact hnone ⟨w, hw, (hc.flow.inside u w hw).2, hw'⟩
    rcases h.ready u hu.1 (fun heq => hu.2 (heq ▸ hhead)) hall with hu' | ⟨a, ha, -⟩
    · exact hu.2 hu'
    · cases ha
  obtain ⟨top, htop, hloop⟩ := Game.exists_closed_walk hc.keeps.coherent
    (fun u hu => hc.active u hu.1) hnext ⟨hv, hleft⟩
  refine htop.2 ?_
  rw [hloops top (TransGen.mono (fun a b hab => ⟨hab.1.1, hab.2⟩) _ _ hloop)]
  exact hhead

theorem timed (h : c.Farthest settled [])
    (hall : ∀ v, c.members.contains v = true → v ∈ settled) (hc : c.Cut g choice s done)
    (heven : Player.ofPriority (g.priorityOf c.head) = .even) : c.Timed g where
  placed := fun v hv => ⟨(h.placed v (hall v hv)).1, fun hne =>
    ((h.placed v (hall v hv)).2.2 hne).1⟩
  zero := (h.placed c.head (hall _ hc.flow.head_mem)).2.1 rfl
  pace := by
    intro u w hedge hne
    obtain ⟨hdistance, hlatest⟩ :=
      (h.placed u (hall u (hc.flow.inside u w hedge).1)).2.2 hne
    have hle := (hlatest w hedge).2
    unfold Game.pace
    rw [heven, if_pos rfl, if_pos rfl]
    omega

end Farthest

/-- In an even component player odd comes to the head as late as the live edges allow. -/
theorem settleLate_spec (hc : c.Cut g choice s done)
    (heven : Player.ofPriority (g.priorityOf c.head) = .even)
    (hloops : ∀ u, TransGen (fun a b => b ∈ c.liveSuccessors a ∧ g.rank a ≤ g.rank u) u u →
      u = c.head) :
    ∃ t order, c.settleLate = .ok { c with state := t } ∧
      ({ c with state := t } : Component).Cut g choice s done ∧
      (∀ v, (t.profile v).before = (c.state.profile v).before) ∧
      ({ c with state := t } : Component).Timed g ∧ c.Assigns { c with state := t } order := by
  obtain ⟨first, hfirst, hlive⟩ := hc.headMove_ok
  have hfarthest : c.Farthest [] [⟨c.head, first, 0⟩] := by
    refine ⟨Ordered.single _, by simp, fun u hu hne hall => ?_, fun a ha => ?_, by simp⟩
    · obtain ⟨w, hw, -⟩ := (hc.flow.reaches u hu).cases_head.resolve_left hne
      exact nomatch hall w hw
    · rw [List.mem_singleton.1 ha]
      exact ⟨hlive, fun _ => rfl, fun hne => absurd rfl hne⟩
  obtain ⟨t, counts, all, hrun, hcut, hwaiting, hfarthest, hbefore, order, hsettles, rfl⟩ :=
    settleLateFrom_induction
    (fun t settled arrivals => t.Farthest settled arrivals ∧
      (∀ v, (t.state.profile v).before = (c.state.profile v).before) ∧
      ∃ order, c.Settles t order ∧ order.map Arrival.vertex = settled)
    (fun t unsettled settled a rest more ht hwaiting hmore h => by
      obtain ⟨hfarthest, hbefore, order, hsettles, rfl⟩ := h
      have hlive := hwaiting.moves a List.mem_cons_self
      have ha := (ht.flow.inside _ _ hlive).1
      exact ⟨hfarthest.step ht hwaiting.fresh hmore, fun v =>
        (ht.before_settled ha v).trans (hbefore v), _, hsettles.next hlive, List.map_append⟩)
    (g.vertexCount + 1) hc (hc.waiting_start hlive) ⟨hfarthest, fun _ => rfl, [], .start, rfl⟩
    (by rw [VertexTable.length_foldl_put, VertexTable.length_fill])
    (by rw [List.length_nil]; omega)
  have hhead : c.head ∈ order.map Arrival.vertex := by simpa using hwaiting.head
  have hall : ∀ v, c.members.contains v = true → v ∈ order.map Arrival.vertex := fun v hv =>
    hfarthest.all_settled hcut hhead hloops hv
  refine ⟨t, order, ?_, hcut, hbefore, hfarthest.timed hall hcut heven, hsettles,
    (List.nodup_append.1 hwaiting.nodup).1, fun v => ⟨hwaiting.settled_mem v, hall v⟩⟩
  unfold settleLate
  rw [hfirst, ok_bind, hc.keeps.game]
  exact hrun

end Component

end ParityGames
