import ParityGames.Proofs.Improvement.Cuts

/-! # Settling the members of a component

After the cuts every member is given a move along a live edge. In an odd component members arrive as
soon as a live successor is settled. In an even component a member waits until all of its live
successors are settled, and the counters that it waits for are never found empty.
-/

namespace ParityGames

namespace Improvement

theorem move_settle {s : Improvement} {v next distance : Nat} (hv : v < s.moves.length) (w : Nat) :
    (s.settle v next distance).move w = if w = v then next else s.move w := by
  unfold move settle
  rw [VertexTable.getD_put]
  by_cases hw : w = v
  · subst hw
    simp [hv]
  · simp [hw]

theorem profile_settle {s : Improvement} {v next distance : Nat} (hv : v < s.profiles.length)
    (w : Nat) : (s.settle v next distance).profile w =
      if w = v then { s.profile v with distance := distance } else s.profile w := by
  unfold profile settle
  rw [VertexTable.getD_put]
  by_cases hw : w = v
  · subst hw
    rw [if_pos ⟨rfl, hv⟩, if_pos rfl]
    rfl
  · rw [if_neg fun hboth => hw hboth.1, if_neg hw]

end Improvement

namespace Component

def settled (c : Component) (a : Arrival) : Component :=
  { c with state := c.state.settle a.vertex a.move a.distance }

/-- Vertices arrive one after the other, each with a move along a live edge. -/
inductive Settles (c : Component) : Component → List Arrival → Prop
  | start : Settles c c []
  | next {t : Component} {order : List Arrival} {a : Arrival} (h : Settles c t order)
      (hlive : a.move ∈ t.liveSuccessors a.vertex) : Settles c (t.settled a) (order ++ [a])

structure Assigns (c t : Component) (order : List Arrival) : Prop where
  settles : c.Settles t order
  once : (order.map Arrival.vertex).Nodup
  covers : ∀ v, v ∈ order.map Arrival.vertex ↔ c.members.contains v = true

variable {c : Component} {s : Improvement} {g : Game} {choice : Nat → Nat} {u v : Nat}
  {done : List Nat} {seen : VertexSet} {arrivals rest : List Arrival} {a : Arrival}

namespace Cut

theorem lt_of_mem (h : c.Cut g choice s done) (hv : c.members.contains v = true) :
    v < g.vertexCount :=
  h.keeps.coherent.contains_lt (h.active v hv)

theorem move_settled (h : c.Cut g choice s done) (ha : c.members.contains a.vertex = true)
    (w : Nat) :
    (c.settled a).state.move w = if w = a.vertex then a.move else c.state.move w :=
  Improvement.move_settle (h.keeps.length_moves ▸ h.lt_of_mem ha) w

theorem profile_settled (h : c.Cut g choice s done) (ha : c.members.contains a.vertex = true)
    (w : Nat) : (c.settled a).state.profile w =
      if w = a.vertex then { c.state.profile a.vertex with distance := a.distance }
      else c.state.profile w :=
  Improvement.profile_settle (h.keeps.length_profiles ▸ h.lt_of_mem ha) w

theorem before_settled (h : c.Cut g choice s done) (ha : c.members.contains a.vertex = true)
    (w : Nat) : ((c.settled a).state.profile w).before = (c.state.profile w).before := by
  rw [h.profile_settled ha]
  by_cases hw : w = a.vertex <;> simp [hw]

theorem settled (h : c.Cut g choice s done) (hlive : a.move ∈ c.liveSuccessors a.vertex) :
    (c.settled a).Cut g choice s done := by
  have ha := (h.flow.inside a.vertex a.move hlive).1
  have hmove := h.move_settled ha
  have hprofile := h.profile_settled ha
  have hbefore := h.before_settled ha
  have hhead : ∀ w, ((c.settled a).state.profile w).head = (c.state.profile w).head := by
    intro w
    rw [hprofile]
    by_cases hw : w = a.vertex <;> simp [hw]
  have hout : ∀ w, c.members.contains w = false → w ≠ a.vertex := by
    rintro w hw rfl
    rw [ha] at hw
    cases hw
  exact {
    keeps := { h.keeps with
      length_moves := (VertexTable.length_put _ _ _).trans h.keeps.length_moves
      length_profiles := (VertexTable.length_put _ _ _).trans h.keeps.length_profiles
      move := by
        intro w hw howner
        rw [hmove]
        by_cases hwa : w = a.vertex
        · subst hwa
          rw [if_pos rfl]
          exact (h.arcs a.vertex a.move hlive).2.2 howner
        · rw [if_neg hwa]
          exact h.keeps.move w hw howner }
    active := h.active
    arcs := h.arcs
    nodup := h.nodup
    flow := by
      simp only [hbefore]
      exact h.flow
    listed := by
      intro w hw
      simp only [hbefore]
      exact h.listed w hw
    heads := by
      intro w hw
      rw [hhead]
      exact h.heads w hw
    profile := by
      intro w hw
      rw [hprofile, if_neg (hout w hw)]
      exact h.profile w hw
    move := by
      intro w hw
      rw [hmove, if_neg (hout w hw)]
      exact h.move w hw }

theorem headMove_ok (h : c.Cut g choice s done) :
    ∃ first, c.headMove = .ok first ∧ first ∈ c.liveSuccessors c.head := by
  obtain ⟨v, hv, -⟩ := h.flow.returns
  unfold headMove
  cases hlive : c.liveSuccessors c.head with
  | nil =>
      rw [hlive] at hv
      cases hv
  | cons first rest => exact ⟨first, rfl, List.mem_cons_self⟩

theorem nodup_livePredecessors (h : c.Cut g choice s done) (hv : c.members.contains v = true) :
    (c.livePredecessors v).Nodup :=
  (h.keeps.nodup_predecessors (h.active v hv)).filter _

theorem length_livePredecessors_le (h : c.Cut g choice s done)
    (hv : c.members.contains v = true) : (c.livePredecessors v).length ≤ g.vertexCount :=
  length_le_of_lt (h.nodup_livePredecessors hv) fun u hu =>
    h.lt_of_mem (h.flow.inside u v (h.mem_livePredecessors.1 hu)).1

end Cut

/-! ## Arriving soon -/

/-- What the search from the head of an odd cycle keeps true. -/
structure Arriving (c : Component) (seen : VertexSet) (arrivals : List Arrival) : Prop where
  seen_mem : ∀ v, seen.contains v = true → c.members.contains v = true
  arrives : ∀ a ∈ arrivals, a.move ∈ c.liveSuccessors a.vertex ∧
    (a.vertex ≠ c.head → seen.contains a.move = true ∧
      a.distance = (c.state.profile a.move).distance + 1)
  placed : ∀ v, seen.contains v = true → c.state.move v ∈ c.liveSuccessors v ∧
    (v ≠ c.head → seen.contains (c.state.move v) = true ∧
      (c.state.profile v).distance = (c.state.profile (c.state.move v)).distance + 1)
  head : seen.contains c.head = true ∨ ∃ a ∈ arrivals, a.vertex = c.head
  closed : ∀ u v, seen.contains v = true → v ∈ c.liveSuccessors u →
    seen.contains u = true ∨ ∃ a ∈ arrivals, a.vertex = u

def Placed (c : Component) : Prop :=
  ∀ v, c.members.contains v = true → c.state.move v ∈ c.liveSuccessors v ∧
    (v ≠ c.head → (c.state.profile v).distance = (c.state.profile (c.state.move v)).distance + 1)

theorem Cut.mem_insert (h : c.Cut g choice s done) (hcapacity : seen.capacity = g.vertexCount)
    (hu : c.members.contains u = true) :
    (seen.insert u).contains v = true ↔ v = u ∨ seen.contains v = true := by
  have hlt := h.lt_of_mem hu
  rw [VertexSet.contains_insert]
  simp [hcapacity, hlt, or_comm]

def Awaited (seen : VertexSet) (arrivals : List Arrival) (v : Nat) : Prop :=
  seen.contains v = true ∨ ∃ a ∈ arrivals, a.vertex = v

namespace Awaited

theorem of_mem (h : Awaited seen (a :: rest) v) (ha : seen.contains a.vertex = true) :
    Awaited seen rest v := by
  rcases h with hv | ⟨b, hb, rfl⟩
  · exact Or.inl hv
  · rcases List.mem_cons.1 hb with rfl | hb
    · exact Or.inl ha
    · exact Or.inr ⟨b, hb, rfl⟩

theorem append (h : Awaited seen arrivals v) (more : List Arrival) :
    Awaited seen (arrivals ++ more) v :=
  h.imp_right fun ⟨b, hb, hv⟩ => ⟨b, List.mem_append_left _ hb, hv⟩

theorem settled (h : Awaited seen (a :: rest) v) (hc : c.Cut g choice s done)
    (hcapacity : seen.capacity = g.vertexCount) (ha : c.members.contains a.vertex = true) :
    Awaited (seen.insert a.vertex) rest v := by
  have hmore : Awaited (seen.insert a.vertex) (a :: rest) v :=
    h.imp_left fun hv => (hc.mem_insert hcapacity ha).2 (Or.inr hv)
  exact hmore.of_mem ((hc.mem_insert hcapacity ha).2 (Or.inl rfl))

end Awaited

/-- A move along a live edge which, but for the head, is one step closer to the head and leads to
what was seen. -/
def Follows (c : Component) (seen : VertexSet) (v next distance : Nat) : Prop :=
  next ∈ c.liveSuccessors v ∧ (v ≠ c.head → seen.contains next = true ∧
    distance = (c.state.profile next).distance + 1)

theorem Follows.settled {next distance : Nat} (h : c.Follows seen v next distance)
    (hc : c.Cut g choice s done) (hcapacity : seen.capacity = g.vertexCount)
    (ha : c.members.contains a.vertex = true) (hnew : seen.contains a.vertex = false) :
    (c.settled a).Follows (seen.insert a.vertex) v next distance := by
  refine ⟨h.1, fun hhead => ?_⟩
  obtain ⟨hseen, heq⟩ := h.2 hhead
  have hne : next ≠ a.vertex := by
    rintro rfl
    rw [hnew] at hseen
    cases hseen
  rw [hc.profile_settled ha, if_neg hne]
  exact ⟨(hc.mem_insert hcapacity ha).2 (Or.inr hseen), heq⟩

namespace Arriving

theorem skip (h : c.Arriving seen (a :: rest)) (ha : seen.contains a.vertex = true) :
    c.Arriving seen rest where
  seen_mem := h.seen_mem
  arrives := fun b hb => h.arrives b (List.mem_cons_of_mem a hb)
  placed := h.placed
  head := Awaited.of_mem h.head ha
  closed := fun u v hv huv => Awaited.of_mem (h.closed u v hv huv) ha

theorem follows_settled (h : c.Arriving seen (a :: rest)) (hc : c.Cut g choice s done)
    (hcapacity : seen.capacity = g.vertexCount) (ha : c.members.contains a.vertex = true)
    (hnew : seen.contains a.vertex = false) (hv : (seen.insert a.vertex).contains v = true) :
    (c.settled a).Follows (seen.insert a.vertex) v ((c.settled a).state.move v)
      ((c.settled a).state.profile v).distance := by
  rw [hc.move_settled ha, hc.profile_settled ha]
  rcases (hc.mem_insert hcapacity ha).1 hv with rfl | hv
  · have harrive : c.Follows seen a.vertex a.move a.distance := h.arrives a List.mem_cons_self
    rw [if_pos rfl, if_pos rfl]
    exact harrive.settled hc hcapacity ha hnew
  · have hplaced : c.Follows seen v (c.state.move v) (c.state.profile v).distance :=
      h.placed v hv
    have hne : v ≠ a.vertex := by
      rintro rfl
      rw [hnew] at hv
      cases hv
    rw [if_neg hne, if_neg hne]
    exact hplaced.settled hc hcapacity ha hnew

theorem settled (h : c.Arriving seen (a :: rest)) (hc : c.Cut g choice s done)
    (hcapacity : seen.capacity = g.vertexCount) (hnew : seen.contains a.vertex = false) :
    (c.settled a).Arriving (seen.insert a.vertex)
      (rest ++ ((c.settled a).livePredecessors a.vertex).map fun u =>
        ⟨u, a.vertex, a.distance + 1⟩) := by
  have hlive := (h.arrives a List.mem_cons_self).1
  have ha := (hc.flow.inside _ _ hlive).1
  have hsources := fun u => @Cut.mem_livePredecessors _ _ _ _ u a.vertex _ (hc.settled hlive)
  exact {
    seen_mem := by
      intro w hw
      rcases (hc.mem_insert hcapacity ha).1 hw with rfl | hw
      · exact ha
      · exact h.seen_mem w hw
    arrives := by
      intro b hb
      rcases List.mem_append.1 hb with hb | hb
      · have hfollows : c.Follows seen b.vertex b.move b.distance :=
          h.arrives b (List.mem_cons_of_mem a hb)
        exact hfollows.settled hc hcapacity ha hnew
      · obtain ⟨u, hu, rfl⟩ := List.mem_map.1 hb
        refine ⟨(hsources u).1 hu, fun _ => ⟨(hc.mem_insert hcapacity ha).2 (Or.inl rfl), ?_⟩⟩
        rw [hc.profile_settled ha, if_pos rfl]
    placed := fun w hw => h.follows_settled hc hcapacity ha hnew hw
    head := (Awaited.settled h.head hc hcapacity ha).append _
    closed := by
      intro u w hw huw
      rcases (hc.mem_insert hcapacity ha).1 hw with rfl | hw
      · refine Or.inr ⟨⟨u, a.vertex, a.distance + 1⟩, List.mem_append_right _ ?_, rfl⟩
        exact List.mem_map.2 ⟨u, (hsources u).2 huw, rfl⟩
      · exact (Awaited.settled (h.closed u w hw huw) hc hcapacity ha).append _ }

theorem all_seen (h : c.Arriving seen []) (hc : c.Cut g choice s done)
    (hv : c.members.contains v = true) : seen.contains v = true := by
  have hreaches := hc.flow.reaches v hv
  induction hreaches using Relation.ReflTransGen.head_induction_on with
  | refl => exact h.head.resolve_right fun ⟨_, hmem, _⟩ => List.not_mem_nil hmem
  | @head u w hedge _ ih =>
      have hw := ih (hc.flow.inside u w hedge).2
      exact (h.closed u w hw hedge).resolve_right fun ⟨_, hmem, _⟩ => List.not_mem_nil hmem

theorem placed_of_nil (h : c.Arriving seen []) (hc : c.Cut g choice s done) : c.Placed := by
  intro v hv
  have hplaced := h.placed v (h.all_seen hc hv)
  exact ⟨hplaced.1, fun hne => (hplaced.2 hne).2⟩

end Arriving

theorem settleSoonFrom_skip (fuel : Nat) (ha : seen.contains a.vertex = true) :
    settleSoonFrom (fuel + 1) c seen (a :: rest) = settleSoonFrom fuel c seen rest :=
  if_pos ha

theorem settleSoonFrom_cons (fuel : Nat) (hnew : seen.contains a.vertex = false) :
    settleSoonFrom (fuel + 1) c seen (a :: rest) =
      settleSoonFrom fuel (c.settled a) (seen.insert a.vertex)
        (rest ++ ((c.settled a).livePredecessors a.vertex).map fun u =>
          ⟨u, a.vertex, a.distance + 1⟩) := by
  have ha : ¬ seen.contains a.vertex = true := by simp [hnew]
  exact if_neg ha

/-- The search comes to its end with whatever else its steps keep true. -/
theorem settleSoonFrom_induction (motive : Component → VertexSet → List Arrival → Prop)
    (hskip : ∀ c seen a rest, seen.contains a.vertex = true → motive c seen (a :: rest) →
      motive c seen rest)
    (hstep : ∀ c seen a rest, c.Cut g choice s done → c.Arriving seen (a :: rest) →
      seen.capacity = g.vertexCount → seen.contains a.vertex = false →
      motive c seen (a :: rest) → motive (c.settled a) (seen.insert a.vertex)
        (rest ++ ((c.settled a).livePredecessors a.vertex).map fun u =>
          ⟨u, a.vertex, a.distance + 1⟩))
    (fuel : Nat) (hc : c.Cut g choice s done) (h : c.Arriving seen arrivals)
    (hmotive : motive c seen arrivals) (hcapacity : seen.capacity = g.vertexCount)
    (hfuel : arrivals.length + (g.vertexCount - seen.size) * g.vertexCount ≤ fuel) :
    ∃ t all, settleSoonFrom fuel c seen arrivals = .ok { c with state := t } ∧
      ({ c with state := t } : Component).Cut g choice s done ∧
      ({ c with state := t } : Component).Arriving all [] ∧ motive { c with state := t } all [] := by
  induction fuel generalizing c seen arrivals with
  | zero =>
      have hnil : arrivals = [] := List.length_eq_zero_iff.1 (by omega)
      subst hnil
      exact ⟨c.state, seen, rfl, hc, h, hmotive⟩
  | succ fuel ih =>
      cases arrivals with
      | nil => exact ⟨c.state, seen, rfl, hc, h, hmotive⟩
      | cons a rest =>
          rw [List.length_cons] at hfuel
          cases hnew : seen.contains a.vertex with
          | true =>
              rw [settleSoonFrom_skip fuel hnew]
              exact ih hc (h.skip hnew) (hskip c seen a rest hnew hmotive) hcapacity (by omega)
          | false =>
              rw [settleSoonFrom_cons fuel hnew]
              have hlive := (h.arrives a List.mem_cons_self).1
              have hin := (hc.flow.inside _ _ hlive).1
              have hlt := hc.lt_of_mem hin
              have hcut := hc.settled hlive
              have hpreds := hcut.length_livePredecessors_le (v := a.vertex) hin
              have hsize := VertexSet.size_insert hnew (hcapacity ▸ hlt)
              have hle := (seen.insert a.vertex).size_le_capacity
              rw [VertexSet.capacity_insert, hcapacity] at hle
              refine ih hcut (h.settled hc hcapacity hnew)
                (hstep c seen a rest hc h hcapacity hnew hmotive)
                ((VertexSet.capacity_insert _ _).trans hcapacity) ?_
              have hsplit : (g.vertexCount - seen.size) * g.vertexCount =
                  (g.vertexCount - (seen.insert a.vertex).size) * g.vertexCount +
                    g.vertexCount := by
                rw [← Nat.succ_mul]
                congr 1
                omega
              rw [List.length_append, List.length_map]
              omega

theorem arriving_start (capacity : Nat) {first : Nat} (hlive : first ∈ c.liveSuccessors c.head) :
    c.Arriving (VertexSet.empty capacity) [⟨c.head, first, 0⟩] where
  seen_mem := by simp
  arrives := by
    intro a ha
    rw [List.mem_singleton.1 ha]
    exact ⟨hlive, fun hne => absurd rfl hne⟩
  placed := by simp
  head := Or.inr ⟨_, List.mem_singleton.2 rfl, rfl⟩
  closed := by simp

/-! ## Arriving late -/

/-- No counter is empty, so all of them are counted down. -/
theorem countDown_spec {unsettled : VertexTable Nat} {sources : List Nat} (hnodup : sources.Nodup)
    (hlt : ∀ u ∈ sources, u < unsettled.length) (hpos : ∀ u ∈ sources, 0 < unsettled.getD u 0) :
    ∃ t, sources.foldlM countDown (unsettled, []) =
        .ok (t, sources.filter fun u => unsettled.getD u 0 = 1) ∧
      t.length = unsettled.length ∧
      ∀ u, t.getD u 0 = if u ∈ sources then unsettled.getD u 0 - 1 else unsettled.getD u 0 := by
  have hfold := foldlM_ok countDown sources (unsettled, [])
    (fun done x => x.1.length = unsettled.length ∧
      x.2 = (done.filter fun u => unsettled.getD u 0 = 1) ∧
      ∀ u, x.1.getD u 0 = if u ∈ done then unsettled.getD u 0 - 1 else unsettled.getD u 0)
    ⟨rfl, rfl, fun u => by simp⟩ ?_
  · obtain ⟨⟨t, settled⟩, hrun, hlength, rfl, hget⟩ := hfold
    exact ⟨t, hrun, hlength, hget⟩
  · rintro done u rest ⟨t, settled⟩ hitems ⟨hlength, hsettled, hget⟩
    have hmem : u ∈ sources := by simp [hitems]
    have hnew : u ∉ done := by
      rw [hitems] at hnodup
      intro hu
      exact (List.nodup_append.1 hnodup).2.2 u hu u List.mem_cons_self rfl
    have hcount := hpos u hmem
    have hu := hget u
    rw [if_neg hnew] at hu
    obtain ⟨count, heq⟩ : ∃ count, unsettled.getD u 0 = count + 1 :=
      ⟨unsettled.getD u 0 - 1, by omega⟩
    rw [heq] at hu
    have hstep : countDown (t, settled) u =
        .ok (t.put u count, if count = 0 then settled ++ [u] else settled) := by
      unfold countDown
      simp only [hu]
    refine ⟨_, hstep, (VertexTable.length_put _ _ _).trans hlength, ?_, fun w => ?_⟩
    · simp only at hsettled ⊢
      rw [List.filter_append, hsettled]
      by_cases hzero : count = 0 <;> simp [hzero, heq]
    · have hlength : t.length = unsettled.length := hlength
      rw [VertexTable.getD_put]
      by_cases hw : w = u
      · subst hw
        simp [hlength, hlt w hmem, heq]
      · have hw' : t.getD w 0 = _ := hget w
        simp [hw, hw']

def sources (c : Component) (a : Arrival) : List Nat :=
  ((c.settled a).livePredecessors a.vertex).filter fun u => u ≠ (c.settled a).head

namespace Cut

theorem mem_sources (h : c.Cut g choice s done) (hlive : a.move ∈ c.liveSuccessors a.vertex) :
    u ∈ c.sources a ↔ a.vertex ∈ c.liveSuccessors u ∧ u ≠ c.head := by
  unfold sources
  rw [List.mem_filter, (h.settled hlive).mem_livePredecessors, decide_eq_true_eq]
  exact Iff.rfl

theorem nodup_sources (h : c.Cut g choice s done) (hlive : a.move ∈ c.liveSuccessors a.vertex) :
    (c.sources a).Nodup := by
  have ha := (h.flow.inside _ _ hlive).1
  exact ((h.settled hlive).nodup_livePredecessors ha).filter _

end Cut

theorem settleLateFrom_cons (fuel : Nat) (unsettled : VertexTable Nat) :
    settleLateFrom (fuel + 1) c unsettled (a :: rest) =
      ((c.sources a).foldlM countDown (unsettled, []) >>= fun x =>
        settleLateFrom fuel (c.settled a) x.1
          (rest ++ x.2.map fun u => ⟨u, a.vertex, a.distance + 1⟩)) := rfl

/-- What the rounds of an even component keep true. A member waits for its live successors that are
not yet settled, and one that is listed waits no longer. -/
structure Waiting (c : Component) (unsettled : VertexTable Nat) (settled : List Nat)
    (arrivals : List Arrival) : Prop where
  nodup : (settled ++ arrivals.map Arrival.vertex).Nodup
  moves : ∀ a ∈ arrivals, a.move ∈ c.liveSuccessors a.vertex
  settled_mem : ∀ v ∈ settled, c.members.contains v = true
  head : c.head ∈ settled ++ arrivals.map Arrival.vertex
  counts : ∀ u, c.members.contains u = true → u ≠ c.head →
    unsettled.getD u 0 = (c.liveSuccessors u).countP fun w => w ∉ settled
  listed : ∀ u ∈ settled ++ arrivals.map Arrival.vertex, u ≠ c.head → unsettled.getD u 0 = 0

namespace Waiting

variable {unsettled : VertexTable Nat} {settled : List Nat}

theorem fresh (h : c.Waiting unsettled settled (a :: rest)) : a.vertex ∉ settled := by
  intro hmem
  have hnodup := h.nodup
  rw [List.map_cons] at hnodup
  exact (List.nodup_append.1 hnodup).2.2 _ hmem _ List.mem_cons_self rfl

/-- A member waits for one vertex less after its live successor has arrived. -/
theorem count_source (h : c.Waiting unsettled settled (a :: rest)) (hc : c.Cut g choice s done)
    (hu : a.vertex ∈ c.liveSuccessors u) (hne : u ≠ c.head) :
    unsettled.getD u 0 = ((c.liveSuccessors u).countP fun w => w ∉ settled ++ [a.vertex]) + 1 := by
  have hfresh := h.fresh
  rw [h.counts u (hc.flow.inside u _ hu).1 hne]
  apply countP_eq_add_one (hc.nodup u) hu (by simpa using hfresh) (by simp)
  intro w _ hw
  simp [hw]

theorem countDown_sources (h : c.Waiting unsettled settled (a :: rest))
    (hc : c.Cut g choice s done) (hlength : unsettled.length = g.vertexCount) :
    ∃ t, (c.sources a).foldlM countDown (unsettled, []) =
        .ok (t, (c.sources a).filter fun u => unsettled.getD u 0 = 1) ∧
      t.length = unsettled.length ∧
      ∀ u, t.getD u 0 = if u ∈ c.sources a then unsettled.getD u 0 - 1 else unsettled.getD u 0 := by
  have hlive := h.moves a List.mem_cons_self
  apply countDown_spec (hc.nodup_sources hlive)
  · intro u hu
    rw [hlength]
    exact hc.lt_of_mem (hc.flow.inside u _ ((hc.mem_sources hlive).1 hu).1).1
  · intro u hu
    obtain ⟨hu, hne⟩ := (hc.mem_sources hlive).1 hu
    rw [h.count_source hc hu hne]
    exact Nat.succ_pos _

theorem counts_settled (h : c.Waiting unsettled settled (a :: rest)) (hc : c.Cut g choice s done)
    (hu : c.members.contains u = true) (hne : u ≠ c.head) :
    (if u ∈ c.sources a then unsettled.getD u 0 - 1 else unsettled.getD u 0) =
      (c.liveSuccessors u).countP fun w => w ∉ settled ++ [a.vertex] := by
  have hlive := h.moves a List.mem_cons_self
  by_cases hedge : a.vertex ∈ c.liveSuccessors u
  · rw [if_pos ((hc.mem_sources hlive).2 ⟨hedge, hne⟩), h.count_source hc hedge hne,
      Nat.add_sub_cancel]
  · rw [if_neg fun hmem => hedge ((hc.mem_sources hlive).1 hmem).1, h.counts u hu hne]
    apply List.countP_congr
    intro w hw
    have hwa : w ≠ a.vertex := fun heq => hedge (heq ▸ hw)
    simp [hwa]

theorem step (h : c.Waiting unsettled settled (a :: rest)) (hc : c.Cut g choice s done)
    (hlength : unsettled.length = g.vertexCount) :
    ∃ t more, (c.sources a).foldlM countDown (unsettled, []) = .ok (t, more) ∧
      t.length = g.vertexCount ∧
      (∀ u, u ∈ more ↔ a.vertex ∈ c.liveSuccessors u ∧ u ≠ c.head ∧
        ∀ w ∈ c.liveSuccessors u, w ∈ settled ++ [a.vertex]) ∧
      (c.settled a).Waiting t (settled ++ [a.vertex])
        (rest ++ more.map fun u => ⟨u, a.vertex, a.distance + 1⟩) := by
  have hlive := h.moves a List.mem_cons_self
  have hsource := fun u => @Cut.mem_sources c s g choice u done a hc hlive
  obtain ⟨t, hrun, hlength', hget⟩ := h.countDown_sources hc hlength
  obtain ⟨more, hmore⟩ : ∃ more, more = (c.sources a).filter fun u => unsettled.getD u 0 = 1 :=
    ⟨_, rfl⟩
  have hmem : ∀ u, u ∈ more ↔ u ∈ c.sources a ∧ unsettled.getD u 0 = 1 := by
    intro u
    rw [hmore, List.mem_filter, decide_eq_true_eq]
  have hvertices : (rest ++ more.map fun u => (⟨u, a.vertex, a.distance + 1⟩ : Arrival)).map
      Arrival.vertex = rest.map Arrival.vertex ++ more := by
    rw [List.map_append, List.map_map]
    congr 1
    exact List.map_id' more
  have hlist : ∀ u, u ∈ (settled ++ [a.vertex]) ++ (rest.map Arrival.vertex ++ more) ↔
      u ∈ settled ++ (a :: rest).map Arrival.vertex ∨ u ∈ more := by
    intro u
    simp only [List.mem_append, List.map_cons, List.mem_cons, List.not_mem_nil]
    tauto
  refine ⟨t, more, hmore ▸ hrun, hlength'.trans hlength, fun u => ?_, ?_⟩
  · rw [hmem, hsource, and_assoc]
    refine and_congr_right fun hedge => and_congr_right fun hne => ?_
    rw [h.count_source hc hedge hne, Nat.add_eq_right, List.countP_eq_zero]
    simp only [decide_eq_true_eq, not_not]
  exact {
    nodup := by
      have hnodup := h.nodup
      rw [List.map_cons] at hnodup
      rw [hvertices, ← List.append_assoc]
      refine List.nodup_append.2 ⟨?_, ?_, ?_⟩
      · simpa using hnodup
      · rw [hmore]
        exact (hc.nodup_sources hlive).filter _
      -- What is listed already waits for nothing, so no counter that is at one belongs to it.
      · rintro u hu _ hu' rfl
        obtain ⟨hsrc, hone⟩ := (hmem u).1 hu'
        have hzero := h.listed u (by simpa using hu) ((hsource u).1 hsrc).2
        omega
    moves := by
      intro b hb
      rcases List.mem_append.1 hb with hb | hb
      · exact h.moves b (List.mem_cons_of_mem a hb)
      · obtain ⟨u, hu, rfl⟩ := List.mem_map.1 hb
        exact ((hsource u).1 ((hmem u).1 hu).1).1
    settled_mem := by
      intro v hv
      rcases List.mem_append.1 hv with hv | hv
      · exact h.settled_mem v hv
      · rw [List.mem_singleton.1 hv]
        exact (hc.flow.inside _ _ hlive).1
    head := by
      rw [hvertices, hlist]
      exact Or.inl h.head
    counts := by
      intro u hu hne
      rw [hget]
      exact h.counts_settled hc hu hne
    listed := by
      intro u hu hne
      rw [hvertices, hlist] at hu
      rw [hget]
      rcases hu with hu | hu
      · rw [h.listed u hu hne]
        split <;> rfl
      · obtain ⟨hsrc, hone⟩ := (hmem u).1 hu
        rw [if_pos hsrc, hone] }

end Waiting

/-- The members are settled one after the other, with whatever else the steps keep true. -/
theorem settleLateFrom_induction (motive : Component → List Nat → List Arrival → Prop)
    (hstep : ∀ c unsettled settled a rest (more : List Nat), c.Cut g choice s done →
      c.Waiting unsettled settled (a :: rest) →
      (∀ u, u ∈ more ↔ a.vertex ∈ c.liveSuccessors u ∧ u ≠ c.head ∧
        ∀ w ∈ c.liveSuccessors u, w ∈ settled ++ [a.vertex]) →
      motive c settled (a :: rest) → motive (c.settled a) (settled ++ [a.vertex])
        (rest ++ more.map fun u => ⟨u, a.vertex, a.distance + 1⟩))
    (fuel : Nat) {unsettled : VertexTable Nat} {settled : List Nat}
    (hc : c.Cut g choice s done) (h : c.Waiting unsettled settled arrivals)
    (hmotive : motive c settled arrivals) (hlength : unsettled.length = g.vertexCount)
    (hfuel : g.vertexCount < fuel + settled.length) :
    ∃ t counts all, settleLateFrom fuel c unsettled arrivals = .ok { c with state := t } ∧
      ({ c with state := t } : Component).Cut g choice s done ∧
      ({ c with state := t } : Component).Waiting counts all [] ∧
      motive { c with state := t } all [] := by
  induction fuel generalizing c unsettled settled arrivals with
  | zero =>
      have hle := length_le_of_lt (List.nodup_append.1 h.nodup).1 fun v hv =>
        hc.lt_of_mem (h.settled_mem v hv)
      omega
  | succ fuel ih =>
      cases arrivals with
      | nil => exact ⟨c.state, unsettled, settled, rfl, hc, h, hmotive⟩
      | cons a rest =>
          have hlive := h.moves a List.mem_cons_self
          obtain ⟨t, more, hrun, hlength', hmore, hnext⟩ := h.step hc hlength
          obtain ⟨u, counts, all, hrest, hend⟩ := ih (hc.settled hlive) hnext
            (hstep c unsettled settled a rest more hc h hmore hmotive) hlength' (by
              rw [List.length_append, List.length_singleton]
              omega)
          refine ⟨u, counts, all, ?_, hend⟩
          rw [settleLateFrom_cons, hrun, ok_bind]
          exact hrest

theorem Cut.waiting_start (hc : c.Cut g choice s done) {first : Nat}
    (hlive : first ∈ c.liveSuccessors c.head) :
    c.Waiting (c.members.toList.foldl (fun t v => t.put v (c.liveSuccessors v).length)
      (VertexTable.fill 0 g.vertexCount)) [] [⟨c.head, first, 0⟩] where
  nodup := List.nodup_singleton _
  moves := by
    intro a ha
    rw [List.mem_singleton.1 ha]
    exact hlive
  settled_mem := fun v hv => nomatch hv
  head := List.mem_singleton.2 rfl
  counts := by
    intro u hu _
    rw [VertexTable.getD_foldl_put, VertexTable.length_fill,
      if_pos ⟨VertexSet.mem_toList.2 hu, hc.lt_of_mem hu⟩, eq_comm, List.countP_eq_length]
    simp
  listed := fun u hu hne => absurd (List.mem_singleton.1 hu) hne

end Component

end ParityGames
