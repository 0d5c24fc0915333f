import ParityGames.Proofs.Improvement.Flow
import ParityGames.Proofs.Improvement.Orders
import ParityGames.Proofs.Improvement.Reach

/-! # Cutting the edges of a component

Before its vertices are settled, the live edges of a component are cut for its vertices above the
head. The component then is a flow towards its head whose walks meet what the profiles list.
-/

namespace ParityGames

open Relation

/-- An edge that the moves of player even leave. -/
def Game.Arc (g : Game) (choice : Nat → Nat) (u v : Nat) : Prop :=
  g.contains u = true ∧ v ∈ g.successors u ∧ (g.owner u = .even → v = choice u)

namespace Improvement

variable {s : Improvement} {g : Game} {choice : Nat → Nat} {u v : Nat}

namespace Keeps

theorem mem_successors (h : s.Keeps g choice) (hu : g.contains u = true) :
    v ∈ s.successors u ↔ g.Arc choice u v := by
  unfold successors Game.Arc
  rw [h.game]
  cases howner : g.owner u with
  | even =>
      rw [List.mem_singleton, h.move u hu howner]
      constructor
      · rintro rfl
        exact ⟨hu, h.chosen u hu howner, fun _ => rfl⟩
      · rintro ⟨-, -, hv⟩
        exact hv rfl
  | odd =>
      constructor
      · intro hv
        exact ⟨hu, hv, fun heven => nomatch heven⟩
      · rintro ⟨-, hv, -⟩
        exact hv

theorem mem_predecessors (h : s.Keeps g choice) (hv : g.contains v = true) :
    u ∈ s.predecessors v ↔ g.Arc choice u v := by
  unfold predecessors Game.Arc
  rw [h.game, List.mem_filter, h.coherent.mem_predecessors hv]
  cases howner : g.owner u with
  | even =>
      constructor
      · rintro ⟨⟨hu, hedge⟩, hmove⟩
        have hmove : s.move u = v := by simpa using hmove
        exact ⟨hu, hedge, fun _ => by rw [← hmove, h.move u hu howner]⟩
      · rintro ⟨hu, hedge, hmove⟩
        refine ⟨⟨hu, hedge⟩, ?_⟩
        have hmove : s.move u = v := by rw [h.move u hu howner, hmove rfl]
        simpa using hmove
  | odd =>
      constructor
      · rintro ⟨⟨hu, hedge⟩, -⟩
        exact ⟨hu, hedge, fun heven => nomatch heven⟩
      · rintro ⟨hu, hedge, -⟩
        exact ⟨⟨hu, hedge⟩, rfl⟩

theorem nodup_successors (h : s.Keeps g choice) (u : Nat) : (s.successors u).Nodup := by
  unfold successors
  rw [h.game]
  cases g.owner u with
  | even => exact List.nodup_singleton _
  | odd => exact h.coherent.nodup_successors u

theorem nodup_predecessors (h : s.Keeps g choice) (hv : g.contains v = true) :
    (s.predecessors v).Nodup := by
  unfold predecessors
  rw [h.game]
  exact (h.coherent.nodup_predecessors hv).filter _

end Keeps

theorem foldl_setProfile (s : Improvement) (f : Profile → Profile) {vertices : List Nat}
    (hnodup : vertices.Nodup) (hin : ∀ v ∈ vertices, v < s.profiles.length) :
    ∃ profiles : VertexTable Profile, profiles.length = s.profiles.length ∧
      vertices.foldl (fun s v => s.setProfile v (f (s.profile v))) s =
        { s with profiles := profiles } ∧
      ∀ v, profiles.getD v default = if v ∈ vertices then f (s.profile v) else s.profile v := by
  induction vertices generalizing s with
  | nil => exact ⟨s.profiles, rfl, rfl, fun v => by simp [profile]⟩
  | cons u rest ih =>
      obtain ⟨hu, hrest⟩ := List.nodup_cons.1 hnodup
      have hlength : (s.setProfile u (f (s.profile u))).profiles.length = s.profiles.length :=
        VertexTable.length_put _ _ _
      obtain ⟨profiles, hsame, hfold, hget⟩ := ih (s.setProfile u (f (s.profile u))) hrest
        fun v hv => hlength ▸ hin v (List.mem_cons_of_mem u hv)
      refine ⟨profiles, hsame.trans hlength, hfold, fun v => ?_⟩
      have hput : (s.setProfile u (f (s.profile u))).profile v =
          if v = u then f (s.profile u) else s.profile v := by
        unfold setProfile profile
        rw [VertexTable.getD_put]
        by_cases hv : v = u
        · subst hv
          rw [if_pos ⟨rfl, hin v List.mem_cons_self⟩, if_pos rfl]
        · rw [if_neg fun hboth => hv hboth.1, if_neg hv]
      rw [hget, hput]
      by_cases hv : v = u
      · subst hv
        simp [hu]
      · simp [hv]

end Improvement

namespace Component

variable {c : Component} {s : Improvement} {g : Game} {choice : Nat → Nat} {u v : Nat}
  {done : List Nat}

/-- The vertices of a component that is evaluated: all of them reach the head, which is on a closed
walk through vertices of no greater rank, and no closed walk inside is better for player odd. -/
structure Closes (g : Game) (choice : Nat → Nat) (head : Nat) (members : VertexSet) : Prop where
  active : ∀ v, members.contains v = true → g.contains v = true
  head_mem : members.contains head = true
  reaches : ∀ v, members.contains v = true →
    ReflTransGen (fun a b => g.Arc choice a b ∧ members.contains a = true ∧
      members.contains b = true) v head
  returns : ∃ v, g.Arc choice head v ∧ members.contains v = true ∧
    ReflTransGen (fun a b => (g.Arc choice a b ∧ members.contains a = true ∧
      members.contains b = true) ∧ g.rank a ≤ g.rank head) v head
  loops : ∀ u, members.contains u = true →
    TransGen (fun a b => (g.Arc choice a b ∧ members.contains a = true) ∧ g.rank a ≤ g.rank u) u u →
    g.worth head ≤ g.worth u

/-- A component after some cuts, `s` being the state before it was evaluated. -/
structure Cut (c : Component) (g : Game) (choice : Nat → Nat) (s : Improvement)
    (done : List Nat) : Prop where
  keeps : c.state.Keeps g choice
  active : ∀ v, c.members.contains v = true → g.contains v = true
  arcs : ∀ u v, v ∈ c.liveSuccessors u → g.Arc choice u v
  nodup : ∀ u, (c.liveSuccessors u).Nodup
  flow : Flow g.rank c.head (fun v => c.members.contains v = true)
    (fun u v => v ∈ c.liveSuccessors u) (· ∈ done) (fun x v => x ∈ (c.state.profile v).before)
  listed : ∀ v, c.members.contains v = true →
    (c.state.profile v).before = done.filter fun x => x ∈ (c.state.profile v).before
  heads : ∀ v, c.members.contains v = true → (c.state.profile v).head = c.head
  profile : ∀ v, c.members.contains v = false → c.state.profile v = s.profile v
  move : ∀ v, c.members.contains v = false → c.state.move v = s.move v

theorem getD_restrict (allowed : VertexSet) (vertices : List Nat) (t : VertexTable (List Nat))
    (v : Nat) :
    (vertices.foldl (fun t v => t.put v ((t.getD v []).filter allowed.contains)) t).getD v [] =
      if v ∈ vertices then (t.getD v []).filter allowed.contains else t.getD v [] := by
  induction vertices generalizing t with
  | nil => simp
  | cons u rest ih =>
      have hput : (t.put u ((t.getD u []).filter allowed.contains)).getD v [] =
          if v = u then (t.getD v []).filter allowed.contains else t.getD v [] := by
        rw [VertexTable.getD_put]
        by_cases hv : v = u
        · subst hv
          by_cases hlt : v < t.length
          · simp [hlt]
          · simp [hlt, VertexTable.getD_of_length_le (Nat.le_of_not_lt hlt)]
        · simp [hv]
      rw [List.foldl_cons, ih, hput]
      by_cases hv : v = u
      · simp [hv, List.filter_filter]
      · simp [hv]

structure Noted (c t : Component) (u : Nat) (noted restricted : List Nat)
    (allowed : VertexSet) : Prop where
  head : t.head = c.head
  members : t.members = c.members
  state : ∃ profiles : VertexTable Profile, profiles.length = c.state.profiles.length ∧
    t.state = { c.state with profiles := profiles }
  profile : ∀ v, t.state.profile v =
    if v ∈ noted then { c.state.profile v with before := (c.state.profile v).before ++ [u] }
    else c.state.profile v
  live : ∀ a, t.liveSuccessors a =
    if a ∈ restricted then (c.liveSuccessors a).filter allowed.contains else c.liveSuccessors a

theorem noted_restrict (u : Nat) {noted : List Nat} (restricted : List Nat) (allowed : VertexSet)
    (hnodup : noted.Nodup) (hlt : ∀ v ∈ noted, v < c.state.profiles.length) :
    c.Noted ((c.noteMeeting noted u).restrictLive restricted allowed) u noted restricted
      allowed := by
  obtain ⟨profiles, hlength, hfold, hget⟩ := Improvement.foldl_setProfile c.state
    (fun profile => { profile with before := profile.before ++ [u] }) hnodup hlt
  have hstate : ((c.noteMeeting noted u).restrictLive restricted allowed).state =
      { c.state with profiles := profiles } := hfold
  refine ⟨rfl, rfl, ⟨profiles, hlength, hstate⟩, fun v => ?_, fun a => ?_⟩
  · rw [hstate]
    exact hget v
  · exact getD_restrict allowed restricted c.live a

namespace Noted

variable {t : Component} {noted restricted : List Nat} {allowed : VertexSet}

theorem mem_live (h : c.Noted t u noted restricted allowed) (a b : Nat) :
    b ∈ t.liveSuccessors a ↔
      b ∈ c.liveSuccessors a ∧ (a ∈ restricted → allowed.contains b = true) := by
  rw [h.live]
  by_cases ha : a ∈ restricted <;> simp [ha]

theorem mem_before (h : c.Noted t u noted restricted allowed) {x : Nat} (hx : x ≠ u) (v : Nat) :
    x ∈ (t.state.profile v).before ↔ x ∈ (c.state.profile v).before := by
  rw [h.profile]
  by_cases hv : v ∈ noted <;> simp [hv, hx]

theorem mem_before_self (h : c.Noted t u noted restricted allowed)
    (hnew : u ∉ (c.state.profile v).before) : u ∈ (t.state.profile v).before ↔ v ∈ noted := by
  rw [h.profile]
  by_cases hv : v ∈ noted
  · simp [hv]
  · simp [hv, hnew]

theorem listed (h : c.Noted t u noted restricted allowed) (hu : u ∉ done)
    (hv : (c.state.profile v).before = done.filter fun x => x ∈ (c.state.profile v).before) :
    (t.state.profile v).before =
      (done ++ [u]).filter fun x => x ∈ (t.state.profile v).before := by
  have hnew : u ∉ (c.state.profile v).before := by
    intro hmem
    rw [hv, List.mem_filter] at hmem
    exact hu hmem.1
  have hfilter : (done.filter fun x => x ∈ (t.state.profile v).before) =
      (c.state.profile v).before := by
    refine (List.filter_congr fun x hx => ?_).trans hv.symm
    have hne : x ≠ u := fun heq => hu (heq ▸ hx)
    simp only [h.mem_before hne]
  have hself := h.mem_before_self hnew
  rw [List.filter_append, hfilter]
  by_cases hn : v ∈ noted
  · rw [List.filter_cons_of_pos (by simpa using hself.2 hn), List.filter_nil, h.profile,
      if_pos hn]
  · rw [List.filter_cons_of_neg (by simpa using fun hmem => hn (hself.1 hmem)), List.filter_nil,
      h.profile, if_neg hn, List.append_nil]

end Noted

namespace Cut

theorem mem_livePredecessors (h : c.Cut g choice s done) :
    u ∈ c.livePredecessors v ↔ v ∈ c.liveSuccessors u := by
  unfold livePredecessors
  rw [List.mem_filter]
  constructor
  · rintro ⟨-, hlive⟩
    have hlive := (Bool.and_eq_true _ _ ▸ hlive).2
    simpa using hlive
  · intro hlive
    have harc := h.arcs u v hlive
    refine ⟨(h.keeps.mem_predecessors (Game.contains_of_mem_successors harc.2.1)).2 harc, ?_⟩
    rw [(h.flow.inside u v hlive).1]
    simpa using hlive

theorem contains_liveBasin (h : c.Cut g choice s done) {target avoided : Nat}
    (ht : c.members.contains target = true) :
    (c.liveBasin target avoided).contains v = true ↔
      Basin (fun a b => b ∈ c.liveSuccessors a) target avoided v := by
  have hlt : ∀ {w}, c.members.contains w = true → w < c.state.game.vertexCount := by
    intro w hw
    rw [h.keeps.game]
    exact h.keeps.coherent.contains_lt (h.active w hw)
  have hmem : ∀ a b, a ∈ (c.livePredecessors b).filter (fun u => u ≠ avoided) ↔
      b ∈ c.liveSuccessors a ∧ a ≠ avoided := by
    intro a b
    rw [List.mem_filter, h.mem_livePredecessors]
    simp
  have hreach := @reach_spec (fun v => (c.livePredecessors v).filter fun u => u ≠ avoided) _ _
    (hlt ht) fun v _ u hu => hlt (h.flow.inside u v ((hmem u v).1 hu).1).1
  unfold liveBasin Basin
  rw [hreach.2]
  simp only [hmem]

/-- Noting a vertex and cutting for it, if what is left is a flow. -/
theorem note_restrict (h : c.Cut g choice s done) (hnew : u ∉ done) {noted restricted : List Nat}
    {allowed : VertexSet} (hnodup : noted.Nodup)
    (hin : ∀ v ∈ noted, c.members.contains v = true)
    (hflow : ∀ meets : Nat → Nat → Prop,
      (∀ x v, x ∈ done → c.members.contains v = true →
        (meets x v ↔ x ∈ (c.state.profile v).before)) →
      (∀ v, c.members.contains v = true → (meets u v ↔ v ∈ noted)) →
      Flow g.rank c.head (fun v => c.members.contains v = true)
        (fun a b => b ∈ c.liveSuccessors a ∧ (a ∈ restricted → allowed.contains b = true))
        (fun x => x ∈ done ∨ x = u) meets) :
    ((c.noteMeeting noted u).restrictLive restricted allowed).Cut g choice s (done ++ [u]) := by
  have hlt : ∀ v ∈ noted, v < c.state.profiles.length := by
    intro v hv
    rw [h.keeps.length_profiles]
    exact h.keeps.coherent.contains_lt (h.active v (hin v hv))
  have hnoted := noted_restrict u restricted allowed hnodup hlt
  generalize (c.noteMeeting noted u).restrictLive restricted allowed = t at hnoted
  obtain ⟨profiles, hlength, hstate⟩ := hnoted.state
  have hout : ∀ v, c.members.contains v = true → u ∉ (c.state.profile v).before := by
    intro v hv hu
    rw [h.listed v hv, List.mem_filter] at hu
    exact hnew hu.1
  exact {
    keeps := by
      rw [hstate]
      exact { h.keeps with length_profiles := hlength.trans h.keeps.length_profiles }
    active := by
      rw [hnoted.members]
      exact h.active
    arcs := fun a b hab => h.arcs a b ((hnoted.mem_live a b).1 hab).1
    nodup := by
      intro a
      rw [hnoted.live]
      split
      · exact (h.nodup a).filter _
      · exact h.nodup a
    flow := by
      simp only [hnoted.mem_live, hnoted.head, hnoted.members, List.mem_append,
        List.mem_singleton]
      apply hflow
      -- The vertices of earlier cuts are listed as before, and `u` for the noted members.
      · exact fun x v hx _ => hnoted.mem_before (fun heq => hnew (heq ▸ hx)) v
      · exact fun v hv => hnoted.mem_before_self (hout v hv)
    listed := by
      intro v hv
      rw [hnoted.members] at hv
      exact hnoted.listed hnew (h.listed v hv)
    heads := by
      intro v hv
      rw [hnoted.members] at hv
      rw [hnoted.profile, hnoted.head]
      split
      · exact h.heads v hv
      · exact h.heads v hv
    profile := by
      intro v hv
      rw [hnoted.members] at hv
      have hn : v ∉ noted := by
        intro hn
        rw [hin v hn] at hv
        cases hv
      rw [hnoted.profile, if_neg hn]
      exact h.profile v hv
    move := by
      intro v hv
      rw [hnoted.members] at hv
      rw [hstate]
      exact h.move v hv }

theorem evade (h : c.Cut g choice s done) (hu : c.members.contains u = true)
    (hrank : g.rank c.head < g.rank u) (hnew : u ∉ done) :
    (c.evade u).Cut g choice s (done ++ [u]) := by
  have hbasin := fun v => @contains_liveBasin c s g choice v done h c.head u h.flow.head_mem
  refine h.note_restrict hnew ((VertexSet.nodup_toList _).filter _) (fun v hv => ?_)
    fun meets hold hmeets => ?_
  · exact VertexSet.mem_toList.1 (List.mem_filter.1 hv).1
  · have hflow := h.flow.evade hu hrank hold fun v hv => by
      rw [hmeets v hv, List.mem_filter, VertexSet.mem_toList, ← hbasin]
      simp [hv]
    refine cast (congrArg (fun live => Flow _ _ _ live _ _) ?_) hflow
    funext a b
    simp [Flow.Evaded, hbasin]

theorem pursue (h : c.Cut g choice s done) (hu : c.members.contains u = true)
    (hrank : g.rank c.head < g.rank u) (hnew : u ∉ done)
    (hcycle : ¬ TransGen (fun a b => b ∈ c.liveSuccessors a) u u) :
    (c.pursue u).Cut g choice s (done ++ [u]) := by
  have hbasin := fun v => @contains_liveBasin c s g choice v done h u c.head hu
  refine h.note_restrict hnew (VertexSet.nodup_toList _) (fun v hv => ?_)
    fun meets hold hmeets => ?_
  · exact h.flow.mem_of_basin hu ((hbasin v).1 (VertexSet.mem_toList.1 hv))
  · have hflow := h.flow.pursue hu hrank hcycle hold fun v hv => by
      rw [hmeets v hv, VertexSet.mem_toList, hbasin]
    refine cast (congrArg (fun live => Flow _ _ _ live _ _) ?_) hflow
    funext a b
    simp [Flow.Pursued, hbasin]

end Cut

def reset (c : Component) : Component :=
  { c with
    state := c.byRelevance.foldl
      (fun s v => s.setProfile v { s.profile v with head := c.head, before := [] }) c.state }

def above (c : Component) : List Nat :=
  c.byRelevance.takeWhile fun u =>
    Relevance.cmp (c.state.relevance u) (c.state.relevance c.head) = .gt

def cutFor (c : Component) (u : Nat) : Component :=
  match (c.state.relevance u).winner with
  | .even => c.evade u
  | .odd => c.pursue u

def settleFor (c : Component) : Player → Except Fault Component
  | .even => c.settleLate
  | .odd => c.settleSoon

theorem evaluate_eq (c : Component) : c.evaluate =
    (c.above.foldl cutFor c.reset).settleFor (c.state.relevance c.head).winner := by
  unfold evaluate settleFor
  rfl

theorem mem_byRelevance : v ∈ c.byRelevance ↔ c.members.contains v = true := by
  unfold byRelevance
  rw [Ranking.sortBy_eq_insertionSort, List.mem_insertionSort, VertexSet.mem_toList]

theorem nodup_byRelevance (c : Component) : c.byRelevance.Nodup := by
  unfold byRelevance
  rw [Ranking.sortBy_eq_insertionSort, (List.perm_insertionSort _ _).nodup_iff]
  exact VertexSet.nodup_toList _

theorem byRelevance_sorted (hkeeps : c.state.Keeps g choice)
    (hactive : ∀ v, c.members.contains v = true → g.contains v = true) :
    c.byRelevance.Pairwise fun a b => g.rank b < g.rank a := by
  have _ := @transCmp_on _ _ Relevance.cmp _ c.state.relevance
  have hsorted := Ranking.sortBy_cmp_pairwise
    (fun a b => Relevance.cmp (c.state.relevance b) (c.state.relevance a)) c.members.toList
  apply (hsorted.and c.nodup_byRelevance).imp_of_mem
  intro a b ha hb hab
  have ha := hactive _ (mem_byRelevance.1 ha)
  have hb := hactive _ (mem_byRelevance.1 hb)
  have hle := (hkeeps.cmp_relevance_ne_gt hb ha).1 hab.1
  refine Nat.lt_of_le_of_ne hle fun heq => hab.2 ?_
  exact (Game.rank_inj (hkeeps.coherent.contains_lt hb) (hkeeps.coherent.contains_lt ha) heq).symm

theorem above_eq_filter (hkeeps : c.state.Keeps g choice)
    (hactive : ∀ v, c.members.contains v = true → g.contains v = true)
    (hhead : g.contains c.head = true) :
    c.above = c.byRelevance.filter fun u => g.rank c.head < g.rank u := by
  have hiff : ∀ u ∈ c.byRelevance,
      (Relevance.cmp (c.state.relevance u) (c.state.relevance c.head) = .gt ↔
        g.rank c.head < g.rank u) := by
    intro u hu
    have hu := hactive u (mem_byRelevance.1 hu)
    rw [hkeeps.cmp_relevance hu hhead, Nat.compare_eq_gt]
  have hsorted := byRelevance_sorted hkeeps hactive
  unfold above
  rw [takeWhile_eq_filter]
  · exact List.filter_congr fun u hu => by simp only [hiff u hu]
  · apply hsorted.imp_of_mem
    intro a b ha hb hab hb'
    simp only [decide_eq_true_eq, hiff _ ha, hiff _ hb] at hb' ⊢
    omega

theorem mem_above (hkeeps : c.state.Keeps g choice)
    (hactive : ∀ v, c.members.contains v = true → g.contains v = true)
    (hhead : g.contains c.head = true) :
    u ∈ c.above ↔ c.members.contains u = true ∧ g.rank c.head < g.rank u := by
  rw [above_eq_filter hkeeps hactive hhead, List.mem_filter, mem_byRelevance, decide_eq_true_eq]

theorem above_sorted (hkeeps : c.state.Keeps g choice)
    (hactive : ∀ v, c.members.contains v = true → g.contains v = true)
    (hhead : g.contains c.head = true) :
    c.above.Pairwise fun a b => g.rank b < g.rank a := by
  rw [above_eq_filter hkeeps hactive hhead]
  exact (byRelevance_sorted hkeeps hactive).filter _

theorem liveSuccessors_start {head : Nat} {members : VertexSet} (hkeeps : s.Keeps g choice)
    (hactive : ∀ v, members.contains v = true → g.contains v = true) (u v : Nat) :
    v ∈ (start s head members).liveSuccessors u ↔
      g.Arc choice u v ∧ members.contains u = true ∧ members.contains v = true := by
  unfold liveSuccessors start
  rw [VertexTable.getD_foldl_put, VertexTable.length_fill]
  simp only [VertexSet.mem_toList, hkeeps.game]
  by_cases hu : members.contains u = true
  · have hlt := hkeeps.coherent.contains_lt (hactive u hu)
    rw [if_pos ⟨hu, hlt⟩, List.mem_filter, hkeeps.mem_successors (hactive u hu)]
    simp [hu]
  · simp [hu]

theorem start_cut {head : Nat} {members : VertexSet} (hkeeps : s.Keeps g choice)
    (hcloses : Closes g choice head members) : (start s head members).reset.Cut g choice s [] := by
  have hlt : ∀ v ∈ (start s head members).byRelevance, v < s.profiles.length := by
    intro v hv
    rw [hkeeps.length_profiles]
    exact hkeeps.coherent.contains_lt (hcloses.active v (mem_byRelevance.1 hv))
  obtain ⟨profiles, hlength, hfold, hget⟩ := Improvement.foldl_setProfile s
    (fun profile => { profile with head := head, before := [] })
    (nodup_byRelevance (start s head members)) hlt
  have hstate : (start s head members).reset.state = { s with profiles := profiles } := hfold
  have hprofile : ∀ v, (start s head members).reset.state.profile v =
      if members.contains v = true then { s.profile v with head := head, before := [] }
      else s.profile v := by
    intro v
    rw [hstate]
    apply (hget v).trans
    simp only [mem_byRelevance]
    rfl
  have hlive := @liveSuccessors_start s g choice head members hkeeps hcloses.active
  have hlive' : ∀ u v, v ∈ (start s head members).reset.liveSuccessors u ↔
      g.Arc choice u v ∧ members.contains u = true ∧ members.contains v = true := hlive
  exact {
    keeps := by
      rw [hstate]
      exact { hkeeps with length_profiles := hlength.trans hkeeps.length_profiles }
    active := hcloses.active
    arcs := fun u v huv => ((hlive' u v).1 huv).1
    nodup := by
      intro u
      show ((start s head members).liveSuccessors u).Nodup
      unfold liveSuccessors start
      rw [VertexTable.getD_foldl_put]
      split
      · exact (hkeeps.nodup_successors u).filter _
      · rw [VertexTable.getD_fill]
        split <;> exact List.nodup_nil
    flow := by
      simp only [hlive']
      exact {
        inside := fun u v huv => huv.2
        head_mem := hcloses.head_mem
        reaches := hcloses.reaches
        returns := by
          obtain ⟨v, harc, hv, hback⟩ := hcloses.returns
          exact ⟨v, ⟨harc, hcloses.head_mem, hv⟩, hback⟩
        -- Nothing has been cut for.
        acyclic := fun x hx => nomatch hx
        meets_iff := fun x v w hx => nomatch hx
        starts := fun x hx => nomatch hx
        leaves := fun x v hx => nomatch hx }
    listed := by
      intro v hv
      have hv : members.contains v = true := hv
      rw [hprofile, if_pos hv]
      rfl
    heads := by
      intro v hv
      have hv : members.contains v = true := hv
      rw [hprofile, if_pos hv]
      rfl
    profile := by
      intro v hv
      have hv : members.contains v = false := hv
      rw [hprofile, hv, if_neg Bool.false_ne_true]
    move := by
      intro v _
      rw [hstate]
      rfl }

/-- The vertex to cut for next: it lies above the head, and a bad one lies on no closed walk. -/
structure Next (c : Component) (g : Game) (done : List Nat) (u : Nat) : Prop where
  mem : c.members.contains u = true
  rank : g.rank c.head < g.rank u
  new : u ∉ done
  acyclic : Player.ofPriority (g.priorityOf u) = .odd →
    ¬ TransGen (fun a b => b ∈ c.liveSuccessors a) u u

namespace Cut

theorem cutFor (h : c.Cut g choice s done) (hu : c.Next g done u) :
    (c.cutFor u).Cut g choice s (done ++ [u]) := by
  unfold Component.cutFor
  rw [h.keeps.winner_relevance (h.active u hu.mem)]
  cases hwinner : Player.ofPriority (g.priorityOf u) with
  | even => exact h.evade hu.mem hu.rank hu.new
  | odd => exact h.pursue hu.mem hu.rank hu.new (hu.acyclic hwinner)

/-- Vertices are cut for in the order of their ranks, the greatest first. -/
theorem next {rest : List Nat} (h : c.Cut g choice s done)
    (hloops : ∀ u, c.members.contains u = true →
      TransGen (fun a b => (g.Arc choice a b ∧ c.members.contains a = true) ∧ g.rank a ≤ g.rank u)
        u u → g.worth c.head ≤ g.worth u)
    (hmem : ∀ v, v ∈ done ++ u :: rest ↔ c.members.contains v = true ∧ g.rank c.head < g.rank v)
    (hsorted : (done ++ u :: rest).Pairwise fun x y => g.rank y < g.rank x) :
    c.Next g done u := by
  obtain ⟨hin, hrank⟩ := (hmem u).1 (by simp)
  obtain ⟨-, hfrom, hbefore⟩ := List.pairwise_append.1 hsorted
  have hnext : ∀ v, c.members.contains v = true → g.rank u < g.rank v → v ∈ done := by
    intro v hv hlt
    rcases List.mem_append.1 ((hmem v).2 ⟨hv, Nat.lt_trans hrank hlt⟩) with hv | hv
    · exact hv
    · rcases List.mem_cons.1 hv with rfl | hv
      · exact absurd hlt (Nat.lt_irrefl _)
      · exact absurd ((List.pairwise_cons.1 hfrom).1 v hv) (Nat.lt_asymm hlt)
  refine ⟨hin, hrank, fun hu => ?_, fun hodd => h.flow.acyclic_next hnext fun hloop => ?_⟩
  · exact Nat.lt_irrefl _ (hbefore u hu u List.mem_cons_self)
  · have hle := hloops u hin
      (TransGen.mono (fun a b hab => ⟨⟨h.arcs a b hab.1, (h.flow.inside a b hab.1).1⟩, hab.2⟩)
        _ _ hloop)
    have hlt := Game.worth_lt_of_rank_lt hrank
    rw [hodd, if_neg (by decide)] at hlt
    exact Int.not_lt.2 hle hlt

end Cut

/-- The first cuts of a component, with whatever else they keep true. -/
theorem cut_induction {head : Nat} {members : VertexSet} (hkeeps : s.Keeps g choice)
    (hcloses : Closes g choice head members) (motive : List Nat → Component → Prop)
    (hstart : motive [] (start s head members).reset)
    (hstep : ∀ done u c, c.Cut g choice s done → c.Next g done u → c.members = members →
      motive done c → motive (done ++ [u]) (c.cutFor u))
    {cuts left : List Nat} (habove : (start s head members).above = cuts ++ left) :
    (cuts.foldl cutFor (start s head members).reset).Cut g choice s cuts ∧
      (cuts.foldl cutFor (start s head members).reset).head = head ∧
      (cuts.foldl cutFor (start s head members).reset).members = members ∧
      motive cuts (cuts.foldl cutFor (start s head members).reset) := by
  have hhead := hcloses.active head hcloses.head_mem
  have hmem := fun u => @mem_above (start s head members) g choice u hkeeps hcloses.active hhead
  have hsorted := @above_sorted (start s head members) g choice hkeeps hcloses.active hhead
  rw [habove] at hmem hsorted
  refine foldl_induction cutFor cuts (start s head members).reset
    (fun done c => c.Cut g choice s done ∧ c.head = head ∧ c.members = members ∧ motive done c)
    ⟨start_cut hkeeps hcloses, rfl, rfl, hstart⟩ ?_
  rintro done u rest c hitems ⟨hc, rfl, rfl, hmotive⟩
  rw [hitems, List.append_assoc, List.cons_append] at hmem hsorted
  have hu := hc.next hcloses.loops hmem hsorted
  refine ⟨hc.cutFor hu, ?_, ?_, hstep done u c hc hu rfl hmotive⟩
  · unfold cutFor
    split <;> rfl
  · unfold cutFor
    split <;> rfl

end Component

end ParityGames
