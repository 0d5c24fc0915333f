import ParityGames.Proofs.Game.Reached
import ParityGames.Proofs.Progress.Turns

/-! # Schedules under any calls

A schedule may be asked for the next vertex and be told of changes in any order. It ends only when
every vertex had its turn since its successors changed for the last time. A queue gives the next
turn to the vertex that has been waiting longest, however often its successors change meanwhile.
-/

namespace ParityGames

namespace Schedule

inductive Call where
  | next
  | lifted (v : Nat)
deriving DecidableEq, Repr

inductive Event where
  | next (answer : Option Nat)
  | lifted (v : Nat)
deriving DecidableEq, Repr

/-- Make a call and enter it into the history, the latest event first. -/
def record (state : Schedule × List Event) : Call → Except Fault (Schedule × List Event)
  | .next => .ok (state.1.next.2, .next state.1.next.1 :: state.2)
  | .lifted v => do return (← state.1.notify v, .lifted v :: state.2)

def follow (s : Schedule) (calls : List Call) : Except Fault (Schedule × List Event) :=
  calls.foldlM record (s, [])

/-- The time since when a vertex has been waiting for a turn: since the start, or since one of its
successors changed for the first time after its last turn. -/
def since (g : Game) : List Event → Nat → Option Nat
  | [], u => if g.contains u then some 0 else none
  | .next answer :: earlier, u => if answer = some u then none else since g earlier u
  | .lifted v :: earlier, u =>
      match since g earlier u with
      | some i => some i
      | none =>
          if g.contains u ∧ v ∈ g.successors u then some (earlier.length + 1) else none

variable {g : Game} {s : Schedule} {history : List Event} {policy : Policy} {u v i : Nat}

/-- The vertex has been waiting longer than the other one, or as long with a smaller number. -/
def Sooner (time : Nat → Option Nat) (u w : Nat) : Prop :=
  ∃ i j, time u = some i ∧ time w = some j ∧ (i < j ∨ i = j ∧ u < w)

/-- The queue is in the order in which its vertices came to wait. -/
def Lined (time : Nat → Option Nat) : Schedule → Prop
  | .round .. => True
  | .queue _ waiting _ => (∀ u ∈ waiting, (time u).isSome) ∧ waiting.Pairwise (Sooner time)

def kind : Schedule → Policy
  | .round .. => .linear
  | .queue .. => .predecessor

/-! ## Waiting -/

theorem since_spec (h : since g history u = some i) :
    g.contains u = true ∧ i ≤ history.length := by
  induction history generalizing i with
  | nil =>
      unfold since at h
      split at h
      · rename_i hu
        exact ⟨hu, by simp at h; omega⟩
      · cases h
  | cons event earlier ih =>
      cases event with
      | next answer =>
          unfold since at h
          split at h
          · cases h
          · exact ⟨(ih h).1, Nat.le_succ_of_le (ih h).2⟩
      | lifted v =>
          unfold since at h
          split at h
          · rename_i hsome
            cases h
            exact ⟨(ih hsome).1, Nat.le_succ_of_le (ih hsome).2⟩
          · split at h
            · rename_i hedge
              cases h
              exact ⟨hedge.1, Nat.le_refl _⟩
            · cases h

/-- A vertex that is not waiting had a turn, also since the last change of any successor. -/
theorem turn_of_since_none (hu : g.contains u = true) (h : since g history u = none) :
    .next (some u) ∈ history ∧ ∀ v ∈ g.successors u, ∀ later earlier,
      history = later ++ .lifted v :: earlier → .next (some u) ∈ later := by
  induction history with
  | nil => simp [since, hu] at h
  | cons event rest ih =>
      cases event with
      | next answer =>
          by_cases hanswer : answer = some u
          · subst hanswer
            refine ⟨List.mem_cons_self, fun v _ later earlier hsplit => ?_⟩
            cases later with
            | nil => cases hsplit
            | cons first later =>
                cases hsplit
                exact List.mem_cons_self
          · rw [since, if_neg hanswer] at h
            obtain ⟨hturn, hlast⟩ := ih h
            refine ⟨List.mem_cons_of_mem _ hturn, fun v hv later earlier hsplit => ?_⟩
            cases later with
            | nil => cases hsplit
            | cons first later =>
                cases hsplit
                exact List.mem_cons_of_mem _ (hlast v hv later earlier rfl)
      | lifted v =>
          unfold since at h
          split at h
          · cases h
          · rename_i hnone
            split at h
            · cases h
            · rename_i hedge
              obtain ⟨hturn, hlast⟩ := ih hnone
              refine ⟨List.mem_cons_of_mem _ hturn, fun w hw later earlier hsplit => ?_⟩
              cases later with
              | nil =>
                  cases hsplit
                  exact absurd ⟨hu, hw⟩ hedge
              | cons first later =>
                  cases hsplit
                  exact List.mem_cons_of_mem _ (hlast w hw later earlier rfl)

/-! ## One call -/

/-- What holds of a schedule that was started on the game, after the calls of the history. -/
structure Upholds (g : Game) (policy : Policy) (s : Schedule) (history : List Event) : Prop where
  kind : s.kind = policy
  covers : s.Covers g fun u => since g history u = none
  turns : s.turnsLeft g ≤ g.vertices.length
  lined : s.Lined (since g history)
  active : ∀ u, .next (some u) ∈ history → g.contains u = true

theorem upholds_start (hg : g.Coherent) (policy : Policy) :
    Upholds g policy (start g policy) [] := by
  obtain ⟨hcovers, hturns⟩ := covers_start hg policy
  refine ⟨by cases policy <;> rfl, hcovers, Nat.le_of_eq hturns, ?_, by simp⟩
  cases policy with
  | linear => trivial
  | predecessor =>
      have hstart : ∀ u ∈ g.vertices, since g [] u = some 0 := fun u hu =>
        if_pos (Game.mem_vertices.1 hu)
      refine ⟨fun u hu => by rw [hstart u hu]; rfl, ?_⟩
      exact g.active.toList_increasing.imp_of_mem fun {u w} hu hw hlt =>
        ⟨0, 0, hstart u hu, hstart w hw, Or.inr ⟨rfl, hlt⟩⟩

theorem next_of_none (h : s.next.1 = none) : s.next.2 = s := by
  cases s with
  | round vertices position unchanged =>
      by_cases hlt : unchanged < vertices.length
      · simp [next, hlt] at h
      · simp [next, hlt]
  | queue incoming waiting queued =>
      cases waiting with
      | nil => rfl
      | cons v rest => cases h

theorem next_eq_none_iff {settled : Nat → Prop} (hs : s.Covers g settled) :
    s.next.1 = none ↔ s.turnsLeft g = 0 := by
  cases s with
  | round vertices position unchanged =>
      obtain ⟨rfl, -⟩ := hs
      rw [turnsLeft, Nat.sub_eq_zero_iff_le, ← Nat.not_lt]
      by_cases hlt : unchanged < g.vertices.length <;> simp [next, hlt]
  | queue incoming waiting queued => cases waiting <;> simp [next, turnsLeft]

theorem turnsLeft_next {settled : Nat → Prop} (hs : s.Covers g settled) :
    s.next.2.turnsLeft g ≤ s.turnsLeft g - 1 := by
  cases hanswer : s.next.1 with
  | none => rw [next_of_none hanswer, (next_eq_none_iff hs).1 hanswer]
  | some v =>
      have hall : s.Covers g fun _ => True := hs.mono fun _ _ => trivial
      obtain ⟨-, hlt⟩ := covers_next hall (Prod.ext hanswer rfl) trivial
      exact Nat.le_sub_one_of_lt hlt

theorem kind_next (s : Schedule) : s.next.2.kind = s.kind := by
  cases s with
  | round vertices position unchanged =>
      simp only [next]
      split <;> rfl
  | queue incoming waiting queued => cases waiting <;> rfl

theorem Lined.congr {time time' : Nat → Option Nat} {waiting : List Nat} {incoming : Incoming}
    {queued : VertexSet} (h : (queue incoming waiting queued).Lined time)
    (hsame : ∀ u ∈ waiting, time' u = time u) : (queue incoming waiting queued).Lined time' := by
  obtain ⟨hsome, hsooner⟩ := h
  refine ⟨fun u hu => (hsame u hu).symm ▸ hsome u hu, hsooner.imp_of_mem fun {u w} hu hw => ?_⟩
  unfold Sooner
  rw [hsame u hu, hsame w hw]
  exact id

namespace Upholds

theorem next (h : Upholds g policy s history) :
    Upholds g policy s.next.2 (.next s.next.1 :: history) := by
  cases hanswer : s.next.1 with
  | none =>
      have hsince : since g (.next none :: history) = since g history :=
        funext fun u => if_neg (by simp)
      rw [next_of_none hanswer]
      exact {
        kind := h.kind
        covers := hsince ▸ h.covers
        turns := h.turns
        lined := hsince ▸ h.lined
        active := fun u hu => h.active u (by simpa using hu) }
  | some v =>
      have hnext : s.next = (some v, s.next.2) := Prod.ext hanswer rfl
      have hsince : ∀ u, since g (.next (some v) :: history) u =
          if v = u then none else since g history u := by
        intro u
        simp [since]
      have hafter : s.Covers g fun u => since g (.next (some v) :: history) u = none :=
        h.covers.mono fun u hu => by simp [hsince, hu]
      obtain ⟨hcovers, hlt⟩ := covers_next hafter hnext (by simp [hsince])
      refine {
        kind := (kind_next s).trans h.kind
        covers := hcovers
        turns := Nat.le_trans (Nat.le_of_lt hlt) h.turns
        lined := ?_
        active := fun u hu => ?_ }
      · cases s with
        | round vertices position unchanged =>
            simp only [Schedule.next]
            split <;> trivial
        | queue incoming waiting queued =>
            obtain ⟨-, -, hnodup, -⟩ := h.covers
            cases waiting with
            | nil => cases hanswer
            | cons w rest =>
                cases hanswer
                obtain ⟨hsome, hsooner⟩ := h.lined
                have hrest : (queue incoming rest (queued.remove v)).Lined (since g history) :=
                  ⟨fun u hu => hsome u (List.mem_cons_of_mem v hu), (List.pairwise_cons.1 hsooner).2⟩
                refine hrest.congr fun u hu => ?_
                rw [hsince, if_neg]
                rintro rfl
                exact (List.nodup_cons.1 hnodup).1 hu
      · rcases List.mem_cons.1 hu with heq | hu
        · cases heq
          exact contains_of_next h.covers hnext
        · exact h.active u hu

theorem lifted (h : Upholds g policy s history) (hg : g.Coherent) (hv : g.contains v = true) :
    Upholds g policy (s.lifted v) (.lifted v :: history) := by
  have hkept : ∀ u i, since g history u = some i →
      since g (.lifted v :: history) u = some i := by
    intro u i hu
    simp [since, hu]
  have hsettled : ∀ u, g.contains u = true → v ∉ g.successors u → since g history u = none →
      since g (.lifted v :: history) u = none := by
    intro u _ hedge hu
    simp [since, hu, hedge]
  obtain ⟨hcovers, hturns⟩ := h.covers.lifted hg hv hsettled
  refine {
    kind := by cases s <;> exact h.kind
    covers := hcovers
    turns := hturns
    lined := ?_
    active := fun u hu => h.active u (by simpa using hu) }
  cases s with
  | round vertices position unchanged => trivial
  | queue incoming waiting queued =>
      obtain ⟨rfl, hcapacity, -, hqueued, -, hsettled⟩ := h.covers
      obtain ⟨hsome, hsooner⟩ := h.lined
      obtain ⟨queued', hlifted, -⟩ := lifted_queue hg hv waiting hcapacity
      have htime : ∀ u ∈ waiting, ∃ i ≤ history.length, since g (.lifted v :: history) u = some i := by
        intro u hu
        obtain ⟨i, hi⟩ := Option.isSome_iff_exists.1 (hsome u hu)
        exact ⟨i, (since_spec hi).2, hkept u i hi⟩
      have hnew : ∀ u ∈ (g.predecessors v).filter (fun u => !queued.contains u),
          since g (.lifted v :: history) u = some (history.length + 1) := by
        intro u hu
        obtain ⟨hmem, hout⟩ := List.mem_filter.1 hu
        have hedge := (hg.mem_predecessors hv).1 hmem
        have hnone := hsettled u hedge.1 fun hwaits => by simp [(hqueued u).1 hwaits] at hout
        simp [since, hnone, hedge]
      rw [hlifted]
      refine ⟨fun u hu => ?_, List.pairwise_append.2 ⟨?_, ?_, fun u hu w hw => ?_⟩⟩
      · rcases List.mem_append.1 hu with hu | hu
        · obtain ⟨i, -, hi⟩ := htime u hu
          rw [hi]
          rfl
        · rw [hnew u hu]
          rfl
      · exact hsooner.imp fun {u w} ⟨i, j, hi, hj, hij⟩ => ⟨i, j, hkept u i hi, hkept w j hj, hij⟩
      · refine ((hg.predecessors_increasing (hg.contains_lt hv)).filter _).imp_of_mem
          fun {u w} hu hw hlt => ?_
        exact ⟨_, _, hnew u hu, hnew w hw, Or.inr ⟨rfl, hlt⟩⟩
      · obtain ⟨i, hi, htime⟩ := htime u hu
        exact ⟨i, _, htime, hnew w hw, Or.inl (Nat.lt_succ_of_le hi)⟩

/-! ## All calls -/

theorem notify (h : Upholds g policy s history) (hg : g.Coherent) (hv : g.contains v = true) :
    s.notify v = .ok (s.lifted v) := by
  cases s with
  | round vertices position unchanged => rfl
  | queue incoming waiting queued =>
      obtain ⟨rfl, -⟩ := h.covers
      refine if_pos ?_
      rw [Game.activeIncoming, Incoming.length_ofEdges]
      exact hg.contains_lt hv

/-- No call is at fault, and it upholds what held before. -/
theorem record (h : Upholds g policy s history) (hg : g.Coherent) {call : Call}
    (hactive : ∀ v, call = .lifted v → g.contains v = true) :
    ∃ state, record (s, history) call = .ok state ∧ Upholds g policy state.1 state.2 := by
  cases call with
  | next => exact ⟨_, rfl, h.next⟩
  | lifted v =>
      have hv := hactive v rfl
      exact ⟨_, bind_eq_ok_iff.2 ⟨_, h.notify hg hv, rfl⟩, h.lifted hg hv⟩

theorem follow (h : Upholds g policy s history) (hg : g.Coherent) {calls : List Call}
    (hactive : ∀ v, .lifted v ∈ calls → g.contains v = true) :
    ∃ state, calls.foldlM Schedule.record (s, history) = .ok state ∧
      Upholds g policy state.1 state.2 := by
  refine foldlM_ok Schedule.record calls (s, history)
    (fun _ state => Upholds g policy state.1 state.2) h ?_
  intro done call rest state hcalls hstate
  refine hstate.record hg fun v hv => hactive v ?_
  rw [hcalls, hv]
  exact List.mem_append_right _ List.mem_cons_self

/-- With no change in between, no turn is left after as many calls as vertices are active. -/
theorem ends (h : Upholds g policy s history) {k : Nat} (hk : s.turnsLeft g ≤ k) :
    ∃ state, (List.replicate k .next).foldlM Schedule.record (s, history) = .ok state ∧
      state.1.next.1 = none := by
  induction k generalizing s history with
  | zero => exact ⟨(s, history), rfl, (next_eq_none_iff h.covers).2 (Nat.le_zero.1 hk)⟩
  | succ k ih =>
      rw [List.replicate_succ, List.foldlM_cons]
      exact ih h.next (Nat.le_trans (turnsLeft_next h.covers) (Nat.sub_le_of_le_add hk))

theorem queued (h : Upholds g .predecessor s history) :
    (∃ waiting queued, s = .queue g.activeIncoming waiting queued ∧ waiting.Nodup ∧
      ∀ u, (u ∈ waiting ↔ (since g history u).isSome) ∧
        (u ∈ waiting ↔ queued.contains u = true)) ∧
    ∀ u, s.next.1 = some u ↔ ∃ i, since g history u = some i ∧
      ∀ w j, since g history w = some j → i < j ∨ i = j ∧ u ≤ w := by
  cases s with
  | round vertices position unchanged => cases h.kind
  | queue incoming waiting queued =>
      obtain ⟨rfl, -, hnodup, hqueued, -, hsettled⟩ := h.covers
      obtain ⟨hsome, hsooner⟩ := h.lined
      have hwaits : ∀ u i, since g history u = some i → u ∈ waiting := by
        intro u i hi
        by_contra hout
        rw [hsettled u (since_spec hi).1 hout] at hi
        cases hi
      refine ⟨⟨waiting, queued, rfl, hnodup, fun u => ⟨⟨hsome u, fun hu => ?_⟩, hqueued u⟩⟩,
        fun u => ?_⟩
      · obtain ⟨i, hi⟩ := Option.isSome_iff_exists.1 hu
        exact hwaits u i hi
      · cases waiting with
        | nil =>
            simp only [Schedule.next, reduceCtorEq, false_iff, not_exists]
            rintro i ⟨hi, -⟩
            cases hwaits u i hi
        | cons x rest =>
            obtain ⟨i, hi⟩ := Option.isSome_iff_exists.1 (hsome x List.mem_cons_self)
            -- Only the first vertex of the queue can be the one that has been waiting longest.
            have hfirst := (List.pairwise_cons.1 hsooner).1
            simp only [Schedule.next, Option.some.injEq]
            constructor
            · rintro rfl
              refine ⟨i, hi, fun w j hj => ?_⟩
              rcases List.mem_cons.1 (hwaits w j hj) with rfl | hw
              · rw [hi] at hj
                exact Or.inr ⟨Option.some.inj hj, Nat.le_refl w⟩
              · obtain ⟨i', j', hi', hj', hle⟩ := hfirst w hw
                rw [hi] at hi'
                rw [hj] at hj'
                cases hi'
                cases hj'
                omega
            · rintro ⟨j, hj, hleast⟩
              have hle := hleast x i hi
              rcases List.mem_cons.1 (hwaits u j hj) with rfl | hu
              · rfl
              · obtain ⟨i', j', hi', hj', hlt⟩ := hfirst u hu
                rw [hi] at hi'
                rw [hj] at hj'
                cases hi'
                cases hj'
                omega

end Upholds

/-- No call is at fault. If a schedule has no turn to give, every active vertex had one, and had one
after the last change of any of its successors. Turns go to active vertices only. The queue gives
the turn to the vertex that has been waiting longest, and no vertex waits twice. As many calls as
there are active vertices, with no change in between, bring a schedule to its end. -/
theorem calls_answered (hg : g.Reachable) (policy : Policy) (calls : List Call)
    (hactive : ∀ v, .lifted v ∈ calls → g.contains v = true) :
    ∃ s history, (start g policy).follow calls = .ok (s, history) ∧
      (s.next.1 = none → ∀ u, g.contains u = true → .next (some u) ∈ history ∧
        ∀ v ∈ g.successors u, ∀ later earlier, history = later ++ .lifted v :: earlier →
          .next (some u) ∈ later) ∧
      (∀ u, .next (some u) ∈ history → g.contains u = true) ∧
      (policy = .predecessor →
        (∃ waiting queued, s = .queue g.activeIncoming waiting queued ∧ waiting.Nodup ∧
          ∀ u, (u ∈ waiting ↔ (since g history u).isSome) ∧
            (u ∈ waiting ↔ queued.contains u = true)) ∧
        ∀ u, s.next.1 = some u ↔ ∃ i, since g history u = some i ∧
          ∀ w j, since g history w = some j → i < j ∨ i = j ∧ u ≤ w) ∧
      ∀ earlier k, calls = earlier ++ List.replicate k .next → g.size ≤ k → s.next.1 = none := by
  have hcoherent := hg.coherent
  have hstart := upholds_start hcoherent policy
  obtain ⟨⟨s, history⟩, hfollow, h⟩ := hstart.follow hcoherent hactive
  refine ⟨s, history, hfollow, fun hend u hu => ?_, h.active, ?_, ?_⟩
  · exact turn_of_since_none hu (settled_of_next_none h.covers hend hu)
  · rintro rfl
    exact h.queued
  · rintro earlier k rfl hk
    have hbegun : ∀ v, .lifted v ∈ earlier → g.contains v = true := fun v hv =>
      hactive v (List.mem_append_left _ hv)
    obtain ⟨before, hearlier, hbefore⟩ := hstart.follow hcoherent hbegun
    obtain ⟨after, hends, hend⟩ :=
      hbefore.ends (k := k) (Nat.le_trans hbefore.turns (g.size_eq_length ▸ hk))
    rw [List.foldlM_append, hearlier, ok_bind, hends] at hfollow
    cases hfollow
    exact hend

/-- One vertex after its turn, two changes of its successor, then a turn for every vertex. -/
def errands : List Call := [.next, .lifted 1, .lifted 1] ++ List.replicate 5 .next

/-- The vertex waits for its second turn behind the others, and it waits once. -/
theorem calls_answered_duel : ∃ g, duel.build = .ok g ∧ ∃ s history,
    (start g .predecessor).follow errands = .ok (s, history) ∧ s.next.1 = none ∧
      history = [.next (some 0), .next (some 4), .next (some 3), .next (some 2), .next (some 1),
        .lifted 1, .lifted 1, .next (some 0)] := by
  obtain ⟨g, hg, hshape⟩ : ∃ g, duel.build = .ok g ∧ (g.contains 1 = true ∧ g.size = 5 ∧
      ((start g .predecessor).follow errands).toOption.any (fun r => decide (r.2 =
        [.next (some 0), .next (some 4), .next (some 3), .next (some 2), .next (some 1),
          .lifted 1, .lifted 1, .next (some 0)])) = true) :=
    ⟨_, rfl, by decide +kernel⟩
  obtain ⟨hactive, hsize, hhistory⟩ := hshape
  obtain ⟨s, history, hfollow, -, -, -, hends⟩ :=
    calls_answered (.build hg) .predecessor errands fun v hv => by
      simp only [errands, List.cons_append, List.nil_append, List.mem_cons, Call.lifted.injEq,
        reduceCtorEq, List.mem_replicate, and_false, or_false, false_or, or_self] at hv
      exact hv ▸ hactive
  rw [hfollow, Except.toOption, Option.any_some, decide_eq_true_eq] at hhistory
  exact ⟨g, hg, s, history, hfollow, hends _ 5 rfl (Nat.le_of_eq hsize), hhistory⟩

end Schedule

end ParityGames
