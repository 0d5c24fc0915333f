import ParityGames.Proofs.Game.Index

/-! # Parts of parts

A part of a game is determined by its active vertices: the counts follow from them, and everything
else is that of the whole game. So keeping a set is removing its complement, parts of parts are
parts, and a change of priority may come before or after a cut that leaves its vertex active.
-/

namespace ParityGames

theorem Tallies.unique {counts other : SortedMap Nat} {priorities : List Nat}
    (h : Tallies counts priorities) (h' : Tallies other priorities) : counts = other :=
  SortedMap.ext_get? fun p => (h p).trans (h' p).symm

namespace Game

variable {g part other : Game} {s t : VertexSet}

namespace PartOf

theorem symm (h : part.PartOf g) : g.PartOf part :=
  ⟨h.arena.symm, h.priorities.symm, h.buckets.symm⟩

/-- Coherent parts of one game with the same active vertices are equal. -/
theorem ext (h : part.PartOf other) (hpart : part.Coherent) (hother : other.Coherent)
    (hcontains : ∀ v, part.contains v = other.contains v) : part = other := by
  have hactive : part.active = other.active := by
    refine VertexSet.ext ?_ hcontains
    rw [hpart.capacity, hother.capacity, h.vertexCount]
  have hcounts : part.counts = other.counts := by
    have htallies := hother.counts
    have hpriority : part.priorityOf = other.priorityOf := funext h.priorityOf
    rw [vertices, ← hactive, ← hpriority] at htallies
    exact hpart.counts.unique htallies
  obtain ⟨harena, hpriorities, hbuckets⟩ := h
  cases part
  cases other
  simp only at harena hpriorities hbuckets hactive hcounts
  subst harena hpriorities hbuckets hactive hcounts
  rfl

theorem setPriority (h : part.PartOf g) {v priority : Nat} {changed changedPart : Game}
    (made : g.setPriority v priority = .ok changed)
    (madePart : part.setPriority v priority = .ok changedPart) : changedPart.PartOf changed := by
  unfold Game.setPriority at made madePart
  split at made
  · split at madePart
    · cases made
      cases madePart
      refine ⟨h.arena, ?_, ?_⟩
      · simp only [h.priorities]
      · simp only [h.buckets, h.priorityOf]
    · cases madePart
  · cases made

end PartOf

theorem contains_setPriority {v priority : Nat} {changed : Game}
    (made : g.setPriority v priority = .ok changed) (w : Nat) :
    changed.contains w = g.contains w := by
  unfold setPriority at made
  split at made
  · cases made
    rfl
  · cases made

theorem contains_of_setPriority {v priority : Nat} {changed : Game}
    (made : g.setPriority v priority = .ok changed) : g.contains v = true := by
  unfold setPriority at made
  split at made
  · assumption
  · cases made

theorem arena_setPriority {v priority : Nat} {changed : Game}
    (made : g.setPriority v priority = .ok changed) : changed.arena = g.arena := by
  unfold setPriority at made
  split at made
  · cases made
    rfl
  · cases made

theorem vertexCount_setPriority {v priority : Nat} {changed : Game}
    (made : g.setPriority v priority = .ok changed) : changed.vertexCount = g.vertexCount := by
  rw [vertexCount, arena_setPriority made]
  rfl

/-- If a cut leaves the same vertices before and after a change of priority, it leaves the changed
part of the changed game. -/
theorem setPriority_part (hpart : part.Coherent) (hof : part.PartOf g) {v priority : Nat}
    (hv : part.contains v = true) {changed rest : Game}
    (made : g.setPriority v priority = .ok changed) (hrest : rest.Coherent)
    (hrestOf : rest.PartOf changed) (hcontains : ∀ w, rest.contains w = part.contains w) :
    part.setPriority v priority = .ok rest := by
  obtain ⟨changedPart, madePart, -⟩ := setPriority_of_active hpart hv priority
  have hsame : changedPart.PartOf rest := (hof.setPriority made madePart).trans hrestOf.symm
  rw [madePart, hsame.ext (hpart.setPriority madePart) hrest fun w => ?_]
  rw [contains_setPriority madePart, hcontains]

namespace Coherent

theorem subgame_complement (hg : g.Coherent) (hs : s.capacity = g.vertexCount) :
    g.subgame s.complement = .ok (g.difference s) := by
  obtain ⟨hdrop, hdropOf, hdropContains⟩ := difference_spec hg s
  obtain ⟨rest, hrest, hkeep, hkeepOf, hkeepContains⟩ :=
    subgame_spec hg (s.capacity_complement.trans hs)
  rw [hrest, (hkeepOf.trans hdropOf.symm).ext hkeep hdrop fun v => ?_]
  rw [hkeepContains, hdropContains, VertexSet.contains_complement]
  cases hv : g.contains v with
  | false => simp
  | true => simp [hs, hg.contains_lt hv]

theorem subgame_subgame (hg : g.Coherent) (hs : s.capacity = g.vertexCount)
    (ht : t.capacity = g.vertexCount) (made : g.subgame s = .ok part) :
    ∃ rest, part.subgame t = .ok rest ∧ g.subgame (s.inter t) = .ok rest := by
  obtain ⟨_, hpart, hcoherent, hof, hcontains⟩ := subgame_spec hg hs
  cases Except.ok.inj (made.symm.trans hpart)
  obtain ⟨rest, hrest, hkeep, hkeepOf, hkeepContains⟩ :=
    subgame_spec hcoherent (ht.trans hof.vertexCount.symm)
  obtain ⟨both, hboth, hinter, hinterOf, hinterContains⟩ :=
    subgame_spec hg ((s.capacity_inter t).trans hs)
  refine ⟨rest, hrest, ?_⟩
  rw [hboth, ((hkeepOf.trans hof).trans hinterOf.symm).ext hkeep hinter fun v => ?_]
  rw [hkeepContains, hcontains, hinterContains, VertexSet.contains_inter (hs.trans ht.symm),
    ← Bool.and_assoc, Bool.and_comm (t.contains v)]

theorem difference_difference (hg : g.Coherent) (hst : s.capacity = t.capacity) :
    (g.difference s).difference t = g.difference (s.union t) := by
  obtain ⟨hfirst, hfirstOf, hfirstContains⟩ := difference_spec hg s
  obtain ⟨hboth, hbothOf, hbothContains⟩ := difference_spec hfirst t
  obtain ⟨hunion, hunionOf, hunionContains⟩ := difference_spec hg (s.union t)
  refine ((hbothOf.trans hfirstOf).trans hunionOf.symm).ext hboth hunion fun v => ?_
  rw [hbothContains, hfirstContains, hunionContains, VertexSet.contains_union hst, Bool.not_or,
    Bool.and_assoc]

theorem difference_subgame (hg : g.Coherent) (hs : s.capacity = g.vertexCount)
    (made : g.subgame s = .ok part) :
    (∀ v, (part.difference s).contains v = false) ∧ (part.difference s).isEmpty = true := by
  obtain ⟨_, hpart, hcoherent, -, hcontains⟩ := subgame_spec hg hs
  cases Except.ok.inj (made.symm.trans hpart)
  obtain ⟨hrest, -, hrestContains⟩ := difference_spec hcoherent s
  have hnone : ∀ v, (part.difference s).contains v = false := by
    intro v
    rw [hrestContains, hcontains]
    cases s.contains v <;> simp
  refine ⟨hnone, hrest.isEmpty_iff.2 ?_⟩
  rw [size_eq_length, List.length_eq_zero_iff, List.eq_nil_iff_forall_not_mem]
  intro v hv
  rw [mem_vertices, hnone] at hv
  cases hv

section SetPriority

variable {changed : Game} {v priority : Nat}

theorem setPriority_subgame (hg : g.Coherent) (hs : s.capacity = g.vertexCount)
    (hv : s.contains v = true) (made : g.setPriority v priority = .ok changed) :
    ∃ part rest, g.subgame s = .ok part ∧ changed.subgame s = .ok rest ∧
      part.setPriority v priority = .ok rest := by
  obtain ⟨part, hpart, hkeep, hkeepOf, hkeepContains⟩ := subgame_spec hg hs
  obtain ⟨rest, hrest, hkeep', hkeepOf', hkeepContains'⟩ :=
    subgame_spec (hg.setPriority made) (hs.trans (vertexCount_setPriority made).symm)
  have hsame : ∀ w, rest.contains w = part.contains w := fun w => by
    rw [hkeepContains', hkeepContains, contains_setPriority made]
  have hin : part.contains v = true := by
    rw [hkeepContains, hv, contains_of_setPriority made]
    rfl
  exact ⟨part, rest, hpart, hrest, setPriority_part hkeep hkeepOf hin made hkeep' hkeepOf' hsame⟩

theorem setPriority_difference (hg : g.Coherent) (hv : s.contains v = false)
    (made : g.setPriority v priority = .ok changed) :
    (g.difference s).setPriority v priority = .ok (changed.difference s) := by
  obtain ⟨hdrop, hdropOf, hdropContains⟩ := difference_spec hg s
  obtain ⟨hdrop', hdropOf', hdropContains'⟩ := difference_spec (hg.setPriority made) s
  have hsame : ∀ w, (changed.difference s).contains w = (g.difference s).contains w := fun w => by
    rw [hdropContains', hdropContains, contains_setPriority made]
  have hin : (g.difference s).contains v = true := by
    rw [hdropContains, hv, contains_of_setPriority made]
    rfl
  exact setPriority_part hdrop hdropOf hin made hdrop' hdropOf' hsame

end SetPriority

end Coherent

/-- Keeping a set is removing its complement. Keeping or removing one set after another is keeping
what is common to them, or removing their union; nothing is left if the kept set is removed. A
change of priority at a vertex that stays active may come first or last. -/
theorem projections_compose (hg : g.Reachable) (hs : s.capacity = g.vertexCount)
    (ht : t.capacity = g.vertexCount) :
    g.subgame s.complement = .ok (g.difference s) ∧
    (∃ part, g.subgame s = .ok part ∧
      (∃ rest, part.subgame t = .ok rest ∧ g.subgame (s.inter t) = .ok rest) ∧
      (∀ v, (part.difference s).contains v = false) ∧ (part.difference s).isEmpty = true) ∧
    (g.difference s).difference t = g.difference (s.union t) ∧
    ∀ v priority, g.contains v = true → ∃ changed, g.setPriority v priority = .ok changed ∧
      (s.contains v = true → ∃ part rest, g.subgame s = .ok part ∧ changed.subgame s = .ok rest ∧
        part.setPriority v priority = .ok rest) ∧
      (s.contains v = false →
        (g.difference s).setPriority v priority = .ok (changed.difference s)) := by
  have hcoherent := hg.coherent
  obtain ⟨part, hpart, -⟩ := subgame_spec hcoherent hs
  refine ⟨hcoherent.subgame_complement hs,
    ⟨part, hpart, hcoherent.subgame_subgame hs ht hpart, hcoherent.difference_subgame hs hpart⟩,
    hcoherent.difference_difference (hs.trans ht.symm), fun v priority hv => ?_⟩
  obtain ⟨changed, made, -⟩ := setPriority_of_active hcoherent hv priority
  exact ⟨changed, made, fun hin => hcoherent.setPriority_subgame hs hin made,
    fun hout => hcoherent.setPriority_difference hout made⟩

/-- Some vertices of both sets are inactive already, and the sets meet. -/
theorem projections_compose_duel : ∃ whole, duel.build = .ok whole ∧
    ∃ g, whole.difference (VertexSet.ofList 5 [0]) = g ∧
      (g.difference (VertexSet.ofList 5 [0, 1, 2])).difference (VertexSet.ofList 5 [0, 2, 4]) =
        g.difference ((VertexSet.ofList 5 [0, 1, 2]).union (VertexSet.ofList 5 [0, 2, 4])) ∧
      ∃ changed, g.setPriority 3 4 = .ok changed ∧
        (g.difference (VertexSet.ofList 5 [0, 1, 2])).setPriority 3 4 =
          .ok (changed.difference (VertexSet.ofList 5 [0, 1, 2])) := by
  obtain ⟨whole, hmade, -, -⟩ := duel_total
  have hshape : (duel.build.toOption.any fun whole =>
      decide ((whole.difference (VertexSet.ofList 5 [0])).vertexCount = 5) &&
        (whole.difference (VertexSet.ofList 5 [0])).contains 3) = true := by
    decide +kernel
  simp only [hmade, Except.toOption, Option.any_some, Bool.and_eq_true, decide_eq_true_eq]
    at hshape
  obtain ⟨hcount, hactive⟩ := hshape
  obtain ⟨-, -, hunion, hchange⟩ := @projections_compose _ (VertexSet.ofList 5 [0, 1, 2])
    (VertexSet.ofList 5 [0, 2, 4]) (.difference (VertexSet.ofList 5 [0]) (.build hmade))
    hcount.symm hcount.symm
  obtain ⟨changed, made, -, hdifference⟩ := hchange 3 4 hactive
  exact ⟨whole, hmade, _, rfl, hunion, changed, made, hdifference (by decide)⟩

end Game

end ParityGames
