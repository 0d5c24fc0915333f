import ParityGames.Proofs.Solution.Checked

/-! # The flaw that is named

A check that comes to an answer passes exactly the solutions that fit, and a flaw that it names is
one of the solution. It asks for the owner of every vertex with a move, so it fails on a solution
that is otherwise without a flaw and has a move at a number outside of the arena. None of this
depends on the order in which the moves come.
-/

namespace ParityGames

def Flaw.IsOf (s : Solution) (g : Game) : Flaw → Prop
  | .overlap v => g.contains v = true ∧ ∀ p, (s.region p).contains v = true
  | .unclassified v => g.contains v = true ∧ ∀ p, (s.region p).contains v = false
  | .inactive v => g.contains v = false ∧ ∃ p, (s.region p).contains v = true
  | .missingMove p v => g.contains v = true ∧ (s.region p).contains v = true ∧ g.owner v = p ∧
      (s.moves p).get? v = none
  | .illegalMove p v target => g.contains v = true ∧ (s.region p).contains v = true ∧
      g.owner v = p ∧ (s.moves p).get? v = some target ∧ target ∉ g.successors v
  | .leavesRegion p v target => g.contains v = true ∧ (s.region p).contains v = true ∧
      g.owner v = p ∧ (s.moves p).get? v = some target ∧ target ∈ g.successors v ∧
      (s.region p).contains target = false
  | .strayMove p v => v < g.vertexCount ∧ v ∈ (s.moves p).keys ∧
      ¬ (g.owner v = p ∧ (s.region p).contains v = true)

namespace Solution

variable {s : Solution} {g : Game} {t : Territory} {p : Player} {flaw : Flaw} {fault : Fault}
  {v : Nat} {vertices : List Nat}

/-! ## One pass at a time -/

theorem isOf_of_sharingFlaw? (h : s.sharingFlaw? g = some flaw) : flaw.IsOf s g := by
  obtain ⟨v, hv, hflaw⟩ := List.exists_of_findSome?_eq_some h
  rw [Game.mem_vertices] at hv
  cases heven : (s.region .even).contains v <;> cases hodd : (s.region .odd).contains v <;>
    simp only [heven, hodd, Option.some.injEq, reduceCtorEq] at hflaw <;> subst hflaw
  · exact ⟨hv, fun p => by cases p <;> assumption⟩
  · exact ⟨hv, fun p => by cases p <;> assumption⟩

theorem isOf_of_inactiveFlaw? (h : inactiveFlaw? (s.of p) g = some flaw) : flaw.IsOf s g := by
  obtain ⟨v, hfind, rfl⟩ := Option.map_eq_some_iff.1 h
  have hin := VertexSet.mem_toList.1 (List.mem_of_find?_eq_some hfind)
  have hinactive := List.find?_some hfind
  exact ⟨by simpa using hinactive, p, hin⟩

theorem isOf_of_moveFlawAt? (hv : g.contains v = true) (hin : (s.region p).contains v = true)
    (howner : g.owner v = p) (h : moveFlawAt? (s.of p) g p v = some flaw) : flaw.IsOf s g := by
  unfold moveFlawAt? at h
  cases hmove : (s.of p).moves.get? v with
  | none =>
      rw [hmove] at h
      cases h
      exact ⟨hv, hin, howner, hmove⟩
  | some target =>
      rw [hmove] at h
      by_cases hedge : target ∈ g.successors v
      · cases htarget : (s.of p).region.contains target with
        | true => simp [hedge, htarget] at h
        | false =>
            simp [hedge, htarget] at h
            subst h
            exact ⟨hv, hin, howner, hmove, hedge, htarget⟩
      · simp [hedge] at h
        subst h
        exact ⟨hv, hin, howner, hmove, hedge⟩

theorem isOf_of_moveFlaw? (hinactive : inactiveFlaw? (s.of p) g = none)
    (h : moveFlaw? (s.of p) g p = some flaw) : flaw.IsOf s g := by
  obtain ⟨v, hv, hflaw⟩ := List.exists_of_findSome?_eq_some h
  rw [List.mem_filter, VertexSet.mem_toList, decide_eq_true_eq] at hv
  -- The pass before has found no inactive vertex in the region.
  exact isOf_of_moveFlawAt? (inactiveFlaw?_eq_none_iff.1 hinactive v hv.1) hv.1 hv.2 hflaw

theorem stray_of_strayMove? (h : strayMove? t g p vertices = .ok (some v)) :
    v < g.vertexCount ∧ v ∈ vertices ∧ ¬ (g.owner v = p ∧ t.region.contains v = true) := by
  induction vertices with
  | nil => cases h
  | cons u rest ih =>
      rw [strayMove?, bind_eq_ok_iff] at h
      obtain ⟨u', hlocate, h⟩ := h
      obtain ⟨hlt, rfl⟩ := Game.locate_eq_ok_iff.1 hlocate
      split at h
      · rename_i hstray
        cases h
        refine ⟨hlt, List.mem_cons_self, ?_⟩
        rintro ⟨howner, hin⟩
        rcases hstray with hother | hout
        · exact hother howner
        · rw [hin] at hout
          cases hout
      · obtain ⟨hlt, hmem, hstray⟩ := ih h
        exact ⟨hlt, List.mem_cons_of_mem _ hmem, hstray⟩

theorem outside_of_strayMove? (h : strayMove? t g p vertices = .error fault) :
    fault = .outsideTable ∧ ∃ v ∈ vertices, g.vertexCount ≤ v := by
  induction vertices with
  | nil => cases h
  | cons u rest ih =>
      rw [strayMove?] at h
      by_cases hlt : u < g.vertexCount
      · rw [Game.locate_eq_ok_iff.2 ⟨hlt, rfl⟩, ok_bind] at h
        split at h
        · cases h
        · obtain ⟨hfault, v, hv, hle⟩ := ih h
          exact ⟨hfault, v, List.mem_cons_of_mem _ hv, hle⟩
      · rw [Game.locate, if_neg hlt, error_bind] at h
        cases h
        exact ⟨rfl, u, List.mem_cons_self, Nat.le_of_not_lt hlt⟩

/-! ## The passes together -/

theorem sound_of_silent (order : s.MoveOrder) (hinactive : inactiveFlaw? (s.of p) g = none)
    (hmove : moveFlaw? (s.of p) g p = none)
    (hstray : strayMove? (s.of p) g p (order.keys p) = .ok none) : (s.of p).Sound g p := by
  rw [inactiveFlaw?_eq_none_iff] at hinactive
  rw [moveFlaw?_eq_none_iff] at hmove
  rw [strayMove?_eq_none_iff] at hstray
  have hown : ∀ v w, (s.of p).moves.get? v = some w →
      (s.of p).region.contains v = true ∧ g.owner v = p := by
    intro v w hw
    have hkey : v ∈ order.keys p :=
      order.mem_iff.2 (SortedMap.mem_keys_iff.2 (Option.isSome_iff_exists.2 ⟨w, hw⟩))
    exact ⟨(hstray v hkey).2.2, (hstray v hkey).2.1⟩
  refine ⟨hinactive, fun v => ⟨?_, ?_⟩, fun v w hw => ?_⟩
  · rintro ⟨w, hw⟩
    exact hown v w hw
  · rintro ⟨hin, howner⟩
    obtain ⟨w, hw, -⟩ := hmove v hin howner
    exact ⟨w, hw⟩
  · obtain ⟨hin, howner⟩ := hown v w hw
    obtain ⟨target, htarget, hstays⟩ := hmove v hin howner
    rw [hw] at htarget
    cases htarget
    exact hstays

/-- The check of a territory names a flaw, passes it, or leaves the arena. -/
theorem territoryFlaw?_cases (order : s.MoveOrder) (g : Game) (p : Player) :
    (∃ flaw, flaw.IsOf s g ∧ s.territoryFlaw? g p (order.keys p) = .ok (some flaw)) ∨
    ((s.of p).Sound g p ∧ (∀ v ∈ (s.moves p).keys, v < g.vertexCount) ∧
      s.territoryFlaw? g p (order.keys p) = .ok none) ∨
    ((∃ v ∈ (s.moves p).keys, g.vertexCount ≤ v) ∧
      s.territoryFlaw? g p (order.keys p) = .error .outsideTable) := by
  unfold territoryFlaw?
  cases hinactive : inactiveFlaw? (s.of p) g with
  | some flaw => exact Or.inl ⟨flaw, isOf_of_inactiveFlaw? hinactive, by simp [hinactive]; rfl⟩
  | none =>
      cases hmove : moveFlaw? (s.of p) g p with
      | some flaw =>
          exact Or.inl ⟨flaw, isOf_of_moveFlaw? hinactive hmove, by simp [hinactive, hmove]; rfl⟩
      | none =>
          simp only [hinactive, hmove, Option.or_none]
          cases hstray : strayMove? (s.of p) g p (order.keys p) with
          | error fault =>
              obtain ⟨rfl, v, hv, houtside⟩ := outside_of_strayMove? hstray
              exact Or.inr (Or.inr ⟨⟨v, order.mem_iff.1 hv, houtside⟩, rfl⟩)
          | ok stray? =>
              cases stray? with
              | some v =>
                  obtain ⟨hlt, hv, hnot⟩ := stray_of_strayMove? hstray
                  exact Or.inl ⟨.strayMove p v, ⟨hlt, order.mem_iff.1 hv, hnot⟩, rfl⟩
              | none =>
                  have hown := strayMove?_eq_none_iff.1 hstray
                  exact Or.inr (Or.inl ⟨sound_of_silent order hinactive hmove hstray,
                    fun v hv => (hown v (order.mem_iff.2 hv)).1, rfl⟩)

theorem shares_of_silent (hsharing : s.sharingFlaw? g = none)
    (hsound : ∀ p, (s.of p).Sound g p) : s.Shares g := by
  rw [sharingFlaw?_eq_none_iff] at hsharing
  intro v
  have hactive : ∀ p, (s.region p).contains v = true → g.contains v = true :=
    fun p => (hsound p).active v
  exact ⟨⟨fun h => h.elim (hactive .even) (hactive .odd), fun hv => (hsharing v hv).1⟩,
    fun hboth => (hsharing v (hactive .even hboth.1)).2 hboth⟩

theorem checkIn_cases (order : s.MoveOrder) (g : Game) :
    (∃ flaw, flaw.IsOf s g ∧ s.checkIn order g = .ok (some flaw)) ∨
    (s.Fits g ∧ (∀ p, ∀ v ∈ (s.moves p).keys, v < g.vertexCount) ∧
      s.checkIn order g = .ok none) ∨
    ((∃ p, ∃ v ∈ (s.moves p).keys, g.vertexCount ≤ v) ∧
      s.checkIn order g = .error .outsideTable) := by
  unfold Solution.checkIn
  cases hsharing : s.sharingFlaw? g with
  | some flaw => exact Or.inl ⟨flaw, isOf_of_sharingFlaw? hsharing, rfl⟩
  | none =>
      rcases territoryFlaw?_cases order g .even with
        ⟨flaw, hflaw, heven⟩ | ⟨hsoundEven, hinsideEven, heven⟩ | ⟨houtside, heven⟩
      · exact Or.inl ⟨flaw, hflaw, by rw [heven]; rfl⟩
      · rcases territoryFlaw?_cases order g .odd with
          ⟨flaw, hflaw, hodd⟩ | ⟨hsoundOdd, hinsideOdd, hodd⟩ | ⟨houtside, hodd⟩
        · exact Or.inl ⟨flaw, hflaw, by rw [heven, hodd]; rfl⟩
        · have hsound : ∀ p, (s.of p).Sound g p := fun p => by cases p <;> assumption
          have hinside : ∀ p, ∀ v ∈ (s.moves p).keys, v < g.vertexCount :=
            fun p => by cases p <;> assumption
          exact Or.inr (Or.inl ⟨⟨shares_of_silent hsharing hsound, hsound⟩, hinside,
            by rw [heven, hodd]; rfl⟩)
        · exact Or.inr (Or.inr ⟨⟨.odd, houtside⟩, by rw [heven, hodd]; rfl⟩)
      · exact Or.inr (Or.inr ⟨⟨.even, houtside⟩, by rw [heven]; rfl⟩)

/-! ## What the check decides -/

/-- As long as the moves are at vertices of the arena, the check comes to an answer in any order of
them: it passes exactly the solutions that fit, and what it names of any other is a flaw of it. -/
theorem check_decides (hg : g.Reachable)
    (hkeys : ∀ p, ∀ v ∈ (s.moves p).keys, v < g.vertexCount) (order : s.MoveOrder) :
    ∃ flaw?, s.checkIn order g = .ok flaw? ∧ (flaw? = none ↔ s.Fits g) ∧
      ∀ flaw, flaw? = some flaw → flaw.IsOf s g := by
  rcases checkIn_cases order g with
    ⟨flaw, hflaw, hcheck⟩ | ⟨hfits, -, hcheck⟩ | ⟨⟨p, v, hv, houtside⟩, -⟩
  · refine ⟨some flaw, hcheck, ⟨(nomatch ·), fun hfits => ?_⟩, fun _ h => ?_⟩
    · rw [hfits.checkIn hg.coherent order] at hcheck
      cases hcheck
    · cases h
      exact hflaw
  · exact ⟨none, hcheck, ⟨fun _ => hfits, fun _ => rfl⟩, fun _ h => nomatch h⟩
  · exact absurd (hkeys p v hv) (Nat.not_lt.2 houtside)

/-- Regions of other capacities, and a move of player even to a number outside of the arena. -/
def wandering : Solution where
  even := ⟨VertexSet.ofList 130 [0, 2, 4], SortedMap.ofList [(0, 2), (2, 2), (4, 100)]⟩
  odd := ⟨VertexSet.ofList 4 [1, 3], SortedMap.ofList [(1, 3), (3, 3)]⟩

theorem check_decides_duel : ∃ g, duel.build = .ok g ∧
    wandering.check g = .ok (some (.illegalMove .even 4 100)) ∧ ¬ wandering.Fits g ∧
    Flaw.IsOf wandering g (.illegalMove .even 4 100) := by
  obtain ⟨g, hmade, -, -⟩ := duel_total
  have hrun : (duel.build.toOption.any fun g => decide (g.vertexCount = 5) &&
      (wandering.check g).toOption.any (· = some (.illegalMove .even 4 100))) = true := by
    decide +kernel
  simp only [hmade, Except.toOption, Option.any_some, Bool.and_eq_true, decide_eq_true_eq] at hrun
  obtain ⟨hcount, hrun⟩ := hrun
  have hkeys : ∀ p, ∀ v ∈ (wandering.moves p).keys, v < g.vertexCount := by
    rw [hcount]
    intro p
    cases p <;> decide +kernel
  obtain ⟨flaw?, hcheck, hfits, hflaw⟩ :=
    check_decides (.build hmade) hkeys (.increasing wandering)
  rw [Solution.check, hcheck] at hrun
  have hnamed : flaw? = some (.illegalMove .even 4 100) := by simpa using hrun
  refine ⟨g, hmade, hnamed ▸ hcheck, fun h => ?_, hflaw _ hnamed⟩
  rw [hfits.2 h] at hnamed
  cases hnamed

/-- A check that fails has met a move outside of the arena, and one such move is enough where the
solution has no flaw: it is not reported as a stray one, whenever its turn comes. -/
theorem check_outside (s : Solution) (g : Game) (order : s.MoveOrder) :
    (∀ fault, s.checkIn order g = .error fault →
      fault = .outsideTable ∧ ∃ p, ∃ v ∈ (s.moves p).keys, g.vertexCount ≤ v) ∧
    ((∀ flaw : Flaw, ¬ flaw.IsOf s g) → (∃ p, ∃ v ∈ (s.moves p).keys, g.vertexCount ≤ v) →
      s.checkIn order g = .error .outsideTable) := by
  rcases checkIn_cases order g with
    ⟨flaw, hflaw, hcheck⟩ | ⟨-, hinside, hcheck⟩ | ⟨houtside, hcheck⟩
  · rw [hcheck]
    exact ⟨fun _ h => (nomatch h), fun hnone => absurd hflaw (hnone flaw)⟩
  · rw [hcheck]
    exact ⟨fun _ h => (nomatch h), fun _ ⟨p, v, hv, hle⟩ =>
      absurd (hinside p v hv) (Nat.not_lt.2 hle)⟩
  · rw [hcheck]
    refine ⟨fun fault h => ?_, fun _ _ => rfl⟩
    cases h
    exact ⟨rfl, houtside⟩

def mill : GameBuilder := ⟨VertexTable.ofList [⟨.even, 0, [0]⟩]⟩

/-- The solution of `mill`, with a move at a second vertex. -/
def overreaching : Solution where
  even := ⟨VertexSet.ofList 1 [0], SortedMap.ofList [(0, 0), (1, 0)]⟩
  odd := Territory.empty 1

theorem mill_made : ∃ g, mill.build = .ok g ∧ g.vertexCount = 1 ∧ g.vertices = [0] ∧
    g.owner 0 = .even ∧ g.successors 0 = [0] := by
  have hmill : (mill.build.toOption.any fun g => decide (g.vertexCount = 1 ∧ g.vertices = [0] ∧
      g.owner 0 = .even ∧ g.successors 0 = [0])) = true := by
    decide +kernel
  cases hmade : mill.build with
  | error refusal => simp [hmade, Except.toOption] at hmill
  | ok g =>
      refine ⟨g, rfl, ?_⟩
      simpa only [hmade, Except.toOption, Option.any_some, decide_eq_true_eq] using hmill

theorem flawless_overreaching (hcount : g.vertexCount = 1) (hvertices : g.vertices = [0])
    (howner : g.owner 0 = .even) (hsuccessors : g.successors 0 = [0]) :
    ∀ flaw : Flaw, ¬ flaw.IsOf overreaching g := by
  have hactive : ∀ v, g.contains v = true ↔ v = 0 := fun v => by
    rw [← Game.mem_vertices, hvertices, List.mem_singleton]
  have hregion : ∀ p v, (overreaching.region p).contains v = true ↔ p = .even ∧ v = 0 := by
    intro p v
    have hlist : (overreaching.region p).toList = if p = .even then [0] else [] := by
      cases p <;> decide +kernel
    rw [← VertexSet.mem_toList, hlist]
    cases p <;> simp
  have hmove : (overreaching.moves .even).get? 0 = some 0 := by decide +kernel
  intro flaw hflaw
  cases flaw with
  | overlap v =>
      cases ((hregion .odd v).1 (hflaw.2 .odd)).1
  | unclassified v =>
      have hin := (hregion .even v).2 ⟨rfl, (hactive v).1 hflaw.1⟩
      rw [hflaw.2 .even] at hin
      cases hin
  | inactive v =>
      obtain ⟨hinactive, p, hin⟩ := hflaw
      rw [(hactive v).2 ((hregion p v).1 hin).2] at hinactive
      cases hinactive
  | missingMove p v =>
      obtain ⟨-, hin, -, hnone⟩ := hflaw
      obtain ⟨rfl, rfl⟩ := (hregion p v).1 hin
      rw [hmove] at hnone
      cases hnone
  | illegalMove p v target =>
      obtain ⟨-, hin, -, hsome, hedge⟩ := hflaw
      obtain ⟨rfl, rfl⟩ := (hregion p v).1 hin
      rw [hmove] at hsome
      cases hsome
      exact hedge (hsuccessors ▸ List.mem_singleton_self 0)
  | leavesRegion p v target =>
      obtain ⟨-, hin, -, hsome, -, hleaves⟩ := hflaw
      obtain ⟨rfl, rfl⟩ := (hregion p v).1 hin
      rw [hmove] at hsome
      cases hsome
      rw [(hregion .even 0).2 ⟨rfl, rfl⟩] at hleaves
      cases hleaves
  | strayMove p v =>
      obtain ⟨hlt, hkey, hstray⟩ := hflaw
      obtain rfl : v = 0 := Nat.lt_one_iff.1 (hcount ▸ hlt)
      cases p with
      | even => exact hstray ⟨howner, (hregion .even 0).2 ⟨rfl, rfl⟩⟩
      | odd =>
          have hnone : (overreaching.moves .odd).keys = [] := by decide +kernel
          rw [hnone] at hkey
          cases hkey

theorem check_outside_mill : ∃ g, mill.build = .ok g ∧
    ∀ order, overreaching.checkIn order g = .error .outsideTable := by
  obtain ⟨g, hmade, hcount, hvertices, howner, hsuccessors⟩ := mill_made
  exact ⟨g, hmade, fun order => (check_outside overreaching g order).2
    (flawless_overreaching hcount hvertices howner hsuccessors)
    ⟨.even, 1, by decide +kernel, Nat.le_of_eq hcount⟩⟩

/-- The move at a number outside of the arena is never named as a stray one. -/
theorem strayMove_unnamed : ∃ g, mill.build = .ok g ∧ g.vertexCount = 1 ∧
    (overreaching.moves .even).get? 1 = some 0 ∧
    ∀ order flaw?, overreaching.checkIn order g ≠ .ok flaw? := by
  obtain ⟨g, hmade, hcount, hvertices, howner, hsuccessors⟩ := mill_made
  refine ⟨g, hmade, hcount, by decide +kernel, fun order flaw? h => ?_⟩
  rcases checkIn_cases order g with ⟨flaw, hflaw, -⟩ | ⟨-, hinside, -⟩ | ⟨-, hcheck⟩
  · exact flawless_overreaching hcount hvertices howner hsuccessors flaw hflaw
  · have hlt := hinside .even 1 (by decide +kernel)
    rw [hcount] at hlt
    exact Nat.lt_irrefl 1 hlt
  · rw [h] at hcheck
    cases hcheck

end Solution

end ParityGames
