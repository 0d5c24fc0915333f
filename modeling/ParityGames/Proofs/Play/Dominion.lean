import ParityGames.Proofs.Game.Views
import ParityGames.Proofs.Play.Limit
import Mathlib.Data.Set.Basic
import Mathlib.Logic.Function.Iterate

/-! # Dominions

A dominion of a player is a region with moves for it, such that the region cannot be left while the
player keeps to the moves, and the player wins every play in it. A region from which the moves lead
into a dominion is one as well, and so is the union of a dominion with a dominion of what remains.
-/

namespace ParityGames

namespace Game

variable {g part : Game} {p : Player} {region target : Set Nat} {move : Nat → Option Nat}

def Step (g : Game) (p : Player) (move : Nat → Option Nat) (u v : Nat) : Prop :=
  v ∈ g.successors u ∧ (g.owner u = p → ∀ w, move u = some w → v = w)

/-- A walk along edges in which the player keeps to its moves. -/
def Obeys (g : Game) (p : Player) (move : Nat → Option Nat) (play : Nat → Nat) : Prop :=
  ∀ i, g.Step p move (play i) (play (i + 1))

structure Dominion (g : Game) (p : Player) (region : Set Nat) (move : Nat → Option Nat) :
    Prop where
  active : ∀ v ∈ region, g.contains v = true
  keeps : ∀ v ∈ region, g.owner v = p → ∃ w ∈ region, move v = some w ∧ w ∈ g.successors v
  traps : ∀ v ∈ region, g.owner v ≠ p → ∀ w ∈ g.successors v, w ∈ region
  wins : ∀ play, g.Obeys p move play → (∀ i, play i ∈ region) → g.WonBy p play

theorem Obeys.tail {play : Nat → Nat} (h : g.Obeys p move play) (k : Nat) :
    g.Obeys p move (tail play k) := by
  intro i
  exact h (k + i)

theorem Obeys.congr {other : Nat → Option Nat} {play : Nat → Nat} (h : g.Obeys p move play)
    (hmove : ∀ i, g.owner (play i) = p → other (play i) = move (play i)) :
    g.Obeys p other play := by
  intro i
  refine ⟨(h i).1, fun howner w hw => (h i).2 howner w ?_⟩
  rwa [hmove i howner] at hw

theorem Obeys.mono {other : Nat → Option Nat} {play : Nat → Nat} (h : g.Obeys p other play)
    (hmove : ∀ i w, g.owner (play i) = p → move (play i) = some w → other (play i) = some w) :
    g.Obeys p move play :=
  fun i => ⟨(h i).1, fun howner w hw => (h i).2 howner w (hmove i w howner hw)⟩

/-- A set that no step leaves keeps a play from its first vertex on. -/
theorem Obeys.stays {play : Nat → Nat} (h : g.Obeys p move play)
    (closed : ∀ u v, u ∈ region → g.Step p move u v → v ∈ region) {k : Nat}
    (hk : play k ∈ region) : ∀ i, ParityGames.tail play k i ∈ region := by
  intro i
  induction i with
  | zero => exact hk
  | succ i ih => exact closed _ _ ih (h (k + i))

/-- The play is one of a part of the game if it stays there. -/
theorem Obeys.inPart {play : Nat → Nat} (h : g.Obeys p move play) (hof : part.PartOf g)
    (hstay : ∀ i, part.contains (play i) = true) : part.Obeys p move play := by
  intro i
  obtain ⟨hedge, hmove⟩ := h i
  refine ⟨?_, fun howner => hmove (by rwa [← hof.owner])⟩
  exact (hof.mem_successors (contains_of_mem_successors hedge)).2 ⟨hedge, hstay (i + 1)⟩

namespace Dominion

theorem step_mem (h : g.Dominion p region move) {u v : Nat} (hu : u ∈ region)
    (hstep : g.Step p move u v) : v ∈ region := by
  by_cases howner : g.owner u = p
  · obtain ⟨w, hw, hmove, -⟩ := h.keeps u hu howner
    exact hstep.2 howner w hmove ▸ hw
  · exact h.traps u hu howner v hstep.1

/-- A play that comes into the dominion at any time is won. -/
theorem wins_of_mem (h : g.Dominion p region move) {play : Nat → Nat} (hplay : g.Obeys p move play)
    {k : Nat} (hk : play k ∈ region) : g.WonBy p play :=
  (h.wins _ (hplay.tail k) (hplay.stays (fun _ _ => h.step_mem) hk)).of_tail

theorem congr {other : Nat → Option Nat} (h : g.Dominion p region move)
    (hmove : ∀ v ∈ region, g.owner v = p → other v = move v) : g.Dominion p region other where
  active := h.active
  keeps := by
    intro v hv howner
    rw [hmove v hv howner]
    exact h.keeps v hv howner
  traps := h.traps
  wins := by
    intro play hplay hstay
    refine h.wins play (hplay.congr fun i howner => ?_) hstay
    exact (hmove (play i) (hstay i) howner).symm

theorem empty (g : Game) (p : Player) (move : Nat → Option Nat) : g.Dominion p ∅ move where
  active := fun _ hv => hv.elim
  keeps := fun _ hv => hv.elim
  traps := fun _ hv => hv.elim
  wins := fun _ _ hstay => (hstay 0).elim

/-- A dominion of one player and a dominion of the other do not meet: from a common vertex both
would win the play in which both keep to their moves. -/
theorem disjoint {other : Set Nat} {move' : Nat → Option Nat} (h : g.Dominion p region move)
    (h' : g.Dominion p.opponent other move') {v : Nat} (hv : v ∈ region) : v ∉ other := by
  intro hv'
  let next := fun u => ((if g.owner u = p then move u else move' u).getD 0)
  have hnext : ∀ u, u ∈ region ∧ u ∈ other →
      g.Step p move u (next u) ∧ g.Step p.opponent move' u (next u) := by
    rintro u ⟨hu, hu'⟩
    by_cases howner : g.owner u = p
    · obtain ⟨w, hw, hmove, hedge⟩ := h.keeps u hu howner
      have heq : next u = w := by simp [next, howner, hmove]
      have hne : g.owner u ≠ p.opponent := by simp [howner]
      rw [heq]
      exact ⟨⟨hedge, fun _ x hx => Option.some.inj (hmove.symm.trans hx)⟩,
        ⟨hedge, fun ho => absurd ho hne⟩⟩
    · have howner' : g.owner u = p.opponent := Player.eq_opponent_of_ne howner
      obtain ⟨w, hw, hmove, hedge⟩ := h'.keeps u hu' howner'
      have heq : next u = w := by simp [next, howner, hmove]
      rw [heq]
      exact ⟨⟨hedge, fun ho => absurd ho howner⟩,
        ⟨hedge, fun _ x hx => Option.some.inj (hmove.symm.trans hx)⟩⟩
  let play := fun i => next^[i] v
  have hsucc : ∀ i, play (i + 1) = next (play i) := fun i => Function.iterate_succ_apply' next i v
  have hboth : ∀ i, play i ∈ region ∧ play i ∈ other := by
    intro i
    induction i with
    | zero => exact ⟨hv, hv'⟩
    | succ i ih =>
        rw [hsucc]
        exact ⟨h.step_mem ih.1 (hnext _ ih).1, h'.step_mem ih.2 (hnext _ ih).2⟩
  have hwon : g.WonBy p play := by
    refine h.wins play (fun i => ?_) fun i => (hboth i).1
    rw [hsucc]
    exact (hnext _ (hboth i)).1
  have hwon' : g.WonBy p.opponent play := by
    refine h'.wins play (fun i => ?_) fun i => (hboth i).2
    rw [hsucc]
    exact (hnext _ (hboth i)).2
  exact hwon.not_opponent hwon'

end Dominion

/-! ## Attracting regions -/

/-- From the region the moves of the player lead into the target: a rank falls on the way. -/
structure Attracts (g : Game) (p : Player) (target region : Set Nat) (move : Nat → Option Nat)
    (rank : Nat → Nat) : Prop where
  subset : target ⊆ region
  active : ∀ v ∈ region, g.contains v = true
  own : ∀ v ∈ region, v ∉ target → g.owner v = p →
    ∃ w ∈ region, move v = some w ∧ w ∈ g.successors v ∧ rank w < rank v
  other : ∀ v ∈ region, v ∉ target → g.owner v ≠ p →
    ∀ w ∈ g.successors v, w ∈ region ∧ rank w < rank v

namespace Attracts

variable {rank : Nat → Nat}

theorem step (h : g.Attracts p target region move rank) {u v : Nat} (hu : u ∈ region)
    (hnot : u ∉ target) (hstep : g.Step p move u v) : v ∈ region ∧ rank v < rank u := by
  by_cases howner : g.owner u = p
  · obtain ⟨w, hw, hmove, -, hrank⟩ := h.own u hu hnot howner
    rw [hstep.2 howner w hmove]
    exact ⟨hw, hrank⟩
  · exact h.other u hu hnot howner v hstep.1

theorem congr {other : Nat → Option Nat} (h : g.Attracts p target region move rank)
    (hmove : ∀ v ∈ region, v ∉ target → g.owner v = p → other v = move v) :
    g.Attracts p target region other rank where
  subset := h.subset
  active := h.active
  own := by
    intro v hv hnot howner
    rw [hmove v hv hnot howner]
    exact h.own v hv hnot howner
  other := h.other

/-- A play in the region meets the target. -/
theorem reaches (h : g.Attracts p target region move rank) {play : Nat → Nat}
    (hplay : g.Obeys p move play) {i : Nat} (hi : play i ∈ region) :
    ∃ j, i ≤ j ∧ play j ∈ target := by
  induction hr : rank (play i) using Nat.strongRecOn generalizing i with
  | ind r ih =>
      by_cases ht : play i ∈ target
      · exact ⟨i, Nat.le_refl i, ht⟩
      · obtain ⟨hnext, hlt⟩ := h.step hi ht (hplay i)
        obtain ⟨j, hj, hmem⟩ := ih _ (hr ▸ hlt) hnext rfl
        exact ⟨j, by omega, hmem⟩

theorem dominion (h : g.Attracts p target region move rank) (ht : g.Dominion p target move) :
    g.Dominion p region move where
  active := h.active
  keeps := by
    intro v hv howner
    by_cases hmem : v ∈ target
    · obtain ⟨w, hw, hmove, hedge⟩ := ht.keeps v hmem howner
      exact ⟨w, h.subset hw, hmove, hedge⟩
    · obtain ⟨w, hw, hmove, hedge, -⟩ := h.own v hv hmem howner
      exact ⟨w, hw, hmove, hedge⟩
  traps := by
    intro v hv howner w hw
    by_cases hmem : v ∈ target
    · exact h.subset (ht.traps v hmem howner w hw)
    · exact (h.other v hv hmem howner w hw).1
  wins := by
    intro play hplay hstay
    obtain ⟨j, -, hj⟩ := h.reaches hplay (hstay 0)
    exact ht.wins_of_mem hplay hj

/-- If the target is all of the greatest priority, and what is not attracted to it is a dominion of
the player favoured by that priority, then this player wins everything. -/
theorem dominion_of_top {d : Nat} {rest : Set Nat} {all : Set Nat}
    (hd : Player.ofPriority d = p) (h : g.Attracts p target region move rank)
    (hall : ∀ v, v ∈ all ↔ g.contains v = true) (htop : ∀ v ∈ target, g.priorityOf v = d)
    (hmax : ∀ v, g.contains v = true → g.priorityOf v ≤ d)
    (htarget : ∀ v ∈ target, g.owner v = p → ∃ w, move v = some w ∧ w ∈ g.successors v)
    (hof : part.PartOf g) (hpart : ∀ v, part.contains v = true ↔ v ∈ all ∧ v ∉ region)
    (hrest : part.Dominion p rest move) (hsplit : ∀ v ∈ all, v ∉ region → v ∈ rest) :
    g.Dominion p all move where
  active := fun v hv => (hall v).1 hv
  keeps := by
    intro v hv howner
    suffices ∃ w, move v = some w ∧ w ∈ g.successors v by
      obtain ⟨w, hmove, hedge⟩ := this
      exact ⟨w, (hall w).2 (contains_of_mem_successors hedge), hmove, hedge⟩
    by_cases hregion : v ∈ region
    · by_cases ht : v ∈ target
      · exact htarget v ht howner
      · obtain ⟨w, -, hmove, hedge, -⟩ := h.own v hregion ht howner
        exact ⟨w, hmove, hedge⟩
    · obtain ⟨w, -, hmove, hedge⟩ :=
        hrest.keeps v (hsplit v hv hregion) (by rwa [hof.owner])
      have hw := contains_of_mem_successors hedge
      exact ⟨w, hmove, ((hof.mem_successors ((hall w).1 ((hpart w).1 hw).1)).1 hedge).1⟩
  traps := fun v _ _ w hw => (hall w).2 (contains_of_mem_successors hw)
  wins := by
    intro play hplay hstay
    by_cases recurs : ∀ i, ∃ j, i ≤ j ∧ play j ∈ region
    · refine ⟨d, ⟨fun i => ?_, 0, fun j _ => hmax _ ((hall _).1 (hstay j))⟩, hd⟩
      obtain ⟨j, hj, hregion⟩ := recurs i
      obtain ⟨k, hk, ht⟩ := h.reaches hplay hregion
      exact ⟨k, by omega, htop _ ht⟩
    · -- from some place on the play is one of the remaining part
      push Not at recurs
      obtain ⟨k, hk⟩ := recurs
      have hpartStay : ∀ i, part.contains (ParityGames.tail play k i) = true := fun i =>
        (hpart _).2 ⟨hstay (k + i), hk (k + i) (by omega)⟩
      have hwon := hrest.wins _ ((hplay.tail k).inPart hof hpartStay)
        fun i => hsplit _ (hstay (k + i)) (hk (k + i) (by omega))
      exact (hwon.congr hof.priorityOf).of_tail

end Attracts

/-- The union of a dominion with a dominion of a part of the game, if the opponent can leave the
part only into the first. -/
theorem Dominion.union {other : Set Nat} (h : g.Dominion p region move) (hof : part.PartOf g)
    (hactive : ∀ v, part.contains v = true → g.contains v = true)
    (h' : part.Dominion p other move)
    (hexit : ∀ v ∈ other, g.owner v ≠ p → ∀ w ∈ g.successors v,
      part.contains w = true ∨ w ∈ region) :
    g.Dominion p (region ∪ other) move where
  active := by
    intro v hv
    rcases hv with hv | hv
    · exact h.active v hv
    · exact hactive v (h'.active v hv)
  keeps := by
    intro v hv howner
    rcases hv with hv | hv
    · obtain ⟨w, hw, hmove, hedge⟩ := h.keeps v hv howner
      exact ⟨w, Or.inl hw, hmove, hedge⟩
    · obtain ⟨w, hw, hmove, hedge⟩ := h'.keeps v hv (by rwa [hof.owner])
      have hcontains := hactive w (contains_of_mem_successors hedge)
      exact ⟨w, Or.inr hw, hmove, ((hof.mem_successors hcontains).1 hedge).1⟩
  traps := by
    intro v hv howner w hw
    rcases hv with hv | hv
    · exact Or.inl (h.traps v hv howner w hw)
    · rcases hexit v hv howner w hw with hpart | hregion
      · have hcontains := contains_of_mem_successors hw
        refine Or.inr (h'.traps v hv (by rwa [hof.owner]) w ?_)
        exact (hof.mem_successors hcontains).2 ⟨hw, hpart⟩
      · exact Or.inl hregion
  wins := by
    intro play hplay hstay
    by_cases hmeets : ∃ k, play k ∈ region
    · obtain ⟨k, hk⟩ := hmeets
      exact h.wins_of_mem hplay hk
    · push Not at hmeets
      have hother : ∀ i, play i ∈ other := fun i => (hstay i).resolve_left (hmeets i)
      have hwon := h'.wins play (hplay.inPart hof fun i => h'.active _ (hother i)) hother
      exact hwon.congr hof.priorityOf

/-- A dominion of a part that the opponent cannot leave is a dominion of the game. -/
theorem Dominion.of_part (h : part.Dominion p region move) (hof : part.PartOf g)
    (hactive : ∀ v, part.contains v = true → g.contains v = true)
    (hexit : ∀ v ∈ region, g.owner v ≠ p → ∀ w ∈ g.successors v, part.contains w = true) :
    g.Dominion p region move := by
  have hunion := (Dominion.empty g p move).union hof hactive h
    fun v hv howner w hw => Or.inl (hexit v hv howner w hw)
  rwa [Set.empty_union] at hunion

theorem Dominion.to_part (h : g.Dominion p region move) (hof : part.PartOf g)
    (hpart : ∀ v, part.contains v = true ↔ v ∈ region) : part.Dominion p region move := by
  have hedges : ∀ v w, w ∈ part.successors v ↔ w ∈ g.successors v ∧ w ∈ region := by
    intro v w
    constructor
    · intro hw
      have hmem := (hpart w).1 (contains_of_mem_successors hw)
      exact ⟨((hof.mem_successors (h.active w hmem)).1 hw).1, hmem⟩
    · rintro ⟨hw, hmem⟩
      exact (hof.mem_successors (h.active w hmem)).2 ⟨hw, (hpart w).2 hmem⟩
  exact {
    active := fun v hv => (hpart v).2 hv
    keeps := by
      intro v hv howner
      obtain ⟨w, hw, hmove, hedge⟩ := h.keeps v hv (by rwa [← hof.owner])
      exact ⟨w, hw, hmove, (hedges v w).2 ⟨hedge, hw⟩⟩
    traps := fun v _ _ w hw => ((hedges v w).1 hw).2
    wins := by
      intro play hplay hstay
      have hobeys : g.Obeys p move play := by
        intro i
        obtain ⟨hedge, hmove⟩ := hplay i
        exact ⟨((hedges _ _).1 hedge).1, fun howner => hmove (by rwa [hof.owner])⟩
      exact (h.wins play hobeys hstay).congr fun v => (hof.priorityOf v).symm }

end Game

end ParityGames
