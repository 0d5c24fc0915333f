import ParityGames.Improvement.State
import ParityGames.Proofs.Data.Choosing
import ParityGames.Proofs.Game.Views
import ParityGames.Proofs.Play.Loop
import Mathlib.Algebra.Ring.Nat
import Mathlib.Order.Monotone.Basic
import Mathlib.Tactic.SplitIfs

/-! # Ranks, worths and standings

The orders of strategy improvement as orders of numbers. The rank of a vertex says how relevant it
is, its worth how good it is for player even. The vertices that a play meets before the head are
written as a number in binary, the greatest rank first, with a one for every good vertex that is
met and for every bad one that is not: the greater this standing, the better the play.
-/

namespace ParityGames

namespace Game

variable {g : Game} {u v : Nat}

def rank (g : Game) (v : Nat) : Nat := v + g.vertexCount * g.priorityOf v

/-- Positive if the vertex is good for player even. -/
def worth (g : Game) (v : Nat) : Int :=
  if Player.ofPriority (g.priorityOf v) = .even then (g.rank v : Int) + 1 else -(g.rank v : Int) - 1

theorem rank_inj (hu : u < g.vertexCount) (hv : v < g.vertexCount) (h : g.rank u = g.rank v) :
    u = v := by
  have hmod : ∀ {w}, w < g.vertexCount → g.rank w % g.vertexCount = w := by
    intro w hw
    unfold rank
    rw [Nat.add_mul_mod_self_left, Nat.mod_eq_of_lt hw]
  rw [← hmod hu, h, hmod hv]

theorem priorityOf_le_of_rank_le (hv : v < g.vertexCount) (h : g.rank u ≤ g.rank v) :
    g.priorityOf u ≤ g.priorityOf v := by
  unfold rank at h
  by_contra hlt
  have hle := Nat.mul_le_mul_left g.vertexCount (Nat.succ_le_of_lt (Nat.lt_of_not_le hlt))
  rw [Nat.mul_succ] at hle
  omega

theorem worth_pos_iff : 0 < g.worth v ↔ Player.ofPriority (g.priorityOf v) = .even := by
  unfold worth
  split_ifs with hv
  · exact ⟨fun _ => hv, fun _ => by omega⟩
  · exact ⟨fun hpos => by omega, fun heven => absurd heven hv⟩

theorem worth_neg_iff : g.worth v < 0 ↔ Player.ofPriority (g.priorityOf v) = .odd := by
  unfold worth
  cases Player.ofPriority (g.priorityOf v) with
  | even =>
      rw [if_pos rfl]
      exact ⟨fun hneg => by omega, fun hodd => nomatch hodd⟩
  | odd =>
      rw [if_neg (by decide)]
      exact ⟨fun _ => rfl, fun _ => by omega⟩

theorem worth_inj (hu : u < g.vertexCount) (hv : v < g.vertexCount) (h : g.worth u = g.worth v) :
    u = v := by
  apply rank_inj hu hv
  unfold worth at h
  split_ifs at h <;> omega

/-- A vertex of greater rank decides between good and bad. -/
theorem worth_lt_of_rank_lt (h : g.rank u < g.rank v) :
    if Player.ofPriority (g.priorityOf v) = .even then g.worth u < g.worth v
    else g.worth v < g.worth u := by
  unfold worth
  split_ifs <;> omega

theorem exists_rank_le (hg : g.Coherent) :
    ∃ bound, ∀ v, g.contains v = true → g.rank v ≤ bound := by
  cases hmax : g.maxPriority? with
  | none =>
      refine ⟨0, fun v hv => ?_⟩
      rw [hg.maxPriority_none hmax v] at hv
      cases hv
  | some d =>
      refine ⟨g.vertexCount + g.vertexCount * d, fun v hv => ?_⟩
      have hlt := hg.contains_lt hv
      have hle := Nat.mul_le_mul_left g.vertexCount ((hg.maxPriority_some hmax).2 v hv)
      unfold rank
      omega

/-- The vertex of greatest rank among those that a play meets infinitely often. -/
theorem exists_top (hg : g.Coherent) {play : Nat → Nat}
    (hactive : ∀ i, g.contains (play i) = true) :
    ∃ top k, (∀ i, k ≤ i → g.rank (play i) ≤ g.rank top) ∧ ∀ i, ∃ j, i ≤ j ∧ play j = top := by
  obtain ⟨bound, hbound⟩ := exists_rank_le hg
  obtain ⟨d, hoften, k, hle⟩ := exists_limit fun i => hbound (play i) (hactive i)
  obtain ⟨j, hj, hd⟩ := hoften k
  refine ⟨play j, k, fun i hi => hd ▸ hle i hi, fun i => ?_⟩
  obtain ⟨l, hl, hd'⟩ := hoften i
  refine ⟨l, hl, ?_⟩
  exact rank_inj (hg.contains_lt (hactive l)) (hg.contains_lt (hactive j)) (hd'.trans hd.symm)

/-- Vertices among which every one leads on have a closed walk below its start. -/
theorem exists_closed_walk (hg : g.Coherent) {P : Nat → Prop} {R : Nat → Nat → Prop}
    (hactive : ∀ w, P w → g.contains w = true) (hnext : ∀ u, P u → ∃ w, R u w ∧ P w)
    (hv : P v) : ∃ top, P top ∧
      Relation.TransGen (fun a b => (R a b ∧ P a) ∧ g.rank a ≤ g.rank top) top top := by
  have hstep : ∀ u, ∃ w, P u → R u w ∧ P w := by
    intro u
    by_cases hu : P u
    · obtain ⟨w, hw⟩ := hnext u hu
      exact ⟨w, fun _ => hw⟩
    · exact ⟨u, fun hu' => absurd hu' hu⟩
  choose next hstep using hstep
  have hwalk : ∀ i, P (next^[i] v) := by
    intro i
    induction i with
    | zero => exact hv
    | succ i ih =>
        rw [Function.iterate_succ_apply']
        exact (hstep _ ih).2
  obtain ⟨top, k, hle, hoften⟩ := exists_top hg fun i => hactive _ (hwalk i)
  obtain ⟨j, -, hj⟩ := hoften 0
  refine ⟨top, hj ▸ hwalk j, transGen_of_often (k := k) (fun i hi => ?_) hoften⟩
  rw [Function.iterate_succ_apply']
  exact ⟨⟨(hstep _ (hwalk i)).1, hwalk i⟩, hle i hi⟩

theorem wonBy_of_top_rank (hg : g.Coherent) {play : Nat → Nat} {top k : Nat}
    (htop : g.contains top = true) (hle : ∀ i, k ≤ i → g.rank (play i) ≤ g.rank top)
    (hoften : ∀ i, ∃ j, i ≤ j ∧ play j = top) :
    g.WonBy (Player.ofPriority (g.priorityOf top)) play := by
  refine ⟨g.priorityOf top, ⟨fun i => ?_, k, fun j hj => ?_⟩, rfl⟩
  · obtain ⟨j, hj, hjt⟩ := hoften i
    exact ⟨j, hj, by rw [hjt]⟩
  · exact priorityOf_le_of_rank_le (hg.contains_lt htop) (hle j hj)

/-- Vertices that never become worse, or never better, become the same in the end. -/
theorem exists_settled (hg : g.Coherent) {f : Nat → Nat} (hactive : ∀ i, g.contains (f i) = true)
    (hsteps : (∀ i, g.worth (f i) ≤ g.worth (f (i + 1))) ∨
      ∀ i, g.worth (f (i + 1)) ≤ g.worth (f i)) :
    ∃ last k, ∀ i, k ≤ i → f i = last := by
  obtain ⟨last, -, -, hoften⟩ := exists_top hg hactive
  obtain ⟨k, -, hk⟩ := hoften 0
  refine ⟨last, k, fun i hi => ?_⟩
  obtain ⟨j, hj, hjl⟩ := hoften i
  rw [← hk]
  apply worth_inj (hg.contains_lt (hactive i)) (hg.contains_lt (hactive k))
  rcases hsteps with hrises | hfalls
  · have hmono := Nat.rel_of_forall_rel_succ_of_le (fun a b : Int => a ≤ b) hrises
    have hfirst := hmono hi
    have hsecond := hmono hj
    rw [hjl, ← hk] at hsecond
    exact Int.le_antisymm hsecond hfirst
  · have hanti := Nat.rel_of_forall_rel_succ_of_le (fun a b : Int => b ≤ a) hfalls
    have hfirst := hanti hi
    have hsecond := hanti hj
    rw [hjl, ← hk] at hsecond
    exact Int.le_antisymm hfirst hsecond

/-- Whether it is good for player even that the vertex is met, or that it is not. -/
def digit (g : Game) (x : Nat) (met : Bool) : Nat :=
  if met = decide (Player.ofPriority (g.priorityOf x) = .even) then 1 else 0

def standing (g : Game) : List Nat → (Nat → Bool) → Nat
  | [], _ => 0
  | x :: rest, met => g.standing rest met + 2 ^ rest.length * g.digit x (met x)

variable {met other : Nat → Bool}

theorem digit_le_one (g : Game) (x : Nat) (met : Bool) : g.digit x met ≤ 1 := by
  unfold digit
  split_ifs <;> omega

theorem standing_lt (g : Game) (above : List Nat) (met : Nat → Bool) :
    g.standing above met < 2 ^ above.length := by
  induction above with
  | nil => exact Nat.one_pos
  | cons x rest ih =>
      have hdigit := Nat.mul_le_mul_left (2 ^ rest.length) (g.digit_le_one x (met x))
      unfold standing
      rw [List.length_cons, Nat.pow_succ]
      omega

theorem standing_append (g : Game) (above below : List Nat) (met : Nat → Bool) :
    g.standing (above ++ below) met =
      g.standing below met + 2 ^ below.length * g.standing above met := by
  induction above with
  | nil => simp [standing]
  | cons x rest ih =>
      rw [List.cons_append, standing, standing, ih, List.length_append, Nat.pow_add, Nat.mul_add]
      rw [Nat.mul_comm (2 ^ rest.length), Nat.mul_assoc, Nat.add_assoc]

theorem standing_congr {above : List Nat} (h : ∀ x ∈ above, met x = other x) :
    g.standing above met = g.standing above other := by
  induction above with
  | nil => rfl
  | cons x rest ih =>
      unfold standing
      rw [ih fun y hy => h y (List.mem_cons_of_mem x hy), h x List.mem_cons_self]

/-- What is better is not worse if only the vertices of greater rank are looked at. -/
theorem standing_le_of_append_le {above below : List Nat}
    (h : g.standing (above ++ below) met ≤ g.standing (above ++ below) other) :
    g.standing above met ≤ g.standing above other := by
  rw [standing_append, standing_append] at h
  by_contra hlt
  have hle := Nat.mul_le_mul_left (2 ^ below.length) (Nat.succ_le_of_lt (Nat.lt_of_not_le hlt))
  have hbound := g.standing_lt below other
  rw [Nat.mul_succ] at hle
  omega

end Game

namespace Improvement

/-- A state of the game in which player even keeps to a choice of moves. -/
structure Keeps (s : Improvement) (g : Game) (choice : Nat → Nat) : Prop where
  coherent : g.Coherent
  chosen : ∀ v, g.contains v = true → g.owner v = .even → choice v ∈ g.successors v
  game : s.game = g
  priorities : ∀ v, g.contains v = true → s.priorities.getD v 0 = g.priorityOf v
  length_moves : s.moves.length = g.vertexCount
  length_profiles : s.profiles.length = g.vertexCount
  move : ∀ v, g.contains v = true → g.owner v = .even → s.move v = choice v

variable {s : Improvement} {g : Game} {choice : Nat → Nat} {u v : Nat}

namespace Keeps

theorem winner_relevance (h : s.Keeps g choice) (hv : g.contains v = true) :
    (s.relevance v).winner = Player.ofPriority (g.priorityOf v) := by
  unfold relevance Relevance.winner
  rw [h.priorities v hv]

theorem cmp_relevance (h : s.Keeps g choice) (hu : g.contains u = true)
    (hv : g.contains v = true) :
    Relevance.cmp (s.relevance u) (s.relevance v) = compare (g.rank u) (g.rank v) := by
  unfold relevance Relevance.cmp
  rw [h.priorities u hu, h.priorities v hv,
    compare_digits (h.coherent.contains_lt hu) (h.coherent.contains_lt hv)]
  rfl

theorem cmp_relevance_ne_gt (h : s.Keeps g choice) (hu : g.contains u = true)
    (hv : g.contains v = true) :
    Relevance.cmp (s.relevance u) (s.relevance v) ≠ .gt ↔ g.rank u ≤ g.rank v := by
  rw [h.cmp_relevance hu hv, Nat.compare_ne_gt]

theorem cmp_reward (h : s.Keeps g choice) (hu : g.contains u = true)
    (hv : g.contains v = true) :
    Reward.cmp (s.reward u) (s.reward v) = compare (g.worth u) (g.worth v) := by
  have hwinner : ∀ {w}, g.contains w = true →
      s.reward w = if Player.ofPriority (g.priorityOf w) = .even then .gain (s.relevance w)
        else .loss (s.relevance w) := by
    intro w hw
    unfold reward Reward.ofRelevance
    rw [h.winner_relevance hw]
    cases Player.ofPriority (g.priorityOf w) <;> rfl
  have hcmp := h.cmp_relevance hu hv
  have hcmp' := h.cmp_relevance hv hu
  rw [hwinner hu, hwinner hv]
  unfold Game.worth
  split_ifs
  · rw [Reward.cmp, hcmp, Int.compare_eq_ite_lt, Nat.compare_eq_ite_lt]
    split_ifs <;> first | rfl | omega
  · exact (Int.compare_eq_gt.2 (by omega)).symm
  · exact (Int.compare_eq_lt.2 (by omega)).symm
  · rw [Reward.cmp, hcmp', Int.compare_eq_ite_lt, Nat.compare_eq_ite_lt]
    split_ifs <;> first | rfl | omega

/-- A vertex that is met decides against whatever less relevant vertices follow. -/
theorem cmp_reward_first (h : s.Keeps g choice) {x : Nat} {rest : List Nat}
    (hx : g.contains x = true) (hrest : ∀ y ∈ rest, g.contains y = true ∧ g.rank y < g.rank x) :
    ∃ first more, rest.map s.reward ++ [.neutral] = first :: more ∧
      Reward.cmp (s.reward x) first =
        (if Player.ofPriority (g.priorityOf x) = .even then .gt else .lt) ∧
      Reward.cmp first (s.reward x) =
        (if Player.ofPriority (g.priorityOf x) = .even then .lt else .gt) := by
  cases rest with
  | nil =>
      refine ⟨.neutral, [], rfl, ?_, ?_⟩
      · unfold reward Reward.ofRelevance
        rw [h.winner_relevance hx]
        cases Player.ofPriority (g.priorityOf x) <;> rfl
      · unfold reward Reward.ofRelevance
        rw [h.winner_relevance hx]
        cases Player.ofPriority (g.priorityOf x) <;> rfl
  | cons y rest =>
      obtain ⟨hy, hlt⟩ := hrest y List.mem_cons_self
      have hworth := Game.worth_lt_of_rank_lt hlt
      refine ⟨s.reward y, rest.map s.reward ++ [.neutral], rfl, ?_, ?_⟩
      · rw [h.cmp_reward hx hy]
        split_ifs at hworth ⊢
        · exact Int.compare_eq_gt.2 hworth
        · exact Int.compare_eq_lt.2 hworth
      · rw [h.cmp_reward hy hx]
        split_ifs at hworth ⊢
        · exact Int.compare_eq_lt.2 hworth
        · exact Int.compare_eq_gt.2 hworth

theorem compareLex_rewards (h : s.Keeps g choice) {above : List Nat}
    (hactive : ∀ x ∈ above, g.contains x = true)
    (hsorted : above.Pairwise fun x y => g.rank y < g.rank x) (met other : Nat → Bool) :
    List.compareLex Reward.cmp ((above.filter met).map s.reward ++ [.neutral])
        ((above.filter other).map s.reward ++ [.neutral]) =
      compare (g.standing above met) (g.standing above other) := by
  induction above with
  | nil => rfl
  | cons x rest ih =>
      obtain ⟨hbelow, hsorted⟩ := List.pairwise_cons.1 hsorted
      have hx := hactive x List.mem_cons_self
      have hin : ∀ y ∈ rest, g.contains y = true := fun y hy =>
        hactive y (List.mem_cons_of_mem x hy)
      have hfilter : ∀ (met : Nat → Bool), ∀ y ∈ rest.filter met,
          g.contains y = true ∧ g.rank y < g.rank x := by
        intro met y hy
        have hy := (List.mem_filter.1 hy).1
        exact ⟨hin y hy, hbelow y hy⟩
      have hself : Reward.cmp (s.reward x) (s.reward x) = .eq := by
        rw [h.cmp_reward hx hx, Int.compare_eq_eq]
      unfold Game.standing
      rw [← compare_digits (g.standing_lt rest met) (g.standing_lt rest other), ← ih hin hsorted]
      cases hmet : met x with
      | false =>
          cases hother : other x with
          | false =>
              rw [List.filter_cons_of_neg (by simp [hmet]),
                List.filter_cons_of_neg (by simp [hother]), Nat.compare_eq_eq.2 rfl]
              rfl
          | true =>
              obtain ⟨first, more, hfirst, -, hcmp⟩ :=
                h.cmp_reward_first hx (hfilter met)
              rw [List.filter_cons_of_neg (by simp [hmet]), List.filter_cons_of_pos hother, hfirst,
                List.map_cons, List.cons_append, List.compareLex_cons_cons, hcmp]
              unfold Game.digit
              cases Player.ofPriority (g.priorityOf x) <;> rfl
      | true =>
          cases hother : other x with
          | false =>
              obtain ⟨first, more, hfirst, hcmp, -⟩ :=
                h.cmp_reward_first hx (hfilter other)
              rw [List.filter_cons_of_pos hmet, List.filter_cons_of_neg (by simp [hother]), hfirst,
                List.map_cons, List.cons_append, List.compareLex_cons_cons, hcmp]
              unfold Game.digit
              cases Player.ofPriority (g.priorityOf x) <;> rfl
          | true =>
              rw [List.filter_cons_of_pos hmet, List.filter_cons_of_pos hother, List.map_cons,
                List.map_cons, List.cons_append, List.cons_append, List.compareLex_cons_cons, hself,
                Nat.compare_eq_eq.2 rfl]

end Keeps

end Improvement

/-! ## The order of preferences -/

instance : Std.TransCmp Relevance.cmp :=
  inferInstanceAs (Std.TransCmp
    (compareLex (compareOn Relevance.priority) (compareOn Relevance.vertex)))

instance : Std.TransCmp Reward.cmp where
  eq_swap := by
    intro a b
    cases a <;> cases b <;> first | rfl | exact @Std.OrientedCmp.eq_swap _ Relevance.cmp _ _ _
  isLE_trans := by
    intro a b c hab hbc
    cases a <;> cases b <;> cases c <;>
      first
        | rfl
        | exact absurd hab Bool.false_ne_true
        | exact absurd hbc Bool.false_ne_true
        | exact @Std.TransCmp.isLE_trans _ Relevance.cmp _ _ _ _ hab hbc
        | exact @Std.TransCmp.isLE_trans _ Relevance.cmp _ _ _ _ hbc hab

instance : Std.TransCmp Distance.cmp where
  eq_swap := by
    intro a b
    cases a <;> cases b <;> first | rfl | exact @Std.OrientedCmp.eq_swap Nat compare _ _ _
  isLE_trans := by
    intro a b c hab hbc
    cases a <;> cases b <;> cases c <;>
      first
        | rfl
        | exact absurd hab Bool.false_ne_true
        | exact absurd hbc Bool.false_ne_true
        | exact @Std.TransCmp.isLE_trans Nat compare _ _ _ _ hab hbc
        | exact @Std.TransCmp.isLE_trans Nat compare _ _ _ _ hbc hab

instance : Std.TransCmp Preference.cmp :=
  have _ := @transCmp_on Preference _ Reward.cmp _ Preference.head
  have _ := @transCmp_on Preference _ (List.compareLex Reward.cmp) _ Preference.before
  have _ := @transCmp_on Preference _ Distance.cmp _ Preference.distance
  inferInstanceAs (Std.TransCmp (compareLex (compareLex
    (fun a b : Preference => Reward.cmp a.head b.head)
    (fun a b : Preference => List.compareLex Reward.cmp a.before b.before))
    (fun a b : Preference => Distance.cmp a.distance b.distance)))

end ParityGames
