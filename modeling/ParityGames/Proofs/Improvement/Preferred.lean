import ParityGames.Proofs.Improvement.Described

/-! # The intended order of preferences

A preference compares the heads of two cycles first. Where these are equal, the most relevant vertex
that is met on one of the two ways only decides, and where there is none, the distances do.
-/

namespace ParityGames

def Distance.SameKind : Distance → Distance → Prop
  | .ignored, .ignored => True
  | .longer _, .longer _ => True
  | .shorter _, .shorter _ => True
  | _, _ => False

instance : Std.LawfulEqCmp Relevance.cmp where
  eq_of_compare := by
    intro a b h
    obtain ⟨hpriority, hvertex⟩ := Ordering.then_eq_eq.1 h
    cases a
    cases b
    simp_all

namespace Improvement

variable {s : Improvement} {u v w x y z : Nat} {a b : List Nat}

def Good (s : Improvement) (x : Nat) : Prop := (s.relevance x).priority % 2 = 0

instance (s : Improvement) (x : Nat) : Decidable (s.Good x) :=
  inferInstanceAs (Decidable (_ = _))

/-- Meeting `x` is better for player even than meeting `y`: a good vertex is better than a bad one,
the more relevant one of two good ones is better, and the less relevant one of two bad ones. -/
def Outdoes (s : Improvement) (x y : Nat) : Prop :=
  (s.Good x ∧ ¬ s.Good y) ∨ (s.Good x ∧ s.Good y ∧ s.MoreRelevant x y) ∨
    (¬ s.Good x ∧ ¬ s.Good y ∧ s.MoreRelevant y x)

/-- The most relevant vertex that exactly one of two lists has. -/
structure Separates (s : Improvement) (a b : List Nat) (x : Nat) : Prop where
  once : ¬ (x ∈ a ↔ x ∈ b)
  most : ∀ y, ¬ (y ∈ a ↔ y ∈ b) → y ≠ x → s.MoreRelevant x y

/-- The distance of `v` is better for player even: shorter to a good head, longer to a bad one. -/
def Nearer (s : Improvement) (v w : Nat) : Prop :=
  if s.Good (s.profile v).head then (s.profile v).distance < (s.profile w).distance
  else (s.profile w).distance < (s.profile v).distance

/-- Moving from `u` to `v` is better for player even than moving to `w`. -/
inductive Prefers (s : Improvement) (u v w : Nat) : Prop
  | head (better : s.Outdoes (s.profile v).head (s.profile w).head)
  | before {x : Nat} (same_head : (s.profile v).head = (s.profile w).head)
      (decides : s.Separates (s.profile v).before (s.profile w).before x)
      (better : x ∈ (s.profile v).before ↔ s.Good x)
  | distance (same_head : (s.profile v).head = (s.profile w).head)
      (same_before : ∀ x, x ∈ (s.profile v).before ↔ x ∈ (s.profile w).before)
      (no_head : (s.profile u).head ≠ u)
      (better : s.Nearer v w)

/-! ## Relevance -/

theorem moreRelevant_irrefl (s : Improvement) (x : Nat) : ¬ s.MoreRelevant x x := by
  have hself : Relevance.cmp (s.relevance x) (s.relevance x) = .eq := Std.ReflCmp.compare_self
  unfold MoreRelevant
  rw [hself]
  decide

theorem MoreRelevant.asymm (h : s.MoreRelevant x y) : ¬ s.MoreRelevant y x := by
  intro h'
  have hlt := Std.OrientedCmp.gt_iff_lt.1 h'
  exact nomatch hlt.symm.trans h

theorem moreRelevant_total (s : Improvement) (x y : Nat) :
    x = y ∨ s.MoreRelevant x y ∨ s.MoreRelevant y x := by
  cases hcmp : Relevance.cmp (s.relevance x) (s.relevance y) with
  | eq => exact Or.inl (congrArg Relevance.vertex (Std.LawfulEqCmp.eq_of_compare hcmp))
  | gt => exact Or.inr (Or.inl hcmp)
  | lt => exact Or.inr (Or.inr (Std.OrientedCmp.gt_iff_lt.2 hcmp))

theorem MoreRelevant.trans (h : s.MoreRelevant x y) (h' : s.MoreRelevant y z) :
    s.MoreRelevant x z :=
  Std.TransCmp.gt_trans h h'

theorem MoreRelevant.all_cons (h : s.MoreRelevant x y) (hb : ∀ z ∈ b, s.MoreRelevant y z) :
    ∀ z ∈ y :: b, s.MoreRelevant x z :=
  List.forall_mem_cons.2 ⟨h, fun z hz => h.trans (hb z hz)⟩

theorem not_mem_of_more (hb : ∀ y ∈ b, s.MoreRelevant x y) : x ∉ b := fun hmem =>
  s.moreRelevant_irrefl x (hb x hmem)

/-! ## Rewards -/

theorem winner_of_good (hx : s.Good x) : (s.relevance x).winner = .even :=
  Player.ofPriority_eq_even_iff.2 hx

theorem winner_of_not_good (hx : ¬ s.Good x) : (s.relevance x).winner = .odd :=
  Player.eq_opponent_of_ne fun heven => hx (Player.ofPriority_eq_even_iff.1 heven)

theorem reward_of_good (hx : s.Good x) : s.reward x = .gain (s.relevance x) := by
  unfold reward Reward.ofRelevance
  rw [winner_of_good hx]

theorem reward_of_not_good (hx : ¬ s.Good x) : s.reward x = .loss (s.relevance x) := by
  unfold reward Reward.ofRelevance
  rw [winner_of_not_good hx]

theorem cmp_reward_self (s : Improvement) (x : Nat) :
    Reward.cmp (s.reward x) (s.reward x) = .eq :=
  Std.ReflCmp.compare_self

theorem cmp_reward_eq_gt_iff :
    Reward.cmp (s.reward x) (s.reward y) = .gt ↔ s.Outdoes x y := by
  unfold Outdoes
  by_cases hx : s.Good x <;> by_cases hy : s.Good y
  · rw [reward_of_good hx, reward_of_good hy]
    simp [hx, hy, Reward.cmp, MoreRelevant]
  · rw [reward_of_good hx, reward_of_not_good hy]
    simp [hx, hy, Reward.cmp]
  · rw [reward_of_not_good hx, reward_of_good hy]
    simp [hx, hy, Reward.cmp]
  · rw [reward_of_not_good hx, reward_of_not_good hy]
    simp [hx, hy, Reward.cmp, MoreRelevant]

theorem cmp_reward_eq_lt_iff :
    Reward.cmp (s.reward x) (s.reward y) = .lt ↔ s.Outdoes y x := by
  rw [← cmp_reward_eq_gt_iff]
  exact Std.OrientedCmp.gt_iff_lt.symm

/-- Of two vertices the more relevant one decides. -/
theorem outdoes_of_more (hmore : s.MoreRelevant x y) :
    if s.Good x then s.Outdoes x y else s.Outdoes y x := by
  split
  · rename_i hx
    by_cases hy : s.Good y
    · exact Or.inr (Or.inl ⟨hx, hy, hmore⟩)
    · exact Or.inl ⟨hx, hy⟩
  · rename_i hx
    by_cases hy : s.Good y
    · exact Or.inl ⟨hy, hx⟩
    · exact Or.inr (Or.inr ⟨hy, hx, hmore⟩)

theorem outdoes_total (s : Improvement) (x y : Nat) : x = y ∨ s.Outdoes x y ∨ s.Outdoes y x := by
  rcases s.moreRelevant_total x y with heq | hmore | hmore
  · exact Or.inl heq
  · have hdecides := outdoes_of_more hmore
    split at hdecides
    · exact Or.inr (Or.inl hdecides)
    · exact Or.inr (Or.inr hdecides)
  · have hdecides := outdoes_of_more hmore
    split at hdecides
    · exact Or.inr (Or.inr hdecides)
    · exact Or.inr (Or.inl hdecides)

theorem cmp_reward_eq_eq_iff : Reward.cmp (s.reward x) (s.reward y) = .eq ↔ x = y := by
  refine ⟨fun heq => ?_, fun heq => heq ▸ s.cmp_reward_self x⟩
  rcases s.outdoes_total x y with hxy | hxy | hxy
  · exact hxy
  · exact nomatch heq.symm.trans (cmp_reward_eq_gt_iff.2 hxy)
  · exact nomatch heq.symm.trans (cmp_reward_eq_lt_iff.2 hxy)

def rewards (s : Improvement) (a : List Nat) : List Reward := a.map s.reward ++ [.neutral]

theorem compareLex_rewards_cons (s : Improvement) (x y : Nat) (a b : List Nat) :
    List.compareLex Reward.cmp (s.rewards (x :: a)) (s.rewards (y :: b)) =
      (Reward.cmp (s.reward x) (s.reward y)).then
        (List.compareLex Reward.cmp (s.rewards a) (s.rewards b)) := by
  unfold rewards
  rw [List.map_cons, List.map_cons, List.cons_append, List.cons_append,
    List.compareLex_cons_cons]

/-- A vertex that is met decides against whatever less relevant vertices the other way meets. -/
theorem compareLex_rewards_first (a : List Nat) (hb : ∀ y ∈ b, s.MoreRelevant x y) :
    List.compareLex Reward.cmp (s.rewards (x :: a)) (s.rewards b) =
      if s.Good x then .gt else .lt := by
  cases b with
  | nil =>
      unfold rewards
      rw [List.map_cons, List.map_nil, List.nil_append, List.cons_append,
        List.compareLex_cons_cons]
      split
      · rename_i hgood
        rw [reward_of_good hgood]
        rfl
      · rename_i hbad
        rw [reward_of_not_good hbad]
        rfl
  | cons y rest =>
      have hdecides := outdoes_of_more (hb y List.mem_cons_self)
      rw [compareLex_rewards_cons]
      by_cases hgood : s.Good x
      · rw [if_pos hgood] at hdecides ⊢
        rw [cmp_reward_eq_gt_iff.2 hdecides]
        rfl
      · rw [if_neg hgood] at hdecides ⊢
        rw [cmp_reward_eq_lt_iff.2 hdecides]
        rfl

/-! ## The most relevant difference -/

namespace Separates

theorem symm (h : s.Separates a b x) : s.Separates b a x where
  once := fun hsame => h.once hsame.symm
  most := fun y hy hne => h.most y (fun hsame => hy hsame.symm) hne

theorem unique (h : s.Separates a b x) (h' : s.Separates a b y) : x = y := by
  by_contra hne
  exact (h.most y h'.once fun heq => hne heq.symm).asymm (h'.most x h.once hne)

theorem cons (h : s.Separates a b x) (hy : y ∉ a) (hy' : y ∉ b) :
    s.Separates (y :: a) (y :: b) x := by
  have hiff : ∀ z, (z ∈ y :: a ↔ z ∈ y :: b) ↔ (z ∈ a ↔ z ∈ b) := by
    intro z
    by_cases hz : z = y
    · simp [hz, hy, hy']
    · simp [hz]
  refine ⟨?_, fun z => ?_⟩
  · rw [hiff]
    exact h.once
  · rw [hiff]
    exact h.most z

theorem of_first (ha : ∀ y ∈ a, s.MoreRelevant x y) (hb : ∀ y ∈ b, s.MoreRelevant x y) :
    s.Separates (x :: a) b x where
  once := fun hsame => not_mem_of_more hb (hsame.1 List.mem_cons_self)
  most := by
    intro y hy hne
    by_cases hyb : y ∈ b
    · exact hb y hyb
    · refine ha y ?_
      by_contra hya
      exact hy ⟨fun hmem => absurd (List.mem_of_ne_of_mem hne hmem) hya,
        fun hmem => absurd hmem hyb⟩

end Separates

/-- The vertex that separates two lists decides how their rewards compare: the list that has it is
the better one if it is good. -/
structure Decides (s : Improvement) (a b : List Nat) (x : Nat) : Prop where
  separates : s.Separates a b x
  compares : List.compareLex Reward.cmp (s.rewards a) (s.rewards b) =
    if x ∈ a ↔ s.Good x then .gt else .lt

namespace Decides

theorem symm (h : s.Decides a b x) : s.Decides b a x where
  separates := h.separates.symm
  compares := by
    have hswap := @Std.OrientedCmp.eq_swap _ (List.compareLex Reward.cmp) _ (s.rewards b)
      (s.rewards a)
    have honce := h.separates.once
    rw [hswap, h.compares]
    by_cases hgood : s.Good x <;> by_cases hxa : x ∈ a <;> by_cases hxb : x ∈ b <;> simp_all

theorem of_first (ha : ∀ y ∈ a, s.MoreRelevant x y) (hb : ∀ y ∈ b, s.MoreRelevant x y) :
    s.Decides (x :: a) b x where
  separates := .of_first ha hb
  compares := by
    rw [compareLex_rewards_first a hb]
    simp

theorem cons (h : s.Decides a b x) (hy : y ∉ a) (hy' : y ∉ b) :
    s.Decides (y :: a) (y :: b) x where
  separates := h.separates.cons hy hy'
  compares := by
    have hne : x ≠ y := by
      rintro rfl
      exact h.separates.once (by simp [hy, hy'])
    rw [compareLex_rewards_cons, cmp_reward_self, Ordering.eq_then, h.compares]
    simp [hne]

end Decides

/-- Two lists, the most relevant vertices first, are equal or separated. -/
theorem eq_or_decides (ha : a.Pairwise s.MoreRelevant) (hb : b.Pairwise s.MoreRelevant) :
    a = b ∨ ∃ x, s.Decides a b x := by
  induction a generalizing b with
  | nil =>
      cases b with
      | nil => exact Or.inl rfl
      | cons y b =>
          exact Or.inr ⟨y, (Decides.of_first (List.pairwise_cons.1 hb).1 (by simp)).symm⟩
  | cons x a ih =>
      obtain ⟨hxa, ha'⟩ := List.pairwise_cons.1 ha
      cases b with
      | nil => exact Or.inr ⟨x, .of_first hxa (by simp)⟩
      | cons y b =>
          obtain ⟨hyb, hb'⟩ := List.pairwise_cons.1 hb
          rcases s.moreRelevant_total x y with rfl | hxy | hyx
          · rcases ih ha' hb' with rfl | ⟨z, hz⟩
            · exact Or.inl rfl
            · exact Or.inr ⟨z, hz.cons (not_mem_of_more hxa) (not_mem_of_more hyb)⟩
          · exact Or.inr ⟨x, .of_first hxa (hxy.all_cons hyb)⟩
          · exact Or.inr ⟨y, (Decides.of_first hyb (hyx.all_cons hxa)).symm⟩

theorem Decides.of_separates (h : s.Separates a b x) (ha : a.Pairwise s.MoreRelevant)
    (hb : b.Pairwise s.MoreRelevant) : s.Decides a b x := by
  rcases eq_or_decides ha hb with rfl | ⟨y, hy⟩
  · exact absurd Iff.rfl h.once
  · exact h.unique hy.separates ▸ hy

/-! ## Distances -/

theorem distance_at_head (hu : (s.profile u).head = u) (v : Nat) :
    (s.preference u v).distance = .ignored :=
  if_pos hu

theorem distance_off_head (hu : (s.profile u).head ≠ u) (v : Nat) :
    (s.preference u v).distance =
      if s.Good (s.profile v).head then .shorter (s.profile v).distance
      else .longer (s.profile v).distance := by
  refine (if_neg hu).trans ?_
  by_cases hgood : s.Good (s.profile v).head
  · have hwinner : s.winner v = .even := winner_of_good hgood
    rw [if_pos hgood, hwinner]
  · have hwinner : s.winner v = .odd := winner_of_not_good hgood
    rw [if_neg hgood, hwinner]

theorem sameKind_distance (hhead : (s.profile v).head = (s.profile w).head) :
    (s.preference u v).distance.SameKind (s.preference u w).distance := by
  by_cases hu : (s.profile u).head = u
  · rw [distance_at_head hu, distance_at_head hu]
    trivial
  · rw [distance_off_head hu, distance_off_head hu, hhead]
    split <;> trivial

theorem cmp_distance_eq_gt_iff (hhead : (s.profile v).head = (s.profile w).head) :
    Distance.cmp (s.preference u v).distance (s.preference u w).distance = .gt ↔
      (s.profile u).head ≠ u ∧ s.Nearer v w := by
  unfold Nearer
  by_cases hu : (s.profile u).head = u
  · rw [distance_at_head hu, distance_at_head hu]
    simp [hu, Distance.cmp]
  · rw [distance_off_head hu, distance_off_head hu, hhead]
    split <;> simp [hu, Distance.cmp, Nat.compare_eq_gt]

/-! ## Preferences -/

theorem cmp_preference_of_head_ne (hhead : (s.profile v).head ≠ (s.profile w).head) :
    Preference.cmp (s.preference u v) (s.preference u w) =
      Reward.cmp (s.reward (s.profile v).head) (s.reward (s.profile w).head) := by
  have hne : Reward.cmp (s.reward (s.profile v).head) (s.reward (s.profile w).head) ≠ .eq :=
    fun heq => hhead (cmp_reward_eq_eq_iff.1 heq)
  show ((Reward.cmp (s.reward (s.profile v).head) (s.reward (s.profile w).head)).then _).then _ = _
  revert hne
  cases Reward.cmp (s.reward (s.profile v).head) (s.reward (s.profile w).head) <;> simp

theorem cmp_preference_of_head_eq (hhead : (s.profile v).head = (s.profile w).head) :
    Preference.cmp (s.preference u v) (s.preference u w) =
      (List.compareLex Reward.cmp (s.rewards (s.profile v).before)
        (s.rewards (s.profile w).before)).then
      (Distance.cmp (s.preference u v).distance (s.preference u w).distance) := by
  have heq : Reward.cmp (s.preference u v).head (s.preference u w).head = .eq :=
    cmp_reward_eq_eq_iff.2 hhead
  unfold Preference.cmp
  rw [heq, Ordering.eq_then]
  rfl

theorem cmp_preference_of_same (hhead : (s.profile v).head = (s.profile w).head)
    (hsame : ∀ x, x ∈ (s.profile v).before ↔ x ∈ (s.profile w).before)
    (hv : (s.profile v).before.Pairwise s.MoreRelevant)
    (hw : (s.profile w).before.Pairwise s.MoreRelevant) :
    Preference.cmp (s.preference u v) (s.preference u w) =
      Distance.cmp (s.preference u v).distance (s.preference u w).distance := by
  have hself : List.compareLex Reward.cmp (s.rewards (s.profile w).before)
      (s.rewards (s.profile w).before) = .eq := Std.ReflCmp.compare_self
  rcases eq_or_decides hv hw with heq | ⟨x, hx⟩
  · rw [cmp_preference_of_head_eq hhead, heq, hself, Ordering.eq_then]
  · exact absurd (hsame x) hx.separates.once

theorem Prefers.cmp_eq_gt (h : s.Prefers u v w) (hv : (s.profile v).before.Pairwise s.MoreRelevant)
    (hw : (s.profile w).before.Pairwise s.MoreRelevant) :
    Preference.cmp (s.preference u v) (s.preference u w) = .gt := by
  cases h with
  | head better =>
      have hgt := cmp_reward_eq_gt_iff.2 better
      rw [cmp_preference_of_head_ne fun heq => ?_, hgt]
      rw [heq, cmp_reward_self] at hgt
      cases hgt
  | before same_head decides better =>
      rw [cmp_preference_of_head_eq same_head, (Decides.of_separates decides hv hw).compares,
        if_pos better]
      rfl
  | distance same_head same_before no_head better =>
      rw [cmp_preference_of_same same_head same_before hv hw, cmp_distance_eq_gt_iff same_head]
      exact ⟨no_head, better⟩

/-- Neither of two moves is better: they lead to one head, through the same vertices, and as far
unless the mover is the head of its own cycle. -/
structure Matches (s : Improvement) (u v w : Nat) : Prop where
  head : (s.profile v).head = (s.profile w).head
  before : ∀ x, x ∈ (s.profile v).before ↔ x ∈ (s.profile w).before
  distance : (s.profile u).head = u ∨ (s.profile v).distance = (s.profile w).distance

theorem Matches.cmp_eq_eq (h : s.Matches u v w)
    (hv : (s.profile v).before.Pairwise s.MoreRelevant)
    (hw : (s.profile w).before.Pairwise s.MoreRelevant) :
    Preference.cmp (s.preference u v) (s.preference u w) = .eq := by
  have hdistance : Distance.cmp (s.preference u v).distance (s.preference u w).distance = .eq := by
    rcases h.distance with hu | hd
    · rw [distance_at_head hu, distance_at_head hu]
      rfl
    · have heq : (s.preference u v).distance = (s.preference u w).distance := by
        unfold preference winner
        rw [h.head, hd]
      rw [heq]
      exact Std.ReflCmp.compare_self
  rw [cmp_preference_of_same h.head h.before hv hw, hdistance]

theorem nearer_or_eq (hhead : (s.profile v).head = (s.profile w).head) :
    s.Nearer v w ∨ s.Nearer w v ∨ (s.profile v).distance = (s.profile w).distance := by
  unfold Nearer
  rw [hhead]
  split <;> omega

/-- The vertex that separates two ways makes one of them the better one. -/
theorem Separates.prefers (h : s.Separates (s.profile v).before (s.profile w).before x)
    (hhead : (s.profile v).head = (s.profile w).head) :
    s.Prefers u v w ∨ s.Prefers u w v := by
  by_cases hbetter : x ∈ (s.profile v).before ↔ s.Good x
  · exact Or.inl (.before hhead h hbetter)
  · have honce := h.once
    exact Or.inr (.before hhead.symm h.symm (by tauto))

theorem prefers_or_matches (u : Nat) (hv : (s.profile v).before.Pairwise s.MoreRelevant)
    (hw : (s.profile w).before.Pairwise s.MoreRelevant) :
    s.Prefers u v w ∨ s.Prefers u w v ∨ s.Matches u v w := by
  rcases s.outdoes_total (s.profile v).head (s.profile w).head with hhead | hbetter | hbetter
  · rcases eq_or_decides hv hw with heq | ⟨x, hx⟩
    · have hsame : ∀ x, x ∈ (s.profile v).before ↔ x ∈ (s.profile w).before := by simp [heq]
      by_cases hu : (s.profile u).head = u
      · exact Or.inr (Or.inr ⟨hhead, hsame, Or.inl hu⟩)
      · rcases nearer_or_eq hhead with hd | hd | hd
        · exact Or.inl (.distance hhead hsame hu hd)
        · exact Or.inr (Or.inl (.distance hhead.symm (fun x => (hsame x).symm) hu hd))
        · exact Or.inr (Or.inr ⟨hhead, hsame, Or.inr hd⟩)
    · exact (hx.separates.prefers hhead).imp_right Or.inl
  · exact Or.inl (.head hbetter)
  · exact Or.inr (Or.inl (.head hbetter))

/-- Preferences compare as intended wherever the vertices met before a head are listed by falling
relevance. They are totally preordered, and only distances of one kind come to be compared. -/
theorem preference_order (s : Improvement) (u : Nat) :
    (∀ v w, (s.profile v).before.Pairwise s.MoreRelevant →
      (s.profile w).before.Pairwise s.MoreRelevant →
      (Preference.cmp (s.preference u v) (s.preference u w) = .gt ↔ s.Prefers u v w) ∧
      (Preference.cmp (s.preference u v) (s.preference u w) = .lt ↔ s.Prefers u w v) ∧
      (Preference.cmp (s.preference u v) (s.preference u w) = .eq ↔ s.Matches u v w)) ∧
    (∀ v w, (Preference.cmp (s.preference u v) (s.preference u w)).isLE ∨
      (Preference.cmp (s.preference u w) (s.preference u v)).isLE) ∧
    (∀ v w x, (Preference.cmp (s.preference u v) (s.preference u w)).isLE →
      (Preference.cmp (s.preference u w) (s.preference u x)).isLE →
      (Preference.cmp (s.preference u v) (s.preference u x)).isLE) ∧
    ∀ v w, Reward.cmp (s.preference u v).head (s.preference u w).head = .eq →
      (s.preference u v).distance.SameKind (s.preference u w).distance := by
  refine ⟨fun v w hv hw => ?_, fun v w => ?_, fun v w x => Std.TransCmp.isLE_trans, fun v w heq =>
    sameKind_distance (cmp_reward_eq_eq_iff.1 heq)⟩
  · -- one of three cases holds and forces its own answer
    have hgt : s.Prefers u v w → Preference.cmp (s.preference u v) (s.preference u w) = .gt :=
      fun h => h.cmp_eq_gt hv hw
    have hlt : s.Prefers u w v → Preference.cmp (s.preference u v) (s.preference u w) = .lt :=
      fun h => Std.OrientedCmp.gt_iff_lt.1 (h.cmp_eq_gt hw hv)
    have heq : s.Matches u v w → Preference.cmp (s.preference u v) (s.preference u w) = .eq :=
      fun h => h.cmp_eq_eq hv hw
    rcases prefers_or_matches u hv hw with h | h | h
    · have hcmp := hgt h
      grind
    · have hcmp := hlt h
      grind
    · have hcmp := heq h
      grind
  · have hswap : Preference.cmp (s.preference u v) (s.preference u w) =
        (Preference.cmp (s.preference u w) (s.preference u v)).swap := Std.OrientedCmp.eq_swap
    rw [hswap]
    cases Preference.cmp (s.preference u w) (s.preference u v) <;> simp

/-- Two ways from vertex `3` lead to the good head `0`: the one through `4` meets the good vertex
`1`, and the one through `5` the bad vertex `2` besides. -/
def crossroads (g : Game) : Improvement where
  game := g
  priorities := .ofList [2, 4, 5, 1, 1, 1]
  moves := .ofList [0, 0, 1, 4, 1, 2]
  profiles := .ofList [⟨0, [], 0⟩, ⟨0, [1], 1⟩, ⟨0, [2, 1], 2⟩, ⟨0, [1], 3⟩, ⟨0, [1], 2⟩,
    ⟨0, [2, 1], 3⟩]

theorem preference_order_crossroads : ∃ g, duel.build = .ok g ∧
    ((crossroads g).profile 4).before.Pairwise (crossroads g).MoreRelevant ∧
    ((crossroads g).profile 5).before.Pairwise (crossroads g).MoreRelevant ∧
    (crossroads g).Prefers 3 4 5 := by
  obtain ⟨g, hmade, -, -⟩ := duel_total
  have hshort : ((crossroads g).profile 4).before.Pairwise (crossroads g).MoreRelevant :=
    List.pairwise_singleton _ _
  have hlong : ((crossroads g).profile 5).before.Pairwise (crossroads g).MoreRelevant :=
    List.pairwise_pair.2 rfl
  exact ⟨g, hmade, hshort, hlong, ((preference_order _ 3).1 4 5 hshort hlong).1.1 (by cbv)⟩

end Improvement

end ParityGames
