import ParityGames.Proofs.Play.Loop
import ParityGames.Proofs.Progress.Lifts

/-! # Levels as certificates

Where the levels pay and stay below the top, the player wins with the moves that they pay for: along
a play the counters of the opponent's priorities cannot fall for ever. Conversely every dominion has
levels that pay and stay below the top on it, which count, for every priority of the opponent, the
vertices of that priority that can be met before a greater one.
-/

namespace ParityGames

namespace Game

variable {g : Game} {p : Player} {bounds : List Nat} {f : Nat → Nat}
  {move : Nat → Option Nat}

/-- The part of a level that counts from a priority on. -/
def upper (bounds : List Nat) (priority x : Nat) : Nat :=
  x / Measure.volume (bounds.take priority)

theorem upper_upper {j k : Nat} (hjk : j ≤ k) (x : Nat) :
    upper bounds k x = upper bounds j x / Measure.volume ((bounds.take k).drop j) := by
  unfold upper
  have hsplit := Measure.volume_take_mul_drop (bounds.take k) j
  rw [List.take_take, Nat.min_eq_left hjk] at hsplit
  rw [Nat.div_div_eq_div_mul, hsplit]

/-- A paid step does not raise the level, and lowers it at a priority of the opponent. -/
theorem upper_of_toll {v x y : Nat} (hy : y < Measure.volume bounds)
    (htoll : g.toll p bounds v x ≤ y) {top : Nat} (htop : g.priorityOf v ≤ top) :
    upper bounds top x ≤ upper bounds top y ∧
      (g.priorityOf v = top → Player.ofPriority top ≠ p →
        upper bounds top x < upper bounds top y) := by
  unfold toll at htoll
  rw [Measure.raisedLevel_le_iff hy] at htoll
  constructor
  · rw [upper_upper htop, upper_upper htop]
    apply Nat.div_le_div_right
    split at htoll
    · exact Nat.le_of_lt htoll
    · exact htoll
  · rintro rfl hne
    rw [if_pos (by simpa using hne)] at htoll
    exact htoll

/-- Levels that pay certify a dominion. -/
theorem dominion_of_pays (hlow : ∀ v, g.contains v = true → g.priorityOf v < bounds.length)
    (hpays : ∀ v, g.contains v = true → g.Pays p bounds f v)
    (hmove : ∀ v, g.contains v = true → f v < Measure.volume bounds → g.owner v = p →
      ∃ w ∈ g.successors v, move v = some w ∧ g.toll p bounds v (f w) ≤ f v) :
    g.Dominion p {v | g.contains v = true ∧ f v < Measure.volume bounds} move := by
  have hbelow : ∀ {v w : Nat}, f v < Measure.volume bounds → w ∈ g.successors v →
      g.toll p bounds v (f w) ≤ f v →
      w ∈ {v | g.contains v = true ∧ f v < Measure.volume bounds} := by
    intro v w hv hw htoll
    refine ⟨contains_of_mem_successors hw, ?_⟩
    by_contra htop
    have hraised := @Measure.volume_le_raisedLevel bounds (g.priorityOf v) (f w)
      (Player.ofPriority (g.priorityOf v) ≠ p) (by omega)
    unfold toll at htoll
    omega
  have hother : ∀ v, g.contains v = true → f v < Measure.volume bounds → g.owner v ≠ p →
      ∀ w ∈ g.successors v, g.toll p bounds v (f w) ≤ f v := by
    intro v hv hlt howner
    rcases hpays v hv with htop | hpay
    · omega
    · rw [if_neg howner] at hpay
      exact hpay.2
  exact {
    active := fun v hv => hv.1
    keeps := by
      rintro v ⟨hv, hlt⟩ howner
      obtain ⟨w, hw, hmove', htoll⟩ := hmove v hv hlt howner
      exact ⟨w, hbelow hlt hw htoll, hmove', hw⟩
    traps := by
      rintro v ⟨hv, hlt⟩ howner w hw
      exact hbelow hlt hw (hother v hv hlt howner w hw)
    wins := by
      intro play hplay hstay
      have htoll : ∀ i, g.toll p bounds (play i) (f (play (i + 1))) ≤ f (play i) := by
        intro i
        obtain ⟨hv, hlt⟩ := hstay i
        obtain ⟨hedge, hkept⟩ := hplay i
        by_cases howner : g.owner (play i) = p
        · obtain ⟨w, -, hmove', hpaid⟩ := hmove _ hv hlt howner
          rwa [hkept howner w hmove']
        · exact hother _ hv hlt howner _ hedge
      obtain ⟨q, top, ⟨hoften, n, hbound⟩, hq⟩ := @exists_wonBy g play bounds.length fun i =>
        Nat.le_of_lt (hlow _ (hstay i).1)
      by_cases hpq : q = p
      · exact hpq ▸ ⟨top, ⟨hoften, n, hbound⟩, hq⟩
      · -- the counter of the limit priority falls again and again
        exfalso
        refine @no_descent (fun i => upper bounds top (f (play (n + i)))) (fun i => ?_) fun i => ?_
        · exact (upper_of_toll (hstay (n + i)).2 (htoll (n + i)) (hbound _ (by omega))).1
        · obtain ⟨j, hj, hpriority⟩ := hoften (n + i)
          refine ⟨j - n, by omega, ?_⟩
          have hj' : n + (j - n) = j := by omega
          have hj'' : n + (j - n + 1) = j + 1 := by omega
          simp only [hj', hj'']
          exact (upper_of_toll (hstay j).2 (htoll j) (Nat.le_of_eq hpriority)).2 hpriority
            (by rwa [hq]) }

/-! ## Levels of a dominion -/

/-- Whether `u` can be met from `v` on before a priority above that of `u`. -/
def Meets (g : Game) (p : Player) (move : Nat → Option Nat) (v u : Nat) : Prop :=
  Relation.ReflTransGen (fun a b => g.priorityOf a ≤ g.priorityOf u ∧ g.Step p move a b) v u

open Classical in
noncomputable def meetings (g : Game) (p : Player) (move : Nat → Option Nat) (v i : Nat) : Nat :=
  if Player.ofPriority i = p then 0
  else g.vertices.countP fun u => decide (g.priorityOf u = i ∧ g.Meets p move v u)

open Classical in
theorem meetings_le (hg : g.Coherent) (v i : Nat) :
    g.meetings p move v i ≤ if Player.ofPriority i = p then 0 else g.countWithPriority i := by
  unfold meetings
  split
  · exact Nat.le_refl 0
  · rw [hg.countWithPriority, List.count, List.countP_map]
    apply List.countP_mono_left
    intro u _ hu
    simpa using (of_decide_eq_true hu).1

open Classical in
/-- A step leaves no more vertices to be met, and less of its own priority. -/
theorem meetings_step {region : Set Nat} (hD : g.Dominion p region move) {v w : Nat}
    (hv : v ∈ region) (hstep : g.Step p move v w) {i : Nat} (hi : g.priorityOf v ≤ i) :
    g.meetings p move w i ≤ g.meetings p move v i ∧
      (g.priorityOf v = i → Player.ofPriority i ≠ p →
        g.meetings p move w i < g.meetings p move v i) := by
  have hkept : ∀ u, g.priorityOf u = i → g.Meets p move w u → g.Meets p move v u := by
    rintro u rfl hmeets
    exact Relation.ReflTransGen.head ⟨hi, hstep⟩ hmeets
  unfold meetings
  constructor
  · split
    · exact Nat.le_refl 0
    · apply List.countP_mono_left
      intro u _ hu
      obtain ⟨hpriority, hmeets⟩ := of_decide_eq_true hu
      exact decide_eq_true ⟨hpriority, hkept u hpriority hmeets⟩
  · rintro rfl hne
    rw [if_neg hne, if_neg hne]
    refine countP_lt_countP (fun u _ hu => ?_) (mem_vertices.2 (hD.active v hv)) ?_ ?_
    · obtain ⟨hpriority, hmeets⟩ := of_decide_eq_true hu
      exact decide_eq_true ⟨hpriority, hkept u hpriority hmeets⟩
    · -- otherwise the play could come back to `v` and be lost
      refine decide_eq_false fun hback => hne ?_
      exact hD.favours_of_loop hv rfl (Relation.TransGen.head' ⟨Nat.le_refl _, hstep⟩ hback.2)
    · exact decide_eq_true ⟨rfl, Relation.ReflTransGen.refl⟩

noncomputable def certificate (g : Game) (p : Player) (move : Nat → Option Nat) (length v : Nat) :
    List Nat :=
  (List.range length).map (g.meetings p move v)

theorem certificate_fits (hg : g.Coherent) (length v : Nat) :
    List.Forall₂ (· ≤ ·) (g.certificate p move length v)
      (ProgressMeasures.boundsFor g p length) := by
  unfold certificate ProgressMeasures.boundsFor
  rw [List.forall₂_map_left_iff, List.forall₂_map_right_iff, List.forall₂_same]
  exact fun i _ => meetings_le hg v i

theorem drop_certificate {length k v : Nat} (hk : k < length) :
    (g.certificate p move length v).drop k =
      g.meetings p move v k :: (g.certificate p move length v).drop (k + 1) := by
  unfold certificate
  rw [List.drop_eq_getElem_cons (by simpa using hk)]
  simp

theorem certificate_drop_le {region : Set Nat} (hD : g.Dominion p region move) {v w : Nat}
    (hv : v ∈ region) (hstep : g.Step p move v w) {length k : Nat} (hk : g.priorityOf v ≤ k) :
    List.Forall₂ (· ≤ ·) ((g.certificate p move length w).drop k)
      ((g.certificate p move length v).drop k) := by
  unfold certificate
  rw [← List.map_drop, ← List.map_drop, List.forall₂_map_left_iff, List.forall₂_map_right_iff,
    List.forall₂_same]
  intro i hi
  have hki : k ≤ i := by
    obtain ⟨j, hj, rfl⟩ := List.getElem_of_mem hi
    simp
  exact (meetings_step hD hv hstep (Nat.le_trans hk hki)).1

/-- A step in a dominion is paid by the levels of its vertices. -/
theorem toll_le_of_dominion (hg : g.Coherent) {region : Set Nat}
    (hD : g.Dominion p region move) {v w : Nat} (hv : v ∈ region) (hstep : g.Step p move v w)
    {length : Nat} (hlow : g.priorityOf v < length) :
    g.toll p (ProgressMeasures.boundsFor g p length) v
        (Measure.value (ProgressMeasures.boundsFor g p length)
          (g.certificate p move length w)) ≤
      Measure.value (ProgressMeasures.boundsFor g p length) (g.certificate p move length v) := by
  have hfits := fun u => @certificate_fits g p move hg length u
  unfold toll
  rw [Measure.raisedLevel_le_iff (Measure.value_lt (hfits v)), Measure.value_div (hfits w),
    Measure.value_div (hfits v)]
  split
  · rename_i hne
    have hlt := (meetings_step hD hv hstep (Nat.le_refl _)).2 rfl (by simpa using hne)
    rw [drop_certificate hlow, drop_certificate hlow]
    cases hbounds : (ProgressMeasures.boundsFor g p length).drop (g.priorityOf v) with
    | nil =>
        have hlength := congrArg List.length hbounds
        simp [ProgressMeasures.boundsFor] at hlength
        omega
    | cons bound bounds =>
        have hrest : Measure.value bounds
              ((g.certificate p move length w).drop (g.priorityOf v + 1)) ≤
            Measure.value bounds ((g.certificate p move length v).drop (g.priorityOf v + 1)) :=
          Measure.value_mono (certificate_drop_le hD hv hstep (Nat.le_succ _))
        have hmul := Nat.mul_le_mul_left (bound + 1) hrest
        unfold Measure.value
        omega
  · exact Measure.value_mono (certificate_drop_le hD hv hstep (Nat.le_refl _))

open Classical in
/-- Every dominion has levels that pay and stay below the top on it. -/
theorem Dominion.exists_pays (hg : g.Coherent) {region : Set Nat} (hD : g.Dominion p region move)
    {length : Nat} (hlow : ∀ v, g.contains v = true → g.priorityOf v < length)
    (htotal : g.isTotal = true) :
    ∃ f : Nat → Nat,
      (∀ v, g.contains v = true → g.Pays p (ProgressMeasures.boundsFor g p length) f v) ∧
      ∀ v ∈ region, f v < Measure.volume (ProgressMeasures.boundsFor g p length) := by
  let bounds := ProgressMeasures.boundsFor g p length
  let f := fun v => if v ∈ region then Measure.value bounds (g.certificate p move length v)
    else Measure.volume bounds
  have hf : ∀ v ∈ region, f v = Measure.value bounds (g.certificate p move length v) :=
    fun v hv => if_pos hv
  have hpaid : ∀ v ∈ region, ∀ w, g.Step p move v w → g.toll p bounds v (f w) ≤ f v := by
    intro v hv w hstep
    rw [hf v hv, hf w (hD.step_mem hv hstep)]
    exact toll_le_of_dominion hg hD hv hstep (hlow v (hD.active v hv))
  refine ⟨f, fun v hv => ?_, fun v hv => ?_⟩
  · by_cases hmem : v ∈ region
    · apply Or.inr
      split
      · rename_i howner
        obtain ⟨w, -, hmove, hw⟩ := hD.keeps v hmem howner
        exact ⟨w, hw, hpaid v hmem w ⟨hw, fun _ x hx => Option.some.inj (hmove.symm.trans hx)⟩⟩
      · rename_i howner
        obtain ⟨w, hw⟩ := isTotal_iff.1 htotal v hv
        exact ⟨List.ne_nil_of_mem hw,
          fun x hx => hpaid v hmem x ⟨hx, fun ho => absurd ho howner⟩⟩
    · exact Or.inl (Nat.le_of_eq (if_neg hmem).symm)
  · rw [hf v hv]
    exact Measure.value_lt (certificate_fits hg length v)

end Game

end ParityGames
