import Mathlib.Logic.Relation
import Mathlib.Tactic.Common

/-! # Flows towards a head

The live edges of a component. From every member the head is reached, from the head itself through
vertices of no greater rank. Edges are cut for one vertex after the other, the greatest rank first:
either the walks that can reach the head without the vertex do so, or those that can reach the
vertex do. Afterwards every walk from a member to the head meets the same vertices among those that
were cut for, and none of these lies on a closed walk.
-/

namespace ParityGames

open Relation

/-- The vertices from which the target is reached without passing through a vertex. -/
def Basin (live : Nat → Nat → Prop) (target avoided v : Nat) : Prop :=
  ReflTransGen (fun a b => live a b ∧ a ≠ avoided) v target

/-- The live edges of a component. `done` are the vertices that were cut for, and `meets x v` says
that the walks from `v` to the head meet `x`. -/
structure Flow (rank : Nat → Nat) (head : Nat) (member : Nat → Prop) (live : Nat → Nat → Prop)
    (done : Nat → Prop) (meets : Nat → Nat → Prop) : Prop where
  inside : ∀ u v, live u v → member u ∧ member v
  head_mem : member head
  reaches : ∀ v, member v → ReflTransGen live v head
  returns : ∃ v, live head v ∧ ReflTransGen (fun a b => live a b ∧ rank a ≤ rank head) v head
  acyclic : ∀ x, done x → ¬ TransGen live x x
  meets_iff : ∀ x v w, done x → v ≠ head → live v w → (meets x v ↔ x = v ∨ meets x w)
  starts : ∀ x, done x → ¬ meets x head
  leaves : ∀ x v, done x → live head v → ¬ meets x v

/-- A closed walk keeps a property of all vertices that lie on closed walks. -/
theorem transGen_on_loop {live : Nat → Nat → Prop} {P : Nat → Prop} {u : Nat}
    (hP : ∀ v, TransGen live v v → P v) (h : TransGen live u u) :
    TransGen (fun a b => live a b ∧ P a) u u := by
  have key : ∀ v, ReflTransGen live u v → TransGen live v u →
      TransGen (fun a b => live a b ∧ P a) v u := by
    intro v hback hforth
    have hloop : ∀ w, ReflTransGen live u w → TransGen live w u → P w := fun w hw hw' =>
      hP w (hw'.trans_left hw)
    induction hforth using TransGen.head_induction_on with
    | single hedge => exact TransGen.single ⟨hedge, hloop _ hback (TransGen.single hedge)⟩
    | head hedge hrest ih =>
        have hhere := hloop _ hback (TransGen.head hedge hrest)
        exact TransGen.head ⟨hedge, hhere⟩ (ih (hback.tail hedge))
  exact key u ReflTransGen.refl h

namespace Flow

variable {rank : Nat → Nat} {head u : Nat} {member : Nat → Prop} {live : Nat → Nat → Prop}
  {done : Nat → Prop} {meets : Nat → Nat → Prop}

theorem ne_head (hu : rank head < rank u) : u ≠ head := by
  rintro rfl
  exact Nat.lt_irrefl _ hu

theorem mem_of_basin (h : Flow rank head member live done meets) {target avoided v : Nat}
    (ht : member target) (hv : Basin live target avoided v) : member v := by
  rcases hv.cases_head with rfl | ⟨w, hedge, -⟩
  · exact ht
  · exact (h.inside v w hedge.1).1

/-- A cut for `u` has to show nothing about the vertices that were cut for before. -/
theorem cut (h : Flow rank head member live done meets) {live' meets' : Nat → Nat → Prop}
    (hmono : ∀ a b, live' a b → live a b)
    (hmeets : ∀ x v, done x → member v → (meets' x v ↔ meets x v))
    (hreaches : ∀ v, member v → ReflTransGen live' v head)
    (hreturns : ∃ v, live' head v ∧
      ReflTransGen (fun a b => live' a b ∧ rank a ≤ rank head) v head)
    (hacyclic : ¬ TransGen live' u u)
    (hmeets_iff : ∀ v w, v ≠ head → live' v w → (meets' u v ↔ u = v ∨ meets' u w))
    (hstarts : ¬ meets' u head) (hleaves : ∀ v, live' head v → ¬ meets' u v) :
    Flow rank head member live' (fun x => done x ∨ x = u) meets' where
  inside := fun a b hab => h.inside a b (hmono a b hab)
  head_mem := h.head_mem
  reaches := hreaches
  returns := hreturns
  acyclic := by
    intro x hx hloop
    rcases hx with hx | rfl
    · exact h.acyclic x hx (TransGen.mono hmono _ _ hloop)
    · exact hacyclic hloop
  meets_iff := by
    intro x v w hx hv hedge
    have hedge' := hmono v w hedge
    have hin := h.inside v w hedge'
    rcases hx with hx | rfl
    · rw [hmeets x v hx hin.1, hmeets x w hx hin.2]
      exact h.meets_iff x v w hx hv hedge'
    · exact hmeets_iff v w hv hedge
  starts := by
    intro x hx
    rcases hx with hx | rfl
    · rw [hmeets x head hx h.head_mem]
      exact h.starts x hx
    · exact hstarts
  leaves := by
    intro x v hx hedge
    have hedge' := hmono head v hedge
    rcases hx with hx | rfl
    · rw [hmeets x v hx (h.inside head v hedge').2]
      exact h.leaves x v hx hedge'
    · exact hleaves v hedge

/-! ## Keeping away -/

/-- What is left when the vertices that reach the head without `u` keep to such vertices. -/
def Evaded (live : Nat → Nat → Prop) (head u a b : Nat) : Prop :=
  live a b ∧ (Basin live head u a ∨ a = u → Basin live head u b)

/-- A vertex that is cut for does not reach the head without itself. -/
theorem not_basin_self (hu : u ≠ head) : ¬ Basin live head u u := by
  intro hbasin
  rcases hbasin.cases_head with heq | ⟨w, hedge, -⟩
  · exact hu heq
  · exact hedge.2 rfl

/-- The last time a walk leaves `u` it goes where the head is reached without `u`. -/
theorem exists_escape (h : Flow rank head member live done meets) (hmem : member u)
    (hu : u ≠ head) : ∃ v, live u v ∧ Basin live head u v := by
  have key : ∀ v, ReflTransGen live v head →
      Basin live head u v ∨ ∃ w, live u w ∧ Basin live head u w := by
    intro v hv
    induction hv using ReflTransGen.head_induction_on with
    | refl => exact Or.inl ReflTransGen.refl
    | @head v w hedge _ ih =>
        rcases ih with hw | hescape
        · by_cases hvu : v = u
          · subst hvu
            exact Or.inr ⟨w, hedge, hw⟩
          · exact Or.inl (ReflTransGen.head ⟨hedge, hvu⟩ hw)
        · exact Or.inr hescape
  exact (key u (h.reaches u hmem)).resolve_left (not_basin_self hu)

theorem evaded_reaches_of_basin {v : Nat} (hv : Basin live head u v) :
    ReflTransGen (Evaded live head u) v head := by
  induction hv using ReflTransGen.head_induction_on with
  | refl => exact ReflTransGen.refl
  | head hedge hrest ih => exact ReflTransGen.head ⟨hedge.1, fun _ => hrest⟩ ih

theorem basin_of_low {v : Nat} (hu : rank head < rank u)
    (hv : ReflTransGen (fun a b => live a b ∧ rank a ≤ rank head) v head) :
    Basin live head u v := by
  refine ReflTransGen.mono (fun a b hab => ⟨hab.1, ?_⟩) _ _ hv
  rintro rfl
  exact Nat.not_lt_of_le hab.2 hu

theorem evaded_reaches (h : Flow rank head member live done meets) (hmem : member u)
    (hu : u ≠ head) {v : Nat} (hv : member v) : ReflTransGen (Evaded live head u) v head := by
  have hwalk := h.reaches v hv
  induction hwalk using ReflTransGen.head_induction_on with
  | refl => exact ReflTransGen.refl
  | @head v w hedge _ ih =>
      have hrest := ih (h.inside v w hedge).2
      by_cases hbasin : Basin live head u v
      · exact evaded_reaches_of_basin hbasin
      · by_cases hvu : v = u
        · subst hvu
          obtain ⟨x, hescape, hx⟩ := h.exists_escape hmem hu
          exact ReflTransGen.head ⟨hescape, fun _ => hx⟩ (evaded_reaches_of_basin hx)
        · exact ReflTransGen.head ⟨hedge, fun hor => (hor.elim hbasin hvu).elim⟩ hrest

theorem evade (h : Flow rank head member live done meets) (hmem : member u)
    (hu : rank head < rank u) {meets' : Nat → Nat → Prop}
    (hmeets : ∀ x v, done x → member v → (meets' x v ↔ meets x v))
    (hmeets_new : ∀ v, member v → (meets' u v ↔ ¬ Basin live head u v)) :
    Flow rank head member (Evaded live head u) (fun x => done x ∨ x = u) meets' := by
  have hne := ne_head hu
  have hself : ¬ Basin live head u u := not_basin_self hne
  have hhead : Basin live head u head := ReflTransGen.refl
  refine h.cut (fun a b hab => hab.1) hmeets (fun v hv => h.evaded_reaches hmem hne hv) ?returns
    ?acyclic ?meets ?starts ?leaves
  case returns =>
    obtain ⟨v, hedge, hback⟩ := h.returns
    have hv := basin_of_low hu hback
    refine ⟨v, ⟨hedge, fun _ => hv⟩, ?_⟩
    clear hv hedge
    induction hback using ReflTransGen.head_induction_on with
    | refl => exact ReflTransGen.refl
    | head hedge hrest ih =>
        have hbasin := basin_of_low hu hrest
        exact ReflTransGen.head ⟨⟨hedge.1, fun _ => hbasin⟩, hedge.2⟩ ih
  case acyclic =>
    -- the first step leads where `u` is avoided, and from there on it stays avoided
    intro hloop
    obtain ⟨v, hedge, hrest⟩ := TransGen.head'_iff.1 hloop
    have hv := hedge.2 (Or.inr rfl)
    have hstay : ∀ w, ReflTransGen (Evaded live head u) v w → Basin live head u w := by
      intro w hw
      induction hw with
      | refl => exact hv
      | tail _ hstep ih => exact hstep.2 (Or.inl ih)
    exact hself (hstay u hrest)
  case meets =>
    intro v w hv hedge
    have hin := h.inside v w hedge.1
    rw [hmeets_new v hin.1, hmeets_new w hin.2]
    by_cases huv : u = v
    · subst huv
      exact ⟨fun _ => Or.inl rfl, fun _ => hself⟩
    · constructor
      · intro hv'
        refine Or.inr fun hw => hv' ?_
        exact ReflTransGen.head ⟨hedge.1, fun heq => huv heq.symm⟩ hw
      · intro heq hv'
        rcases heq with heq | hw
        · exact huv heq
        · exact hw (hedge.2 (Or.inl hv'))
  case starts =>
    rw [hmeets_new head h.head_mem]
    exact fun hnot => hnot hhead
  case leaves =>
    intro v hedge
    rw [hmeets_new v (h.inside head v hedge.1).2]
    exact fun hnot => hnot (hedge.2 (Or.inl hhead))

/-! ## Pursuing -/

/-- What is left when the vertices that reach `u` before the head keep to such vertices. -/
def Pursued (live : Nat → Nat → Prop) (head u a b : Nat) : Prop :=
  live a b ∧ (Basin live u head a ∧ a ≠ u → Basin live u head b)

/-- The next vertex lies on no closed walk, unless on one of vertices of no greater rank. -/
theorem acyclic_next (h : Flow rank head member live done meets)
    (hnext : ∀ v, member v → rank u < rank v → done v)
    (hcycle : ¬ TransGen (fun a b => live a b ∧ rank a ≤ rank u) u u) :
    ¬ TransGen live u u := by
  intro hloop
  refine hcycle (transGen_on_loop (fun v hv => ?_) hloop)
  obtain ⟨w, hedge, -⟩ := TransGen.head'_iff.1 hv
  by_contra hlt
  exact h.acyclic v (hnext v (h.inside v w hedge).1 (Nat.lt_of_not_le hlt)) hv

/-- What the head reaches does not reach `u` before the head. -/
theorem not_basin_of_head (h : Flow rank head member live done meets) (hmem : member u)
    (hcycle : ¬ TransGen live u u) {v : Nat} (hv : TransGen live head v) :
    ¬ Basin live u head v := by
  intro hbasin
  apply hcycle
  have hfrom : ReflTransGen live u head := h.reaches u hmem
  have hto : ReflTransGen live v u := ReflTransGen.mono (fun _ _ hab => hab.1) _ _ hbasin
  exact TransGen.trans_left (TransGen.trans_right hfrom hv) hto

theorem not_basin_head (hu : u ≠ head) : ¬ Basin live u head head :=
  not_basin_self hu.symm

/-- Where `u` leads, all edges are kept, for otherwise `u` would be met again. -/
theorem pursued_reaches_of_next (hcycle : ¬ TransGen live u u) {v : Nat}
    (hwalk : ReflTransGen live v head) (hv : ReflTransGen live u v) :
    ReflTransGen (Pursued live head u) v head := by
  induction hwalk using ReflTransGen.head_induction_on with
  | refl => exact ReflTransGen.refl
  | @head v w hedge _ ih =>
      refine ReflTransGen.head ⟨hedge, fun hpursues => ?_⟩ (ih (hv.tail hedge))
      have hto : ReflTransGen live v u := ReflTransGen.mono (fun _ _ hab => hab.1) _ _ hpursues.1
      rcases hv.cases_head with heq | ⟨x, hfirst, hrest⟩
      · exact absurd heq.symm hpursues.2
      · exact absurd (TransGen.head' hfirst (hrest.trans hto)) hcycle

theorem pursued_reaches_of_basin {v : Nat} (hv : Basin live u head v) :
    ReflTransGen (Pursued live head u) v u := by
  induction hv using ReflTransGen.head_induction_on with
  | refl => exact ReflTransGen.refl
  | head hedge hrest ih => exact ReflTransGen.head ⟨hedge.1, fun _ => hrest⟩ ih

theorem pursued_reaches (h : Flow rank head member live done meets) (hmem : member u)
    (hcycle : ¬ TransGen live u u) {v : Nat} (hv : member v) :
    ReflTransGen (Pursued live head u) v head := by
  have hu := pursued_reaches_of_next hcycle (h.reaches u hmem) ReflTransGen.refl
  have hwalk := h.reaches v hv
  induction hwalk using ReflTransGen.head_induction_on with
  | refl => exact ReflTransGen.refl
  | @head v w hedge _ ih =>
      have hrest := ih (h.inside v w hedge).2
      by_cases hbasin : Basin live u head v
      · exact (pursued_reaches_of_basin hbasin).trans hu
      · exact ReflTransGen.head ⟨hedge, fun hpursues => absurd hpursues.1 hbasin⟩ hrest

theorem pursue (h : Flow rank head member live done meets) (hmem : member u)
    (hu : rank head < rank u) (hcycle : ¬ TransGen live u u) {meets' : Nat → Nat → Prop}
    (hmeets : ∀ x v, done x → member v → (meets' x v ↔ meets x v))
    (hmeets_new : ∀ v, member v → (meets' u v ↔ Basin live u head v)) :
    Flow rank head member (Pursued live head u) (fun x => done x ∨ x = u) meets' := by
  have hne := ne_head hu
  refine h.cut (fun a b hab => hab.1) hmeets (fun v hv => h.pursued_reaches hmem hcycle hv)
    ?returns (fun hloop => hcycle (TransGen.mono (fun a b hab => hab.1) _ _ hloop)) ?meets ?starts
    ?leaves
  case returns =>
    obtain ⟨v, hedge, hback⟩ := h.returns
    refine ⟨v, ⟨hedge, fun hpursues => absurd hpursues.1 (not_basin_head hne)⟩, ?_⟩
    have hfrom : TransGen live head v := TransGen.single hedge
    clear hedge
    induction hback using ReflTransGen.head_induction_on with
    | refl => exact ReflTransGen.refl
    | head hedge _ ih =>
        have hnot := h.not_basin_of_head hmem hcycle hfrom
        exact ReflTransGen.head ⟨⟨hedge.1, fun hpursues => absurd hpursues.1 hnot⟩, hedge.2⟩
          (ih (hfrom.tail hedge.1))
  case meets =>
    intro v w hv hedge
    have hin := h.inside v w hedge.1
    rw [hmeets_new v hin.1, hmeets_new w hin.2]
    constructor
    · intro hbasin
      by_cases huv : u = v
      · exact Or.inl huv
      · exact Or.inr (hedge.2 ⟨hbasin, fun heq => huv heq.symm⟩)
    · intro hw
      rcases hw with rfl | hw
      · exact ReflTransGen.refl
      · exact ReflTransGen.head ⟨hedge.1, hv⟩ hw
  case starts =>
    rw [hmeets_new head h.head_mem]
    exact not_basin_head hne
  case leaves =>
    intro v hedge
    rw [hmeets_new v (h.inside head v hedge.1).2]
    exact h.not_basin_of_head hmem hcycle (TransGen.single hedge.1)

end Flow

end ParityGames
