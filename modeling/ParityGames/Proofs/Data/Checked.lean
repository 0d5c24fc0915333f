import Mathlib.Data.List.Nodup
import Mathlib.Data.List.Forall2

/-! # Checked traversals

A traversal that may end with a fault comes through if every step does. The invariant of the
traversal speaks of the elements that are done, so that a step may use that none of them comes
again.
-/

namespace ParityGames

variable {α β ε : Type}

@[simp] theorem ok_bind (a : α) (f : α → Except ε β) : (Except.ok a >>= f) = f a := rfl

@[simp] theorem error_bind (e : ε) (f : α → Except ε β) : (Except.error e >>= f) = .error e := rfl

theorem bind_eq_ok_iff {a : Except ε α} {f : α → Except ε β} {b : β} :
    (a >>= f) = .ok b ↔ ∃ value, a = .ok value ∧ f value = .ok b := by
  cases a with
  | error e =>
      constructor
      · intro h
        cases h
      · rintro ⟨value, h, -⟩
        cases h
  | ok value =>
      constructor
      · intro h
        exact ⟨value, rfl, h⟩
      · rintro ⟨_, ⟨⟩, h⟩
        exact h

theorem bind_eq_error_iff {a : Except ε α} {f : α → Except ε β} {e : ε} :
    (a >>= f) = .error e ↔ a = .error e ∨ ∃ value, a = .ok value ∧ f value = .error e := by
  cases a with
  | error cause => simp
  | ok value => simp

/-- Every step succeeds and keeps the invariant, so the traversal succeeds with it. -/
theorem foldlM_ok (f : β → α → Except ε β) (items : List α) (init : β)
    (motive : List α → β → Prop) (start : motive [] init)
    (step : ∀ done a rest s, items = done ++ a :: rest → motive done s →
      ∃ t, f s a = .ok t ∧ motive (done ++ [a]) t) :
    ∃ t, items.foldlM f init = .ok t ∧ motive items t := by
  suffices ∀ rest done s, items = done ++ rest → motive done s →
      ∃ t, rest.foldlM f s = .ok t ∧ motive items t from this items [] init rfl start
  intro rest
  induction rest with
  | nil =>
      intro done s hitems hs
      have hdone : done = items := by simpa using hitems.symm
      exact ⟨s, rfl, hdone ▸ hs⟩
  | cons a rest ih =>
      intro done s hitems hs
      obtain ⟨t, hstep, ht⟩ := step done a rest s hitems hs
      obtain ⟨u, hrest, hu⟩ := ih (done ++ [a]) t (by simpa using hitems) ht
      refine ⟨u, ?_, hu⟩
      rw [List.foldlM_cons, hstep]
      exact hrest

theorem foldlM_keeps {f : β → α → Except ε β} {motive : β → Prop} {items : List α} {init t : β}
    (hrun : items.foldlM f init = .ok t) (start : motive init)
    (step : ∀ a ∈ items, ∀ s s', motive s → f s a = .ok s' → motive s') : motive t := by
  induction items generalizing init with
  | nil =>
      cases hrun
      exact start
  | cons a rest ih =>
      rw [List.foldlM_cons] at hrun
      obtain ⟨s, hs, hrest⟩ := bind_eq_ok_iff.1 hrun
      exact ih hrest (step a List.mem_cons_self init s start hs)
        fun b hb => step b (List.mem_cons_of_mem a hb)

theorem foldl_induction (f : β → α → β) (items : List α) (init : β)
    (motive : List α → β → Prop) (start : motive [] init)
    (step : ∀ done a rest s, items = done ++ a :: rest → motive done s →
      motive (done ++ [a]) (f s a)) :
    motive items (items.foldl f init) := by
  suffices ∀ rest done s, items = done ++ rest → motive done s →
      motive items (rest.foldl f s) from this items [] init rfl start
  intro rest
  induction rest with
  | nil =>
      intro done s hitems hs
      have hdone : done = items := by simpa using hitems.symm
      exact hdone ▸ hs
  | cons a rest ih =>
      intro done s hitems hs
      exact ih (done ++ [a]) (f s a) (by simpa using hitems) (step done a rest s hitems hs)

/-- A traversal of images, if every step comes to the image of what it came to. -/
theorem foldlM_hom {γ : Type} (image : β → γ) {f : β → α → Except ε β} {f' : γ → α → Except ε γ}
    (h : ∀ s a, f' (image s) a = (f s a).map image) (items : List α) (init : β) :
    items.foldlM f' (image init) = (items.foldlM f init).map image := by
  induction items generalizing init with
  | nil => rfl
  | cons a rest ih =>
      rw [List.foldlM_cons, List.foldlM_cons, h]
      cases f init a with
      | error e => rfl
      | ok s => exact ih s

theorem mapM_eq_ok {f : α → Except ε β} {items : List α} {values : List β}
    (h : items.mapM f = .ok values) : List.Forall₂ (fun a b => f a = .ok b) items values := by
  induction items generalizing values with
  | nil =>
      cases h
      exact List.Forall₂.nil
  | cons a rest ih =>
      rw [List.mapM_cons] at h
      obtain ⟨b, hb, h⟩ := bind_eq_ok_iff.1 h
      obtain ⟨bs, hbs, h⟩ := bind_eq_ok_iff.1 h
      cases h
      exact List.Forall₂.cons hb (ih hbs)

theorem mem_mapM_iff {f : α → Except ε β} {items : List α} {values : List β}
    (h : items.mapM f = .ok values) {b : β} : b ∈ values ↔ ∃ a ∈ items, f a = .ok b := by
  have hforall := mapM_eq_ok h
  clear h
  induction hforall with
  | nil => simp
  | @cons a _ rest _ ha _ ih => simp [ih, ha, eq_comm]

theorem mapM_total {f : α → Except ε β} {items : List α} (h : ∀ a ∈ items, ∃ b, f a = .ok b) :
    ∃ values, items.mapM f = .ok values := by
  induction items with
  | nil => exact ⟨[], rfl⟩
  | cons a rest ih =>
      obtain ⟨b, hb⟩ := h a List.mem_cons_self
      obtain ⟨bs, hbs⟩ := ih fun c hc => h c (List.mem_cons_of_mem a hc)
      exact ⟨b :: bs, by rw [List.mapM_cons, hb, ok_bind, hbs]; rfl⟩

theorem exists_mapM_iff {f : α → Except ε β} {items : List α} :
    (∃ values, items.mapM f = .ok values) ↔ ∀ a ∈ items, ∃ b, f a = .ok b := by
  refine ⟨?_, mapM_total⟩
  rintro ⟨values, h⟩ a ha
  obtain ⟨i, hi, rfl⟩ := List.getElem_of_mem ha
  have hforall := mapM_eq_ok h
  exact ⟨_, hforall.get hi (hforall.length_eq ▸ hi)⟩

/-- A list without an image has an element without one, and the first of these decides. -/
theorem mapM_eq_error_iff {f : α → Except ε β} {items : List α} {e : ε} :
    items.mapM f = .error e ↔ ∃ i a, items[i]? = some a ∧
      (∀ b ∈ items.take i, ∃ value, f b = .ok value) ∧ f a = .error e := by
  induction items with
  | nil =>
      constructor
      · intro h
        cases h
      · rintro ⟨i, a, hget, -⟩
        simp at hget
  | cons first rest ih =>
      rw [List.mapM_cons, bind_eq_error_iff]
      constructor
      · rintro (hfirst | ⟨value, hvalue, hrest⟩)
        · exact ⟨0, first, rfl, by simp, hfirst⟩
        · rcases bind_eq_error_iff.1 hrest with hrest | ⟨_, -, hpure⟩
          · obtain ⟨i, a, hget, hbefore, ha⟩ := ih.1 hrest
            exact ⟨i + 1, a, hget, List.forall_mem_cons.2 ⟨⟨value, hvalue⟩, hbefore⟩, ha⟩
          · cases hpure
      · rintro ⟨i, a, hget, hbefore, ha⟩
        cases i with
        | zero =>
            cases hget
            exact Or.inl ha
        | succ i =>
            obtain ⟨⟨value, hvalue⟩, hbefore⟩ := List.forall_mem_cons.1 hbefore
            refine Or.inr ⟨value, hvalue, ?_⟩
            rw [ih.2 ⟨i, a, hget, hbefore, ha⟩, error_bind]

end ParityGames
