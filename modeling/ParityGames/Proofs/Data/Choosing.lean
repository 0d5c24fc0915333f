import ParityGames.Data.Ranking
import Mathlib.Data.List.Sort

/-! # Comparing and choosing

Numbers are compared by their leading digits first. The least and the greatest element of a list
are bounds of it, if the comparison that chooses them decides a preorder on it. Sorting is
insertion sort, so that what is known of `List.insertionSort` carries over.
-/

namespace ParityGames

theorem compare_digits {x y r a b : Nat} (hx : x < r) (hy : y < r) :
    (compare a b).then (compare x y) = compare (x + r * a) (y + r * b) := by
  have hmul : ∀ {c d : Nat}, c < d → r * c + r ≤ r * d := by
    intro c d hcd
    have hle := Nat.mul_le_mul_left r (Nat.succ_le_of_lt hcd)
    rwa [Nat.mul_succ] at hle
  rcases Nat.lt_trichotomy a b with hab | rfl | hab
  · have hle := hmul hab
    have hlt : x + r * a < y + r * b := by omega
    rw [Nat.compare_eq_lt.2 hab, Nat.compare_eq_lt.2 hlt]
    rfl
  · rw [Nat.compare_eq_eq.2 rfl]
    rcases Nat.lt_trichotomy x y with hxy | rfl | hxy
    · have hlt : x + r * a < y + r * a := by omega
      rw [Nat.compare_eq_lt.2 hxy, Nat.compare_eq_lt.2 hlt]
      rfl
    · rw [Nat.compare_eq_eq.2 rfl, Nat.compare_eq_eq.2 rfl]
      rfl
    · have hlt : y + r * a < x + r * a := by omega
      rw [Nat.compare_eq_gt.2 hxy, Nat.compare_eq_gt.2 hlt]
      rfl
  · have hle := hmul hab
    have hlt : y + r * b < x + r * a := by omega
    rw [Nat.compare_eq_gt.2 hab, Nat.compare_eq_gt.2 hlt]
    rfl

theorem transCmp_on {α β : Type} {cmp : β → β → Ordering} [Std.TransCmp cmp] (f : α → β) :
    Std.TransCmp fun a b => cmp (f a) (f b) where
  eq_swap := Std.OrientedCmp.eq_swap
  isLE_trans := Std.TransCmp.isLE_trans

namespace Ranking

variable {α : Type} {le : α → α → Prop} {cmp : α → α → Ordering} {items : List α}

/-- A choice between two elements that is below both gives a lower bound of the list. -/
theorem foldl_choose_le (choose : α → α → α) (hrefl : ∀ a, le a a)
    (htrans : ∀ a b c, le a b → le b c → le a c) {a : α} {rest : List α}
    (hmem : ∀ x ∈ a :: rest, ∀ y ∈ a :: rest, choose x y = x ∨ choose x y = y)
    (hle : ∀ x ∈ a :: rest, ∀ y ∈ a :: rest, le (choose x y) x ∧ le (choose x y) y) :
    ∀ b ∈ a :: rest, le (rest.foldl choose a) b := by
  induction rest generalizing a with
  | nil =>
      intro b hb
      rw [List.mem_singleton.1 hb]
      exact hrefl a
  | cons c rest ih =>
      have hin : ∀ x ∈ choose a c :: rest, x ∈ a :: c :: rest := by
        intro x hx
        rcases List.mem_cons.1 hx with rfl | hx
        · rcases hmem a (by simp) c (by simp) with heq | heq <;> simp [heq]
        · simp [hx]
      have hrest := ih (fun x hx y hy => hmem x (hin x hx) y (hin y hy))
        (fun x hx y hy => hle x (hin x hx) y (hin y hy))
      have hfirst := hrest (choose a c) (by simp)
      obtain ⟨hchooseLeft, hchooseRight⟩ := hle a (by simp) c (by simp)
      intro b hb
      rw [List.foldl_cons]
      rcases List.mem_cons.1 hb with rfl | hb
      · exact htrans _ _ _ hfirst hchooseLeft
      · rcases List.mem_cons.1 hb with rfl | hb
        · exact htrans _ _ _ hfirst hchooseRight
        · exact hrest b (by simp [hb])

theorem firstLeast_le (hrefl : ∀ a, le a a) (htrans : ∀ a b c, le a b → le b c → le a c)
    (hcmp : ∀ x ∈ items, ∀ y ∈ items, if cmp x y = .gt then le y x else le x y) {a : α}
    (h : firstLeast cmp items = some a) : ∀ b ∈ items, le a b := by
  cases items with
  | nil => cases h
  | cons b rest =>
      obtain rfl := Option.some.inj h
      refine foldl_choose_le _ hrefl htrans (fun x hx y hy => ?_) fun x hx y hy => ?_
      · by_cases hxy : cmp x y = .gt <;> simp [hxy]
      · have hxy := hcmp x hx y hy
        by_cases hgt : cmp x y = .gt
        · rw [if_pos hgt] at hxy ⊢
          exact ⟨hxy, hrefl y⟩
        · rw [if_neg hgt] at hxy ⊢
          exact ⟨hrefl x, hxy⟩

theorem le_lastGreatest (hrefl : ∀ a, le a a) (htrans : ∀ a b c, le a b → le b c → le a c)
    (hcmp : ∀ x ∈ items, ∀ y ∈ items, if cmp x y = .gt then le y x else le x y) {a : α}
    (h : lastGreatest cmp items = some a) : ∀ b ∈ items, le b a := by
  cases items with
  | nil => cases h
  | cons b rest =>
      obtain rfl := Option.some.inj h
      refine @foldl_choose_le α (fun x y => le y x) _ hrefl
        (fun a b c hab hbc => htrans c b a hbc hab) b rest (fun x hx y hy => ?_) fun x hx y hy => ?_
      · by_cases hxy : cmp x y = .gt <;> simp [hxy]
      · have hxy := hcmp x hx y hy
        by_cases hgt : cmp x y = .gt
        · rw [if_pos hgt] at hxy ⊢
          exact ⟨hrefl x, hxy⟩
        · rw [if_neg hgt] at hxy ⊢
          exact ⟨hxy, hrefl y⟩

/-! ## Sorting -/

theorem insertBy_eq_orderedInsert (order : α → α → Bool) (a : α) (items : List α) :
    insertBy order a items = items.orderedInsert (fun x y => order x y) a := by
  induction items with
  | nil => rfl
  | cons b rest ih => rw [insertBy, List.orderedInsert_cons, ih]

theorem sortBy_eq_insertionSort (order : α → α → Bool) (items : List α) :
    sortBy order items = items.insertionSort fun x y => order x y := by
  induction items with
  | nil => rfl
  | cons a rest ih =>
      rw [List.insertionSort_cons, ← ih, ← insertBy_eq_orderedInsert]
      rfl

theorem sort_eq_insertionSort (numbers : List Nat) :
    sort numbers = numbers.insertionSort (· ≤ ·) := by
  simp only [sort, sortBy_eq_insertionSort, decide_eq_true_eq]

theorem sortBy_cmp_pairwise (cmp : α → α → Ordering) [Std.TransCmp cmp] (items : List α) :
    (sortBy (fun a b => cmp a b ≠ .gt) items).Pairwise fun a b => cmp a b ≠ .gt := by
  have _ : Std.Total fun a b => cmp a b ≠ .gt := ⟨fun a b => by
    rw [← not_and_or, Std.OrientedCmp.gt_iff_lt]
    rintro ⟨hlt, hgt⟩
    rw [hlt] at hgt
    cases hgt⟩
  have _ : IsTrans α fun a b => cmp a b ≠ .gt := ⟨fun a b c hab hbc => by
    simp only [ne_eq, Ordering.ne_gt_iff_isLE] at hab hbc ⊢
    exact Std.TransCmp.isLE_trans hab hbc⟩
  simp only [sortBy_eq_insertionSort, decide_eq_true_eq]
  exact List.pairwise_insertionSort _ _

end Ranking

end ParityGames
