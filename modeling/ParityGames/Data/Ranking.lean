/-!
# Sorting and choosing by an order

Stable sorting, and the choice of a least or greatest element where several are equal.
-/

namespace ParityGames

namespace Ranking

variable {α : Type}

/-- Put `a` before the first element that it may stand before. -/
def insertBy (le : α → α → Bool) (a : α) : List α → List α
  | [] => [a]
  | b :: rest => if le a b then a :: b :: rest else b :: insertBy le a rest

/-- Sort by `le`; elements that may stand in either order keep the one they had. -/
def sortBy (le : α → α → Bool) (items : List α) : List α :=
  items.foldr (insertBy le) []

def sort (numbers : List Nat) : List Nat := sortBy (fun a b => a ≤ b) numbers

/-- Put a number into a strictly increasing list, unless it is there. -/
def insertDistinct (a : Nat) : List Nat → List Nat
  | [] => [a]
  | b :: rest =>
      if a < b then a :: b :: rest
      else if a = b then b :: rest
      else b :: insertDistinct a rest

/-- The numbers in increasing order, each of them once. -/
def distinct (numbers : List Nat) : List Nat := numbers.foldr insertDistinct []

/-- The least element; the first one if several are least. -/
def firstLeast (cmp : α → α → Ordering) : List α → Option α
  | [] => none
  | a :: rest => some (rest.foldl (fun best x => if cmp best x = .gt then x else best) a)

/-- The greatest element; the last one if several are greatest. -/
def lastGreatest (cmp : α → α → Ordering) : List α → Option α
  | [] => none
  | a :: rest => some (rest.foldl (fun best x => if cmp best x = .gt then best else x) a)

/-! ## Sorting -/

theorem mem_insertDistinct {a x : Nat} {numbers : List Nat} :
    x ∈ insertDistinct a numbers ↔ x = a ∨ x ∈ numbers := by
  induction numbers with
  | nil => simp [insertDistinct]
  | cons b rest ih =>
      simp only [insertDistinct]
      split
      · simp
      · split
        · simp_all
        · simp only [List.mem_cons, ih]
          constructor
          · rintro (h | h | h) <;> simp [h]
          · rintro (h | h | h) <;> simp [h]

theorem insertDistinct_increasing {a : Nat} {numbers : List Nat}
    (h : numbers.Pairwise (· < ·)) : (insertDistinct a numbers).Pairwise (· < ·) := by
  induction numbers with
  | nil => simp [insertDistinct]
  | cons b rest ih =>
      obtain ⟨below, tail⟩ := List.pairwise_cons.1 h
      simp only [insertDistinct]
      split
      · rename_i hab
        refine List.pairwise_cons.2 ⟨?_, h⟩
        intro x hx
        rcases List.mem_cons.1 hx with rfl | hr
        · exact hab
        · exact Nat.lt_trans hab (below x hr)
      · split
        · exact h
        · refine List.pairwise_cons.2 ⟨?_, ih tail⟩
          intro x hx
          rcases mem_insertDistinct.1 hx with rfl | hr
          · omega
          · exact below x hr

theorem mem_distinct {x : Nat} {numbers : List Nat} : x ∈ distinct numbers ↔ x ∈ numbers := by
  induction numbers with
  | nil => simp [distinct]
  | cons a rest ih =>
      rw [show distinct (a :: rest) = insertDistinct a (distinct rest) from rfl,
        mem_insertDistinct, ih, List.mem_cons]

theorem distinct_increasing (numbers : List Nat) : (distinct numbers).Pairwise (· < ·) := by
  induction numbers with
  | nil => exact List.Pairwise.nil
  | cons a rest ih => exact insertDistinct_increasing ih

/-! ## Choosing -/

theorem foldl_choose_mem (choose : α → α → α) (h : ∀ a b, choose a b = a ∨ choose a b = b)
    (a : α) (rest : List α) : rest.foldl choose a ∈ a :: rest := by
  induction rest generalizing a with
  | nil => simp
  | cons b rest ih =>
      rw [List.foldl_cons]
      have hm := ih (choose a b)
      rcases h a b with hab | hab <;> rw [hab] at hm ⊢
      · rcases List.mem_cons.1 hm with hm | hm
        · simp [hm]
        · exact List.mem_cons_of_mem _ (List.mem_cons_of_mem _ hm)
      · exact List.mem_cons_of_mem _ hm

theorem firstLeast_mem {cmp : α → α → Ordering} {items : List α} {a : α}
    (h : firstLeast cmp items = some a) : a ∈ items := by
  cases items with
  | nil => simp [firstLeast] at h
  | cons b rest =>
      simp only [firstLeast, Option.some.injEq] at h
      rw [← h]
      refine foldl_choose_mem _ (fun x y => ?_) b rest
      by_cases hxy : cmp x y = .gt <;> simp [hxy]

theorem lastGreatest_mem {cmp : α → α → Ordering} {items : List α} {a : α}
    (h : lastGreatest cmp items = some a) : a ∈ items := by
  cases items with
  | nil => simp [lastGreatest] at h
  | cons b rest =>
      simp only [lastGreatest, Option.some.injEq] at h
      rw [← h]
      refine foldl_choose_mem _ (fun x y => ?_) b rest
      by_cases hxy : cmp x y = .gt <;> simp [hxy]

@[simp] theorem firstLeast_eq_none_iff {cmp : α → α → Ordering} {items : List α} :
    firstLeast cmp items = none ↔ items = [] := by
  cases items <;> simp [firstLeast]

@[simp] theorem lastGreatest_eq_none_iff {cmp : α → α → Ordering} {items : List α} :
    lastGreatest cmp items = none ↔ items = [] := by
  cases items <;> simp [lastGreatest]

end Ranking

end ParityGames
