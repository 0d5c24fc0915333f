import ParityGames.Proofs.VertexSet.Requests
import ParityGames.Proofs.Data.Listing
import Mathlib.Data.Finset.Sort
import Mathlib.Data.Finset.Range
import Mathlib.Data.List.TakeWhile

/-! # Vertex sets as capacities with numbers below them

What a vertex set stands for is a finite set of numbers together with a bound on them. The
operations of the library are those of finite sets, with the conditions on capacities beside them.
-/

namespace ParityGames

structure CappedSet where
  capacity : Nat
  elements : Finset Nat
  below : ∀ v ∈ elements, v < capacity
deriving DecidableEq

namespace CappedSet

def empty (capacity : Nat) : CappedSet := ⟨capacity, ∅, by simp⟩

def full (capacity : Nat) : CappedSet := ⟨capacity, Finset.range capacity, by simp⟩

def complement (s : CappedSet) : CappedSet :=
  ⟨s.capacity, Finset.range s.capacity \ s.elements, fun v hv => by simp_all⟩

def insertAll (s : CappedSet) (vertices : List Nat) (h : ∀ v ∈ vertices, v < s.capacity) :
    CappedSet :=
  ⟨s.capacity, s.elements ∪ vertices.toFinset, fun v hv => by
    rcases Finset.mem_union.1 hv with hv | hv
    · exact s.below v hv
    · exact h v (List.mem_toFinset.1 hv)⟩

theorem takeWhile_below {capacity : Nat} {vertices : List Nat} :
    ∀ v ∈ vertices.takeWhile (· < capacity), v < capacity := fun v hv => by
  simpa using List.mem_takeWhile_imp hv

theorem exists_first_large {capacity : Nat} {vertices : List Nat}
    (h : ¬ ∀ v ∈ vertices, v < capacity) :
    ∃ v after, vertices = vertices.takeWhile (· < capacity) ++ v :: after ∧ capacity ≤ v := by
  have hsplit := List.takeWhile_append_dropWhile (p := (· < capacity)) (l := vertices)
  have hfirst := List.head?_dropWhile_not (· < capacity) vertices
  cases hrest : vertices.dropWhile (· < capacity) with
  | nil =>
      rw [List.dropWhile_eq_nil_iff] at hrest
      exact absurd (fun v hv => by simpa using hrest v hv) h
  | cons v after =>
      rw [hrest] at hsplit hfirst
      exact ⟨v, after, hsplit.symm, by simpa using hfirst⟩

def erase (s : CappedSet) (v : Nat) : CappedSet :=
  ⟨s.capacity, s.elements.erase v, fun w hw => s.below w (Finset.mem_of_mem_erase hw)⟩

def combination (elements others : Finset Nat) : Combination → Finset Nat
  | .union => elements ∪ others
  | .difference => elements \ others
  | .intersection => elements ∩ others

theorem mem_combination {elements others : Finset Nat} {how : Combination} {v : Nat} :
    v ∈ combination elements others how ↔
      how.holds (decide (v ∈ elements)) (decide (v ∈ others)) = true := by
  cases how <;> simp [combination, Combination.holds]

def combine (how : Combination) (s t : CappedSet) (h : s.capacity = t.capacity) : CappedSet :=
  ⟨s.capacity, combination s.elements t.elements how, fun v hv => by
    cases how with
    | union =>
        rcases Finset.mem_union.1 hv with hv | hv
        · exact s.below v hv
        · exact h ▸ t.below v hv
    | difference => exact s.below v (Finset.mem_sdiff.1 hv).1
    | intersection => exact s.below v (Finset.mem_inter.1 hv).1⟩

def checked (capacity : Nat) (s : CappedSet) : Except Fault CappedSet :=
  if capacity < capacityBound then .ok s else .error .capacityOverflow

/-- The operations of finite sets, each with the condition under which it is refused. -/
def operations : SetOperations CappedSet where
  create capacity := checked capacity (empty capacity)
  createFull capacity := checked capacity (full capacity)
  createOf capacity vertices := do
    let s ← checked capacity (empty capacity)
    if h : ∀ v ∈ vertices, v < s.capacity then .ok (s.insertAll vertices h)
    else .error .outsideTable
  complement := complement
  add s v :=
    if h : v < s.capacity then .ok (s.insertAll [v] (by simpa using h), decide (v ∉ s.elements))
    else .error .outsideTable
  take s v :=
    if v < s.capacity then .ok (s.erase v, decide (v ∈ s.elements)) else .error .outsideTable
  extend s vertices :=
    (s.insertAll (vertices.takeWhile (· < s.capacity)) takeWhile_below,
      if ∀ v ∈ vertices, v < s.capacity then none else some .outsideTable)
  combine how s t :=
    if h : s.capacity = t.capacity then .ok (combine how s t h) else .error .capacityMismatch
  capacity := capacity
  size s := s.elements.card
  isEmpty s := decide (s.elements = ∅)
  toList s := s.elements.sort
  contains s v := decide (v ∈ s.elements)
  same s t := decide (s.capacity = t.capacity ∧ s.elements = t.elements)
  subset s t := decide (s.elements ⊆ t.elements)
  apart s t :=
    if s.capacity = t.capacity then .ok (decide (Disjoint s.elements t.elements))
    else .error .unequalCapacities

theorem ext_elements {s t : CappedSet} (hcapacity : s.capacity = t.capacity)
    (h : ∀ v, v ∈ s.elements ↔ v ∈ t.elements) : s = t := by
  obtain ⟨capacity, elements, hbelow⟩ := s
  obtain ⟨capacity', elements', hbelow'⟩ := t
  obtain rfl : capacity = capacity' := hcapacity
  obtain rfl : elements = elements' := Finset.ext h
  rfl

end CappedSet

namespace VertexSet

variable {s t : VertexSet}

def capped (s : VertexSet) : CappedSet :=
  ⟨s.capacity, s.toList.toFinset, fun v hv => lt_capacity (by simpa using hv)⟩

@[simp] theorem capacity_capped (s : VertexSet) : s.capped.capacity = s.capacity := rfl

@[simp] theorem mem_capped {v : Nat} : v ∈ s.capped.elements ↔ s.contains v = true := by
  simp [capped]

theorem capped_inj (hcapacity : s.capacity = t.capacity) :
    s.capped.elements = t.capped.elements ↔ s = t := by
  refine ⟨fun h => ext hcapacity fun v => ?_, fun h => by rw [h]⟩
  rw [Bool.eq_iff_iff, ← mem_capped, h, mem_capped]

theorem capped_empty (capacity : Nat) : (empty capacity).capped = CappedSet.empty capacity :=
  CappedSet.ext_elements rfl fun v => by simp [CappedSet.empty]

theorem capped_full (capacity : Nat) : (full capacity).capped = CappedSet.full capacity :=
  CappedSet.ext_elements rfl fun v => by simp [CappedSet.full]

theorem checked_capped (capacity : Nat) (s : VertexSet) :
    CappedSet.checked capacity s.capped = (do checkCapacity capacity; return s).map capped := by
  unfold CappedSet.checked checkCapacity
  split <;> rfl

theorem capped_complement (s : VertexSet) : s.capped.complement = s.complement.capped := by
  refine CappedSet.ext_elements (by simp [CappedSet.complement]) fun v => ?_
  simp [CappedSet.complement]

theorem capped_insertAll {vertices : List Nat} (h : ∀ v ∈ vertices, v < s.capped.capacity) :
    s.capped.insertAll vertices h = (vertices.foldl insert s).capped := by
  refine CappedSet.ext_elements (capacity_foldl_insert vertices s).symm fun v => ?_
  have hlt : v ∈ vertices → v < s.capacity := h v
  simp only [CappedSet.insertAll, Finset.mem_union, mem_capped, List.mem_toFinset,
    contains_foldl_insert, Bool.or_eq_true, Bool.and_eq_true, decide_eq_true_eq]
  rw [and_iff_left_of_imp hlt]

theorem capped_remove (s : VertexSet) (v : Nat) : s.capped.erase v = (s.remove v).capped := by
  refine CappedSet.ext_elements (by simp [CappedSet.erase]) fun w => ?_
  simp [CappedSet.erase, and_comm]

theorem extend_eq (s : VertexSet) (vertices : List Nat) :
    s.extend vertices = ((vertices.takeWhile (· < s.capacity)).foldl insert s,
      if ∀ v ∈ vertices, v < s.capacity then none else some .outsideTable) := by
  induction vertices generalizing s with
  | nil => rfl
  | cons v rest ih =>
      by_cases hv : v < s.capacity
      · simp [extend, add, hv, ih]
      · simp [extend, add, hv]

theorem createOf_eq (capacity : Nat) (vertices : List Nat) :
    createOf capacity vertices = create capacity >>= fun s =>
      if ∀ v ∈ vertices, v < s.capacity then .ok (vertices.foldl insert s)
      else .error .outsideTable := by
  unfold createOf
  congr 1
  funext s
  rw [extend_eq]
  by_cases hlt : ∀ v ∈ vertices, v < s.capacity
  · have hall : vertices.takeWhile (· < s.capacity) = vertices :=
      List.takeWhile_eq_self_iff.2 (by simpa using hlt)
    rw [if_pos hlt, if_pos hlt, hall]
    rfl
  · rw [if_neg hlt, if_neg hlt]
    rfl

def combination (s t : VertexSet) : Combination → VertexSet
  | .union => s.union t
  | .difference => s.difference t
  | .intersection => s.inter t

@[simp] theorem capacity_combination (s t : VertexSet) (how : Combination) :
    (combination s t how).capacity = s.capacity := by
  cases how <;> simp [combination]

theorem contains_combination (how : Combination) (h : s.capacity = t.capacity) (v : Nat) :
    (combination s t how).contains v = how.holds (s.contains v) (t.contains v) := by
  cases how with
  | union => exact contains_union h v
  | difference => exact contains_difference h v
  | intersection => exact contains_inter h v

theorem capped_combination (how : Combination) (h : s.capacity = t.capacity) :
    s.capped.combine how t.capped h = (combination s t how).capped := by
  refine CappedSet.ext_elements (capacity_combination s t how).symm fun v => ?_
  show v ∈ CappedSet.combination s.capped.elements t.capped.elements how ↔ _
  simp [CappedSet.mem_combination, contains_combination how h]

/-! ## One operation at a time -/

theorem capped_createOf (capacity : Nat) (vertices : List Nat) :
    CappedSet.operations.createOf capacity vertices = (createOf capacity vertices).map capped := by
  show (CappedSet.checked capacity (CappedSet.empty capacity) >>= _) = _
  rw [← capped_empty, checked_capped, createOf_eq, create]
  cases checkCapacity capacity with
  | error fault => rfl
  | ok =>
      show (if h : ∀ v ∈ vertices, v < (empty capacity).capped.capacity then _ else _) =
        (if ∀ v ∈ vertices, v < (empty capacity).capped.capacity then _ else _ : Except _ _).map _
      by_cases hlt : ∀ v ∈ vertices, v < (empty capacity).capped.capacity
      · rw [dif_pos hlt, if_pos hlt, capped_insertAll]
        rfl
      · rw [dif_neg hlt, if_neg hlt]
        rfl

theorem capped_add (s : VertexSet) (v : Nat) :
    CappedSet.operations.add s.capped v = (s.add v).map (Prod.map capped id) := by
  show (if h : v < s.capacity then _ else _) = (s.add v).map _
  unfold add
  by_cases hv : v < s.capacity
  · simp [hv, Except.map, capped_insertAll]
  · simp [hv, Except.map]

theorem capped_take (s : VertexSet) (v : Nat) :
    CappedSet.operations.take s.capped v = (s.take v).map (Prod.map capped id) := by
  show (if v < s.capacity then _ else _) = (s.take v).map _
  unfold take
  by_cases hv : v < s.capacity
  · simp [hv, Except.map, capped_remove]
  · simp [hv, Except.map]

theorem capped_combine (how : Combination) (s t : VertexSet) :
    CappedSet.operations.combine how s.capped t.capped =
      (operations.combine how s t).map capped := by
  show (if h : s.capacity = t.capacity then _ else _) = _
  by_cases h : s.capacity = t.capacity
  · rw [dif_pos h, capped_combination]
    cases how <;> exact (congrArg (Except.map capped) (combine_of_eq h)).symm
  · rw [dif_neg h]
    cases how <;> exact (congrArg (Except.map capped) (combine_of_ne h)).symm

theorem card_capped (s : VertexSet) : s.capped.elements.card = s.size := by
  rw [size_eq_length_toList]
  exact List.toFinset_card_of_nodup s.nodup_toList

theorem capped_eq_empty_iff : s.capped.elements = ∅ ↔ s.isEmpty = true := by
  rw [isEmpty_iff, Finset.eq_empty_iff_forall_notMem]
  simp

theorem capped_subset_iff : s.capped.elements ⊆ t.capped.elements ↔ s.subset t = true := by
  rw [subset_iff, Finset.subset_iff]
  simp

theorem capped_disjoint_iff :
    Disjoint s.capped.elements t.capped.elements ↔ s.disjoint t = true := by
  rw [disjoint_iff, Finset.disjoint_left]
  simp

open SetOperations

/-- The library's sets do as what they stand for. -/
theorem simulates_capped : Simulates operations CappedSet.operations capped where
  create capacity := by
    show CappedSet.checked capacity (CappedSet.empty capacity) = (create capacity).map capped
    rw [← capped_empty]
    exact checked_capped capacity (empty capacity)
  createFull capacity := by
    show CappedSet.checked capacity (CappedSet.full capacity) = (createFull capacity).map capped
    rw [← capped_full]
    exact checked_capped capacity (full capacity)
  createOf := capped_createOf
  complement := capped_complement
  add := capped_add
  take := capped_take
  extend s vertices := by
    show (s.capped.insertAll _ _, _) = Prod.map capped id (s.extend vertices)
    rw [extend_eq, capped_insertAll]
    rfl
  combine := capped_combine
  capacity s := rfl
  size := card_capped
  isEmpty s := Bool.eq_iff_iff.2 (decide_eq_true_iff.trans capped_eq_empty_iff)
  toList s := (List.toFinset_sort _ s.nodup_toList).2 (s.toList_increasing.imp Nat.le_of_lt)
  contains s v := Bool.eq_iff_iff.2 (decide_eq_true_iff.trans mem_capped)
  same s t := by
    show decide (s.capacity = t.capacity ∧ s.capped.elements = t.capped.elements) = decide (s = t)
    rw [decide_eq_decide]
    exact ⟨fun h => (capped_inj h.1).1 h.2, fun h => h ▸ ⟨rfl, rfl⟩⟩
  subset s t := Bool.eq_iff_iff.2 (decide_eq_true_iff.trans capped_subset_iff)
  apart s t := by
    have hdisjoint : decide (Disjoint s.capped.elements t.capped.elements) = s.disjoint t :=
      Bool.eq_iff_iff.2 (decide_eq_true_iff.trans capped_disjoint_iff)
    show (if s.capacity = t.capacity then _ else _) = s.apart t
    rw [apart, hdisjoint]

end VertexSet

end ParityGames
