import ParityGames.VertexSet.Request
import ParityGames.VertexTable
import Mathlib.Algebra.Order.BigOperators.Group.List
import Mathlib.Algebra.Order.Ring.Nat

/-! # Listings of sets and tables

A set is listed without repetition, so its size counts its elements, and putting an element in or
taking one out changes the listing by that element. The entries of a table are its rows from the
first to the last. Sums over a listing are compared summand by summand.
-/

namespace ParityGames

theorem length_le_of_lt {items : List Nat} {n : Nat} (hnodup : items.Nodup)
    (hlt : ∀ v ∈ items, v < n) : items.length ≤ n := by
  have hle := hnodup.length_le_of_subset fun v hv => List.mem_range.2 (hlt v hv)
  rwa [List.length_range] at hle

namespace VertexSet

theorem nodup_toList (s : VertexSet) : s.toList.Nodup :=
  s.toList_increasing.imp fun h => Nat.ne_of_lt h

theorem toList_remove_perm {s : VertexSet} {v : Nat} (hv : s.contains v = true) :
    s.toList.Perm (v :: (s.remove v).toList) := by
  have hnot : v ∉ (s.remove v).toList := by simp
  rw [List.perm_ext_iff_of_nodup s.nodup_toList
    (List.nodup_cons.2 ⟨hnot, (s.remove v).nodup_toList⟩)]
  intro w
  rw [List.mem_cons, mem_toList, mem_toList, contains_remove]
  by_cases hw : w = v
  · simp [hw, hv]
  · simp [hw]

theorem toList_insert_perm {s : VertexSet} {v : Nat} (hv : s.contains v = false)
    (hlt : v < s.capacity) : (s.insert v).toList.Perm (v :: s.toList) := by
  have hnot : v ∉ s.toList := by simp [hv]
  rw [List.perm_ext_iff_of_nodup (s.insert v).nodup_toList
    (List.nodup_cons.2 ⟨hnot, s.nodup_toList⟩)]
  intro w
  rw [List.mem_cons, mem_toList, mem_toList, contains_insert]
  by_cases hw : w = v <;> simp [hw, hlt]

theorem size_insert {s : VertexSet} {v : Nat} (hv : s.contains v = false)
    (hlt : v < s.capacity) : (s.insert v).size = s.size + 1 := by
  rw [size_eq_length_toList, size_eq_length_toList, (toList_insert_perm hv hlt).length_eq,
    List.length_cons]

theorem size_le_of_subset {s t : VertexSet}
    (h : ∀ v, s.contains v = true → t.contains v = true) : s.size ≤ t.size := by
  rw [size_eq_length_toList, size_eq_length_toList]
  have hsub : s.toList ⊆ t.toList := by
    intro v hv
    rw [mem_toList] at hv ⊢
    exact h v hv
  exact s.nodup_toList.length_le_of_subset hsub

theorem size_le_capacity (s : VertexSet) : s.size ≤ s.capacity := by
  rw [size_eq_length_toList]
  exact length_le_of_lt s.nodup_toList fun v hv => lt_capacity (mem_toList.1 hv)

theorem size_lt_of_subset {s t : VertexSet} {v : Nat}
    (h : ∀ w, s.contains w = true → t.contains w = true) (hv : t.contains v = true)
    (hnot : s.contains v = false) : s.size < t.size := by
  have hle : s.size ≤ (t.remove v).size := by
    apply size_le_of_subset
    intro w hw
    have hne : w ≠ v := by
      rintro rfl
      rw [hnot] at hw
      cases hw
    simp [h w hw, hne]
  have hlength := (toList_remove_perm hv).length_eq
  rw [size_eq_length_toList t, hlength, List.length_cons, ← size_eq_length_toList]
  omega

end VertexSet

/-- One summand rises by more than all others together may fall. -/
theorem sum_add_le {f f' : Nat → Nat} {items : List Nat} {x b c : Nat} (hx : x ∈ items)
    (hle : ∀ v ∈ items, f v ≤ f' v + b) (hrise : f x + c + items.length * b ≤ f' x) :
    (items.map f).sum + b + c ≤ (items.map f').sum := by
  have hothers := List.sum_le_sum fun v (hv : v ∈ items.erase x) => hle v (List.mem_of_mem_erase hv)
  rw [List.sum_map_add, List.map_const', List.sum_replicate, Nat.nsmul_eq_mul] at hothers
  have hperm := List.perm_cons_erase hx
  have hsum := (hperm.map f).sum_nat
  have hsum' := (hperm.map f').sum_nat
  have hlength := hperm.length_eq
  rw [List.map_cons, List.sum_cons] at hsum hsum'
  rw [List.length_cons] at hlength
  rw [hlength, Nat.add_mul, Nat.one_mul] at hrise
  omega

theorem countP_lt_countP {P Q : Nat → Bool} {items : List Nat} {x : Nat}
    (hle : ∀ v ∈ items, P v = true → Q v = true) (hx : x ∈ items) (hnot : P x = false)
    (hin : Q x = true) : items.countP P < items.countP Q := by
  have hperm := List.perm_cons_erase hx
  have hrest : (items.erase x).countP P ≤ (items.erase x).countP Q :=
    List.countP_mono_left fun v hv => hle v (List.mem_of_mem_erase hv)
  rw [hperm.countP_eq, hperm.countP_eq, List.countP_cons, List.countP_cons, hnot, hin]
  simp only [Bool.false_eq_true, if_false, if_true]
  omega

theorem takeWhile_eq_filter {α : Type} {P : α → Bool} {items : List α}
    (h : items.Pairwise fun a b => P b = true → P a = true) :
    items.takeWhile P = items.filter P := by
  induction items with
  | nil => rfl
  | cons a rest ih =>
      obtain ⟨hfirst, hrest⟩ := List.pairwise_cons.1 h
      by_cases ha : P a = true
      · rw [List.takeWhile_cons_of_pos ha, List.filter_cons_of_pos ha, ih hrest]
      · rw [List.takeWhile_cons_of_neg ha, List.filter_cons_of_neg ha, eq_comm,
          List.filter_eq_nil_iff]
        intro b hb hPb
        exact ha (hfirst b hb hPb)

theorem countP_eq_add_one {P Q : Nat → Bool} {items : List Nat} {x : Nat} (hnodup : items.Nodup)
    (hx : x ∈ items) (hin : P x = true) (hnot : Q x = false)
    (hsame : ∀ v ∈ items, v ≠ x → P v = Q v) : items.countP P = items.countP Q + 1 := by
  have hperm := List.perm_cons_erase hx
  have hrest : (items.erase x).countP P = (items.erase x).countP Q := by
    apply List.countP_congr
    intro v hv
    obtain ⟨hne, hv⟩ := hnodup.mem_erase_iff.1 hv
    rw [hsame v hv hne]
  rw [hperm.countP_eq, hperm.countP_eq, List.countP_cons, List.countP_cons, hrest, hin, hnot]
  rfl

/-- What is found in a list of the values of a function at some places. -/
theorem lookup_graph {β : Type} (f : Nat → Option β) (places : List Nat) (v : Nat) :
    (places.filterMap fun u => (f u).map fun b => (u, b)).lookup v =
      if v ∈ places then f v else none := by
  induction places with
  | nil => rfl
  | cons u rest ih =>
      rw [List.filterMap_cons]
      by_cases hv : v = u
      · subst hv
        cases hf : f v with
        | none =>
            rw [hf] at ih
            simp [ih]
        | some b => simp
      · have hne : (v == u) = false := by simpa using hv
        cases hf : f u with
        | none => simpa [hv] using ih
        | some b => simpa [hv, List.lookup_cons, hne] using ih

/-- A place with what stands before it, in a list with one more entry. -/
theorem exists_place_concat {α : Type} (P : List α → α → Prop) {items : List α} {last : α} :
    (∃ i a, (items ++ [last])[i]? = some a ∧ P ((items ++ [last]).take i) a) ↔
      (∃ i a, items[i]? = some a ∧ P (items.take i) a) ∨ P items last := by
  constructor
  · rintro ⟨i, a, ha, hP⟩
    have hlt := (List.getElem?_eq_some_iff.1 ha).1
    rw [List.length_append, List.length_singleton] at hlt
    rw [List.take_append_of_le_length (Nat.le_of_lt_succ hlt)] at hP
    rcases Nat.lt_or_eq_of_le (Nat.le_of_lt_succ hlt) with hlt | rfl
    · rw [List.getElem?_append_left hlt] at ha
      exact Or.inl ⟨i, a, ha, hP⟩
    · rw [List.getElem?_concat_length] at ha
      rw [List.take_length] at hP
      exact Or.inr (Option.some.inj ha ▸ hP)
  · rintro (⟨i, a, ha, hP⟩ | hP)
    · have hlt := (List.getElem?_eq_some_iff.1 ha).1
      refine ⟨i, a, by rw [List.getElem?_append_left hlt, ha], ?_⟩
      rwa [List.take_append_of_le_length (Nat.le_of_lt hlt)]
    · exact ⟨items.length, last, List.getElem?_concat_length, by rwa [List.take_left]⟩

namespace VertexTable

variable {α : Type}

theorem entries_eq (t : VertexTable α) (default : α) :
    t.entries = (List.range t.length).map fun v => (v, t.getD v default) := by
  refine List.ext_getElem? fun i => ?_
  simp only [entries, toList, length, getD, List.getElem?_map, List.getElem?_zipIdx,
    Array.getElem?_toList, Array.getD_eq_getD_getElem?, Nat.zero_add]
  by_cases hi : i < t.rows.size
  · simp [hi]
  · simp [hi]

theorem getElem?_toList {t : VertexTable α} {v : Nat} (h : v < t.length) (default : α) :
    t.toList[v]? = some (t.getD v default) := by
  unfold length at h
  simp [toList, getD, Array.getD_eq_getD_getElem?, h]

theorem getD_of_length_le {t : VertexTable α} {v : Nat} {default : α} (h : t.length ≤ v) :
    t.getD v default = default := by
  unfold length at h
  simp [getD, Array.getD_eq_getD_getElem?, h]

end VertexTable

end ParityGames
