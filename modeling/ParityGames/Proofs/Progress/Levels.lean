import ParityGames.Progress.Measure
import ParityGames.Proofs.Data.Choosing
import Mathlib.Algebra.Ring.Nat
import Mathlib.Data.List.Forall2

/-! # Measures as numbers

Counters within their bounds are the digits of a number, the counter of the greatest priority being
the leading one, and the top measure is the number after the last. Comparing measures compares these
numbers, and raising a measure rounds its number down, or up to the next.
-/

namespace ParityGames

namespace Measure

/-- How many values the counters can take. -/
def volume (bounds : List Nat) : Nat := bounds.foldr (fun bound rest => (bound + 1) * rest) 1

def value : List Nat → List Nat → Nat
  | bound :: bounds, counter :: counters => counter + (bound + 1) * value bounds counters
  | _, _ => 0

def level (bounds : List Nat) : Measure → Nat
  | .finite counters => value bounds counters
  | .top => volume bounds

def Fits (bounds : List Nat) : Measure → Prop
  | .finite counters => List.Forall₂ (· ≤ ·) counters bounds
  | .top => True

/-- Every other bound is zero, from the second on. -/
def Spaced : List Nat → Prop
  | [] => True
  | [_] => True
  | _ :: skipped :: rest => skipped = 0 ∧ Spaced rest

variable {bounds counters other : List Nat}

@[simp] theorem volume_nil : volume [] = 1 := rfl

@[simp] theorem volume_cons (bound : Nat) (bounds : List Nat) :
    volume (bound :: bounds) = (bound + 1) * volume bounds := rfl

theorem volume_pos (bounds : List Nat) : 0 < volume bounds := by
  induction bounds with
  | nil => exact Nat.one_pos
  | cons bound bounds ih => exact Nat.mul_pos (Nat.succ_pos bound) ih

theorem volume_eq_prod (bounds : List Nat) : volume bounds = (bounds.map (· + 1)).prod := by
  induction bounds with
  | nil => rfl
  | cons bound bounds ih => rw [volume_cons, ih, List.map_cons, List.prod_cons]

theorem volume_append (bounds rest : List Nat) :
    volume (bounds ++ rest) = volume bounds * volume rest := by
  induction bounds with
  | nil => rw [List.nil_append, volume_nil, Nat.one_mul]
  | cons bound bounds ih => rw [List.cons_append, volume_cons, volume_cons, ih, Nat.mul_assoc]

theorem volume_take_mul_drop (bounds : List Nat) (k : Nat) :
    volume (bounds.take k) * volume (bounds.drop k) = volume bounds := by
  rw [← volume_append, List.take_append_drop]

theorem value_lt (h : List.Forall₂ (· ≤ ·) counters bounds) :
    value bounds counters < volume bounds := by
  induction h with
  | nil => exact Nat.one_pos
  | @cons counter bound counters bounds hle _ ih =>
      have hnext := Nat.mul_le_mul_left (bound + 1) (Nat.succ_le_of_lt ih)
      rw [Nat.mul_succ] at hnext
      unfold value
      rw [volume_cons]
      omega

theorem value_take_drop (h : counters.length = bounds.length) (k : Nat) :
    value bounds counters = value (bounds.take k) (counters.take k) +
      volume (bounds.take k) * value (bounds.drop k) (counters.drop k) := by
  induction k generalizing bounds counters with
  | zero => simp [value]
  | succ k ih =>
      cases bounds with
      | nil => cases counters <;> simp [value]
      | cons bound bounds =>
          cases counters with
          | nil => cases h
          | cons counter counters =>
              have hrest := @ih bounds counters (Nat.succ.inj h)
              simp only [List.take_succ_cons, List.drop_succ_cons, value, volume_cons]
              rw [hrest, Nat.mul_add, Nat.mul_assoc, Nat.add_assoc]

theorem value_replicate_append {k : Nat} (hk : k ≤ bounds.length) (rest : List Nat) :
    value bounds (List.replicate k 0 ++ rest) =
      volume (bounds.take k) * value (bounds.drop k) rest := by
  induction k generalizing bounds with
  | zero => simp
  | succ k ih =>
      cases bounds with
      | nil => cases hk
      | cons bound bounds =>
          have hrest := ih (Nat.le_of_succ_le_succ hk)
          rw [List.replicate_succ, List.cons_append, value, hrest, List.take_succ_cons,
            List.drop_succ_cons, volume_cons, Nat.mul_assoc, Nat.zero_add]

theorem forall₂_replicate_append {k : Nat} (hk : k ≤ bounds.length) {rest : List Nat}
    (h : List.Forall₂ (· ≤ ·) rest (bounds.drop k)) :
    List.Forall₂ (· ≤ ·) (List.replicate k 0 ++ rest) bounds := by
  induction k generalizing bounds with
  | zero => exact h
  | succ k ih =>
      cases bounds with
      | nil => cases hk
      | cons bound bounds =>
          rw [List.replicate_succ, List.cons_append]
          exact List.Forall₂.cons (Nat.zero_le bound) (ih (Nat.le_of_succ_le_succ hk) h)

theorem value_mono (h : List.Forall₂ (· ≤ ·) counters other) :
    value bounds counters ≤ value bounds other := by
  induction h generalizing bounds with
  | nil => exact Nat.le_refl _
  | @cons x y _ _ hle _ ih =>
      cases bounds with
      | nil => exact Nat.le_refl _
      | cons bound bounds =>
          have hrest := Nat.mul_le_mul_left (bound + 1) (@ih bounds)
          unfold value
          omega

/-! ## Order -/

theorem compareLex_concat {a b : List Nat} (h : a.length = b.length) (x y : Nat) :
    List.compareLex compare (a ++ [x]) (b ++ [y]) =
      (List.compareLex compare a b).then (compare x y) := by
  induction a generalizing b with
  | nil =>
      cases b with
      | nil => simp [List.compareLex_cons_cons, List.compareLex_nil_nil]
      | cons _ _ => cases h
  | cons u a ih =>
      cases b with
      | nil => cases h
      | cons w b =>
          have hrest := ih (Nat.succ.inj h)
          rw [List.cons_append, List.cons_append, List.compareLex_cons_cons,
            List.compareLex_cons_cons, hrest]
          cases compare u w <;> rfl

theorem compareLex_reverse (h : List.Forall₂ (· ≤ ·) counters bounds)
    (h' : List.Forall₂ (· ≤ ·) other bounds) :
    List.compareLex compare counters.reverse other.reverse =
      compare (value bounds counters) (value bounds other) := by
  induction h generalizing other with
  | nil =>
      cases h'
      rfl
  | cons hle hrest ih =>
      cases h' with
      | cons hle' hrest' =>
          have hlength := hrest.length_eq.trans hrest'.length_eq.symm
          rw [List.reverse_cons, List.reverse_cons, compareLex_concat (by simpa using hlength),
            ih hrest', compare_digits (Nat.lt_succ_of_le hle) (Nat.lt_succ_of_le hle')]
          rfl

theorem level_le {m : Measure} (h : m.Fits bounds) : m.level bounds ≤ volume bounds := by
  cases m with
  | finite counters => exact Nat.le_of_lt (value_lt h)
  | top => exact Nat.le_refl _

theorem isTop_iff {m : Measure} (h : m.Fits bounds) :
    m.isTop = true ↔ m.level bounds = volume bounds := by
  cases m with
  | finite counters =>
      have hlt := value_lt h
      simp only [isTop, level, Bool.false_eq_true, false_iff]
      omega
  | top => simp [isTop, level]

theorem cmp_eq_compare {a b : Measure} (ha : a.Fits bounds) (hb : b.Fits bounds) :
    cmp a b = compare (a.level bounds) (b.level bounds) := by
  cases a with
  | finite counters =>
      cases b with
      | finite other => exact compareLex_reverse ha hb
      | top => exact (Nat.compare_eq_lt.2 (value_lt ha)).symm
  | top =>
      cases b with
      | finite other => exact (Nat.compare_eq_gt.2 (value_lt hb)).symm
      | top => exact (Nat.compare_eq_eq.2 rfl).symm

theorem cmp_eq_iff {a b : Measure} : cmp a b = .eq ↔ a = b := by
  cases a with
  | finite counters =>
      cases b with
      | finite other =>
          rw [cmp, Std.LawfulEqCmp.compare_eq_iff_eq, List.reverse_inj, Measure.finite.injEq]
      | top => simp [cmp]
  | top => cases b <;> simp [cmp]

theorem eq_of_level_eq {a b : Measure} (ha : a.Fits bounds) (hb : b.Fits bounds)
    (h : a.level bounds = b.level bounds) : a = b := by
  rw [← cmp_eq_iff, cmp_eq_compare ha hb]
  exact Nat.compare_eq_eq.2 h

theorem cmp_ne_gt_iff {a b : Measure} (ha : a.Fits bounds) (hb : b.Fits bounds) :
    cmp a b ≠ .gt ↔ a.level bounds ≤ b.level bounds := by
  rw [cmp_eq_compare ha hb, Ne, Nat.compare_eq_gt, Nat.not_lt]

/-! ## Raising -/

theorem increment_spec (hspaced : Spaced bounds) (h : List.Forall₂ (· ≤ ·) counters bounds) :
    (∃ raised, increment bounds counters = some raised ∧ List.Forall₂ (· ≤ ·) raised bounds ∧
      value bounds raised = value bounds counters + 1) ∨
    increment bounds counters = none ∧ value bounds counters + 1 = volume bounds := by
  induction bounds, counters using increment.induct with
  | case1 bound bounds counter counters hlt =>
      cases h with
      | cons _ hrest =>
          refine Or.inl ⟨_, by unfold increment; exact if_pos hlt, List.Forall₂.cons hlt hrest, ?_⟩
          unfold value
          omega
  | case2 bound counter hnot skippedBound bounds skipped counters ih =>
      obtain ⟨hzero, hspaced'⟩ := hspaced
      cases h with
      | cons hle hrest =>
          cases hrest with
          | cons hskipped hrest =>
              obtain rfl : counter = bound := by omega
              obtain rfl : skipped = 0 := by omega
              subst hzero
              have hstep : increment (counter :: 0 :: bounds) (counter :: 0 :: counters) =
                  (increment bounds counters).map fun rest => 0 :: 0 :: rest := by
                rw [increment, if_neg hnot]
              rcases ih hspaced' hrest with ⟨raised, hraised, hfits, hvalue⟩ | ⟨hnone, hvalue⟩
              · refine Or.inl ⟨0 :: 0 :: raised, by rw [hstep, hraised]; rfl, ?_, ?_⟩
                · exact List.Forall₂.cons (Nat.zero_le _) (List.Forall₂.cons hskipped hfits)
                · simp only [value, hvalue, Nat.mul_add, Nat.mul_one]
                  omega
              · refine Or.inr ⟨by rw [hstep, hnone]; rfl, ?_⟩
                simp only [value, volume_cons, ← hvalue, Nat.mul_add, Nat.mul_one]
                omega
  | case3 bound bounds counter counters hnot hstop =>
      cases h with
      | cons hle hrest =>
          cases hrest with
          | nil =>
              refine Or.inr ⟨by simp [increment, hnot], ?_⟩
              simp only [value, volume_cons, volume_nil]
              omega
          | cons _ _ => exact absurd rfl (hstop _ _ _ _ rfl)
  | case4 bounds counters hstop =>
      cases h with
      | nil => exact Or.inr ⟨by simp [increment], rfl⟩
      | cons _ _ => exact absurd rfl (hstop _ _ _ _ rfl)

def raisedLevel (bounds : List Nat) (priority : Nat) (strictly : Bool) (x : Nat) : Nat :=
  if strictly then
    min ((x / volume (bounds.take priority) + 1) * volume (bounds.take priority)) (volume bounds)
  else x / volume (bounds.take priority) * volume (bounds.take priority)

theorem value_div (h : List.Forall₂ (· ≤ ·) counters bounds) (k : Nat) :
    value bounds counters / volume (bounds.take k) = value (bounds.drop k) (counters.drop k) := by
  have hlow := value_lt (List.forall₂_take k h)
  rw [value_take_drop h.length_eq k, Nat.add_mul_div_left _ _ (volume_pos _),
    Nat.div_eq_of_lt hlow, Nat.zero_add]

theorem raise_spec {priority : Nat} {strictly : Bool} {m : Measure}
    (hpriority : priority ≤ bounds.length)
    (hspaced : strictly = true → Spaced (bounds.drop priority)) (h : m.Fits bounds) :
    (m.raise bounds priority strictly).Fits bounds ∧
      (m.raise bounds priority strictly).level bounds =
        raisedLevel bounds priority strictly (m.level bounds) := by
  have hvolume := volume_take_mul_drop bounds priority
  have hpos := volume_pos (bounds.take priority)
  cases m with
  | top =>
      refine ⟨trivial, ?_⟩
      have hdiv : volume bounds / volume (bounds.take priority) *
          volume (bounds.take priority) = volume bounds := by
        rw [← hvolume, Nat.mul_div_cancel_left _ hpos, Nat.mul_comm]
      cases strictly with
      | false => exact hdiv.symm
      | true =>
          simp only [raise, level, raisedLevel, if_true]
          rw [Nat.add_mul, hdiv]
          omega
  | finite counters =>
      have hdrop : List.Forall₂ (· ≤ ·) (counters.drop priority) (bounds.drop priority) :=
        List.forall₂_drop priority h
      have hlt := value_lt hdrop
      cases strictly with
      | false =>
          refine ⟨forall₂_replicate_append hpriority hdrop, ?_⟩
          simp only [raise, level, raisedLevel, Bool.false_eq_true, if_false]
          rw [value_replicate_append hpriority, value_div h, Nat.mul_comm]
      | true =>
          have hnext := Nat.mul_le_mul_left (volume (bounds.take priority)) (Nat.succ_le_of_lt hlt)
          rw [hvolume] at hnext
          rcases increment_spec (hspaced rfl) hdrop with ⟨raised, hraised, hfits, hvalue⟩ |
            ⟨hnone, hvalue⟩
          · have hraise : (Measure.finite counters).raise bounds priority true =
                .finite (List.replicate priority 0 ++ raised) := by
              simp [raise, hraised]
            rw [hraise]
            refine ⟨forall₂_replicate_append hpriority hfits, ?_⟩
            simp only [level, raisedLevel, if_true]
            rw [value_replicate_append hpriority, hvalue, value_div h, Nat.mul_comm]
            exact (Nat.min_eq_left (Nat.mul_comm _ _ ▸ hnext)).symm
          · have hraise : (Measure.finite counters).raise bounds priority true = .top := by
              simp [raise, hnone]
            rw [hraise]
            refine ⟨trivial, ?_⟩
            simp only [level, raisedLevel, if_true]
            rw [value_div h, hvalue, Nat.mul_comm, hvolume, Nat.min_self]

theorem raisedLevel_le_iff {priority x y : Nat} {strictly : Bool} (hy : y < volume bounds) :
    raisedLevel bounds priority strictly x ≤ y ↔
      if strictly then x / volume (bounds.take priority) < y / volume (bounds.take priority)
      else x / volume (bounds.take priority) ≤ y / volume (bounds.take priority) := by
  have hpos := volume_pos (bounds.take priority)
  cases strictly with
  | false =>
      simp only [raisedLevel, Bool.false_eq_true, if_false]
      rw [Nat.le_div_iff_mul_le hpos]
  | true =>
      simp only [raisedLevel, if_true]
      rw [← Nat.succ_le_iff, Nat.le_div_iff_mul_le hpos, Nat.succ_eq_add_one]
      omega

theorem raisedLevel_mono {priority x y : Nat} {strictly : Bool} (hxy : x ≤ y) :
    raisedLevel bounds priority strictly x ≤ raisedLevel bounds priority strictly y := by
  have hdiv := @Nat.div_le_div_right x y (volume (bounds.take priority)) hxy
  cases strictly with
  | false => exact Nat.mul_le_mul_right _ hdiv
  | true =>
      have hmul := Nat.mul_le_mul_right (volume (bounds.take priority))
        (Nat.add_le_add_right hdiv 1)
      simp only [raisedLevel, if_true]
      omega

theorem volume_le_raisedLevel {priority x : Nat} {strictly : Bool} (hx : volume bounds ≤ x) :
    volume bounds ≤ raisedLevel bounds priority strictly x := by
  have hvolume := volume_take_mul_drop bounds priority
  have hpos := volume_pos (bounds.take priority)
  have hdiv : volume (bounds.drop priority) ≤ x / volume (bounds.take priority) := by
    rw [Nat.le_div_iff_mul_le hpos, Nat.mul_comm, hvolume]
    exact hx
  have hmul := Nat.mul_le_mul_left (volume (bounds.take priority)) hdiv
  rw [hvolume, Nat.mul_comm] at hmul
  cases strictly with
  | false => exact hmul
  | true =>
      simp only [raisedLevel, if_true]
      rw [Nat.add_mul]
      omega

theorem spaced_of_getElem? {bounds : List Nat}
    (h : ∀ i bound, i % 2 = 1 → bounds[i]? = some bound → bound = 0) : Spaced bounds := by
  induction bounds using Spaced.induct with
  | case1 => trivial
  | case2 bound => trivial
  | case3 bound skipped rest ih =>
      refine ⟨h 1 skipped rfl rfl, ih fun i bound hi hget => ?_⟩
      exact h (i + 2) bound (by omega) hget

end Measure

end ParityGames
