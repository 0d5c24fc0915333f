import ParityGames.Proofs.VertexSet.Capped

/-! # Storage with bits past the capacity

The words of a set may also be kept as the whole-word operations leave them: a full set turns all
bits of its words on, complements and unions carry the bits past the capacity along, and every
question looks at the bits below the capacity alone. Such storage does as the set that is left when
the bits past the capacity are turned off.
-/

namespace ParityGames

open Words (bit)

/-- Words for the vertices below a capacity, with nothing said of the bits past it. -/
structure LooseSet where
  capacity : Nat
  words : Array Word
  size_words : words.size = Words.countFor capacity

namespace LooseSet

variable {s t : LooseSet} {v : Nat}

/-! ## Operations -/

def contains (s : LooseSet) (v : Nat) : Bool := decide (v < s.capacity) && bit s.words v

def filled (capacity : Nat) (word : Word) : LooseSet :=
  ⟨capacity, Array.replicate (Words.countFor capacity) word, by simp⟩

def create (capacity : Nat) (word : Word) : Except Fault LooseSet := do
  VertexSet.checkCapacity capacity
  return filled capacity word

def combineWords : Combination → Word → Word → Word
  | .union => fun x y => x ||| y
  | .difference => fun x y => x &&& ~~~ y
  | .intersection => fun x y => x &&& y

theorem size_eq (h : s.capacity = t.capacity) : s.words.size = t.words.size := by
  rw [s.size_words, t.size_words, h]

/-- Combine two sets word by word, the last word as a whole. -/
def combine (how : Combination) (s t : LooseSet) (h : s.capacity = t.capacity) : LooseSet :=
  ⟨s.capacity, Array.zipWith (combineWords how) s.words t.words, by
    rw [Array.size_zipWith, ← size_eq h, Nat.min_self, s.size_words]⟩

def complement (s : LooseSet) : LooseSet :=
  combine .difference (filled s.capacity (BitVec.allOnes 64)) s rfl

def changeWord (s : LooseSet) (v : Nat) (change : Word → Word) : LooseSet :=
  ⟨s.capacity, s.words.modify (v / 64) change, by rw [Array.size_modify, s.size_words]⟩

def add (s : LooseSet) (v : Nat) : Except Fault (LooseSet × Bool) :=
  if v < s.capacity then
    .ok (s.changeWord v (· ||| Words.single (v % 64)), !bit s.words v)
  else .error .outsideTable

def take (s : LooseSet) (v : Nat) : Except Fault (LooseSet × Bool) :=
  if v < s.capacity then
    .ok (s.changeWord v (· &&& ~~~ Words.single (v % 64)), bit s.words v)
  else .error .outsideTable

def extend (s : LooseSet) : List Nat → LooseSet × Option Fault
  | [] => (s, none)
  | v :: rest =>
      match s.add v with
      | .ok (next, _) => next.extend rest
      | .error fault => (s, some fault)

def createOf (capacity : Nat) (vertices : List Nat) : Except Fault LooseSet := do
  match (← create capacity 0#64).extend vertices with
  | (s, none) => return s
  | (_, some fault) => throw fault

def toList (s : LooseSet) : List Nat := (List.range s.capacity).filter (bit s.words)

def operations : SetOperations LooseSet where
  create capacity := create capacity 0#64
  createFull capacity := create capacity (BitVec.allOnes 64)
  createOf := createOf
  complement := complement
  add := add
  take := take
  extend := extend
  combine how s t :=
    if h : s.capacity = t.capacity then .ok (combine how s t h) else .error .capacityMismatch
  capacity := capacity
  size s := (List.range s.capacity).countP (bit s.words)
  isEmpty s := (List.range s.capacity).all fun v => !bit s.words v
  toList := toList
  contains := contains
  same s t := decide (s.capacity = t.capacity) &&
    (List.range s.capacity).all fun v => bit s.words v == bit t.words v
  subset s t := s.toList.all t.contains
  apart s t :=
    if s.capacity = t.capacity then .ok (s.toList.all fun v => !t.contains v)
    else .error .unequalCapacities

/-! ## Turning the bits past the capacity off -/

theorem size_full (s : LooseSet) : s.words.size = (VertexSet.full s.capacity).words.size :=
  s.size_words.trans (VertexSet.full s.capacity).size_words.symm

/-- The set that is left when the bits past the capacity are turned off. -/
def trimmed (s : LooseSet) : VertexSet where
  capacity := s.capacity
  words := Array.zipWith (· &&& ·) s.words (VertexSet.full s.capacity).words
  size_words := by
    rw [Array.size_zipWith, ← size_full, Nat.min_self, s.size_words]
  clear_beyond := fun i hi => by
    rw [Words.bit_zipWith (size_full s) (g := and) rfl fun x y k _ => BitVec.getLsbD_and,
      (VertexSet.full s.capacity).clear_beyond i hi, Bool.and_false]

@[simp] theorem capacity_trimmed (s : LooseSet) : s.trimmed.capacity = s.capacity := rfl

@[simp] theorem contains_trimmed (s : LooseSet) (v : Nat) :
    s.trimmed.contains v = s.contains v := by
  show bit (Array.zipWith _ _ _) v = _
  rw [Words.bit_zipWith (size_full s) (g := and) rfl fun x y k _ => BitVec.getLsbD_and, contains,
    Bool.and_comm]
  exact congrArg (· && bit s.words v) (VertexSet.contains_full s.capacity v)

theorem bit_eq_contains (h : v < s.capacity) : bit s.words v = s.contains v := by
  rw [contains, decide_eq_true h, Bool.true_and]

theorem contains_filled {word : Word} {on : Bool} (hword : ∀ k, k < 64 → word.getLsbD k = on)
    (capacity v : Nat) :
    (filled capacity word).contains v = (decide (v < capacity) && on) := by
  by_cases hv : v < capacity
  · have hlt : v / 64 < Words.countFor capacity := Words.word_lt_countFor hv
    have hbit : bit (Array.replicate (Words.countFor capacity) word) v = on := by
      rw [bit, Array.getD_eq_getD_getElem?, Array.getElem?_replicate, if_pos hlt]
      exact hword _ (Nat.mod_lt _ (by decide))
    exact congrArg (decide (v < capacity) && ·) hbit
  · simp [contains, filled, hv]

theorem trimmed_empty (capacity : Nat) :
    (filled capacity 0#64).trimmed = VertexSet.empty capacity :=
  VertexSet.ext rfl fun v => by
    rw [contains_trimmed, contains_filled fun k _ => BitVec.getLsbD_zero,
      VertexSet.contains_empty, Bool.and_false]

theorem trimmed_full (capacity : Nat) :
    (filled capacity (BitVec.allOnes 64)).trimmed = VertexSet.full capacity :=
  VertexSet.ext rfl fun v => by
    have hword : ∀ k, k < 64 → (BitVec.allOnes 64).getLsbD k = true := fun k hk => by
      rw [BitVec.getLsbD_allOnes, decide_eq_true hk]
    rw [contains_trimmed, contains_filled hword, VertexSet.contains_full, Bool.and_true]

theorem bit_combine (how : Combination) (h : s.capacity = t.capacity) (v : Nat) :
    bit (combine how s t h).words v = how.holds (bit s.words v) (bit t.words v) := by
  have hoff : how.holds false false = false := by cases how <;> rfl
  refine Words.bit_zipWith (size_eq h) hoff (fun x y k hk => ?_) v
  cases how <;> simp [combineWords, Combination.holds, hk]

/-- Whole words combine to what the trimmed sets combine to. -/
theorem trimmed_combine (how : Combination) (h : s.capacity = t.capacity) :
    (combine how s t h).trimmed = VertexSet.combination s.trimmed t.trimmed how := by
  refine VertexSet.ext (VertexSet.capacity_combination s.trimmed t.trimmed how).symm fun v => ?_
  rw [VertexSet.contains_combination how h, contains_trimmed, contains_trimmed, contains_trimmed]
  -- The combined words may differ past the capacity, where `contains` does not look.
  rw [contains, contains, contains, bit_combine, ← h]
  show (decide (v < s.capacity) && _) = _
  cases how <;> cases decide (v < s.capacity) <;> simp [Combination.holds]

theorem trimmed_complement (s : LooseSet) : s.complement.trimmed = s.trimmed.complement := by
  have hcombine := trimmed_combine (s := filled s.capacity (BitVec.allOnes 64)) .difference
    (t := s) rfl
  rw [trimmed_full] at hcombine
  exact hcombine

/-- Changing the bit of one vertex changes what the set has of this vertex. -/
theorem contains_changeWord {change : Word → Word} {on : Bool} (hv : v < s.capacity)
    (hword : ∀ x : Word, ∀ k, k < 64 →
      (change x).getLsbD k = if k = v % 64 then on else x.getLsbD k) (w : Nat) :
    (s.changeWord v change).contains w = if w = v then on else s.contains w := by
  have hin : v / 64 < s.words.size := by
    rw [s.size_words]
    exact Words.word_lt_countFor hv
  have hbit : bit (s.changeWord v change).words w = if w = v then on else bit s.words w := by
    rw [changeWord, Words.bit_modify]
    by_cases hw : v / 64 = w / 64
    · rw [if_pos ⟨hw, hw ▸ hin⟩, hword _ _ (Nat.mod_lt _ (by decide)), hw]
      have hsame : w % 64 = v % 64 ↔ w = v := ⟨fun h => by omega, fun h => by rw [h]⟩
      simp only [hsame]
      rfl
    · rw [if_neg (fun h => hw h.1), if_neg (fun h => hw (by rw [h]))]
  rw [contains, hbit, contains]
  show (decide (w < s.capacity) && _) = _
  by_cases hw : w = v
  · rw [if_pos hw, if_pos hw, hw, decide_eq_true hv, Bool.true_and]
  · rw [if_neg hw, if_neg hw]

theorem trimmed_insert (hv : v < s.capacity) :
    (s.changeWord v (· ||| Words.single (v % 64))).trimmed = s.trimmed.insert v := by
  refine VertexSet.ext (by simp [changeWord]) fun w => ?_
  have hword : ∀ x : Word, ∀ k, k < 64 →
      (x ||| Words.single (v % 64)).getLsbD k = if k = v % 64 then true else x.getLsbD k := by
    intro x k hk
    by_cases h : k = v % 64
    · subst h
      simp [Words.single, hk]
    · simp [Words.single, h, Ne.symm h]
  rw [contains_trimmed, contains_changeWord hv hword, VertexSet.contains_insert, contains_trimmed]
  by_cases hw : w = v <;> simp [hw, hv]

theorem trimmed_remove (hv : v < s.capacity) :
    (s.changeWord v (· &&& ~~~ Words.single (v % 64))).trimmed = s.trimmed.remove v := by
  refine VertexSet.ext (by simp [changeWord]) fun w => ?_
  have hword : ∀ x : Word, ∀ k, k < 64 →
      (x &&& ~~~ Words.single (v % 64)).getLsbD k = if k = v % 64 then false else x.getLsbD k := by
    intro x k hk
    by_cases h : k = v % 64
    · simp [Words.single, h]
    · simp [Words.single, h, hk]
  rw [contains_trimmed, contains_changeWord hv hword, VertexSet.contains_remove, contains_trimmed]
  by_cases hw : w = v <;> simp [hw]

theorem trimmed_add (s : LooseSet) (v : Nat) :
    s.trimmed.add v = (s.add v).map (Prod.map trimmed id) := by
  unfold add VertexSet.add
  by_cases hv : v < s.capacity
  · simp [hv, Except.map, trimmed_insert hv, bit_eq_contains hv]
  · simp [hv, Except.map]

theorem trimmed_take (s : LooseSet) (v : Nat) :
    s.trimmed.take v = (s.take v).map (Prod.map trimmed id) := by
  unfold take VertexSet.take
  by_cases hv : v < s.capacity
  · simp [hv, Except.map, trimmed_remove hv, bit_eq_contains hv]
  · simp [hv, Except.map]

theorem trimmed_extend (s : LooseSet) (vertices : List Nat) :
    s.trimmed.extend vertices = Prod.map trimmed id (s.extend vertices) := by
  induction vertices generalizing s with
  | nil => rfl
  | cons v rest ih =>
      rw [VertexSet.extend, trimmed_add, extend]
      cases s.add v with
      | error fault => rfl
      | ok change => exact ih change.1

theorem trimmed_createOf (capacity : Nat) (vertices : List Nat) :
    VertexSet.createOf capacity vertices = (createOf capacity vertices).map trimmed := by
  rw [VertexSet.createOf, createOf, VertexSet.create, create]
  cases VertexSet.checkCapacity capacity with
  | error fault => rfl
  | ok =>
      simp only [ok_bind, pure, Except.pure, ← trimmed_empty, trimmed_extend]
      obtain ⟨s, _ | fault⟩ := (filled capacity 0#64).extend vertices <;> rfl

theorem same_trimmed (s t : LooseSet) : s.trimmed = t.trimmed ↔
    s.capacity = t.capacity ∧ ∀ v < s.capacity, bit s.words v = bit t.words v := by
  constructor
  · intro h
    have hcapacity : s.capacity = t.capacity := congrArg VertexSet.capacity h
    refine ⟨hcapacity, fun v hv => ?_⟩
    rw [bit_eq_contains hv, bit_eq_contains (hcapacity ▸ hv), ← contains_trimmed, h,
      contains_trimmed]
  · rintro ⟨hcapacity, hbits⟩
    refine VertexSet.ext hcapacity fun v => ?_
    rw [contains_trimmed, contains_trimmed, contains, contains, ← hcapacity]
    by_cases hv : v < s.capacity
    · rw [hbits v hv]
    · rw [decide_eq_false hv, Bool.false_and, Bool.false_and]

theorem toList_trimmed (s : LooseSet) : s.trimmed.toList = s.toList :=
  List.filter_congr fun v hv => by
    rw [contains_trimmed, bit_eq_contains (List.mem_range.1 hv)]

open SetOperations

/-- Loose storage does as the sets that it is trimmed to. -/
theorem simulates_trimmed : Simulates operations VertexSet.operations trimmed where
  create capacity := by
    show VertexSet.create capacity = (create capacity 0#64).map trimmed
    rw [VertexSet.create, create]
    cases VertexSet.checkCapacity capacity with
    | error fault => rfl
    | ok => exact congrArg Except.ok (trimmed_empty capacity).symm
  createFull capacity := by
    show VertexSet.createFull capacity = (create capacity (BitVec.allOnes 64)).map trimmed
    rw [VertexSet.createFull, create]
    cases VertexSet.checkCapacity capacity with
    | error fault => rfl
    | ok => exact congrArg Except.ok (trimmed_full capacity).symm
  createOf := trimmed_createOf
  complement s := (trimmed_complement s).symm
  add := trimmed_add
  take := trimmed_take
  extend := trimmed_extend
  combine how s t := by
    show _ = (if h : s.capacity = t.capacity then _ else _ : Except Fault LooseSet).map trimmed
    by_cases h : s.capacity = t.capacity
    · rw [dif_pos h, Except.map, trimmed_combine]
      cases how <;> exact VertexSet.combine_of_eq h
    · rw [dif_neg h]
      cases how <;> exact VertexSet.combine_of_ne h
  capacity s := rfl
  size s := by
    show s.trimmed.size = (List.range s.capacity).countP (bit s.words)
    rw [VertexSet.size_eq_length_toList, toList_trimmed, List.countP_eq_length_filter, toList]
  isEmpty s := by
    show s.trimmed.isEmpty = (List.range s.capacity).all fun v => !bit s.words v
    rw [Bool.eq_iff_iff, VertexSet.isEmpty_iff]
    simp [contains]
  toList := toList_trimmed
  contains := contains_trimmed
  same s t := by
    show decide (s.trimmed = t.trimmed) = (decide (s.capacity = t.capacity) && _)
    rw [Bool.eq_iff_iff, decide_eq_true_eq, same_trimmed]
    simp
  subset s t := by
    show s.trimmed.toList.all t.trimmed.contains = s.toList.all t.contains
    rw [toList_trimmed, show t.trimmed.contains = t.contains from funext (contains_trimmed t)]
  apart s t := by
    show s.trimmed.apart t.trimmed = if s.capacity = t.capacity then _ else _
    simp only [VertexSet.apart, VertexSet.disjoint, toList_trimmed, contains_trimmed,
      capacity_trimmed]

end LooseSet

end ParityGames
