import ParityGames.Vertex
import ParityGames.VertexSet.Words

/-!
# Vertex sets

A set of vertices below a capacity, packed into 64-bit words. No bit at or beyond the capacity is
ever on, so two sets are equal exactly if they have the same capacity and the same elements. All
laws below speak of `contains`, which is the set's only view.
-/

namespace ParityGames

open Words (bit)

structure VertexSet where
  /-- Every element is below this number. -/
  capacity : Nat
  words : Array Word
  size_words : words.size = Words.countFor capacity
  clear_beyond : ∀ i, capacity ≤ i → bit words i = false

namespace VertexSet

instance : DecidableEq VertexSet := fun s t =>
  if h : s.capacity = t.capacity ∧ s.words = t.words then
    isTrue (by
      obtain ⟨capacity, words, _, _⟩ := s
      obtain ⟨capacity', words', _, _⟩ := t
      obtain ⟨hc, hw⟩ := h
      simp only at hc hw
      subst hc hw
      rfl)
  else isFalse fun he => h (by simp [he])

/-- Whether `v` is an element; a number at or beyond the capacity is none. -/
def contains (s : VertexSet) (v : Nat) : Bool := bit s.words v

theorem lt_capacity {s : VertexSet} {v : Nat} (h : s.contains v = true) : v < s.capacity := by
  rcases Nat.lt_or_ge v s.capacity with hv | hv
  · exact hv
  · rw [contains, s.clear_beyond v hv] at h
    cases h

theorem contains_eq_false_of_le {s : VertexSet} {v : Nat} (h : s.capacity ≤ v) :
    s.contains v = false :=
  s.clear_beyond v h

theorem ext {s t : VertexSet} (hc : s.capacity = t.capacity)
    (h : ∀ v, s.contains v = t.contains v) : s = t := by
  obtain ⟨capacity, words, hs, hb⟩ := s
  obtain ⟨capacity', words', hs', hb'⟩ := t
  simp only at hc
  subst hc
  have : words = words' := Words.ext_bit (hs.trans hs'.symm) h
  subst this
  rfl

/-! ## Construction -/

def empty (capacity : Nat) : VertexSet where
  capacity := capacity
  words := Array.replicate (Words.countFor capacity) 0#64
  size_words := by simp
  clear_beyond := fun i _ => Words.bit_replicate_zero _ i

instance : Inhabited VertexSet := ⟨empty 0⟩

theorem bit_lowestRow (capacity i : Nat) :
    bit (Array.ofFn fun j : Fin (Words.countFor capacity) =>
      Words.lowest (capacity - 64 * j.val)) i = decide (i < capacity) := by
  simp only [bit, Array.getD_eq_getD_getElem?, Array.getElem?_ofFn]
  by_cases hi : i / 64 < Words.countFor capacity
  · simp only [hi, dite_true, Option.getD_some, Words.getLsbD_lowest]
    have : i % 64 < 64 := Nat.mod_lt _ (by decide)
    by_cases h : i < capacity
    · have : i % 64 < capacity - 64 * (i / 64) := by omega
      simp_all
    · have : ¬ i % 64 < capacity - 64 * (i / 64) := by omega
      simp [h, this]
  · have : ¬ i < capacity := fun h => hi (Words.word_lt_countFor h)
    simp [hi, this]

def full (capacity : Nat) : VertexSet where
  capacity := capacity
  words := Array.ofFn fun j : Fin (Words.countFor capacity) =>
    Words.lowest (capacity - 64 * j.val)
  size_words := by simp
  clear_beyond := fun i h => by
    rw [bit_lowestRow]
    simpa using h

/-- Apply a function to the word that holds `v`; nothing happens beyond the capacity. -/
def changeWord (s : VertexSet) (v : Nat) (change : Word → Word)
    (h : ∀ x k, k ≠ v % 64 → (change x).getLsbD k = x.getLsbD k) : VertexSet :=
  if hv : v < s.capacity then
    { capacity := s.capacity
      words := s.words.modify (v / 64) change
      size_words := by simpa using s.size_words
      clear_beyond := fun i hi => by
        rw [Words.bit_modify]
        split
        · rename_i hj
          have : i % 64 ≠ v % 64 := by omega
          rw [h _ _ this, hj.1]
          exact s.clear_beyond i hi
        · exact s.clear_beyond i hi }
  else s

/-- The set with `v` put in. A number at or beyond the capacity cannot be put in. -/
def insert (s : VertexSet) (v : Nat) : VertexSet :=
  s.changeWord v (· ||| Words.single (v % 64)) fun x k hk => by
    simp [Words.single, Ne.symm hk]

def remove (s : VertexSet) (v : Nat) : VertexSet :=
  s.changeWord v (· &&& ~~~ Words.single (v % 64)) fun x k hk => by
    by_cases h : k < 64
    · simp only [BitVec.getLsbD_and, BitVec.getLsbD_not, Words.single, BitVec.getLsbD_twoPow]
      simp [h, Ne.symm hk]
    · simp [BitVec.getLsbD_of_ge _ _ (Nat.le_of_not_lt h)]

/-- Combine the words of two sets of one capacity; sets of different capacities are not
combined. -/
def zipWords (f : Word → Word → Word) (g : Bool → Bool → Bool) (hg : g false false = false)
    (hf : ∀ x y k, k < 64 → (f x y).getLsbD k = g (x.getLsbD k) (y.getLsbD k))
    (s t : VertexSet) : VertexSet :=
  if h : s.capacity = t.capacity then
    have hs : s.words.size = t.words.size := by rw [s.size_words, t.size_words, h]
    { capacity := s.capacity
      words := Array.zipWith f s.words t.words
      size_words := by simp [hs, t.size_words, h]
      clear_beyond := fun i hi => by
        rw [Words.bit_zipWith hs hg hf, s.clear_beyond i hi, t.clear_beyond i (h ▸ hi), hg] }
  else s

def union (s t : VertexSet) : VertexSet :=
  zipWords (· ||| ·) (· || ·) rfl (fun x y k _ => by simp) s t

def difference (s t : VertexSet) : VertexSet :=
  zipWords (fun x y => x &&& ~~~ y) (fun a b => a && !b) rfl
    (fun x y k hk => by simp [hk]) s t

def inter (s t : VertexSet) : VertexSet :=
  zipWords (· &&& ·) (· && ·) rfl (fun x y k _ => by simp) s t

def complement (s : VertexSet) : VertexSet := (full s.capacity).difference s

/-- The set of the listed vertices; those at or beyond the capacity are left out. -/
def ofList (capacity : Nat) (vertices : List Nat) : VertexSet :=
  vertices.foldl insert (empty capacity)

def toList (s : VertexSet) : List Nat := (List.range s.capacity).filter s.contains

def size (s : VertexSet) : Nat := (List.range s.capacity).countP s.contains

def isEmpty (s : VertexSet) : Bool := s.words.all (· == 0#64)

def disjoint (s t : VertexSet) : Bool := s.toList.all fun v => !t.contains v

def subset (s t : VertexSet) : Bool := s.toList.all t.contains

/-! ## Membership -/

@[simp] theorem capacity_empty (capacity : Nat) : (empty capacity).capacity = capacity := rfl

@[simp] theorem capacity_full (capacity : Nat) : (full capacity).capacity = capacity := rfl

@[simp] theorem contains_empty (capacity : Nat) (v : Nat) :
    (empty capacity).contains v = false :=
  Words.bit_replicate_zero _ v

@[simp] theorem contains_full (capacity : Nat) (v : Nat) :
    (full capacity).contains v = decide (v < capacity) :=
  bit_lowestRow capacity v

@[simp] theorem capacity_changeWord (s : VertexSet) (v : Nat) (change : Word → Word)
    (h : ∀ x k, k ≠ v % 64 → (change x).getLsbD k = x.getLsbD k) :
    (s.changeWord v change h).capacity = s.capacity := by
  unfold changeWord
  split <;> rfl

theorem contains_changeWord (s : VertexSet) (v : Nat) (change : Word → Word)
    (h : ∀ x k, k ≠ v % 64 → (change x).getLsbD k = x.getLsbD k) (w : Nat) :
    (s.changeWord v change h).contains w =
      if w = v ∧ v < s.capacity then
        (change (s.words.getD (v / 64) 0#64)).getLsbD (v % 64)
      else s.contains w := by
  unfold changeWord
  by_cases hv : v < s.capacity
  · simp only [hv, dite_true, contains, Words.bit_modify, and_true]
    have hw : v / 64 < s.words.size := by
      rw [s.size_words]
      exact Words.word_lt_countFor hv
    by_cases hwv : w = v
    · subst hwv
      simp [hw]
    · simp only [hwv, if_false]
      by_cases hj : v / 64 = w / 64 ∧ w / 64 < s.words.size
      · have : w % 64 ≠ v % 64 := by omega
        rw [if_pos hj, h _ _ this, hj.1]
        rfl
      · rw [if_neg hj]
  · simp [hv]

@[simp] theorem capacity_insert (s : VertexSet) (v : Nat) :
    (s.insert v).capacity = s.capacity :=
  capacity_changeWord ..

@[simp] theorem capacity_remove (s : VertexSet) (v : Nat) :
    (s.remove v).capacity = s.capacity :=
  capacity_changeWord ..

@[simp] theorem contains_insert (s : VertexSet) (v w : Nat) :
    (s.insert v).contains w = (s.contains w || (decide (w = v) && decide (v < s.capacity))) := by
  rw [insert, contains_changeWord]
  have : v % 64 < 64 := Nat.mod_lt _ (by decide)
  by_cases h : w = v ∧ v < s.capacity
  · simp only [h, and_self, if_true, BitVec.getLsbD_or, Words.single, BitVec.getLsbD_twoPow]
    simp [this]
  · rw [if_neg h]
    by_cases hw : w = v
    · have hv : ¬ v < s.capacity := fun hv => h ⟨hw, hv⟩
      simp [hv]
    · simp [hw]

@[simp] theorem contains_remove (s : VertexSet) (v w : Nat) :
    (s.remove v).contains w = (s.contains w && !decide (w = v)) := by
  rw [remove, contains_changeWord]
  have : v % 64 < 64 := Nat.mod_lt _ (by decide)
  by_cases hw : w = v
  · subst hw
    by_cases h : w < s.capacity
    · simp [h, Words.single]
    · simp [h, contains_eq_false_of_le (Nat.le_of_not_lt h)]
  · simp [hw]

theorem capacity_zipWords (f : Word → Word → Word) (g : Bool → Bool → Bool)
    (hg : g false false = false)
    (hf : ∀ x y k, k < 64 → (f x y).getLsbD k = g (x.getLsbD k) (y.getLsbD k))
    (s t : VertexSet) : (zipWords f g hg hf s t).capacity = s.capacity := by
  unfold zipWords
  split <;> rfl

theorem contains_zipWords (f : Word → Word → Word) (g : Bool → Bool → Bool)
    (hg : g false false = false)
    (hf : ∀ x y k, k < 64 → (f x y).getLsbD k = g (x.getLsbD k) (y.getLsbD k))
    {s t : VertexSet} (h : s.capacity = t.capacity) (v : Nat) :
    (zipWords f g hg hf s t).contains v = g (s.contains v) (t.contains v) := by
  have hs : s.words.size = t.words.size := by rw [s.size_words, t.size_words, h]
  simp only [zipWords, h, dite_true, contains]
  exact Words.bit_zipWith hs hg hf v

@[simp] theorem capacity_union (s t : VertexSet) : (s.union t).capacity = s.capacity :=
  capacity_zipWords ..

@[simp] theorem capacity_difference (s t : VertexSet) : (s.difference t).capacity = s.capacity :=
  capacity_zipWords ..

@[simp] theorem capacity_inter (s t : VertexSet) : (s.inter t).capacity = s.capacity :=
  capacity_zipWords ..

@[simp] theorem capacity_complement (s : VertexSet) : s.complement.capacity = s.capacity := by
  simp [complement]

theorem contains_union {s t : VertexSet} (h : s.capacity = t.capacity) (v : Nat) :
    (s.union t).contains v = (s.contains v || t.contains v) :=
  contains_zipWords _ _ _ _ h v

theorem contains_difference {s t : VertexSet} (h : s.capacity = t.capacity) (v : Nat) :
    (s.difference t).contains v = (s.contains v && !t.contains v) :=
  contains_zipWords _ _ _ _ h v

theorem contains_inter {s t : VertexSet} (h : s.capacity = t.capacity) (v : Nat) :
    (s.inter t).contains v = (s.contains v && t.contains v) :=
  contains_zipWords _ _ _ _ h v

@[simp] theorem contains_complement (s : VertexSet) (v : Nat) :
    s.complement.contains v = (decide (v < s.capacity) && !s.contains v) := by
  rw [complement, contains_difference (by simp), contains_full]

@[simp] theorem mem_toList {s : VertexSet} {v : Nat} : v ∈ s.toList ↔ s.contains v = true := by
  simp only [toList, List.mem_filter, List.mem_range, and_iff_right_iff_imp]
  exact lt_capacity

theorem toList_increasing (s : VertexSet) : s.toList.Pairwise (· < ·) :=
  List.pairwise_lt_range.filter _

theorem size_eq_length_toList (s : VertexSet) : s.size = s.toList.length :=
  List.countP_eq_length_filter

theorem isEmpty_iff {s : VertexSet} : s.isEmpty = true ↔ ∀ v, s.contains v = false := by
  constructor
  · intro h v
    simp only [isEmpty, Array.all_eq_true, beq_iff_eq] at h
    simp only [contains, bit, Array.getD_eq_getD_getElem?]
    by_cases hv : v / 64 < s.words.size
    · simp [hv, h _ hv]
    · simp [hv]
  · intro h
    have : s.words = (empty s.capacity).words :=
      Words.ext_bit (s.size_words.trans (empty s.capacity).size_words.symm) fun i => by
        rw [show bit s.words i = false from h i]
        exact (contains_empty s.capacity i).symm
    rw [isEmpty, this]
    simp [empty, -Array.size_replicate]

@[simp] theorem disjoint_iff {s t : VertexSet} :
    s.disjoint t = true ↔ ∀ v, s.contains v = true → t.contains v = false := by
  simp [disjoint]

@[simp] theorem subset_iff {s t : VertexSet} :
    s.subset t = true ↔ ∀ v, s.contains v = true → t.contains v = true := by
  simp [subset]

theorem capacity_foldl_insert (vertices : List Nat) (s : VertexSet) :
    (vertices.foldl insert s).capacity = s.capacity := by
  induction vertices generalizing s with
  | nil => rfl
  | cons v rest ih => simp [ih]

theorem contains_foldl_insert (vertices : List Nat) (s : VertexSet) (w : Nat) :
    (vertices.foldl insert s).contains w =
      (s.contains w || (decide (w ∈ vertices) && decide (w < s.capacity))) := by
  induction vertices generalizing s with
  | nil => simp
  | cons v rest ih =>
      rw [List.foldl_cons, ih, contains_insert, capacity_insert]
      by_cases hw : w = v
      · subst hw
        by_cases hm : w ∈ rest <;> simp [hm]
      · simp [hw]

@[simp] theorem capacity_ofList (capacity : Nat) (vertices : List Nat) :
    (ofList capacity vertices).capacity = capacity :=
  capacity_foldl_insert ..

@[simp] theorem contains_ofList (capacity : Nat) (vertices : List Nat) (v : Nat) :
    (ofList capacity vertices).contains v = (decide (v ∈ vertices) && decide (v < capacity)) := by
  rw [ofList, contains_foldl_insert, contains_empty, Bool.false_or]
  rfl

end VertexSet

end ParityGames
