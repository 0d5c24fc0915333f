/-!
# Sorted maps

Finite maps from numbers to values, held as a list of entries with strictly increasing keys. Two
maps with the same look-ups are equal, and the last entry is the one with the greatest key.
-/

namespace ParityGames

def IncreasingKeys {α : Type} (entries : List (Nat × α)) : Prop :=
  entries.Pairwise (fun a b => a.1 < b.1)

instance {α : Type} (entries : List (Nat × α)) : Decidable (IncreasingKeys entries) :=
  inferInstanceAs (Decidable (List.Pairwise _ _))

/-- A finite map with numbers as keys. -/
structure SortedMap (α : Type) where
  entries : List (Nat × α)
  increasing : IncreasingKeys entries
deriving DecidableEq

namespace SortedMap

variable {α β : Type}

/-! ## Entry lists -/

def insertEntry (key : Nat) (value : α) : List (Nat × α) → List (Nat × α)
  | [] => [(key, value)]
  | entry :: rest =>
      if key < entry.1 then (key, value) :: entry :: rest
      else if key = entry.1 then (key, value) :: rest
      else entry :: insertEntry key value rest

def eraseEntry (key : Nat) : List (Nat × α) → List (Nat × α)
  | [] => []
  | entry :: rest => if key = entry.1 then rest else entry :: eraseEntry key rest

def lookupEntry (key : Nat) : List (Nat × α) → Option α
  | [] => none
  | entry :: rest => if key = entry.1 then some entry.2 else lookupEntry key rest

theorem mem_insertEntry {key : Nat} {value : α} {entry : Nat × α} {entries : List (Nat × α)}
    (h : entry ∈ insertEntry key value entries) : entry = (key, value) ∨ entry ∈ entries := by
  induction entries with
  | nil => simp_all [insertEntry]
  | cons head rest ih =>
      simp only [insertEntry] at h
      split at h
      · simpa using h
      · split at h
        · rcases List.mem_cons.1 h with h | h
          · exact .inl h
          · exact .inr (List.mem_cons_of_mem _ h)
        · rcases List.mem_cons.1 h with h | h
          · exact .inr (by simp [h])
          · exact (ih h).imp id (List.mem_cons_of_mem _)

theorem mem_eraseEntry {key : Nat} {entry : Nat × α} {entries : List (Nat × α)}
    (h : entry ∈ eraseEntry key entries) : entry ∈ entries := by
  induction entries with
  | nil => simp_all [eraseEntry]
  | cons head rest ih =>
      simp only [eraseEntry] at h
      split at h
      · exact List.mem_cons_of_mem _ h
      · rcases List.mem_cons.1 h with h | h
        · simp [h]
        · exact List.mem_cons_of_mem _ (ih h)

theorem increasing_insertEntry (key : Nat) (value : α) {entries : List (Nat × α)}
    (h : IncreasingKeys entries) : IncreasingKeys (insertEntry key value entries) := by
  induction entries with
  | nil => simp [insertEntry, IncreasingKeys]
  | cons head rest ih =>
      obtain ⟨below, tail⟩ := List.pairwise_cons.1 h
      simp only [insertEntry]
      split
      · rename_i hlt
        refine List.pairwise_cons.2 ⟨?_, h⟩
        intro entry hmem
        rcases List.mem_cons.1 hmem with he | hr
        · simpa [he] using hlt
        · exact Nat.lt_trans hlt (below entry hr)
      · split
        · rename_i heq
          exact List.pairwise_cons.2 ⟨fun entry hr => by simpa [heq] using below entry hr, tail⟩
        · refine List.pairwise_cons.2 ⟨?_, ih tail⟩
          intro entry hmem
          rcases mem_insertEntry hmem with he | hr
          · simp only [he]
            omega
          · exact below entry hr

theorem increasing_eraseEntry (key : Nat) {entries : List (Nat × α)}
    (h : IncreasingKeys entries) : IncreasingKeys (eraseEntry key entries) := by
  induction entries with
  | nil => simp [eraseEntry, IncreasingKeys]
  | cons head rest ih =>
      obtain ⟨below, tail⟩ := List.pairwise_cons.1 h
      simp only [eraseEntry]
      split
      · exact tail
      · exact List.pairwise_cons.2 ⟨fun entry hr => below entry (mem_eraseEntry hr), ih tail⟩

theorem lookupEntry_insertEntry (key : Nat) (value : α) (entries : List (Nat × α)) (k : Nat) :
    lookupEntry k (insertEntry key value entries) =
      if k = key then some value else lookupEntry k entries := by
  induction entries with
  | nil => simp [insertEntry, lookupEntry]
  | cons head rest ih =>
      simp only [insertEntry]
      split
      · simp [lookupEntry]
      · split
        · simp only [lookupEntry]
          split <;> simp_all
        · simp only [lookupEntry, ih]
          split <;> split <;> simp_all

theorem lookupEntry_eq_none {k : Nat} {entries : List (Nat × α)}
    (h : ∀ entry ∈ entries, k < entry.1) : lookupEntry k entries = none := by
  induction entries with
  | nil => rfl
  | cons head rest ih =>
      have hk : k ≠ head.1 := Nat.ne_of_lt (h head (by simp))
      simp only [lookupEntry, if_neg hk]
      exact ih fun entry hr => h entry (List.mem_cons_of_mem _ hr)

theorem lookupEntry_eraseEntry (key : Nat) {entries : List (Nat × α)}
    (h : IncreasingKeys entries) (k : Nat) :
    lookupEntry k (eraseEntry key entries) = if k = key then none else lookupEntry k entries := by
  induction entries with
  | nil => simp [eraseEntry, lookupEntry]
  | cons head rest ih =>
      obtain ⟨below, tail⟩ := List.pairwise_cons.1 h
      simp only [eraseEntry]
      split
      · rename_i heq
        by_cases hk : k = key
        · rw [if_pos hk]
          exact lookupEntry_eq_none fun entry hr => by
            simpa [hk, heq] using below entry hr
        · have hkh : k ≠ head.1 := by simpa [← heq] using hk
          simp [lookupEntry, hk, hkh]
      · rename_i hne
        simp only [lookupEntry, ih tail]
        by_cases hk : k = key
        · have : k ≠ head.1 := by simpa [hk] using hne
          simp [hk, hne]
        · simp [hk]

theorem lookupEntry_eq_some_iff {entries : List (Nat × α)} (h : IncreasingKeys entries)
    {k : Nat} {value : α} : lookupEntry k entries = some value ↔ (k, value) ∈ entries := by
  induction entries with
  | nil => simp [lookupEntry]
  | cons head rest ih =>
      obtain ⟨below, tail⟩ := List.pairwise_cons.1 h
      simp only [lookupEntry, List.mem_cons]
      split
      · rename_i heq
        constructor
        · intro hv
          left
          simp only [Option.some.injEq] at hv
          exact Prod.ext heq hv.symm
        · rintro (hv | hr)
          · simp [← hv]
          · have := below _ hr
            simp only [heq] at this
            omega
      · rename_i hne
        rw [ih tail]
        constructor
        · exact .inr
        · rintro (hv | hr)
          · exact absurd (by rw [← hv]) hne
          · exact hr

theorem ext_entries {a b : List (Nat × α)} (ha : IncreasingKeys a) (hb : IncreasingKeys b)
    (h : ∀ k, lookupEntry k a = lookupEntry k b) : a = b := by
  induction a generalizing b with
  | nil =>
      cases b with
      | nil => rfl
      | cons head rest => simpa [lookupEntry] using h head.1
  | cons x xs ih =>
      cases b with
      | nil => simpa [lookupEntry] using h x.1
      | cons y ys =>
          obtain ⟨belowX, tailX⟩ := List.pairwise_cons.1 ha
          obtain ⟨belowY, tailY⟩ := List.pairwise_cons.1 hb
          have hxy : x = y := by
            have hx : (x.1, x.2) ∈ y :: ys := by
              rw [← lookupEntry_eq_some_iff hb, ← h, lookupEntry_eq_some_iff ha]
              exact List.mem_cons_self
            have hy : (y.1, y.2) ∈ x :: xs := by
              rw [← lookupEntry_eq_some_iff ha, h, lookupEntry_eq_some_iff hb]
              exact List.mem_cons_self
            rcases List.mem_cons.1 hx with hx | hx
            · exact hx
            · rcases List.mem_cons.1 hy with hy | hy
              · exact hy.symm
              · have h₁ := belowY _ hx
                have h₂ := belowX _ hy
                simp only at h₁ h₂
                omega
          subst hxy
          congr 1
          refine ih tailX tailY fun k => ?_
          by_cases hk : k = x.1
          · rw [lookupEntry_eq_none fun e he => by simpa [hk] using belowX e he,
              lookupEntry_eq_none fun e he => by simpa [hk] using belowY e he]
          · simpa [lookupEntry, hk] using h k

/-! ## Operations -/

def empty : SortedMap α := ⟨[], List.Pairwise.nil⟩

instance : Inhabited (SortedMap α) := ⟨empty⟩

def get? (m : SortedMap α) (key : Nat) : Option α := lookupEntry key m.entries

def contains (m : SortedMap α) (key : Nat) : Bool := (m.get? key).isSome

def insert (m : SortedMap α) (key : Nat) (value : α) : SortedMap α :=
  ⟨insertEntry key value m.entries, increasing_insertEntry key value m.increasing⟩

def erase (m : SortedMap α) (key : Nat) : SortedMap α :=
  ⟨eraseEntry key m.entries, increasing_eraseEntry key m.increasing⟩

/-- Put `value` at `key` unless the key has a value. -/
def insertIfNew (m : SortedMap α) (key : Nat) (value : α) : SortedMap α :=
  if m.contains key then m else m.insert key value

/-- Replace the value at `key` by what `change` makes of it; `none` is no value. -/
def alter (m : SortedMap α) (key : Nat) (change : Option α → Option α) : SortedMap α :=
  match change (m.get? key) with
  | some value => m.insert key value
  | none => m.erase key

def mapValues (f : α → β) (m : SortedMap α) : SortedMap β :=
  ⟨m.entries.map fun entry => (entry.1, f entry.2), by
    simpa [IncreasingKeys, List.pairwise_map] using m.increasing⟩

def keys (m : SortedMap α) : List Nat := m.entries.map (·.1)

def lastKey? (m : SortedMap α) : Option Nat := m.keys.getLast?

def isEmpty (m : SortedMap α) : Bool := m.entries.isEmpty

/-- Enter every pair of a list, later pairs replacing earlier ones. -/
def ofList (pairs : List (Nat × α)) : SortedMap α :=
  pairs.foldl (fun m pair => m.insert pair.1 pair.2) empty

@[simp] theorem get?_empty (k : Nat) : (empty : SortedMap α).get? k = none := rfl

@[simp] theorem get?_insert (m : SortedMap α) (key : Nat) (value : α) (k : Nat) :
    (m.insert key value).get? k = if k = key then some value else m.get? k :=
  lookupEntry_insertEntry key value m.entries k

@[simp] theorem get?_erase (m : SortedMap α) (key k : Nat) :
    (m.erase key).get? k = if k = key then none else m.get? k :=
  lookupEntry_eraseEntry key m.increasing k

@[simp] theorem get?_alter (m : SortedMap α) (key : Nat) (change : Option α → Option α) (k : Nat) :
    (m.alter key change).get? k = if k = key then change (m.get? key) else m.get? k := by
  unfold alter
  split <;> simp_all

@[simp] theorem get?_insertIfNew (m : SortedMap α) (key : Nat) (value : α) (k : Nat) :
    (m.insertIfNew key value).get? k =
      if k = key then some ((m.get? key).getD value) else m.get? k := by
  unfold insertIfNew contains
  cases h : m.get? key with
  | none => simp
  | some old =>
      by_cases hk : k = key <;> simp [hk, h]

@[simp] theorem get?_mapValues (f : α → β) (m : SortedMap α) (k : Nat) :
    (m.mapValues f).get? k = (m.get? k).map f := by
  obtain ⟨entries, increasing⟩ := m
  simp only [get?, mapValues]
  clear increasing
  induction entries with
  | nil => rfl
  | cons head rest ih =>
      simp only [List.map_cons, lookupEntry]
      split
      · rfl
      · exact ih

theorem get?_eq_some_iff {m : SortedMap α} {k : Nat} {value : α} :
    m.get? k = some value ↔ (k, value) ∈ m.entries :=
  lookupEntry_eq_some_iff m.increasing

theorem ext_get? {m n : SortedMap α} (h : ∀ k, m.get? k = n.get? k) : m = n := by
  obtain ⟨a, ha⟩ := m
  obtain ⟨b, hb⟩ := n
  have : a = b := ext_entries ha hb h
  subst this
  rfl

theorem mem_keys_iff {m : SortedMap α} {k : Nat} : k ∈ m.keys ↔ (m.get? k).isSome := by
  simp only [keys, List.mem_map, Option.isSome_iff_exists, get?_eq_some_iff]
  constructor
  · rintro ⟨entry, hmem, rfl⟩
    exact ⟨entry.2, hmem⟩
  · rintro ⟨value, hmem⟩
    exact ⟨(k, value), hmem, rfl⟩

theorem keys_increasing (m : SortedMap α) : m.keys.Pairwise (· < ·) := by
  exact List.pairwise_map.2 m.increasing

theorem isEmpty_iff {m : SortedMap α} : m.isEmpty = true ↔ m = empty := by
  obtain ⟨entries, increasing⟩ := m
  cases entries with
  | nil => simp [isEmpty, empty]
  | cons head rest =>
      refine ⟨fun h => by simp [isEmpty] at h, fun h => ?_⟩
      cases congrArg SortedMap.entries h

end SortedMap

end ParityGames
