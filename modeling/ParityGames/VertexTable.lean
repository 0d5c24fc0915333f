import ParityGames.Vertex
import ParityGames.Text.Layout
import ParityGames.Text.Quoted

/-!
# Vertex tables

A table with one row for every vertex below its length. Reading and writing come in two forms:
`getD` and `put` for callers that stay inside the table, `read` and `write` for those that may not.
-/

namespace ParityGames

structure VertexTable (α : Type) where
  rows : Array α
deriving DecidableEq

namespace VertexTable

variable {α β : Type}

instance : Inhabited (VertexTable α) := ⟨⟨#[]⟩⟩

def fill (value : α) (length : Nat) : VertexTable α := ⟨Array.replicate length value⟩

/-- A table with the same text in every row; a row takes 24 bytes. -/
def create (text : String) (length : Nat) : Except Fault (VertexTable String) := do
  checkStorage length 24
  return fill text length

def ofList (values : List α) : VertexTable α := ⟨values.toArray⟩

def toList (t : VertexTable α) : List α := t.rows.toList

def length (t : VertexTable α) : Nat := t.rows.size

def getD (t : VertexTable α) (v : Nat) (default : α) : α := t.rows.getD v default

/-- Replace the row of `v`; nothing happens outside the table. -/
def put (t : VertexTable α) (v : Nat) (value : α) : VertexTable α :=
  ⟨t.rows.setIfInBounds v value⟩

def read (t : VertexTable α) (v : Nat) : Except Fault α :=
  match t.rows[v]? with
  | some value => .ok value
  | none => .error .outsideTable

def write (t : VertexTable α) (v : Nat) (value : α) : Except Fault (VertexTable α) :=
  if v < t.length then .ok (t.put v value) else .error .outsideTable

def map (f : α → β) (t : VertexTable α) : VertexTable β := ⟨t.rows.map f⟩

def push (t : VertexTable α) (value : α) : Nat × VertexTable α :=
  (t.length, ⟨t.rows.push value⟩)

def first? (t : VertexTable α) : Option α := t.rows[0]?

def last? (t : VertexTable α) : Option α := t.rows.back?

def entries (t : VertexTable α) : List (Nat × α) := t.toList.zipIdx.map fun p => (p.2, p.1)

def listing (t : VertexTable String) : String :=
  Text.listing "[" "]" (t.toList.map Text.quoted)

theorem ext_getD {t u : VertexTable α} (hlength : t.length = u.length) (default : α)
    (h : ∀ v, t.getD v default = u.getD v default) : t = u := by
  obtain ⟨rows⟩ := t
  obtain ⟨rows'⟩ := u
  refine congrArg VertexTable.mk (Array.ext hlength fun v hv hv' => ?_)
  have hrow := h v
  simpa only [getD, Array.getD_eq_getD_getElem?, Array.getElem?_eq_getElem hv,
    Array.getElem?_eq_getElem hv', Option.getD_some] using hrow

@[simp] theorem length_fill (value : α) (n : Nat) : (fill value n).length = n := by
  simp [fill, length]

@[simp] theorem length_ofList (values : List α) : (ofList values).length = values.length := by
  simp [ofList, length]

@[simp] theorem length_map (f : α → β) (t : VertexTable α) : (t.map f).length = t.length := by
  simp [map, length]

@[simp] theorem length_put (t : VertexTable α) (v : Nat) (value : α) :
    (t.put v value).length = t.length := by
  simp [put, length]

@[simp] theorem getD_fill (value : α) (n v : Nat) (default : α) :
    (fill value n).getD v default = if v < n then value else default := by
  simp only [fill, getD, Array.getD_eq_getD_getElem?, Array.getElem?_replicate]
  split <;> rfl

theorem getD_put (t : VertexTable α) (v : Nat) (value : α) (w : Nat) (default : α) :
    (t.put v value).getD w default =
      if w = v ∧ v < t.length then value else t.getD w default := by
  simp only [put, getD, length, Array.getD_eq_getD_getElem?, Array.getElem?_setIfInBounds]
  by_cases hw : w = v
  · subst hw
    by_cases h : w < t.rows.size <;> simp [h]
  · simp [hw, Ne.symm hw]

@[simp] theorem getD_map (f : α → β) (t : VertexTable α) (v : Nat) (default : α) :
    (t.map f).getD v (f default) = f (t.getD v default) := by
  simp only [map, getD, Array.getD_eq_getD_getElem?, Array.getElem?_map]
  cases t.rows[v]? <;> rfl

theorem getD_ofList (values : List α) (v : Nat) (default : α) :
    (ofList values).getD v default = values[v]?.getD default := by
  simp [ofList, getD, Array.getD_eq_getD_getElem?]

theorem length_foldl_put (vertices : List Nat) (value : Nat → α) (t : VertexTable α) :
    (vertices.foldl (fun t v => t.put v (value v)) t).length = t.length := by
  induction vertices generalizing t with
  | nil => rfl
  | cons v rest ih => simp [ih]

theorem getD_foldl_put (vertices : List Nat) (value : Nat → α) (t : VertexTable α) (w : Nat)
    (default : α) :
    (vertices.foldl (fun t v => t.put v (value v)) t).getD w default =
      if w ∈ vertices ∧ w < t.length then value w else t.getD w default := by
  induction vertices generalizing t with
  | nil => simp
  | cons v rest ih =>
      rw [List.foldl_cons, ih, length_put, getD_put]
      by_cases hr : w ∈ rest ∧ w < t.length
      · simp [hr]
      · by_cases hv : w = v
        · subst hv
          by_cases hw : w < t.length <;> simp_all
        · simp [hr, hv]

end VertexTable

namespace Vertex

/-- A vertex right-aligned and left-aligned in six columns, with leading zeros in five, and with
its sign. -/
def layouts (v : Nat) : List String :=
  let digits := toString v
  [Text.padLeft 6 ' ' digits, Text.padRight 6 ' ' digits ++ "|", Text.padLeft 5 '0' digits,
    "+" ++ digits]

end Vertex

end ParityGames
