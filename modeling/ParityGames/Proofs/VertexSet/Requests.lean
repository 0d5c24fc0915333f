import ParityGames.VertexSet.Request
import ParityGames.Proofs.Data.Checked

/-! # Runs of requests on vertex sets

What a caller can ask of a kind of vertex set, and how a row of sets is served one request after the
other: a new set goes to the end of the row, the sets stay where they are, and a request that is
refused gives its fault for an answer. If one kind of set does as another does in every operation,
the two give the same answers in every run.
-/

namespace ParityGames

inductive Combination where
  | union
  | difference
  | intersection
deriving DecidableEq, Repr

def Combination.holds : Combination → Bool → Bool → Bool
  | .union => fun a b => a || b
  | .difference => fun a b => a && !b
  | .intersection => fun a b => a && b

structure SetOperations (σ : Type) where
  create : Nat → Except Fault σ
  createFull : Nat → Except Fault σ
  createOf : Nat → List Nat → Except Fault σ
  complement : σ → σ
  /-- Put a vertex in, and tell whether it was absent. -/
  add : σ → Nat → Except Fault (σ × Bool)
  /-- Take a vertex out, and tell whether it was present. -/
  take : σ → Nat → Except Fault (σ × Bool)
  /-- Put vertices in up to the first that is refused. -/
  extend : σ → List Nat → σ × Option Fault
  combine : Combination → σ → σ → Except Fault σ
  capacity : σ → Nat
  size : σ → Nat
  isEmpty : σ → Bool
  toList : σ → List Nat
  contains : σ → Nat → Bool
  same : σ → σ → Bool
  subset : σ → σ → Bool
  apart : σ → σ → Except Fault Bool

def VertexSet.operations : SetOperations VertexSet where
  create := VertexSet.create
  createFull := VertexSet.createFull
  createOf := VertexSet.createOf
  complement := VertexSet.complement
  add := VertexSet.add
  take := VertexSet.take
  extend := VertexSet.extend
  combine
    | .union => VertexSet.unite
    | .difference => VertexSet.subtract
    | .intersection => VertexSet.intersect
  capacity := VertexSet.capacity
  size := VertexSet.size
  isEmpty := VertexSet.isEmpty
  toList := VertexSet.toList
  contains := VertexSet.contains
  same s t := decide (s = t)
  subset := VertexSet.subset
  apart := VertexSet.apart

/-- A request to a row of sets, which are named by their places. -/
inductive SetRequest where
  | create (capacity : Nat)
  | createFull (capacity : Nat)
  | createOf (capacity : Nat) (vertices : List Nat)
  | clone (i : Nat)
  | complement (i : Nat)
  | add (i v : Nat)
  | take (i v : Nat)
  | extend (i : Nat) (vertices : List Nat)
  | combine (how : Combination) (i j : Nat)
  | describe (i : Nat)
  | contains (i v : Nat)
  | same (i j : Nat)
  | subset (i j : Nat)
  | apart (i j : Nat)
deriving DecidableEq, Repr

inductive SetAnswer where
  | done
  | flag (holds : Bool)
  | description (capacity size : Nat) (isEmpty : Bool) (elements : List Nat)
deriving DecidableEq, Repr

namespace SetOperations

variable {σ τ : Type}

/-! ## Serving a request -/

def read (sets : List σ) (i : Nat) : Except Fault σ :=
  match sets[i]? with
  | some s => .ok s
  | none => .error .outsideTable

/-- The row with a new set at its end, if one was made. -/
def made (sets : List σ) : Except Fault σ → List σ × Except Fault SetAnswer
  | .ok s => (sets ++ [s], .ok .done)
  | .error fault => (sets, .error fault)

def changed (sets : List σ) (i : Nat) (change : σ → Except Fault (σ × SetAnswer)) :
    List σ × Except Fault SetAnswer :=
  match read sets i >>= change with
  | .ok (s, answer) => (sets.set i s, .ok answer)
  | .error fault => (sets, .error fault)

/-- The row with what an extension has put into a set, also if it was refused in the end. -/
def extended (sets : List σ) (i : Nat) (change : σ → σ × Option Fault) :
    List σ × Except Fault SetAnswer :=
  match (read sets i).map change with
  | .ok (s, none) => (sets.set i s, .ok .done)
  | .ok (s, some fault) => (sets.set i s, .error fault)
  | .error fault => (sets, .error fault)

def asked (sets : List σ) (i : Nat) (question : σ → SetAnswer) :
    List σ × Except Fault SetAnswer :=
  (sets, (read sets i).map question)

def compared (sets : List σ) (i j : Nat) (question : σ → σ → Except Fault Bool) :
    List σ × Except Fault SetAnswer :=
  (sets, do return .flag (← question (← read sets i) (← read sets j)))

def perform (ops : SetOperations σ) (sets : List σ) :
    SetRequest → List σ × Except Fault SetAnswer
  | .create capacity => made sets (ops.create capacity)
  | .createFull capacity => made sets (ops.createFull capacity)
  | .createOf capacity vertices => made sets (ops.createOf capacity vertices)
  | .clone i => made sets (read sets i)
  | .complement i => made sets ((read sets i).map ops.complement)
  | .add i v => changed sets i fun s => (ops.add s v).map (Prod.map id .flag)
  | .take i v => changed sets i fun s => (ops.take s v).map (Prod.map id .flag)
  | .extend i vertices => extended sets i (ops.extend · vertices)
  | .combine how i j => changed sets i fun s => do
      return (← ops.combine how s (← read sets j), .done)
  | .describe i => asked sets i fun s =>
      .description (ops.capacity s) (ops.size s) (ops.isEmpty s) (ops.toList s)
  | .contains i v => asked sets i fun s => .flag (ops.contains s v)
  | .same i j => compared sets i j fun s t => .ok (ops.same s t)
  | .subset i j => compared sets i j fun s t => .ok (ops.subset s t)
  | .apart i j => compared sets i j ops.apart

def run (ops : SetOperations σ) (sets : List σ) :
    List SetRequest → List σ × List (Except Fault SetAnswer)
  | [] => (sets, [])
  | request :: rest =>
      let (next, answer) := ops.perform sets request
      let (last, answers) := ops.run next rest
      (last, answer :: answers)

theorem eq_of_made {sets sets' : List σ} {result : Except Fault σ} {fault : Fault}
    (h : made sets result = (sets', .error fault)) : sets' = sets := by
  cases result with
  | error => exact (congrArg Prod.fst h).symm
  | ok s => cases h

theorem eq_of_changed {sets sets' : List σ} {i : Nat} {change : σ → Except Fault (σ × SetAnswer)}
    {fault : Fault} (h : changed sets i change = (sets', .error fault)) : sets' = sets := by
  unfold changed at h
  split at h
  · cases h
  · exact (congrArg Prod.fst h).symm

/-- Only an extension that is refused changes a set. -/
theorem perform_refused {ops : SetOperations σ} {sets sets' : List σ} {request : SetRequest}
    {fault : Fault} (hrequest : ∀ i vertices, request ≠ .extend i vertices)
    (h : ops.perform sets request = (sets', .error fault)) : sets' = sets := by
  cases request with
  | create | createFull | createOf | clone | complement => exact eq_of_made h
  | add | take | combine => exact eq_of_changed h
  | extend i vertices => exact absurd rfl (hrequest i vertices)
  | describe | contains | same | subset | apart => exact (congrArg Prod.fst h).symm

/-! ## One kind of set doing as another does -/

/-- Every operation on sets of one kind is the other kind's operation on what they are seen as. -/
structure Simulates (ops : SetOperations σ) (ops' : SetOperations τ) (view : σ → τ) : Prop where
  create : ∀ capacity, ops'.create capacity = (ops.create capacity).map view
  createFull : ∀ capacity, ops'.createFull capacity = (ops.createFull capacity).map view
  createOf : ∀ capacity vertices,
    ops'.createOf capacity vertices = (ops.createOf capacity vertices).map view
  complement : ∀ s, ops'.complement (view s) = view (ops.complement s)
  add : ∀ s v, ops'.add (view s) v = (ops.add s v).map (Prod.map view id)
  take : ∀ s v, ops'.take (view s) v = (ops.take s v).map (Prod.map view id)
  extend : ∀ s vertices, ops'.extend (view s) vertices = Prod.map view id (ops.extend s vertices)
  combine : ∀ how s t, ops'.combine how (view s) (view t) = (ops.combine how s t).map view
  capacity : ∀ s, ops'.capacity (view s) = ops.capacity s
  size : ∀ s, ops'.size (view s) = ops.size s
  isEmpty : ∀ s, ops'.isEmpty (view s) = ops.isEmpty s
  toList : ∀ s, ops'.toList (view s) = ops.toList s
  contains : ∀ s v, ops'.contains (view s) v = ops.contains s v
  same : ∀ s t, ops'.same (view s) (view t) = ops.same s t
  subset : ∀ s t, ops'.subset (view s) (view t) = ops.subset s t
  apart : ∀ s t, ops'.apart (view s) (view t) = ops.apart s t

variable {view : σ → τ} {sets : List σ}

theorem read_map (view : σ → τ) (sets : List σ) (i : Nat) :
    read (sets.map view) i = (read sets i).map view := by
  unfold read
  rw [List.getElem?_map]
  cases sets[i]? <;> rfl

theorem made_map (view : σ → τ) (sets : List σ) (result : Except Fault σ) :
    made (sets.map view) (result.map view) = Prod.map (List.map view) id (made sets result) := by
  cases result with
  | error fault => rfl
  | ok s => simp [made, Except.map]

theorem changed_map {change : σ → Except Fault (σ × SetAnswer)}
    {change' : τ → Except Fault (τ × SetAnswer)}
    (h : ∀ s, change' (view s) = (change s).map (Prod.map view id)) (sets : List σ) (i : Nat) :
    changed (sets.map view) i change' = Prod.map (List.map view) id (changed sets i change) := by
  unfold changed
  rw [read_map]
  cases read sets i with
  | error fault => rfl
  | ok s =>
      simp only [Except.map, ok_bind, h]
      cases change s with
      | error fault => rfl
      | ok result => simp

theorem extended_map {change : σ → σ × Option Fault} {change' : τ → τ × Option Fault}
    (h : ∀ s, change' (view s) = Prod.map view id (change s)) (sets : List σ) (i : Nat) :
    extended (sets.map view) i change' = Prod.map (List.map view) id (extended sets i change) := by
  unfold extended
  rw [read_map]
  cases read sets i with
  | error fault => rfl
  | ok s =>
      simp only [Except.map, h]
      obtain ⟨t, _ | fault⟩ := change s <;> simp

theorem asked_map {question : σ → SetAnswer} {question' : τ → SetAnswer}
    (h : ∀ s, question' (view s) = question s) (sets : List σ) (i : Nat) :
    asked (sets.map view) i question' = Prod.map (List.map view) id (asked sets i question) := by
  unfold asked
  rw [read_map]
  cases read sets i with
  | error fault => rfl
  | ok s => simp [Except.map, h]

theorem compared_map {question : σ → σ → Except Fault Bool}
    {question' : τ → τ → Except Fault Bool}
    (h : ∀ s t, question' (view s) (view t) = question s t) (sets : List σ) (i j : Nat) :
    compared (sets.map view) i j question' =
      Prod.map (List.map view) id (compared sets i j question) := by
  unfold compared
  rw [read_map, read_map]
  cases read sets i with
  | error fault => rfl
  | ok s =>
      cases read sets j with
      | error fault => rfl
      | ok t => simp [Except.map, h]

namespace Simulates

variable {ops : SetOperations σ} {ops' : SetOperations τ}

theorem perform (h : Simulates ops ops' view) (sets : List σ) (request : SetRequest) :
    ops'.perform (sets.map view) request =
      Prod.map (List.map view) id (ops.perform sets request) := by
  cases request with
  | create capacity => simp only [SetOperations.perform, h.create, made_map]
  | createFull capacity => simp only [SetOperations.perform, h.createFull, made_map]
  | createOf capacity vertices => simp only [SetOperations.perform, h.createOf, made_map]
  | clone i => simp only [SetOperations.perform, read_map, made_map]
  | complement i =>
      have hresult : ((read sets i).map view).map ops'.complement =
          ((read sets i).map ops.complement).map view := by
        cases read sets i with
        | error fault => rfl
        | ok s => exact congrArg Except.ok (h.complement s)
      simp only [SetOperations.perform, read_map, hresult, made_map]
  | add i v =>
      refine changed_map (fun s => ?_) sets i
      rw [h.add]
      cases ops.add s v <;> rfl
  | take i v =>
      refine changed_map (fun s => ?_) sets i
      rw [h.take]
      cases ops.take s v <;> rfl
  | extend i vertices => exact extended_map (fun s => h.extend s vertices) sets i
  | combine how i j =>
      refine changed_map (fun s => ?_) sets i
      rw [read_map]
      cases read sets j with
      | error fault => rfl
      | ok t =>
          simp only [Except.map, ok_bind, h.combine]
          cases ops.combine how s t <;> rfl
  | describe i =>
      exact asked_map (fun s => by rw [h.capacity, h.size, h.isEmpty, h.toList]) sets i
  | contains i v => exact asked_map (fun s => by rw [h.contains]) sets i
  | same i j => exact compared_map (fun s t => by rw [h.same]) sets i j
  | subset i j => exact compared_map (fun s t => by rw [h.subset]) sets i j
  | apart i j => exact compared_map h.apart sets i j

theorem run (h : Simulates ops ops' view) (sets : List σ) (requests : List SetRequest) :
    ops'.run (sets.map view) requests = Prod.map (List.map view) id (ops.run sets requests) := by
  induction requests generalizing sets with
  | nil => rfl
  | cons request rest ih =>
      simp only [SetOperations.run, h.perform, Prod.map_fst, ih]
      rfl

end Simulates

end SetOperations

end ParityGames
