import ParityGames.Proofs.VertexSet.Loose

/-! # Every run of requests is one on capped sets

Any kind of vertex set that does as capped sets do answers every run of requests as they would, and
what a refused request leaves is known. The library's sets are of this kind, and so is storage whose
last word is never trimmed.
-/

namespace ParityGames

namespace SetOperations

variable {σ τ ρ : Type} {ops : SetOperations σ} {ops' : SetOperations τ} {ops'' : SetOperations ρ}
  {view : σ → τ} {view' : τ → ρ}

theorem map_comp {α β γ : Type} (f : α → β) (g : β → γ) (result : Except Fault α) :
    result.map (g ∘ f) = (result.map f).map g := by
  cases result <;> rfl

theorem seen_twice {β : Type} (view : σ → τ) (view' : τ → ρ) :
    Prod.map (view' ∘ view) (id : β → β) = Prod.map view' id ∘ Prod.map view id := rfl

theorem Simulates.trans (h : Simulates ops ops' view) (h' : Simulates ops' ops'' view') :
    Simulates ops ops'' (view' ∘ view) where
  create capacity := by rw [map_comp, ← h.create, h'.create]
  createFull capacity := by rw [map_comp, ← h.createFull, h'.createFull]
  createOf capacity vertices := by rw [map_comp, ← h.createOf, h'.createOf]
  complement s := (h'.complement _).trans (congrArg view' (h.complement s))
  add s v := by
    rw [seen_twice, map_comp, ← h.add]
    exact h'.add _ v
  take s v := by
    rw [seen_twice, map_comp, ← h.take]
    exact h'.take _ v
  extend s vertices :=
    (h'.extend _ vertices).trans (congrArg (Prod.map view' id) (h.extend s vertices))
  combine how s t := by
    rw [map_comp, ← h.combine]
    exact h'.combine how _ _
  capacity s := (h'.capacity _).trans (h.capacity s)
  size s := (h'.size _).trans (h.size s)
  isEmpty s := (h'.isEmpty _).trans (h.isEmpty s)
  toList s := (h'.toList _).trans (h.toList s)
  contains s v := (h'.contains _ v).trans (h.contains s v)
  same s t := (h'.same _ _).trans (h.same s t)
  subset s t := (h'.subset _ _).trans (h.subset s t)
  apart s t := (h'.apart _ _).trans (h.apart s t)

/-- A run of requests to one kind of set, seen as a run of requests to capped sets. -/
structure Follows (ops : SetOperations σ) (view : σ → CappedSet) (requests : List SetRequest) :
    Prop where
  sets : (CappedSet.operations.run [] requests).1 = (ops.run [] requests).1.map view
  answers : (CappedSet.operations.run [] requests).2 = (ops.run [] requests).2
  /-- No element is at or beyond the capacity. -/
  below : ∀ s ∈ (ops.run [] requests).1, ∀ v, ops.contains s v = true → v < ops.capacity s
  /-- A request that is refused leaves every set as it is. -/
  refused : ∀ request sets' fault, (∀ i vertices, request ≠ .extend i vertices) →
    ops.perform (ops.run [] requests).1 request = (sets', .error fault) →
    sets' = (ops.run [] requests).1
  /-- An extension that is refused keeps what stands before the first vertex that is too large. -/
  extended : ∀ i vertices sets' fault s, (ops.run [] requests).1[i]? = some s →
    ops.perform (ops.run [] requests).1 (.extend i vertices) = (sets', .error fault) →
    ∃ before v after t, vertices = before ++ v :: after ∧ (∀ u ∈ before, u < ops.capacity s) ∧
      ops.capacity s ≤ v ∧ sets' = (ops.run [] requests).1.set i t ∧
      (view t).capacity = (view s).capacity ∧
      (view t).elements = (view s).elements ∪ before.toFinset

theorem Simulates.below {view : σ → CappedSet}
    (h : Simulates ops CappedSet.operations view) {s : σ} {v : Nat}
    (hv : ops.contains s v = true) : v < ops.capacity s := by
  rw [← h.contains] at hv
  rw [← h.capacity]
  exact (view s).below v (of_decide_eq_true hv)

theorem Simulates.extend_refused {view : σ → CappedSet}
    (h : Simulates ops CappedSet.operations view) {s t : σ} {vertices : List Nat} {fault : Fault}
    (hextend : ops.extend s vertices = (t, some fault)) :
    ∃ before v after, vertices = before ++ v :: after ∧ (∀ u ∈ before, u < ops.capacity s) ∧
      ops.capacity s ≤ v ∧ (view t).capacity = (view s).capacity ∧
      (view t).elements = (view s).elements ∪ before.toFinset := by
  have hseen := h.extend s vertices
  rw [hextend] at hseen
  have hkept : (view s).insertAll (vertices.takeWhile (· < (view s).capacity))
      CappedSet.takeWhile_below = view t := congrArg Prod.fst hseen
  have hrefused : (if ∀ v ∈ vertices, v < (view s).capacity then none
      else some Fault.outsideTable) = some fault := congrArg Prod.snd hseen
  have hcapacity : (view s).capacity = ops.capacity s := h.capacity s
  have hlarge : ¬ ∀ v ∈ vertices, v < (view s).capacity := fun hall => by
    rw [if_pos hall] at hrefused
    cases hrefused
  obtain ⟨v, after, hvertices, hv⟩ := CappedSet.exists_first_large hlarge
  refine ⟨_, v, after, hvertices, fun u hu => ?_, hcapacity ▸ hv, ?_⟩
  · rw [← hcapacity]
    exact CappedSet.takeWhile_below u hu
  · rw [← hkept]
    exact ⟨rfl, rfl⟩

/-- Doing as capped sets do in every operation is doing so in every run. -/
theorem Simulates.follows {view : σ → CappedSet} (h : Simulates ops CappedSet.operations view)
    (requests : List SetRequest) : Follows ops view requests where
  sets := congrArg Prod.fst (h.run [] requests)
  answers := congrArg Prod.snd (h.run [] requests)
  below s _ v hv := h.below hv
  refused request sets' fault hrequest hperform := perform_refused hrequest hperform
  extended i vertices sets' fault s hs hperform := by
    have hread : read (ops.run [] requests).1 i = .ok s := by rw [read, hs]
    simp only [SetOperations.perform, SetOperations.extended, hread, Except.map] at hperform
    rcases hextend : ops.extend s vertices with ⟨t, _ | refusal⟩
    · rw [hextend] at hperform
      cases hperform
    · rw [hextend] at hperform
      cases hperform
      obtain ⟨before, v, after, hvertices, hbefore, hv, hkept⟩ := h.extend_refused hextend
      exact ⟨before, v, after, t, hvertices, hbefore, hv, rfl, hkept⟩

end SetOperations

/-- In every run of requests, the library's sets and loose storage answer as capped sets do, and
stand for the sets that those come to. -/
theorem VertexSet.requests_follow (requests : List SetRequest) :
    VertexSet.operations.Follows VertexSet.capped requests ∧
      LooseSet.operations.Follows (VertexSet.capped ∘ LooseSet.trimmed) requests :=
  ⟨VertexSet.simulates_capped.follows requests,
    (LooseSet.simulates_trimmed.trans VertexSet.simulates_capped).follows requests⟩

example : (LooseSet.operations.run []
    [.createFull 70, .complement 0, .createOf 70 [3, 70], .describe 1]).2 =
      [.ok .done, .ok .done, .error .outsideTable, .ok (.description 70 0 true [])] := by
  decide +kernel

end ParityGames
