import ParityGames.Proofs.Improvement.Valued

/-! # The components of a valuation

A valuation evaluates one component after the other. They do not overlap, and every active vertex is
in one of them.
-/

namespace ParityGames

namespace Improvement

variable {s t u : Improvement} {g : Game} {choice : Nat → Nat} {evaluated all : VertexSet}
  {heads done : List Nat} {parts more : List (Nat × VertexSet)} {v w : Nat}

/-- Trying a head when some vertices are evaluated already: it is skipped, or its component is
evaluated and listed. -/
inductive Tries (s : Improvement) (evaluated : VertexSet) (w : Nat) :
    List (Nat × VertexSet) → Improvement → VertexSet → Prop
  | skip (hskip : evaluated.contains w = true ∨ s.headsCycle evaluated w = false) :
      Tries s evaluated w [] s evaluated
  | evaluate {c : Component} (hnew : evaluated.contains w = false)
      (hcycle : s.headsCycle evaluated w = true)
      (hrun : (Component.start s w (s.basin evaluated w fun _ => true)).evaluate = .ok c) :
      Tries s evaluated w [(w, s.basin evaluated w fun _ => true)] c.state
        (evaluated.union (s.basin evaluated w fun _ => true))

inductive Tried (s : Improvement) :
    List Nat → List (Nat × VertexSet) → Improvement → VertexSet → Prop
  | start : Tried s [] [] s (VertexSet.empty s.game.vertexCount)
  | next {heads : List Nat} {parts more : List (Nat × VertexSet)} {t u : Improvement}
      {evaluated all : VertexSet} {w : Nat} (h : Tried s heads parts t evaluated)
      (hnext : t.Tries evaluated w more u all) : Tried s (heads ++ [w]) (parts ++ more) u all

theorem Tries.run (h : s.Tries evaluated w more t all) :
    tryHead (s, evaluated) w = .ok (t, all) := by
  cases h with
  | skip hskip => exact tryHead_skip hskip
  | evaluate hnew hcycle hrun => exact tryHead_evaluate hnew hcycle hrun

theorem Tried.run (h : s.Tried heads parts t evaluated) :
    heads.foldlM tryHead (s, VertexSet.empty s.game.vertexCount) = .ok (t, evaluated) := by
  induction h with
  | start => rfl
  | next _ hnext ih =>
      rw [List.foldlM_append, ih, ok_bind, List.foldlM_cons, hnext.run]
      rfl

theorem Tried.valuation (h : s.Tried s.heads parts t evaluated) : s.valuation = .ok t := by
  unfold Improvement.valuation
  rw [h.run]
  rfl

/-- The components that were evaluated, each with the head of its profiles. -/
structure Parts (t : Improvement) (evaluated : VertexSet) (parts : List (Nat × VertexSet)) :
    Prop where
  covers : ∀ v, evaluated.contains v = true ↔ ∃ part ∈ parts, part.2.contains v = true
  apart : parts.Pairwise fun part other =>
    ∀ v, ¬ (part.2.contains v = true ∧ other.2.contains v = true)
  heads : ∀ part ∈ parts, ∀ v, part.2.contains v = true → (t.profile v).head = part.1

theorem Parts.extend {members : VertexSet} (h : s.Parts evaluated parts)
    (hextends : s.Extends t g choice w done evaluated members all) :
    t.Parts all (parts ++ [(w, members)]) where
  covers := by
    intro v
    rw [hextends.mem_all, h.covers]
    simp only [List.mem_append, List.mem_singleton, or_and_right, exists_or, exists_eq_left]
  apart := by
    refine List.pairwise_append.2 ⟨h.apart, List.pairwise_singleton _ _, ?_⟩
    intro part hpart other hother v hboth
    rw [List.mem_singleton.1 hother] at hboth
    have hold := (h.covers v).2 ⟨part, hpart, hboth.1⟩
    rw [hextends.left v hboth.2] at hold
    cases hold
  heads := by
    intro part hpart v hv
    rcases List.mem_append.1 hpart with hpart | hpart
    · rw [(hextends.kept ((h.covers v).2 ⟨part, hpart, hv⟩)).1]
      exact h.heads part hpart v hv
    · rw [List.mem_singleton.1 hpart] at hv ⊢
      exact hextends.evaluates.heads v hv

/-- Every active vertex is evaluated in exactly one component, and no other vertex in any. -/
theorem valuation_parts (h : s.Keeps g choice) (htotal : g.isTotal = true) :
    ∃ t parts evaluated, s.valuation = .ok t ∧ s.Tried s.heads parts t evaluated ∧
      t.Parts evaluated parts ∧ (∀ v, evaluated.contains v = true ↔ g.contains v = true) ∧
      t.Valued g choice := by
  have hinduction := valuation_induction h
    (fun done t evaluated => ∃ parts, s.Tried done parts t evaluated ∧ t.Parts evaluated parts)
    ⟨[], h.game ▸ .start, by simp, List.Pairwise.nil, fun _ hpart => nomatch hpart⟩ ?_ ?_
  · obtain ⟨t, evaluated, hrun, hvaluing, parts, htried, hparts⟩ := hinduction
    obtain ⟨hall, hvalued⟩ := hvaluing.valued h htotal
    exact ⟨t, parts, evaluated, hrun, htried, hparts, hall, hvalued⟩
  · intro done w t evaluated hskip hmotive
    obtain ⟨parts, htried, hparts⟩ := hmotive
    exact ⟨parts, List.append_nil parts ▸ htried.next (.skip hskip), hparts⟩
  · intro done w t evaluated c hnew hcycle hrun hextends hmotive
    obtain ⟨parts, htried, hparts⟩ := hmotive
    exact ⟨_, htried.next (.evaluate hnew hcycle hrun), hparts.extend hextends⟩

end Improvement

end ParityGames
