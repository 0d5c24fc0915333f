import ParityGames.Proofs.GameFile.Converted
import Mathlib.Data.List.Sort

/-! # Files assembled by a builder

The game of a file can also be made by calls of a builder: first a vertex for every row, then an
edge for every successor. A call for a vertex that was not added would be at fault. No call is, and
the game is the same one.
-/

namespace ParityGames

open GameBuilder

variable {α β : Type}

/-- What is made by calls that may be at fault, or refused. -/
abbrev Assembly := ExceptT ConversionError (Except Fault)

namespace Assembly

def call (request : Except Fault α) : Assembly α := ExceptT.lift request

def sound (result : Except ConversionError α) : Assembly α := ExceptT.mk (.ok result)

theorem call_ok (value : α) : call (.ok value) = sound (.ok value) := rfl

theorem sound_ok_bind (value : α) (f : α → Assembly β) : (sound (.ok value) >>= f) = f value := rfl

end Assembly

open Assembly

namespace GameFile

def addRow (s : GameBuilder × SortedMap Nat) (row : GameRow) :
    Assembly (GameBuilder × SortedMap Nat) :=
  if s.2.contains row.id then sound (.error (.duplicateId row.id))
  else
    sound (.ok (s.1.addVertex row.player row.priority, s.2.insert row.id s.1.drafts.length))

def addSuccessor (known : SortedMap Nat) (id v : Nat) (b : GameBuilder) (successor : Nat) :
    Assembly GameBuilder := do
  let w ← sound (target known id successor)
  call (b.addEdge v w)

def addSuccessors (known : SortedMap Nat) (b : GameBuilder) (row : GameRow) :
    Assembly GameBuilder := do
  let v ← call (match known.get? row.id with
    | some v => .ok v
    | none => .error .outsideTable)
  row.successors.foldlM (addSuccessor known row.id v) b

/-- The game that a file describes, by calls of a builder. -/
def assemble (f : GameFile) : Assembly FileGame := do
  let (b, known) ← f.rows.foldlM addRow (GameBuilder.empty, SortedMap.empty)
  let b ← f.rows.foldlM (addSuccessors known) b
  let start? ← sound (startVertex known f.start?)
  match b.build with
  | .ok game => sound (.ok { game, ids := VertexTable.ofList (f.rows.map (·.id)), start? })
  | .error cause => sound (.error (.game cause))

/-! ## The builder on the way -/

def bare (row : GameRow) : Draft := ⟨row.player, row.priority, []⟩

def toward (made : Draft) (targets : List Nat) : Draft :=
  { made with targets := targets.reverse ++ made.targets }

def turned (made : Draft) : Draft := { made with targets := made.targets.reverse }

def builderOf (drafts : List Draft) : GameBuilder := ⟨VertexTable.ofList drafts⟩

theorem addVertex_builderOf (drafts : List Draft) (row : GameRow) :
    (builderOf drafts).addVertex row.player row.priority = builderOf (drafts ++ [bare row]) := by
  simp [builderOf, addVertex, VertexTable.push, VertexTable.ofList, bare]

theorem addEdge_builderOf (before after : List Draft) (made : Draft) (w : Nat) :
    (builderOf (before ++ made :: after)).addEdge before.length w =
      .ok (builderOf (before ++ toward made [w] :: after)) := by
  have hread : (builderOf (before ++ made :: after)).drafts.read before.length = .ok made := by
    simp [builderOf, VertexTable.read, VertexTable.ofList]
  have hput : ∀ made', (builderOf (before ++ made :: after)).drafts.put before.length made' =
      (builderOf (before ++ made' :: after)).drafts := by
    intro made'
    simp [builderOf, VertexTable.put, VertexTable.ofList]
  rw [addEdge, hread, ok_bind, hput]
  rfl

theorem foldlM_addRow (rows : List GameRow) :
    rows.foldlM addRow (GameBuilder.empty, SortedMap.empty) =
      sound ((vertexOfId rows).map fun known => (builderOf (rows.map bare), known)) := by
  induction rows using List.reverseRecOn with
  | nil => rfl
  | append_singleton rows row ih =>
      rw [List.foldlM_append, ih, vertexOfId_concat]
      cases vertexOfId rows with
      | error cause => rfl
      | ok known =>
          have hlength : (builderOf (rows.map bare)).drafts.length = rows.length := by
            simp [builderOf]
          simp only [Except.map, sound_ok_bind, ok_bind, List.foldlM_cons, List.foldlM_nil, addRow,
            addVertex_builderOf, hlength, List.map_append, List.map_singleton]
          split <;> rfl

theorem foldlM_addSuccessor (known : SortedMap Nat) (id : Nat) (before after : List Draft)
    (successors : List Nat) (made : Draft) :
    successors.foldlM (addSuccessor known id before.length)
        (builderOf (before ++ made :: after)) =
      sound ((successors.mapM (target known id)).map fun targets =>
        builderOf (before ++ toward made targets :: after)) := by
  induction successors generalizing made with
  | nil => rfl
  | cons successor rest ih =>
      rw [List.foldlM_cons, List.mapM_cons, addSuccessor]
      cases target known id successor with
      | error cause => rfl
      | ok w =>
          rw [sound_ok_bind, addEdge_builderOf, call_ok, sound_ok_bind, ih, ok_bind]
          cases rest.mapM (target known id) with
          | error cause => rfl
          | ok targets =>
              have hboth : toward (toward made [w]) targets = toward made (w :: targets) := by
                simp [toward]
              simp only [Except.map, hboth, ok_bind]
              rfl

theorem addSuccessors_builderOf {known : SortedMap Nat} {ids : List Nat} (h : Locates known ids)
    (before after : List Draft) (row : GameRow) (hrow : ids[before.length]? = some row.id) :
    addSuccessors known (builderOf (before ++ bare row :: after)) row =
      sound ((draft known row).map fun made => builderOf (before ++ turned made :: after)) := by
  unfold addSuccessors draft
  rw [(h.get? row.id before.length).2 hrow]
  simp only [call_ok, sound_ok_bind, foldlM_addSuccessor]
  cases row.successors.mapM (target known row.id) with
  | error cause => rfl
  | ok targets =>
      have hrow : toward (bare row) targets = turned ⟨row.player, row.priority, targets⟩ := by
        simp [toward, bare, turned]
      simp only [Except.map, hrow, ok_bind]
      rfl

theorem foldlM_addSuccessors {known : SortedMap Nat} (done rest : List GameRow)
    (h : Locates known ((done ++ rest).map (·.id))) :
    done.foldlM (addSuccessors known) (builderOf ((done ++ rest).map bare)) =
      sound ((done.mapM (draft known)).map fun drafts =>
        builderOf (drafts.map turned ++ rest.map bare)) := by
  induction done using List.reverseRecOn generalizing rest with
  | nil => rfl
  | append_singleton done row ih =>
      rw [List.append_assoc, List.singleton_append] at h ⊢
      rw [List.foldlM_append, ih (row :: rest) h, List.mapM_append]
      cases hdrafts : done.mapM (draft known) with
      | error cause => rfl
      | ok drafts =>
          have hlength : (drafts.map turned).length = done.length := by
            rw [List.length_map, (mapM_eq_ok hdrafts).length_eq]
          have hrow : ((done ++ row :: rest).map (·.id))[(drafts.map turned).length]? =
              some row.id := by
            rw [hlength]
            simp
          have hstep := addSuccessors_builderOf h (drafts.map turned) (rest.map bare) row hrow
          simp only [Except.map, sound_ok_bind, ok_bind, List.foldlM_cons, List.foldlM_nil,
            List.map_cons, hstep, List.mapM_cons, List.mapM_nil, bind_pure]
          cases draft known row with
          | error cause => rfl
          | ok made =>
              simp only [pure, Except.pure, ok_bind, List.map_append, List.append_assoc]
              rfl

end GameFile

namespace GameBuilder

/-- The row of a vertex does not depend on the order in which its edges were added. -/
theorem row_reverse (count v : Nat) (targets : List Nat) :
    row count v targets.reverse = row count v targets := by
  have hsame : Ranking.distinct targets.reverse = Ranking.distinct targets :=
    List.SortedLT.eq_of_mem_iff (Ranking.distinct_increasing _).sortedLT
      (Ranking.distinct_increasing _).sortedLT fun w => by simp only [Ranking.mem_distinct,
        List.mem_reverse]
  simp only [row, hsame]

theorem build_turned (drafts : List Draft) :
    (GameFile.builderOf (drafts.map GameFile.turned)).build =
      (GameFile.builderOf drafts).build := by
  have hentries : (VertexTable.ofList (drafts.map GameFile.turned)).entries =
      (VertexTable.ofList drafts).entries.map fun entry => (entry.1, GameFile.turned entry.2) := by
    simp [VertexTable.entries, VertexTable.ofList, VertexTable.toList, List.zipIdx_map]
  have hrows : ∀ count, (VertexTable.ofList (drafts.map GameFile.turned)).entries.mapM
      (fun entry => row count entry.1 entry.2.targets) =
      (VertexTable.ofList drafts).entries.mapM fun entry => row count entry.1 entry.2.targets := by
    intro count
    rw [hentries, List.mapM_map]
    refine congrArg (fun f => List.mapM f _) (funext fun entry => ?_)
    exact row_reverse count entry.1 entry.2.targets
  have howners : (VertexTable.ofList (drafts.map GameFile.turned)).map (·.owner) =
      (VertexTable.ofList drafts).map (·.owner) := by
    simp [VertexTable.map, VertexTable.ofList, GameFile.turned]
  have hpriorities : (VertexTable.ofList (drafts.map GameFile.turned)).map (·.priority) =
      (VertexTable.ofList drafts).map (·.priority) := by
    simp [VertexTable.map, VertexTable.ofList, GameFile.turned]
  simp only [build, GameFile.builderOf, VertexTable.length_ofList, List.length_map, hrows, howners,
    hpriorities]

end GameBuilder

namespace GameFile

/-- Assembling a file, no call is at fault, and it comes to what the file is converted to. -/
theorem assemble_eq (file : GameFile) : file.assemble = sound file.toGame := by
  unfold assemble toGame
  rw [foldlM_addRow]
  cases hknown : vertexOfId file.rows with
  | error cause => rfl
  | ok known =>
      have hlocates := vertexOfId_spec hknown
      rw [← List.append_nil file.rows] at hlocates
      have hedges := foldlM_addSuccessors file.rows [] hlocates
      simp only [List.append_nil, List.map_nil] at hedges
      simp only [Except.map, sound_ok_bind, ok_bind, hedges]
      cases file.rows.mapM (draft known) with
      | error cause => rfl
      | ok drafts =>
          simp only [sound_ok_bind, ok_bind]
          cases startVertex known file.start? with
          | error cause => rfl
          | ok start? =>
              have hbuild := build_turned drafts
              simp only [builderOf] at hbuild
              simp only [sound_ok_bind, ok_bind, builderOf, hbuild]
              cases (⟨VertexTable.ofList drafts⟩ : GameBuilder).build with
              | ok game => rfl
              | error cause => rfl

end GameFile

end ParityGames
