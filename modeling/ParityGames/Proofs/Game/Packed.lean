import ParityGames.Proofs.Game.Reached
import Mathlib.Data.List.Induction

/-! # Packed rows

The rows of a table can be kept one after the other in a single table, with a second table of the
places where they start. The rows of targets are packed as they come; the rows of sources are packed
by counting: how many edges lead to every vertex, from that where every row starts, and then every
edge in turn goes to the cursor of its target. Read back, both are the rows of the arena.
-/

namespace ParityGames

/-- Row `v` goes from its own offset up to the offset of `v + 1`. -/
structure Packed where
  offsets : VertexTable Nat
  items : VertexTable Nat

namespace Packed

def empty : Packed := ⟨VertexTable.ofList [0], VertexTable.ofList []⟩

def append (p : Packed) (row : List Nat) : Packed :=
  let items := VertexTable.ofList (p.items.toList ++ row)
  ⟨(p.offsets.push items.length).2, items⟩

def ofRows (rows : List (List Nat)) : Packed := rows.foldl append empty

def row (p : Packed) (v : Nat) : List Nat :=
  (p.items.toList.take (p.offsets.getD (v + 1) 0)).drop (p.offsets.getD v 0)

def edges (p : Packed) (count : Nat) : List (Nat × Nat) :=
  (List.range count).flatMap fun u => (p.row u).map fun v => (u, v)

/-! ## Rows as they come -/

structure Holds (p : Packed) (rows : List (List Nat)) : Prop where
  items : p.items.toList = rows.flatten
  offsets : ∀ v ≤ rows.length, p.offsets.getD v 0 = (rows.take v).flatten.length
  length : p.offsets.length = rows.length + 1

variable {p : Packed} {rows : List (List Nat)}

theorem Holds.append (h : p.Holds rows) (row : List Nat) : (p.append row).Holds (rows ++ [row]) where
  items := by simp [Packed.append, VertexTable.ofList, VertexTable.toList, ← h.items]
  length := by simpa [Packed.append, VertexTable.push, VertexTable.length] using h.length
  offsets := by
    intro v hv
    rw [List.length_append, List.length_singleton] at hv
    have hlength := h.length
    unfold VertexTable.length at hlength
    rcases Nat.lt_or_eq_of_le hv with hlt | rfl
    · have hold := h.offsets v (Nat.le_of_lt_succ hlt)
      rw [List.take_append_of_le_length (Nat.le_of_lt_succ hlt), ← hold]
      simp [Packed.append, VertexTable.push, VertexTable.getD, Array.getD_eq_getD_getElem?,
        Array.getElem?_push_lt, hlength, hlt]
    · have hall : (rows ++ [row]).take (rows.length + 1) = rows ++ [row] :=
        List.take_of_length_le (by simp)
      have hitems : p.items.toList.length = rows.flatten.length := congrArg _ h.items
      rw [hall, ← hlength]
      simp only [Packed.append, VertexTable.push, VertexTable.getD, Array.getD_eq_getD_getElem?,
        Array.getElem?_push_size, Option.getD_some, VertexTable.length_ofList, List.length_append,
        hitems, List.flatten_append, List.flatten_singleton]

theorem holds_ofRows (rows : List (List Nat)) : (ofRows rows).Holds rows := by
  induction rows using List.reverseRecOn with
  | nil => exact ⟨rfl, fun v hv => by rw [Nat.le_zero.1 hv]; rfl, rfl⟩
  | append_singleton rows row ih =>
      rw [ofRows, List.foldl_append]
      exact ih.append row

theorem Holds.row {before after : List (List Nat)} {row : List Nat}
    (h : p.Holds (before ++ row :: after)) : p.row before.length = row := by
  have hstart := h.offsets before.length (by simp)
  have hend := h.offsets (before.length + 1) (by simp)
  rw [List.take_left] at hstart
  rw [List.take_length_add_append, List.take_one, List.head?_cons, Option.toList_some,
    List.flatten_append, List.flatten_singleton, List.length_append] at hend
  rw [Packed.row, hstart, hend, h.items, List.flatten_append, List.flatten_cons,
    List.take_length_add_append, List.take_left, List.drop_left]

theorem Holds.row_eq {rows : VertexTable (List Nat)} (h : p.Holds rows.toList) {v : Nat}
    (hv : v < rows.length) : p.row v = rows.getD v [] := by
  obtain ⟨hin, hget⟩ := List.getElem?_eq_some_iff.1 (VertexTable.getElem?_toList hv [])
  have hsplit : rows.toList = rows.toList.take v ++ rows.toList[v] :: rows.toList.drop (v + 1) := by
    rw [List.getElem_cons_drop, List.take_append_drop]
  have hrow := Holds.row (hsplit ▸ h)
  rwa [List.length_take, Nat.min_eq_left (Nat.le_of_lt hin), hget] at hrow

theorem Holds.edges_eq {rows : VertexTable (List Nat)} (h : p.Holds rows.toList) :
    p.edges rows.length = GameBuilder.edgesOf rows := by
  rw [edges, GameBuilder.edgesOf, VertexTable.entries_eq rows [], List.flatMap_map]
  refine List.flatMap_congr fun u hu => ?_
  rw [h.row_eq (List.mem_range.1 hu)]

/-! ## Rows by counting -/

/-- How many edges lead to every vertex, each number one place behind the vertex. -/
def degrees (count : Nat) (edges : List (Nat × Nat)) : VertexTable Nat :=
  edges.foldl (fun t edge => t.put (edge.2 + 1) (t.getD (edge.2 + 1) 0 + 1))
    (VertexTable.fill 0 (count + 1))

def carry (t : VertexTable Nat) (i : Nat) : VertexTable Nat :=
  t.put (i + 1) (t.getD (i + 1) 0 + t.getD i 0)

def sumUp (t : VertexTable Nat) : VertexTable Nat := (List.range (t.length - 1)).foldl carry t

/-- Put the source of an edge at the cursor of its target, and move the cursor on. -/
def place (s : VertexTable Nat × VertexTable Nat) (edge : Nat × Nat) :
    VertexTable Nat × VertexTable Nat :=
  let slot := s.1.getD edge.2 0
  (s.1.put edge.2 (slot + 1), s.2.put slot edge.1)

def ofEdges (count : Nat) (edges : List (Nat × Nat)) : Packed :=
  let offsets := sumUp (degrees count edges)
  ⟨offsets, (edges.foldl place (offsets, VertexTable.fill 0 (offsets.getD count 0))).2⟩

def sourcesOf (edges : List (Nat × Nat)) (v : Nat) : List Nat :=
  (edges.filter fun edge => edge.2 == v).map (·.1)

def below (edges : List (Nat × Nat)) (v : Nat) : Nat := edges.countP fun edge => edge.2 < v

variable {edges : List (Nat × Nat)} {count : Nat}

theorem sourcesOf_append (done rest : List (Nat × Nat)) (v : Nat) :
    sourcesOf (done ++ rest) v = sourcesOf done v ++ sourcesOf rest v := by
  simp [sourcesOf]

theorem sourcesOf_cons (edge : Nat × Nat) (rest : List (Nat × Nat)) (v : Nat) :
    sourcesOf (edge :: rest) v = if edge.2 = v then edge.1 :: sourcesOf rest v
      else sourcesOf rest v := by
  by_cases h : edge.2 = v <;> simp [sourcesOf, h]

theorem below_succ (edges : List (Nat × Nat)) (v : Nat) :
    below edges (v + 1) = below edges v + (sourcesOf edges v).length := by
  induction edges with
  | nil => rfl
  | cons edge rest ih =>
      rw [sourcesOf_cons]
      unfold below at ih ⊢
      rw [List.countP_cons, List.countP_cons, ih]
      rcases Nat.lt_trichotomy edge.2 v with h | rfl | h
      · simp only [Nat.lt_succ_of_lt h, h, decide_true, if_true, if_neg (Nat.ne_of_lt h)]
        omega
      · simp
        omega
      · have hle : ¬ edge.2 < v + 1 := by omega
        have hlt : ¬ edge.2 < v := by omega
        simp [hle, hlt, Ne.symm (Nat.ne_of_lt h)]

/-- A row ends before the rows of later vertices start. -/
theorem below_add_le (edges : List (Nat × Nat)) {u v : Nat} (h : u < v) :
    below edges u + (sourcesOf edges u).length ≤ below edges v := by
  rw [← below_succ]
  refine List.countP_mono_left fun edge _ hedge => ?_
  rw [decide_eq_true_eq] at hedge ⊢
  omega

theorem below_eq_length (h : ∀ edge ∈ edges, edge.2 < count) : below edges count = edges.length :=
  List.countP_eq_length.2 fun edge hedge => by simpa using h edge hedge

theorem degrees_spec (count : Nat) (edges : List (Nat × Nat)) :
    (degrees count edges).length = count + 1 ∧ (degrees count edges).getD 0 0 = 0 ∧
      ∀ v < count, (degrees count edges).getD (v + 1) 0 = (sourcesOf edges v).length := by
  induction edges using List.reverseRecOn with
  | nil => simp [degrees, sourcesOf]
  | append_singleton done edge ih =>
      obtain ⟨hlength, hzero, hcount⟩ := ih
      unfold degrees at *
      rw [List.foldl_append, List.foldl_cons, List.foldl_nil]
      refine ⟨by rw [VertexTable.length_put, hlength], ?_, fun v hv => ?_⟩
      · rw [VertexTable.getD_put, if_neg (by simp), hzero]
      · rw [VertexTable.getD_put, hlength, sourcesOf_append, sourcesOf_cons, List.length_append]
        by_cases h : edge.2 = v
        · simp [h, hv, hcount v hv, sourcesOf]
        · simp [h, Ne.symm h, hcount v hv, sourcesOf]

/-- Where the row of every vertex starts. -/
theorem sumUp_degrees (count : Nat) (edges : List (Nat × Nat)) :
    (sumUp (degrees count edges)).length = count + 1 ∧
      ∀ v ≤ count, (sumUp (degrees count edges)).getD v 0 = below edges v := by
  obtain ⟨hlength, hzero, hcount⟩ := degrees_spec count edges
  have hsums : ∀ n ≤ count, ∃ t, (List.range n).foldl carry (degrees count edges) = t ∧
      t.length = count + 1 ∧ (∀ v ≤ n, t.getD v 0 = below edges v) ∧
        ∀ v < count, n ≤ v → t.getD (v + 1) 0 = (sourcesOf edges v).length := by
    intro n hn
    induction n with
    | zero =>
        refine ⟨_, rfl, hlength, fun v hv => ?_, fun v hv _ => hcount v hv⟩
        rw [Nat.le_zero.1 hv]
        simp [below, hzero]
    | succ n ih =>
        obtain ⟨t, ht, hlength, hsum, hrest⟩ := ih (by omega)
        rw [List.range_succ, List.foldl_append, List.foldl_cons, List.foldl_nil, ht]
        refine ⟨_, rfl, by rw [carry, VertexTable.length_put, hlength], fun v hv => ?_,
          fun v hv hnv => ?_⟩
        · rw [carry, VertexTable.getD_put, hlength]
          by_cases h : v = n + 1
          · subst h
            rw [if_pos ⟨rfl, by omega⟩, hrest n (by omega) (Nat.le_refl n),
              hsum n (Nat.le_refl n), below_succ, Nat.add_comm]
          · rw [if_neg (fun h' => h h'.1), hsum v (by omega)]
        · rw [carry, VertexTable.getD_put, if_neg (by omega), hrest v hv (by omega)]
  obtain ⟨t, ht, hlengths, hsum, -⟩ := hsums count (Nat.le_refl count)
  rw [sumUp, hlength, Nat.add_sub_cancel, ht]
  exact ⟨hlengths, hsum⟩

/-- The edges `done` are in their places: every row is filled up to its cursor. -/
structure Placed (count : Nat) (edges done : List (Nat × Nat))
    (s : VertexTable Nat × VertexTable Nat) : Prop where
  length_cursors : s.1.length = count + 1
  length_items : s.2.length = below edges count
  cursor : ∀ v < count, s.1.getD v 0 = below edges v + (sourcesOf done v).length
  item : ∀ v < count, ∀ j u, (sourcesOf done v)[j]? = some u → s.2.getD (below edges v + j) 0 = u

theorem Placed.place {done rest : List (Nat × Nat)} {edge : Nat × Nat}
    {s : VertexTable Nat × VertexTable Nat} (h : Placed count edges done s)
    (hedges : edges = done ++ edge :: rest) (hedge : edge.2 < count) :
    Placed count edges (done ++ [edge]) (place s edge) := by
  have hconcat : ∀ v, sourcesOf (done ++ [edge]) v =
      if edge.2 = v then sourcesOf done v ++ [edge.1] else sourcesOf done v := by
    intro v
    rw [sourcesOf_append, sourcesOf_cons]
    split <;> simp [sourcesOf]
  have hle : ∀ v, (sourcesOf done v).length ≤ (sourcesOf edges v).length := by
    intro v
    rw [hedges, sourcesOf_append, List.length_append]
    exact Nat.le_add_right _ _
  have hlt : (sourcesOf done edge.2).length < (sourcesOf edges edge.2).length := by
    rw [hedges, sourcesOf_append, sourcesOf_cons, if_pos rfl, List.length_append,
      List.length_cons]
    omega
  have hslot := h.cursor edge.2 hedge
  -- The edge is one that the row still waits for, so its cursor is before the end of the row.
  have hroom : below edges edge.2 + (sourcesOf done edge.2).length < s.2.length :=
    h.length_items ▸ Nat.lt_of_lt_of_le (Nat.add_lt_add_left hlt _) (below_add_le edges hedge)
  refine {
    length_cursors := (VertexTable.length_put _ _ _).trans h.length_cursors
    length_items := (VertexTable.length_put _ _ _).trans h.length_items
    cursor := fun v hv => ?_
    item := fun v hv j u hj => ?_ }
  · rw [Packed.place, VertexTable.getD_put, h.length_cursors, hconcat, hslot]
    by_cases heq : edge.2 = v
    · subst heq
      rw [if_pos ⟨rfl, by omega⟩, if_pos rfl, List.length_append, List.length_singleton,
        Nat.add_assoc]
    · rw [if_neg (fun h' => heq h'.1.symm), if_neg heq, h.cursor v hv]
  · rw [hconcat] at hj
    rw [Packed.place, VertexTable.getD_put, hslot]
    by_cases heq : edge.2 = v
    · subst heq
      rw [if_pos rfl] at hj
      rcases Nat.lt_trichotomy j (sourcesOf done edge.2).length with hjlt | rfl | hjgt
      · rw [List.getElem?_append_left hjlt] at hj
        rw [if_neg (by omega), h.item edge.2 hv j u hj]
      · rw [List.getElem?_concat_length] at hj
        rw [if_pos ⟨rfl, hroom⟩]
        exact Option.some.inj hj
      · rw [List.getElem?_eq_none (by simp; omega)] at hj
        cases hj
    · rw [if_neg heq] at hj
      have hjlt : j < (sourcesOf edges v).length :=
        Nat.lt_of_lt_of_le (List.getElem?_eq_some_iff.1 hj).1 (hle v)
      -- the rows of different targets do not overlap
      have hne : below edges v + j ≠ below edges edge.2 + (sourcesOf done edge.2).length := by
        rcases Nat.lt_or_gt_of_ne heq with hbefore | hafter
        · have hend := below_add_le edges hbefore
          omega
        · have hend := below_add_le edges hafter
          omega
      rw [if_neg (fun h' => hne h'.1), h.item v hv j u hj]

theorem placed_ofEdges (h : ∀ edge ∈ edges, edge.2 < count) :
    Placed count edges edges (edges.foldl place (sumUp (degrees count edges),
      VertexTable.fill 0 ((sumUp (degrees count edges)).getD count 0))) := by
  obtain ⟨hlength, hsum⟩ := sumUp_degrees count edges
  refine foldl_induction place edges _ (Placed count edges) {
    length_cursors := hlength
    length_items := by rw [VertexTable.length_fill, hsum count (Nat.le_refl count)]
    cursor := fun v hv => by rw [hsum v (Nat.le_of_lt hv)]; rfl
    item := fun v hv j u hj => nomatch hj } ?_
  intro done edge rest s hedges hs
  exact hs.place hedges (h edge (by simp [hedges]))

/-- Counting gives every vertex the sources of its edges, in the order of the edges. -/
theorem row_ofEdges (h : ∀ edge ∈ edges, edge.2 < count) {v : Nat} (hv : v < count) :
    (ofEdges count edges).row v = (Incoming.ofEdges count edges).of v := by
  obtain ⟨-, hsum⟩ := sumUp_degrees count edges
  have hplaced := placed_ofEdges h
  have hroom := below_add_le edges hv
  rw [Incoming.of_ofEdges edges hv, Packed.row, ofEdges, hsum v (Nat.le_of_lt hv),
    hsum (v + 1) hv, below_succ]
  refine List.ext_getElem? fun j => ?_
  rw [List.getElem?_drop, List.getElem?_take]
  by_cases hj : j < (sourcesOf edges v).length
  · have hplace : below edges v + j < (edges.foldl place (sumUp (degrees count edges),
        VertexTable.fill 0 ((sumUp (degrees count edges)).getD count 0))).2.length := by
      rw [hplaced.length_items]
      omega
    rw [if_pos (Nat.add_lt_add_left hj _), VertexTable.getElem?_toList hplace 0,
      hplaced.item v hv j _ (List.getElem?_eq_getElem hj)]
    exact (List.getElem?_eq_getElem hj).symm
  · rw [if_neg (by omega)]
    exact (List.getElem?_eq_none (Nat.le_of_not_lt hj)).symm

theorem length_ofEdges (h : ∀ edge ∈ edges, edge.2 < count) :
    (ofEdges count edges).items.length = edges.length ∧
      (Incoming.ofEdges count edges).edgeCount = edges.length := by
  refine ⟨(placed_ofEdges h).length_items.trans (below_eq_length h), ?_⟩
  have hrows : ∀ n ≤ count, ((Incoming.ofEdges count edges).sources.toList.take n).flatten.length =
      below edges n := by
    intro n hn
    induction n with
    | zero => simp [below]
    | succ n ih =>
        have hrow : (Incoming.ofEdges count edges).sources.toList[n]? = some (sourcesOf edges n) := by
          rw [VertexTable.getElem?_toList (by rw [Incoming.length_ofEdges]; exact hn) []]
          exact congrArg some (Incoming.of_ofEdges edges hn)
        rw [List.take_add_one, hrow, Option.toList_some, List.flatten_append, List.length_append,
          ih (by omega), List.flatten_singleton, below_succ]
  have hlength : (Incoming.ofEdges count edges).sources.toList.length = count :=
    Incoming.length_ofEdges count edges
  have hall := hrows count (Nat.le_refl count)
  rwa [List.take_of_length_le (Nat.le_of_eq hlength), below_eq_length h] at hall

end Packed

/-! ## Packed games -/

/-- The rows of all vertices, packed one after the other as they are put in order. -/
def GameBuilder.pack (b : GameBuilder) : Except GameError Packed :=
  b.drafts.entries.foldlM
    (fun p entry => do return p.append (← row b.drafts.length entry.1 entry.2.targets))
    Packed.empty

/-- Packing is refused where building is, and packs the rows of the arena. -/
theorem GameBuilder.pack_eq (b : GameBuilder) :
    b.pack = b.build.map fun g => Packed.ofRows g.arena.successors.toList := by
  have hrows : ∀ (entries : List (Nat × Draft)) (p : Packed),
      entries.foldlM (fun p entry => do
        return p.append (← row b.drafts.length entry.1 entry.2.targets)) p =
      (entries.mapM fun entry => row b.drafts.length entry.1 entry.2.targets).map
        fun rows => rows.foldl Packed.append p := by
    intro entries
    induction entries with
    | nil => exact fun p => rfl
    | cons entry rest ih =>
        intro p
        rw [List.foldlM_cons, List.mapM_cons]
        cases row b.drafts.length entry.1 entry.2.targets with
        | error e => rfl
        | ok made =>
            simp only [ok_bind, pure_bind, ih]
            cases rest.mapM fun entry => row b.drafts.length entry.1 entry.2.targets <;> rfl
  simp only [pack, build, hrows]
  cases b.drafts.entries.mapM fun entry => row b.drafts.length entry.1 entry.2.targets <;> rfl

end ParityGames
