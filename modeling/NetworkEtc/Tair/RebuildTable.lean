-- SUMMARY: What one step of the rebuilding does to a table, and that the books agree with the table after every run.
import NetworkEtc.Tair.SuitableNode

/-!
# `rebuild_table`

The loop goes over the cells of the table. A cell stays, or its bucket gets another master, or the
cell is cleared and gets another server. If there is none, the builder gives up.
-/

namespace Tair

open Library

/-- What the builder relies on, of every kind of builder. -/
structure Virtual.Lawful {σ : Type} (V : Virtual σ) : Prop where
  available : ∀ b id line idx table level inUse,
    V.isThisNodeOK b id line idx table level inUse = .nodeOk → b.isNodeAvailble id = true
  master_lt : ∀ b id idx table level inUse, V.isThisNodeOK b id 0 idx table level inUse = .nodeOk →
    b.mtokens.countInNode id < b.mtokens.capable id + if inUse then 1 else 0
  master_ok : ∀ b id idx table inUse, b.isNodeAvailble id = true →
    (b.mtokens.countInNode id < b.mtokens.capable id + if inUse then 1 else 0) →
      V.isThisNodeOK b id 0 idx table CONSIDER_BASE inUse = .nodeOk
  slave_ne : ∀ b id line idx table level inUse, line ≠ 0 →
    V.isThisNodeOK b id line idx table level inUse = .nodeOk →
      ∀ i < b.copyCount.toNat, i ≠ line → (table i idx).first ≠ id.first
  capable : ∀ b b', V.caculateCapable b = some b' → TableBuilder.SetsCapable b b'

/-- The table with a cell that is nobody's. -/
def HashTable.cleared (table : HashTable) (line idx : Nat) : HashTable :=
  table.set line idx { table line idx with first := 0 }

namespace HashTable

variable {table : HashTable} {line idx : Nat}

@[simp] theorem cleared_set (id : ServerId) :
    (table.cleared line idx).set line idx id = table.set line idx id := by
  funext line' idx'
  by_cases h : (line', idx') = (line, idx)
  · cases h
    rw [set_self, set_self]
  · rw [set_of_ne h, set_of_ne h]
    exact set_of_ne h

theorem cleared_of_ne {line' idx' : Nat} (h : (line', idx') ≠ (line, idx)) :
    table.cleared line idx line' idx' = table line' idx' := set_of_ne h

@[simp] theorem cleared_first : (table.cleared line idx line idx).first = 0 := by
  rw [cleared, set_self]

end HashTable

namespace TableBuilder

variable {σ : Type} {V : Virtual σ} {b b' : TableBuilder σ} {table source : HashTable} {line idx : Nat}

-- ---------------------------------------------------------------------------
-- One cell
-- ---------------------------------------------------------------------------

/-- How the body of the loop ends. -/
inductive RebuildsCell (V : Virtual σ) (b : TableBuilder σ) (table : HashTable) (line idx : Nat) :
    Except (TableBuilder σ × HashTable) (TableBuilder σ × HashTable) → Prop where
  | stays {b' : TableBuilder σ}
      (hok : V.isThisNodeOK b (table line idx) line idx table
        (if line = 0 then CONSIDER_BASE else CONSIDER_ALL) true = .nodeOk)
      (hplan : SamePlan b b') (hbooks : b'.Books table) :
    RebuildsCell V b table line idx (.ok (b', table))
  | promotes {b' : TableBuilder σ} {line' : Nat}
      (hbad : V.isThisNodeOK b (table line idx) line idx table
        (if line = 0 then CONSIDER_BASE else CONSIDER_ALL) true ≠ .nodeOk)
      (hmaster : line = 0) (hline' : line' ∈ b.slaveLines)
      (hid : b.isNodeAvailble (table line' idx) = true)
      (hroom : b.mtokens.countInNode (table line' idx) < b.mtokens.capable (table line' idx))
      (hplan : SamePlan b b') (hbooks : b'.Books (b.promoted idx line' table)) :
    RebuildsCell V b table line idx (.ok (b', b.promoted idx line' table))
  | moves {b' c : TableBuilder σ} {id : ServerId} {level : Nat}
      (hbad : V.isThisNodeOK b (table line idx) line idx table
        (if line = 0 then CONSIDER_BASE else CONSIDER_ALL) true ≠ .nodeOk)
      (hid : id ∈ b.availableServer)
      (hc : SamePlan b c) (hcleared : c.Books (table.cleared line idx))
      (hok : V.isThisNodeOK c id line idx (table.cleared line idx) level false = .nodeOk)
      (hplan : SamePlan b b') (hbooks : b'.Books (table.set line idx id)) :
    RebuildsCell V b table line idx (.ok (b', table.set line idx id))
  | stuck {b' c : TableBuilder σ}
      (hbad : V.isThisNodeOK b (table line idx) line idx table
        (if line = 0 then CONSIDER_BASE else CONSIDER_ALL) true ≠ .nodeOk)
      (hc : SamePlan b c) (hcleared : c.Books (table.cleared line idx))
      (hnone : ∀ id ∈ b.availableServer,
        V.isThisNodeOK c id line idx (table.cleared line idx) CONSIDER_BASE false ≠ .nodeOk ∧
        V.isThisNodeOK c id line idx (table.cleared line idx) CONSIDER_FORCE false ≠ .nodeOk)
      (hplan : SamePlan b b') (hbooks : b'.Books (table.cleared line idx)) :
    RebuildsCell V b table line idx (.error (b', table.cleared line idx))

theorem countNow_samePlan (V : Virtual σ) (b : TableBuilder σ) (id : ServerId) :
    SamePlan b (countNow V b id) := ⟨rfl, rfl, rfl, rfl, rfl, rfl, rfl⟩

theorem Books.countNow (h : b.Books table) (id : ServerId) : (countNow V b id).Books table :=
  h.congr (countNow_samePlan V b id) rfl rfl

/-- The cell is cleared, and gets another server. -/
theorem rebuildCell_cleared (hV : V.Lawful) (h : b.Books table) (hcell : (line, idx) ∈ b.cells)
    (hbad : V.isThisNodeOK b (table line idx) line idx table
      (if line = 0 then CONSIDER_BASE else CONSIDER_ALL) true ≠ .nodeOk)
    (hchanged : line = 0 → (b.changeMasterNode idx table false) = (false, b, table)) :
    RebuildsCell V b table line idx (rebuildCell V (b, table) (line, idx)) := by
  have hc := h.invaliadNode hcell
  have hplan : SamePlan b (b.invaliadNode line idx table).1 := invaliadNode_samePlan
  obtain ⟨calls, hcalls⟩ := exists_getSuitableNode_builder V (b.invaliadNode line idx table).1 line
    idx (b.invaliadNode line idx table).2 (table line idx)
  have hspec := getSuitableNode_spec hV.available (b.invaliadNode line idx table).1 line idx
    (b.invaliadNode line idx table).2 (table line idx)
  have hnone : (if line = 0 then b.changeMasterNode idx table false else (false, b, table)) =
      (false, b, table) := by
    split
    · next hline => exact hchanged hline
    · rfl
  -- every server is a candidate
  have hfiled : ∀ id, (∃ k, SetMap.Filed (if line = 0 then
      (b.invaliadNode line idx table).1.mtokens.candidateNode
      else (b.invaliadNode line idx table).1.tokens.candidateNode) k id) ↔
        id ∈ b.availableServer := by
    intro id
    rw [← hplan.availableServer]
    split
    · constructor
      · rintro ⟨k, hk⟩
        exact ((hc.mindexed.candidateNode k id).mp hk).1
      · exact fun hid => ⟨_, (hc.mindexed.candidateNode _ id).mpr ⟨hid, rfl⟩⟩
    · constructor
      · rintro ⟨k, hk⟩
        exact ((hc.indexed.candidateNode k id).mp hk).1
      · exact fun hid => ⟨_, (hc.indexed.candidateNode _ id).mpr ⟨hid, rfl⟩⟩
  have htable : (b.invaliadNode line idx table).2 = table.cleared line idx := rfl
  unfold rebuildCell
  dsimp only
  rw [if_neg hbad, hnone]
  dsimp only
  rw [if_neg Bool.false_ne_true]
  rw [htable] at hspec hcalls hc ⊢
  generalize getSuitableNode V (b.invaliadNode line idx table).1 line idx
    (table.cleared line idx) (table line idx) = picked at hcalls hspec ⊢
  obtain ⟨id, c⟩ := picked
  generalize (b.invaliadNode line idx table).1 = cleared at *
  dsimp only at hcalls hspec ⊢
  have hpicked : SamePlan b c := by
    rw [hcalls]
    exact hplan.trans (samePlan_randomCalls cleared calls)
  have hbooks : c.Books (table.cleared line idx) := by
    rw [hcalls]
    exact hc.congr (samePlan_randomCalls cleared calls) rfl rfl
  by_cases hzero : id.first = 0
  · rw [if_pos hzero]
    refine .stuck hbad hplan hc (fun id' hid' => ?_) hpicked hbooks
    obtain ⟨k, hk⟩ := (hfiled id').mpr hid'
    obtain ⟨hbase, hforce⟩ := hspec.none hzero k id' hk
    exact ⟨of_decide_eq_false hbase, of_decide_eq_false hforce⟩
  · rw [if_neg hzero, updateNode_table, HashTable.cleared_set]
    obtain ⟨hid, level, hok⟩ := hspec.good hzero
    have hid := (hfiled id).mp hid
    have hnobody : c.isNodeAvailble (table.cleared line idx line idx) = false := by
      rw [Bool.eq_false_iff, Ne, isNodeAvailble_iff]
      exact fun h => h.1 HashTable.cleared_first
    have hupdate := hbooks.updateNode id (by rwa [hpicked.cells]) hnobody
      (by rwa [hpicked.availableServer])
    rw [updateNode_table, HashTable.cleared_set] at hupdate
    refine .moves hbad hid hplan hc (of_decide_eq_true hok) ?_ (hupdate.countNow id)
    exact (hpicked.trans updateNode_samePlan).trans (countNow_samePlan V _ id)

/-- The body of the loop. -/
theorem rebuildCell_spec (hV : V.Lawful) (h : b.Books table) (hcell : (line, idx) ∈ b.cells) :
    RebuildsCell V b table line idx (rebuildCell V (b, table) (line, idx)) := by
  by_cases hok : V.isThisNodeOK b (table line idx) line idx table
      (if line = 0 then CONSIDER_BASE else CONSIDER_ALL) true = .nodeOk
  · unfold rebuildCell
    dsimp only
    rw [if_pos hok]
    exact .stays hok (countNow_samePlan V b _) (h.countNow _)
  · by_cases hline : line = 0
    · subst hline
      have hidx := (mem_cells.mp hcell).2
      have hbooks := h.changeMasterNode false hidx
      have hspec := changeMasterNode_spec b idx table false
      by_cases hchanged : (b.changeMasterNode idx table false).1 = true
      · unfold rebuildCell
        dsimp only
        rw [if_neg hok, if_pos rfl, if_pos hchanged]
        generalize b.changeMasterNode idx table false = result at hchanged hspec hbooks ⊢
        cases hspec with
        | none => exact absurd hchanged Bool.false_ne_true
        | full => exact absurd hchanged Bool.false_ne_true
        | promote hline' hid hleast hroom hplan =>
          exact .promotes hok rfl hline' hid (hroom rfl) hplan hbooks
      · refine rebuildCell_cleared hV h hcell hok fun _ => ?_
        generalize b.changeMasterNode idx table false = result at hchanged hspec hbooks ⊢
        cases hspec with
        | none => rfl
        | full => rfl
        | promote => exact absurd rfl hchanged
    · exact rebuildCell_cleared hV h hcell hok fun h => absurd h hline

-- ---------------------------------------------------------------------------
-- The books
-- ---------------------------------------------------------------------------

/-- However the loop ends. -/
def Ends (P : TableBuilder σ → HashTable → Prop) :
    Except (TableBuilder σ × HashTable) (TableBuilder σ × HashTable) → Prop
  | .ok (b, table) => P b table
  | .error (b, table) => P b table

theorem RebuildsCell.ends {result : Except (TableBuilder σ × HashTable) (TableBuilder σ × HashTable)}
    (h : RebuildsCell V b table line idx result) :
    Ends (fun b' table' => SamePlan b b' ∧ b'.Books table') result := by
  cases h with
  | stays hok hplan hbooks => exact ⟨hplan, hbooks⟩
  | promotes hbad hmaster hline' hid hroom hplan hbooks => exact ⟨hplan, hbooks⟩
  | moves hbad hid hc hcleared hok hplan hbooks => exact ⟨hplan, hbooks⟩
  | stuck hbad hc hcleared hnone hplan hbooks => exact ⟨hplan, hbooks⟩

theorem books_foldlM (hV : V.Lawful) (h : b.Books table) (cells : List (Nat × Nat))
    (hcells : ∀ cell ∈ cells, cell ∈ b.cells) :
    Ends (fun b' table' => SamePlan b b' ∧ b'.Books table')
      (cells.foldlM (rebuildCell V) (b, table)) := by
  induction cells generalizing b table with
  | nil => exact ⟨SamePlan.refl b, h⟩
  | cons cell cells ih =>
    obtain ⟨line, idx⟩ := cell
    have hstep := (rebuildCell_spec hV h (hcells _ List.mem_cons_self)).ends
    rw [List.foldlM_cons]
    generalize rebuildCell V (b, table) (line, idx) = result at hstep ⊢
    match result, hstep with
    | .error (b', table'), hstep => exact hstep
    | .ok (b', table'), ⟨hplan, hbooks⟩ =>
      have hrest := ih (b := b') hbooks fun cell hcell => by
        rw [hplan.cells]
        exact hcells cell (List.mem_cons_of_mem _ hcell)
      change Ends _ (cells.foldlM (rebuildCell V) (b', table'))
      generalize cells.foldlM (rebuildCell V) (b', table') = result at hrest ⊢
      match result, hrest with
      | .error (b'', table''), ⟨hplan', hbooks'⟩ => exact ⟨hplan.trans hplan', hbooks'⟩
      | .ok (b'', table''), ⟨hplan', hbooks'⟩ => exact ⟨hplan.trans hplan', hbooks'⟩

theorem mem_masterCells {cell : Nat × Nat} (h : cell ∈ b.masterCells) : cell ∈ b.cells := by
  unfold masterCells at h
  split at h
  · next hcopy =>
    obtain ⟨idx, hidx, rfl⟩ := List.mem_map.mp h
    exact mem_cells.mpr ⟨hcopy, List.mem_range.mp hidx⟩
  · exact absurd h List.not_mem_nil

theorem mem_slaveCells {cell : Nat × Nat} :
    cell ∈ b.slaveCells ↔ cell.1 ∈ b.slaveLines ∧ cell.2 < b.bucketCount.toNat := by
  obtain ⟨line, idx⟩ := cell
  unfold slaveCells
  rw [List.mem_flatMap]
  constructor
  · rintro ⟨idx', hidx, hmem⟩
    obtain ⟨line', hline, heq⟩ := List.mem_map.mp hmem
    obtain ⟨rfl, rfl⟩ := Prod.mk.inj heq
    exact ⟨hline, List.mem_range.mp hidx⟩
  · rintro ⟨hline, hidx⟩
    exact ⟨idx, List.mem_range.mpr hidx, List.mem_map.mpr ⟨line, hline, rfl⟩⟩

theorem slaveCell_mem_cells {cell : Nat × Nat} (h : cell ∈ b.slaveCells) : cell ∈ b.cells :=
  mem_cells.mpr ⟨(mem_slaveLines.mp (mem_slaveCells.mp h).1).2, (mem_slaveCells.mp h).2⟩

theorem quickMasters_books (h : b.Books table) (idxs : List Nat)
    (hidxs : ∀ idx ∈ idxs, idx < b.bucketCount.toNat) :
    SamePlan b (b.quickMasters table idxs).2.1 ∧
      (b.quickMasters table idxs).2.1.Books (b.quickMasters table idxs).2.2 := by
  induction idxs generalizing b table with
  | nil => exact ⟨SamePlan.refl b, h⟩
  | cons idx idxs ih =>
    have hrest : ∀ idx ∈ idxs, idx < b.bucketCount.toNat :=
      fun idx hidx => hidxs idx (List.mem_cons_of_mem _ hidx)
    rw [quickMasters]
    split
    · exact ih h hrest
    · have hbooks := h.changeMasterNode true (hidxs idx List.mem_cons_self)
      have hspec := changeMasterNode_spec b idx table true
      generalize b.changeMasterNode idx table true = result at hspec hbooks ⊢
      cases hspec with
      | none =>
        dsimp only
        split
        · exact ⟨SamePlan.refl b, h⟩
        · exact ih h hrest
      | full hforce => exact absurd hforce Bool.false_ne_true.symm
      | promote hline hid hleast hroom hplan =>
        obtain ⟨hplan', hbooks'⟩ := ih hbooks fun idx hidx => by
          rw [hplan.bucketCount]
          exact hrest idx hidx
        exact ⟨hplan.trans hplan', hbooks'⟩

/-- What is lost was not counted. -/
theorem Books.quickSlaves (h : b.Books table) : b.Books (b.quickSlaves table) := by
  refine ⟨h.ready, fun id hid => ?_, fun id hid => ?_, h.indexed, h.mindexed⟩
  · rw [h.tokens id hid]
    unfold held
    congr 2
    apply Finset.filter_congr
    rintro ⟨line, idx⟩ -
    rw [Function.uncurry_apply_pair, Function.uncurry_apply_pair]
    unfold TableBuilder.quickSlaves
    split
    · next hlost =>
      constructor
      · rintro rfl
        rw [h.ready.isNodeAvailble_iff.mpr hid] at hlost
        exact absurd hlost.2.2.2.symm Bool.false_ne_true
      · intro heq
        exact absurd heq (h.ready.ne_cleared hid 0)
    · exact Iff.rfl
  · -- line 0 is left alone
    exact h.mtokens id hid

theorem buildQuickTable_books (h : b.Books table) :
    SamePlan b (b.buildQuickTable table).2.1 ∧
      (b.buildQuickTable table).2.1.Books (b.buildQuickTable table).2.2 := by
  have hmasters := quickMasters_books h (List.range b.bucketCount.toNat)
    fun idx hidx => List.mem_range.mp hidx
  unfold buildQuickTable
  generalize b.quickMasters table (List.range b.bucketCount.toNat) = result at hmasters ⊢
  match result, hmasters with
  | (false, b', table'), hmasters => exact hmasters
  | (true, b', table'), ⟨hplan, hbooks⟩ => exact ⟨hplan, hbooks.quickSlaves⟩

/-- Whatever comes of it: what is counted in the end agrees with the table. -/
theorem books_rebuildTable (hV : V.Lawful) (hready : b.Ready) (hcopy : 0 < b.copyCount.toNat)
    {noQuickTable : Bool} {result : BuildResult}
    (h : rebuildTable V b source noQuickTable = some (result, b', table)) : b'.Books table := by
  obtain ⟨c, hc, heq⟩ := Option.bind_eq_some_iff.mp h
  have hbooks := countAll_books hready hcopy hV.capable hc
  have hquick := buildQuickTable_books hbooks
  have hcells := books_foldlM hV hbooks (c.masterCells ++ c.slaveCells) fun cell hcell =>
    (List.mem_append.mp hcell).elim mem_masterCells slaveCell_mem_cells
  split at heq
  · generalize c.buildQuickTable source = result at heq hquick
    match result, hquick with
    | (false, b₁, table₁), hquick =>
      cases heq
      exact hquick.2
    | (true, b₁, table₁), hquick =>
      cases heq
      exact hquick.2
  · split at heq
    · cases heq
      exact hbooks
    · generalize (c.masterCells ++ c.slaveCells).foldlM (rebuildCell V) (c, source) = result
        at heq hcells
      match result, hcells with
      | .error (b₁, table₁), hcells =>
        cases heq
        exact hcells.2
      | .ok (b₁, table₁), hcells =>
        cases heq
        exact hcells.2

end TableBuilder

end Tair
