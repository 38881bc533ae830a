-- SUMMARY: What the builder counts is what the table says, whatever the builder does to the table.
import NetworkEtc.Library.Quota
import NetworkEtc.Tair.TableBuilder

/-!
# The books of a builder

The builder counts how many cells a server has, and how many masters. It keeps two indexes of
these counts. All of it agrees with the table after each of the changes that it makes.
-/

namespace Tair

open Library

-- ---------------------------------------------------------------------------
-- Tables
-- ---------------------------------------------------------------------------

namespace HashTable

variable {table : HashTable} {line idx line' idx' : Nat} {id : ServerId}

theorem set_line (table : HashTable) (line idx : Nat) (id : ServerId) :
    table.set line idx id line = Function.update (table line) idx id := Function.update_self ..

@[simp] theorem set_self : table.set line idx id line idx = id := by
  rw [set_line, Function.update_self]

@[simp] theorem set_other_line (h : line' ≠ line) : table.set line idx id line' = table line' :=
  Function.update_of_ne h ..

theorem set_of_ne (h : (line', idx') ≠ (line, idx)) :
    table.set line idx id line' idx' = table line' idx' := by
  by_cases hline : line' = line
  · subst hline
    rw [set_line, Function.update_of_ne fun hidx => h (by rw [hidx])]
  · rw [set_other_line hline]

theorem uncurry_set (table : HashTable) (line idx : Nat) (id : ServerId) :
    Function.uncurry (table.set line idx id) =
      Function.update (Function.uncurry table) (line, idx) id := by
  funext ⟨line', idx'⟩
  by_cases h : (line', idx') = (line, idx)
  · cases h
    simp
  · rw [Function.update_of_ne h]
    exact set_of_ne h

end HashTable

-- ---------------------------------------------------------------------------
-- Counts
-- ---------------------------------------------------------------------------

namespace Counts

/-- The indexes have every server, where its count belongs. -/
structure Indexed (counts : Counts) (servers : List ServerId) : Prop where
  countServer : ∀ k id, counts.countServer.Filed k id ↔ id ∈ servers ∧ k = counts.countInNode id
  candidateNode : ∀ k id, counts.candidateNode.Filed k id ↔
    id ∈ servers ∧ k = counts.countInNode id - counts.capable id

variable {counts : Counts} {servers : List ServerId} {id id' : ServerId} {minus : Bool}

@[simp] theorem changeTokensCountInNode_capable :
    (counts.changeTokensCountInNode id minus).capable = counts.capable := rfl

theorem changeTokensCountInNode_minus : ((counts.changeTokensCountInNode id true).countInNode id') =
    counts.countInNode id' - if id = id' then 1 else 0 := by
  unfold changeTokensCountInNode
  dsimp only
  by_cases h : id = id'
  · subst h
    rw [Function.update_self, if_pos rfl, if_pos rfl]
  · rw [Function.update_of_ne fun heq => h heq.symm, if_neg h, Int.sub_zero]

theorem changeTokensCountInNode_plus : ((counts.changeTokensCountInNode id false).countInNode id') =
    counts.countInNode id' + if id = id' then 1 else 0 := by
  unfold changeTokensCountInNode
  dsimp only
  by_cases h : id = id'
  · subst h
    rw [Function.update_self, if_neg Bool.false_ne_true, if_pos rfl]
  · rw [Function.update_of_ne fun heq => h heq.symm, if_neg h, Int.add_zero]

theorem Indexed.change (h : counts.Indexed servers) (hid : id ∈ servers) :
    (counts.changeTokensCountInNode id minus).Indexed servers := by
  constructor
  · intro k id'
    unfold changeTokensCountInNode
    dsimp only
    rw [SetMap.filed_file, SetMap.filed_strike, h.countServer]
    by_cases heq : id' = id
    · subst heq
      rw [Function.update_self]
      constructor
      · rintro (⟨rfl, -⟩ | ⟨⟨-, rfl⟩, hne⟩)
        · exact ⟨hid, rfl⟩
        · exact absurd ⟨rfl, rfl⟩ hne
      · rintro ⟨-, rfl⟩
        exact Or.inl ⟨rfl, rfl⟩
    · rw [Function.update_of_ne heq]
      simp [heq]
  · intro k id'
    unfold changeTokensCountInNode
    dsimp only
    rw [SetMap.filed_file, SetMap.filed_strike, h.candidateNode]
    by_cases heq : id' = id
    · subst heq
      rw [Function.update_self]
      constructor
      · rintro (⟨rfl, -⟩ | ⟨⟨-, rfl⟩, hne⟩)
        · exact ⟨hid, rfl⟩
        · exact absurd ⟨rfl, rfl⟩ hne
      · rintro ⟨-, rfl⟩
        exact Or.inl ⟨rfl, rfl⟩
    · rw [Function.update_of_ne heq]
      simp [heq]

end Counts

-- ---------------------------------------------------------------------------
-- Books
-- ---------------------------------------------------------------------------

namespace TableBuilder

variable {σ : Type}

/-- All cells of a table. -/
def cells (b : TableBuilder σ) : Finset (Nat × Nat) :=
  Finset.range b.copyCount.toNat ×ˢ Finset.range b.bucketCount.toNat

/-- The buckets. -/
def buckets (b : TableBuilder σ) : Finset Nat := Finset.range b.bucketCount.toNat

/-- Servers have ids, and no two of them have the same. -/
structure Ready (b : TableBuilder σ) : Prop where
  nonzero : ∀ id ∈ b.availableServer, id.first ≠ 0
  nodup : (b.availableServer.map ServerId.first).Nodup

/-- What is counted agrees with the table. -/
structure Books (b : TableBuilder σ) (table : HashTable) : Prop where
  ready : b.Ready
  tokens : ∀ id ∈ b.availableServer,
    b.tokens.countInNode id = held b.cells (Function.uncurry table) id
  mtokens : ∀ id ∈ b.availableServer, b.mtokens.countInNode id = held b.buckets (table 0) id
  indexed : b.tokens.Indexed b.availableServer
  mindexed : b.mtokens.Indexed b.availableServer

/-- Nothing but counts has changed. -/
structure SamePlan (b b' : TableBuilder σ) : Prop where
  availableServer : b'.availableServer = b.availableServer
  bucketCount : b'.bucketCount = b.bucketCount
  copyCount : b'.copyCount = b.copyCount
  capable : b'.tokens.capable = b.tokens.capable
  mcapable : b'.mtokens.capable = b.mtokens.capable
  dLostFlag : b'.dLostFlag = b.dLostFlag
  own : b'.own = b.own

variable {b b' b'' : TableBuilder σ} {table : HashTable} {lineNum nodeIdx : Nat} {id : ServerId}

namespace SamePlan

@[refl] theorem refl (b : TableBuilder σ) : SamePlan b b := ⟨rfl, rfl, rfl, rfl, rfl, rfl, rfl⟩

theorem trans (h : SamePlan b b') (h' : SamePlan b' b'') : SamePlan b b'' where
  availableServer := h'.availableServer.trans h.availableServer
  bucketCount := h'.bucketCount.trans h.bucketCount
  copyCount := h'.copyCount.trans h.copyCount
  capable := h'.capable.trans h.capable
  mcapable := h'.mcapable.trans h.mcapable
  dLostFlag := h'.dLostFlag.trans h.dLostFlag
  own := h'.own.trans h.own

theorem cells (h : SamePlan b b') : b'.cells = b.cells := by
  rw [TableBuilder.cells, TableBuilder.cells, h.copyCount, h.bucketCount]

theorem buckets (h : SamePlan b b') : b'.buckets = b.buckets := by
  rw [TableBuilder.buckets, TableBuilder.buckets, h.bucketCount]

theorem isNodeAvailble (h : SamePlan b b') : b'.isNodeAvailble id = b.isNodeAvailble id := by
  rw [TableBuilder.isNodeAvailble, TableBuilder.isNodeAvailble, h.availableServer]

theorem slaveLines (h : SamePlan b b') : b'.slaveLines = b.slaveLines := by
  rw [TableBuilder.slaveLines, TableBuilder.slaveLines, h.copyCount]

theorem ready (h : SamePlan b b') (hready : b.Ready) : b'.Ready := by
  constructor
  · rw [h.availableServer]
    exact hready.nonzero
  · rw [h.availableServer]
    exact hready.nodup

end SamePlan

theorem mem_cells : (lineNum, nodeIdx) ∈ b.cells ↔
    lineNum < b.copyCount.toNat ∧ nodeIdx < b.bucketCount.toNat := by
  rw [cells, Finset.mem_product, Finset.mem_range, Finset.mem_range]

theorem mem_buckets : nodeIdx ∈ b.buckets ↔ nodeIdx < b.bucketCount.toNat := by
  rw [buckets, Finset.mem_range]

theorem mem_slaveLines : lineNum ∈ b.slaveLines ↔ 1 ≤ lineNum ∧ lineNum < b.copyCount.toNat := by
  rw [slaveLines, List.mem_range'_1]
  omega

theorem isNodeAvailble_iff : b.isNodeAvailble id = true ↔ id.first ≠ 0 ∧ id ∈ b.availableServer := by
  rw [isNodeAvailble, decide_eq_true_iff]

namespace Ready

theorem isNodeAvailble_iff (h : b.Ready) : b.isNodeAvailble id = true ↔ id ∈ b.availableServer := by
  rw [TableBuilder.isNodeAvailble_iff]
  exact and_iff_right_of_imp (h.nonzero id)

/-- Cleared cells are not counted. -/
theorem ne_cleared (h : b.Ready) (hid : id ∈ b.availableServer) (second : UInt32) :
    (⟨0, second⟩ : ServerId) ≠ id := by
  rintro rfl
  exact h.nonzero _ hid rfl

end Ready

-- ---------------------------------------------------------------------------
-- Changes
-- ---------------------------------------------------------------------------

theorem invaliadNode_table : (b.invaliadNode lineNum nodeIdx table).2 =
    table.set lineNum nodeIdx { table lineNum nodeIdx with first := 0 } := rfl

theorem updateNode_table : (b.updateNode lineNum nodeIdx id table).2 =
    table.set lineNum nodeIdx id := rfl

theorem invaliadNode_builder : (b.invaliadNode lineNum nodeIdx table).1 =
    if b.isNodeAvailble (table lineNum nodeIdx) then
      { b with
        tokens := b.tokens.changeTokensCountInNode (table lineNum nodeIdx) true
        mtokens :=
          if lineNum = 0 then b.mtokens.changeTokensCountInNode (table lineNum nodeIdx) true
          else b.mtokens }
    else b := rfl

theorem updateNode_builder : (b.updateNode lineNum nodeIdx id table).1 =
    if b.isNodeAvailble id then
      { b with
        tokens := b.tokens.changeTokensCountInNode id false
        mtokens :=
          if lineNum = 0 then b.mtokens.changeTokensCountInNode id false else b.mtokens }
    else b := rfl

theorem invaliadNode_samePlan : SamePlan b (b.invaliadNode lineNum nodeIdx table).1 := by
  rw [invaliadNode_builder]
  split
  · exact ⟨rfl, rfl, rfl, rfl, by dsimp only; split <;> rfl, rfl, rfl⟩
  · exact SamePlan.refl b

theorem updateNode_samePlan : SamePlan b (b.updateNode lineNum nodeIdx id table).1 := by
  rw [updateNode_builder]
  split
  · exact ⟨rfl, rfl, rfl, rfl, by dsimp only; split <;> rfl, rfl, rfl⟩
  · exact SamePlan.refl b

/-- The masters that a server has, when a cell changes hands. -/
theorem held_line_set (table : HashTable) (id id' : ServerId) (hcell : (lineNum, nodeIdx) ∈ b.cells) :
    (held b.buckets (table.set lineNum nodeIdx id 0) id' : Int) = held b.buckets (table 0) id' +
      if lineNum = 0 then (if id = id' then 1 else 0) - (if table 0 nodeIdx = id' then 1 else 0)
      else 0 := by
  by_cases hline : lineNum = 0
  · subst hline
    rw [HashTable.set_line, held_update (mem_buckets.mpr (mem_cells.mp hcell).2), if_pos rfl]
    omega
  · rw [HashTable.set_other_line fun h => hline h.symm, if_neg hline, Int.add_zero]

theorem held_cells_set (table : HashTable) (id id' : ServerId) (hcell : (lineNum, nodeIdx) ∈ b.cells) :
    (held b.cells (Function.uncurry (table.set lineNum nodeIdx id)) id' : Int) =
      held b.cells (Function.uncurry table) id' + (if id = id' then 1 else 0) -
        if table lineNum nodeIdx = id' then 1 else 0 := by
  rw [HashTable.uncurry_set, held_update hcell, Function.uncurry_apply_pair]
  omega

namespace Books

/-- The books do not depend on anything but the counts. -/
theorem congr (h : b.Books table) (hplan : SamePlan b b') (htokens : b'.tokens = b.tokens)
    (hmtokens : b'.mtokens = b.mtokens) : b'.Books table where
  ready := hplan.ready h.ready
  tokens := by
    rw [hplan.availableServer, hplan.cells, htokens]
    exact h.tokens
  mtokens := by
    rw [hplan.availableServer, hplan.buckets, hmtokens]
    exact h.mtokens
  indexed := by
    rw [hplan.availableServer, htokens]
    exact h.indexed
  mindexed := by
    rw [hplan.availableServer, hmtokens]
    exact h.mindexed

/-- A cell is cleared. -/
theorem invaliadNode (h : b.Books table) (hcell : (lineNum, nodeIdx) ∈ b.cells) :
    (b.invaliadNode lineNum nodeIdx table).1.Books (b.invaliadNode lineNum nodeIdx table).2 := by
  have hheld := fun id' => held_cells_set table { table lineNum nodeIdx with first := 0 } id' hcell
  have hmheld := fun id' => held_line_set table { table lineNum nodeIdx with first := 0 } id' hcell
  rw [invaliadNode_builder, invaliadNode_table]
  by_cases hid : b.isNodeAvailble (table lineNum nodeIdx) = true
  · have hmem := h.ready.isNodeAvailble_iff.mp hid
    rw [if_pos hid]
    refine ⟨⟨h.ready.nonzero, h.ready.nodup⟩, fun id' hid' => ?_, fun id' hid' => ?_,
      h.indexed.change hmem, ?_⟩
    · change (b.tokens.changeTokensCountInNode _ true).countInNode id' = held b.cells _ id'
      rw [Counts.changeTokensCountInNode_minus, hheld, h.tokens id' hid',
        if_neg (h.ready.ne_cleared hid' _)]
      omega
    · change _ = ((held b.buckets _ id' : Nat) : Int)
      dsimp only
      rw [hmheld, if_neg (h.ready.ne_cleared hid' _)]
      by_cases hline : lineNum = 0
      · subst hline
        rw [if_pos rfl, if_pos rfl, Counts.changeTokensCountInNode_minus, h.mtokens id' hid']
        omega
      · rw [if_neg hline, if_neg hline, h.mtokens id' hid', Int.add_zero]
    · dsimp only
      split
      · exact h.mindexed.change hmem
      · exact h.mindexed
  · have hne : ∀ id' ∈ b.availableServer, table lineNum nodeIdx ≠ id' := by
      rintro id' hid' rfl
      exact hid (h.ready.isNodeAvailble_iff.mpr hid')
    rw [if_neg hid]
    refine ⟨h.ready, fun id' hid' => ?_, fun id' hid' => ?_, h.indexed, h.mindexed⟩
    · rw [hheld, h.tokens id' hid', if_neg (h.ready.ne_cleared hid' _), if_neg (hne id' hid')]
      omega
    · rw [hmheld, h.mtokens id' hid', if_neg (h.ready.ne_cleared hid' _)]
      by_cases hline : lineNum = 0
      · subst hline
        rw [if_pos rfl, if_neg (hne id' hid')]
        omega
      · rw [if_neg hline, Int.add_zero]

/-- A cell that was nobody's gets a server. -/
theorem updateNode (h : b.Books table) (id : ServerId) (hcell : (lineNum, nodeIdx) ∈ b.cells)
    (hold : b.isNodeAvailble (table lineNum nodeIdx) = false) (hid : id ∈ b.availableServer) :
    (b.updateNode lineNum nodeIdx id table).1.Books (b.updateNode lineNum nodeIdx id table).2 := by
  have hheld := fun id' => held_cells_set table id id' hcell
  have hmheld := fun id' => held_line_set table id id' hcell
  have hne : ∀ id' ∈ b.availableServer, table lineNum nodeIdx ≠ id' := by
    rintro id' hid' rfl
    rw [h.ready.isNodeAvailble_iff.mpr hid'] at hold
    exact absurd hold.symm Bool.false_ne_true
  rw [updateNode_builder, updateNode_table, if_pos (h.ready.isNodeAvailble_iff.mpr hid)]
  refine ⟨⟨h.ready.nonzero, h.ready.nodup⟩, fun id' hid' => ?_, fun id' hid' => ?_,
    h.indexed.change hid, ?_⟩
  · change (b.tokens.changeTokensCountInNode _ false).countInNode id' = held b.cells _ id'
    rw [Counts.changeTokensCountInNode_plus, hheld, h.tokens id' hid', if_neg (hne id' hid'),
      Int.sub_zero]
  · change _ = ((held b.buckets _ id' : Nat) : Int)
    dsimp only
    rw [hmheld]
    by_cases hline : lineNum = 0
    · subst hline
      rw [if_pos rfl, if_pos rfl, Counts.changeTokensCountInNode_plus, h.mtokens id' hid',
        if_neg (hne id' hid'), Int.sub_zero]
    · rw [if_neg hline, if_neg hline, h.mtokens id' hid', Int.add_zero]
  · dsimp only
    split
    · exact h.mindexed.change hid
    · exact h.mindexed

end Books

-- ---------------------------------------------------------------------------
-- Another master
-- ---------------------------------------------------------------------------

/-- What has been chosen of some lines: a server that is available, with the fewest masters. -/
def Chosen (b : TableBuilder σ) (idx : Nat) (table : HashTable) (lines : List Nat) :
    Option (Nat × Int) → Prop
  | none => ∀ line ∈ lines, b.isNodeAvailble (table line idx) = false
  | some (line, count) => line ∈ lines ∧ b.isNodeAvailble (table line idx) = true ∧
    count = b.mtokens.countInNode (table line idx) ∧ ∀ line' ∈ lines,
      b.isNodeAvailble (table line' idx) = true → count ≤ b.mtokens.countInNode (table line' idx)

variable {idx line : Nat} {count : Int}

theorem chosenLine_spec (b : TableBuilder σ) (idx : Nat) (table : HashTable) :
    b.Chosen idx table b.slaveLines (b.chosenLine idx table) := by
  unfold chosenLine
  induction b.slaveLines using List.reverseRecOn with
  | nil => exact fun line hline => absurd hline List.not_mem_nil
  | append_singleton lines next ih =>
    rw [List.foldl_append, List.foldl_cons, List.foldl_nil]
    generalize lines.foldl _ _ = chosen at ih ⊢
    by_cases hid : b.isNodeAvailble (table next idx) = true
    · rw [if_pos hid]
      dsimp only
      match chosen, ih with
      | none, ih =>
        refine ⟨List.mem_append_right _ List.mem_cons_self, hid, rfl, fun line' hline' hid' => ?_⟩
        rcases List.mem_append.mp hline' with h | h
        · exact absurd (hid'.symm.trans (ih line' h)) Bool.true_eq_false_eq_False
        · rw [List.mem_singleton.mp h]
      | some (line, count), ⟨hline, havail, hcount, hleast⟩ =>
        dsimp only
        split
        · next hlt =>
          refine ⟨List.mem_append_right _ List.mem_cons_self, hid, rfl, fun line' hline' hid' => ?_⟩
          rcases List.mem_append.mp hline' with h | h
          · have := hleast line' h hid'
            omega
          · rw [List.mem_singleton.mp h]
        · next hge =>
          refine ⟨List.mem_append_left _ hline, havail, hcount, fun line' hline' hid' => ?_⟩
          rcases List.mem_append.mp hline' with h | h
          · exact hleast line' h hid'
          · rw [List.mem_singleton.mp h]
            omega
    · rw [if_neg hid]
      match chosen, ih with
      | none, ih =>
        intro line' hline'
        rcases List.mem_append.mp hline' with h | h
        · exact ih line' h
        · rw [List.mem_singleton.mp h]
          exact Bool.eq_false_iff.mpr hid
      | some (line, count), ⟨hline, havail, hcount, hleast⟩ =>
        refine ⟨List.mem_append_left _ hline, havail, hcount, fun line' hline' hid' => ?_⟩
        rcases List.mem_append.mp hline' with h | h
        · exact hleast line' h hid'
        · rw [List.mem_singleton.mp h] at hid'
          exact absurd hid' hid

/-- What `change_master_node` does to a table: the copy in `line` becomes the master. -/
def promoted (b : TableBuilder σ) (idx line : Nat) (table : HashTable) : HashTable :=
  (table.set 0 idx (table line idx)).set line idx
    (if b.isNodeAvailble (table 0 idx) then table 0 idx else { table line idx with first := 0 })

/-- How `change_master_node` ends. -/
inductive ChangesMaster (b : TableBuilder σ) (idx : Nat) (table : HashTable) (forceFlag : Bool) :
    Bool × TableBuilder σ × HashTable → Prop where
  | none (h : ∀ line ∈ b.slaveLines, b.isNodeAvailble (table line idx) = false) :
    ChangesMaster b idx table forceFlag (false, b, table)
  | full (hforce : forceFlag = false) : ChangesMaster b idx table forceFlag (false, b, table)
  | promote {b' : TableBuilder σ} {line : Nat} (hline : line ∈ b.slaveLines)
      (hid : b.isNodeAvailble (table line idx) = true)
      (hleast : ∀ line' ∈ b.slaveLines, b.isNodeAvailble (table line' idx) = true →
        b.mtokens.countInNode (table line idx) ≤ b.mtokens.countInNode (table line' idx))
      (hroom : forceFlag = false →
        b.mtokens.countInNode (table line idx) < b.mtokens.capable (table line idx))
      (hplan : SamePlan b b') (htokens : b'.tokens = b.tokens)
      (hmtokens : b'.mtokens =
        if b.isNodeAvailble (table 0 idx) then
          (b.mtokens.changeTokensCountInNode (table line idx) false).changeTokensCountInNode
            (table 0 idx) true
        else b.mtokens.changeTokensCountInNode (table line idx) false) :
    ChangesMaster b idx table forceFlag (true, b', b.promoted idx line table)

theorem changeMasterNode_spec (b : TableBuilder σ) (idx : Nat) (table : HashTable)
    (forceFlag : Bool) :
    ChangesMaster b idx table forceFlag (b.changeMasterNode idx table forceFlag) := by
  have hspec := chosenLine_spec b idx table
  unfold changeMasterNode
  cases hchosen : b.chosenLine idx table with
  | none =>
    rw [hchosen] at hspec
    exact .none hspec
  | some chosen =>
    obtain ⟨line, count⟩ := chosen
    rw [hchosen] at hspec
    obtain ⟨hline, hid, rfl, hleast⟩ := hspec
    dsimp only
    split
    · next hfull => exact .full hfull.1
    · next hroom =>
      have hroom : forceFlag = false →
          b.mtokens.countInNode (table line idx) < b.mtokens.capable (table line idx) :=
        fun hforce => Int.not_le.mp fun hle => hroom ⟨hforce, hle⟩
      by_cases horg : b.isNodeAvailble (table 0 idx) = true
      · have htable : b.promoted idx line table =
            (table.set 0 idx (table line idx)).set line idx (table 0 idx) := by
          rw [promoted, if_pos horg]
        rw [if_pos (by exact horg), ← htable]
        exact .promote hline hid hleast hroom ⟨rfl, rfl, rfl, rfl, rfl, rfl, rfl⟩ rfl
          (by rw [if_pos horg])
      · have htable : b.promoted idx line table = (table.set 0 idx (table line idx)).set line idx
            { table line idx with first := 0 } := by
          rw [promoted, if_neg horg]
        rw [if_neg (by exact horg), ← htable]
        exact .promote hline hid hleast hroom ⟨rfl, rfl, rfl, rfl, rfl, rfl, rfl⟩ rfl
          (by rw [if_neg horg])

theorem promoted_master (hline : line ∈ b.slaveLines) :
    b.promoted idx line table 0 = Function.update (table 0) idx (table line idx) := by
  have := (mem_slaveLines.mp hline).1
  rw [promoted, HashTable.set_other_line (by omega), HashTable.set_line]

/-- Only two copies of the bucket have changed. -/
theorem promoted_of_ne {line' idx' : Nat} (h : idx' ≠ idx ∨ line' ≠ 0 ∧ line' ≠ line) :
    b.promoted idx line table line' idx' = table line' idx' := by
  rw [promoted, HashTable.set_of_ne, HashTable.set_of_ne]
  · rintro ⟨⟩
    simp at h
  · rintro ⟨⟩
    simp at h

theorem Books.promoted (h : b.Books table) (hidx : idx < b.bucketCount.toNat)
    (hline : line ∈ b.slaveLines) (hid : b.isNodeAvailble (table line idx) = true)
    (hplan : SamePlan b b') (htokens : b'.tokens = b.tokens)
    (hmtokens : b'.mtokens =
      if b.isNodeAvailble (table 0 idx) then
        (b.mtokens.changeTokensCountInNode (table line idx) false).changeTokensCountInNode
          (table 0 idx) true
      else b.mtokens.changeTokensCountInNode (table line idx) false) :
    b'.Books (b.promoted idx line table) := by
  have hlines := mem_slaveLines.mp hline
  have hmem := h.ready.isNodeAvailble_iff.mp hid
  have hmaster : (0, idx) ∈ b.cells := mem_cells.mpr ⟨by omega, hidx⟩
  have hcell : (line, idx) ∈ b.cells := mem_cells.mpr ⟨hlines.2, hidx⟩
  refine ⟨hplan.ready h.ready, fun id hid' => ?_, fun id hid' => ?_, ?_, ?_⟩
  · rw [hplan.availableServer] at hid'
    rw [htokens, h.tokens id hid', hplan.cells, TableBuilder.promoted, held_cells_set _ _ _ hcell,
      held_cells_set _ _ _ hmaster, HashTable.set_other_line (by omega)]
    by_cases horg : b.isNodeAvailble (table 0 idx) = true
    · rw [if_pos horg]
      omega
    · have hne : table 0 idx ≠ id := by
        rintro rfl
        exact horg (h.ready.isNodeAvailble_iff.mpr hid')
      rw [if_neg horg, if_neg (h.ready.ne_cleared hid' _), if_neg hne]
      omega
  · rw [hplan.availableServer] at hid'
    rw [hplan.buckets, promoted_master hline, held_update (mem_buckets.mpr hidx), hmtokens]
    by_cases horg : b.isNodeAvailble (table 0 idx) = true
    · rw [if_pos horg, Counts.changeTokensCountInNode_minus, Counts.changeTokensCountInNode_plus,
        h.mtokens id hid']
      omega
    · have hne : table 0 idx ≠ id := by
        rintro rfl
        exact horg (h.ready.isNodeAvailble_iff.mpr hid')
      rw [if_neg horg, Counts.changeTokensCountInNode_plus, h.mtokens id hid', if_neg hne]
      omega
  · rw [hplan.availableServer, htokens]
    exact h.indexed
  · rw [hplan.availableServer, hmtokens]
    by_cases horg : b.isNodeAvailble (table 0 idx) = true
    · rw [if_pos horg]
      exact (h.mindexed.change hmem).change (h.ready.isNodeAvailble_iff.mp horg)
    · rw [if_neg horg]
      exact h.mindexed.change hmem

/-- Another master, or the same: the books agree. -/
theorem Books.changeMasterNode (h : b.Books table) (forceFlag : Bool)
    (hidx : idx < b.bucketCount.toNat) : (b.changeMasterNode idx table forceFlag).2.1.Books
      (b.changeMasterNode idx table forceFlag).2.2 := by
  have hspec := changeMasterNode_spec b idx table forceFlag
  generalize b.changeMasterNode idx table forceFlag = result at hspec ⊢
  cases hspec with
  | none => exact h
  | full => exact h
  | promote hline hid hleast hroom hplan htokens hmtokens =>
    exact h.promoted hidx hline hid hplan htokens hmtokens

-- ---------------------------------------------------------------------------
-- Counting
-- ---------------------------------------------------------------------------

theorem collect_eq_count {l : List ServerId} (hid : id ∈ b.availableServer) :
    b.collect l id = l.count id := by
  unfold collect
  induction l using List.reverseRecOn with
  | nil => rfl
  | append_singleton l id' ih =>
    rw [List.foldl_append, List.foldl_cons, List.foldl_nil, List.count_append,
      List.count_singleton, updateNodeCount]
    by_cases heq : id' = id
    · subst heq
      rw [if_pos hid]
      dsimp only
      rw [Function.update_self, ih]
      simp
    · split
      · dsimp only
        rw [Function.update_of_ne fun h => heq h.symm, ih]
        simp [heq]
      · dsimp only
        rw [ih]
        simp [heq]

theorem filed_buildIndex {collector : ServerId → Int} {k : Int} :
    (b.buildIndex collector).Filed k id ↔ id ∈ b.availableServer ∧ k = collector id := by
  rw [buildIndex, SetMap.filed_fileAll, List.mem_map]
  constructor
  · rintro ⟨id', hid', heq⟩
    obtain ⟨rfl, rfl⟩ := Prod.mk.inj heq
    exact ⟨hid', rfl⟩
  · rintro ⟨hid, rfl⟩
    exact ⟨id, hid, rfl⟩

theorem filed_initCandidate {capable : ServerId → Int} {countServer : Index} {k : Int} :
    SetMap.Filed (initCandidate capable countServer) k id ↔
      ∃ k', countServer.Filed k' id ∧ k = k' - capable id := by
  rw [initCandidate, SetMap.filed_fileAll, List.mem_flatMap]
  constructor
  · rintro ⟨⟨k', set⟩, he, hmem⟩
    obtain ⟨id', hid', heq⟩ := List.mem_map.mp hmem
    obtain ⟨rfl, rfl⟩ := Prod.mk.inj heq
    exact ⟨k', ⟨set, he, hid'⟩, rfl⟩
  · rintro ⟨k', ⟨set, he, hid⟩, rfl⟩
    exact ⟨(k', set), he, List.mem_map.mpr ⟨id, hid, rfl⟩⟩

/-- The indexes are made from the counts. -/
theorem indexed_of_counts {counts : Counts} (collector : ServerId → Int) (b : TableBuilder σ)
    (hcount : counts.countInNode = collector) (hserver : counts.countServer = b.buildIndex collector)
    (hcandidate : counts.candidateNode = initCandidate counts.capable counts.countServer) :
    counts.Indexed b.availableServer := by
  have hindex : ∀ k id, counts.countServer.Filed k id ↔
      id ∈ b.availableServer ∧ k = counts.countInNode id := by
    intro k id
    rw [hserver, hcount]
    exact filed_buildIndex
  refine ⟨hindex, fun k id => ?_⟩
  rw [hcandidate, filed_initCandidate]
  constructor
  · rintro ⟨k', hfiled, rfl⟩
    obtain ⟨hid, rfl⟩ := (hindex k' id).mp hfiled
    exact ⟨hid, rfl⟩
  · rintro ⟨hid, rfl⟩
    exact ⟨counts.countInNode id, (hindex _ id).mpr ⟨hid, rfl⟩, rfl⟩

theorem count_cells (b : TableBuilder σ) (source : HashTable) (id : ServerId) :
    ((List.range b.copyCount.toNat).flatMap fun line =>
      (List.range b.bucketCount.toNat).map (source line)).count id =
      held b.cells (Function.uncurry source) id := by
  have hcells : b.cells = (List.range b.copyCount.toNat ×ˢ List.range b.bucketCount.toNat).toFinset := by
    ext ⟨line, idx⟩
    rw [mem_cells, List.mem_toFinset, List.mem_product, List.mem_range, List.mem_range]
  have hmap : ((List.range b.copyCount.toNat).flatMap fun line =>
      (List.range b.bucketCount.toNat).map (source line)) =
      (List.range b.copyCount.toNat ×ˢ List.range b.bucketCount.toNat).map
        (Function.uncurry source) := by
    change _ = (List.flatMap _ _).map _
    rw [List.map_flatMap]
    simp only [List.map_map]
    rfl
  rw [hcells, ← count_map_eq_held (List.nodup_range.product List.nodup_range), hmap]

theorem count_buckets (b : TableBuilder σ) (source : HashTable) (id : ServerId) :
    ((List.range b.bucketCount.toNat).map (source 0)).count id = held b.buckets (source 0) id := by
  have hbuckets : b.buckets = (List.range b.bucketCount.toNat).toFinset := by
    ext idx
    rw [mem_buckets, List.mem_toFinset, List.mem_range]
  rw [hbuckets, count_map_eq_held List.nodup_range]

/-- What a kind of builder says about capacities is all that it says. -/
structure SetsCapable (b b' : TableBuilder σ) : Prop where
  tokens : b'.tokens = { b.tokens with capable := b'.tokens.capable }
  mtokens : b'.mtokens = { b.mtokens with capable := b'.mtokens.capable }
  availableServer : b'.availableServer = b.availableServer
  bucketCount : b'.bucketCount = b.bucketCount
  copyCount : b'.copyCount = b.copyCount
  dLostFlag : b'.dLostFlag = b.dLostFlag

/-- Counting does not change what the builder is to do. -/
structure SameTask (b b' : TableBuilder σ) : Prop where
  availableServer : b'.availableServer = b.availableServer
  bucketCount : b'.bucketCount = b.bucketCount
  copyCount : b'.copyCount = b.copyCount
  dLostFlag : b'.dLostFlag = b.dLostFlag

theorem countAll_sets {V : Virtual σ} {source : HashTable}
    (hV : ∀ c c', V.caculateCapable c = some c' → SetsCapable c c')
    (h : countAll V b source = some b') : SameTask b b' := by
  obtain ⟨c, hc, heq⟩ := Option.bind_eq_some_iff.mp h
  obtain ⟨-, -, havail, hbucket, hcopy, hflag⟩ := hV _ _ hc
  rw [← Option.some.inj heq]
  exact ⟨havail, hbucket, hcopy, hflag⟩

theorem SamePlan.sameTask (h : SamePlan b b') : SameTask b b' :=
  ⟨h.availableServer, h.bucketCount, h.copyCount, h.dLostFlag⟩

namespace SameTask

@[refl] theorem refl (b : TableBuilder σ) : SameTask b b := ⟨rfl, rfl, rfl, rfl⟩

theorem trans (h : SameTask b b') (h' : SameTask b' b'') : SameTask b b'' where
  availableServer := h'.availableServer.trans h.availableServer
  bucketCount := h'.bucketCount.trans h.bucketCount
  copyCount := h'.copyCount.trans h.copyCount
  dLostFlag := h'.dLostFlag.trans h.dLostFlag

theorem cells (h : SameTask b b') : b'.cells = b.cells := by
  rw [TableBuilder.cells, TableBuilder.cells, h.copyCount, h.bucketCount]

theorem buckets (h : SameTask b b') : b'.buckets = b.buckets := by
  rw [TableBuilder.buckets, TableBuilder.buckets, h.bucketCount]

theorem slaveLines (h : SameTask b b') : b'.slaveLines = b.slaveLines := by
  rw [TableBuilder.slaveLines, TableBuilder.slaveLines, h.copyCount]

theorem isNodeAvailble (h : SameTask b b') : b'.isNodeAvailble id = b.isNodeAvailble id := by
  rw [TableBuilder.isNodeAvailble, TableBuilder.isNodeAvailble, h.availableServer]

theorem ready (h : SameTask b b') (hready : b.Ready) : b'.Ready := by
  constructor
  · rw [h.availableServer]
    exact hready.nonzero
  · rw [h.availableServer]
    exact hready.nodup

end SameTask

/-- The books are opened. -/
theorem countAll_books {V : Virtual σ} {source : HashTable} (hready : b.Ready)
    (hcopy : 0 < b.copyCount.toNat)
    (hV : ∀ c c', V.caculateCapable c = some c' → SetsCapable c c')
    (h : countAll V b source = some b') : b'.Books source := by
  have htask := countAll_sets hV h
  obtain ⟨c, hc, heq⟩ := Option.bind_eq_some_iff.mp h
  obtain ⟨htokens, hmtokens, -⟩ := hV _ _ hc
  have heq := Option.some.inj heq
  refine ⟨htask.ready hready, fun id hid => ?_, fun id hid => ?_, ?_, ?_⟩
  · rw [htask.availableServer] at hid
    rw [htask.cells, ← count_cells, ← collect_eq_count hid, ← heq]
    dsimp only
    rw [htokens]
  · rw [htask.availableServer] at hid
    rw [htask.buckets, ← count_buckets, ← collect_eq_count hid, ← heq]
    dsimp only
    rw [hmtokens, if_pos hcopy]
  · rw [htask.availableServer]
    refine indexed_of_counts b'.tokens.countInNode b rfl ?_ ?_
    · rw [← heq]
      dsimp only
      rw [htokens]
    · rw [← heq]
  · rw [htask.availableServer]
    refine indexed_of_counts b'.mtokens.countInNode b rfl ?_ ?_
    · rw [← heq]
      dsimp only
      rw [hmtokens]
    · rw [← heq]

/-- What is in the set of the available servers. -/
theorem availableServers_spec (posMask : UInt64) (servers : List UInt64) :
    (availableServers posMask servers).Nodup ∧ ∀ id ∈ availableServers posMask servers,
      id.first ∈ servers ∧ id.second = (id.first &&& posMask).toUInt32 := by
  have hspec : ∀ set : List ServerId,
      set.Nodup → (∀ id ∈ set, id.first ∈ servers ∧ id.second = (id.first &&& posMask).toUInt32) →
      ∀ rest : List UInt64, (∀ id ∈ rest, id ∈ servers) →
        let set' := rest.foldl (fun set id =>
          setInsert ServerId.le ⟨id, (id &&& posMask).toUInt32⟩ set) set
        set'.Nodup ∧ ∀ id ∈ set', id.first ∈ servers ∧
          id.second = (id.first &&& posMask).toUInt32 := by
    intro set hnodup hset rest hrest
    induction rest generalizing set with
    | nil => exact ⟨hnodup, hset⟩
    | cons id rest ih =>
      refine ih _ (nodup_setInsert hnodup) (fun id' hid' => ?_)
        fun id' hid' => hrest id' (List.mem_cons_of_mem _ hid')
      rcases mem_setInsert.mp hid' with rfl | hid'
      · exact ⟨hrest id List.mem_cons_self, rfl⟩
      · exact hset id' hid'
  exact hspec [] List.nodup_nil (fun id hid => absurd hid List.not_mem_nil) servers fun id hid => hid

theorem mem_availableServers {posMask id : UInt64} {servers : List UInt64} (h : id ∈ servers) :
    ⟨id, (id &&& posMask).toUInt32⟩ ∈ availableServers posMask servers := by
  unfold availableServers
  generalize ([] : List ServerId) = set
  induction servers generalizing set with
  | nil => exact absurd h List.not_mem_nil
  | cons id' servers ih =>
    rw [List.foldl_cons]
    rcases List.mem_cons.mp h with rfl | h
    · -- what is in the set stays there
      have hstays : ∀ (rest : List UInt64) (set : List ServerId) (a : ServerId), a ∈ set →
          a ∈ rest.foldl (fun set id =>
            setInsert ServerId.le ⟨id, (id &&& posMask).toUInt32⟩ set) set := by
        intro rest
        induction rest with
        | nil => exact fun _ _ ha => ha
        | cons _ rest ih => exact fun set a ha => ih _ a (mem_setInsert.mpr (Or.inr ha))
      exact hstays _ _ _ (mem_setInsert.mpr (Or.inl rfl))
    · exact ih h _

/-- Servers with ids are servers with ids of their own. -/
theorem ready_of_availableServers {posMask : UInt64} {servers : List UInt64}
    (h : b.availableServer = availableServers posMask servers) (hzero : 0 ∉ servers) : b.Ready := by
  obtain ⟨hnodup, hset⟩ := availableServers_spec posMask servers
  rw [← h] at hnodup hset
  refine ⟨fun id hid heq => hzero (heq ▸ (hset id hid).1), ?_⟩
  refine hnodup.map_on fun id hid id' hid' heq => ?_
  have hsecond := (hset id hid).2
  rw [heq, ← (hset id' hid').2] at hsecond
  obtain ⟨first, second⟩ := id
  obtain ⟨first', second'⟩ := id'
  dsimp only at heq hsecond
  rw [heq, hsecond]

end TableBuilder

end Tair
