-- SUMMARY: When there are enough servers the builder does not give up, moves as few masters as it can, and keeps the copies of a bucket apart.
import NetworkEtc.Tair.RebuildTable

/-!
# The table that is built

The loop over the masters is a sweep. The loop over the other copies finds a server for each of
them, so long as some server would do.
-/

namespace Tair

open Library

namespace TableBuilder

variable {σ : Type} {V : Virtual σ} {b b' c : TableBuilder σ} {table source : HashTable}
  {line idx : Nat} {id : ServerId}

/-- The servers. -/
def holders (b : TableBuilder σ) : Finset ServerId := b.availableServer.toFinset

/-- How many masters a server should have. -/
def quota (b : TableBuilder σ) (id : ServerId) : Nat := (b.mtokens.capable id).toNat

/-- There is room for all masters, and for no more. -/
structure Quotas (b : TableBuilder σ) : Prop where
  nonneg : ∀ id ∈ b.availableServer, 0 ≤ b.mtokens.capable id
  sum : ∑ id ∈ b.holders, b.quota id = b.buckets.card

theorem mem_holders : id ∈ b.holders ↔ id ∈ b.availableServer := List.mem_toFinset

theorem SamePlan.holders (h : SamePlan b b') : b'.holders = b.holders := by
  rw [TableBuilder.holders, TableBuilder.holders, h.availableServer]

theorem SamePlan.quota (h : SamePlan b b') : b'.quota = b.quota := by
  funext id
  rw [TableBuilder.quota, TableBuilder.quota, h.mcapable]

theorem SamePlan.quotas (h : SamePlan b b') (hquotas : b.Quotas) : b'.Quotas := by
  constructor
  · rw [h.availableServer, h.mcapable]
    exact hquotas.nonneg
  · rw [h.holders, h.quota, h.buckets]
    exact hquotas.sum

/-- What is counted of the masters, and what is in the table. -/
theorem Books.countInNode_lt (h : b.Books table) (hq : b.Quotas) (hid : id ∈ b.availableServer) :
    b.mtokens.countInNode id < b.mtokens.capable id ↔ held b.buckets (table 0) id < b.quota id := by
  have := hq.nonneg id hid
  rw [h.mtokens id hid, quota]
  omega

theorem Books.countInNode_le (h : b.Books table) (hq : b.Quotas) (hid : id ∈ b.availableServer) :
    b.mtokens.countInNode id < b.mtokens.capable id + 1 ↔
      held b.buckets (table 0) id ≤ b.quota id := by
  have := hq.nonneg id hid
  rw [h.mtokens id hid, quota]
  omega

-- ---------------------------------------------------------------------------
-- What is in the cells
-- ---------------------------------------------------------------------------

/-- In every cell is a server, or nobody, or what was in the bucket before. -/
def Fills (b : TableBuilder σ) (table table' : HashTable) : Prop := ∀ line idx,
  table' line idx ∈ b.availableServer ∨ (table' line idx).first = 0 ∨
    ∃ line', table' line idx = table line' idx

namespace Fills

variable {table' table'' : HashTable}

theorem refl (b : TableBuilder σ) (table : HashTable) : b.Fills table table :=
  fun line _ => Or.inr (Or.inr ⟨line, rfl⟩)

theorem trans (h : b.Fills table table') (h' : b.Fills table' table'') : b.Fills table table'' := by
  intro line idx
  rcases h' line idx with hid | hzero | ⟨line', heq⟩
  · exact Or.inl hid
  · exact Or.inr (Or.inl hzero)
  · rw [heq]
    exact h line' idx

theorem set (h : b.Fills table table')
    (hid : id ∈ b.availableServer ∨ id.first = 0 ∨ ∃ line', id = table' line' idx) :
    b.Fills table (table'.set line idx id) := by
  refine h.trans fun line' idx' => ?_
  by_cases hcell : (line', idx') = (line, idx)
  · obtain ⟨rfl, rfl⟩ := Prod.mk.inj hcell
    rw [HashTable.set_self]
    exact hid
  · rw [HashTable.set_of_ne hcell]
    exact Or.inr (Or.inr ⟨line', rfl⟩)

theorem promoted (b : TableBuilder σ) (idx line : Nat) (table : HashTable) :
    b.Fills table (b.promoted idx line table) := by
  have hfirst : b.Fills table (table.set 0 idx (table line idx)) :=
    (refl b table).set (Or.inr (Or.inr ⟨line, rfl⟩))
  unfold TableBuilder.promoted
  refine hfirst.set ?_
  split
  · next havail => exact Or.inl (isNodeAvailble_iff.mp havail).2
  · exact Or.inr (Or.inl rfl)

end Fills

theorem SamePlan.fills {table' : HashTable} (h : SamePlan b b') (hfills : b'.Fills table table') :
    b.Fills table table' := by
  rw [Fills, ← h.availableServer]
  exact hfills

-- ---------------------------------------------------------------------------
-- Masters
-- ---------------------------------------------------------------------------

/-- A master that is not good is in the wrong hands. -/
theorem bad_of_not_ok (hV : V.Lawful) (h : b.Books table) (hq : b.Quotas)
    (hbad : V.isThisNodeOK b (table 0 idx) 0 idx table CONSIDER_BASE true ≠ .nodeOk) :
    table 0 idx ∉ b.holders ∨ b.quota (table 0 idx) < held b.buckets (table 0) (table 0 idx) := by
  by_cases hid : table 0 idx ∈ b.availableServer
  · refine Or.inr (Nat.lt_of_not_le fun hle => hbad ?_)
    exact hV.master_ok _ _ _ _ _ (h.ready.isNodeAvailble_iff.mpr hid)
      ((h.countInNode_le hq hid).mpr hle)
  · exact Or.inl fun h => hid (mem_holders.mp h)

theorem held_cleared_lt (hbad : table 0 idx ∉ b.holders ∨
      b.quota (table 0 idx) < held b.buckets (table 0) (table 0 idx))
    (hidx : idx < b.bucketCount.toNat) (hid : id ∈ b.holders)
    (hroom : held b.buckets (table.cleared 0 idx 0) id < b.quota id) :
    held b.buckets (table 0) id < b.quota id := by
  have hheld := held_update (f := table 0) (a := id) (b := table.cleared 0 idx 0 idx)
    (mem_buckets.mpr hidx)
  have hline : Function.update (table 0) idx (table.cleared 0 idx 0 idx) = table.cleared 0 idx 0 := by
    rw [HashTable.cleared, HashTable.set_self, HashTable.set_line]
  rw [hline] at hheld
  by_cases hown : table 0 idx = id
  · subst hown
    have hover := hbad.resolve_left (not_not.mpr hid)
    rw [if_pos rfl] at hheld
    split at hheld
    · omega
    · omega
  · rw [if_neg hown] at hheld
    split at hheld
    · omega
    · omega

/-- What the loop over the masters has done when it has visited some buckets. -/
structure MastersDone (b : TableBuilder σ) (table : HashTable) (idxs : List Nat)
    (b' : TableBuilder σ) (table' : HashTable) : Prop where
  plan : SamePlan b b'
  books : b'.Books table'
  fills : b.Fills table table'
  available : ∀ idx ∈ idxs, table' 0 idx ∈ b.availableServer
  /-- A bucket that keeps its master keeps its other copies. -/
  rows : ∀ idx, (∀ line, table' line idx = table line idx) ∨ table' 0 idx ≠ table 0 idx
  others : ∀ idx ∉ idxs, ∀ line, table' line idx = table line idx
  sweep : b.Quotas → Sweep b.buckets b.holders b.quota idxs (table 0) (table' 0)

/-- A bad master is not taken again when there is room for masters. -/
theorem ne_of_room (hV : V.Lawful) (h : b.Books table) (hcell : (0, idx) ∈ b.cells)
    (hbad : V.isThisNodeOK b (table 0 idx) 0 idx table CONSIDER_BASE true ≠ .nodeOk)
    (hc : SamePlan b c) (hcleared : c.Books (table.cleared 0 idx)) (hid : id ∈ b.availableServer)
    (hroom : c.mtokens.countInNode id < c.mtokens.capable id) : table 0 idx ≠ id := by
  rintro rfl
  refine hbad (hV.master_ok _ _ _ _ _ (h.ready.isNodeAvailble_iff.mpr hid) ?_)
  have hheld := held_line_set table { table 0 idx with first := 0 } (table 0 idx) hcell
  rw [if_pos rfl, if_pos rfl, if_neg (h.ready.ne_cleared hid _)] at hheld
  have hcount := hcleared.mtokens (table 0 idx) (by rwa [hc.availableServer])
  rw [hc.buckets, HashTable.cleared, hheld, ← h.mtokens _ hid] at hcount
  rw [hc.mcapable] at hroom
  rw [if_pos rfl]
  omega

/-- A step of the loop over the masters. It only fails when the quotas are wrong. -/
theorem rebuildCell_master (hV : V.Lawful) (h : b.Books table) (hcell : (0, idx) ∈ b.cells) :
    (∃ b' table', rebuildCell V (b, table) (0, idx) = .ok (b', table') ∧
      MastersDone b table [idx] b' table') ∨
    ¬ b.Quotas ∧ ∃ e, rebuildCell V (b, table) (0, idx) = .error e := by
  have hidx := (mem_cells.mp hcell).2
  have hspec := rebuildCell_spec hV h hcell
  have hone : ∀ idx', idx' ∉ [idx] → idx' ≠ idx := fun idx' hnot heq =>
    hnot (List.mem_singleton.mpr heq)
  generalize rebuildCell V (b, table) (0, idx) = result at hspec ⊢
  cases hspec with
  | stays hok hplan hbooks =>
    have hid := h.ready.isNodeAvailble_iff.mp (hV.available _ _ _ _ _ _ _ hok)
    refine Or.inl ⟨_, _, rfl, hplan, hbooks, Fills.refl b table, ?_, fun _ => Or.inl fun _ => rfl,
      fun _ _ _ => rfl, fun hq => ?_⟩
    · intro idx' hmem
      rw [List.mem_singleton.mp hmem]
      exact hid
    · exact .keep (mem_holders.mpr hid)
        ((h.countInNode_le hq hid).mp (hV.master_lt _ _ _ _ _ _ hok)) (.nil _)
  | @promotes b' line' hbad hmaster hline' hid hroom hplan hbooks =>
    have hid := h.ready.isNodeAvailble_iff.mp hid
    refine Or.inl ⟨_, _, rfl, hplan, hbooks, Fills.promoted b idx _ table, ?_, fun idx' => ?_,
      fun idx' hnot line => promoted_of_ne (Or.inl (hone idx' hnot)), fun hq => ?_⟩
    · intro idx' hmem
      rw [List.mem_singleton.mp hmem, promoted_master hline', Function.update_self]
      exact hid
    · by_cases hsame : idx' = idx
      · subst hsame
        rw [promoted_master hline', Function.update_self]
        by_cases heq : table line' idx' = table 0 idx'
        · -- the copy that is promoted is on the server of the master
          left
          intro line
          unfold promoted
          rw [if_pos (h.ready.isNodeAvailble_iff.mpr (heq ▸ hid)), heq]
          by_cases hcell' : (line, idx') = (line', idx')
          · rw [(Prod.mk.inj hcell').1, HashTable.set_self, heq]
          · rw [HashTable.set_of_ne hcell']
            by_cases hzero : (line, idx') = (0, idx')
            · rw [(Prod.mk.inj hzero).1, HashTable.set_self]
            · rw [HashTable.set_of_ne hzero]
        · exact Or.inr heq
      · exact Or.inl fun line => promoted_of_ne (Or.inl hsame)
    · rw [promoted_master hline']
      exact .move (bad_of_not_ok hV h hq hbad) (mem_holders.mpr hid)
        ((h.countInNode_lt hq hid).mp hroom) (.nil _)
  | @moves b' c id level hbad hid hc hcleared hok hplan hbooks =>
    have hlt := hV.master_lt _ _ _ _ _ _ hok
    rw [if_neg Bool.false_ne_true, Int.add_zero] at hlt
    have hother : ∀ idx' ≠ idx, ∀ line, table.set 0 idx id line idx' = table line idx' :=
      fun idx' hne line => HashTable.set_of_ne fun heq => hne (Prod.mk.inj heq).2
    refine Or.inl ⟨_, _, rfl, hplan, hbooks, (Fills.refl b table).set (Or.inl hid), ?_,
      fun idx' => ?_, fun idx' hnot => hother idx' (hone idx' hnot), fun hq => ?_⟩
    · intro idx' hmem
      rw [List.mem_singleton.mp hmem, HashTable.set_self]
      exact hid
    · by_cases hsame : idx' = idx
      · subst hsame
        rw [HashTable.set_self]
        exact Or.inr (ne_of_room hV h hcell hbad hc hcleared hid hlt).symm
      · exact Or.inl (hother idx' hsame)
    · have hwrong := bad_of_not_ok hV h hq hbad
      have hroom := (hcleared.countInNode_lt (hc.quotas hq) (by rwa [hc.availableServer])).mp hlt
      rw [hc.buckets, hc.quota] at hroom
      rw [HashTable.set_line]
      exact .move hwrong (mem_holders.mpr hid)
        (held_cleared_lt hwrong hidx (mem_holders.mpr hid) hroom) (.nil _)
  | @stuck b' c hbad hc hcleared hnone hplan hbooks =>
    refine Or.inr ⟨fun hq => ?_, _, rfl⟩
    -- the cleared master is nobody's, so somebody would have room for it
    have hout : table.cleared 0 idx 0 idx ∉ b.holders := fun hmem =>
      h.ready.nonzero _ (mem_holders.mp hmem) HashTable.cleared_first
    obtain ⟨id, hid, hroom⟩ := exists_room hq.sum.ge (mem_buckets.mpr hidx) hout
    have hid := mem_holders.mp hid
    have hid' := hid
    rw [← hc.availableServer] at hid'
    refine (hnone id hid).1 (hV.master_ok _ _ _ _ _ (hcleared.ready.isNodeAvailble_iff.mpr hid') ?_)
    rw [if_neg Bool.false_ne_true, Int.add_zero, hcleared.countInNode_lt (hc.quotas hq) hid',
      hc.buckets, hc.quota]
    exact hroom

/-- Some buckets, and then others. -/
theorem MastersDone.append {table' table'' : HashTable} {b'' : TableBuilder σ} {idx : Nat}
    {idxs : List Nat} (h : MastersDone b table [idx] b' table')
    (h' : MastersDone b' table' idxs b'' table'') (hnot : idx ∉ idxs) :
    MastersDone b table (idx :: idxs) b'' table'' where
  plan := h.plan.trans h'.plan
  books := h'.books
  fills := h.fills.trans (h.plan.fills h'.fills)
  available := by
    intro idx' hmem
    rcases List.mem_cons.mp hmem with rfl | hmem
    · rw [h'.others idx' hnot]
      exact h.available idx' List.mem_cons_self
    · rw [← h.plan.availableServer]
      exact h'.available idx' hmem
  rows := by
    intro idx'
    by_cases hsame : idx' = idx
    · subst hsame
      simp only [h'.others idx' hnot]
      exact h.rows idx'
    · simp only [← h.others idx' fun hmem => hsame (List.mem_singleton.mp hmem)]
      exact h'.rows idx'
  others := by
    intro idx' hmem line
    rw [h'.others idx' (List.not_mem_of_not_mem_cons hmem)]
    exact h.others idx' (fun h => List.ne_of_not_mem_cons hmem (List.mem_singleton.mp h)) line
  sweep := by
    intro hq
    have hrest := h'.sweep (h.plan.quotas hq)
    rw [h.plan.buckets, h.plan.holders, h.plan.quota] at hrest
    exact (h.sweep hq).append hrest

/-- The loop over the masters. It only fails when the quotas are wrong. -/
theorem foldlM_masters (hV : V.Lawful) (h : b.Books table) {idxs : List Nat} (hnodup : idxs.Nodup)
    (hidxs : ∀ idx ∈ idxs, (0, idx) ∈ b.cells) :
    (∃ b' table', (idxs.map fun idx => (0, idx)).foldlM (rebuildCell V) (b, table) =
      .ok (b', table') ∧ MastersDone b table idxs b' table') ∨
    ¬ b.Quotas ∧ ∃ e, (idxs.map fun idx => (0, idx)).foldlM (rebuildCell V) (b, table) =
      .error e := by
  induction idxs generalizing b table with
  | nil =>
    exact Or.inl ⟨b, table, rfl, SamePlan.refl b, h, Fills.refl b table,
      fun idx hidx => absurd hidx List.not_mem_nil, fun _ => Or.inl fun _ => rfl,
      fun _ _ _ => rfl, fun _ => .nil _⟩
  | cons idx idxs ih =>
    obtain ⟨hnot, hnodup⟩ := List.nodup_cons.mp hnodup
    rw [List.map_cons, List.foldlM_cons]
    rcases rebuildCell_master hV h (hidxs idx List.mem_cons_self) with
      ⟨c, table₁, hstep, hdone⟩ | ⟨hquotas, e, hstep⟩
    · rw [hstep]
      have hrest : ∀ idx ∈ idxs, (0, idx) ∈ c.cells := fun idx hidx => by
        rw [hdone.plan.cells]
        exact hidxs idx (List.mem_cons_of_mem _ hidx)
      rcases ih hdone.books hnodup hrest with ⟨b', table', hrun, hdone'⟩ | ⟨hquotas, e, hrun⟩
      · exact Or.inl ⟨b', table', hrun, hdone.append hdone' hnot⟩
      · exact Or.inr ⟨fun hq => hquotas (hdone.plan.quotas hq), e, hrun⟩
    · rw [hstep]
      exact Or.inr ⟨hquotas, e, rfl⟩

-- ---------------------------------------------------------------------------
-- Other copies
-- ---------------------------------------------------------------------------

/-- A copy was good when the loop came to it. The copies before it had their places then, and those
behind it were where they had been to begin with. -/
def Passed (V : Virtual σ) (b : TableBuilder σ) (start table : HashTable) (cell : Nat × Nat) : Prop :=
  ∃ c before level inUse, SamePlan b c ∧
    V.isThisNodeOK c (table cell.1 cell.2) cell.1 cell.2 before level inUse = .nodeOk ∧
      (∀ i < cell.1, before i cell.2 = table i cell.2) ∧
        ∀ i > cell.1, before i cell.2 = start i cell.2

/-- For every copy that is cleared some server would do, so long as the master is there. -/
def Willing (V : Virtual σ) (b : TableBuilder σ) (source : HashTable) : Prop :=
  ∀ c table line idx, SamePlan b c → b.Fills source table → line ∈ b.slaveLines →
    b.isNodeAvailble (table 0 idx) = true → ∃ id ∈ b.availableServer,
      V.isThisNodeOK c id line idx (table.cleared line idx) CONSIDER_FORCE false = .nodeOk

/-- What the loop over the other copies has done when it has visited some of them. -/
structure SlavesDone (V : Virtual σ) (b : TableBuilder σ) (table : HashTable)
    (cells : List (Nat × Nat)) (b' : TableBuilder σ) (table' : HashTable) : Prop where
  plan : SamePlan b b'
  books : b'.Books table'
  fills : b.Fills table table'
  others : ∀ line idx, (line, idx) ∉ cells → table' line idx = table line idx
  passed : ∀ cell ∈ cells, Passed V b table table' cell

theorem Passed.of_samePlan {start : HashTable} {cell : Nat × Nat} (hplan : SamePlan b b')
    (h : Passed V b' start table cell) : Passed V b start table cell := by
  obtain ⟨c, before, level, inUse, hc, hok, hbefore⟩ := h
  exact ⟨c, before, level, inUse, hplan.trans hc, hok, hbefore⟩

/-- A step of the loop over the other copies. It only fails when no server would do. -/
theorem rebuildCell_slave (hV : V.Lawful) (h : b.Books table) (hcell : (line, idx) ∈ b.slaveCells) :
    (∃ b' table', rebuildCell V (b, table) (line, idx) = .ok (b', table') ∧
      SlavesDone V b table [(line, idx)] b' table') ∨
    (∃ c, SamePlan b c ∧ ∀ id ∈ b.availableServer,
      V.isThisNodeOK c id line idx (table.cleared line idx) CONSIDER_FORCE false ≠ .nodeOk) ∧
      ∃ e, rebuildCell V (b, table) (line, idx) = .error e := by
  have hne : line ≠ 0 := by
    have := (mem_slaveLines.mp (mem_slaveCells.mp hcell).1).1
    dsimp only at this
    omega
  have hspec := rebuildCell_spec hV h (slaveCell_mem_cells hcell)
  generalize rebuildCell V (b, table) (line, idx) = result at hspec ⊢
  cases hspec with
  | stays hok hplan hbooks =>
    refine Or.inl ⟨_, _, rfl, hplan, hbooks, Fills.refl b table, fun _ _ _ => rfl, ?_⟩
    intro cell hmem
    rw [List.mem_singleton.mp hmem]
    exact ⟨b, table, _, _, SamePlan.refl b, hok, fun _ _ => rfl, fun _ _ => rfl⟩
  | promotes hbad hmaster => exact absurd hmaster hne
  | @moves b' c id level hbad hid hc hcleared hok hplan hbooks =>
    refine Or.inl ⟨_, _, rfl, hplan, hbooks, (Fills.refl b table).set (Or.inl hid), ?_, ?_⟩
    · exact fun line' idx' hnot => HashTable.set_of_ne fun heq => hnot (List.mem_singleton.mpr heq)
    · intro cell hmem
      rw [List.mem_singleton.mp hmem]
      have hother : ∀ i ≠ line, (i, idx) ≠ (line, idx) := fun i hi heq => hi (Prod.mk.inj heq).1
      refine ⟨c, table.cleared line idx, level, false, hc, ?_, fun i hi => ?_, fun i hi => ?_⟩
      · dsimp only
        rw [HashTable.set_self]
        exact hok
      · have hi := hother i (Nat.ne_of_lt hi)
        rw [HashTable.cleared_of_ne hi, HashTable.set_of_ne hi]
      · exact HashTable.cleared_of_ne (hother i (Nat.ne_of_gt hi))
  | @stuck b' c hbad hc hcleared hnone hplan hbooks =>
    exact Or.inr ⟨⟨c, hc, fun id hid => (hnone id hid).2⟩, _, rfl⟩

/-- A copy, and then others. None of these is before it in the same bucket. -/
theorem SlavesDone.append {table' table'' : HashTable} {b'' : TableBuilder σ}
    {cells : List (Nat × Nat)} (h : SlavesDone V b table [(line, idx)] b' table')
    (h' : SlavesDone V b' table' cells b'' table'')
    (hfirst : ∀ cell ∈ cells, idx = cell.2 → line < cell.1) :
    SlavesDone V b table ((line, idx) :: cells) b'' table'' where
  plan := h.plan.trans h'.plan
  books := h'.books
  fills := h.fills.trans (h.plan.fills h'.fills)
  others := by
    intro line' idx' hmem
    rw [h'.others line' idx' (List.not_mem_of_not_mem_cons hmem)]
    exact h.others line' idx' fun h => List.ne_of_not_mem_cons hmem (List.mem_singleton.mp h)
  passed := by
    have hnot : ∀ i ≤ line, (i, idx) ∉ cells := by
      intro i hi hmem
      have := hfirst (i, idx) hmem rfl
      dsimp only at this
      omega
    intro cell hmem
    rcases List.mem_cons.mp hmem with rfl | hmem
    · -- neither it nor a copy before it has been touched since
      obtain ⟨c, before, level, inUse, hc, hok, hbefore, hafter⟩ := h.passed _ List.mem_cons_self
      refine ⟨c, before, level, inUse, hc, ?_, fun i hi => ?_, hafter⟩
      · rw [h'.others line idx (hnot line (Nat.le_refl line))]
        exact hok
      · rw [hbefore i hi, h'.others i idx (hnot i (Nat.le_of_lt hi))]
    · -- what was behind it then had not been touched before
      obtain ⟨line', idx'⟩ := cell
      obtain ⟨c, before, level, inUse, hc, hok, hbefore, hafter⟩ := h'.passed _ hmem
      refine ⟨c, before, level, inUse, h.plan.trans hc, hok, hbefore, fun i hi => ?_⟩
      rw [hafter i hi]
      refine h.others i idx' fun heq => ?_
      obtain ⟨hi', hidx⟩ := Prod.mk.inj (List.mem_singleton.mp heq)
      have := hfirst (line', idx') hmem hidx.symm
      dsimp only at this hi
      omega

/-- The loop over the other copies. It only fails when for one of them no server would do. -/
theorem foldlM_slaves (hV : V.Lawful) (h : b.Books table) (cells : List (Nat × Nat))
    (hcells : ∀ cell ∈ cells, cell ∈ b.slaveCells)
    (horder : cells.Pairwise fun cell cell' => cell.2 = cell'.2 → cell.1 < cell'.1) :
    (∃ b' table', cells.foldlM (rebuildCell V) (b, table) = .ok (b', table') ∧
      SlavesDone V b table cells b' table') ∨
    ((∀ idx < b.bucketCount.toNat, b.isNodeAvailble (table 0 idx) = true) →
      ∀ source, b.Fills source table → ¬ Willing V b source) ∧
      ∃ e, cells.foldlM (rebuildCell V) (b, table) = .error e := by
  induction cells generalizing b table with
  | nil =>
    exact Or.inl ⟨b, table, rfl, SamePlan.refl b, h, Fills.refl b table, fun _ _ _ => rfl,
      fun cell hcell => absurd hcell List.not_mem_nil⟩
  | cons cell cells ih =>
    obtain ⟨line, idx⟩ := cell
    obtain ⟨hfirst, horder⟩ := List.pairwise_cons.mp horder
    have hcell := hcells _ List.mem_cons_self
    obtain ⟨hline, hidx⟩ := mem_slaveCells.mp hcell
    rw [List.foldlM_cons]
    rcases rebuildCell_slave hV h hcell with ⟨c, table₁, hstep, hdone⟩ | ⟨⟨c, hc, hnone⟩, e, hstep⟩
    · rw [hstep]
      have hrest : ∀ cell ∈ cells, cell ∈ c.slaveCells := by
        intro cell hmem
        rw [mem_slaveCells, hdone.plan.slaveLines, hdone.plan.bucketCount, ← mem_slaveCells]
        exact hcells cell (List.mem_cons_of_mem _ hmem)
      rcases ih hdone.books hrest horder with ⟨b', table', hrun, hdone'⟩ | ⟨hnot, e, hrun⟩
      · exact Or.inl ⟨b', table', hrun, hdone.append hdone' fun cell hmem => hfirst cell hmem⟩
      · refine Or.inr ⟨fun hmasters source hfills hwilling => ?_, e, hrun⟩
        refine hnot (fun idx' hidx' => ?_) source ?_ ?_
        · rw [hdone.plan.isNodeAvailble, hdone.others 0 idx' fun heq => ?_]
          · exact hmasters idx' (by rwa [hdone.plan.bucketCount] at hidx')
          · have := (mem_slaveLines.mp hline).1
            rw [← (Prod.mk.inj (List.mem_singleton.mp heq)).1] at this
            omega
        · rw [Fills, hdone.plan.availableServer]
          exact hfills.trans hdone.fills
        · intro c' table' line' idx' hplan hfills hline hmaster
          rw [hdone.plan.isNodeAvailble] at hmaster
          rw [hdone.plan.slaveLines] at hline
          rw [hdone.plan.availableServer]
          exact hwilling c' table' line' idx' (hdone.plan.trans hplan) (hdone.plan.fills hfills)
            hline hmaster
    · rw [hstep]
      refine Or.inr ⟨fun hmasters source hfills hwilling => ?_, e, rfl⟩
      obtain ⟨id, hid, hok⟩ := hwilling c table line idx hc hfills hline (hmasters idx hidx)
      exact hnone id hid hok

-- ---------------------------------------------------------------------------
-- Tables
-- ---------------------------------------------------------------------------

/-- What comes of a table, given what has been counted of it. -/
structure Rebuilt (V : Virtual σ) (b : TableBuilder σ) (source : HashTable) (b' : TableBuilder σ)
    (table : HashTable) : Prop where
  plan : SamePlan b b'
  books : b'.Books table
  masters : ∃ c start, MastersDone b source (List.range b.bucketCount.toNat) c start ∧
    SlavesDone V c start b.slaveCells b' table

theorem slaveCells_order (b : TableBuilder σ) :
    b.slaveCells.Pairwise fun cell cell' => cell.2 = cell'.2 → cell.1 < cell'.1 := by
  unfold slaveCells
  rw [List.pairwise_flatMap]
  constructor
  · intro idx _
    rw [List.pairwise_map]
    have hlt : b.slaveLines.Pairwise (· < ·) := List.pairwise_lt_range' 1
    refine hlt.imp ?_
    exact fun hlt _ => hlt
  · refine List.nodup_range.imp fun hne cell hcell cell' hcell' heq => ?_
    obtain ⟨line, -, rfl⟩ := List.mem_map.mp hcell
    obtain ⟨line', -, rfl⟩ := List.mem_map.mp hcell'
    exact absurd heq hne

theorem mem_range_buckets {n : Nat} : n ∈ List.range b.bucketCount.toNat ↔ n ∈ b.buckets := by
  rw [mem_buckets, List.mem_range]

/-- Both loops. They only fail when the quotas are wrong, or when for a copy no server would do. -/
theorem foldlM_cells (hV : V.Lawful) (h : b.Books source) (hcopy : 0 < b.copyCount.toNat) :
    (∃ b' table, (b.masterCells ++ b.slaveCells).foldlM (rebuildCell V) (b, source) =
      .ok (b', table) ∧ Rebuilt V b source b' table) ∨
    ¬ (b.Quotas ∧ Willing V b source) ∧
      ∃ e, (b.masterCells ++ b.slaveCells).foldlM (rebuildCell V) (b, source) = .error e := by
  rw [masterCells, if_pos hcopy, List.foldlM_append]
  rcases foldlM_masters hV h List.nodup_range fun idx hidx =>
      mem_cells.mpr ⟨hcopy, List.mem_range.mp hidx⟩ with
    ⟨c, start, hrun, hdone⟩ | ⟨hquotas, e, hrun⟩
  · rw [hrun]
    have hslave : c.slaveCells = b.slaveCells := by
      rw [slaveCells, slaveCells, hdone.plan.bucketCount, hdone.plan.slaveLines]
    rcases foldlM_slaves hV hdone.books b.slaveCells
        (fun cell hcell => by rwa [hslave]) (slaveCells_order b) with
      ⟨b', table, hrun', hdone'⟩ | ⟨hnot, e, hrun'⟩
    · exact Or.inl ⟨b', table, hrun', hdone.plan.trans hdone'.plan, hdone'.books, c, start, hdone,
        hdone'⟩
    · refine Or.inr ⟨fun hgood => hnot (fun idx hidx => ?_) source ?_ ?_, e, hrun'⟩
      · rw [hdone.books.ready.isNodeAvailble_iff, hdone.plan.availableServer]
        rw [hdone.plan.bucketCount] at hidx
        exact hdone.available idx (List.mem_range.mpr hidx)
      · rw [Fills, hdone.plan.availableServer]
        exact hdone.fills
      · intro c' table' line idx hplan hfills hline hmaster
        rw [hdone.plan.isNodeAvailble] at hmaster
        rw [hdone.plan.slaveLines] at hline
        rw [hdone.plan.availableServer]
        exact hgood.2 c' table' line idx (hdone.plan.trans hplan) (hdone.plan.fills hfills) hline
          hmaster
  · rw [hrun]
    exact Or.inr ⟨fun hgood => hquotas hgood.1, e, rfl⟩

/-- When a table is built, both loops have come to an end. -/
theorem rebuilt_of_buildOk {noQuickTable : Bool} (hV : V.Lawful) (hready : b.Ready)
    (hcopy : 0 < b.copyCount.toNat)
    (hrun : rebuildTable V b source noQuickTable = some (.buildOk, b', table)) :
    ∃ c, countAll V b source = some c ∧ Rebuilt V c source b' table := by
  obtain ⟨c, hc, heq⟩ := Option.bind_eq_some_iff.mp hrun
  have hbooks := countAll_books hready hcopy hV.capable hc
  have hcopy' : 0 < c.copyCount.toNat := by
    rw [(countAll_sets hV.capable hc).copyCount]
    exact hcopy
  refine ⟨c, hc, ?_⟩
  split at heq
  · split at heq
    · cases heq
    · cases heq
  · split at heq
    · cases heq
    · rcases foldlM_cells hV hbooks hcopy' with ⟨b₁, table₁, hloops, hrebuilt⟩ | ⟨-, e, hloops⟩
      · rw [hloops] at heq
        cases heq
        exact hrebuilt
      · rw [hloops] at heq
        cases heq

namespace Rebuilt

/-- The loop over the other copies leaves the masters alone. -/
theorem line_zero {c : TableBuilder σ} {start table : HashTable}
    (h : SlavesDone V c start b.slaveCells b' table) : table 0 = start 0 := by
  funext idx
  refine h.others 0 idx fun hmem => ?_
  have := (mem_slaveLines.mp (mem_slaveCells.mp hmem).1).1
  dsimp only at this
  omega

theorem available (hV : V.Lawful) (h : Rebuilt V b source b' table) (hcell : (line, idx) ∈ b.cells) :
    table line idx ∈ b.availableServer := by
  obtain ⟨hline, hidx⟩ := mem_cells.mp hcell
  obtain ⟨c, start, hmasters, hslaves⟩ := h.masters
  rcases Nat.eq_zero_or_pos line with rfl | hpos
  · rw [line_zero hslaves]
    exact hmasters.available idx (List.mem_range.mpr hidx)
  · obtain ⟨c', before, level, inUse, hc, hok, -⟩ :=
      hslaves.passed (line, idx) (mem_slaveCells.mpr ⟨mem_slaveLines.mpr ⟨hpos, hline⟩, hidx⟩)
    rw [← hmasters.plan.availableServer, ← hc.availableServer]
    exact (isNodeAvailble_iff.mp (hV.available _ _ _ _ _ _ _ hok)).2

/-- A copy is on another server than the copies before it. -/
theorem distinct (hV : V.Lawful) (h : Rebuilt V b source b' table) {line' : Nat}
    (hcell : (line', idx) ∈ b.cells) (hlt : line < line') :
    (table line idx).first ≠ (table line' idx).first := by
  obtain ⟨hline, hidx⟩ := mem_cells.mp hcell
  obtain ⟨c, start, hmasters, hslaves⟩ := h.masters
  obtain ⟨c', before, level, inUse, hc, hok, hbefore, -⟩ := hslaves.passed (line', idx)
    (mem_slaveCells.mpr ⟨mem_slaveLines.mpr ⟨by omega, hline⟩, hidx⟩)
  have hne := hV.slave_ne _ _ _ _ _ _ _ (by dsimp only; omega) hok line
    (by rw [hc.copyCount, hmasters.plan.copyCount]; omega) (by dsimp only; omega)
  rwa [hbefore line hlt] at hne

theorem sweep (h : Rebuilt V b source b' table) (hq : b.Quotas) :
    Sweep b.buckets b.holders b.quota (List.range b.bucketCount.toNat) (source 0) (table 0) := by
  obtain ⟨c, start, hmasters, hslaves⟩ := h.masters
  rw [line_zero hslaves]
  exact hmasters.sweep hq

/-- Every server has as many masters as it should have. -/
theorem held_masters (h : Rebuilt V b source b' table) (hq : b.Quotas)
    (hid : id ∈ b.availableServer) : held b.buckets (table 0) id = b.quota id :=
  held_eq_quota hq.sum
    (fun idx hidx => ((h.sweep hq).visited (fun _ => mem_range_buckets.mp) List.nodup_range idx
      (mem_range_buckets.mpr hidx)).1)
    (fun a _ => (h.sweep hq).within (fun _ => mem_range_buckets) List.nodup_range a)
    (mem_holders.mpr hid)

/-- No other way to give every server what it should have moves fewer masters. -/
theorem moved_le (h : Rebuilt V b source b' table) (hq : b.Quotas) {masters : Nat → ServerId}
    (havail : ∀ idx < b.bucketCount.toNat, masters idx ∈ b.availableServer)
    (hle : ∀ id ∈ b.availableServer, held b.buckets masters id ≤ b.quota id) :
    moved b.buckets (source 0) (table 0) ≤ moved b.buckets (source 0) masters :=
  (h.sweep hq).moved_le (fun _ => mem_range_buckets) List.nodup_range
    (fun idx hidx => mem_holders.mpr (havail idx (mem_buckets.mp hidx)))
    (fun id hid => hle id (mem_holders.mp hid))

end Rebuilt

end TableBuilder

end Tair
