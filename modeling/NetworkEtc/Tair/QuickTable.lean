-- SUMMARY: The quick table keeps every copy that is left, and gives every bucket that has one a master.
import NetworkEtc.Tair.Books

/-!
# `build_quick_table`

When servers are lost, the copies that are left have to do until others are made. A bucket whose
master is lost gets one of its other copies as its master.
-/

namespace Tair

open Library

namespace TableBuilder

variable {σ : Type} {b b' : TableBuilder σ} {table table' : HashTable} {line idx : Nat} {id : ServerId}
  {idxs : List Nat}

/-- What the loop over the masters does to a bucket. -/
inductive MasterRow (b : TableBuilder σ) (table table' : HashTable) (idx : Nat) : Prop where
  | kept (hmaster : b.isNodeAvailble (table 0 idx) = true)
      (hrow : ∀ line, table' line idx = table line idx)
  | promoted {line : Nat} (hmaster : b.isNodeAvailble (table 0 idx) = false)
      (hline : line ∈ b.slaveLines) (hid : b.isNodeAvailble (table line idx) = true)
      (hrow : ∀ line', table' line' idx = b.promoted idx line table line' idx)
  | lost (hflag : b.dLostFlag = .allowDataLost) (hmaster : b.isNodeAvailble (table 0 idx) = false)
      (hslaves : ∀ line ∈ b.slaveLines, b.isNodeAvailble (table line idx) = false)
      (hrow : ∀ line, table' line idx = table line idx)

theorem promoted_samePlan (h : SamePlan b b') :
    b'.promoted idx line table = b.promoted idx line table := by
  rw [promoted, promoted, h.isNodeAvailble]

theorem MasterRow.of_samePlan (hplan : SamePlan b b') (h : MasterRow b' table table' idx) :
    MasterRow b table table' idx := by
  cases h with
  | kept hmaster hrow =>
    rw [hplan.isNodeAvailble] at hmaster
    exact .kept hmaster hrow
  | promoted hmaster hline hid hrow =>
    rw [hplan.isNodeAvailble] at hmaster hid
    rw [hplan.slaveLines] at hline
    rw [promoted_samePlan hplan] at hrow
    exact .promoted hmaster hline hid hrow
  | lost hflag hmaster hslaves hrow =>
    rw [hplan.dLostFlag] at hflag
    rw [hplan.isNodeAvailble] at hmaster
    refine .lost hflag hmaster (fun line hline => ?_) hrow
    rw [← hplan.slaveLines] at hline
    rw [← hplan.isNodeAvailble]
    exact hslaves line hline

/-- Only the row of the bucket matters. -/
theorem MasterRow.of_row {before : HashTable} (hbefore : ∀ line, before line idx = table line idx)
    (h : MasterRow b before table' idx) : MasterRow b table table' idx := by
  cases h with
  | kept hmaster hrow =>
    rw [hbefore] at hmaster
    exact .kept hmaster fun line => (hrow line).trans (hbefore line)
  | @promoted line hmaster hline hid hrow =>
    rw [hbefore] at hmaster hid
    refine .promoted hmaster hline hid fun line' => (hrow line').trans ?_
    unfold TableBuilder.promoted
    rw [hbefore, hbefore]
    by_cases hcell : (line', idx) = (line, idx)
    · rw [(Prod.mk.inj hcell).1, HashTable.set_self, HashTable.set_self]
    · rw [HashTable.set_of_ne hcell, HashTable.set_of_ne hcell]
      by_cases hcell' : (line', idx) = (0, idx)
      · rw [(Prod.mk.inj hcell').1, HashTable.set_self, HashTable.set_self]
      · rw [HashTable.set_of_ne hcell', HashTable.set_of_ne hcell', hbefore]
  | lost hflag hmaster hslaves hrow =>
    rw [hbefore] at hmaster
    refine .lost hflag hmaster (fun line hline => ?_) fun line => (hrow line).trans (hbefore line)
    rw [← hbefore]
    exact hslaves line hline

/-- The loop over the masters changes the rows of the buckets that it visits. -/
theorem quickMasters_rows (hnodup : idxs.Nodup) (h : b.quickMasters table idxs = (true, b', table')) :
    SamePlan b b' ∧ (∀ idx ∈ idxs, MasterRow b table table' idx) ∧
      ∀ idx ∉ idxs, ∀ line, table' line idx = table line idx := by
  induction idxs generalizing b table with
  | nil =>
    cases h
    exact ⟨SamePlan.refl _, fun idx hidx => absurd hidx List.not_mem_nil, fun _ _ _ => rfl⟩
  | cons idx idxs ih =>
    obtain ⟨hnot, hnodup⟩ := List.nodup_cons.mp hnodup
    -- what happens to the row of `idx`, and then to the others
    have hfirst : ∀ {c : TableBuilder σ} {table₁ : HashTable},
        c.quickMasters table₁ idxs = (true, b', table') → SamePlan b c →
        MasterRow b table table₁ idx → (∀ idx' ≠ idx, ∀ line, table₁ line idx' = table line idx') →
        SamePlan b b' ∧ (∀ idx' ∈ idx :: idxs, MasterRow b table table' idx') ∧
          ∀ idx' ∉ idx :: idxs, ∀ line, table' line idx' = table line idx' := by
      intro c table₁ hrest hc hrow hothers
      obtain ⟨hplan, hrows, hunvisited⟩ := ih hnodup hrest
      refine ⟨hc.trans hplan, fun idx' hidx' => ?_, fun idx' hidx' line => ?_⟩
      · rcases List.mem_cons.mp hidx' with rfl | hmem
        · have hsame := hunvisited idx' hnot
          cases hrow with
          | kept hmaster hrow =>
            exact .kept hmaster fun line => (hsame line).trans (hrow line)
          | promoted hmaster hline hid hrow =>
            exact .promoted hmaster hline hid fun line => (hsame line).trans (hrow line)
          | lost hflag hmaster hslaves hrow =>
            exact .lost hflag hmaster hslaves fun line => (hsame line).trans (hrow line)
        · refine MasterRow.of_row (hothers idx' ?_) ((hrows idx' hmem).of_samePlan hc)
          rintro rfl
          exact hnot hmem
      · rw [hunvisited idx' (List.not_mem_of_not_mem_cons hidx')]
        exact hothers idx' (List.ne_of_not_mem_cons hidx') line
    rw [quickMasters] at h
    split at h
    · next hmaster =>
      exact hfirst h (SamePlan.refl b) (.kept hmaster fun _ => rfl) fun _ _ _ => rfl
    · next hmaster =>
      have hmaster : b.isNodeAvailble (table 0 idx) = false := Bool.eq_false_iff.mpr hmaster
      have hspec := changeMasterNode_spec b idx table true
      generalize b.changeMasterNode idx table true = result at h hspec
      cases hspec with
      | none hnone =>
        dsimp only at h
        split at h
        · exact absurd (Prod.mk.inj h).1 Bool.false_ne_true
        · next hflag =>
          exact hfirst h (SamePlan.refl b)
            (.lost (not_not.mp hflag) hmaster hnone fun _ => rfl) fun _ _ _ => rfl
      | full hforce => exact absurd hforce Bool.false_ne_true.symm
      | promote hline hid hleast hroom hplan htokens hmtokens =>
        exact hfirst h hplan (.promoted hmaster hline hid fun _ => rfl)
          fun idx' hne line' => promoted_of_ne (Or.inl hne)

/-- It goes through unless a bucket has no copy left, and data must not be lost. -/
theorem quickMasters_ok_iff (hnodup : idxs.Nodup) : (b.quickMasters table idxs).1 = true ↔
    b.dLostFlag = .allowDataLost ∨ ∀ idx ∈ idxs, b.isNodeAvailble (table 0 idx) = true ∨
      ∃ line ∈ b.slaveLines, b.isNodeAvailble (table line idx) = true := by
  induction idxs generalizing b table with
  | nil => simp [quickMasters]
  | cons idx idxs ih =>
    obtain ⟨hnot, hnodup⟩ := List.nodup_cons.mp hnodup
    rw [List.forall_mem_cons, quickMasters]
    split
    · next hmaster =>
      rw [ih hnodup]
      simp [hmaster]
    · next hmaster =>
      have hspec := changeMasterNode_spec b idx table true
      generalize b.changeMasterNode idx table true = result at hspec
      cases hspec with
      | none hnone =>
        have hlost : ¬ (b.isNodeAvailble (table 0 idx) = true ∨
            ∃ line ∈ b.slaveLines, b.isNodeAvailble (table line idx) = true) := by
          rintro (h | ⟨line, hline, h⟩)
          · exact hmaster h
          · exact absurd (h.symm.trans (hnone line hline)) Bool.true_eq_false_eq_False
        dsimp only
        split
        · next hflag => simp [hflag, hlost]
        · next hflag => simp [ih hnodup, not_not.mp hflag]
      | full hforce => exact absurd hforce Bool.false_ne_true.symm
      | @promote c line hline hid hleast hroom hplan htokens hmtokens =>
        have hothers : ∀ idx' ∈ idxs, ∀ line', b.promoted idx line table line' idx' =
            table line' idx' := fun idx' hidx' line' => promoted_of_ne (Or.inl fun heq =>
          hnot (heq ▸ hidx'))
        have hfound : b.isNodeAvailble (table 0 idx) = true ∨
            ∃ line ∈ b.slaveLines, b.isNodeAvailble (table line idx) = true :=
          Or.inr ⟨line, hline, hid⟩
        dsimp only
        rw [ih hnodup, hplan.dLostFlag, hplan.slaveLines]
        simp only [hfound, true_and]
        refine or_congr Iff.rfl (forall₂_congr fun idx' hidx' => ?_)
        simp only [hplan.isNodeAvailble, hothers idx' hidx']

-- ---------------------------------------------------------------------------
-- Rows
-- ---------------------------------------------------------------------------

/-- The row of a bucket in a quick table. -/
structure QuickRow (b : TableBuilder σ) (table table' : HashTable) (idx : Nat) : Prop where
  /-- A master that is available stays. -/
  master : b.isNodeAvailble (table 0 idx) = true → table' 0 idx = table 0 idx
  /-- There is a master, if there is a copy. -/
  available : (∃ line < b.copyCount.toNat, b.isNodeAvailble (table line idx) = true) →
    b.isNodeAvailble (table' 0 idx) = true
  /-- Else it stays what it was. -/
  stays : b.isNodeAvailble (table' 0 idx) = false → table' 0 idx = table 0 idx
  /-- Every server has as many copies as before. -/
  copies : ∀ id, b.isNodeAvailble id = true →
    held (Finset.range b.copyCount.toNat) (fun line => table' line idx) id =
      held (Finset.range b.copyCount.toNat) (fun line => table line idx) id
  /-- The other copies that are left stay where they are, except for a new master. -/
  slaves : ∀ line ∈ b.slaveLines, table' line idx = table line idx ∨ table' line idx = .invalid
  /-- What is lost is cleared. -/
  lost : ∀ line ∈ b.slaveLines, b.isNodeAvailble (table' line idx) = true ∨
    table' line idx = .invalid

theorem isNodeAvailble_cleared (b : TableBuilder σ) (second : UInt32) :
    b.isNodeAvailble ⟨0, second⟩ = false := by
  rw [Bool.eq_false_iff, Ne, isNodeAvailble_iff]
  exact fun h => h.1 rfl

/-- Clearing what is lost does not change who has what. -/
theorem held_quickSlaves (hid : b.isNodeAvailble id = true) :
    held (Finset.range b.copyCount.toNat) (fun line => b.quickSlaves table line idx) id =
      held (Finset.range b.copyCount.toNat) (fun line => table line idx) id := by
  unfold held
  congr 1
  apply Finset.filter_congr
  intro line _
  unfold quickSlaves
  dsimp only
  split
  · next hlost =>
    constructor
    · rintro rfl
      exact absurd (hid.symm.trans (isNodeAvailble_cleared b 0)) Bool.true_eq_false_eq_False
    · rintro rfl
      exact absurd (hid.symm.trans hlost.2.2.2) Bool.true_eq_false_eq_False
  · exact Iff.rfl

theorem held_promoted (hline : line ∈ b.slaveLines) (hmaster : b.isNodeAvailble (table 0 idx) = false)
    (hid : b.isNodeAvailble id = true) :
    held (Finset.range b.copyCount.toNat) (fun line' => b.promoted idx line table line' idx) id =
      held (Finset.range b.copyCount.toNat) (fun line' => table line' idx) id := by
  obtain ⟨hpos, hlt⟩ := mem_slaveLines.mp hline
  have hrow : (fun line' => b.promoted idx line table line' idx) =
      Function.update (Function.update (fun line' => table line' idx) 0 (table line idx)) line
        { table line idx with first := 0 } := by
    funext line'
    unfold promoted
    rw [if_neg (by rw [hmaster]; exact Bool.false_ne_true)]
    by_cases hcell : line' = line
    · subst hcell
      rw [HashTable.set_self, Function.update_self]
    · rw [HashTable.set_of_ne fun heq => hcell (Prod.mk.inj heq).1, Function.update_of_ne hcell]
      by_cases hzero : line' = 0
      · subst hzero
        rw [HashTable.set_self, Function.update_self]
      · rw [HashTable.set_of_ne fun heq => hzero (Prod.mk.inj heq).1, Function.update_of_ne hzero]
  have hne : table 0 idx ≠ id := by
    rintro rfl
    exact absurd (hid.symm.trans hmaster) Bool.true_eq_false_eq_False
  have hcleared : ({ table line idx with first := 0 } : ServerId) ≠ id := by
    rintro rfl
    exact absurd (hid.symm.trans (isNodeAvailble_cleared b _)) Bool.true_eq_false_eq_False
  have hheld : (held (Finset.range b.copyCount.toNat)
      (fun line' => b.promoted idx line table line' idx) id : Int) =
        held (Finset.range b.copyCount.toNat) (fun line' => table line' idx) id := by
    rw [hrow, held_update (Finset.mem_range.mpr hlt), held_update (Finset.mem_range.mpr (by omega)),
      Function.update_of_ne (by omega), if_neg hne, if_neg hcleared]
    omega
  exact_mod_cast hheld

/-- A row of the first loop, and what is lost of it cleared. -/
theorem MasterRow.quickRow (hidx : idx < b.bucketCount.toNat) (h : MasterRow b table table' idx) :
    QuickRow b table (b.quickSlaves table') idx := by
  have hfirst : b.quickSlaves table' 0 idx = table' 0 idx := if_neg fun h => absurd h.1 (by omega)
  have hlost : ∀ line ∈ b.slaveLines, b.isNodeAvailble (b.quickSlaves table' line idx) = true ∨
      b.quickSlaves table' line idx = .invalid := by
    intro line hline
    obtain ⟨hpos, hlt⟩ := mem_slaveLines.mp hline
    by_cases hid : b.isNodeAvailble (table' line idx) = true
    · left
      unfold quickSlaves
      rw [if_neg fun h => absurd (hid.symm.trans h.2.2.2) Bool.true_eq_false_eq_False]
      exact hid
    · right
      exact if_pos ⟨hpos, hlt, hidx, Bool.eq_false_iff.mpr hid⟩
  have hslave : ∀ line ∈ b.slaveLines, b.quickSlaves table' line idx = table' line idx ∨
      b.quickSlaves table' line idx = .invalid := by
    intro line _
    unfold quickSlaves
    split
    · exact Or.inr rfl
    · exact Or.inl rfl
  refine ⟨?_, ?_, fun hnot => ?_, fun id hid => (held_quickSlaves hid).trans ?_,
    fun line hline => ?_, hlost⟩
  · intro hmaster
    rw [hfirst]
    cases h with
    | kept _ hrow => exact hrow 0
    | promoted hnot => exact absurd (hmaster.symm.trans hnot) Bool.true_eq_false_eq_False
    | lost _ hnot => exact absurd (hmaster.symm.trans hnot) Bool.true_eq_false_eq_False
  · rintro ⟨line, hline, hid⟩
    rw [hfirst]
    cases h with
    | kept hmaster hrow =>
      rw [hrow]
      exact hmaster
    | promoted hmaster hline' hid' hrow =>
      rw [hrow, promoted_master hline', Function.update_self]
      exact hid'
    | lost _ hmaster hslaves =>
      rcases Nat.eq_zero_or_pos line with rfl | hpos
      · exact absurd (hid.symm.trans hmaster) Bool.true_eq_false_eq_False
      · exact absurd (hid.symm.trans (hslaves line (mem_slaveLines.mpr ⟨hpos, hline⟩)))
          Bool.true_eq_false_eq_False
  · rw [hfirst] at hnot ⊢
    cases h with
    | kept _ hrow => exact hrow 0
    | promoted _ hline' hid' hrow =>
      rw [hrow, promoted_master hline', Function.update_self] at hnot
      exact absurd (hid'.symm.trans hnot) Bool.true_eq_false_eq_False
    | lost _ _ _ hrow => exact hrow 0
  · cases h with
    | kept _ hrow => simp only [hrow]
    | promoted hmaster hline' _ hrow =>
      simp only [hrow]
      exact held_promoted hline' hmaster hid
    | lost _ _ _ hrow => simp only [hrow]
  · rcases hslave line hline with heq | heq
    · cases h with
      | kept _ hrow => exact Or.inl (heq.trans (hrow line))
      | @promoted line' hmaster hline' _ hrow =>
        by_cases hcell : line = line'
        · -- the cell of the new master
          subst hcell
          refine (hlost line hline).elim (fun hid => ?_) Or.inr
          have hcleared : table' line idx = { table line idx with first := 0 } := by
            rw [hrow, TableBuilder.promoted, HashTable.set_self,
              if_neg (by rw [hmaster]; exact Bool.false_ne_true)]
          rw [heq, hcleared, isNodeAvailble_cleared] at hid
          exact absurd hid Bool.false_ne_true
        · refine Or.inl (heq.trans ((hrow line).trans (promoted_of_ne (Or.inr ⟨?_, hcell⟩))))
          have := (mem_slaveLines.mp hline).1
          omega
      | lost _ _ _ hrow => exact Or.inl (heq.trans (hrow line))
    · exact Or.inr heq

-- ---------------------------------------------------------------------------
-- Tables
-- ---------------------------------------------------------------------------

theorem buildQuickTable_fst :
    (b.buildQuickTable table).1 = (b.quickMasters table (List.range b.bucketCount.toNat)).1 := by
  unfold buildQuickTable
  split
  · next heq => rw [heq]
  · next heq => rw [heq]

/-- The rows of a quick table. -/
theorem buildQuickTable_rows (h : (b.buildQuickTable table).1 = true) :
    SamePlan b (b.buildQuickTable table).2.1 ∧
      ∀ idx < b.bucketCount.toNat, QuickRow b table (b.buildQuickTable table).2.2 idx := by
  rw [buildQuickTable_fst] at h
  unfold buildQuickTable
  generalize hresult : b.quickMasters table (List.range b.bucketCount.toNat) = result at h
  obtain ⟨ok, c, table₁⟩ := result
  dsimp only at h
  subst h
  obtain ⟨hplan, hrows, -⟩ := quickMasters_rows List.nodup_range hresult
  have hslaves : c.quickSlaves table₁ = b.quickSlaves table₁ := by
    unfold quickSlaves
    rw [hplan.copyCount, hplan.bucketCount]
    simp only [hplan.isNodeAvailble]
  dsimp only
  rw [hslaves]
  exact ⟨hplan, fun idx hidx => (hrows idx (List.mem_range.mpr hidx)).quickRow hidx⟩

/-- A quick table is built if every bucket has a copy that is left, or if data may be lost. No copy
that is left is lost then, and every bucket that has one has a master. -/
theorem buildQuickTable_spec (b : TableBuilder σ) (table : HashTable)
    (hcopy : 0 < b.copyCount.toNat) :
    ((b.buildQuickTable table).1 = true ↔ b.dLostFlag = .allowDataLost ∨
      ∀ idx < b.bucketCount.toNat, ∃ line < b.copyCount.toNat,
        b.isNodeAvailble (table line idx) = true) ∧
    ((b.buildQuickTable table).1 = true → ∀ idx < b.bucketCount.toNat,
      QuickRow b table (b.buildQuickTable table).2.2 idx) := by
  refine ⟨?_, fun h => (buildQuickTable_rows h).2⟩
  rw [buildQuickTable_fst, quickMasters_ok_iff List.nodup_range]
  refine or_congr Iff.rfl ?_
  constructor
  · intro h idx hidx
    rcases h idx (List.mem_range.mpr hidx) with hmaster | ⟨line, hline, hid⟩
    · exact ⟨0, hcopy, hmaster⟩
    · exact ⟨line, (mem_slaveLines.mp hline).2, hid⟩
  · intro h idx hidx
    obtain ⟨line, hline, hid⟩ := h idx (List.mem_range.mp hidx)
    rcases Nat.eq_zero_or_pos line with rfl | hpos
    · exact Or.inl hid
    · exact Or.inr ⟨line, mem_slaveLines.mpr ⟨hpos, hline⟩, hid⟩

/-- Server 7 is lost. It had the master of the second bucket. -/
theorem buildQuickTable_spec_lost :
    let b := make 2 2 0 0 [5, 6] .noDataLost (fun _ => 0) ()
    let table : HashTable := fun line idx =>
      if line = idx then ⟨5, 0⟩ else if line = 0 then ⟨7, 0⟩ else ⟨6, 0⟩
    (b.buildQuickTable table).1 = true ∧ QuickRow b table (b.buildQuickTable table).2.2 1 := by
  intro b table
  have hspec := buildQuickTable_spec b table (by decide)
  have hok : (b.buildQuickTable table).1 = true := hspec.1.mpr (Or.inr (by decide))
  exact ⟨hok, hspec.2 hok 1 (by decide)⟩

end TableBuilder

end Tair
