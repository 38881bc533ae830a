-- SUMMARY: A bucket that needs no migration has the same row in the quick table and in the table that is built.
import NetworkEtc.Tair.QuickTable
import NetworkEtc.Tair.Rebuilt

/-!
# What has to migrate

Whether a bucket has to migrate is decided by its master, and by whether the servers of its other
copies are found anywhere among those of the quick table. If it need not, nothing of it differs.
-/

namespace Tair

open Library

namespace TableBuilder

variable {σ : Type} {V : Virtual σ} {b b' c : TableBuilder σ} {source quick dest : HashTable}
  {line idx : Nat}

/-- What is in a cell is told by the id of the server. -/
def Known (b : TableBuilder σ) (table : HashTable) : Prop :=
  ∀ line idx, ∀ id ∈ b.availableServer, (table line idx).first = id.first → table line idx = id

theorem Ready.eq_of_first (h : b.Ready) {id id' : ServerId} (hid : id ∈ b.availableServer)
    (hid' : id' ∈ b.availableServer) (heq : id.first = id'.first) : id = id' :=
  List.inj_on_of_nodup_map h.nodup hid hid' heq

/-- The servers of the other copies of a bucket. -/
def slaveServers (b : TableBuilder σ) (table : HashTable) (idx : Nat) : Finset UInt64 :=
  b.slaveLines.toFinset.image fun line => (table line idx).first

/-- As many servers as copies: none is missing among those of the quick table. -/
theorem slaveServers_eq (hV : V.Lawful) (htask : SameTask b c) (hdest : Rebuilt V c source b' dest)
    (hidx : idx < b.bucketCount.toNat)
    (hfound : ∀ line ∈ b.slaveLines, ∃ line' ∈ b.slaveLines,
      (dest line idx).first = (quick line' idx).first) :
    b.slaveServers quick idx = b.slaveServers dest idx := by
  have hsub : b.slaveServers dest idx ⊆ b.slaveServers quick idx := by
    intro server hmem
    obtain ⟨line, hline, rfl⟩ := Finset.mem_image.mp hmem
    obtain ⟨line', hline', heq⟩ := hfound line (List.mem_toFinset.mp hline)
    exact Finset.mem_image.mpr ⟨line', List.mem_toFinset.mpr hline', heq.symm⟩
  have hinj : Set.InjOn (fun line => (dest line idx).first) b.slaveLines.toFinset := by
    have hne : ∀ line ∈ b.slaveLines, ∀ line' ∈ b.slaveLines, line < line' →
        (dest line idx).first ≠ (dest line' idx).first := by
      intro line _ line' hline' hlt
      refine hdest.distinct hV (mem_cells.mpr ?_) hlt
      rw [htask.copyCount, htask.bucketCount]
      exact ⟨(mem_slaveLines.mp hline').2, hidx⟩
    intro line hline line' hline' heq
    have hline := List.mem_toFinset.mp hline
    have hline' := List.mem_toFinset.mp hline'
    rcases Nat.lt_trichotomy line line' with hlt | rfl | hlt
    · exact absurd heq (hne line hline line' hline' hlt)
    · rfl
    · exact absurd heq.symm (hne line' hline' line hline hlt)
  refine (Finset.eq_of_subset_of_card_le hsub ?_).symm
  rw [slaveServers, slaveServers, Finset.card_image_of_injOn hinj]
  exact Finset.card_image_le

/-- If it seems that a bucket need not migrate, no copy of it had been lost. -/
theorem quick_eq_source (hV : V.Lawful) (htask : SameTask b c) (hready : b.Ready)
    (hknown : b.Known source) (hcopy : 0 < b.copyCount.toNat)
    (hdest : Rebuilt V c source b' dest) (hidx : idx < b.bucketCount.toNat)
    (hquick : QuickRow b source quick idx)
    (hmaster : (quick 0 idx).first = (dest 0 idx).first)
    (hfound : ∀ line ∈ b.slaveLines, ∃ line' ∈ b.slaveLines,
      (dest line idx).first = (quick line' idx).first) :
    ∀ line < b.copyCount.toNat, quick line idx = source line idx ∧
      source line idx ∈ b.availableServer := by
  have hcell : ∀ line < b.copyCount.toNat, (line, idx) ∈ c.cells := by
    intro line hline
    rw [htask.cells]
    exact mem_cells.mpr ⟨hline, hidx⟩
  have hdestAvail : ∀ line < b.copyCount.toNat, dest line idx ∈ b.availableServer := by
    intro line hline
    rw [← htask.availableServer]
    exact hdest.available hV (hcell line hline)
  have hservers := slaveServers_eq hV htask hdest hidx hfound
  -- the other copies are where they were
  have hslave : ∀ line ∈ b.slaveLines, quick line idx = source line idx ∧
      source line idx ∈ b.availableServer := by
    intro line hline
    have hmem : (quick line idx).first ∈ b.slaveServers dest idx := by
      rw [← hservers]
      exact Finset.mem_image.mpr ⟨line, List.mem_toFinset.mpr hline, rfl⟩
    obtain ⟨line', hline', heq⟩ := Finset.mem_image.mp hmem
    have hid := hdestAvail line' (mem_slaveLines.mp (List.mem_toFinset.mp hline')).2
    have hne : quick line idx ≠ .invalid := by
      intro hinvalid
      rw [hinvalid] at heq
      exact hready.nonzero _ hid heq
    have hsource := (hquick.slaves line hline).resolve_right hne
    have hsame := hknown line idx _ hid (by rw [← hsource]; exact heq.symm)
    exact ⟨hsource, hsame ▸ hid⟩
  -- so is the master
  have hquickMaster : b.isNodeAvailble (quick 0 idx) = true := by
    by_contra hnot
    have hstays := hquick.stays (Bool.eq_false_iff.mpr hnot)
    have hsame := hknown 0 idx _ (hdestAvail 0 hcopy) (by rw [← hstays]; exact hmaster)
    rw [hstays, hsame] at hnot
    exact hnot (hready.isNodeAvailble_iff.mpr (hdestAvail 0 hcopy))
  have hquickAll : ∀ line ∈ Finset.range b.copyCount.toNat, quick line idx ∈ b.holders := by
    intro line hline
    rw [mem_holders]
    rcases Nat.eq_zero_or_pos line with rfl | hpos
    · exact hready.isNodeAvailble_iff.mp hquickMaster
    · obtain ⟨heq, hid⟩ := hslave line (mem_slaveLines.mpr ⟨hpos, Finset.mem_range.mp hline⟩)
      rw [heq]
      exact hid
  have hsum : ∑ id ∈ b.holders, held (Finset.range b.copyCount.toNat) (fun line => quick line idx) id =
      ∑ id ∈ b.holders, held (Finset.range b.copyCount.toNat) (fun line => source line idx) id :=
    Finset.sum_congr rfl fun id hid =>
      hquick.copies id (hready.isNodeAvailble_iff.mpr (mem_holders.mp hid))
  rw [sum_held, sum_held, Finset.filter_true_of_mem hquickAll] at hsum
  have hall := Finset.card_filter_eq_iff.mp hsum.symm
  intro line hline
  have hid := mem_holders.mp (hall line (Finset.mem_range.mpr hline))
  rcases Nat.eq_zero_or_pos line with rfl | hpos
  · exact ⟨hquick.master (hready.isNodeAvailble_iff.mpr hid), hid⟩
  · exact hslave line (mem_slaveLines.mpr ⟨hpos, hline⟩)

/-- A bucket that keeps its master, and whose other copies are all on servers that had one, keeps
all its copies. -/
theorem dest_eq_source (hV : V.Lawful) (htask : SameTask b c) (hready : b.Ready)
    (hcopy : 0 < b.copyCount.toNat) (hdest : Rebuilt V c source b' dest)
    (hidx : idx < b.bucketCount.toNat)
    (havail : ∀ line < b.copyCount.toNat, source line idx ∈ b.availableServer)
    (hmaster : (source 0 idx).first = (dest 0 idx).first)
    (hfound : ∀ line ∈ b.slaveLines, ∃ line' ∈ b.slaveLines,
      (dest line idx).first = (source line' idx).first) :
    ∀ line < b.copyCount.toNat, dest line idx = source line idx := by
  obtain ⟨d, start, hmasters, hslaves⟩ := hdest.masters
  have hdestAvail : ∀ line < b.copyCount.toNat, dest line idx ∈ b.availableServer := by
    intro line hline
    rw [← htask.availableServer]
    refine hdest.available hV ?_
    rw [htask.cells]
    exact mem_cells.mpr ⟨hline, hidx⟩
  have hzero : dest 0 idx = source 0 idx :=
    hready.eq_of_first (hdestAvail 0 hcopy) (havail 0 hcopy) hmaster.symm
  have hstart : ∀ line, start line idx = source line idx := by
    refine (hmasters.rows idx).resolve_right fun hne => hne ?_
    rw [← hzero, Rebuilt.line_zero hslaves]
  -- the first copy that is not where it was is on a server that had no copy
  intro line hline
  induction line using Nat.strongRecOn with
  | ind line ih =>
    rcases Nat.eq_zero_or_pos line with rfl | hpos
    · exact hzero
    by_contra hne
    have hmem := mem_slaveLines.mpr ⟨hpos, hline⟩
    obtain ⟨e, before, level, inUse, hplan, hok, hbefore, hafter⟩ :=
      hslaves.passed (line, idx) (by
        rw [mem_slaveCells, htask.slaveLines, htask.bucketCount]
        exact ⟨hmem, hidx⟩)
    have hplan := hmasters.plan.trans hplan
    have hapart := hV.slave_ne _ _ _ _ _ _ _ (by dsimp only; omega) hok
    rw [hplan.copyCount, htask.copyCount] at hapart
    dsimp only at hapart hbefore hafter
    obtain ⟨line', hline', heq⟩ := hfound line hmem
    have hline' := (mem_slaveLines.mp hline').2
    rcases Nat.lt_trichotomy line' line with hlt | rfl | hgt
    · refine hapart line' hline' (Nat.ne_of_lt hlt) ?_
      rw [hbefore line' hlt, ih line' hlt hline', heq]
    · exact hne (hready.eq_of_first (hdestAvail line' hline) (havail line' hline) heq)
    · refine hapart line' hline' (Nat.ne_of_gt hgt) ?_
      rw [hafter line' hgt, hstart, heq]

/-- If it seems that a bucket need not migrate, its rows are the same. -/
theorem quick_eq_dest (hV : V.Lawful) (htask : SameTask b c) (hready : b.Ready)
    (hknown : b.Known source) (hcopy : 0 < b.copyCount.toNat)
    (hdest : Rebuilt V c source b' dest) (hidx : idx < b.bucketCount.toNat)
    (hquick : QuickRow b source quick idx)
    (hmaster : (quick 0 idx).first = (dest 0 idx).first)
    (hfound : ∀ line ∈ b.slaveLines, ∃ line' ∈ b.slaveLines,
      (dest line idx).first = (quick line' idx).first) :
    ∀ line < b.copyCount.toNat, quick line idx = dest line idx := by
  have hsource := quick_eq_source hV htask hready hknown hcopy hdest hidx hquick hmaster hfound
  have hdest' := dest_eq_source hV htask hready hcopy hdest hidx
    (fun line hline => (hsource line hline).2)
    (by rw [← (hsource 0 hcopy).1]; exact hmaster) fun line hline => by
      obtain ⟨line', hline', heq⟩ := hfound line hline
      rw [(hsource line' (mem_slaveLines.mp hline').2).1] at heq
      exact ⟨line', hline', heq⟩
  intro line hline
  rw [(hsource line hline).1, hdest' line hline]

end TableBuilder

end Tair
