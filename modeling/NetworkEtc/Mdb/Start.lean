-- SUMMARY: mdb_manager::initialize leads to a settled store with nothing in it.
import NetworkEtc.Mdb.StoreCalls

/-!
# Starting

`slab_initialize` gives each slab a page of its own as long as there are pages. No item is
in use yet, and the memory has no expiry times in it.
-/

namespace Mdb

open Library

/-- No item is in a list. -/
def Memory.Bare (mem : Memory) : Prop := ∀ a, (mem.item a).prev = 0 ∧ (mem.item a).next = 0

theorem Memory.Bare.initPage {mem : Memory} {g : SlabShape} {p : Nat} (h : mem.Bare) :
    (g.initPage mem p).Bare := by
  intro a
  rcases eq_or_ne a.1 p with ha | ha
  · exact SlabShape.links_initPage ha
  · rw [SlabShape.item_initPage_ne ha]
    exact h a

/-- The slab managers `slabs`, numbered from `i` on, have been set up in `mem'` out of `mem`,
in which the pages `S` were free: the one at `j` has the pages `owned j`, all free. -/
structure Started (i : Nat) (slabs : List SlabManager) (mem mem' : Memory)
    (owned : Nat → Finset Nat) (free : Nat → List ItemId) (S : Finset Nat) : Prop where
  pool : mem'.pool.Sound
  total : mem'.pool.totalPages = mem.pool.totalPages
  outside : mem.Outside S mem'
  clear : ∀ q ∈ S, mem.pool.pageBitmap q = false
  used : ∀ q, mem.pool.pageBitmap q = true → mem'.pool.pageBitmap q = true
  fades : mem.Fades mem'
  bare : mem.Bare → mem'.Bare
  slabId : ∀ j (hj : j < slabs.length), slabs[j].slabId = i + j
  books : ∀ j (hj : j < slabs.length), Books ⟨mem', slabs[j]⟩ (owned j) free
  blank : ∀ j (hj : j < slabs.length),
    (SlabManager.blank slabs[j].toSlabShape).SameItems slabs[j]
  sub : ∀ j < slabs.length, owned j ⊆ S
  free : ∀ j (hj : j < slabs.length), ∀ p ∈ owned j, ∀ x, slabs[j].IsPlace p x → x ∈ free p
  apart : ∀ j < slabs.length, ∀ k < slabs.length, j ≠ k → Disjoint (owned j) (owned k)

theorem fades_preAlloc {s s' : Slab} (h : s.preAlloc = some s') :
    s.mem.Fades s'.mem ∧ (s.mem.Bare → s'.mem.Bare) := by
  unfold Slab.preAlloc at h
  simp only [Option.bind_eq_bind, Option.bind_eq_some_iff] at h
  obtain ⟨⟨page, pool⟩, -, h⟩ := h
  cases page with
  | none =>
    rw [← Option.some.inj h]
    exact ⟨.refl, fun hbare => hbare⟩
  | some index =>
    simp only [Option.bind_eq_some_iff, Option.some.injEq] at h
    obtain ⟨⟨mem₁, head₁⟩, hlink, rfl⟩ := h
    have hpool : s.mem.Fades { s.mem with pool } := .of_item_eq rfl
    have hinit : s.mem.Fades (s.mng.initPage { s.mem with pool } index) :=
      hpool.trans fades_initPage
    have hitem := item_linkPage hlink
    refine ⟨hinit.trans (.of_item_eq hitem), fun hbare a => ?_⟩
    simp only [hitem]
    have hbare' : ({ s.mem with pool } : Memory).Bare := hbare
    exact hbare'.initPage a

/-- No slab manager has been set up. -/
theorem Started.nil {i : Nat} {mem : Memory} (hpool : mem.pool.Sound) :
    Started i [] mem mem (fun _ => ∅) (fun _ => []) ∅ :=
  ⟨hpool, rfl, .refl, by simp, fun _ h => h, .refl, fun h => h, by simp, by simp, by simp, by simp, by simp,
    by simp⟩

/-- `pre_alloc` on a new slab manager. -/
theorem preAlloc_blank {mem : Memory} {g : SlabShape} (hpool : mem.pool.Sound) :
    ∃ s owned free, Slab.preAlloc ⟨mem, .blank g⟩ = some s ∧ Books s owned free ∧
      s.mem.pool.totalPages = mem.pool.totalPages ∧
      (∀ p ∈ owned, ∀ x, s.mng.IsPlace p x → x ∈ free p) ∧ mem.Outside owned s.mem ∧
      (∀ q ∈ owned, mem.pool.pageBitmap q = false) ∧
      (∀ q, mem.pool.pageBitmap q = true → s.mem.pool.pageBitmap q = true) ∧
      (SlabManager.blank g).SameItems s.mng := by
  obtain ⟨s, owned, free, halloc, hbooks, htotal, hfree, hcases⟩ := Books.preAlloc (g := g) hpool
  refine ⟨s, owned, free, halloc, hbooks, htotal, hfree, ?_⟩
  rcases hcases with ⟨rfl, -, rfl⟩ | ⟨p, rfl, -, hclear, hbitmap, hout, hsame, -⟩
  · exact ⟨.refl, by simp, fun _ hq => hq, .refl⟩
  · refine ⟨hout, ?_, ?_, hsame⟩
    · simpa using hclear
    · intro q hq
      rw [hbitmap, Function.update_apply]
      split
      · rfl
      · exact hq

/-- One more slab manager in front. -/
theorem Started.cons {i : Nat} {slab : Slab} {slabs : List SlabManager} {mem mem' : Memory}
    {owned₀ : Finset Nat} {free₀ : Nat → List ItemId} {owned : Nat → Finset Nat}
    {free : Nat → List ItemId} {S : Finset Nat} (h : Started (i + 1) slabs slab.mem mem' owned free S)
    (hid : slab.mng.slabId = i) (hbooks : Books slab owned₀ free₀)
    (htotal : slab.mem.pool.totalPages = mem.pool.totalPages)
    (hfree : ∀ p ∈ owned₀, ∀ x, slab.mng.IsPlace p x → x ∈ free₀ p)
    (hout : mem.Outside owned₀ slab.mem) (hclear : ∀ q ∈ owned₀, mem.pool.pageBitmap q = false)
    (hused : ∀ q, mem.pool.pageBitmap q = true → slab.mem.pool.pageBitmap q = true)
    (hblank : (SlabManager.blank slab.mng.toSlabShape).SameItems slab.mng)
    (hfades : mem.Fades slab.mem) (hbare : mem.Bare → slab.mem.Bare) :
    Started i (slab.mng :: slabs) mem mem' (fun j => Nat.casesOn j owned₀ owned)
      (fun q => if q ∈ owned₀ then free₀ q else free q) (owned₀ ∪ S) := by
  have hnot : ∀ q ∈ owned₀, q ∉ S := by
    intro q hq hqS
    have hset := hbooks.used q hq
    rw [h.clear q hqS] at hset
    exact Bool.noConfusion hset
  have hsplit : ∀ {P : (j : Nat) → j < (slab.mng :: slabs).length → Prop},
      P 0 (Nat.zero_lt_succ _) → (∀ j (hj : j < slabs.length), P (j + 1) (Nat.succ_lt_succ hj)) →
        ∀ j hj, P j hj := by
    intro P hzero hsucc j hj
    cases j with
    | zero => exact hzero
    | succ j => exact hsucc j (Nat.lt_of_succ_lt_succ hj)
  refine ⟨h.pool, h.total.trans htotal, ?_, ?_, fun q hq => h.used q (hused q hq),
    hfades.trans h.fades, fun hm => h.bare (hbare hm), hsplit ?_ ?_, hsplit ?_ ?_, hsplit ?_ ?_,
    hsplit ?_ ?_, hsplit ?_ ?_, ?_⟩
  · exact (hout.mono Finset.subset_union_left).trans (h.outside.mono Finset.subset_union_right)
  · intro q hq
    rcases Finset.mem_union.mp hq with hq | hq
    · exact hclear q hq
    · cases hset : mem.pool.pageBitmap q with
      | false => rfl
      | true =>
        have hclear' := h.clear q hq
        rw [hused q hset] at hclear'
        exact Bool.noConfusion hclear'
  · exact hid
  · intro j hj
    rw [List.getElem_cons_succ, h.slabId j hj, Nat.add_assoc, Nat.add_comm 1 j]
  · apply hbooks.outside h.outside h.pool h.total
    intro q hq
    refine ⟨hnot q hq, if_pos hq, ?_⟩
    rw [hbooks.used q hq]
    exact h.used q (hbooks.used q hq)
  · intro j hj
    apply (h.books j hj).outside (S := ∅) .refl h.pool rfl
    intro q hq
    exact ⟨Finset.notMem_empty q, if_neg fun hq₀ => hnot q hq₀ (h.sub j hj hq), rfl⟩
  · exact hblank
  · exact h.blank
  · exact Finset.subset_union_left
  · exact fun j hj => (h.sub j hj).trans Finset.subset_union_right
  · intro p hp x hx
    have hp : p ∈ owned₀ := hp
    rw [if_pos hp]
    exact hfree p hp x hx
  · intro j hj p hp x hx
    have hp : p ∈ owned j := hp
    rw [if_neg fun hp₀ => hnot p hp₀ (h.sub j hj hp)]
    exact h.free j hj p hp x hx
  · have hfirst : ∀ k < slabs.length, Disjoint owned₀ (owned k) := by
      intro k hk
      rw [Finset.disjoint_left]
      exact fun q hq hqk => hnot q hq (h.sub k hk hqk)
    intro j hj k hk hjk
    cases j with
    | zero =>
      cases k with
      | zero => exact absurd rfl hjk
      | succ k => exact hfirst k (Nat.lt_of_succ_lt_succ hk)
    | succ j =>
      cases k with
      | zero => exact (hfirst j (Nat.lt_of_succ_lt_succ hj)).symm
      | succ k =>
        exact h.apart j (Nat.lt_of_succ_lt_succ hj) k (Nat.lt_of_succ_lt_succ hk)
          fun heq => hjk (congrArg Nat.succ heq)

/-- The loop of `slab_initialize`. -/
theorem slabLoop_started {factor : Growth} {n i start : Nat} {hi : i + n = TAIR_SLAB_LARGEST}
    {hstart : itemHeaderSize ≤ start} {mem mem' : Memory} {slabs : List SlabManager}
    (hpool : mem.pool.Sound) (h : slabLoop factor n i start hi hstart mem = some (slabs, mem')) :
    ∃ owned free S, Started i slabs mem mem' owned free S := by
  induction n generalizing i start mem slabs with
  | zero =>
    simp only [slabLoop, Option.some.injEq, Prod.mk.injEq] at h
    obtain ⟨rfl, rfl⟩ := h
    exact ⟨_, _, _, .nil hpool⟩
  | succ n ih =>
    unfold slabLoop at h
    split at h
    · simp only [Option.bind_eq_bind, Option.bind_eq_some_iff, Option.some.injEq,
        Prod.mk.injEq] at h
      obtain ⟨slab, halloc, ⟨rest, mem₁⟩, hrest, rfl, rfl⟩ := h
      obtain ⟨s, owned₀, free₀, halloc', hbooks, htotal, hfree, hout, hclear, hused, hblank⟩ :=
        preAlloc_blank hpool
      obtain rfl : slab = s := Option.some.inj (halloc.symm.trans halloc')
      obtain ⟨owned, free, S, hstarted⟩ := ih hbooks.pool hrest
      have hid : slab.mng.slabId = i := by rw [hblank.shape_eq]; rfl
      refine ⟨_, _, _, hstarted.cons hid hbooks htotal hfree hout hclear hused ?_
        (fades_preAlloc halloc).1 (fades_preAlloc halloc).2⟩
      rw [hblank.shape_eq]
      exact hblank
    · simp only [Option.some.injEq, Prod.mk.injEq] at h
      obtain ⟨rfl, rfl⟩ := h
      exact ⟨_, _, _, .nil hpool⟩

theorem slabInit_started {factor : Growth} {baseSize : Nat} {mem mem' : Memory}
    {slabs : List SlabManager} (hpool : mem.pool.Sound)
    (h : slabInit factor baseSize mem = some (slabs, mem')) :
    ∃ owned free S, Started 0 slabs mem mem' owned free S := by
  unfold slabInit at h
  replace h := (Option.filter_eq_some_iff.mp h).1
  split at h
  · exact slabLoop_started hpool h
  · split at h
    · exact slabLoop_started hpool h
    · exact absurd h (by simp)

theorem sound_takePages {n : Nat} {pool pool' : MemPool} (hpool : pool.Sound)
    (h : takePages n pool = some pool') : pool'.Sound := by
  induction n generalizing pool with
  | zero =>
    rw [← Option.some.inj h]
    exact hpool
  | succ n ih =>
    unfold takePages at h
    rcases hpool.allocPage with ⟨halloc, -⟩ | ⟨index, pool₁, halloc, hsound, -⟩
    · rw [halloc] at h
      exact absurd h (by simp)
    · rw [halloc] at h
      exact ih hsound h

namespace Store

/-- Nothing is in the store, and nothing is counted. -/
structure Empty (s : Store) (g : Ledger) : Prop where
  settled : s.Settled g
  none_inUse : ∀ x, ¬ g.InUse x
  areaStat_eq : ∀ k, (s.areaStat k).dataSize = 0 ∧ (s.areaStat k).spaceUsage = 0 ∧
    (s.areaStat k).itemCount = 0
  areaTimestamp_eq : ∀ k, s.areaTimestamp k = 0
  itemCount_eq : ∀ i < g.count, ∀ k, (s.slabs i).itemCount k = 0

theorem empty_init {param : MdbParam} {s : Store} (h : Store.init param = some s) :
    ∃ g, s.Empty g := by
  unfold Store.init at h
  split at h
  swap
  · exact absurd h (by simp)
  next hpages =>
  simp only [Option.bind_eq_bind, Option.bind_eq_some_iff] at h
  obtain ⟨pool, htake, ⟨slabs, mem⟩, hinit, h⟩ := h
  have hpool := sound_takePages (MemPool.sound_init param.totalPages_le hpages.1 hpages.2) htake
  obtain ⟨owned, free, S, hstarted⟩ := slabInit_started hpool hinit
  cases slabs with
  | nil => exact absurd h (by simp)
  | cons first rest =>
    obtain rfl := Option.some.inj h
    generalize first :: rest = slabs at *
    have hget : ∀ i (hi : i < slabs.length), slabs.getD i first = slabs[i] := by
      intro i hi
      simp [List.getD_eq_getElem?_getD, hi]
    let g : Ledger := ⟨slabs.length, fun i => (slabs.getD i first).toSlabShape, owned, free, fun _ => 0⟩
    have hnone : ∀ x, ¬ g.InUse x := by
      rintro x ⟨i, hi, p, hp, hx, hxfree⟩
      apply hxfree
      apply hstarted.free i hi p hp
      rw [← hget i hi]
      exact hx
    have hbooks : ∀ i < slabs.length, Books ⟨mem, slabs.getD i first⟩ (owned i) free := by
      intro i hi
      rw [hget i hi]
      exact hstarted.books i hi
    have hblank : ∀ i < slabs.length,
        (SlabManager.blank (slabs.getD i first).toSlabShape).SameItems (slabs.getD i first) := by
      intro i hi
      rw [hget i hi]
      exact hstarted.blank i hi
    refine ⟨g, ⟨⟨⟨rfl, fun _ _ => rfl, fun i hi => ?_, hbooks, hstarted.apart⟩, fun i hi => ?_, ?_, ?_,
      ?_, ?_, ?_, fun a _ => ?_⟩, ?_, fun a _ => ?_⟩, hnone, fun _ => ⟨rfl, rfl, rfl⟩, fun _ => rfl,
      fun i hi k => ?_⟩
    · change (slabs.getD i first).slabId = i
      rw [hget i hi, hstarted.slabId i hi, Nat.zero_add]
    · apply Shelved.empty
      · intro k
        exact ItemId.place_eq_none.mpr (congrFun (hblank i hi).itemHead_eq k)
      · intro k
        exact ItemId.place_eq_none.mpr (congrFun (hblank i hi).itemTail_eq k)
      · exact fun x hx => hnone x (Ledger.inUse_of hi hx)
    · exact fun x hx => absurd hx (hnone x)
    · exact Chained.empty (fun _ => rfl) hnone
    · exact fun x hx => absurd hx (hnone x)
    · exact fun x hx => absurd hx (hnone x)
    · exact fun x _ hx => absurd hx (hnone x)
    · exact hstarted.bare (fun _ => ⟨rfl, rfl⟩) a
    · exact fun x hx => absurd hx (hnone x)
    · exact hstarted.fades.zero rfl
    · exact congrFun (hblank i hi).itemCount_eq k

end Store

end Mdb
