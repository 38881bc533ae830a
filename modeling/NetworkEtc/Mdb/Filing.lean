-- SUMMARY: The pages of a slab on their shelves, and what taking one down or putting it back does.
import Mathlib.Algebra.Order.Ring.Int
import NetworkEtc.Mdb.SlabPages

/-!
# Filing pages

A page stands on the shelf its `free_nr` says: the free pages, the full ones, or the
bucket of partial ones. `Filed` holds the lists and every number the slab manager keeps
about them, for the pages that are on a list at the moment; a function that has a page
in its hands has one page fewer there, and counts it among the partial ones.
-/

namespace Mdb

open Library

/-- The lists of pages a slab manager keeps. -/
inductive Shelf where
  | free
  | full
  | bucket (b : Nat)
deriving DecidableEq

/-- Where a page with `freeNr` free items belongs. -/
def SlabShape.shelfOf (g : SlabShape) (freeNr : Nat) : Shelf :=
  if freeNr = 0 then .full
  else if freeNr = g.perSlab then .free
  else .bucket (freeNr / PARTIAL_PAGE_BUCKET)

/-- The `page_head` of a shelf. -/
def SlabManager.pageHead (mng : SlabManager) : Shelf → Nat
  | .free => mng.freePages
  | .full => mng.fullPages
  | .bucket b => mng.partialPages b

theorem SlabShape.shelfOf_zero {g : SlabShape} : g.shelfOf 0 = .full := rfl

theorem SlabShape.shelfOf_perSlab {g : SlabShape} : g.shelfOf g.perSlab = .free := by
  simp [SlabShape.shelfOf, g.perSlab_pos.ne']

theorem SlabShape.shelfOf_partial {g : SlabShape} {nr : Nat} (hpos : 0 < nr)
    (hlt : nr < g.perSlab) : g.shelfOf nr = .bucket (nr / PARTIAL_PAGE_BUCKET) := by
  simp [SlabShape.shelfOf, hpos.ne', hlt.ne]

/-- The bucket of a partial page is one of those there are. -/
theorem SlabShape.bucket_lt {g : SlabShape} {nr : Nat} (hlt : nr < g.perSlab) :
    nr / PARTIAL_PAGE_BUCKET < g.partialPagesBucketNum := by
  unfold SlabShape.partialPagesBucketNum PARTIAL_PAGE_BUCKET
  omega

/-! # The lists -/

/-- The pages of `P` on their shelves. -/
def OnShelves (g : SlabShape) (mem : Memory) (head : Shelf → Nat) (P : Finset Nat) : Prop :=
  ∃ tail, Shelved (fun p => pagePtr (mem.page p).next) (fun p => pagePtr (mem.page p).prev)
    (fun k => pagePtr (head k)) tail (fun p => g.shelfOf (mem.page p).freeNr) (· ∈ P)

/-- The page `q` is filed as before. -/
structure Memory.FiledAlike (mem mem' : Memory) (q : Nat) : Prop where
  next_eq : (mem'.page q).next = (mem.page q).next
  prev_eq : (mem'.page q).prev = (mem.page q).prev
  freeNr_eq : (mem'.page q).freeNr = (mem.page q).freeNr

theorem Memory.FiledAlike.of_eq {mem mem' : Memory} {q : Nat} (h : mem'.page q = mem.page q) :
    mem.FiledAlike mem' q := by
  constructor <;> rw [h]

/-- The headers of the pages in `P`, as far as the lists need them. -/
structure Headed (mem : Memory) (P : Finset Nat) : Prop where
  indexOk : ∀ q ∈ P, mem.pool.indexOk q = true
  id_eq : ∀ q ∈ P, (mem.page q).id = q

namespace Headed

variable {mem mem' : Memory} {P Q : Finset Nat} {p : Nat}

theorem pos (h : Headed mem P) (hp : p ∈ P) : 0 < p :=
  (MemPool.indexOk_iff.mp (h.indexOk p hp)).1

theorem lt (h : Headed mem P) (hp : p ∈ P) : p < MAX_PAGES_NO :=
  Nat.lt_of_lt_of_le (MemPool.indexOk_iff.mp (h.indexOk p hp)).2 mem.pool.totalPages_le

theorem mono (h : Headed mem P) (hsub : Q ⊆ P) : Headed mem Q :=
  ⟨fun q hq => h.indexOk q (hsub hq), fun q hq => h.id_eq q (hsub hq)⟩

theorem relinked (h : Headed mem P) (hrel : mem.Relinked mem') : Headed mem' P := by
  refine ⟨fun q hq => ?_, fun q hq => ?_⟩
  · rw [hrel.pool_eq]
    exact h.indexOk q hq
  · rw [hrel.id_eq]
    exact h.id_eq q hq

end Headed

namespace OnShelves

variable {g : SlabShape} {mem mem' : Memory} {head head' : Shelf → Nat} {P : Finset Nat}
  {p q : Nat} {k : Shelf}

theorem congr (h : OnShelves g mem head P)
    (hpage : ∀ q ∈ P, mem.FiledAlike mem' q) : OnShelves g mem' head P := by
  obtain ⟨tail, h⟩ := h
  refine ⟨tail, h.congr (fun z hz => ?_) (fun z hz => ?_) (fun z hz => ?_) (fun _ => rfl)
    (fun _ => rfl) fun _ => Iff.rfl⟩
  · rw [(hpage z hz).next_eq]
  · rw [(hpage z hz).prev_eq]
  · rw [(hpage z hz).freeNr_eq]

theorem head_mem (h : OnShelves g mem head P) (hk : head k ≠ 0) :
    head k ∈ P ∧ g.shelfOf (mem.page (head k)).freeNr = k := by
  obtain ⟨tail, h⟩ := h
  exact h.head_mem (pagePtr_eq_some.mpr ⟨hk, rfl⟩)

theorem head_ne_zero (h : OnShelves g mem head P) (hp : p ∈ P) :
    head (g.shelfOf (mem.page p).freeNr) ≠ 0 := by
  obtain ⟨tail, h⟩ := h
  intro hzero
  have hnone := h.head_eq_none.mp (pagePtr_eq_none.mpr hzero)
  exact hnone p hp rfl

/-- A page goes on its shelf. -/
theorem link (h : OnShelves g mem head P) (hp : p ∉ P) (hP : Headed mem (insert p P)) :
    ∃ mem', linkPage mem p (head (g.shelfOf (mem.page p).freeNr)) = some (mem', p) ∧
      mem.Relinked mem' ∧ mem.Outside (insert p P) mem' ∧
      OnShelves g mem' (Function.update head (g.shelfOf (mem.page p).freeNr) p) (insert p P) := by
  have hpos := hP.pos (Finset.mem_insert_self p P)
  have hhead := fun hk => h.head_mem (k := g.shelfOf (mem.page p).freeNr) hk
  obtain ⟨tail, h⟩ := h
  generalize hk : g.shelfOf (mem.page p).freeNr = k at hhead ⊢
  have hne : head k ≠ p := by
    intro heq
    have hmem := (hhead (by rw [heq]; exact hpos.ne')).1
    rw [heq] at hmem
    exact hp hmem
  have hok : head k = 0 ∨ mem.pool.indexOk (head k) = true := by
    rcases Nat.eq_zero_or_pos (head k) with h0 | hpos
    · exact Or.inl h0
    · exact Or.inr (hP.indexOk _ (Finset.mem_insert_of_mem (hhead hpos.ne').1))
  obtain ⟨mem', hlink, hrel, hnext, hprev⟩ :=
    linkPage_spec (hP.id_eq p (Finset.mem_insert_self p P)) hne hok
  refine ⟨mem', hlink, hrel, ⟨fun q hq => ?_, fun a _ => by rw [hrel.item_eq]⟩, ?_⟩
  · rw [Finset.mem_insert, not_or] at hq
    apply hrel.page_eq
    · rw [hnext q, if_neg hq.1]
    · rw [hprev q, if_neg hq.1, if_neg]
      rintro ⟨h0, rfl⟩
      exact hq.2 (hhead h0).1
  · refine ⟨_, (h.push (a := p) hp
      (fun z _ => ?_) ?_ ?_ (fun z hz => ?_) (fun z hz => ?_) (fun j => ?_)
      (fun _ => rfl)).congr (fun _ _ => rfl) (fun _ _ => rfl) (fun _ _ => rfl) (fun _ => rfl)
      (fun _ => rfl) (fun z => Finset.mem_insert)⟩
    · rw [hrel.freeNr_eq]
    · simp only [hnext p, if_true, hrel.freeNr_eq, hk]
    · simp only [hprev p, if_true, pagePtr_zero]
    · have hzp : z ≠ p := by rintro rfl; exact hp hz
      simp only [hnext z, if_neg hzp]
    · have hzp : z ≠ p := by rintro rfl; exact hp hz
      simp only [hprev z, if_neg hzp, hrel.freeNr_eq, hk, pagePtr_eq_some]
      split
      · exact pagePtr_of_pos hpos
      · rfl
    · simp only [hrel.freeNr_eq, hk, Function.update_apply]
      split
      · exact pagePtr_of_pos hpos
      · rfl

/-- A page is taken off its shelf. -/
theorem unlink (h : OnShelves g mem head P) (hp : p ∈ P) (hP : Headed mem P) :
    ∃ mem' v, unlinkPage mem p (head (g.shelfOf (mem.page p).freeNr)) = some (mem', v) ∧
      mem.Relinked mem' ∧ mem.Outside P mem' ∧
      OnShelves g mem' (Function.update head (g.shelfOf (mem.page p).freeNr) v) (P.erase p) := by
  obtain ⟨tail, h⟩ := h
  have hpos := hP.pos hp
  have hnext_mem : (mem.page p).next ≠ 0 → (mem.page p).next ∈ P ∧ (mem.page p).next ≠ p := by
    intro h0
    obtain ⟨hm, -, hne⟩ := h.next_mem hp (pagePtr_eq_some.mpr ⟨h0, rfl⟩)
    exact ⟨hm, hne⟩
  have hprev_mem : (mem.page p).prev ≠ 0 → (mem.page p).prev ∈ P ∧ (mem.page p).prev ≠ p := by
    intro h0
    obtain ⟨hm, -, hne⟩ := h.prev_mem hp (pagePtr_eq_some.mpr ⟨h0, rfl⟩)
    exact ⟨hm, hne⟩
  have hok : ∀ n, (n ≠ 0 → n ∈ P ∧ n ≠ p) → n = 0 ∨ mem.pool.indexOk n = true := by
    intro n hn
    rcases Nat.eq_zero_or_pos n with h0 | hpos
    · exact Or.inl h0
    · exact Or.inr (hP.indexOk n (hn hpos.ne').1)
  obtain ⟨mem', hunlink, hrel, hnext, hprev⟩ := unlinkPage_spec (hP.id_eq p hp) (hok _ hnext_mem)
    (hok _ hprev_mem)
  refine ⟨mem', _, hunlink, hrel, ⟨fun q hq => ?_, fun a _ => by rw [hrel.item_eq]⟩,
    fun j => if j = g.shelfOf (mem.page p).freeNr ∧ tail j = some p then
      pagePtr (mem.page p).prev else tail j, ?_⟩
  · have hqp : q ≠ p := by rintro rfl; exact hq hp
    apply hrel.page_eq
    · rw [hnext q hqp, if_neg]
      rintro ⟨h0, rfl⟩
      exact hq (hprev_mem h0).1
    · rw [hprev q hqp, if_neg]
      rintro ⟨h0, rfl⟩
      exact hq (hnext_mem h0).1
  · refine (h.remove (a := p) hp (fun z hz hzp => ?_)
      (fun z hz hzp => ?_) (fun j => rfl) (fun j => rfl)).congr (fun _ _ => rfl)
      (fun _ _ => rfl) (fun z _ => by simp only [hrel.freeNr_eq]) (fun j => ?_) (fun _ => rfl)
      (fun z => by rw [Finset.mem_erase, and_comm])
    · simp only [hnext z hzp, pagePtr_eq_some]
      split <;> rfl
    · simp only [hprev z hzp, pagePtr_eq_some]
      split <;> rfl
    · simp only [Function.update_apply, pagePtr_eq_some]
      rcases eq_or_ne j (g.shelfOf (mem.page p).freeNr) with rfl | hj
      · simp only [if_true, true_and]
        rcases eq_or_ne p (head (g.shelfOf (mem.page p).freeNr)) with heq | hne
        · rw [if_pos heq, if_pos ⟨by rw [← heq]; exact hpos.ne', heq⟩]
        · rw [if_neg hne, if_neg fun hand => hne hand.2]
      · simp [hj]

end OnShelves

/-! # The lists with the numbers -/

/-- The number of pages in `P` with as many free items as `Q` says. -/
def countPages (mem : Memory) (P : Finset Nat) (Q : Nat → Prop) [DecidablePred Q] : Int :=
  (P.filter fun p => Q (mem.page p).freeNr).card

section countPages

variable {mem mem' : Memory} {P : Finset Nat} {p : Nat} {Q : Nat → Prop} [DecidablePred Q]

theorem countPages_congr (h : ∀ q ∈ P, (mem'.page q).freeNr = (mem.page q).freeNr) :
    countPages mem' P Q = countPages mem P Q := by
  unfold countPages
  rw [Finset.filter_congr fun q hq => by rw [h q hq]]

variable (mem) in
theorem countPages_insert (hp : p ∉ P) : countPages mem (insert p P) Q =
    countPages mem P Q + if Q (mem.page p).freeNr then 1 else 0 := by
  unfold countPages
  rw [Finset.filter_insert]
  split
  · rw [Finset.card_insert_of_notMem fun hmem => hp (Finset.mem_filter.mp hmem).1]
    simp
  · simp

theorem countPages_erase (hp : p ∈ P) : countPages mem (P.erase p) Q =
    countPages mem P Q - if Q (mem.page p).freeNr then 1 else 0 := by
  have h := countPages_insert mem (Q := Q) (Finset.notMem_erase p P)
  rw [Finset.insert_erase hp] at h
  omega

theorem countPages_pos (h : 0 < countPages mem P Q) : ∃ p ∈ P, Q (mem.page p).freeNr := by
  unfold countPages at h
  obtain ⟨p, hp⟩ := Finset.card_pos.mp (Int.natCast_pos.mp h)
  exact ⟨p, Finset.mem_filter.mp hp⟩

variable (mem) in
theorem not_of_countPages (h : countPages mem P Q ≤ 0) : ∀ p ∈ P, ¬ Q (mem.page p).freeNr := by
  intro p hp hQ
  have hpos : 0 < (P.filter fun p => Q (mem.page p).freeNr).card :=
    Finset.card_pos.mpr ⟨p, Finset.mem_filter.mpr ⟨hp, hQ⟩⟩
  unfold countPages at h
  omega

variable (mem) in
/-- Every page is full, all free, or partial. -/
theorem countPages_total {n : Nat} (hn : 0 < n) (hle : ∀ p ∈ P, (mem.page p).freeNr ≤ n) :
    countPages mem P (fun nr => nr = n) + countPages mem P (fun nr => nr = 0) +
      countPages mem P (fun nr => 0 < nr ∧ nr < n) = P.card := by
  induction P using Finset.induction with
  | empty => simp [countPages]
  | insert p P hp ih =>
    have hp_le := hle p (Finset.mem_insert_self p P)
    have ih := ih fun q hq => hle q (Finset.mem_insert_of_mem hq)
    simp only [countPages_insert _ hp]
    rw [Finset.card_insert_of_notMem hp]
    split_ifs <;> omega

end countPages

/-- The pages of `P` are on their shelves, and the numbers of the slab manager agree;
of the pages that count as partial, `hand` are on no list. -/
structure Filed (mng : SlabManager) (mem : Memory) (P : Finset Nat) (hand : Int) : Prop where
  shelves : OnShelves mng.toSlabShape mem mng.pageHead P
  full_eq : mng.fullPagesNo = countPages mem P fun nr => nr = 0
  free_eq : mng.freePagesNo = countPages mem P fun nr => nr = mng.perSlab
  partial_eq : mng.partialPagesNo =
    countPages mem P (fun nr => 0 < nr ∧ nr < mng.perSlab) + hand
  marks : Marks mng.partialPages mng.partialPagesBucketNum mng.firstPartialPageIndex
    mng.partialBucketCount

namespace Filed

variable {mng : SlabManager} {mem mem' : Memory} {P : Finset Nat} {p : Nat} {hand : Int}

theorem congr (h : Filed mng mem P hand) (hpage : ∀ q ∈ P, mem.FiledAlike mem' q) :
    Filed mng mem' P hand := by
  have hnr : ∀ q ∈ P, (mem'.page q).freeNr = (mem.page q).freeNr :=
    fun q hq => (hpage q hq).freeNr_eq
  refine ⟨h.shelves.congr hpage, ?_, ?_, ?_, h.marks⟩
  · rw [countPages_congr hnr, h.full_eq]
  · rw [countPages_congr hnr, h.free_eq]
  · rw [countPages_congr hnr, h.partial_eq]

theorem pageHead_full : Function.update mng.pageHead .full p =
    SlabManager.pageHead { mng with fullPages := p } := by
  funext k
  cases k <;> simp [SlabManager.pageHead]

theorem pageHead_free : Function.update mng.pageHead .free p =
    SlabManager.pageHead { mng with freePages := p } := by
  funext k
  cases k <;> simp [SlabManager.pageHead]

theorem pageHead_bucket {b : Nat} : Function.update mng.pageHead (.bucket b) p =
    SlabManager.pageHead { mng with partialPages := Function.update mng.partialPages b p } := by
  funext k
  cases k <;> simp [SlabManager.pageHead, Function.update_apply]

end Filed

/-- `mng'` differs from `mng` in what it keeps about pages only. -/
structure SlabManager.SameItems (mng mng' : SlabManager) : Prop where
  shape_eq : mng'.toSlabShape = mng.toSlabShape
  itemHead_eq : mng'.itemHead = mng.itemHead
  itemTail_eq : mng'.itemTail = mng.itemTail
  itemCount_eq : mng'.itemCount = mng.itemCount
  evictIndex_eq : mng'.evictIndex = mng.evictIndex

theorem SlabManager.SameItems.refl {mng : SlabManager} : mng.SameItems mng :=
  ⟨rfl, rfl, rfl, rfl, rfl⟩

theorem SlabManager.SameItems.trans {mng mng' mng'' : SlabManager} (h : mng.SameItems mng')
    (h' : mng'.SameItems mng'') : mng.SameItems mng'' :=
  ⟨h'.shape_eq.trans h.shape_eq, h'.itemHead_eq.trans h.itemHead_eq,
    h'.itemTail_eq.trans h.itemTail_eq, h'.itemCount_eq.trans h.itemCount_eq,
    h'.evictIndex_eq.trans h.evictIndex_eq⟩

namespace Filed

variable {s : Slab} {P : Finset Nat} {p : Nat} {hand : Int}

/-- `link_partial_page` files the page in hand. -/
theorem linkPartialPage (h : Filed s.mng s.mem P 1) (hp : p ∉ P)
    (hP : Headed s.mem (insert p P)) (hpos : 0 < (s.mem.page p).freeNr)
    (hlt : (s.mem.page p).freeNr < s.mng.perSlab) :
    ∃ s', s.linkPartialPage p = some s' ∧ s.mem.Relinked s'.mem ∧
      s.mem.Outside (insert p P) s'.mem ∧ s.mng.SameItems s'.mng ∧
      Filed s'.mng s'.mem (insert p P) 0 := by
  obtain ⟨mem', hlink, hrel, hout, hshelves⟩ := h.shelves.link hp hP
  rw [SlabShape.shelfOf_partial hpos hlt] at hlink hshelves
  unfold Slab.linkPartialPage
  simp only [SlabManager.pageHead] at hlink
  simp only [hlink, Option.bind_eq_bind, Option.bind_some]
  have hP0 := hP.pos (Finset.mem_insert_self p P)
  refine ⟨_, rfl, hrel, hout, ⟨rfl, rfl, rfl, rfl, rfl⟩, ?_, ?_, ?_, ?_,
    h.marks.link (SlabShape.bucket_lt hlt) hP0.ne'⟩
  · exact pageHead_bucket ▸ hshelves
  · simp only
    rw [countPages_congr fun q _ => hrel.freeNr_eq q, countPages_insert _ hp, h.full_eq,
      if_neg hpos.ne', Int.add_zero]
  · simp only
    rw [countPages_congr fun q _ => hrel.freeNr_eq q, countPages_insert _ hp, h.free_eq,
      if_neg hlt.ne, Int.add_zero]
  · simp only
    rw [countPages_congr fun q _ => hrel.freeNr_eq q, countPages_insert _ hp, h.partial_eq]
    simp [hpos, hlt]

/-- `unlink_partial_page` takes a page into the hand. -/
theorem unlinkPartialPage (h : Filed s.mng s.mem P 0) (hp : p ∈ P) (hP : Headed s.mem P)
    (hpos : 0 < (s.mem.page p).freeNr) (hlt : (s.mem.page p).freeNr < s.mng.perSlab) :
    ∃ s', s.unlinkPartialPage p = some s' ∧ s.mem.Relinked s'.mem ∧
      s.mem.Outside P s'.mem ∧ s.mng.SameItems s'.mng ∧
      Filed s'.mng s'.mem (P.erase p) 1 := by
  have hhead := h.shelves.head_ne_zero hp
  obtain ⟨mem', v, hunlink, hrel, hout, hshelves⟩ := h.shelves.unlink hp hP
  rw [SlabShape.shelfOf_partial hpos hlt] at hhead hunlink hshelves
  unfold Slab.unlinkPartialPage
  simp only [SlabManager.pageHead] at hhead hunlink
  simp only [hunlink, Option.bind_eq_bind, Option.bind_some]
  refine ⟨_, rfl, hrel, hout, ⟨rfl, rfl, rfl, rfl, rfl⟩, ?_, ?_, ?_, ?_,
    h.marks.unlink (SlabShape.bucket_lt hlt) hhead⟩
  · exact pageHead_bucket ▸ hshelves
  · simp only
    rw [countPages_congr fun q _ => hrel.freeNr_eq q, countPages_erase hp, h.full_eq,
      if_neg hpos.ne', Int.sub_zero]
  · simp only
    rw [countPages_congr fun q _ => hrel.freeNr_eq q, countPages_erase hp, h.free_eq,
      if_neg hlt.ne, Int.sub_zero]
  · simp only
    rw [countPages_congr fun q _ => hrel.freeNr_eq q, countPages_erase hp, h.partial_eq]
    simp [hpos, hlt]

/-- A page in hand that is full is filed. -/
theorem linkFull (h : Filed s.mng s.mem P 1) (hp : p ∉ P) (hP : Headed s.mem (insert p P))
    (hnr : (s.mem.page p).freeNr = 0) :
    ∃ mem', linkPage s.mem p s.mng.fullPages = some (mem', p) ∧ s.mem.Relinked mem' ∧
      s.mem.Outside (insert p P) mem' ∧
      Filed
        { s.mng with
          fullPages := p
          fullPagesNo := s.mng.fullPagesNo + 1
          partialPagesNo := s.mng.partialPagesNo - 1 }
        mem' (insert p P) 0 := by
  obtain ⟨mem', hlink, hrel, hout, hshelves⟩ := h.shelves.link hp hP
  rw [hnr, SlabShape.shelfOf_zero] at hlink hshelves
  have hper := s.mng.perSlab_pos
  refine ⟨mem', hlink, hrel, hout, pageHead_full ▸ hshelves, ?_, ?_, ?_, h.marks⟩ <;> simp only <;>
    rw [countPages_congr fun q _ => hrel.freeNr_eq q, countPages_insert _ hp]
  · simp [hnr, h.full_eq]
  · simp [hnr, h.free_eq, hper.ne]
  · simp [hnr, h.partial_eq]

/-- A page in hand that is all free is filed. -/
theorem linkFree (h : Filed s.mng s.mem P hand) (hp : p ∉ P) (hP : Headed s.mem (insert p P))
    (hnr : (s.mem.page p).freeNr = s.mng.perSlab) :
    ∃ mem', linkPage s.mem p s.mng.freePages = some (mem', p) ∧ s.mem.Relinked mem' ∧
      s.mem.Outside (insert p P) mem' ∧
      Filed
        { s.mng with
          partialPagesNo := s.mng.partialPagesNo - hand
          freePages := p
          freePagesNo := s.mng.freePagesNo + 1 }
        mem' (insert p P) 0 := by
  obtain ⟨mem', hlink, hrel, hout, hshelves⟩ := h.shelves.link hp hP
  rw [hnr, SlabShape.shelfOf_perSlab] at hlink hshelves
  have hper := s.mng.perSlab_pos
  refine ⟨mem', hlink, hrel, hout, pageHead_free ▸ hshelves, ?_, ?_, ?_, h.marks⟩ <;> simp only <;>
    rw [countPages_congr fun q _ => hrel.freeNr_eq q, countPages_insert _ hp]
  · simp [hnr, h.full_eq, hper.ne']
  · simp [hnr, h.free_eq]
  · simp [hnr, h.partial_eq]

/-- A full page is taken into the hand. -/
theorem unlinkFull (h : Filed s.mng s.mem P 0) (hp : p ∈ P) (hP : Headed s.mem P)
    (hnr : (s.mem.page p).freeNr = 0) :
    ∃ mem' v, unlinkPage s.mem p s.mng.fullPages = some (mem', v) ∧ s.mem.Relinked mem' ∧
      s.mem.Outside P mem' ∧
      Filed
        { s.mng with
          fullPages := v
          fullPagesNo := s.mng.fullPagesNo - 1
          partialPagesNo := s.mng.partialPagesNo + 1 }
        mem' (P.erase p) 1 := by
  obtain ⟨mem', v, hunlink, hrel, hout, hshelves⟩ := h.shelves.unlink hp hP
  rw [hnr, SlabShape.shelfOf_zero] at hunlink hshelves
  have hper := s.mng.perSlab_pos
  refine ⟨mem', v, hunlink, hrel, hout, pageHead_full ▸ hshelves, ?_, ?_, ?_, h.marks⟩ <;>
    simp only <;> rw [countPages_congr fun q _ => hrel.freeNr_eq q, countPages_erase hp]
  · simp [hnr, h.full_eq]
  · simp [hnr, h.free_eq, hper.ne]
  · simp [hnr, h.partial_eq]

/-- A free page is taken into the hand. -/
theorem unlinkFree (h : Filed s.mng s.mem P 0) (hp : p ∈ P) (hP : Headed s.mem P)
    (hnr : (s.mem.page p).freeNr = s.mng.perSlab) :
    ∃ mem' v, unlinkPage s.mem p s.mng.freePages = some (mem', v) ∧ s.mem.Relinked mem' ∧
      s.mem.Outside P mem' ∧
      Filed
        { s.mng with
          freePages := v
          freePagesNo := s.mng.freePagesNo - 1
          partialPagesNo := s.mng.partialPagesNo + 1 }
        mem' (P.erase p) 1 := by
  obtain ⟨mem', v, hunlink, hrel, hout, hshelves⟩ := h.shelves.unlink hp hP
  rw [hnr, SlabShape.shelfOf_perSlab] at hunlink hshelves
  have hper := s.mng.perSlab_pos
  refine ⟨mem', v, hunlink, hrel, hout, pageHead_free ▸ hshelves, ?_, ?_, ?_, h.marks⟩ <;>
    simp only <;> rw [countPages_congr fun q _ => hrel.freeNr_eq q, countPages_erase hp]
  · simp [hnr, h.full_eq, hper.ne']
  · simp [hnr, h.free_eq]
  · simp [hnr, h.partial_eq]

/-- A page at the head of a bucket is partial. -/
theorem bucket_page (h : Filed s.mng s.mem P 0)
    (hle : ∀ p ∈ P, (s.mem.page p).freeNr ≤ s.mng.perSlab) {b : Nat}
    (hb : s.mng.partialPages b ≠ 0) :
    s.mng.partialPages b ∈ P ∧ 0 < (s.mem.page (s.mng.partialPages b)).freeNr ∧
      (s.mem.page (s.mng.partialPages b)).freeNr < s.mng.perSlab := by
  obtain ⟨hmem, hshelf⟩ := h.shelves.head_mem (k := .bucket b) hb
  have hpage : s.mng.pageHead (.bucket b) = s.mng.partialPages b := rfl
  rw [hpage] at hmem hshelf
  refine ⟨hmem, ?_, ?_⟩
  · apply Nat.pos_of_ne_zero
    intro hzero
    rw [hzero, SlabShape.shelfOf_zero] at hshelf
    exact Shelf.noConfusion hshelf
  · apply lt_of_le_of_ne (hle _ hmem)
    intro heq
    rw [heq, SlabShape.shelfOf_perSlab] at hshelf
    exact Shelf.noConfusion hshelf

/-- There is a partial page in some bucket if there is any. -/
theorem exists_bucket (h : Filed s.mng s.mem P 0) (hpos : 0 < s.mng.partialPagesNo) :
    ∃ b < s.mng.partialPagesBucketNum, s.mng.partialPages b ≠ 0 := by
  rw [h.partial_eq, Int.add_zero] at hpos
  obtain ⟨p, hp, hnr_pos, hnr_lt⟩ := countPages_pos hpos
  have hbucket := h.shelves.head_ne_zero hp
  rw [SlabShape.shelfOf_partial hnr_pos hnr_lt] at hbucket
  exact ⟨_, SlabShape.bucket_lt hnr_lt, hbucket⟩

/-- There is a partial page at `first_partial_page_index` if there is any. -/
theorem partial_page (h : Filed s.mng s.mem P 0)
    (hle : ∀ p ∈ P, (s.mem.page p).freeNr ≤ s.mng.perSlab) (hpos : 0 < s.mng.partialPagesNo) :
    Slab.getPartialPageId s.mng ∈ P ∧
      0 < (s.mem.page (Slab.getPartialPageId s.mng)).freeNr ∧
      (s.mem.page (Slab.getPartialPageId s.mng)).freeNr < s.mng.perSlab := by
  obtain ⟨b, hb, hbucket⟩ := h.exists_bucket hpos
  obtain ⟨hfirst, -⟩ := h.marks.least b hb hbucket
  exact h.bucket_page hle hfirst

/-- The first of the full pages is full, if there is any. -/
theorem full_page (h : Filed s.mng s.mem P 0)
    (hle : ∀ p ∈ P, (s.mem.page p).freeNr ≤ s.mng.perSlab) (hpos : 0 < s.mng.fullPagesNo) :
    s.mng.fullPages ∈ P ∧ (s.mem.page s.mng.fullPages).freeNr = 0 := by
  rw [h.full_eq] at hpos
  obtain ⟨p, hp, hnr⟩ := countPages_pos hpos
  have hhead := h.shelves.head_ne_zero hp
  rw [hnr, SlabShape.shelfOf_zero] at hhead
  obtain ⟨hmem, hshelf⟩ := h.shelves.head_mem hhead
  refine ⟨hmem, ?_⟩
  have hnr_le : (s.mem.page s.mng.fullPages).freeNr ≤ s.mng.perSlab := hle _ hmem
  change s.mng.shelfOf (s.mem.page s.mng.fullPages).freeNr = .full at hshelf
  rcases Nat.eq_zero_or_pos (s.mem.page s.mng.fullPages).freeNr with hzero | hpos
  · exact hzero
  · rcases Nat.lt_or_eq_of_le hnr_le with hlt | heq
    · exact absurd (SlabShape.shelfOf_partial hpos hlt ▸ hshelf) Shelf.noConfusion
    · rw [heq, SlabShape.shelfOf_perSlab] at hshelf
      exact Shelf.noConfusion hshelf

/-- The first of the free pages is all free, if there is any. -/
theorem free_page (h : Filed s.mng s.mem P 0)
    (hle : ∀ p ∈ P, (s.mem.page p).freeNr ≤ s.mng.perSlab) (hpos : 0 < s.mng.freePagesNo) :
    s.mng.freePages ∈ P ∧ (s.mem.page s.mng.freePages).freeNr = s.mng.perSlab := by
  rw [h.free_eq] at hpos
  obtain ⟨p, hp, hnr⟩ := countPages_pos hpos
  have hhead := h.shelves.head_ne_zero hp
  rw [hnr, SlabShape.shelfOf_perSlab] at hhead
  obtain ⟨hmem, hshelf⟩ := h.shelves.head_mem hhead
  refine ⟨hmem, ?_⟩
  have hnr_le := hle _ hmem
  change s.mng.shelfOf (s.mem.page s.mng.freePages).freeNr = .free at hshelf
  rcases Nat.eq_zero_or_pos (s.mem.page s.mng.freePages).freeNr with hzero | hpos
  · rw [hzero, SlabShape.shelfOf_zero] at hshelf
    exact Shelf.noConfusion hshelf
  · rcases Nat.lt_or_eq_of_le hnr_le with hlt | heq
    · exact absurd (SlabShape.shelfOf_partial hpos hlt ▸ hshelf) Shelf.noConfusion
    · exact heq

end Filed

end Mdb
