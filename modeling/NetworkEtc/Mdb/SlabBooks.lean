-- SUMMARY: Taking an item of a slab and giving one back keep its page books.
import NetworkEtc.Mdb.ItemLists

/-!
# The books of a slab

`Books` is what holds of a slab manager between calls: the pool is sound, every page the
slab owns has its stock, and all of them are filed. `alloc_new_item` and `free_item`
keep it, whatever the lists of items in use look like.
-/

namespace Mdb

open Library

/-- What holds of the pages `owned` by a slab, page `p` having the free items `free p`. -/
structure Books (s : Slab) (owned : Finset Nat) (free : Nat → List ItemId) : Prop where
  pool : s.mem.pool.Sound
  stock : ∀ p ∈ owned, Stock s.mng.toSlabShape s.mem p (free p)
  filed : Filed s.mng s.mem owned 0

theorem headed_of_stock {g : SlabShape} {mem : Memory} {owned : Finset Nat}
    {free : Nat → List ItemId} (h : ∀ p ∈ owned, Stock g mem p (free p)) : Headed mem owned :=
  ⟨fun p hp => (h p hp).indexOk, fun p hp => (h p hp).id_eq⟩

namespace Books

variable {s s' : Slab} {owned : Finset Nat} {free : Nat → List ItemId} {p : Nat} {x : ItemId}
  {l : List ItemId}

theorem headed (h : Books s owned free) : Headed s.mem owned := headed_of_stock h.stock

theorem freeNr_le (h : Books s owned free) :
    ∀ p ∈ owned, (s.mem.page p).freeNr ≤ s.mng.perSlab := by
  intro p hp
  rw [(h.stock p hp).freeNr_eq]
  exact (h.stock p hp).length_le

/-- The lists of items do not matter. -/
theorem relink (h : Books s owned free) (hrel : s.mem.ItemsRelinked s'.mem)
    (hsame : s.mng.SamePages s'.mng) : Books s' owned free := by
  refine ⟨hrel.pool_eq ▸ h.pool, fun p hp => ?_, ?_⟩
  · rw [hsame.shape_eq]
    exact (h.stock p hp).itemsRelinked hrel
  · exact (h.filed.congr fun q _ => .of_eq (by rw [hrel.page_eq])).samePages hsame

end Books

/-! # `alloc_new_item` -/

/-- From `s` a page `p` has been taken in hand, with `s'` left; its free items are
`x :: l`. -/
structure Took (s s' : Slab) (owned : Finset Nat) (free : Nat → List ItemId) (p : Nat)
    (x : ItemId) (l : List ItemId) : Prop where
  pool : s'.mem.pool.Sound
  total : s'.mem.pool.totalPages = s.mem.pool.totalPages
  bitmap : s'.mem.pool.pageBitmap = Function.update s.mem.pool.pageBitmap p true
  fresh : p ∉ owned → s.mem.pool.pageBitmap p = false
  others : ∀ q ∈ owned, q ≠ p → Stock s.mng.toSlabShape s'.mem q (free q)
  stock : Stock s.mng.toSlabShape s'.mem p (x :: l)
  old : p ∈ owned → free p = x :: l
  new : p ∉ owned → x :: l = s.mng.places p
  filed : Filed s'.mng s'.mem (owned.erase p) 1
  same : s.mng.SameItems s'.mng
  outside : s.mem.Outside (insert p owned) s'.mem
  items : ∀ a : Addr, a.1 ∈ owned → s'.mem.item a = s.mem.item a
  unlinked : p ∉ owned → ∀ a : Addr, a.1 = p →
    (s'.mem.item a).prev = 0 ∧ (s'.mem.item a).next = 0

/-- The first part of `alloc_new_item`. -/
theorem Books.takePage {s : Slab} {owned : Finset Nat} {free : Nat → List ItemId}
    (h : Books s owned free) :
    (s.takePage = some (none, s) ∧ ∀ p ∈ owned, free p = []) ∨
    ∃ p x l s', s.takePage = some (some (p, x), s') ∧ Took s s' owned free p x l := by
  have hstock := h.stock
  have hselect : ∀ p ∈ owned, 0 < (s.mem.page p).freeNr →
      ∃ l, free p = (s.mem.page p).freeHead :: l := by
    intro p hp hpos
    cases hl : free p with
    | nil =>
      rw [(hstock p hp).freeNr_eq, hl] at hpos
      exact absurd hpos (Nat.lt_irrefl 0)
    | cons x l =>
      have hst := hstock p hp
      rw [hl] at hst
      exact ⟨l, by rw [hst.freeHead_cons]⟩
  have hbit : ∀ p ∈ owned,
      s.mem.pool.pageBitmap = Function.update s.mem.pool.pageBitmap p true := by
    intro p hp
    rw [Function.update_eq_self_iff.mpr (hstock p hp).used.symm]
  -- a page of the slab that has come off its list
  have htook : ∀ p ∈ owned, ∀ l, free p = (s.mem.page p).freeHead :: l →
      ∀ s' : Slab, s.mem.Relinked s'.mem → s.mem.Outside owned s'.mem →
      s.mng.SameItems s'.mng → Filed s'.mng s'.mem (owned.erase p) 1 →
      Took s s' owned free p (s.mem.page p).freeHead l := by
    intro p hp l hl s' hrel hout hsame hfiled
    refine ⟨hrel.pool_eq ▸ h.pool, by rw [hrel.pool_eq], ?_, fun hn => absurd hp hn,
      fun q hq _ => (hstock q hq).relinked hrel, hl ▸ (hstock p hp).relinked hrel,
      fun _ => hl, fun hn => absurd hp hn, hfiled, hsame,
      hout.mono (Finset.subset_insert p owned), fun a _ => by rw [hrel.item_eq],
      fun hn => absurd hp hn⟩
    rw [hrel.pool_eq]
    exact hbit p hp
  unfold Slab.takePage
  by_cases hpartial : 0 < s.mng.partialPagesNo
  · -- from a partial page
    right
    obtain ⟨hp, hpos, hlt⟩ := h.filed.partial_page h.freeNr_le hpartial
    obtain ⟨s', hunlink, hrel, hout, hsame, hfiled⟩ :=
      h.filed.unlinkPartialPage hp h.headed hpos hlt
    obtain ⟨l, hl⟩ := hselect _ hp hpos
    have hhead : (s.mem.page (Slab.getPartialPageId s.mng)).freeHead ≠ 0 := by
      rw [Ne, (hstock _ hp).freeHead_eq_zero]
      exact hpos.ne'
    rw [if_pos hpartial]
    simp only
    rw [if_pos ⟨h.headed.indexOk _ hp, hpos, hhead, hlt.le⟩, hunlink]
    exact ⟨_, _, l, s', rfl, htook _ hp l hl s' hrel hout hsame hfiled⟩
  · rw [if_neg hpartial]
    by_cases hfree : 0 < s.mng.freePagesNo
    · -- from a free page
      right
      obtain ⟨hp, hnr⟩ := h.filed.free_page h.freeNr_le hfree
      obtain ⟨mem', v, hunlink, hrel, hout, hfiled⟩ := h.filed.unlinkFree hp h.headed hnr
      have hpos : 0 < (s.mem.page s.mng.freePages).freeNr := hnr ▸ s.mng.perSlab_pos
      obtain ⟨l, hl⟩ := hselect _ hp hpos
      have hhead : (s.mem.page s.mng.freePages).freeHead ≠ 0 := by
        rw [Ne, (hstock _ hp).freeHead_eq_zero]
        exact hpos.ne'
      rw [if_pos hfree]
      simp only
      rw [if_pos ⟨h.headed.indexOk _ hp, hnr, hhead⟩, hunlink]
      exact ⟨_, _, l, _, rfl, htook _ hp l hl _ hrel hout ⟨rfl, rfl, rfl, rfl, rfl⟩ hfiled⟩
    · rw [if_neg hfree]
      rcases h.pool.allocPage with ⟨halloc, -⟩ | ⟨index, pool', halloc, hsound, htotal, hpos, hlt,
        hclear, hbitmap⟩
      · -- no page is left
        left
        rw [halloc]
        refine ⟨rfl, fun p hp => ?_⟩
        have hnot_partial := not_of_countPages s.mem (P := owned)
          (Q := fun nr => 0 < nr ∧ nr < s.mng.perSlab)
          (by have heq := h.filed.partial_eq; omega) p hp
        have hnot_free := not_of_countPages s.mem (P := owned)
          (Q := fun nr => nr = s.mng.perSlab) (by have heq := h.filed.free_eq; omega) p hp
        have hle := h.freeNr_le p hp
        have hzero : (s.mem.page p).freeNr = 0 := by omega
        rw [(hstock p hp).freeNr_eq] at hzero
        exact List.length_eq_zero_iff.mp hzero
      · -- a new page
        right
        have hnew : index ∉ owned := by
          intro hmem
          rw [(hstock index hmem).used] at hclear
          exact Bool.noConfusion hclear
        have hne : ∀ q ∈ owned, q ≠ index := by
          rintro q hq rfl
          exact hnew hq
        let mem₁ : Memory := { s.mem with pool := pool' }
        let mem' := s.mng.initPage mem₁ index
        have hst : Stock s.mng.toSlabShape mem' index (s.mng.places index) := by
          apply Stock.initPage
          · rw [MemPool.indexOk_iff]
            exact ⟨hpos, htotal ▸ hlt⟩
          · change pool'.pageBitmap index = true
            rw [hbitmap, Function.update_self]
        obtain ⟨x, l, hl⟩ : ∃ x l, s.mng.places index = x :: l := by
          apply List.exists_cons_of_length_pos
          rw [SlabShape.length_places]
          exact s.mng.perSlab_pos
        have hx : (mem'.page index).freeHead = x := Stock.freeHead_cons (hl ▸ hst)
        have hout : mem₁.Outside {index} mem' :=
          SlabShape.outside_initPage (Finset.mem_singleton_self index)
        have hout_iff : ∀ q ∈ owned, q ∉ ({index} : Finset Nat) := by
          intro q hq
          rw [Finset.mem_singleton]
          exact hne q hq
        rw [halloc]
        refine ⟨index, x, l, ⟨mem', { s.mng with partialPagesNo := s.mng.partialPagesNo + 1 }⟩,
          ?_, hsound, htotal, hbitmap, fun _ => hclear, fun q hq _ => ?_, hl ▸ hst,
          fun hmem => absurd hmem hnew, fun _ => hl.symm, ?_, ⟨rfl, rfl, rfl, rfl, rfl⟩, ?_,
          fun a ha => hout.item_eq a (hout_iff a.1 ha),
          fun _ a ha => SlabShape.links_initPage ha⟩
        · simp only [Option.bind_eq_bind, Option.bind_some]
          rw [← hx]
        · refine (hstock q hq).outside (S := {index}) ⟨fun r hr => ?_, fun a ha => ?_⟩
            (hout_iff q hq) htotal ?_
          · exact hout.page_eq r hr
          · exact hout.item_eq a ha
          · change pool'.pageBitmap q = _
            rw [hbitmap, Function.update_of_ne (hne q hq)]
        · rw [Finset.erase_eq_of_notMem hnew]
          have hfiled : Filed s.mng mem' owned 0 :=
            h.filed.congr fun q hq => .of_eq (hout.page_eq q (hout_iff q hq))
          refine ⟨hfiled.shelves, hfiled.full_eq, hfiled.free_eq, ?_, hfiled.marks⟩
          simp only
          rw [hfiled.partial_eq, Int.add_zero]
        · refine ⟨fun q hq => ?_, fun a ha => ?_⟩
          · rw [Finset.mem_insert, not_or] at hq
            exact hout.page_eq q (by rw [Finset.mem_singleton]; exact hq.1)
          · rw [Finset.mem_insert, not_or] at ha
            exact hout.item_eq a (by rw [Finset.mem_singleton]; exact ha.1)

/-- From `s` the free item `x` of the page `p` has been taken, with `s'` left; the free
items of the page are now `l`. -/
structure Charged (s s' : Slab) (owned : Finset Nat) (free : Nat → List ItemId) (p : Nat)
    (x : ItemId) (l : List ItemId) : Prop where
  books : Books s' (insert p owned) (Function.update free p l)
  total : s'.mem.pool.totalPages = s.mem.pool.totalPages
  bitmap : s'.mem.pool.pageBitmap = Function.update s.mem.pool.pageBitmap p true
  fresh : p ∉ owned → s.mem.pool.pageBitmap p = false
  old : p ∈ owned → free p = x :: l
  new : p ∉ owned → x :: l = s.mng.places p
  place : s.mng.IsPlace p x
  notMem : x ∉ l
  item_id : (s'.mem.item x.addr).itemId = x
  same : s.mng.SameItems s'.mng
  outside : s.mem.Outside (insert p owned) s'.mem
  items : ∀ a : Addr, a.1 ∈ owned → s'.mem.item a = s.mem.item a
  unlinked : p ∉ owned → ∀ a : Addr, a.1 = p →
    (s'.mem.item a).prev = 0 ∧ (s'.mem.item a).next = 0

namespace Took

variable {s s' s₂ : Slab} {owned : Finset Nat} {free : Nat → List ItemId} {p : Nat} {x : ItemId}
  {l : List ItemId}

theorem insert_erase : insert p (owned.erase p) = insert p owned := by
  apply Finset.ext
  intro q
  rcases eq_or_ne q p with rfl | hq
  · simp
  · simp [hq]

theorem headed (h : Took s s' owned free p x l) : Headed s'.mem (insert p (owned.erase p)) := by
  rw [insert_erase]
  refine ⟨fun q hq => ?_, fun q hq => ?_⟩
  · rcases eq_or_ne q p with rfl | hne
    · exact h.stock.indexOk
    · exact (h.others q (Finset.mem_of_mem_insert_of_ne hq hne) hne).indexOk
  · rcases eq_or_ne q p with rfl | hne
    · exact h.stock.id_eq
    · exact (h.others q (Finset.mem_of_mem_insert_of_ne hq hne) hne).id_eq

/-- The page has been filed with one free item less: the books are in order once its
free list has been moved on. -/
theorem charged (h : Took s s' owned free p x l) (hpool : s₂.mem.pool = s'.mem.pool)
    (hitem : s₂.mem.item = s'.mem.item) (hid : ∀ q, (s₂.mem.page q).id = (s'.mem.page q).id)
    (hnr : (s₂.mem.page p).freeNr = (s'.mem.page p).freeNr - 1)
    (hother : ∀ q, q ≠ p → (s₂.mem.page q).freeNr = (s'.mem.page q).freeNr ∧
      (s₂.mem.page q).freeHead = (s'.mem.page q).freeHead)
    (hfiled : Filed s₂.mng s₂.mem (insert p owned) 0) (hsame : s'.mng.SameItems s₂.mng)
    (hout : s'.mem.Outside (insert p owned) s₂.mem) :
    Charged s
      { s₂ with
        mem := s₂.mem.setPage p fun info =>
          { info with freeHead := (s₂.mem.item x.addr).hNext } }
      owned free p x l := by
  have hshape : s₂.mng.toSlabShape = s.mng.toSlabShape := (h.same.trans hsame).shape_eq
  refine ⟨⟨hpool ▸ h.pool, fun q hq => ?_, ?_⟩, hpool ▸ h.total, hpool ▸ h.bitmap, h.fresh,
    h.old, h.new, h.stock.place x (List.mem_cons_self ..), (List.nodup_cons.mp h.stock.nodup).1,
    ?_, h.same.trans hsame, ?_, fun a ha => ?_, fun hn a ha => ?_⟩
  · simp only [hshape]
    rcases eq_or_ne q p with rfl | hne
    · rw [Function.update_self]
      apply h.stock.pop
      · simp [hpool]
      · simp [hitem]
      · simp [hid]
      · simp [hnr]
      · simp [hitem]
    · rw [Function.update_of_ne hne]
      have hq' := Finset.mem_of_mem_insert_of_ne hq hne
      apply (h.others q hq' hne).congr <;>
        simp [Memory.page_setPage_ne hne, hpool, hitem, hid, hother q hne]
  · apply hfiled.congr
    intro q _
    rcases eq_or_ne q p with rfl | hne
    · constructor <;> simp
    · apply Memory.FiledAlike.of_eq
      dsimp only
      exact Memory.page_setPage_ne hne
  · simp only [Memory.item_setPage, hitem]
    exact h.stock.free_id x (List.mem_cons_self ..)
  · apply (h.outside.trans hout).trans
    dsimp only
    exact Memory.outside_setPage (Finset.mem_insert_self p owned)
  · simp only [Memory.item_setPage, hitem]
    exact h.items a ha
  · simp only [Memory.item_setPage, hitem]
    exact h.unlinked hn a ha

/-- The second part of `alloc_new_item`. -/
theorem chargePage (h : Took s s' owned free p x l) :
    ∃ s₂, s'.chargePage p = some s₂ ∧
      Charged s
        { s₂ with
          mem := s₂.mem.setPage p fun info =>
            { info with freeHead := (s₂.mem.item x.addr).hNext } }
        owned free p x l := by
  unfold Slab.chargePage
  generalize hmem : (s'.mem.setPage p fun info => { info with freeNr := info.freeNr - 1 }) = mem
  have hnr : (mem.page p).freeNr = (s'.mem.page p).freeNr - 1 := by simp [← hmem]
  have hne : ∀ q, q ≠ p → mem.page q = s'.mem.page q := by
    intro q hq
    rw [← hmem, Memory.page_setPage_ne hq]
  have hid : ∀ q, (mem.page q).id = (s'.mem.page q).id := by
    intro q
    rcases eq_or_ne q p with rfl | hq
    · simp [← hmem]
    · rw [hne q hq]
  have hpool : mem.pool = s'.mem.pool := by simp [← hmem]
  have hitem : mem.item = s'.mem.item := by simp [← hmem]
  have hfiled : Filed s'.mng mem (owned.erase p) 1 :=
    h.filed.congr fun q hq => .of_eq (hne q (Finset.ne_of_mem_erase hq))
  have hheaded : Headed mem (insert p (owned.erase p)) := by
    refine ⟨fun q hq => ?_, fun q hq => ?_⟩
    · rw [hpool]
      exact h.headed.indexOk q hq
    · rw [hid]
      exact h.headed.id_eq q hq
  have hout : s'.mem.Outside (insert p owned) mem := by
    rw [← hmem]
    exact Memory.outside_setPage (Finset.mem_insert_self p owned)
  have hlen : (s'.mem.page p).freeNr = l.length + 1 := h.stock.freeNr_eq
  have hle : l.length + 1 ≤ s.mng.perSlab := h.stock.length_le
  simp only
  split
  · next hzero =>
    -- the page is full now
    obtain ⟨mem', hlink, hrel, hout', hfiled'⟩ :=
      Filed.linkFull (s := ⟨mem, s'.mng⟩) hfiled (Finset.notMem_erase p owned) hheaded hzero
    rw [insert_erase] at hfiled' hout'
    simp only at hlink
    simp only [hlink, Option.bind_eq_bind, Option.bind_some]
    refine ⟨_, rfl, h.charged ?_ ?_ (fun q => ?_) ?_ (fun q hq => ?_) ?_ ⟨rfl, rfl, rfl, rfl, rfl⟩
      ?_⟩
    · rw [Memory.pool_setPage, hrel.pool_eq, hpool]
    · rw [Memory.item_setPage, hrel.item_eq, hitem]
    · rw [← hid q, ← hrel.id_eq q, Memory.page_setPage]
      split_ifs <;> simp_all
    · rw [Memory.page_setPage_self, ← hnr]
      exact hrel.freeNr_eq p
    · rw [Memory.page_setPage_ne hq, hrel.freeNr_eq, hrel.freeHead_eq, hne q hq]
      exact ⟨rfl, rfl⟩
    · apply hfiled'.congr
      intro q _
      rcases eq_or_ne q p with rfl | hq
      · constructor <;> simp
      · apply Memory.FiledAlike.of_eq
        dsimp only
        exact Memory.page_setPage_ne hq
    · apply (hout.trans hout').trans
      dsimp only
      exact Memory.outside_setPage (Finset.mem_insert_self p owned)
  · next hzero =>
    -- the page is partial now
    obtain ⟨s₂, hlink, hrel, hout', hsame, hfiled'⟩ :=
      Filed.linkPartialPage (s := ⟨mem, s'.mng⟩) hfiled (Finset.notMem_erase p owned) hheaded
        (Nat.pos_of_ne_zero hzero) (by simp only [h.same.shape_eq]; omega)
    rw [insert_erase] at hfiled' hout'
    refine ⟨s₂, hlink, h.charged ?_ ?_ (fun q => ?_) ?_ (fun q hq => ?_) hfiled' hsame
      (hout.trans hout')⟩
    · rw [hrel.pool_eq, hpool]
    · rw [hrel.item_eq, hitem]
    · rw [hrel.id_eq, hid]
    · rw [hrel.freeNr_eq, hnr]
    · rw [hrel.freeNr_eq, hrel.freeHead_eq, hne q hq]
      exact ⟨rfl, rfl⟩

end Took

/-- `alloc_new_item` takes a free item and links it, or there is none. -/
theorem Books.allocNewItem {s : Slab} {owned : Finset Nat} {free : Nat → List ItemId} {area : Nat}
    (h : Books s owned free) (harea : area < TAIR_MAX_AREA_COUNT) :
    (s.allocNewItem area = some (none, s) ∧ ∀ p ∈ owned, free p = []) ∨
    ∃ p x l s₁ s₂, Charged s s₁ owned free p x l ∧ s₁.linkItem x.addr area = some s₂ ∧
      s.allocNewItem area = some (some x.addr, s₂) := by
  unfold Slab.allocNewItem
  rcases h.takePage with ⟨htake, hnone⟩ | ⟨p, x, l, s', htake, htook⟩
  · left
    rw [htake]
    exact ⟨rfl, hnone⟩
  · right
    obtain ⟨s₂, hcharge, hcharged⟩ := htook.chargePage
    have hid := hcharged.item_id
    have hx0 : x ≠ 0 := hcharged.place.ne_zero
    obtain ⟨s₃, hlink, hrel, -⟩ := linkItem_spec (by rw [hid]; exact hx0) harea
    refine ⟨p, x, l, _, s₃, hcharged, hlink, ?_⟩
    rw [htake]
    simp only [Option.bind_eq_bind, Option.bind_some, hcharge]
    rw [if_neg hx0, hlink]
    simp only [Option.bind_some]
    have hst := hcharged.books.stock p (Finset.mem_insert_self p owned)
    rw [if_pos]
    refine ⟨?_, ?_⟩
    · rw [hrel.itemId_eq, hid]
    · rw [hrel.page_eq]
      exact hst.freeHead_eq_zero.symm

/-! # `free_item` -/

/-- The first part of `free_item` that is about pages. -/
theorem Books.unfilePage {s : Slab} {owned : Finset Nat} {free : Nat → List ItemId} {p : Nat}
    (h : Books s owned free) (hp : p ∈ owned) (hlt : (free p).length < s.mng.perSlab) :
    ∃ s', s.unfilePage p = some s' ∧ s.mem.Relinked s'.mem ∧ s.mem.Outside owned s'.mem ∧
      s.mng.SameItems s'.mng ∧ Filed s'.mng s'.mem (owned.erase p) 1 := by
  have hst := h.stock p hp
  unfold Slab.unfilePage
  simp only
  rw [if_pos hst.indexOk]
  by_cases hzero : (s.mem.page p).freeNr = 0
  · obtain ⟨mem', v, hunlink, hrel, hout, hfiled⟩ := h.filed.unlinkFull hp h.headed hzero
    rw [if_pos hzero, hunlink]
    exact ⟨_, rfl, hrel, hout, ⟨rfl, rfl, rfl, rfl, rfl⟩, hfiled⟩
  · have hhead : (s.mem.page p).freeHead ≠ 0 := by
      rw [Ne, hst.freeHead_eq_zero]
      exact hzero
    rw [if_neg hzero, if_neg hhead]
    exact h.filed.unlinkPartialPage hp h.headed (Nat.pos_of_ne_zero hzero)
      (by rw [hst.freeNr_eq]; exact hlt)

/-- The last part: the page goes back on a list, or to the pool if the slab has two
others. -/
theorem refilePage_spec {s : Slab} {owned : Finset Nat} {p : Nat} (hp : p ∈ owned)
    (hfiled : Filed s.mng s.mem (owned.erase p) 1) (hheaded : Headed s.mem owned)
    (hpool : s.mem.pool.Sound) (hused : s.mem.pool.pageBitmap p = true)
    (hpos : 0 < (s.mem.page p).freeNr)
    (hle : ∀ q ∈ owned, (s.mem.page q).freeNr ≤ s.mng.perSlab) :
    ∃ s', s.refilePage p = some s' ∧ s.mng.SameItems s'.mng ∧
      ((s.mem.Relinked s'.mem ∧ s.mem.Outside owned s'.mem ∧ Filed s'.mng s'.mem owned 0 ∧
        ((s.mem.page p).freeNr = s.mng.perSlab → owned.card ≤ 2)) ∨
      (s'.mem.item = s.mem.item ∧ s'.mem.page = s.mem.page ∧ s'.mem.pool.Sound ∧
        s'.mem.pool.totalPages = s.mem.pool.totalPages ∧
        s'.mem.pool.pageBitmap = Function.update s.mem.pool.pageBitmap p false ∧
        (s.mem.page p).freeNr = s.mng.perSlab ∧ 2 ≤ (owned.erase p).card ∧
        Filed s'.mng s'.mem (owned.erase p) 0)) := by
  have hheaded' : Headed s.mem (insert p (owned.erase p)) := by
    rw [Finset.insert_erase hp]
    exact hheaded
  unfold Slab.refilePage
  by_cases hfull : (s.mem.page p).freeNr = s.mng.perSlab
  · rw [if_pos hfull]
    have htotal_pages := countPages_total s.mem (P := owned.erase p) s.mng.perSlab_pos
      fun q hq => hle q (Finset.mem_of_mem_erase hq)
    simp only
    split
    · next hfew =>
      obtain ⟨mem', hlink, hrel, hout, hfiled'⟩ :=
        hfiled.linkFree (Finset.notMem_erase p owned) hheaded' hfull
      rw [Finset.insert_erase hp] at hout hfiled'
      rw [hfiled.free_eq, hfiled.full_eq, hfiled.partial_eq] at hfew
      have hcard := Finset.card_erase_of_mem hp
      rw [hlink]
      exact ⟨_, rfl, ⟨rfl, rfl, rfl, rfl, rfl⟩, Or.inl ⟨hrel, hout, hfiled', fun _ => by omega⟩⟩
    · next hmany =>
      have hok := MemPool.indexOk_iff.mp (hheaded.indexOk p hp)
      obtain ⟨pool', hfree, hsound, htotal, hbitmap⟩ := hpool.freePage hok.1 hok.2 hused
      have hmany' := hmany
      rw [hfiled.free_eq, hfiled.full_eq, hfiled.partial_eq] at hmany'
      rw [hheaded.id_eq p hp, hfree]
      refine ⟨_, rfl, ⟨rfl, rfl, rfl, rfl, rfl⟩, Or.inr ⟨rfl, rfl, hsound, htotal, hbitmap, hfull,
        by omega, hfiled.shelves, hfiled.full_eq, hfiled.free_eq, ?_, hfiled.marks⟩⟩
      have hcount := hfiled.partial_eq
      change s.mng.partialPagesNo - 1 =
        countPages s.mem (owned.erase p) (fun nr => 0 < nr ∧ nr < s.mng.perSlab) + 0
      omega
  · rw [if_neg hfull]
    obtain ⟨s', hlink, hrel, hout, hsame, hfiled'⟩ :=
      hfiled.linkPartialPage (Finset.notMem_erase p owned) hheaded' hpos
        (lt_of_le_of_ne (hle p hp) hfull)
    rw [Finset.insert_erase hp] at hout hfiled'
    exact ⟨s', hlink, hsame, Or.inl ⟨hrel, hout, hfiled', fun heq => absurd heq hfull⟩⟩

/-- From `s` the item `x` of the page `p` has been given back, with `s'` left; the slab
has the pages `owned'` now. -/
structure Freed (s s' : Slab) (owned owned' : Finset Nat) (free : Nat → List ItemId) (p : Nat)
    (x : ItemId) : Prop where
  books : Books s' owned' (Function.update free p (x :: free p))
  total : s'.mem.pool.totalPages = s.mem.pool.totalPages
  owned_eq : (owned' = owned ∧ s'.mem.pool.pageBitmap = s.mem.pool.pageBitmap ∧
      ((x :: free p).length = s.mng.perSlab → owned.card ≤ 2)) ∨
    (owned' = owned.erase p ∧ 2 ≤ owned'.card ∧ (x :: free p).length = s.mng.perSlab ∧
      s'.mem.pool.pageBitmap = Function.update s.mem.pool.pageBitmap p false)
  same : s.mng.SameItems s'.mng
  outside : s.mem.Outside owned s'.mem
  item_eq : s'.mem.item x.addr =
    { s.mem.item x.addr with prev := 0, next := 0, hNext := (s'.mem.item x.addr).hNext }
  items : ∀ a, a ≠ x.addr → s'.mem.item a = s.mem.item a

/-- `free_item` gives an item back, once it has left its list. -/
theorem Books.freeItem {s s₁ : Slab} {owned : Finset Nat} {free : Nat → List ItemId} {p : Nat}
    {x : ItemId} (h : Books s owned free) (hp : p ∈ owned) (hx : s.mng.IsPlace p x)
    (hxl : x ∉ free p) (hid : (s.mem.item x.addr).itemId = x)
    (hunlink : s.unlinkItem x.addr = some s₁) (hrel : s.mem.ItemsRelinked s₁.mem) :
    ∃ s' owned', s.freeItem x.addr = some s' ∧ Freed s₁ s' owned owned' free p x := by
  have h₁ : Books s₁ owned free := h.relink hrel (samePages_unlinkItem hunlink)
  have hshape : s₁.mng.toSlabShape = s.mng.toSlabShape := (samePages_unlinkItem hunlink).shape_eq
  rw [← hshape] at hx
  rw [← hrel.itemId_eq] at hid
  have hst := h₁.stock p hp
  have hlt : (free p).length < s₁.mng.perSlab := by
    apply lt_of_le_of_ne hst.length_le
    intro hlen
    exact hxl (SlabShape.mem_of_length_eq hst.nodup hst.place hlen hx)
  obtain ⟨s₂, hunfile, hrel₂, hout₂, hsame₂, hfiled₂⟩ := h₁.unfilePage hp hlt
  -- the item on the free list
  have hstock₂ : ∀ q ∈ owned, Stock s₁.mng.toSlabShape s₂.mem q (free q) :=
    fun q hq => (h₁.stock q hq).relinked hrel₂
  have hid₂ : (s₂.mem.item x.addr).itemId = x := by rw [hrel₂.item_eq, hid]
  generalize hgive : Slab.giveItem s₂.mem x.addr p = mem₃
  have hst₃ : Stock s₁.mng.toSlabShape mem₃ p (x :: free p) := by
    rw [← hgive]
    exact (hstock₂ p hp).giveItem hx hxl hid₂
  have hpool₃ : mem₃.pool = s₁.mem.pool := by
    rw [← hgive]
    exact hrel₂.pool_eq
  have hpage₃ : ∀ q, q ≠ p → mem₃.page q = s₂.mem.page q := by
    intro q hq
    simp [← hgive, Slab.giveItem, Memory.page_setPage_ne hq]
  have hitem₃ : ∀ a, a ≠ x.addr → mem₃.item a = s₁.mem.item a := by
    intro a ha
    rw [← hrel₂.item_eq, ← hgive]
    simp [Slab.giveItem, Memory.item_setItem_ne ha]
  have hself₃ : mem₃.item x.addr =
      { s₁.mem.item x.addr with
        prev := 0
        next := 0
        hNext := (s₂.mem.page p).freeHead } := by
    rw [← hrel₂.item_eq, ← hgive]
    simp [Slab.giveItem]
  have hxp : x.addr.1 = p := hx.addr_fst hst.lt
  have hout₃ : s₂.mem.Outside {p} mem₃ := by
    refine ⟨fun q hq => hpage₃ q (by rwa [Finset.mem_singleton] at hq), fun a ha => ?_⟩
    rw [hitem₃ a, hrel₂.item_eq]
    rintro rfl
    exact ha (by rw [hxp]; exact Finset.mem_singleton_self p)
  have hothers₃ : ∀ q ∈ owned, q ≠ p → Stock s₁.mng.toSlabShape mem₃ q (free q) := by
    intro q hq hqp
    refine (hstock₂ q hq).outside hout₃ (by rwa [Finset.mem_singleton]) ?_ ?_
    · rw [hpool₃, hrel₂.pool_eq]
    · rw [hpool₃, hrel₂.pool_eq]
  have hall₃ : ∀ q ∈ owned,
      Stock s₁.mng.toSlabShape mem₃ q (Function.update free p (x :: free p) q) := by
    intro q hq
    rcases eq_or_ne q p with rfl | hqp
    · rw [Function.update_self]
      exact hst₃
    · rw [Function.update_of_ne hqp]
      exact hothers₃ q hq hqp
  have hshape₂ := hsame₂.shape_eq
  obtain ⟨s', hrefile, hsame', hcases⟩ :=
    refilePage_spec (s := ⟨mem₃, s₂.mng⟩) hp
      (hfiled₂.congr fun q hq => .of_eq (hpage₃ q (Finset.ne_of_mem_erase hq)))
      (headed_of_stock hall₃) (hpool₃ ▸ h₁.pool) hst₃.used
      (by simp only; rw [hst₃.freeNr_eq]; exact Nat.succ_pos _)
      (fun q hq => by
        simp only
        rw [hshape₂, (hall₃ q hq).freeNr_eq]
        exact (hall₃ q hq).length_le)
  have hshape' : s'.mng.toSlabShape = s₁.mng.toSlabShape := (hsame₂.trans hsame').shape_eq
  have hrun : s.freeItem x.addr = some s' := by
    unfold Slab.freeItem
    have hx0 : (s.mem.item x.addr).itemId ≠ 0 := by
      rw [← hrel.itemId_eq, hid]
      exact hx.ne_zero
    rw [if_neg hx0, hunlink]
    simp only [Option.bind_eq_bind, Option.bind_some, hid, hx.page hst.lt, hunfile, hgive]
    exact hrefile
  have hout_p : s₁.mem.Outside owned mem₃ :=
    hout₂.trans (hout₃.mono (Finset.singleton_subset_iff.mpr hp))
  rcases hcases with ⟨hrel', hout', hfiled', hfew⟩ | ⟨hitem', hpage', hsound', htotal', hbitmap',
    hfull, hcard, hfiled'⟩
  · refine ⟨s', owned, hrun, ⟨hrel'.pool_eq ▸ hpool₃ ▸ h₁.pool, fun q hq => ?_, hfiled'⟩, ?_,
      Or.inl ⟨rfl, ?_, fun hlen => ?_⟩, hsame₂.trans hsame', hout_p.trans hout', ?_,
      fun a ha => ?_⟩
    · rw [hshape']
      exact (hall₃ q hq).relinked hrel'
    · rw [hrel'.pool_eq, hpool₃]
    · rw [hrel'.pool_eq, hpool₃]
    · apply hfew
      simp only
      rw [hst₃.freeNr_eq, hshape₂]
      exact hlen
    · rw [hrel'.item_eq, hself₃]
    · rw [hrel'.item_eq]
      exact hitem₃ a ha
  · refine ⟨s', owned.erase p, hrun, ⟨hsound', fun q hq => ?_, hfiled'⟩, by rw [htotal', hpool₃],
      Or.inr ⟨rfl, hcard, ?_, by rw [hbitmap', hpool₃]⟩, hsame₂.trans hsame', ?_, ?_,
      fun a ha => ?_⟩
    · have hqp := Finset.ne_of_mem_erase hq
      rw [hshape', Function.update_of_ne hqp]
      refine (hothers₃ q (Finset.mem_of_mem_erase hq) hqp).congr htotal' ?_ ?_ ?_ ?_ ?_ ?_ ?_
      · rw [hbitmap', Function.update_of_ne hqp]
      all_goals simp [hpage', hitem']
    · simp only at hfull
      rw [hst₃.freeNr_eq, hshape₂] at hfull
      exact hfull
    · refine hout_p.trans ⟨fun q _ => by rw [hpage'], fun a _ => by rw [hitem']⟩
    · rw [hitem', hself₃]
    · rw [hitem']
      exact hitem₃ a ha

end Mdb
