-- SUMMARY: free_page: which items it removes, and when the page goes back to the pool.
import NetworkEtc.Mdb.Service

/-!
# Freeing a page

`clear_page` takes a slot whose links are both `0` for a free one. So it passes over an item
that is alone in the list of its area, and the page stays with the slab. With two pages it
stays as well: `free_item` keeps a page that would leave the slab with one.
-/

namespace Mdb

open Library

/-- `get_the_most_free_items_of_partial_page_id` -/
def SlabManager.mostFreePage (mng : SlabManager) : Nat :=
  match (List.range mng.partialPagesBucketNum).reverse.find? fun i => mng.partialPages i ≠ 0 with
  | some i => mng.partialPages i
  | none => 0

/-- The page that `free_page` takes; `0` is none. -/
def SlabManager.pageToFree (mng : SlabManager) : Nat :=
  if 0 < mng.freePagesNo then mng.freePages
  else if 0 < mng.partialPagesNo then mng.mostFreePage
  else if 0 < mng.fullPagesNo then mng.fullPages
  else 0

/-- The number of pages of a slab. -/
def SlabManager.pagesNo (mng : SlabManager) : Int :=
  mng.freePagesNo + mng.fullPagesNo + mng.partialPagesNo

/-- If the item `x` of slab `i` is in use, no other is in its list. -/
def Ledger.Lone (g : Ledger) (i : Nat) (x : ItemId) : Prop :=
  g.InSlab i x → ∀ y, g.InSlab i y → g.area y = g.area x → y = x

theorem Ledger.Lone.congr {g g' : Ledger} {i : Nat} {x : ItemId} (h : g.Lone i x)
    (harea : g'.area = g.area) (hsub : ∀ y, g'.InSlab i y → g.InSlab i y) : g'.Lone i x := by
  intro hx y hy heq
  rw [harea] at heq
  exact h (hsub x hx) y (hsub y hy) heq

namespace Store

/-- The loop of `clear_page`, from slot `i` of the page `p` on. -/
def clearSlots (size p : Nat) : Nat → Nat → Store → Option Store
  | 0, _, s => some s
  | n + 1, i, s =>
    let a := (p, size * i)
    if (s.mem.item a).prev = 0 ∧ (s.mem.item a).next = 0 then clearSlots size p n (i + 1) s
    else (s.removeItem a).bind (clearSlots size p n (i + 1))

/-- `clear_page` -/
def clearPage (s : Store) (i p : Nat) : Option Store :=
  clearSlots (s.slabs i).slabSize p (s.slabs i).perSlab 0 s

/-- `free_page`, at the label `FREE_PAGE`. -/
def sendPage (s : Store) (i p : Nat) : Option Store := do
  let mng := s.slabs i
  let info := s.mem.page p
  if s.mem.pool.indexOk p ∧ info.freeNr = mng.perSlab ∧ info.freeHead ≠ 0 then do
    let (mem, head) ← unlinkPage s.mem p mng.freePages
    let pool ← mem.pool.freePage (mem.page p).id
    some <| s.setSlab i
      { mem := { mem with pool }
        mng := { mng with freePages := head, freePagesNo := mng.freePagesNo - 1 } }
  else none

/-- `free_page`: the answer and the store. -/
def freePage (s : Store) (i : Nat) : Option (Int × Store) :=
  if i < s.slabsCount then
    let mng := s.slabs i
    if mng.pagesNo ≤ 1 then some (-1, s)
    else if 0 < mng.freePagesNo then (s.sendPage i mng.pageToFree).map ((0, ·))
    else if s.mem.pool.indexOk mng.pageToFree then
      (s.clearPage i mng.pageToFree).map ((0, ·))
    else none
  else none

/-! # What is to be removed -/

/-- The statistics of the areas without the items `xs`. -/
def statsWithout (s : Store) (xs : List ItemId) : Nat → AreaStat :=
  xs.foldl (fun stat x => statDrop stat (s.mem.item x.addr)) s.areaStat

/-- `s'` is `s` without the items of the page `p`, and the page is the pool's again. -/
structure PageFreed (s s' : Store) (p : Nat) : Prop where
  chain : ∀ b x, s'.InChain b x ↔ s.InChain b x ∧ x.pageId.toNat ≠ p
  list : ∀ i < s.slabsCount, ∀ k x, s'.InItemList i k x ↔ s.InItemList i k x ∧ x.pageId.toNat ≠ p
  body_eq : ∀ x, s'.Live x → (s'.mem.item x.addr).body = (s.mem.item x.addr).body
  stat : ∃ xs : List ItemId, xs.Nodup ∧ (∀ x, x ∈ xs ↔ s.Live x ∧ x.pageId.toNat = p) ∧
    s'.areaStat = s.statsWithout xs
  returned : s.mem.pool.pageBitmap p = true ∧ s'.mem.pool.pageBitmap p = false
  freePages_eq : s'.mem.pool.freePages = s.mem.pool.freePages + 1

variable {s s' s₁ s₂ : Store} {g g' g₁ g₂ : Ledger} {i j k p : Nat} {x y : ItemId}
  {xs : List ItemId}

theorem statsWithout_concat : s.statsWithout (xs ++ [x]) =
    statDrop (s.statsWithout xs) (s.mem.item x.addr) :=
  List.foldl_concat ..

/-! # `clear_page` -/

/-- From `s` the items `xs` of the page `p` of slab `i` have been removed, with `s'` left. No
list has become empty by it. -/
structure Clearing (s s' : Store) (g g' : Ledger) (i p : Nat) (xs : List ItemId) : Prop where
  settled : s'.Settled g'
  count_eq : g'.count = g.count
  shape_eq : g'.shape = g.shape
  area_eq : g'.area = g.area
  nodup : xs.Nodup
  onPage : ∀ x ∈ xs, (g.shape i).IsPlace p x ∧ g.InSlab i x
  inSlab : ∀ j < g.count, ∀ y, g'.InSlab j y ↔ g.InSlab j y ∧ y ∉ xs
  nonempty : ∀ k, (∃ y, g.InSlab i y ∧ g.area y = k) → ∃ y, g'.InSlab i y ∧ g.area y = k
  body_eq : ∀ y, g'.InUse y → (s'.mem.item y.addr).body = (s.mem.item y.addr).body
  areaStat_eq : s'.areaStat = s.statsWithout xs
  getBucketIndex_eq : s'.getBucketIndex = s.getBucketIndex
  totalPages_eq : s'.mem.pool.totalPages = s.mem.pool.totalPages
  repaged : g.Repaged g' s.mem.pool s'.mem.pool i p

/-- The links of an item in use are both `0` when it is alone in its list. -/
theorem Settled.links_iff (h : s.Settled g) (hi : i < g.count) (hx : g.InSlab i x) :
    (s.mem.item x.addr).prev = 0 ∧ (s.mem.item x.addr).next = 0 ↔ g.Lone i x := by
  have halone := (h.listed i hi).alone_iff hx
  rw [ItemId.place_eq_none, ItemId.place_eq_none] at halone
  refine halone.trans ⟨fun hall _ => hall, fun hlone => hlone hx⟩

namespace Clearing

theorem refl (h : s.Settled g) (hx : (g.shape i).IsPlace p x) (hxi : g.InSlab i x) :
    s.Clearing s g g i p [] :=
  ⟨h, rfl, rfl, rfl, List.nodup_nil, by simp, by simp, fun _ hk => hk, fun _ _ => rfl, rfl, rfl, rfl,
    .stays rfl rfl (Or.inr ⟨x, hx, hxi⟩)⟩

theorem inUse (h : s.Clearing s' g g' i p xs) : g'.InUse y ↔ g.InUse y ∧ y ∉ xs := by
  unfold Ledger.InUse
  rw [h.count_eq]
  constructor
  · rintro ⟨j, hj, hy⟩
    obtain ⟨hy, hnot⟩ := (h.inSlab j hj y).mp hy
    exact ⟨⟨j, hj, hy⟩, hnot⟩
  · rintro ⟨⟨j, hj, hy⟩, hnot⟩
    exact ⟨j, hj, (h.inSlab j hj y).mpr ⟨hy, hnot⟩⟩

/-- One item more is removed, which is not alone in its list. -/
theorem concat (h : s.Clearing s₁ g g₁ i p xs) (hs : s.Settled g) (hi : i < g.count)
    (hp : p ∈ g.owned i) (hplace : (g.shape i).IsPlace p x) (hx : g₁.InSlab i x)
    (hlone : ¬ g₁.Lone i x) (hremoved : s₁.Removed s₂ g₁ g₂ x) :
    s.Clearing s₂ g g₂ i p (xs ++ [x]) := by
  have hi₁ : i < g₁.count := h.count_eq ▸ hi
  have hgiven := hremoved.given
  obtain ⟨hxg, hxs⟩ := (h.inSlab i hi x).mp hx
  have hinUse : ∀ y, g₂.InUse y → g₁.InUse y ∧ y ≠ x := fun y hy => hgiven.inUse.mp hy
  have hbody : (s₁.mem.item x.addr).body = (s.mem.item x.addr).body :=
    h.body_eq x (Ledger.inUse_of hi₁ hx)
  refine ⟨hremoved.settled, hgiven.count_eq.trans h.count_eq, hgiven.shape_eq.trans h.shape_eq,
    hgiven.area_eq.trans h.area_eq, ?_, fun y hy => ?_, fun j hj y => ?_, fun k hk => ?_,
    fun y hy => ?_, ?_, hremoved.getBucketIndex_eq.trans h.getBucketIndex_eq,
    hremoved.totalPages_eq.trans h.totalPages_eq, ?_⟩
  · rw [List.nodup_append]
    refine ⟨h.nodup, List.nodup_singleton x, fun y hy z hz => ?_⟩
    rw [List.mem_singleton.mp hz]
    rintro rfl
    exact hxs hy
  · rcases List.mem_append.mp hy with hy | hy
    · exact h.onPage y hy
    · rw [List.mem_singleton.mp hy]
      exact ⟨hplace, hxg⟩
  · rw [hgiven.inSlab j (h.count_eq ▸ hj), h.inSlab j hj, List.mem_append, List.mem_singleton,
      not_or, and_assoc]
  · -- the other item of the list of `x` is left
    obtain ⟨y, hy, hyk⟩ := h.nonempty k hk
    rcases eq_or_ne y x with rfl | hyx
    · obtain ⟨z, hz, harea, hzy⟩ : ∃ z, g₁.InSlab i z ∧ g₁.area z = g₁.area y ∧ z ≠ y := by
        by_contra hall
        exact hlone fun _ z hz harea => by_contra fun hzy => hall ⟨z, hz, harea, hzy⟩
      rw [h.area_eq] at harea
      exact ⟨z, (hgiven.inSlab i hi₁ z).mpr ⟨hz, hzy⟩, harea.trans hyk⟩
    · exact ⟨y, (hgiven.inSlab i hi₁ y).mpr ⟨hy, hyx⟩, hyk⟩
  · rw [hremoved.body_eq y hy, h.body_eq y (hinUse y hy).1]
  · rw [hremoved.areaStat_eq, h.areaStat_eq, statsWithout_concat]
    exact statDrop_congr (MdbItem.area_congr hbody) (itemSize_congr hbody)
      (by rw [MdbItem.itemId_congr hbody])
  · have hpage : x.pageId.toNat = p := hplace.page (hs.page_lt hi hp)
    have hrepaged := hremoved.repaged
    rw [h.settled.slab_eq hi₁ hx, hpage] at hrepaged
    cases h.repaged with
    | stays howned hbitmap hneeded =>
      cases hrepaged with
      | stays howned' hbitmap' hneeded' =>
        rw [howned, h.shape_eq] at hneeded'
        exact .stays (howned'.trans howned) (hbitmap'.trans hbitmap) hneeded'
      | goes howned' hbitmap' hmany =>
        rw [howned] at howned' hmany
        rw [hbitmap] at hbitmap'
        exact .goes howned' hbitmap' hmany
    | goes howned hbitmap hmany =>
      -- there is nothing left to remove of a page that is gone
      obtain ⟨q, hq, hplace', -⟩ := hx
      rw [h.shape_eq] at hplace'
      rw [howned, Finset.mem_erase] at hq
      have hpq : q = p := by rw [← hplace'.page (hs.page_lt hi hq.2), hpage]
      exact absurd hpq hq.1

end Clearing

/-- The links of a slot that is not in use are `0`. -/
theorem Clearing.links_free (h : s.Clearing s₁ g g₁ i p xs) (hs : s.Settled g) (hi : i < g.count)
    (hp : p ∈ g.owned i) (hplace : (g.shape i).IsPlace p x) (hx : ¬ g₁.InSlab i x) :
    (s₁.mem.item x.addr).prev = 0 ∧ (s₁.mem.item x.addr).next = 0 := by
  apply h.settled.unlinked
  rintro y ⟨j, hj, hy⟩ haddr
  rw [h.count_eq] at hj
  obtain ⟨⟨q, hq, hyplace, -⟩, -⟩ := (h.inSlab j hj y).mp hy
  obtain rfl := hs.place_inj hi hj hp hq hplace hyplace haddr
  have hpq : p = q := by rw [← hplace.page (hs.page_lt hi hp), hyplace.page (hs.page_lt hj hq)]
  obtain rfl := hs.owner_unique hi hj hp (hpq ▸ hq)
  exact hx hy

/-- The loop removes what is not alone in its list. -/
theorem Clearing.clearSlots {m n : Nat} (h : s.Clearing s₁ g g₁ i p xs) (hs : s.Settled g)
    (hi : i < g.count) (hp : p ∈ g.owned i) (hmn : m + n = (g.shape i).perSlab)
    (hlone : ∀ l < m, g₁.Lone i ((g.shape i).itemIdAt p l)) :
    ∃ s' g' xs', clearSlots (g.shape i).slabSize p n m s₁ = some s' ∧
      s.Clearing s' g g' i p xs' ∧ ∀ x, (g.shape i).IsPlace p x → g'.Lone i x := by
  induction n generalizing m s₁ g₁ xs with
  | zero =>
    refine ⟨s₁, g₁, xs, rfl, h, ?_⟩
    rintro x ⟨l, hl, rfl⟩
    exact hlone l (by omega)
  | succ n ih =>
    have hm : m < (g.shape i).perSlab := by omega
    have hplace : (g.shape i).IsPlace p ((g.shape i).itemIdAt p m) := ⟨m, hm, rfl⟩
    have hi₁ : i < g₁.count := h.count_eq ▸ hi
    have hstep : ∀ {g₂ : Ledger}, g₂.Lone i ((g.shape i).itemIdAt p m) →
        (∀ l < m, g₂.Lone i ((g.shape i).itemIdAt p l)) →
        ∀ l < m + 1, g₂.Lone i ((g.shape i).itemIdAt p l) := by
      intro g₂ hself hbefore l hl
      rcases Nat.lt_succ_iff_lt_or_eq.mp hl with hlt | rfl
      · exact hbefore l hlt
      · exact hself
    unfold Store.clearSlots
    simp only
    rw [← SlabShape.addr_itemIdAt (hs.page_lt hi hp) hm.le]
    generalize (g.shape i).itemIdAt p m = x at hplace hstep
    split
    · next hzero =>
      refine ih h (by omega) (hstep (fun hx => ?_) hlone)
      exact (h.settled.links_iff hi₁ hx).mp hzero hx
    · next hlinked =>
      have hx : g₁.InSlab i x := by
        by_contra hx
        exact hlinked (h.links_free hs hi hp hplace hx)
      have hnot : ¬ g₁.Lone i x := fun hl => hlinked ((h.settled.links_iff hi₁ hx).mpr hl)
      obtain ⟨s₂, g₂, hremove, hremoved⟩ := h.settled.removeItem (Ledger.inUse_of hi₁ hx)
      have h₂ := h.concat hs hi hp hplace hx hnot hremoved
      have hinSlab := hremoved.given.inSlab i hi₁
      rw [hremove, Option.bind_some]
      refine ih h₂ (by omega) (hstep (fun hx₂ => ?_) fun l hl => ?_)
      · exact absurd rfl ((hinSlab x).mp hx₂).2
      · exact (hlone l hl).congr hremoved.given.area_eq fun y hy => ((hinSlab y).mp hy).1

namespace Clearing

variable (h : s.Clearing s' g g' i p xs) (hs : s.Settled g) (hi : i < g.count)
  (hp : p ∈ g.owned i)
include h hs hi hp

/-- The page is empty in the end if no list lay on it as a whole. -/
theorem emptied_iff (hlone : ∀ x, (g.shape i).IsPlace p x → g'.Lone i x) :
    (∀ x, (g.shape i).IsPlace p x → ¬ g'.InSlab i x) ↔
      ∀ k, (∃ x, g.InSlab i x ∧ g.area x = k) →
        ∃ x, (g.InSlab i x ∧ g.area x = k) ∧ x.pageId.toNat ≠ p := by
  have hplace : ∀ x, g.InSlab i x → x.pageId.toNat = p → (g.shape i).IsPlace p x := by
    rintro x ⟨q, hq, hx, -⟩ rfl
    rwa [hx.page (hs.page_lt hi hq)]
  constructor
  · intro hempty k hk
    obtain ⟨x, hx, hxk⟩ := h.nonempty k hk
    have hxg := ((h.inSlab i hi x).mp hx).1
    exact ⟨x, ⟨hxg, hxk⟩, fun hpage => hempty x (hplace x hxg hpage) hx⟩
  · intro hbeside x hx hxi
    obtain ⟨y, ⟨hy, harea⟩, hpage⟩ := hbeside (g.area x) ⟨x, ((h.inSlab i hi x).mp hxi).1, rfl⟩
    have hyi : g'.InSlab i y := by
      refine (h.inSlab i hi y).mpr ⟨hy, fun hmem => hpage ?_⟩
      exact (h.onPage y hmem).1.page (hs.page_lt hi hp)
    rw [← h.area_eq] at harea
    rw [hlone x hx hxi y hyi harea] at hpage
    exact hpage (hx.page (hs.page_lt hi hp))

/-- An empty page is one without the items that were removed. -/
theorem mem_iff (hempty : ∀ x, (g.shape i).IsPlace p x → ¬ g'.InSlab i x) (hx : g.InUse x) :
    x ∈ xs ↔ x.pageId.toNat = p := by
  constructor
  · exact fun hmem => (h.onPage x hmem).1.page (hs.page_lt hi hp)
  · intro hpage
    obtain ⟨j, hj, q, hq, hplace, hfree⟩ := hx
    obtain rfl : q = p := by rw [← hplace.page (hs.page_lt hj hq), hpage]
    obtain rfl := hs.owner_unique hi hj hp hq
    by_contra hnot
    exact hempty x hplace ((h.inSlab i hi x).mpr ⟨⟨q, hq, hplace, hfree⟩, hnot⟩)

/-- The page has gone to the pool if it is empty and the slab has two others. -/
theorem pageFreed_iff : s.PageFreed s' p ↔
    3 ≤ (g.owned i).card ∧ ∀ x, (g.shape i).IsPlace p x → ¬ g'.InSlab i x := by
  have hi' : i < g'.count := h.count_eq ▸ hi
  have hused : s.mem.pool.pageBitmap p = true := (hs.stock hi hp).used
  constructor
  · intro hfreed
    have hmany : 3 ≤ (g.owned i).card := by
      cases h.repaged with
      | stays howned hbitmap hneeded =>
        rw [← hbitmap, hfreed.returned.2] at hused
        exact Bool.noConfusion hused
      | goes howned hbitmap hmany => exact hmany
    refine ⟨hmany, fun x hplace hx => ?_⟩
    have hlive : s'.Live x := h.settled.live_iff.mpr (Ledger.inUse_of hi' hx)
    obtain ⟨b, hb⟩ := hlive
    exact ((hfreed.chain b x).mp hb).2 (hplace.page (hs.page_lt hi hp))
  · rintro ⟨hmany, hempty⟩
    have hmem : ∀ x, g.InUse x → (x ∈ xs ↔ x.pageId.toNat = p) :=
      fun x hx => h.mem_iff hs hi hp hempty hx
    have hbitmap : s'.mem.pool.pageBitmap = Function.update s.mem.pool.pageBitmap p false := by
      cases h.repaged with
      | stays howned hbitmap hneeded =>
        rcases hneeded with hfew | ⟨y, hplace, hy⟩
        · exact absurd hmany (by omega)
        · exact absurd hy (hempty y hplace)
      | goes howned hbitmap hmany => exact hbitmap
    have hkey : ∀ x, g'.InUse x → s'.keyOf x = s.keyOf x :=
      fun x hx => MdbItem.key_congr (h.body_eq x hx)
    have hbucket := h.getBucketIndex_eq
    refine ⟨fun b x => ?_, fun j hj k x => ?_, fun x hx => ?_, ⟨xs, h.nodup, fun x => ?_,
      h.areaStat_eq⟩, ⟨hused, ?_⟩, ?_⟩
    · rw [h.settled.inChain_iff, hs.inChain_iff]
      constructor
      · rintro ⟨hx, hb⟩
        obtain ⟨hxg, hnot⟩ := h.inUse.mp hx
        rw [hkey x hx, hbucket] at hb
        exact ⟨⟨hxg, hb⟩, fun hpage => hnot ((hmem x hxg).mpr hpage)⟩
      · rintro ⟨⟨hx, hb⟩, hpage⟩
        have hx' : g'.InUse x := h.inUse.mpr ⟨hx, fun hxs => hpage ((hmem x hx).mp hxs)⟩
        rw [hkey x hx', hbucket]
        exact ⟨hx', hb⟩
    · rw [hs.count_eq] at hj
      rw [h.settled.inItemList_iff (h.count_eq ▸ hj), hs.inItemList_iff hj, h.inSlab j hj, h.area_eq]
      constructor
      · rintro ⟨⟨hx, hnot⟩, hk⟩
        exact ⟨⟨hx, hk⟩, fun hpage => hnot ((hmem x (Ledger.inUse_of hj hx)).mpr hpage)⟩
      · rintro ⟨⟨hx, hk⟩, hpage⟩
        exact ⟨⟨hx, fun hxs => hpage ((hmem x (Ledger.inUse_of hj hx)).mp hxs)⟩, hk⟩
    · exact h.body_eq x (h.settled.live_iff.mp hx)
    · rw [hs.live_iff]
      constructor
      · intro hxs
        have hx := Ledger.inUse_of hi (h.onPage x hxs).2
        exact ⟨hx, (hmem x hx).mp hxs⟩
      · rintro ⟨hx, hpage⟩
        exact (hmem x hx).mpr hpage
    · rw [hbitmap, Function.update_self]
    · refine (h.settled.books i hi').pool.freePages_eq.trans ?_
      apply (hs.books i hi).pool.card_give h.totalPages_eq hbitmap _ hused
      exact (MemPool.indexOk_iff.mp (hs.stock hi hp).indexOk).2

end Clearing

/-! # `FREE_PAGE` -/

/-- The pages of a slab change, and no item in use is on the pages that come and go. -/
theorem Settled.repage (h : s.Settled g) {sl : Slab} {owned' : Finset Nat}
    (hpaged : (s.setSlab i sl).Paged (g.repage i owned' g.free)) (hitem : sl.mem.item = s.mem.item)
    (hsame : (s.slabs i).SameItems sl.mng)
    (hinSlab : ∀ j y, (g.repage i owned' g.free).InSlab j y ↔ g.InSlab j y) :
    (s.setSlab i sl).Settled (g.repage i owned' g.free) := by
  have hinUse : ∀ y, (g.repage i owned' g.free).InUse y ↔ g.InUse y := by
    intro y
    unfold Ledger.InUse
    simp only [hinSlab, Ledger.count_repage]
  have hmem : (s.setSlab i sl).mem.item = s.mem.item := hitem
  refine ⟨⟨hpaged, fun j hj => ?_, fun y hy => ?_, ?_, fun _ hy => hy, fun y hy => ?_,
    fun x y hx hy heq => ?_, fun a ha => ?_⟩, fun y hy => ?_, fun a ha => ?_⟩
  · apply (h.listed j hj).congr
    · exact fun y _ => by rw [slab, hmem]; rfl
    · exact fun y _ => by rw [slab, hmem]; rfl
    · exact fun _ _ => rfl
    · rcases eq_or_ne j i with rfl | hji
      · rw [slab_setSlab_self]
        exact hsame.itemHead_eq
      · rw [slab_setSlab_ne hji]
        rfl
    · rcases eq_or_ne j i with rfl | hji
      · rw [slab_setSlab_self]
        exact hsame.itemTail_eq
      · rw [slab_setSlab_ne hji]
        rfl
    · exact hinSlab j
  · exact h.area_lt y ((hinUse y).mp hy)
  · apply h.chained.congr
    · exact fun y _ => by rw [chainNext, hmem]; rfl
    · exact fun y _ => by rw [keyOf, hmem]; rfl
    · exact fun _ => rfl
    · exact hinUse
  · rw [hmem]
    exact h.whole y ((hinUse y).mp hy)
  · rw [keyOf, keyOf, hmem] at heq
    exact h.keys x y ((hinUse x).mp hx) ((hinUse y).mp hy) heq
  · rw [hmem]
    exact h.unlinked a fun x hx => ha x ((hinUse x).mpr hx)
  · rw [hmem]
    exact h.area_eq y ((hinUse y).mp hy)
  · rw [hmem]
    exact h.blank a fun x hx => ha x ((hinUse x).mpr hx)

/-- A page that is all free goes back to the pool. -/
theorem Settled.sendPage (h : s.Settled g) (hi : i < g.count)
    (hfree : 0 < (s.slabs i).freePagesNo) :
    ∃ s' g', s.sendPage i (s.slabs i).freePages = some s' ∧ s'.Settled g' ∧
      s.PageFreed s' (s.slabs i).freePages := by
  have hbooks := h.books i hi
  obtain ⟨hp, hnr⟩ := hbooks.filed.free_page hbooks.freeNr_le hfree
  obtain ⟨mem', v, hunlink, hrel, hout, hfiled⟩ := hbooks.filed.unlinkFree hp hbooks.headed hnr
  obtain ⟨p, hfirst⟩ : ∃ p, (s.slabs i).freePages = p := ⟨_, rfl⟩
  have hfirst' : (s.slab i).mng.freePages = p := hfirst
  rw [hfirst'] at hp hnr hunlink hfiled
  rw [hfirst]
  have hstock := h.stock hi hp
  have hnr' : (s.mem.page p).freeNr = (s.slabs i).perSlab := hnr
  have hfull : (g.free p).length = (g.shape i).perSlab := by
    rw [← hstock.freeNr_eq, hnr', h.shape_eq i hi]
  have hhead : (s.mem.page p).freeHead ≠ 0 := by
    rw [Ne, hstock.freeHead_eq_zero, hnr']
    exact (s.slabs i).perSlab_pos.ne'
  have hok := MemPool.indexOk_iff.mp hstock.indexOk
  obtain ⟨pool', hgive, hsound, htotal, hbitmap⟩ :=
    hbooks.pool.freePage hok.1 hok.2 hstock.used
  have hgive' : mem'.pool.freePage (mem'.page p).id = some pool' := by
    rw [hrel.pool_eq, hrel.id_eq]
    change s.mem.pool.freePage (s.mem.page p).id = some pool'
    rw [hstock.id_eq]
    exact hgive
  let sl : Slab :=
    { mem := { mem' with pool := pool' }
      mng := { s.slabs i with freePages := v, freePagesNo := (s.slabs i).freePagesNo - 1 } }
  have hrun : s.sendPage i p = some (s.setSlab i sl) := by
    unfold Store.sendPage
    simp only [hfirst]
    rw [if_pos ⟨hstock.indexOk, hnr', hhead⟩]
    change (do
      let r ← unlinkPage (s.slab i).mem p p
      let pool ← r.1.pool.freePage (r.1.page p).id
      some <| s.setSlab i
        { mem := { r.1 with pool }
          mng := { s.slabs i with
            freePages := r.2
            freePagesNo := (s.slabs i).freePagesNo - 1 } }) = _
    rw [hunlink]
    simp only [Option.bind_eq_bind, Option.bind_some, hgive']
    rfl
  have hsl : Books sl ((g.owned i).erase p) g.free := by
    refine ⟨hsound, fun q hq => ?_, ?_⟩
    · have hqp := Finset.ne_of_mem_erase hq
      apply ((hbooks.stock q (Finset.mem_of_mem_erase hq)).relinked hrel).congr
      · change pool'.totalPages = _
        rw [htotal, hrel.pool_eq]
      · change pool'.pageBitmap q = _
        rw [hbitmap, Function.update_of_ne hqp, hrel.pool_eq]
      all_goals intros; rfl
    · refine ⟨hfiled.shelves, hfiled.full_eq, hfiled.free_eq, ?_, hfiled.marks⟩
      have hpartial := hfiled.partial_eq
      change (s.slabs i).partialPagesNo + 1 =
        countPages mem' ((g.owned i).erase p) (fun nr => 0 < nr ∧ nr < (s.slabs i).perSlab) + 1
        at hpartial
      change (s.slabs i).partialPagesNo =
        countPages mem' ((g.owned i).erase p) (fun nr => 0 < nr ∧ nr < (s.slabs i).perSlab) + 0
      omega
  have hempty : ∀ y, (g.shape i).IsPlace p y → y ∈ g.free p := fun y hy =>
    SlabShape.mem_of_length_eq hstock.nodup hstock.place hfull hy
  have hpaged : (s.setSlab i sl).Paged (g.repage i ((g.owned i).erase p) g.free) := by
    apply h.exchange hi hsl rfl (S := g.owned i) ⟨hout.page_eq, hout.item_eq⟩ htotal
    intro j hj hji q hq
    have hqi : q ∉ g.owned i := fun hqi => hji (h.owner_unique hj hi hq hqi)
    have hqp : q ≠ p := by
      rintro rfl
      exact hqi hp
    refine ⟨hqi, fun hqe => hqi (Finset.mem_of_mem_erase hqe), rfl, ?_⟩
    change pool'.pageBitmap q = _
    rw [hbitmap, Function.update_of_ne hqp]
    rfl
  have hinSlab : ∀ j y, (g.repage i ((g.owned i).erase p) g.free).InSlab j y ↔ g.InSlab j y := by
    intro j y
    rcases eq_or_ne j i with rfl | hji
    · unfold Ledger.InSlab
      rw [Ledger.owned_repage_self, Ledger.shape_repage, Ledger.free_repage]
      constructor
      · rintro ⟨q, hq, hy, hyl⟩
        exact ⟨q, Finset.mem_of_mem_erase hq, hy, hyl⟩
      · rintro ⟨q, hq, hy, hyl⟩
        refine ⟨q, Finset.mem_erase.mpr ⟨?_, hq⟩, hy, hyl⟩
        rintro rfl
        exact hyl (hempty y hy)
    · unfold Ledger.InSlab
      rw [Ledger.owned_repage_ne hji]
      rfl
  have hitem : sl.mem.item = s.mem.item := hrel.item_eq
  have hsettled := h.repage hpaged hitem ⟨rfl, rfl, rfl, rfl, rfl⟩ hinSlab
  have hmem : (s.setSlab i sl).mem.item = s.mem.item := hitem
  have hbeside : ∀ x, g.InUse x → x.pageId.toNat ≠ p := by
    rintro x ⟨j, hj, q, hq, hx, hxl⟩ hpage
    obtain rfl : q = p := by rw [← hx.page (h.page_lt hj hq), hpage]
    obtain rfl := h.owner_unique hi hj hp hq
    exact hxl (hempty x hx)
  have hinUse : ∀ x, (g.repage i ((g.owned i).erase p) g.free).InUse x ↔ g.InUse x := by
    intro x
    unfold Ledger.InUse
    simp only [hinSlab, Ledger.count_repage]
  refine ⟨_, _, hrun, hsettled, fun b x => ?_, fun j hj k x => ?_, fun x hx => ?_,
    ⟨[], List.nodup_nil, fun x => ?_, rfl⟩, ⟨hstock.used, ?_⟩, ?_⟩
  · have hkey : (s.setSlab i sl).keyOf x = s.keyOf x := by
      unfold keyOf
      rw [hmem]
    rw [hsettled.inChain_iff, h.inChain_iff, hinUse, hkey]
    exact ⟨fun hx => ⟨hx, hbeside x hx.1⟩, fun hx => hx.1⟩
  · rw [h.count_eq] at hj
    rw [hsettled.inItemList_iff hj, h.inItemList_iff hj, hinSlab]
    exact ⟨fun hx => ⟨hx, hbeside x (Ledger.inUse_of hj hx.1)⟩, fun hx => hx.1⟩
  · rw [hmem]
  · rw [h.live_iff]
    constructor
    · exact fun hx => absurd hx List.not_mem_nil
    · exact fun hx => absurd hx.2 (hbeside x hx.1)
  · change pool'.pageBitmap p = false
    rw [hbitmap, Function.update_self]
  · exact hsound.freePages_eq.trans (hbooks.pool.card_give htotal hbitmap hok.2 hstock.used)

/-! # `free_page` -/

theorem Settled.pagesNo_eq (h : s.Settled g) (hi : i < g.count) :
    (s.slabs i).pagesNo = (g.owned i).card := by
  have hbooks := h.books i hi
  have hfiled := hbooks.filed
  have htotal := countPages_total s.mem (s.slabs i).perSlab_pos hbooks.freeNr_le
  have hfree : (s.slabs i).freePagesNo = _ := hfiled.free_eq
  have hfull : (s.slabs i).fullPagesNo = _ := hfiled.full_eq
  have hpartial : (s.slabs i).partialPagesNo = _ := hfiled.partial_eq
  unfold SlabManager.pagesNo
  rw [hfree, hfull, hpartial, Int.add_zero]
  exact htotal

/-- Unless it is all free, the page that `free_page` takes has an item in use. -/
theorem Settled.pageToFree (h : s.Settled g) (hi : i < g.count)
    (hmany : 2 ≤ (s.slabs i).pagesNo) (hnone : ¬ 0 < (s.slabs i).freePagesNo) :
    (s.slabs i).pageToFree ∈ g.owned i ∧
      ∃ x, (g.shape i).IsPlace (s.slabs i).pageToFree x ∧ g.InSlab i x := by
  have hbooks := h.books i hi
  have hpage : (s.slabs i).pageToFree ∈ g.owned i ∧
      (s.mem.page (s.slabs i).pageToFree).freeNr < (s.slabs i).perSlab := by
    unfold SlabManager.pageToFree
    rw [if_neg hnone]
    split
    · next hpos =>
      obtain ⟨b, hb, hbucket⟩ := hbooks.filed.exists_bucket hpos
      unfold SlabManager.mostFreePage
      split
      · next c hfind =>
        have hne : (s.slabs i).partialPages c ≠ 0 := by simpa using List.find?_some hfind
        obtain ⟨hmem, -, hlt⟩ := hbooks.filed.bucket_page hbooks.freeNr_le hne
        exact ⟨hmem, hlt⟩
      · next hfind =>
        rw [List.find?_eq_none] at hfind
        have hzero : (s.slabs i).partialPages b = 0 := by
          simpa using hfind b (List.mem_reverse.mpr (List.mem_range.mpr hb))
        exact absurd hzero hbucket
    · next hnot =>
      have hpos : 0 < (s.slabs i).fullPagesNo := by
        unfold SlabManager.pagesNo at hmany
        omega
      obtain ⟨hmem, hzero⟩ := hbooks.filed.full_page hbooks.freeNr_le hpos
      rw [if_pos hpos]
      refine ⟨hmem, ?_⟩
      change (s.mem.page (s.slabs i).fullPages).freeNr = 0 at hzero
      rw [hzero]
      exact (s.slabs i).perSlab_pos
  generalize (s.slabs i).pageToFree = p at hpage
  obtain ⟨hp, hlt⟩ := hpage
  have hstock := h.stock hi hp
  refine ⟨hp, ?_⟩
  by_contra hnot
  have hsub : (g.shape i).places p ⊆ g.free p := by
    intro x hx
    by_contra hxl
    have hplace := SlabShape.mem_places.mp hx
    exact hnot ⟨x, hplace, p, hp, hplace, hxl⟩
  have hle := (SlabShape.nodup_places.subperm hsub).length_le
  rw [SlabShape.length_places, ← hstock.freeNr_eq, ← h.shape_eq i hi] at hle
  exact absurd hlt (Nat.not_lt.mpr hle)

/-- There is an all free page to give back; or there are two other pages, and no list of items
of the slab lies on the page that `free_page` takes as a whole. -/
def CanFreePage (s : Store) (i : Nat) : Prop :=
  0 < (s.slabs i).freePagesNo ∨
    3 ≤ (s.slabs i).pagesNo ∧ ∀ k, (∃ x, s.InItemList i k x) →
      ∃ x, s.InItemList i k x ∧ x.pageId.toNat ≠ (s.slabs i).pageToFree

/-- Either an all free page is given back, or a page is cleared as far as that goes. -/
theorem Settled.freePage_cases (h : s.Settled g) (hi : i < g.count)
    (hmany : 2 ≤ (s.slabs i).pagesNo) :
    ∃ s' g', s.freePage i = some (0, s') ∧ s'.Settled g' ∧
      ((0 < (s.slabs i).freePagesNo ∧ s.PageFreed s' (s.slabs i).pageToFree) ∨
        (¬ 0 < (s.slabs i).freePagesNo ∧ (s.slabs i).pageToFree ∈ g.owned i ∧
          (∃ xs, s.Clearing s' g g' i (s.slabs i).pageToFree xs) ∧
          ∀ x, (g.shape i).IsPlace (s.slabs i).pageToFree x → g'.Lone i x)) := by
  unfold Store.freePage
  rw [if_pos (h.count_eq ▸ hi)]
  simp only
  rw [if_neg (by omega)]
  rcases Classical.em (0 < (s.slabs i).freePagesNo) with hfree | hnone
  · have hpage : (s.slabs i).pageToFree = (s.slabs i).freePages := if_pos hfree
    obtain ⟨s', g', hsend, hsettled, hfreed⟩ := h.sendPage hi hfree
    rw [if_pos hfree, hpage, hsend]
    exact ⟨s', g', rfl, hsettled, Or.inl ⟨hfree, hfreed⟩⟩
  · obtain ⟨hp, x, hplace, hx⟩ := h.pageToFree hi hmany hnone
    generalize (s.slabs i).pageToFree = p at hp hplace
    obtain ⟨s', g', xs, hclear, hclearing, hlone⟩ :=
      (Clearing.refl h hplace hx).clearSlots (m := 0) (n := (g.shape i).perSlab) h hi hp
        (Nat.zero_add _) fun l hl => absurd hl (Nat.not_lt_zero l)
    have hclear' : s.clearPage i p = some s' := by
      unfold clearPage
      rw [h.shape_eq i hi]
      exact hclear
    rw [if_neg hnone, if_pos (h.stock hi hp).indexOk, hclear']
    exact ⟨s', g', rfl, hclearing.settled, Or.inr ⟨hnone, hp, ⟨xs, hclearing⟩, hlone⟩⟩

theorem Settled.freePage (h : s.Settled g) (hi : i < g.count) (hmany : 2 ≤ (s.slabs i).pagesNo) :
    ∃ s' g', s.freePage i = some (0, s') ∧ s'.Settled g' ∧
      (s.PageFreed s' (s.slabs i).pageToFree ↔ s.CanFreePage i) := by
  obtain ⟨s', g', hfree, hsettled, ⟨hpos, hfreed⟩ | ⟨hnone, hp, ⟨xs, hclearing⟩, hlone⟩⟩ :=
    h.freePage_cases hi hmany
  · exact ⟨s', g', hfree, hsettled, iff_of_true hfreed (Or.inl hpos)⟩
  · refine ⟨s', g', hfree, hsettled, ?_⟩
    unfold CanFreePage
    rw [hclearing.pageFreed_iff h hi hp, hclearing.emptied_iff h hi hp hlone, h.pagesNo_eq hi]
    simp only [h.inItemList_iff hi, hnone, false_or, Nat.ofNat_le_cast]

/-! # The statistics -/

/-- Without some of the items, the statistics are the sums over the others. -/
theorem Audited.counts_statsWithout {live : Finset ItemId} (h : s.Audited g live)
    (m : Statistic) (k : Nat) (hnodup : xs.Nodup) (hxs : ∀ x ∈ xs, x ∈ live) :
    m.count (s.statsWithout xs k) = UInt64.ofNat (s.total (live \ xs.toFinset) m k) := by
  induction xs using List.reverseRecOn with
  | nil =>
    rw [List.toFinset_nil, Finset.sdiff_empty]
    exact h.counts m k
  | append_singleton xs x ih =>
    obtain ⟨hnodup, -, hx⟩ := List.nodup_append.mp hnodup
    have hnot : x ∉ xs := fun hmem => hx x hmem x (List.mem_singleton_self x) rfl
    have hxlive : x ∈ live \ xs.toFinset := by
      rw [Finset.mem_sdiff, List.mem_toFinset]
      exact ⟨hxs x (List.mem_append_right _ (List.mem_singleton_self x)), hnot⟩
    have herase : live \ (xs ++ [x]).toFinset = (live \ xs.toFinset).erase x := by
      apply Finset.ext
      intro y
      simp only [Finset.mem_sdiff, List.mem_toFinset, List.mem_append, List.mem_singleton,
        Finset.mem_erase, not_or]
      exact ⟨fun ⟨hy, hnot, hne⟩ => ⟨hne, hy, hnot⟩, fun ⟨hne, hy, hnot⟩ => ⟨hy, hnot, hne⟩⟩
    rw [statsWithout_concat, herase]
    apply Statistic.drop_eq
    rw [total_erase hxlive]
    exact ih hnodup fun y hy => hxs y (List.mem_append_left _ hy)

/-- So they stay right when the items go. -/
theorem Audited.without {live : Finset ItemId} (h : s.Audited g live) (hnodup : xs.Nodup)
    (hxs : ∀ x ∈ xs, g.InUse x) (hinUse : ∀ y, g'.InUse y ↔ g.InUse y ∧ y ∉ xs)
    (hbody : ∀ y, g'.InUse y → (s'.mem.item y.addr).body = (s.mem.item y.addr).body)
    (hstat : s'.areaStat = s.statsWithout xs) : s'.Audited g' (live \ xs.toFinset) := by
  have hmem : ∀ y, y ∈ live \ xs.toFinset ↔ g'.InUse y := by
    intro y
    rw [Finset.mem_sdiff, List.mem_toFinset, h.mem_iff, hinUse]
  refine ⟨hmem, fun m k => ?_⟩
  rw [total_congr fun y hy => hbody y ((hmem y).mp hy), hstat]
  exact h.counts_statsWithout m k hnodup fun x hx => (h.mem_iff x).mpr (hxs x hx)

/-- The statistics are right after `free_page`. -/
theorem Settled.freePage_audited {live : Finset ItemId} (h : s.Settled g) (hlive : s.Audited g live)
    (hi : i < g.count) (hmany : 2 ≤ (s.slabs i).pagesNo) :
    ∃ s' g' live', s.freePage i = some (0, s') ∧ s'.Settled g' ∧ s'.Audited g' live' := by
  obtain ⟨s', g', hfree, hsettled, ⟨-, hfreed⟩ | ⟨-, -, ⟨xs, hclearing⟩, -⟩⟩ :=
    h.freePage_cases hi hmany
  · obtain ⟨xs, hnodup, hxs, hstat⟩ := hfreed.stat
    refine ⟨s', g', _, hfree, hsettled, hlive.without hnodup (fun x hx => ?_) (fun y => ?_)
      (fun y hy => hfreed.body_eq y (hsettled.live_iff.mpr hy)) hstat⟩
    · exact h.live_iff.mp ((hxs x).mp hx).1
    · have hchain : s'.Live y ↔ s.Live y ∧ y.pageId.toNat ≠ (s.slabs i).pageToFree := by
        unfold Live
        simp only [hfreed.chain, exists_and_right]
      rw [← hsettled.live_iff, hchain, hxs, h.live_iff]
      exact ⟨fun ⟨hy, hne⟩ => ⟨hy, fun hmem => hne hmem.2⟩,
        fun ⟨hy, hnot⟩ => ⟨hy, fun heq => hnot ⟨hy, heq⟩⟩⟩
  · exact ⟨s', g', _, hfree, hsettled, hlive.without hclearing.nodup
      (fun x hx => Ledger.inUse_of hi (hclearing.onPage x hx).2) (fun y => hclearing.inUse)
      hclearing.body_eq hclearing.areaStat_eq⟩

/-! # Runs -/

/-- The calls of the manager, and `free_page` on a slab. -/
inductive PageOp where
  | call (op : StoreOp)
  | freePage (i : Nat)

/-- The arguments that a call may have. -/
def PageOp.Admissible : PageOp → Prop
  | .call op => op.Admissible
  | .freePage _ => True

instance (op : PageOp) : Decidable op.Admissible :=
  match op with
  | .call op => inferInstanceAs (Decidable op.Admissible)
  | .freePage _ => instDecidableTrue

/-- The store after a call. -/
def pageStep (s : Store) : PageOp → Option Store
  | .call op => s.step op
  | .freePage i => (s.freePage i).map Prod.snd

/-- The store after a sequence of calls. -/
def pageRun (s : Store) (ops : List PageOp) : Option Store := runFrom pageStep s ops

theorem Settled.pageStep {op : PageOp} (h : s.Settled g) (hop : op.Admissible)
    (hstep : s.pageStep op = some s') : ∃ g', s'.Settled g' := by
  cases op with
  | call op =>
    obtain ⟨-, g', hmoves⟩ := h.step_moves hop hstep
    exact ⟨g', hmoves.settled h⟩
  | freePage i =>
    obtain ⟨⟨code, s₁⟩, hfree, rfl⟩ := Option.map_eq_some_iff.mp hstep
    by_cases hi : i < s.slabsCount
    · by_cases hmany : 2 ≤ (s.slabs i).pagesNo
      · obtain ⟨s₂, g', hfree', hsettled, -⟩ := h.freePage (h.count_eq ▸ hi) hmany
        rw [hfree'] at hfree
        cases hfree
        exact ⟨g', hsettled⟩
      · unfold Store.freePage at hfree
        rw [if_pos hi] at hfree
        simp only at hfree
        rw [if_pos (by omega)] at hfree
        cases hfree
        exact ⟨g, h⟩
    · unfold Store.freePage at hfree
      rw [if_neg hi] at hfree
      cases hfree

/-- After any calls, `free_page` on a slab with two pages takes a page's items out of the store
and gives the page back just when `CanFreePage` says so. -/
theorem pageFreed_run {param : MdbParam} {ops : List PageOp} {s₀ : Store}
    (hinit : Store.init param = some s₀) (hops : ∀ op ∈ ops, op.Admissible)
    (hrun : s₀.pageRun ops = some s) (hi : i < s.slabsCount)
    (hmany : 2 ≤ (s.slabs i).pagesNo) :
    ∃ s', s.freePage i = some (0, s') ∧
      (s.PageFreed s' (s.slabs i).pageToFree ↔ s.CanFreePage i) := by
  obtain ⟨g₀, hempty⟩ := empty_init hinit
  obtain ⟨g, hsettled⟩ := runFrom_invariant (P := fun s => ∃ g, s.Settled g)
    (fun s op s' hop ⟨g, hs⟩ hstep => hs.pageStep hop hstep) ⟨g₀, hempty.settled⟩ hops hrun
  obtain ⟨s', g', hfree, -, hiff⟩ := hsettled.freePage (hsettled.count_eq ▸ hi) hmany
  exact ⟨s', hfree, hiff⟩

/-- The put of the key with the area `k` and the number `n`. -/
def putKey (k n : UInt8) : PageOp :=
  .call (.put { DataEntry.init with data := [k, 0, n] } { DataEntry.init with data := [n] } false 0
    1 1)

/-- Two items, one of which goes again: its page stays, all free. -/
def onePageFree : List PageOp :=
  [putKey 3 1, putKey 3 2, .call (.remove { DataEntry.init with data := [3, 0, 1] })]

theorem pageFreed_onePageFree : ∃ s s', smallStore.pageRun onePageFree = some s ∧
    s.freePage 0 = some (0, s') ∧ s.PageFreed s' (s.slabs 0).pageToFree := by
  have hcalls : (smallStore.pageRun onePageFree).any (fun s => 0 < s.slabsCount ∧
      2 ≤ (s.slabs 0).pagesNo ∧ 0 < (s.slabs 0).freePagesNo) = true := by decide +kernel
  obtain ⟨s, hrun, hrest⟩ := (Option.any_eq_true ..).mp hcalls
  obtain ⟨hcount, hmany, hfree⟩ := of_decide_eq_true hrest
  obtain ⟨s', hfreePage, hiff⟩ := pageFreed_run init_smallParam (by decide) hrun hcount hmany
  exact ⟨s, s', hrun, hfreePage, hiff.mpr (Or.inl hfree)⟩

/-- With two items of one area the page is emptied and stays; with three of three areas every
item is passed over. -/
theorem not_pageFreed : Store.init smallParam = some smallStore ∧
    ∀ ops ∈ [[putKey 3 1, putKey 3 2], [putKey 3 1, putKey 4 2, putKey 5 3]],
      (∀ op ∈ ops, op.Admissible) ∧ ∃ s s', smallStore.pageRun ops = some s ∧
        0 < s.slabsCount ∧ 2 ≤ (s.slabs 0).pagesNo ∧ s.freePage 0 = some (0, s') ∧
        ¬ s.PageFreed s' (s.slabs 0).pageToFree := by
  refine ⟨init_smallParam, fun ops hops => ⟨?_, ?_⟩⟩
  · revert ops
    decide
  · have hcalls : ∀ ops ∈ [[putKey 3 1, putKey 3 2], [putKey 3 1, putKey 4 2, putKey 5 3]],
        (smallStore.pageRun ops).any (fun s => 0 < s.slabsCount ∧ 2 ≤ (s.slabs 0).pagesNo ∧
          (s.freePage 0).any (fun r => r.1 = 0 ∧
            r.2.mem.pool.freePages = s.mem.pool.freePages) = true) = true := by decide +kernel
    obtain ⟨s, hrun, hrest⟩ := (Option.any_eq_true ..).mp (hcalls ops hops)
    obtain ⟨hcount, hmany, hfree⟩ := of_decide_eq_true hrest
    obtain ⟨⟨code, s'⟩, hfreePage, hrest'⟩ := (Option.any_eq_true ..).mp hfree
    obtain ⟨rfl, hsame⟩ : code = 0 ∧ s'.mem.pool.freePages = s.mem.pool.freePages :=
      of_decide_eq_true hrest'
    refine ⟨s, s', hrun, hcount, hmany, hfreePage, fun hfreed => ?_⟩
    have hgrown := hfreed.freePages_eq
    omega

end Store

end Mdb
