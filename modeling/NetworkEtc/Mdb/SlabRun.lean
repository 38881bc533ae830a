-- SUMMARY: A slab manager in use: its page accounts are right after every sequence of calls.
import Mathlib.Algebra.BigOperators.Group.Finset.Basic
import Mathlib.Algebra.BigOperators.Ring.Finset
import NetworkEtc.Mdb.PagePool
import NetworkEtc.Mdb.SlabBooks

/-!
# A slab manager in use

The users of a slab manager take items and give them back, write what they like into
the items they have, and leave the links of the lists and the place in the id alone.
Others use the same pool of pages.
-/

namespace Mdb

open Library

/-! # The accounts -/

/-- The page accounts of a slab manager that owns the pages `owned`, with the lists of
pages it keeps. -/
structure Accounted (s : Slab) (owned : Finset Nat) (lists : Shelf → List Nat) : Prop where
  linked : ∀ k, ∃ tail, DList (fun p => pagePtr (s.mem.page p).next)
    (fun p => pagePtr (s.mem.page p).prev) (pagePtr (s.mng.pageHead k)) tail (lists k)
  mem_iff : ∀ k p, p ∈ lists k ↔ p ∈ owned ∧ s.mng.shelfOf (s.mem.page p).freeNr = k
  freePagesNo_eq : s.mng.freePagesNo = (lists .free).length
  fullPagesNo_eq : s.mng.fullPagesNo = (lists .full).length
  partialPagesNo_eq : s.mng.partialPagesNo =
    ∑ b ∈ Finset.range s.mng.partialPagesBucketNum, ((lists (.bucket b)).length : Int)
  partialBucketCount_eq : s.mng.partialBucketCount =
    ((Finset.range s.mng.partialPagesBucketNum).filter fun b => lists (.bucket b) ≠ []).card
  first_least : ∀ b, lists (.bucket b) ≠ [] →
    lists (.bucket s.mng.firstPartialPageIndex) ≠ [] ∧ s.mng.firstPartialPageIndex ≤ b
  bucket_lt : ∀ b, lists (.bucket b) ≠ [] → b < s.mng.partialPagesBucketNum
  freeNr_le : ∀ p ∈ owned, (s.mem.page p).freeNr ≤ s.mng.perSlab
  free_list : ∀ p ∈ owned, ∃ l, Seg (freeNext s.mem) (s.mem.page p).freeHead.named l none ∧
    l.Nodup ∧ (∀ x ∈ l, s.mng.IsPlace p x) ∧ l.length = (s.mem.page p).freeNr

namespace Books

variable {s : Slab} {owned : Finset Nat} {free : Nat → List ItemId}

/-- A list of pages is as long as it has members. -/
theorem length_eq_card {l : List Nat} {P : Finset Nat} (hnodup : l.Nodup)
    (h : ∀ p, p ∈ l ↔ p ∈ P) : l.length = P.card := by
  have hP : l.toFinset = P := by
    apply Finset.ext
    intro p
    rw [List.mem_toFinset, h p]
  rw [← hP, List.toFinset_card_of_nodup hnodup]

theorem accounted (h : Books s owned free) : ∃ lists, Accounted s owned lists := by
  obtain ⟨tail, hshelves⟩ := h.filed.shelves
  choose lists hlist hmem using hshelves
  have hle := h.freeNr_le
  have hper := s.mng.perSlab_pos
  have hshelf_full : ∀ nr, s.mng.shelfOf nr = .full ↔ nr = 0 := by
    intro nr
    unfold SlabShape.shelfOf
    split_ifs <;> simp_all
  have hshelf_free : ∀ nr, s.mng.shelfOf nr = .free ↔ nr = s.mng.perSlab := by
    intro nr
    unfold SlabShape.shelfOf
    split_ifs <;> simp_all [hper.ne]
  have hshelf_bucket : ∀ nr, nr ≤ s.mng.perSlab → ∀ b, s.mng.shelfOf nr = .bucket b ↔
      (0 < nr ∧ nr < s.mng.perSlab) ∧ nr / PARTIAL_PAGE_BUCKET = b := by
    intro nr hnr b
    unfold SlabShape.shelfOf
    split_ifs with h0 h1
    · simp [h0]
    · simp [h1]
    · have hpos := Nat.pos_of_ne_zero h0
      have hlt := lt_of_le_of_ne hnr h1
      simp [hpos, hlt]
  have hbucket : ∀ b p, p ∈ lists (.bucket b) ↔ p ∈ owned ∧
      (0 < (s.mem.page p).freeNr ∧ (s.mem.page p).freeNr < s.mng.perSlab) ∧
        (s.mem.page p).freeNr / PARTIAL_PAGE_BUCKET = b := by
    intro b p
    rw [hmem]
    constructor
    · rintro ⟨hp, hk⟩
      exact ⟨hp, (hshelf_bucket _ (hle p hp) b).mp hk⟩
    · rintro ⟨hp, hk⟩
      exact ⟨hp, (hshelf_bucket _ (hle p hp) b).mpr hk⟩
  have hempty : ∀ b, lists (.bucket b) ≠ [] ↔ s.mng.partialPages b ≠ 0 := by
    intro b
    have hhead := (hlist (.bucket b)).head_eq
    change pagePtr (s.mng.partialPages b) = _ at hhead
    rw [Ne, Ne, ← pagePtr_eq_none, hhead, List.head?_eq_none_iff]
  have hlt : ∀ b, lists (.bucket b) ≠ [] → b < s.mng.partialPagesBucketNum := by
    intro b hb
    obtain ⟨p, hp⟩ := List.exists_mem_of_ne_nil _ hb
    obtain ⟨-, ⟨-, hlt⟩, rfl⟩ := (hbucket b p).mp hp
    exact SlabShape.bucket_lt hlt
  refine ⟨lists, fun k => ⟨tail k, hlist k⟩, hmem, ?_, ?_, ?_, ?_, fun b hb => ?_, hlt, hle,
    fun p hp => ?_⟩
  · rw [h.filed.free_eq, countPages, length_eq_card (hlist .free).nodup]
    intro p
    rw [hmem, hshelf_free, Finset.mem_filter]
  · rw [h.filed.full_eq, countPages, length_eq_card (hlist .full).nodup]
    intro p
    rw [hmem, hshelf_full, Finset.mem_filter]
  · rw [h.filed.partial_eq, Int.add_zero, countPages,
      Finset.card_eq_sum_card_fiberwise
        (f := fun p => (s.mem.page p).freeNr / PARTIAL_PAGE_BUCKET)
        (t := Finset.range s.mng.partialPagesBucketNum)]
    · rw [Nat.cast_sum]
      apply Finset.sum_congr rfl
      intro b _
      rw [length_eq_card (hlist (.bucket b)).nodup]
      intro p
      rw [hbucket, Finset.mem_filter, Finset.mem_filter]
      simp only [and_assoc]
    · intro p hp
      rw [Finset.mem_coe, Finset.mem_filter] at hp
      rw [Finset.mem_coe, Finset.mem_range]
      exact SlabShape.bucket_lt hp.2.2
  · rw [h.filed.marks.count_eq]
    simp only [hempty]
  · rw [hempty]
    exact h.filed.marks.least b (hlt b hb) ((hempty b).mp hb)
  · have hst := h.stock p hp
    exact ⟨free p, hst.chain, hst.nodup, hst.place, hst.freeNr_eq.symm⟩

end Books

/-! # Runs -/

/-- What can happen to a slab manager and the pool under it. -/
inductive SlabOp where
  | alloc (area : Nat)
  | free (a : Addr)
  | write (a : Addr) (it : MdbItem)
  | othersAlloc
  | othersFree (p : Nat)

/-- A slab manager, the pages it has from the pool, and the items it has handed out. -/
structure SlabUse where
  slab : Slab
  owned : Finset Nat
  live : Finset Addr

/-- The pages someone owns after a call that may have taken pages and given some back. -/
def ownedAfter (before after : MemPool) (owned : Finset Nat) : Finset Nat :=
  ((owned ∪ (Finset.range after.totalPages).filter fun p => before.pageBitmap p = false)).filter
    fun p => after.pageBitmap p = true

namespace SlabUse

/-- An initialised slab manager. -/
def init (mem : Memory) (g : SlabShape) : Option SlabUse := do
  let slab ← Slab.preAlloc ⟨mem, .blank g⟩
  some ⟨slab, ownedAfter mem.pool slab.mem.pool ∅, ∅⟩

def step (u : SlabUse) : SlabOp → Option SlabUse
  | .alloc area => do
    let (item, slab) ← u.slab.allocNewItem area
    let owned := ownedAfter u.slab.mem.pool slab.mem.pool u.owned
    match item with
    | none => some { u with slab, owned }
    | some a => some { slab, owned, live := insert a u.live }
  | .free a => do
    let slab ← u.slab.freeItem a
    let owned := ownedAfter u.slab.mem.pool slab.mem.pool u.owned
    some { slab, owned, live := u.live.erase a }
  | .write a it =>
    some { u with slab := { u.slab with mem := u.slab.mem.setItem a fun _ => it } }
  | .othersAlloc => do
    let (_, pool) ← u.slab.mem.pool.allocPage
    some { u with slab := { u.slab with mem := { u.slab.mem with pool } } }
  | .othersFree p => do
    let pool ← u.slab.mem.pool.freePage p
    some { u with slab := { u.slab with mem := { u.slab.mem with pool } } }

/-- What the users of the slab manager and of the pool keep to: an item that is given
back was handed out and has no flags set. -/
def Admissible (u : SlabUse) : SlabOp → Prop
  | .alloc area => area < TAIR_MAX_AREA_COUNT
  | .free a =>
    a ∈ u.live ∧ (u.slab.mem.item a).area < TAIR_MAX_AREA_COUNT ∧
      (u.slab.mem.item a).itemId.flags = 0
  | .write a it =>
    a ∈ u.live ∧ it.prev = (u.slab.mem.item a).prev ∧ it.next = (u.slab.mem.item a).next ∧
      it.itemId.clearFlags = (u.slab.mem.item a).itemId.clearFlags
  | .othersAlloc => True
  | .othersFree p => p ∉ u.owned ∧ u.slab.mem.pool.indexOk p = true

/-- The state after a sequence of steps. -/
def run (u : SlabUse) : List SlabOp → Option SlabUse
  | [] => some u
  | op :: ops => (u.step op).bind fun u' => run u' ops

/-- Every step of the run is admissible where it is made. -/
def AdmissibleRun (u : SlabUse) : List SlabOp → Prop
  | [] => True
  | op :: ops => u.Admissible op ∧ ∀ u', u.step op = some u' → AdmissibleRun u' ops

instance (u : SlabUse) (op : SlabOp) : Decidable (u.Admissible op) :=
  match op with
  | .alloc _ => inferInstanceAs (Decidable (_ < _))
  | .free _ => inferInstanceAs (Decidable (_ ∧ _))
  | .write .. => inferInstanceAs (Decidable (_ ∧ _))
  | .othersAlloc => inferInstanceAs (Decidable True)
  | .othersFree _ => inferInstanceAs (Decidable (_ ∧ _))

instance decidableAdmissibleRun : (u : SlabUse) → (ops : List SlabOp) →
    Decidable (u.AdmissibleRun ops)
  | _, [] => isTrue trivial
  | u, op :: ops =>
    match h : u.step op with
    | none => decidable_of_iff (u.Admissible op) (by simp [AdmissibleRun, h])
    | some u' =>
      have := decidableAdmissibleRun u' ops
      decidable_of_iff (u.Admissible op ∧ u'.AdmissibleRun ops) (by simp [AdmissibleRun, h])

end SlabUse

/-! # Every run keeps the books -/

/-- The pages of the slab are in order, and what is handed out is what is not free. -/
def SlabUse.Sound (u : SlabUse) : Prop :=
  ∃ free, Books u.slab u.owned free ∧
    ∀ a, a ∈ u.live ↔ ∃ p ∈ u.owned, ∃ x, u.slab.mng.IsPlace p x ∧ x ∉ free p ∧ x.addr = a

section

variable {before after : MemPool} {owned : Finset Nat} {p : Nat}

theorem ownedAfter_same (hused : ∀ q ∈ owned, before.pageBitmap q = true)
    (hbitmap : after.pageBitmap = before.pageBitmap) : ownedAfter before after owned = owned := by
  apply Finset.ext
  intro q
  unfold ownedAfter
  rw [Finset.mem_filter, Finset.mem_union, Finset.mem_filter, hbitmap]
  constructor
  · rintro ⟨hq | ⟨-, hclear⟩, hset⟩
    · exact hq
    · rw [hset] at hclear
      exact Bool.noConfusion hclear
  · intro hq
    exact ⟨Or.inl hq, hused q hq⟩

theorem ownedAfter_take (hused : ∀ q ∈ owned, before.pageBitmap q = true)
    (hbitmap : after.pageBitmap = Function.update before.pageBitmap p true)
    (hp : p < after.totalPages) (hfresh : p ∉ owned → before.pageBitmap p = false) :
    ownedAfter before after owned = insert p owned := by
  apply Finset.ext
  intro q
  unfold ownedAfter
  rw [Finset.mem_filter, Finset.mem_union, Finset.mem_filter, Finset.mem_range, Finset.mem_insert,
    hbitmap]
  rcases eq_or_ne q p with rfl | hq
  · simp only [Function.update_self, and_true, true_or, iff_true]
    by_cases hmem : q ∈ owned
    · exact Or.inl hmem
    · exact Or.inr ⟨hp, hfresh hmem⟩
  · rw [Function.update_of_ne hq]
    constructor
    · rintro ⟨hmem | ⟨-, hclear⟩, hset⟩
      · exact Or.inr hmem
      · rw [hset] at hclear
        exact Bool.noConfusion hclear
    · rintro (heq | hmem)
      · exact absurd heq hq
      · exact ⟨Or.inl hmem, hused q hmem⟩

theorem ownedAfter_give (hused : ∀ q ∈ owned, before.pageBitmap q = true)
    (hbitmap : after.pageBitmap = Function.update before.pageBitmap p false) :
    ownedAfter before after owned = owned.erase p := by
  apply Finset.ext
  intro q
  unfold ownedAfter
  rw [Finset.mem_filter, Finset.mem_union, Finset.mem_filter, Finset.mem_erase, hbitmap]
  rcases eq_or_ne q p with rfl | hq
  · simp
  · rw [Function.update_of_ne hq]
    constructor
    · rintro ⟨hmem | ⟨-, hclear⟩, hset⟩
      · exact ⟨hq, hmem⟩
      · rw [hset] at hclear
        exact Bool.noConfusion hclear
    · rintro ⟨-, hmem⟩
      exact ⟨Or.inl hmem, hused q hmem⟩

end

namespace Books

variable {s : Slab} {owned : Finset Nat} {free : Nat → List ItemId} {p : Nat} {x : ItemId}

theorem used (h : Books s owned free) : ∀ q ∈ owned, s.mem.pool.pageBitmap q = true :=
  fun q hq => (h.stock q hq).used

/-- The pool may change under the slab as long as its pages stay its own. -/
theorem poolChange (h : Books s owned free) {pool : MemPool} (hsound : pool.Sound)
    (htotal : pool.totalPages = s.mem.pool.totalPages)
    (hbit : ∀ q ∈ owned, pool.pageBitmap q = true) :
    Books { s with mem := { s.mem with pool } } owned free := by
  refine ⟨hsound, fun q hq => ?_, h.filed.congr fun q _ => .of_eq rfl⟩
  apply (h.stock q hq).congr htotal
  · rw [h.used q hq]
    exact hbit q hq
  all_goals simp

/-- An item that is not free may be written, except for the place in its id. -/
theorem writeItem (h : Books s owned free) (hp : p ∈ owned) (hx : s.mng.IsPlace p x)
    (hxl : x ∉ free p) {f : MdbItem → MdbItem}
    (hid : (f (s.mem.item x.addr)).itemId.clearFlags =
      (s.mem.item x.addr).itemId.clearFlags) :
    Books { s with mem := s.mem.setItem x.addr f } owned free := by
  refine ⟨h.pool, fun q hq => ?_, h.filed.congr fun q _ => .of_eq rfl⟩
  have hst := h.stock q hq
  have hne : ∀ y ∈ free q, y.addr ≠ x.addr := by
    intro y hy haddr
    have hyq := hst.place y hy
    obtain rfl := hyq.eq_of_addr hx hst.lt (h.stock p hp).lt haddr
    obtain rfl : q = p := by rw [← hyq.page hst.lt, ← hx.page (h.stock p hp).lt]
    exact hxl hy
  refine hst.congr rfl rfl rfl rfl rfl (fun y hy => ?_) (fun y hy => ?_) (fun y _ => ?_)
  · simp only [Memory.item_setItem_ne (hne y hy)]
  · simp only [Memory.item_setItem_ne (hne y hy)]
  · simp only [Memory.item_setItem]
    split
    · next heq => rw [hid, heq]
    · rfl

/-- A page that has been set up and not filed yet is filed as a free one. -/
theorem preAlloc {mem : Memory} {g : SlabShape} (hpool : mem.pool.Sound) :
    ∃ s owned free, Slab.preAlloc ⟨mem, .blank g⟩ = some s ∧ Books s owned free ∧
      s.mem.pool.totalPages = mem.pool.totalPages ∧
      (∀ p ∈ owned, ∀ x, s.mng.IsPlace p x → x ∈ free p) ∧
      ((owned = ∅ ∧ mem.pool.freePages = 0 ∧ s = ⟨mem, .blank g⟩) ∨
        ∃ p, owned = {p} ∧ p < mem.pool.totalPages ∧ mem.pool.pageBitmap p = false ∧
          s.mem.pool.pageBitmap = Function.update mem.pool.pageBitmap p true ∧
          mem.Outside {p} s.mem ∧ (SlabManager.blank g).SameItems s.mng ∧
          s.mng.freePagesNo = 1) := by
  have hblank : ∀ m, Filed (.blank g) m ∅ 0 := by
    intro m
    refine ⟨⟨fun _ => none, Shelved.empty (fun k => ?_) (fun _ => rfl) (by simp)⟩, rfl, rfl, rfl,
      Marks.empty⟩
    cases k <;> rfl
  unfold Slab.preAlloc
  rcases hpool.allocPage with ⟨halloc, hzero⟩ | ⟨p, pool', halloc, hsound, htotal, hpos, hlt,
    hclear, hbitmap⟩
  · rw [halloc]
    exact ⟨_, ∅, fun _ => [], rfl, ⟨hpool, by simp, hblank mem⟩, rfl, by simp,
      Or.inl ⟨rfl, hzero, rfl⟩⟩
  · rw [halloc]
    simp only [Option.bind_eq_bind, Option.bind_some]
    have hst : Stock g (g.initPage { mem with pool := pool' } p) p (g.places p) := by
      apply Stock.initPage
      · rw [MemPool.indexOk_iff]
        exact ⟨hpos, htotal ▸ hlt⟩
      · change pool'.pageBitmap p = true
        rw [hbitmap, Function.update_self]
    have hheaded : Headed (g.initPage { mem with pool := pool' } p) (insert p ∅) := by
      refine ⟨fun q hq => ?_, fun q hq => ?_⟩
      · obtain rfl : q = p := by simpa using hq
        exact hst.indexOk
      · obtain rfl : q = p := by simpa using hq
        exact hst.id_eq
    obtain ⟨mem', hlink, hrel, hout, hfiled⟩ :=
      Filed.linkFree (s := ⟨g.initPage { mem with pool := pool' } p, .blank g⟩) (hblank _)
        (Finset.notMem_empty p) hheaded (by simp [SlabManager.blank])
    have houtp : mem.Outside {p} (g.initPage { mem with pool := pool' } p) :=
      ⟨fun q hq => SlabShape.page_initPage_ne (by simpa using hq),
        fun a ha => SlabShape.item_initPage_ne (by simpa using ha)⟩
    change linkPage _ p (SlabManager.blank g).freePages = _ at hlink
    rw [show (SlabManager.blank g).toSlabShape = g from rfl, hlink]
    refine ⟨_, {p}, Function.update (fun _ => []) p (g.places p), rfl,
      ⟨hrel.pool_eq ▸ hsound, fun q hq => ?_, ?_⟩, ?_, fun q hq x hx => ?_,
      Or.inr ⟨p, rfl, hlt, hclear, ?_, ?_, ⟨rfl, rfl, rfl, rfl, rfl⟩, rfl⟩⟩
    · obtain rfl : q = p := by simpa using hq
      rw [Function.update_self]
      exact hst.relinked hrel
    · exact ⟨hfiled.shelves, hfiled.full_eq, hfiled.free_eq, hfiled.partial_eq, hfiled.marks⟩
    · rw [hrel.pool_eq]
      exact htotal
    · obtain rfl : q = p := by simpa using hq
      rw [Function.update_self]
      exact SlabShape.mem_places.mpr hx
    · rw [hrel.pool_eq]
      exact hbitmap
    · exact houtp.trans hout

end Books

section

variable {s s' : Slab} {owned owned' : Finset Nat} {free : Nat → List ItemId} {p : Nat}
  {x : ItemId} {l : List ItemId}

/-- The items in use after one more has been taken. -/
theorem Charged.inUse (hcharged : Charged s s' owned free p x l) (y : ItemId) :
    (∃ q ∈ insert p owned, s.mng.IsPlace q y ∧ y ∉ Function.update free p l q) ↔
      y = x ∨ ∃ q ∈ owned, s.mng.IsPlace q y ∧ y ∉ free q := by
  constructor
  · rintro ⟨q, hq, hy, hyl⟩
    rcases eq_or_ne q p with rfl | hqp
    · rw [Function.update_self] at hyl
      rcases eq_or_ne y x with rfl | hyx
      · exact Or.inl rfl
      · by_cases hmem : q ∈ owned
        · refine Or.inr ⟨q, hmem, hy, ?_⟩
          rw [hcharged.old hmem, List.mem_cons, not_or]
          exact ⟨hyx, hyl⟩
        · -- of a new page every other item is free
          have hplace := SlabShape.mem_places.mpr hy
          rw [← hcharged.new hmem, List.mem_cons] at hplace
          exact absurd (hplace.resolve_left hyx) hyl
    · rw [Function.update_of_ne hqp] at hyl
      exact Or.inr ⟨q, Finset.mem_of_mem_insert_of_ne hq hqp, hy, hyl⟩
  · rintro (rfl | ⟨q, hq, hy, hyl⟩)
    · refine ⟨p, Finset.mem_insert_self p owned, hcharged.place, ?_⟩
      rw [Function.update_self]
      exact hcharged.notMem
    · refine ⟨q, Finset.mem_insert_of_mem hq, hy, ?_⟩
      rcases eq_or_ne q p with rfl | hqp
      · rw [Function.update_self]
        rw [hcharged.old hq] at hyl
        exact fun hmem => hyl (List.mem_cons_of_mem x hmem)
      · rwa [Function.update_of_ne hqp]

/-- The items in use after one has been given back. -/
theorem Freed.inUse (hfreed : Freed s s' owned owned' free p x) (h : Books s owned free)
    (hp : p ∈ owned) (hx : s.mng.IsPlace p x) (hxl : x ∉ free p) (y : ItemId) :
    (∃ q ∈ owned', s.mng.IsPlace q y ∧ y ∉ Function.update free p (x :: free p) q) ↔
      (∃ q ∈ owned, s.mng.IsPlace q y ∧ y ∉ free q) ∧ y ≠ x := by
  have hsub : owned' ⊆ owned := by
    rcases hfreed.owned_eq with ⟨rfl, -⟩ | ⟨rfl, -⟩
    · exact Finset.Subset.refl _
    · exact Finset.erase_subset p owned
  constructor
  · rintro ⟨q, hq, hy, hyl⟩
    have hq' := hsub hq
    rcases eq_or_ne q p with rfl | hqp
    · rw [Function.update_self, List.mem_cons, not_or] at hyl
      exact ⟨⟨q, hq', hy, hyl.2⟩, hyl.1⟩
    · rw [Function.update_of_ne hqp] at hyl
      refine ⟨⟨q, hq', hy, hyl⟩, ?_⟩
      rintro rfl
      exact hqp (by rw [← hy.page (h.stock q hq').lt, hx.page (h.stock p hp).lt])
  · rintro ⟨⟨q, hq, hy, hyl⟩, hyx⟩
    have hyl' : y ∉ Function.update free p (x :: free p) q := by
      rcases eq_or_ne q p with rfl | hqp
      · rw [Function.update_self, List.mem_cons, not_or]
        exact ⟨hyx, hyl⟩
      · rwa [Function.update_of_ne hqp]
    refine ⟨q, ?_, hy, hyl'⟩
    rcases hfreed.owned_eq with ⟨rfl, -⟩ | ⟨rfl, -, hlen, -⟩
    · exact hq
    · refine Finset.mem_erase.mpr ⟨?_, hq⟩
      -- a page that goes back has no item in use
      rintro rfl
      rw [Function.update_self] at hyl'
      apply hyl'
      apply SlabShape.mem_of_length_eq _ _ hlen hy
      · exact List.nodup_cons.mpr ⟨hxl, (h.stock q hq).nodup⟩
      · intro z hz
        rcases List.mem_cons.mp hz with rfl | hz
        · exact hx
        · exact (h.stock q hq).place z hz

end

namespace SlabUse

variable {u u' : SlabUse} {op : SlabOp}

/-- The addresses in use, as those of the items that are not free. -/
theorem live_iff {g : SlabShape} {owned : Finset Nat} {free : Nat → List ItemId} {a : Addr} :
    (∃ q ∈ owned, ∃ y, g.IsPlace q y ∧ y ∉ free q ∧ y.addr = a) ↔
      ∃ y, (∃ q ∈ owned, g.IsPlace q y ∧ y ∉ free q) ∧ y.addr = a := by
  constructor
  · rintro ⟨q, hq, y, hy, hyl, rfl⟩
    exact ⟨y, ⟨q, hq, hy, hyl⟩, rfl⟩
  · rintro ⟨y, ⟨q, hq, hy, hyl⟩, rfl⟩
    exact ⟨q, hq, y, hy, hyl, rfl⟩

theorem live_charged {s s' : Slab} {owned : Finset Nat} {free : Nat → List ItemId} {p : Nat}
    {x : ItemId} {l : List ItemId} {live : Finset Addr}
    (hcharged : Charged s s' owned free p x l)
    (hlive : ∀ a, a ∈ live ↔ ∃ q ∈ owned, ∃ y, s.mng.IsPlace q y ∧ y ∉ free q ∧ y.addr = a)
    (a : Addr) : a ∈ insert x.addr live ↔ ∃ q ∈ insert p owned, ∃ y, s.mng.IsPlace q y ∧
      y ∉ Function.update free p l q ∧ y.addr = a := by
  rw [Finset.mem_insert, hlive, live_iff, live_iff]
  simp only [hcharged.inUse]
  constructor
  · rintro (rfl | ⟨y, hy, rfl⟩)
    · exact ⟨x, Or.inl rfl, rfl⟩
    · exact ⟨y, Or.inr hy, rfl⟩
  · rintro ⟨y, rfl | hy, rfl⟩
    · exact Or.inl rfl
    · exact Or.inr ⟨y, hy, rfl⟩

theorem live_freed {s s' : Slab} {owned owned' : Finset Nat} {free : Nat → List ItemId} {p : Nat}
    {x : ItemId} {live : Finset Addr} (h : Books s owned free) (hp : p ∈ owned)
    (hx : s.mng.IsPlace p x) (hxl : x ∉ free p) (hfreed : Freed s s' owned owned' free p x)
    (hlive : ∀ a, a ∈ live ↔ ∃ q ∈ owned, ∃ y, s.mng.IsPlace q y ∧ y ∉ free q ∧ y.addr = a)
    (a : Addr) : a ∈ live.erase x.addr ↔ ∃ q ∈ owned', ∃ y, s.mng.IsPlace q y ∧
      y ∉ Function.update free p (x :: free p) q ∧ y.addr = a := by
  rw [Finset.mem_erase, hlive, live_iff, live_iff]
  simp only [hfreed.inUse h hp hx hxl]
  constructor
  · rintro ⟨hne, y, hy, rfl⟩
    refine ⟨y, ⟨hy, ?_⟩, rfl⟩
    rintro rfl
    exact hne rfl
  · rintro ⟨y, ⟨⟨q, hq, hy, hyl⟩, hyx⟩, rfl⟩
    refine ⟨fun heq => hyx ?_, y, ⟨q, hq, hy, hyl⟩, rfl⟩
    exact hy.eq_of_addr hx (h.stock q hq).lt (h.stock p hp).lt heq

/-- What one step does. -/
theorem Sound.step (h : u.Sound) (hop : u.Admissible op) :
    ∃ u', u.step op = some u' ∧ u'.Sound := by
  obtain ⟨free, hbooks, hlive⟩ := h
  cases op with
  | alloc area =>
    simp only [SlabUse.step]
    rcases hbooks.allocNewItem hop with ⟨halloc, -⟩ | ⟨p, x, l, s₁, s₂, hcharged, hlink, halloc⟩
    · rw [halloc]
      refine ⟨_, rfl, free, ?_⟩
      simp only [ownedAfter_same hbooks.used rfl]
      exact ⟨hbooks, hlive⟩
    · rw [halloc]
      simp only [Option.bind_eq_bind, Option.bind_some]
      obtain ⟨s₂', hlink', hrel, -⟩ :=
        linkItem_spec (by rw [hcharged.item_id]; exact hcharged.place.ne_zero) hop
      obtain rfl : s₂ = s₂' := by
        rw [hlink] at hlink'
        exact Option.some.inj hlink'
      have hsame := samePages_linkItem hlink
      have hbooks₂ := hcharged.books.relink hrel hsame
      have hp_lt : p < s₂.mem.pool.totalPages :=
        (MemPool.indexOk_iff.mp (hbooks₂.stock p (Finset.mem_insert_self p _)).indexOk).2
      have howned := ownedAfter_take hbooks.used (hrel.pool_eq ▸ hcharged.bitmap) hp_lt
        hcharged.fresh
      have hshape : s₂.mng.toSlabShape = u.slab.mng.toSlabShape := by
        rw [hsame.shape_eq, hcharged.same.shape_eq]
      refine ⟨_, rfl, Function.update free p l, ?_, fun a => ?_⟩
      · simp only [howned]
        exact hbooks₂
      · simp only [howned, hshape]
        exact live_charged hcharged hlive a
  | free a =>
    obtain ⟨ha, harea, hflags⟩ := hop
    obtain ⟨p, hp, x, hx, hxl, rfl⟩ := (hlive a).mp ha
    have hst := hbooks.stock p hp
    have hid : (u.slab.mem.item x.addr).itemId = x := by
      have hclear := hst.item_id x hx
      unfold ItemId.clearFlags at hclear
      rw [← hflags] at hclear
      exact hclear
    obtain ⟨s₁, hunlink, hrel, -⟩ := unlinkItem_spec (by rw [hid]; exact hx.ne_zero) harea
    obtain ⟨s', owned', hfree, hfreed⟩ := hbooks.freeItem hp hx hxl hid hunlink hrel
    have hsame := samePages_unlinkItem hunlink
    have hbooks₁ := hbooks.relink hrel hsame
    have howned : ownedAfter u.slab.mem.pool s'.mem.pool u.owned = owned' := by
      rcases hfreed.owned_eq with ⟨rfl, hbitmap, -⟩ | ⟨rfl, -, -, hbitmap⟩
      · exact ownedAfter_same hbooks.used (by rw [hbitmap, hrel.pool_eq])
      · exact ownedAfter_give hbooks.used (by rw [hbitmap, hrel.pool_eq])
    have hshape : s'.mng.toSlabShape = s₁.mng.toSlabShape := hfreed.same.shape_eq
    simp only [SlabUse.step]
    rw [hfree]
    refine ⟨_, rfl, Function.update free p (x :: free p), ?_, fun a => ?_⟩
    · simp only [howned]
      exact hfreed.books
    · simp only [howned, hshape]
      rw [← hsame.shape_eq] at hx hlive
      exact live_freed hbooks₁ hp hx hxl hfreed hlive a
  | write a it =>
    obtain ⟨ha, -, -, hid⟩ := hop
    obtain ⟨p, hp, x, hx, hxl, rfl⟩ := (hlive a).mp ha
    exact ⟨_, rfl, free, hbooks.writeItem hp hx hxl hid, hlive⟩
  | othersAlloc =>
    simp only [SlabUse.step]
    rcases hbooks.pool.allocPage with ⟨halloc, -⟩ | ⟨index, pool', halloc, hsound, htotal, -, -,
      hclear, hbitmap⟩
    · rw [halloc]
      exact ⟨_, rfl, free, hbooks, hlive⟩
    · rw [halloc]
      refine ⟨_, rfl, free, hbooks.poolChange hsound htotal fun q hq => ?_, hlive⟩
      rw [hbitmap, Function.update_of_ne, hbooks.used q hq]
      rintro rfl
      rw [hbooks.used q hq] at hclear
      exact Bool.noConfusion hclear
  | othersFree p =>
    obtain ⟨hp, hok⟩ := hop
    simp only [SlabUse.step]
    obtain ⟨pool', hfree⟩ : ∃ pool', u.slab.mem.pool.freePage p = some pool' := by
      unfold MemPool.freePage
      rw [if_pos hok]
      split
      · exact ⟨_, rfl⟩
      · exact ⟨_, rfl⟩
    obtain ⟨hsound, htotal, hbitmap⟩ := hbooks.pool.freePage_cases hfree
    rw [hfree]
    refine ⟨_, rfl, free, hbooks.poolChange hsound htotal fun q hq => ?_, hlive⟩
    rw [hbitmap, Function.update_of_ne, hbooks.used q hq]
    rintro rfl
    exact hp hq

/-- What a run does. -/
theorem Sound.run {ops : List SlabOp} (h : u.Sound) (hops : u.AdmissibleRun ops) :
    ∃ u', u.run ops = some u' ∧ u'.Sound := by
  induction ops generalizing u with
  | nil => exact ⟨u, rfl, h⟩
  | cons op ops ih =>
    obtain ⟨u₁, hstep, h₁⟩ := h.step hops.1
    obtain ⟨u', hrun, hu'⟩ := ih h₁ (hops.2 u₁ hstep)
    refine ⟨u', ?_, hu'⟩
    rw [SlabUse.run, hstep]
    exact hrun

theorem sound_init {mem : Memory} {g : SlabShape} (hpool : mem.pool.Sound) :
    ∃ u, SlabUse.init mem g = some u ∧ u.Sound := by
  obtain ⟨s, owned, free, hpre, hbooks, htotal, hfree, hcases⟩ := Books.preAlloc (g := g) hpool
  have howned : ownedAfter mem.pool s.mem.pool ∅ = owned := by
    rcases hcases with ⟨rfl, -, rfl⟩ | ⟨p, rfl, hlt, hclear, hbitmap, -⟩
    · exact ownedAfter_same (by simp) rfl
    · exact ownedAfter_take (by simp) hbitmap (htotal ▸ hlt) fun _ => hclear
  unfold SlabUse.init
  rw [hpre]
  refine ⟨_, rfl, free, ?_, fun a => ?_⟩
  · simp only [howned]
    exact hbooks
  · simp only [howned, Finset.notMem_empty, false_iff]
    rintro ⟨p, hp, x, hx, hxl, -⟩
    exact hxl (hfree p hp x hx)

/-- Page accounting of a slab manager: whatever its users and the other users of the
pool do, no call fails, and the page lists, the counters, the bucket index and the free
lists agree with the pages the slab owns. -/
theorem accounted_run (mem : Memory) (g : SlabShape) (hpool : mem.pool.Reachable) :
    ∃ u, SlabUse.init mem g = some u ∧ ∀ ops, u.AdmissibleRun ops →
      ∃ u', u.run ops = some u' ∧ ∃ lists, Accounted u'.slab u'.owned lists := by
  obtain ⟨u, hinit, hu⟩ := sound_init (g := g) hpool.sound
  refine ⟨u, hinit, fun ops hops => ?_⟩
  obtain ⟨u', hrun, free, hbooks, -⟩ := hu.run hops
  exact ⟨u', hrun, hbooks.accounted⟩

/-- A slab of one item a page. -/
def oneItem : SlabShape where
  slabId := 0
  slabSize := pageArea
  slabId_lt := by decide
  header_le := by decide
  slabSize_le := le_rfl

/-- Zeroed memory of four pages, the first for the meta data. -/
def fourPages : Memory where
  pool := .init 4 1 (by decide)
  page := fun _ => ⟨0, 0, 0, 0, 0⟩
  item := fun _ => .zeroed

/-- Two items are taken, the first is written and given back. -/
def twoItems : List SlabOp :=
  [.alloc 3,
    .write (1, 0) { MdbItem.zeroed with itemId := oneItem.itemIdAt 1 0, data := [3, 0, 7] },
    .othersAlloc, .alloc 5, .free (1, 0)]

theorem accounted_twoItems : ∃ u, SlabUse.init fourPages oneItem = some u ∧
    ∃ u', u.run twoItems = some u' ∧ ∃ lists, Accounted u'.slab u'.owned lists := by
  have hops : ∀ u ∈ SlabUse.init fourPages oneItem, u.AdmissibleRun twoItems := by decide +kernel
  obtain ⟨u, hinit, hrun⟩ :=
    accounted_run fourPages oneItem (.init (by decide) (by decide) (by decide))
  exact ⟨u, hinit, hrun twoItems (hops u hinit)⟩

end SlabUse

end Mdb
