-- SUMMARY: The page pool in use: its books, its cursor and its bitmap over every sequence of calls.
import NetworkEtc.Mdb.Memory

/-!
# The page pool in use

What the pool hands out is free until then, and is not handed out again before it has
been given back, be it given back once or twice.
-/

namespace Mdb

/-! # Pools -/

/-- `mem_pool_impl::initialize`: the first `metaPages` pages are the meta data's. -/
def MemPool.init (totalPages metaPages : Nat) (h : totalPages ≤ MAX_PAGES_NO) : MemPool where
  totalPages
  freePages := totalPages - metaPages
  currentPage := metaPages
  pageBitmap := fun p => p < metaPages
  totalPages_le := h

/-- The pools that can come about. -/
inductive MemPool.Reachable : MemPool → Prop
  | init {totalPages metaPages : Nat} (h : totalPages ≤ MAX_PAGES_NO)
      (hmeta : 0 < metaPages) (hfree : metaPages < totalPages) :
      Reachable (MemPool.init totalPages metaPages h)
  | allocPage {pool pool' : MemPool} {page : Option Nat} (hpool : Reachable pool)
      (halloc : pool.allocPage = some (page, pool')) : Reachable pool'
  | freePage {pool pool' : MemPool} {p : Nat} (hpool : Reachable pool)
      (hfree : pool.freePage p = some pool') : Reachable pool'

namespace MemPool

theorem sound_init {totalPages metaPages : Nat} (h : totalPages ≤ MAX_PAGES_NO)
    (hmeta : 0 < metaPages) (hfree : metaPages < totalPages) :
    (MemPool.init totalPages metaPages h).Sound := by
  refine ⟨?_, hfree.le, by simpa [MemPool.init] using hmeta⟩
  have hclear : (MemPool.init totalPages metaPages h).clear =
      Finset.range totalPages \ Finset.range metaPages := by
    apply Finset.ext
    intro p
    simp [MemPool.mem_clear, MemPool.init]
  rw [hclear, Finset.card_sdiff_of_subset (Finset.range_mono hfree.le), Finset.card_range,
    Finset.card_range]
  rfl

/-- What `free_page` does, whoever calls it. -/
theorem Sound.freePage_cases {pool pool' : MemPool} {p : Nat} (h : pool.Sound)
    (hfree : pool.freePage p = some pool') : pool'.Sound ∧ pool'.totalPages = pool.totalPages ∧
      pool'.pageBitmap = Function.update pool.pageBitmap p false := by
  unfold MemPool.freePage at hfree
  split at hfree
  · next hok =>
    rw [indexOk_iff] at hok
    cases hused : pool.pageBitmap p with
    | true =>
      obtain ⟨pool'', heq, hsound, htotal, hbitmap⟩ := h.freePage hok.1 hok.2 hused
      unfold MemPool.freePage at heq
      rw [if_pos (indexOk_iff.mpr hok)] at heq
      rw [heq] at hfree
      cases hfree
      exact ⟨hsound, htotal, hbitmap⟩
    | false =>
      rw [hused, if_neg (by simp)] at hfree
      cases hfree
      exact ⟨h, rfl, (Function.update_eq_self_iff.mpr hused.symm).symm⟩
  · exact absurd hfree (by simp)

theorem Reachable.sound {pool : MemPool} (h : pool.Reachable) : pool.Sound := by
  induction h with
  | init h hmeta hfree => exact sound_init h hmeta hfree
  | allocPage _ halloc ih =>
    rcases ih.allocPage with ⟨heq, -⟩ | ⟨_, _, heq, hsound, -⟩
    · rw [heq] at halloc
      cases halloc
      exact ih
    · rw [heq] at halloc
      cases halloc
      exact hsound
  | freePage _ hfree ih => exact (ih.freePage_cases hfree).1

end MemPool

/-! # Pools in use -/

/-- What the users of a pool do. A page is given back by its number, or by an address
in it. -/
inductive PoolOp
  | alloc
  | free (index : Nat)
  | freeAt (offset : Nat)

/-- A pool with the pages that were handed out and not given back since. -/
structure PoolUse where
  pool : MemPool
  held : Finset Nat

namespace MemPool

/-- `page_to_index`, for an address `offset` bytes behind the start of the pool. -/
def pageToIndex (size offset : Nat) : Nat := offset / size

/-- The page an operation gives back. -/
def freed (size : Nat) : PoolOp → Option Nat
  | .alloc => none
  | .free index => some index
  | .freeAt offset => some (pageToIndex size offset)

end MemPool

namespace PoolUse

/-- One call. -/
def step (size : Nat) (u : PoolUse) (op : PoolOp) : Option PoolUse :=
  match MemPool.freed size op with
  | some index => do
    let pool ← u.pool.freePage index
    some ⟨pool, u.held.erase index⟩
  | none => do
    let (page, pool) ← u.pool.allocPage
    match page with
    | none => some ⟨pool, u.held⟩
    | some index => some ⟨pool, insert index u.held⟩

def run (size : Nat) (u : PoolUse) : List PoolOp → Option PoolUse
  | [] => some u
  | op :: ops => (u.step size op).bind fun u => run size u ops

/-- Only pages are given back that are none of the meta data's. -/
def Admissible (size metaPages totalPages : Nat) (op : PoolOp) : Prop :=
  ∀ index ∈ MemPool.freed size op, metaPages ≤ index ∧ index < totalPages

instance decidableAdmissible (size metaPages totalPages : Nat) (op : PoolOp) :
    Decidable (Admissible size metaPages totalPages op) :=
  inferInstanceAs (Decidable (∀ index ∈ MemPool.freed size op,
    metaPages ≤ index ∧ index < totalPages))

/-- What holds of a pool whose first `metaPages` pages are the meta data's. -/
structure Sound (metaPages : Nat) (u : PoolUse) : Prop where
  pool : u.pool.Sound
  metaPages_pos : 0 < metaPages
  meta_set : ∀ p < metaPages, u.pool.pageBitmap p = true
  held_set : ∀ p ∈ u.held, u.pool.pageBitmap p = true

variable {u : PoolUse} {metaPages size : Nat} {op : PoolOp}

/-- What a call of `alloc_page` does in a sound pool. -/
theorem Sound.alloc (h : u.Sound metaPages) :
    (u.pool.allocPage = some (none, u.pool) ∧ u.pool.clear = ∅) ∨
    ∃ index pool', u.pool.allocPage = some (some index, pool') ∧
      pool'.totalPages = u.pool.totalPages ∧ metaPages ≤ index ∧ index ∈ u.pool.clear ∧
      index ∉ u.held ∧ Sound metaPages ⟨pool', insert index u.held⟩ := by
  rcases h.pool.allocPage with ⟨halloc, hfree⟩ | ⟨index, pool', halloc, hsound, htotal, -, hlt,
    hclear, hbitmap⟩
  · left
    refine ⟨halloc, Finset.card_eq_zero.mp ?_⟩
    rw [← h.pool.freePages_eq, hfree]
  · right
    have hset : ∀ p, u.pool.pageBitmap p = true → p ≠ index := by
      rintro p hp rfl
      rw [hp] at hclear
      exact Bool.noConfusion hclear
    have hkept : ∀ p, u.pool.pageBitmap p = true → pool'.pageBitmap p = true := by
      intro p hp
      rw [hbitmap, Function.update_of_ne (hset p hp), hp]
    refine ⟨index, pool', halloc, htotal, ?_, MemPool.mem_clear.mpr ⟨hlt, hclear⟩, ?_, ?_⟩
    · apply Nat.le_of_not_lt
      intro hmeta
      exact hset index (h.meta_set index hmeta) rfl
    · intro hheld
      exact hset index (h.held_set index hheld) rfl
    · refine ⟨hsound, h.metaPages_pos, fun p hp => hkept p (h.meta_set p hp), fun p hp => ?_⟩
      rcases Finset.mem_insert.mp hp with rfl | hp
      · change pool'.pageBitmap p = true
        rw [hbitmap, Function.update_self]
      · exact hkept p (h.held_set p hp)

/-- What giving a page back does, whether it was in use or not. -/
theorem Sound.free (h : u.Sound metaPages) {index : Nat} (hmeta : metaPages ≤ index)
    (hlt : index < u.pool.totalPages) :
    ∃ pool', u.pool.freePage index = some pool' ∧ pool'.totalPages = u.pool.totalPages ∧
      Sound metaPages ⟨pool', u.held.erase index⟩ := by
  have hok := MemPool.indexOk_iff.mpr ⟨h.metaPages_pos.trans_le hmeta, hlt⟩
  obtain ⟨pool', hfree⟩ : ∃ pool', u.pool.freePage index = some pool' := by
    unfold MemPool.freePage
    rw [if_pos hok]
    split
    · exact ⟨_, rfl⟩
    · exact ⟨_, rfl⟩
  obtain ⟨hsound, htotal, hbitmap⟩ := h.pool.freePage_cases hfree
  refine ⟨pool', hfree, htotal, hsound, h.metaPages_pos, fun p hp => ?_, fun p hp => ?_⟩
  · change pool'.pageBitmap p = true
    rw [hbitmap, Function.update_of_ne (by omega)]
    exact h.meta_set p hp
  · obtain ⟨hne, hheld⟩ := Finset.mem_erase.mp hp
    change pool'.pageBitmap p = true
    rw [hbitmap, Function.update_of_ne hne]
    exact h.held_set p hheld

/-- What one call does. -/
theorem Sound.step (h : u.Sound metaPages)
    (hop : Admissible size metaPages u.pool.totalPages op) :
    ∃ u', u.step size op = some u' ∧ u'.pool.totalPages = u.pool.totalPages ∧
      u'.Sound metaPages := by
  unfold PoolUse.step
  cases hfreed : MemPool.freed size op with
  | some index =>
    obtain ⟨hmeta, hlt⟩ := hop index hfreed
    obtain ⟨pool', hfree, htotal, hsound⟩ := h.free hmeta hlt
    simp only [hfree]
    exact ⟨_, rfl, htotal, hsound⟩
  | none =>
    rcases h.alloc with ⟨halloc, -⟩ | ⟨index, pool', halloc, htotal, -, -, -, hsound⟩
    · simp only [halloc]
      exact ⟨_, rfl, rfl, h⟩
    · simp only [halloc]
      exact ⟨_, rfl, htotal, hsound⟩

/-- What a sequence of calls does. -/
theorem Sound.run {ops : List PoolOp} (h : u.Sound metaPages)
    (hops : ∀ op ∈ ops, Admissible size metaPages u.pool.totalPages op) :
    ∃ u', u.run size ops = some u' ∧ u'.pool.totalPages = u.pool.totalPages ∧
      u'.Sound metaPages := by
  induction ops generalizing u with
  | nil => exact ⟨u, rfl, rfl, h⟩
  | cons op ops ih =>
    obtain ⟨u₁, hstep, htotal, h₁⟩ := h.step (hops op List.mem_cons_self)
    obtain ⟨u', hrun, htotal', hu'⟩ := ih h₁ fun op' hop' => by
      rw [htotal]
      exact hops op' (List.mem_cons_of_mem op hop')
    refine ⟨u', ?_, htotal'.trans htotal, hu'⟩
    unfold PoolUse.run
    rw [hstep]
    exact hrun

/-- The page pool's bitmap: after every sequence of calls `free_pages` counts the clear
bits, the loop of `alloc_page` ends, there is no page only where no bit is clear, and a
page handed out is none of the meta data's, had its bit clear and is held by nobody. -/
theorem pageBitmap_run {size totalPages metaPages : Nat} (htotal : totalPages ≤ MAX_PAGES_NO)
    (hmeta : 0 < metaPages) (hfree : metaPages < totalPages) (ops : List PoolOp)
    (hops : ∀ op ∈ ops, Admissible size metaPages totalPages op) :
    ∃ u, PoolUse.run size ⟨.init totalPages metaPages htotal, ∅⟩ ops = some u ∧
      u.pool.totalPages = totalPages ∧
      u.pool.freePages = ((Finset.range totalPages).filter fun p =>
        u.pool.pageBitmap p = false).card ∧
      ∃ page pool', u.pool.allocPage = some (page, pool') ∧
        (page = none ↔ ∀ p < totalPages, u.pool.pageBitmap p = true) ∧
        ∀ index ∈ page, metaPages ≤ index ∧ index < totalPages ∧
          u.pool.pageBitmap index = false ∧ index ∉ u.held := by
  have hinit : Sound metaPages ⟨.init totalPages metaPages htotal, ∅⟩ := by
    refine ⟨MemPool.sound_init htotal hmeta hfree, hmeta, fun p hp => ?_, by simp⟩
    simpa [MemPool.init] using hp
  obtain ⟨u, hrun, htotal', hu⟩ := hinit.run hops
  have htotal' : u.pool.totalPages = totalPages := htotal'
  refine ⟨u, hrun, htotal', ?_, ?_⟩
  · rw [hu.pool.freePages_eq, MemPool.clear, htotal']
  · rcases hu.alloc with ⟨halloc, hclear⟩ | ⟨index, pool', halloc, -, hle, hclear, hheld, -⟩
    · refine ⟨none, _, halloc, ⟨fun _ p hp => ?_, fun _ => rfl⟩, by simp⟩
      cases hbit : u.pool.pageBitmap p with
      | true => rfl
      | false =>
        have hmem : p ∈ u.pool.clear := MemPool.mem_clear.mpr ⟨htotal' ▸ hp, hbit⟩
        rw [hclear] at hmem
        simp at hmem
    · obtain ⟨hlt, hbit⟩ := MemPool.mem_clear.mp hclear
      have hlt' : index < totalPages := htotal' ▸ hlt
      refine ⟨some index, pool', halloc, ⟨fun h => by simp at h, fun h => ?_⟩, ?_⟩
      · rw [h index hlt'] at hbit
        exact Bool.noConfusion hbit
      · rintro _ ⟨⟩
        exact ⟨hle, hlt', hbit, hheld⟩

/-- Two pages are handed out, and one is given back twice. -/
theorem pageBitmap_twoPages :
    ∃ u, PoolUse.run pageSize ⟨.init 3 1 (by decide), ∅⟩ [.alloc, .alloc, .free 1, .freeAt pageSize] =
        some u ∧ u.pool.totalPages = 3 ∧
      u.pool.freePages = ((Finset.range 3).filter fun p => u.pool.pageBitmap p = false).card ∧
      ∃ page pool', u.pool.allocPage = some (page, pool') ∧
        (page = none ↔ ∀ p < 3, u.pool.pageBitmap p = true) ∧
        ∀ index ∈ page, 1 ≤ index ∧ index < 3 ∧
          u.pool.pageBitmap index = false ∧ index ∉ u.held :=
  pageBitmap_run (by decide) (by decide) (by decide) _ (by decide)

end PoolUse

end Mdb
