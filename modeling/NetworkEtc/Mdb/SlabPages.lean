-- SUMMARY: The page lists of a slab and the books kept about them, under linking and unlinking.
import NetworkEtc.Library.Shelves
import NetworkEtc.Mdb.Places

/-!
# Filing pages

A page stands on the shelf its `free_nr` says: the free pages, the full ones, or the
bucket of partial ones. `Filed` holds the lists and every number the slab manager keeps
about them, for the pages that are on a list at the moment; a function that has a page
in its hands has one page fewer there, and counts it among the partial ones.
-/

namespace Mdb

open Library

/-- A page number as a pointer; `0` is none. -/
def pagePtr (p : Nat) : Option Nat := if p = 0 then none else some p

@[simp] theorem pagePtr_zero : pagePtr 0 = none := rfl

theorem pagePtr_of_pos {p : Nat} (h : 0 < p) : pagePtr p = some p := if_neg h.ne'

theorem pagePtr_eq_some {p q : Nat} : pagePtr p = some q ↔ p ≠ 0 ∧ q = p := by
  unfold pagePtr
  split <;> simp_all [eq_comm]

theorem pagePtr_eq_none {p : Nat} : pagePtr p = none ↔ p = 0 := by
  unfold pagePtr
  split <;> simp_all

/-- `mem'` differs from `mem` in the links of pages only. -/
structure Memory.Relinked (mem mem' : Memory) : Prop where
  pool_eq : mem'.pool = mem.pool
  item_eq : mem'.item = mem.item
  id_eq : ∀ q, (mem'.page q).id = (mem.page q).id
  freeNr_eq : ∀ q, (mem'.page q).freeNr = (mem.page q).freeNr
  freeHead_eq : ∀ q, (mem'.page q).freeHead = (mem.page q).freeHead

theorem Memory.Relinked.refl {mem : Memory} : mem.Relinked mem :=
  ⟨rfl, rfl, fun _ => rfl, fun _ => rfl, fun _ => rfl⟩

theorem Memory.Relinked.trans {mem mem' mem'' : Memory} (h : mem.Relinked mem')
    (h' : mem'.Relinked mem'') : mem.Relinked mem'' :=
  ⟨h'.pool_eq.trans h.pool_eq, h'.item_eq.trans h.item_eq,
    fun q => (h'.id_eq q).trans (h.id_eq q), fun q => (h'.freeNr_eq q).trans (h.freeNr_eq q),
    fun q => (h'.freeHead_eq q).trans (h.freeHead_eq q)⟩

/-- A page whose links are as they were is as it was. -/
theorem Memory.Relinked.page_eq {mem mem' : Memory} (h : mem.Relinked mem') {q : Nat}
    (hnext : (mem'.page q).next = (mem.page q).next)
    (hprev : (mem'.page q).prev = (mem.page q).prev) : mem'.page q = mem.page q :=
  PageInfo.ext (h.id_eq q) (h.freeNr_eq q) hnext hprev (h.freeHead_eq q)

theorem Memory.relinked_setPage {mem : Memory} {p : Nat} {f : PageInfo → PageInfo}
    (hid : (f (mem.page p)).id = (mem.page p).id)
    (hnr : (f (mem.page p)).freeNr = (mem.page p).freeNr)
    (hhead : (f (mem.page p)).freeHead = (mem.page p).freeHead) :
    mem.Relinked (mem.setPage p f) := by
  refine ⟨rfl, rfl, fun q => ?_, fun q => ?_, fun q => ?_⟩ <;> rw [Memory.page_setPage] <;>
    split <;> simp_all

/-- A write through a page pointer that is none or good. -/
theorem setPageAt_eq (mem : Memory) {p : Nat} {f : PageInfo → PageInfo}
    (h : p = 0 ∨ mem.pool.indexOk p = true)
    (hf : ∀ info, (f info).id = info.id ∧ (f info).freeNr = info.freeNr ∧
      (f info).freeHead = info.freeHead) :
    ∃ mem', mem.setPageAt p f = some mem' ∧ mem.Relinked mem' ∧
      ∀ q, mem'.page q = if p ≠ 0 ∧ q = p then f (mem.page q) else mem.page q := by
  unfold Memory.setPageAt
  rcases Nat.eq_zero_or_pos p with rfl | hpos
  · exact ⟨mem, if_pos rfl, Memory.Relinked.refl, fun q => by simp⟩
  · rw [if_neg hpos.ne', if_pos (h.resolve_left hpos.ne')]
    refine ⟨_, rfl, Memory.relinked_setPage (hf _).1 (hf _).2.1 (hf _).2.2, fun q => ?_⟩
    rw [Memory.page_setPage]
    rcases eq_or_ne q p with rfl | hq
    · simp [hpos.ne']
    · simp [hq]

/-! # `link_page` and `unlink_page` -/

theorem linkPage_spec {mem : Memory} {p head : Nat} (hid : (mem.page p).id = p)
    (hne : head ≠ p) (hhead : head = 0 ∨ mem.pool.indexOk head = true) :
    ∃ mem', linkPage mem p head = some (mem', p) ∧ mem.Relinked mem' ∧
      (∀ q, (mem'.page q).next = if q = p then head else (mem.page q).next) ∧
      ∀ q, (mem'.page q).prev =
        if q = p then 0 else if head ≠ 0 ∧ q = head then p else (mem.page q).prev := by
  unfold linkPage
  simp only [Memory.page_setPage_self, hid]
  obtain ⟨mem', hset, hrel, hpage⟩ := setPageAt_eq
    (mem.setPage p fun info => { info with prev := 0, next := head })
    (f := fun next => { next with prev := p }) hhead fun info => ⟨rfl, rfl, rfl⟩
  rw [hset]
  refine ⟨mem', rfl, (Memory.relinked_setPage rfl rfl rfl).trans hrel, fun q => ?_, fun q => ?_⟩
  · rw [hpage q, Memory.page_setPage]
    split_ifs <;> simp_all
  · rw [hpage q, Memory.page_setPage]
    split_ifs <;> simp_all

theorem unlinkPage_spec {mem : Memory} {p head : Nat} (hid : (mem.page p).id = p)
    (hnext : (mem.page p).next = 0 ∨ mem.pool.indexOk (mem.page p).next = true)
    (hprev : (mem.page p).prev = 0 ∨ mem.pool.indexOk (mem.page p).prev = true) :
    ∃ mem', unlinkPage mem p head =
        some (mem', if p = head then (mem.page p).next else head) ∧
      mem.Relinked mem' ∧
      (∀ q, q ≠ p → (mem'.page q).next =
        if (mem.page p).prev ≠ 0 ∧ q = (mem.page p).prev then (mem.page p).next
        else (mem.page q).next) ∧
      ∀ q, q ≠ p → (mem'.page q).prev =
        if (mem.page p).next ≠ 0 ∧ q = (mem.page p).next then (mem.page p).prev
        else (mem.page q).prev := by
  unfold unlinkPage
  simp only [hid]
  obtain ⟨mem₁, hset₁, hrel₁, hpage₁⟩ := setPageAt_eq mem
    (f := fun next => { next with prev := (mem.page p).prev }) hnext fun info => ⟨rfl, rfl, rfl⟩
  rw [← hrel₁.pool_eq] at hprev
  obtain ⟨mem₂, hset₂, hrel₂, hpage₂⟩ := setPageAt_eq mem₁
    (f := fun prev => { prev with next := (mem.page p).next }) hprev fun info => ⟨rfl, rfl, rfl⟩
  rw [hset₁, Option.bind_eq_bind, Option.bind_some, hset₂]
  refine ⟨_, rfl, (hrel₁.trans hrel₂).trans (Memory.relinked_setPage rfl rfl rfl),
    fun q hq => ?_, fun q hq => ?_⟩
  · rw [Memory.page_setPage_ne hq, hpage₂ q, hpage₁ q]
    split_ifs <;> rfl
  · rw [Memory.page_setPage_ne hq, hpage₂ q, hpage₁ q]
    split_ifs <;> rfl

/-! # The index of the buckets -/

/-- `first_partial_page_index` and `partial_bucket_count` agree with the buckets. -/
structure Marks (partialPages : Nat → Nat) (bucketNum first : Nat) (count : Int) : Prop where
  count_eq : count = ((Finset.range bucketNum).filter fun b => partialPages b ≠ 0).card
  least : ∀ b < bucketNum, partialPages b ≠ 0 → partialPages first ≠ 0 ∧ first ≤ b
  none_first : (∀ b < bucketNum, partialPages b = 0) → first = 0

namespace Marks

variable {pp : Nat → Nat} {n first b v : Nat} {count : Int}

/-- A page has been put in front of bucket `b`. -/
theorem link (h : Marks pp n first count) (hb : b < n) (hv : v ≠ 0) :
    Marks (Function.update pp b v) n
      (if b < first ∨ (first = 0 ∧ Function.update pp b v 0 = 0) then b else first)
      (count + if pp b = 0 then 1 else 0) := by
  have hself : Function.update pp b v b = v := Function.update_self ..
  have hother : ∀ c, c ≠ b → Function.update pp b v c = pp c :=
    fun c hc => Function.update_of_ne hc ..
  refine ⟨?_, ?_, ?_⟩
  · have hset : ((Finset.range n).filter fun c => Function.update pp b v c ≠ 0) =
        insert b ((Finset.range n).filter fun c => pp c ≠ 0) := by
      apply Finset.ext
      intro c
      rcases eq_or_ne c b with rfl | hc
      · simp [hb, hv]
      · simp [hc]
    rw [hset, h.count_eq]
    split
    · next hzero =>
      rw [Finset.card_insert_of_notMem (by simp [hzero])]
      simp
    · next hne =>
      rw [Finset.insert_eq_of_mem (by simp [hb, hne])]
      simp
  · intro c hc hcne
    have hold : c ≠ b → pp first ≠ 0 ∧ first ≤ c := fun hcb =>
      h.least c hc (by rwa [hother c hcb] at hcne)
    split
    · next hcond =>
      refine ⟨by rwa [hself], ?_⟩
      rcases eq_or_ne c b with rfl | hcb
      · exact le_rfl
      · obtain ⟨hfirst, hle⟩ := hold hcb
        rcases hcond with hlt | ⟨rfl, hzero⟩
        · exact hlt.le.trans hle
        · -- the first bucket was not empty, and is not now
          rcases eq_or_ne 0 b with rfl | h0
          · exact absurd hzero (by rwa [hself])
          · exact absurd (hother 0 h0 ▸ hzero) hfirst
    · next hcond =>
      rw [not_or, not_lt, not_and] at hcond
      obtain ⟨hle, hfree⟩ := hcond
      rcases eq_or_ne first b with rfl | hfb
      · refine ⟨by rwa [hself], ?_⟩
        rcases eq_or_ne c first with rfl | hcb
        · exact le_rfl
        · exact (hold hcb).2
      · rw [hother first hfb]
        rcases eq_or_ne c b with rfl | hcb
        · refine ⟨?_, hle⟩
          by_contra hzero
          have hempty : first = 0 := by
            apply h.none_first
            intro d hd
            by_contra hne
            exact (h.least d hd hne).1 hzero
          apply hfree hempty
          rw [hempty] at hfb hzero
          rw [hother 0 hfb, hzero]
        · exact hold hcb
  · intro hall
    exact absurd (hall b hb) (by rwa [hself])

/-- A page has been taken out of bucket `b`, which now starts with `v`. -/
theorem unlink (h : Marks pp n first count) (hb : b < n) (hpp : pp b ≠ 0) :
    Marks (Function.update pp b v) n
      (if first = b ∧ Function.update pp b v b = 0 then
        if (count - if Function.update pp b v b = 0 then 1 else 0) = 0 then 0
        else (Slab.nextBucket n (Function.update pp b v) b).getD first
      else first)
      (count - if Function.update pp b v b = 0 then 1 else 0) := by
  have hself : Function.update pp b v b = v := Function.update_self ..
  have hother : ∀ c, c ≠ b → Function.update pp b v c = pp c :=
    fun c hc => Function.update_of_ne hc ..
  obtain ⟨hfirst, hfirst_le⟩ := h.least b hb hpp
  simp only [hself]
  rcases eq_or_ne v 0 with rfl | hv
  · have hset : ((Finset.range n).filter fun c => Function.update pp b 0 c ≠ 0) =
        ((Finset.range n).filter fun c => pp c ≠ 0).erase b := by
      apply Finset.ext
      intro c
      rcases eq_or_ne c b with rfl | hc
      · simp
      · simp [hc]
    have hmem : b ∈ (Finset.range n).filter fun c => pp c ≠ 0 := by simp [hb, hpp]
    have hpos := Finset.card_pos.mpr ⟨b, hmem⟩
    have hcount : count - 1 =
        (((Finset.range n).filter fun c => Function.update pp b 0 c ≠ 0).card : Int) := by
      rw [hset, Finset.card_erase_of_mem hmem, h.count_eq]
      omega
    simp only [and_true, if_true]
    rcases eq_or_ne first b with rfl | hfb
    · rw [if_pos rfl]
      split
      · next hzero =>
        have hnone : ∀ c < n, Function.update pp first 0 c = 0 := by
          intro c hc
          by_contra hne
          have hcard : 0 <
              ((Finset.range n).filter fun c => Function.update pp first 0 c ≠ 0).card :=
            Finset.card_pos.mpr ⟨c, by simp [hc, hne]⟩
          omega
        exact ⟨hcount, fun c hc hne => absurd (hnone c hc) hne, fun _ => rfl⟩
      · next hne =>
        -- some other bucket has a page, and it is behind this one
        have hcard : 0 <
            ((Finset.range n).filter fun c => Function.update pp first 0 c ≠ 0).card := by
          omega
        have hbehind : ∀ c < n, Function.update pp first 0 c ≠ 0 → first < c := by
          intro c hc hcne
          have hcb : c ≠ first := by
            rintro rfl
            exact hcne hself
          rw [hother c hcb] at hcne
          exact lt_of_le_of_ne (h.least c hc hcne).2 hcb.symm
        obtain ⟨c, hc⟩ := Finset.card_pos.mp hcard
        rw [Finset.mem_filter, Finset.mem_range] at hc
        have hclt := hbehind c hc.1 hc.2
        have hfound : (Slab.nextBucket n (Function.update pp first 0) first).isSome := by
          unfold Slab.nextBucket
          rw [List.find?_isSome]
          exact ⟨c, by rw [List.mem_range'_1]; omega, by simpa using hc.2⟩
        obtain ⟨m, hm⟩ := Option.isSome_iff_exists.mp hfound
        rw [hm, Option.getD_some]
        unfold Slab.nextBucket at hm
        rw [List.find?_range'_eq_some] at hm
        obtain ⟨hm_ne, -, hm_least⟩ := hm
        refine ⟨hcount, fun d hd hdne => ⟨by simpa using hm_ne, ?_⟩, fun hall => ?_⟩
        · by_contra hlt
          have hdm := hm_least d (hbehind d hd hdne) (not_le.mp hlt)
          simp [hdne] at hdm
        · exact absurd (hall c hc.1) hc.2
    · rw [if_neg hfb]
      refine ⟨hcount, fun c hc hne => ?_, fun hall => ?_⟩
      · have hcb : c ≠ b := by
          rintro rfl
          exact hne hself
        rw [hother c hcb] at hne
        rw [hother first hfb]
        exact h.least c hc hne
      · have hzero := hall first (lt_of_le_of_lt hfirst_le hb)
        rw [hother first hfb] at hzero
        exact absurd hzero hfirst
  · simp only [hv, and_false, if_false, Int.sub_zero]
    have hiff : ∀ c, Function.update pp b v c ≠ 0 ↔ pp c ≠ 0 := by
      intro c
      rcases eq_or_ne c b with rfl | hc
      · simp [hv, hpp]
      · rw [hother c hc]
    refine ⟨?_, fun c hc hne => ?_, fun hall => ?_⟩
    · simp only [hiff]
      exact h.count_eq
    · rw [hiff first]
      exact h.least c hc ((hiff c).mp hne)
    · exact absurd (hall b hb) (by rwa [hself])

theorem empty : Marks (fun _ => 0) n 0 0 :=
  ⟨by simp, fun _ _ hne => absurd rfl hne, fun _ => rfl⟩

end Marks

end Mdb
