-- SUMMARY: The hash table's functions: finding, inserting and removing keep the chains.
import NetworkEtc.Mdb.Ledger

/-!
# The chains of the hash table

`find` gives the item with a key, `insert` and `remove` change the chain of one bucket.
They touch `h_next` of items in the table, and nothing else in the items.
-/

namespace Mdb

open Library

namespace Store

/-- `__find` along a chain: no item has the key, or the first that has it is given, with
the one before it. -/
theorem findIn_spec {mem : Memory} (key : List UInt8) (pprev : Option Addr) {l : List ItemId}
    (hwhole : ∀ x ∈ l, (mem.item x.addr).Whole x.slabSize.toNat) {fuel : Nat} {pos : ItemId}
    (hseg : Seg (fun x => (mem.item x.addr).hNext.place) pos.place l none)
    (hfuel : l.length < fuel) :
    ((∀ x ∈ l, (mem.item x.addr).key ≠ key) ∧ findIn mem key fuel pos pprev = some none) ∨
    ∃ l₁ x l₂, l = l₁ ++ x :: l₂ ∧ (mem.item x.addr).key = key ∧
      findIn mem key fuel pos pprev =
        some (some (x.addr, (l₁.getLast?.map ItemId.addr).or pprev)) := by
  induction l generalizing fuel pos pprev with
  | nil =>
    left
    cases fuel with
    | zero => exact absurd hfuel (Nat.lt_irrefl 0)
    | succ fuel =>
      have hzero : pos = 0 := ItemId.place_eq_none.mp hseg
      exact ⟨by simp, by simp [findIn, hzero]⟩
  | cons x l ih =>
    cases fuel with
    | zero => exact absurd hfuel (Nat.not_lt_zero _)
    | succ fuel =>
      obtain ⟨hpos, hrest⟩ := hseg
      obtain ⟨hne, rfl⟩ := ItemId.place_eq_some.mp hpos
      have hlen := (hwhole _ (List.mem_cons_self ..)).length_key
      rw [ItemId.addr_clearFlags] at hlen
      have htest : ((mem.item pos.addr).keyLen.toNat = key.length ∧ (mem.item pos.addr).key = key) ↔
          (mem.item pos.addr).key = key := by
        constructor
        · exact fun hand => hand.2
        · rintro rfl
          exact ⟨hlen.symm, rfl⟩
      unfold findIn
      simp only [if_neg hne, htest]
      split
      · next hkey => exact Or.inr ⟨[], _, l, rfl, hkey, rfl⟩
      · next hkey =>
        rcases ih (some pos.addr) (fun x hx => hwhole x (List.mem_cons_of_mem _ hx)) hrest
          (Nat.lt_of_succ_lt_succ hfuel) with ⟨hnone, hfind⟩ | ⟨l₁, y, l₂, rfl, hy, hfind⟩
        · refine Or.inl ⟨fun x hx => ?_, hfind⟩
          rcases List.mem_cons.mp hx with rfl | hx
          · exact hkey
          · exact hnone x hx
        · refine Or.inr ⟨pos.clearFlags :: l₁, y, l₂, rfl, hy, ?_⟩
          rw [ItemId.addr_clearFlags] at hfind
          rw [hfind, List.getLast?_cons]
          cases l₁.getLast? <;> rfl

variable {s s' : Store} {g : Ledger} {live live' : ItemId → Prop} {x y : ItemId}
  {key : List UInt8}

@[simp] theorem mem_setItem {a : Addr} {f : MdbItem → MdbItem} :
    (s.setItem a f).mem = s.mem.setItem a f := rfl

@[simp] theorem mem_insert {a : Addr} : (s.insert a).mem =
    s.mem.setItem a fun it =>
      { it with hNext := s.hashtable (s.getBucketIndex (s.mem.item a).key) } := rfl

/-- The chain of a key's bucket, as `__find` goes along it. -/
theorem Kept.chain (h : s.Kept g live) (key : List UInt8) :
    ∃ l, Seg s.chainNext (s.chainHead (s.getBucketIndex key)) l none ∧ l.Nodup ∧
      l.length < maxItems + 1 ∧ (∀ x ∈ l, (s.mem.item x.addr).Whole x.slabSize.toNat) ∧
      ∀ x, x ∈ l ↔ live x ∧ s.getBucketIndex (s.keyOf x) = s.getBucketIndex key := by
  obtain ⟨l, hseg, hnodup, hmem⟩ := h.chained (s.getBucketIndex key)
  have hlive : ∀ x ∈ l, live x := fun x hx => ((hmem x).mp hx).1
  refine ⟨l, hseg, hnodup, ?_, fun x hx => h.whole x (hlive x hx), hmem⟩
  exact Nat.lt_succ_of_le (h.length_le hnodup fun x hx => h.inUse x (hlive x hx))

/-- `find` gives the item with the key. -/
theorem Kept.find (h : s.Kept g live) (hkey : key ≠ []) :
    (s.find key = some none ∧ ∀ x, live x → s.keyOf x ≠ key) ∨
    ∃ x, live x ∧ s.keyOf x = key ∧ s.find key = some (some x.addr) := by
  unfold Store.find
  rw [if_neg (fun hzero => hkey (List.length_eq_zero_iff.mp hzero))]
  obtain ⟨l, hseg, -, hfuel, hwhole, hmem⟩ := h.chain key
  rcases findIn_spec key none hwhole hseg hfuel with ⟨hnone, hfind⟩ |
    ⟨l₁, x, l₂, rfl, hx, hfind⟩
  · refine Or.inl ⟨by rw [hfind]; rfl, fun x hx hxkey => ?_⟩
    exact hnone x ((hmem x).mpr ⟨hx, by rw [hxkey]⟩) hxkey
  · exact Or.inr ⟨x, ((hmem x).mp (by simp)).1, hx, by rw [hfind]; rfl⟩

/-- A write of `h_next` is nothing but that. -/
theorem item_setHNext (mem : Memory) (a : Addr) (next : ItemId) (b : Addr) :
    (mem.setItem a fun it => { it with hNext := next }).item b =
      { mem.item b with
        hNext := ((mem.setItem a fun it => { it with hNext := next }).item b).hNext } := by
  rw [Memory.item_setItem]
  split
  · next heq => rw [heq]
  · rfl

/-- `s'` is `s` but for the hash table and the links of the chains. -/
structure Rehashed (s s' : Store) (A : ItemId → Prop) : Prop where
  store_eq : s' = { s with mem := s'.mem, hashtable := s'.hashtable }
  within : s.mem.Within A s'.mem
  item_eq : ∀ a, s'.mem.item a = { s.mem.item a with hNext := (s'.mem.item a).hNext }

namespace Rehashed

variable {A : ItemId → Prop}

theorem body_eq (h : s.Rehashed s' A) (a : Addr) : (s'.mem.item a).body = (s.mem.item a).body := by
  rw [h.item_eq a]
  rfl

theorem next_eq (h : s.Rehashed s' A) (a : Addr) : (s'.mem.item a).next = (s.mem.item a).next := by
  rw [h.item_eq a]

theorem prev_eq (h : s.Rehashed s' A) (a : Addr) : (s'.mem.item a).prev = (s.mem.item a).prev := by
  rw [h.item_eq a]

theorem keyOf_eq (h : s.Rehashed s' A) (x : ItemId) : s'.keyOf x = s.keyOf x :=
  MdbItem.key_congr (h.body_eq x.addr)

theorem slabs_eq (h : s.Rehashed s' A) : s'.slabs = s.slabs := by rw [h.store_eq]

theorem getBucketIndex_eq (h : s.Rehashed s' A) : s'.getBucketIndex = s.getBucketIndex := by
  rw [h.store_eq]
  rfl

end Rehashed

/-- What a change of the table has to see to. -/
theorem Kept.rehashed (h : s.Kept g live) (hre : s.Rehashed s' g.InUse)
    (hchained : Chained s'.chainNext s'.chainHead
      (fun x => s.getBucketIndex (s.keyOf x)) live')
    (hinUse : ∀ x, live' x → g.InUse x)
    (hwhole : ∀ x, live' x → (s.mem.item x.addr).Whole x.slabSize.toNat)
    (hkeys : ∀ x y, live' x → live' y → s.keyOf x = s.keyOf y → x = y) : s'.Kept g live' := by
  have hpaged : s'.Paged g :=
    h.within hre.within (fun i => by rw [hre.slabs_eq]; exact .refl) (by rw [hre.store_eq])
  refine ⟨hpaged, fun i hi => ?_, h.area_lt, ?_, hinUse, fun x hx => ?_, fun x y hx hy heq => ?_,
    h.unlinked.congr (fun a _ => hre.prev_eq a) fun a _ => hre.next_eq a⟩
  · apply (h.listed i hi).congr
    · exact fun y _ => hre.next_eq y.addr
    · exact fun y _ => hre.prev_eq y.addr
    · exact fun _ _ => rfl
    · exact congrArg (fun slabs => (slabs i).itemHead) hre.slabs_eq
    · exact congrArg (fun slabs => (slabs i).itemTail) hre.slabs_eq
    · exact fun _ => Iff.rfl
  · simp only [hre.keyOf_eq, hre.getBucketIndex_eq]
    exact hchained
  · exact (hwhole x hx).congr (hre.body_eq x.addr)
  · rw [hre.keyOf_eq, hre.keyOf_eq] at heq
    exact hkeys x y hx hy heq

/-- `insert` puts an item in use into the table, if its key is not there yet. -/
theorem Kept.insert (h : s.Kept g live) (hx : g.InUse x) (hlive : ¬ live x)
    (hwhole : (s.mem.item x.addr).Whole x.slabSize.toNat)
    (hkey : ∀ y, live y → s.keyOf y ≠ s.keyOf x) :
    s.Rehashed (s.insert x.addr) g.InUse ∧
      (s.insert x.addr).Kept g fun y => y = x ∨ live y := by
  have hne : ∀ y, live y → y.addr ≠ x.addr := by
    rintro y hy heq
    obtain rfl := h.placed.apart y x (h.inUse y hy) hx heq
    exact hlive hy
  have hre : s.Rehashed (s.insert x.addr) g.InUse := by
    have hwithin : s.mem.Within g.InUse (s.insert x.addr).mem := by
      rw [mem_insert]
      exact Memory.Within.setItem hx rfl
    exact ⟨rfl, hwithin, fun a => item_setHNext ..⟩
  refine ⟨hre, h.rehashed hre ?_ ?_ ?_ ?_⟩
  · apply h.chained.push hlive (fun _ _ => rfl)
    · simp [chainNext, Store.insert, chainHead, keyOf]
    · intro y hy
      simp only [chainNext, Store.insert]
      rw [Memory.item_setItem_ne (hne y hy)]
    · intro b
      change (Function.update s.hashtable (s.getBucketIndex (s.keyOf x)) _ b).place = _
      rw [Function.update_apply]
      split
      · exact h.placed.place_id hx
      · rfl
  · rintro y (rfl | hy)
    · exact hx
    · exact h.inUse y hy
  · rintro y (rfl | hy)
    · exact hwhole
    · exact h.whole y hy
  · rintro y z (rfl | hy) (rfl | hz) heq
    · rfl
    · exact absurd heq.symm (hkey z hz)
    · exact absurd heq (hkey y hy)
    · exact h.keys y z hy hz heq

section

variable {a b : Addr}

/-- `remove` where the item is the first of its chain. -/
theorem remove_first (hfind : findIn s.mem (s.mem.item a).key (maxItems + 1)
      (s.hashtable (s.getBucketIndex (s.mem.item a).key)) none = some (some (a, none))) :
    ∃ s', s.remove a = some s' ∧
      s'.mem = s.mem.setItem a (fun it => { it with hNext := 0 }) ∧
      s'.hashtable = Function.update s.hashtable (s.getBucketIndex (s.mem.item a).key)
        (s.mem.item a).hNext ∧
      s' = { s with mem := s'.mem, hashtable := s'.hashtable } := by
  unfold Store.remove
  simp only [hfind]
  exact ⟨_, rfl, rfl, rfl, rfl⟩

/-- `remove` where the item follows the one at `b`. -/
theorem remove_after (hfind : findIn s.mem (s.mem.item a).key (maxItems + 1)
      (s.hashtable (s.getBucketIndex (s.mem.item a).key)) none = some (some (a, some b))) :
    ∃ s', s.remove a = some s' ∧
      s'.mem = (s.mem.setItem b fun it => { it with hNext := (s.mem.item a).hNext }).setItem a
        (fun it => { it with hNext := 0 }) ∧
      s'.hashtable = s.hashtable ∧ s' = { s with mem := s'.mem, hashtable := s'.hashtable } := by
  unfold Store.remove
  simp only [hfind]
  exact ⟨_, rfl, rfl, rfl, rfl⟩

end

/-- `__find` gives an item of the table with the one before it in its chain. -/
theorem Kept.findIn_self (h : s.Kept g live) (hx : live x) :
    ∃ l₁ l₂, Seg s.chainNext (s.chainHead (s.getBucketIndex (s.keyOf x))) (l₁ ++ x :: l₂) none ∧
      (∀ y ∈ l₁ ++ x :: l₂, live y) ∧
      findIn s.mem (s.keyOf x) (maxItems + 1) (s.hashtable (s.getBucketIndex (s.keyOf x))) none =
        some (some (x.addr, l₁.getLast?.map ItemId.addr)) := by
  obtain ⟨l, hseg, -, hfuel, hwhole, hmem⟩ := h.chain (s.keyOf x)
  have hxl : x ∈ l := (hmem x).mpr ⟨hx, rfl⟩
  have hlive : ∀ y ∈ l, live y := fun y hy => ((hmem y).mp hy).1
  rcases findIn_spec (s.keyOf x) none hwhole hseg hfuel with ⟨hnone, -⟩ |
    ⟨l₁, y, l₂, rfl, hy, hfind⟩
  · exact absurd rfl (hnone x hxl)
  · obtain rfl := h.keys y x (hlive y (by simp)) hx hy
    rw [Option.or_none] at hfind
    exact ⟨l₁, l₂, hseg, hlive, hfind⟩

/-- `remove` leaves the links of the items that do not lead to the one removed. -/
theorem Kept.chainNext_remove (h : s.Kept g live) (hx : live x)
    (hremove : s.remove x.addr = some s') (hy : live y) (hyx : y ≠ x)
    (hnext : s.chainNext y ≠ some x) : s'.chainNext y = s.chainNext y := by
  obtain ⟨l₁, l₂, hseg, hlive, hfind⟩ := h.findIn_self hx
  have hne : ∀ z, live z → y ≠ z → y.addr ≠ z.addr := by
    intro z hz hyz heq
    exact hyz (h.placed.apart y z (h.inUse y hy) (h.inUse z hz) heq)
  unfold chainNext
  cases hlast : l₁.getLast? with
  | none =>
    rw [hlast] at hfind
    obtain ⟨s₁, hremove', hmem', -, -⟩ := remove_first hfind
    obtain rfl := Option.some.inj (hremove.symm.trans hremove')
    rw [hmem', Memory.item_setItem_ne (hne x hx hyx)]
  | some z =>
    rw [hlast] at hfind
    obtain ⟨s₁, hremove', hmem', -, -⟩ := remove_after hfind
    obtain rfl := Option.some.inj (hremove.symm.trans hremove')
    obtain ⟨l₀, rfl⟩ := List.getLast?_eq_some_iff.mp hlast
    rw [List.append_assoc] at hseg hlive
    have hz : s.chainNext z = some x := hseg.next_eq
    have hyz : y ≠ z := by
      rintro rfl
      exact hnext hz
    rw [hmem', Memory.item_setItem_ne (hne x hx hyx),
      Memory.item_setItem_ne (hne z (hlive z (by simp)) hyz)]

/-- `remove` takes an item out of the table. -/
theorem Kept.remove (h : s.Kept g live) (hx : live x) :
    ∃ s', s.remove x.addr = some s' ∧ s.Rehashed s' g.InUse ∧
      s'.Kept g fun y => live y ∧ y ≠ x := by
  obtain ⟨l₁, l₂, hseg, hlive, hfind⟩ := h.findIn_self hx
  have hsub : ∀ y, live y ∧ y ≠ x → live y := fun y hy => hy.1
  have hne : ∀ y, live y → y ≠ x → y.addr ≠ x.addr := by
    intro y hy hyx heq
    exact hyx (h.placed.apart y x (h.inUse y hy) (h.inUse x hx) heq)
  have hkept : ∀ s', s.Rehashed s' g.InUse →
      (∀ y, live y → y ≠ x →
        s'.chainNext y = if l₁.getLast? = some y then s.chainNext x else s.chainNext y) →
      (∀ b, s'.chainHead b = if b = s.getBucketIndex (s.keyOf x) ∧ l₁ = [] then s.chainNext x
        else s.chainHead b) → s'.Kept g fun y => live y ∧ y ≠ x := by
    intro s' hre hnext hhead
    exact h.rehashed hre (h.chained.remove hseg hnext hhead) (fun y hy => h.inUse y (hsub y hy))
      (fun y hy => h.whole y (hsub y hy)) fun y z hy hz => h.keys y z (hsub y hy) (hsub z hz)
  cases hlast : l₁.getLast? with
  | none =>
    -- the first of its chain
    obtain rfl := List.getLast?_eq_none_iff.mp hlast
    obtain ⟨s', hremove, hmem', htable', hs'⟩ := remove_first hfind
    have hre : s.Rehashed s' g.InUse := by
      refine ⟨hs', ?_, fun a => ?_⟩
      · rw [hmem']
        exact Memory.Within.setItem (h.inUse x hx) rfl
      · rw [hmem']
        exact item_setHNext ..
    refine ⟨s', hremove, hre, hkept s' hre (fun y hy hyx => ?_) fun b => ?_⟩
    · rw [hlast, if_neg (by simp)]
      unfold chainNext
      rw [hmem', Memory.item_setItem_ne (hne y hy hyx)]
    · unfold chainHead
      rw [htable', Function.update_apply, ← keyOf]
      simp only [and_true]
      split
      · rfl
      · rfl
  | some z =>
    have hz : z ∈ l₁ := List.mem_of_getLast? hlast
    have hz_live : live z := hlive z (List.mem_append_left _ hz)
    rw [hlast] at hfind
    obtain ⟨s', hremove, hmem', htable', hs'⟩ := remove_after hfind
    have hre : s.Rehashed s' g.InUse := by
      refine ⟨hs', ?_, fun a => ?_⟩
      · rw [hmem']
        have hfirst : s.mem.Within g.InUse (s.mem.setItem z.addr fun it =>
            { it with hNext := (s.mem.item x.addr).hNext }) :=
          Memory.Within.setItem (h.inUse z hz_live) rfl
        exact hfirst.trans (Memory.Within.setItem (h.inUse x hx) rfl)
      · rw [hmem', item_setHNext, item_setHNext s.mem z.addr]
    refine ⟨s', hremove, hre, hkept s' hre (fun y hy hyx => ?_) fun b => ?_⟩
    · unfold chainNext
      rw [hmem', hlast, Memory.item_setItem_ne (hne y hy hyx), Memory.item_setItem]
      rcases eq_or_ne y z with rfl | hyz
      · simp
      · have haddr : y.addr ≠ z.addr := fun heq =>
          hyz (h.placed.apart y z (h.inUse y hy) (h.inUse z hz_live) heq)
        rw [if_neg haddr, if_neg fun heq => hyz (Option.some.inj heq).symm]
    · unfold chainHead
      rw [htable', if_neg]
      rintro ⟨-, rfl⟩
      exact absurd hz List.not_mem_nil

end Store

end Mdb
