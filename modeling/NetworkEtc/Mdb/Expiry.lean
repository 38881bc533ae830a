-- SUMMARY: The slab managers give no item an expiry time: they leave it or clear it.
import NetworkEtc.Mdb.ItemLists

/-!
# Expiry times

Only a put gives an item an expiry time. The functions of the slab managers write links
and page headers, and `init_page` clears a page.
-/

namespace Mdb

/-- An expiry time is as it was, or none. -/
def Memory.Fades (mem mem' : Memory) : Prop :=
  ∀ a, (mem'.item a).exptime = (mem.item a).exptime ∨ (mem'.item a).exptime = 0

namespace Memory.Fades

variable {mem mem' mem'' : Memory} {a : Addr} {f : MdbItem → MdbItem}

theorem of_eq (h : ∀ a, (mem'.item a).exptime = (mem.item a).exptime) : mem.Fades mem' :=
  fun a => Or.inl (h a)

theorem of_item_eq (h : mem'.item = mem.item) : mem.Fades mem' := of_eq fun a => by rw [h]

theorem refl : mem.Fades mem := of_item_eq rfl

theorem trans (h : mem.Fades mem') (h' : mem'.Fades mem'') : mem.Fades mem'' := by
  intro a
  rcases h' a with heq | hzero
  · rw [heq]
    exact h a
  · exact Or.inr hzero

theorem of_relinked (h : mem.ItemsRelinked mem') : mem.Fades mem' := of_eq h.exptime_eq

theorem setItem (hf : (f (mem.item a)).exptime = (mem.item a).exptime ∨
    (f (mem.item a)).exptime = 0) : mem.Fades (mem.setItem a f) := by
  intro b
  rw [Memory.item_setItem]
  split
  · next heq =>
    rw [heq]
    exact hf
  · exact Or.inl rfl

/-- Where there was none, there is none. -/
theorem zero (h : mem.Fades mem') (hzero : (mem.item a).exptime = 0) :
    (mem'.item a).exptime = 0 := by
  rcases h a with heq | hzero'
  · rw [heq, hzero]
  · exact hzero'

end Memory.Fades

/-! # Pages -/

section

variable {mem mem' : Memory} {p head head' : Nat} {f : PageInfo → PageInfo} {s s' : Slab}

theorem item_setPageAt (h : mem.setPageAt p f = some mem') : mem'.item = mem.item := by
  unfold Memory.setPageAt at h
  split at h
  · rw [← Option.some.inj h]
  · split at h
    · rw [← Option.some.inj h]
      rfl
    · exact absurd h (by simp)

theorem item_linkPage (h : linkPage mem p head = some (mem', head')) : mem'.item = mem.item := by
  unfold linkPage at h
  simp only [Option.bind_eq_bind, Option.bind_eq_some_iff, Option.some.injEq, Prod.mk.injEq] at h
  obtain ⟨mem₁, hset, rfl, -⟩ := h
  exact (item_setPageAt hset).trans rfl

theorem item_unlinkPage (h : unlinkPage mem p head = some (mem', head')) :
    mem'.item = mem.item := by
  unfold unlinkPage at h
  simp only [Option.bind_eq_bind, Option.bind_eq_some_iff, Option.some.injEq, Prod.mk.injEq] at h
  obtain ⟨mem₁, hnext, mem₂, hprev, rfl, -⟩ := h
  exact (item_setPageAt hprev).trans (item_setPageAt hnext)

theorem item_linkPartialPage (h : s.linkPartialPage p = some s') : s'.mem.item = s.mem.item := by
  unfold Slab.linkPartialPage at h
  simp only [Option.bind_eq_bind, Option.bind_eq_some_iff, Option.some.injEq] at h
  obtain ⟨⟨mem₁, head₁⟩, hlink, rfl⟩ := h
  exact item_linkPage hlink

theorem item_unlinkPartialPage (h : s.unlinkPartialPage p = some s') :
    s'.mem.item = s.mem.item := by
  unfold Slab.unlinkPartialPage at h
  simp only [Option.bind_eq_bind, Option.bind_eq_some_iff, Option.some.injEq] at h
  obtain ⟨⟨mem₁, head₁⟩, hunlink, rfl⟩ := h
  exact item_unlinkPage hunlink

theorem exptime_initItems {g : SlabShape} (item : Addr → MdbItem) (n : Nat) (a : Addr) :
    (g.initItems p item n a).exptime = (item a).exptime := by
  induction n with
  | zero => rfl
  | succ n ih =>
    simp only [SlabShape.initItems, Function.update_apply]
    split
    · next heq =>
      rw [← heq]
      exact ih
    · exact ih

theorem fades_initPage {g : SlabShape} : mem.Fades (g.initPage mem p) := by
  intro a
  have hitems : ((g.initPage mem p).item a).exptime =
      (if a.1 = p then MdbItem.zeroed else mem.item a).exptime := by
    refine Eq.trans ?_ (exptime_initItems (g := g) (p := p)
      (fun a => if a.1 = p then MdbItem.zeroed else mem.item a) g.perSlab a)
    simp only [SlabShape.initPage, Function.update_apply]
    split
    · next heq => rw [heq]
    · rfl
  rw [hitems]
  split
  · exact Or.inr rfl
  · exact Or.inl rfl

end

/-! # `alloc_new_item` -/

namespace Slab

variable {s s' : Slab} {k p : Nat}

theorem fades_takePage {r : Option (Nat × ItemId)} (h : s.takePage = some (r, s')) :
    s.mem.Fades s'.mem := by
  unfold takePage at h
  split at h
  · simp only [Option.bind_eq_bind, Option.ite_none_right_eq_some, Option.bind_eq_some_iff,
      Option.some.injEq, Prod.mk.injEq] at h
    obtain ⟨-, s₁, hunlink, -, rfl⟩ := h
    exact .of_item_eq (item_unlinkPartialPage hunlink)
  · split at h
    · simp only [Option.bind_eq_bind, Option.ite_none_right_eq_some, Option.bind_eq_some_iff,
        Option.some.injEq, Prod.mk.injEq] at h
      obtain ⟨-, ⟨mem₁, head₁⟩, hunlink, -, rfl⟩ := h
      exact .of_item_eq (item_unlinkPage hunlink)
    · simp only [Option.bind_eq_bind, Option.bind_eq_some_iff] at h
      obtain ⟨⟨page, pool⟩, -, h⟩ := h
      cases page with
      | none =>
        simp only [Option.some.injEq, Prod.mk.injEq] at h
        rw [← h.2]
        exact .refl
      | some index =>
        simp only [Option.some.injEq, Prod.mk.injEq] at h
        rw [← h.2]
        exact fades_initPage

theorem item_chargePage (h : s.chargePage p = some s') : s'.mem.item = s.mem.item := by
  unfold chargePage at h
  simp only at h
  split at h
  · simp only [Option.bind_eq_bind, Option.bind_eq_some_iff, Option.some.injEq] at h
    obtain ⟨⟨mem₁, head₁⟩, hlink, rfl⟩ := h
    have hitem := item_linkPage hlink
    exact hitem
  · have hitem := item_linkPartialPage h
    exact hitem

theorem fades_linkItem {a : Addr} (h : s.linkItem a k = some s') : s.mem.Fades s'.mem := by
  unfold linkItem at h
  simp only [Option.ite_none_right_eq_some, Option.some.injEq] at h
  obtain ⟨-, rfl⟩ := h
  simp only
  split
  · exact .setItem (Or.inl rfl)
  · exact .trans (.setItem (Or.inl rfl)) (.setItem (Or.inl rfl))

/-- `alloc_new_item` gives no item an expiry time. -/
theorem fades_allocNewItem {r : Option Addr} (h : s.allocNewItem k = some (r, s')) :
    s.mem.Fades s'.mem := by
  unfold allocNewItem at h
  simp only [Option.bind_eq_bind, Option.bind_eq_some_iff] at h
  obtain ⟨⟨page, s₁⟩, htake, h⟩ := h
  have htaken := fades_takePage htake
  cases page with
  | none =>
    simp only [Option.some.injEq, Prod.mk.injEq] at h
    rw [← h.2]
    exact htaken
  | some page =>
    simp only [Option.bind_eq_some_iff, Option.ite_none_left_eq_some,
      Option.ite_none_right_eq_some, Option.some.injEq, Prod.mk.injEq] at h
    obtain ⟨s₂, hcharge, -, s₃, hlink, -, -, rfl⟩ := h
    have hcharged : s₁.mem.Fades s₂.mem := .of_item_eq (item_chargePage hcharge)
    have hlinked := fades_linkItem hlink
    exact (htaken.trans hcharged).trans hlinked

end Slab

end Mdb
