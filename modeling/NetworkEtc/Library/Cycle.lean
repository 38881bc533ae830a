-- SUMMARY: Rings as chains of neighbours that point to each other: inserting, joining, splitting.
import Mathlib.Data.List.Chain
import NetworkEtc.Library.Ring

/-!
# Cycles

A ring is the chain of its cells from the head to the head again. To change one, the chain is cut,
and only the links at the cuts are changed.
-/

namespace Library

variable {α : Type}

/-- Neighbours in the list point to each other. -/
def Linked (next prev : α → Option α) (l : List α) : Prop :=
  l.IsChain fun x y => next x = some y ∧ prev y = some x

section

variable {next prev next' prev' : α → Option α} {l m : List α} {head a x y : α}

theorem linked_append : Linked next prev (l ++ m) ↔ Linked next prev l ∧ Linked next prev m ∧
    ∀ x ∈ l.getLast?, ∀ y ∈ m.head?, next x = some y ∧ prev y = some x :=
  List.isChain_append

/-- Only the links inside matter. -/
theorem Linked.congr (h : Linked next prev l) (hnext : ∀ z ∈ l.dropLast, next' z = next z)
    (hprev : ∀ z ∈ l.tail, prev' z = prev z) : Linked next' prev' l := by
  induction l with
  | nil => exact List.IsChain.nil
  | cons x l ih =>
    cases l with
    | nil => exact List.IsChain.singleton x
    | cons y l =>
      obtain ⟨⟨hxy, hyx⟩, hrest⟩ := List.isChain_cons_cons.mp h
      refine List.isChain_cons_cons.mpr ⟨⟨?_, ?_⟩, ih hrest ?_ ?_⟩
      · rw [hnext x (by simp), hxy]
      · rw [hprev y (by simp), hyx]
      · intro z hz
        exact hnext z (by rw [List.dropLast_cons_cons]; exact List.mem_cons_of_mem x hz)
      · intro z hz
        exact hprev z (List.mem_cons_of_mem y hz)

/-- One direction of a ring. -/
theorem seg_iff_isChain : Seg next (some x) (x :: l) (some y) ↔
    (x :: l ++ [y]).IsChain fun x y => next x = some y := by
  induction l generalizing x with
  | nil => simp
  | cons z l ih =>
    rw [List.cons_append, List.cons_append, List.isChain_cons_cons, ← List.cons_append, ← ih]
    simp only [seg_cons, true_and]

theorem linked_iff : Linked next prev l ↔ l.IsChain (fun x y => next x = some y) ∧
    l.IsChain fun x y => prev y = some x := by
  simp only [Linked, List.isChain_iff_forall_rel_of_append_cons_cons]
  exact ⟨fun h => ⟨fun a b l₁ l₂ heq => (h heq).1, fun a b l₁ l₂ heq => (h heq).2⟩,
    fun h a b l₁ l₂ heq => ⟨h.1 heq, h.2 heq⟩⟩

theorem ring_iff_linked : Ring next prev head l ↔
    Linked next prev (head :: l ++ [head]) ∧ (head :: l).Nodup := by
  have hreverse : head :: l.reverse ++ [head] = (head :: l ++ [head]).reverse := by simp
  have hback : Seg prev (some head) (head :: l.reverse) (some head) ↔
      (head :: l ++ [head]).IsChain fun x y => prev y = some x := by
    rw [seg_iff_isChain, hreverse, List.isChain_reverse]
  rw [linked_iff, and_assoc, ← hback, ← seg_iff_isChain]
  exact ⟨fun h => ⟨h.forth, h.back, h.nodup⟩, fun h => ⟨h.1, h.2.1, h.2.2⟩⟩

/-- Where a ring is cut between `x` and `y`, the others differ from them. -/
theorem ne_of_cut {l₁ l₂ : List α} (h : (head :: l).Nodup)
    (hcut : head :: l ++ [head] = l₁ ++ x :: y :: l₂) :
    ((∀ z ∈ l₁, z ≠ x) ∧ ∀ z ∈ (y :: l₂).dropLast, z ≠ x) ∧
      (∀ z ∈ (l₁ ++ [x]).tail, z ≠ y) ∧ ∀ z ∈ l₂, z ≠ y := by
  have hcut₁ : head :: l ++ [head] = (l₁ ++ [x]) ++ y :: l₂ := by
    rw [hcut, List.append_assoc, List.singleton_append]
  have hdrop : head :: l = (l₁ ++ [x]) ++ (y :: l₂).dropLast := by
    rw [← List.dropLast_append_of_ne_nil (List.cons_ne_nil y l₂), ← hcut₁, List.dropLast_concat]
  have htail : l ++ [head] = (l₁ ++ [x]).tail ++ y :: l₂ := by
    rw [← List.tail_append_of_ne_nil (by simp), ← hcut₁, List.cons_append, List.tail_cons]
  have hnodup := (List.perm_append_singleton head l).nodup_iff.mpr h
  rw [hdrop, List.nodup_append, List.nodup_append] at h
  rw [htail, List.nodup_append] at hnodup
  refine ⟨⟨fun z hz => h.1.2.2 z hz x List.mem_cons_self, fun z hz heq => ?_⟩,
    fun z hz => hnodup.2.2 z hz y List.mem_cons_self, fun z hz heq => ?_⟩
  · exact h.2.2 x (by simp) z hz heq.symm
  · exact (List.nodup_cons.mp hnodup.2.1).1 (heq ▸ hz)

namespace Ring

variable {l' l₁ l₂ : List α} {p head' : α}

/-- The neighbours at a cut. -/
theorem link (h : Ring next prev head l) (hcut : head :: l ++ [head] = l₁ ++ x :: y :: l₂) :
    next x = some y ∧ prev y = some x := by
  have hlinked := (ring_iff_linked.mp h).1
  rw [hcut] at hlinked
  exact (List.isChain_append_cons_cons.mp hlinked).2.1

/-- Put `a` in between two neighbours. -/
theorem insertAt [DecidableEq α] (h : Ring next prev head l)
    (hcut : head :: l ++ [head] = l₁ ++ x :: y :: l₂)
    (hcut' : head :: l' ++ [head] = l₁ ++ x :: a :: y :: l₂) (ha : a ∉ head :: l)
    (hnext : ∀ z, next' z = if z = x then some a else if z = a then some y else next z)
    (hprev : ∀ z, prev' z = if z = y then some a else if z = a then some x else prev z) :
    Ring next' prev' head l' := by
  obtain ⟨hlinked, hnodup⟩ := ring_iff_linked.mp h
  obtain ⟨⟨hx₁, hx₂⟩, hy₁, hy₂⟩ := ne_of_cut hnodup hcut
  have hne : ∀ z ∈ l₁ ++ x :: y :: l₂, z ≠ a := by
    rw [← hcut]
    intro z hz heq
    rcases List.mem_append.mp hz with hz | hz
    · exact ha (heq ▸ hz)
    · exact ha (heq ▸ List.mem_singleton.mp hz ▸ List.mem_cons_self)
  have hperm : (head :: l').Perm (a :: head :: l) := by
    apply (List.perm_append_right_iff [head]).mp
    rw [hcut', List.cons_append, hcut]
    have hmiddle := @List.perm_middle α a (l₁ ++ [x]) (y :: l₂)
    simpa using hmiddle
  rw [hcut] at hlinked
  obtain ⟨hfront, -, hback⟩ := List.isChain_append_cons_cons.mp hlinked
  have hxa := hne x (by simp)
  have hya := hne y (by simp)
  refine ring_iff_linked.mpr ⟨?_, hperm.nodup_iff.mpr (List.nodup_cons.mpr ⟨ha, hnodup⟩)⟩
  rw [hcut']
  refine List.isChain_append_cons_cons.mpr ⟨?_, ?_, List.isChain_cons_cons.mpr ⟨?_, ?_⟩⟩
  · refine Linked.congr hfront (fun z hz => ?_) fun z hz => ?_
    · rw [List.dropLast_concat] at hz
      rw [hnext, if_neg (hx₁ z hz), if_neg (hne z (List.mem_append_left _ hz))]
    · have hmem : z ∈ l₁ ++ x :: y :: l₂ := by
        have hmem := List.mem_of_mem_tail hz
        rw [List.append_cons]
        exact List.mem_append_left _ hmem
      rw [hprev, if_neg (hy₁ z hz), if_neg (hne z hmem)]
  · rw [hnext, hprev, if_pos rfl, if_neg hya.symm, if_pos rfl]
    exact ⟨rfl, rfl⟩
  · rw [hnext, hprev, if_neg hxa.symm, if_pos rfl, if_pos rfl]
    exact ⟨rfl, rfl⟩
  · refine Linked.congr hback (fun z hz => ?_) fun z hz => ?_
    · have hmem := List.mem_append_right l₁ (List.mem_cons_of_mem x (List.dropLast_subset _ hz))
      rw [hnext, if_neg (hx₂ z hz), if_neg (hne z hmem)]
    · have hmem := List.mem_append_right l₁
        (List.mem_cons_of_mem x (List.mem_cons_of_mem y hz))
      rw [hprev, if_neg (hy₂ z hz), if_neg (hne z hmem)]

/-- Only what the cells of the ring point to matters. -/
theorem congr (h : Ring next prev head l) (hnext : ∀ z ∈ head :: l, next' z = next z)
    (hprev : ∀ z ∈ head :: l, prev' z = prev z) : Ring next' prev' head l := by
  refine ⟨h.forth.congr hnext, h.back.congr fun z hz => hprev z ?_, h.nodup⟩
  simpa using hz

/-- The cells in front of the last one differ from it. -/
private theorem ne_last {k : List α} (h : l.Nodup) (hx : l = k ++ [x]) :
    l.getLast? = some x ∧ ∀ z ∈ l.dropLast, z ≠ x := by
  subst hx
  rw [List.dropLast_concat]
  exact ⟨by simp, fun z hz => (List.nodup_append.mp h).2.2 z hz x List.mem_cons_self⟩

/-- Put the cells of a ring, from `f` to `y`, in at the end of another, behind `x`. -/
theorem join [DecidableEq α] {k k' t : List α} {f : α} (h : Ring next prev head l)
    (h' : Ring next prev head' l') (hdisj : ∀ z ∈ head :: l, z ∉ head' :: l')
    (hx : head :: l = k ++ [x]) (hf : l' = f :: t) (hy : l' = k' ++ [y])
    (hnext : ∀ z, z ≠ head' →
      next' z = if z = y then some head else if z = x then some f else next z)
    (hprev : ∀ z, z ≠ head' →
      prev' z = if z = head then some y else if z = f then some x else prev z) :
    Ring next' prev' head (l ++ l') := by
  obtain ⟨hlinked, hnodup⟩ := ring_iff_linked.mp h
  obtain ⟨hlinked', hnodup'⟩ := ring_iff_linked.mp h'
  have hl := (linked_append.mp hlinked).1
  have hl' : Linked next prev l' := (linked_append.mp hlinked').1.tail
  obtain ⟨hhead', hl'nodup⟩ := List.nodup_cons.mp hnodup'
  obtain ⟨hlast, hnex⟩ := ne_last hnodup hx
  obtain ⟨hlast', hney⟩ := ne_last hl'nodup hy
  have hdis : ∀ z ∈ head :: l, z ∉ l' := fun z hz hz' =>
    hdisj z hz (List.mem_cons_of_mem head' hz')
  have hne : ∀ z ∈ head :: l, z ≠ head' := fun z hz heq =>
    hdisj z hz (heq ▸ List.mem_cons_self)
  have hne' : ∀ z ∈ l', z ≠ head' := fun z hz heq => hhead' (heq ▸ hz)
  have hxmem : x ∈ head :: l := List.mem_of_getLast? hlast
  have hymem : y ∈ l' := List.mem_of_getLast? hlast'
  have hfmem : f ∈ l' := hf ▸ List.mem_cons_self
  have hhead : head ∈ head :: l := List.mem_cons_self
  have hcross : ∀ z ∈ head :: l, ∀ w ∈ l', z ≠ w := fun z hz w hw heq => hdis z hz (heq ▸ hw)
  have hfirst : f ∉ t := (List.nodup_cons.mp (hf ▸ hl'nodup)).1
  refine ring_iff_linked.mpr ⟨?_, ?_⟩
  · rw [← List.cons_append, List.append_assoc, linked_append, linked_append]
    refine ⟨?_, ⟨?_, List.IsChain.singleton head, ?_⟩, ?_⟩
    · refine hl.congr (fun z hz => ?_) fun z hz => ?_
      · have hmem := List.dropLast_subset _ hz
        rw [hnext z (hne z hmem), if_neg (hcross z hmem y hymem), if_neg (hnex z hz)]
      · have hmem := List.mem_cons_of_mem head hz
        have hzhead : z ≠ head := fun heq => (List.nodup_cons.mp hnodup).1 (heq ▸ hz)
        rw [hprev z (hne z hmem), if_neg hzhead, if_neg (hcross z hmem f hfmem)]
    · refine hl'.congr (fun z hz => ?_) fun z hz => ?_
      · have hmem := List.dropLast_subset _ hz
        rw [hnext z (hne' z hmem), if_neg (hney z hz), if_neg (hcross x hxmem z hmem).symm]
      · have hmem := List.mem_of_mem_tail hz
        have hzf : z ≠ f := by
          rintro rfl
          rw [hf] at hz
          exact hfirst hz
        rw [hprev z (hne' z hmem), if_neg (hcross head hhead z hmem).symm, if_neg hzf]
    · rintro z hz w hw
      cases hlast'.symm.trans hz
      cases hw
      rw [hnext y (hne' y hymem), hprev head (hne head hhead), if_pos rfl, if_pos rfl]
      exact ⟨rfl, rfl⟩
    · rintro z hz w hw
      cases hlast.symm.trans hz
      rw [hf] at hw
      cases hw
      rw [hnext x (hne x hxmem), hprev f (hne' f hfmem), if_neg (hcross x hxmem y hymem),
        if_pos rfl, if_neg (hcross head hhead f hfmem).symm, if_pos rfl]
      exact ⟨rfl, rfl⟩
  · rw [← List.cons_append, List.nodup_append]
    exact ⟨hnodup, hl'nodup, hcross⟩

/-- Cut a ring in front of `p`: the cells from `p` to `y` get the head `dest`. -/
theorem split [DecidableEq α] {k₁ k₂ : List α} {dest : α}
    (h : Ring next prev head (l₁ ++ p :: l₂)) (hdest : dest ∉ head :: (l₁ ++ p :: l₂))
    (hx : head :: l₁ = k₁ ++ [x]) (hy : p :: l₂ = k₂ ++ [y])
    (hnext : ∀ z, next' z =
      if z = x then some head else if z = dest then some p else if z = y then some dest else next z)
    (hprev : ∀ z, prev' z =
      if z = p then some dest else if z = head then some x else if z = dest then some y
      else prev z) :
    Ring next' prev' head l₁ ∧ Ring next' prev' dest (p :: l₂) := by
  obtain ⟨hlinked, hnodup⟩ := ring_iff_linked.mp h
  rw [← List.cons_append] at hnodup hdest hlinked
  rw [List.append_assoc, linked_append, linked_append] at hlinked
  obtain ⟨hfront, ⟨hback, -⟩, -⟩ := hlinked
  obtain ⟨hnodup₁, hnodup₂, hcross⟩ := List.nodup_append.mp hnodup
  obtain ⟨hlast, hnex⟩ := ne_last hnodup₁ hx
  obtain ⟨hlast', hney⟩ := ne_last hnodup₂ hy
  have hne₁ : ∀ z ∈ head :: l₁, z ≠ dest := fun z hz heq =>
    hdest (heq ▸ List.mem_append_left _ hz)
  have hne₂ : ∀ z ∈ p :: l₂, z ≠ dest := fun z hz heq =>
    hdest (heq ▸ List.mem_append_right _ hz)
  have hxmem : x ∈ head :: l₁ := List.mem_of_getLast? hlast
  have hymem : y ∈ p :: l₂ := List.mem_of_getLast? hlast'
  have hpmem : p ∈ p :: l₂ := List.mem_cons_self
  have hhead : head ∈ head :: l₁ := List.mem_cons_self
  constructor
  · refine ring_iff_linked.mpr ⟨linked_append.mpr ⟨?_, List.IsChain.singleton head, ?_⟩, hnodup₁⟩
    · refine hfront.congr (fun z hz => ?_) fun z hz => ?_
      · have hmem := List.dropLast_subset _ hz
        rw [hnext, if_neg (hnex z hz), if_neg (hne₁ z hmem), if_neg (hcross z hmem y hymem)]
      · have hmem := List.mem_cons_of_mem head hz
        have hzhead : z ≠ head := fun heq => (List.nodup_cons.mp hnodup₁).1 (heq ▸ hz)
        rw [hprev, if_neg (hcross z hmem p hpmem), if_neg hzhead, if_neg (hne₁ z hmem)]
    · rintro z hz w hw
      cases hlast.symm.trans hz
      cases hw
      rw [hnext, hprev, if_pos rfl, if_neg (hcross head hhead p hpmem), if_pos rfl]
      exact ⟨rfl, rfl⟩
  · have hring : Linked next' prev' (p :: l₂) := by
      refine hback.congr (fun z hz => ?_) fun z hz => ?_
      · have hmem := List.dropLast_subset _ hz
        rw [hnext, if_neg (hcross x hxmem z hmem).symm, if_neg (hne₂ z hmem), if_neg (hney z hz)]
      · have hmem := List.mem_cons_of_mem p hz
        have hzp : z ≠ p := fun heq => (List.nodup_cons.mp hnodup₂).1 (heq ▸ hz)
        rw [hprev, if_neg hzp, if_neg (hcross head hhead z hmem).symm, if_neg (hne₂ z hmem)]
    refine ring_iff_linked.mpr ⟨?_, List.nodup_cons.mpr ⟨fun hmem => hne₂ dest hmem rfl, hnodup₂⟩⟩
    refine List.isChain_cons_cons.mpr ⟨?_, linked_append.mpr ⟨hring, List.IsChain.singleton _, ?_⟩⟩
    · rw [hnext, hprev, if_neg (hne₁ x hxmem).symm, if_pos rfl, if_pos rfl]
      exact ⟨rfl, rfl⟩
    · rintro z hz w hw
      cases hlast'.symm.trans hz
      cases hw
      rw [hnext, hprev, if_neg (hcross x hxmem y hymem).symm, if_neg (hne₂ y hymem), if_pos rfl,
        if_neg (hne₂ p hpmem).symm, if_neg (hne₁ head hhead).symm, if_pos rfl]
      exact ⟨rfl, rfl⟩

end Ring

end

end Library
