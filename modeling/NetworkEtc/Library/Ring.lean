-- SUMMARY: Doubly linked rings through a head: putting a cell in at the end, taking any cell out.
import NetworkEtc.Library.Links

/-!
# Rings

`Ring next prev head l` says that the cells of `l`, in order, and then `head` again are
met from `head` along `next`, and the other way round along `prev`.
-/

namespace Library

variable {α : Type}

structure Ring (next prev : α → Option α) (head : α) (l : List α) : Prop where
  forth : Seg next (some head) (head :: l) (some head)
  back : Seg prev (some head) (head :: l.reverse) (some head)
  nodup : (head :: l).Nodup

namespace Ring

variable {next prev next' prev' : α → Option α} {head a : α} {l l₁ l₂ : List α}

theorem nil (hnext : next head = some head) (hprev : prev head = some head) :
    Ring next prev head [] :=
  ⟨⟨rfl, hnext⟩, ⟨rfl, hprev⟩, List.nodup_singleton head⟩

theorem reverse (h : Ring next prev head l) : Ring prev next head l.reverse := by
  refine ⟨h.back, ?_, ?_⟩
  · rw [List.reverse_reverse]
    exact h.forth
  · have hnodup := List.nodup_cons.mp h.nodup
    refine List.nodup_cons.mpr ⟨fun hmem => hnodup.1 (List.mem_reverse.mp hmem), ?_⟩
    exact List.nodup_reverse.mpr hnodup.2

theorem next_head (h : Ring next prev head l) : next head = l.head?.or (some head) :=
  Seg.start h.forth.2

theorem next_eq (h : Ring next prev head (l₁ ++ a :: l₂)) :
    next a = l₂.head?.or (some head) := by
  obtain ⟨_, -, rfl, hback⟩ := seg_append.mp h.forth.2
  exact hback.start

theorem prev_eq (h : Ring next prev head (l₁ ++ a :: l₂)) :
    prev a = (head :: l₁).getLast? := by
  have hreverse := h.reverse
  rw [List.reverse_append, List.reverse_cons, List.append_assoc, List.singleton_append] at hreverse
  rw [hreverse.next_eq, List.head?_reverse, List.getLast?_cons]
  cases l₁.getLast? <;> rfl

theorem prev_head (h : Ring next prev head l) : prev head = (head :: l).getLast? := by
  rw [h.reverse.next_head, List.head?_reverse, List.getLast?_cons]
  cases l.getLast? <;> rfl

theorem exists_last (h : Ring next prev head l) : ∃ z, prev head = some z := by
  rw [h.prev_head]
  exact ⟨_, List.getLast?_eq_some_getLast (List.cons_ne_nil _ _)⟩

/-- Every other cell of the ring is another cell. -/
theorem ne_of_mem (h : Ring next prev head (l₁ ++ a :: l₂)) {z : α}
    (hz : z ∈ head :: (l₁ ++ l₂)) : z ≠ a := by
  have hperm : (head :: (l₁ ++ a :: l₂)).Perm (a :: head :: (l₁ ++ l₂)) :=
    (List.perm_middle.cons head).trans (List.Perm.swap a head _)
  rintro rfl
  exact (List.nodup_cons.mp (hperm.nodup h.nodup)).1 hz

/-- A cell stands between two others, or between the head and itself. -/
theorem neighbours (h : Ring next prev head (l₁ ++ a :: l₂)) :
    ∃ n p, next a = some n ∧ prev a = some p ∧ n ≠ a ∧ p ≠ a := by
  obtain ⟨n, hn⟩ : ∃ n, l₂.head?.or (some head) = some n := by
    cases l₂.head? <;> exact ⟨_, rfl⟩
  obtain ⟨p, hp⟩ : ∃ p, (head :: l₁).getLast? = some p :=
    ⟨_, List.getLast?_eq_some_getLast (List.cons_ne_nil _ _)⟩
  refine ⟨n, p, h.next_eq.trans hn, h.prev_eq.trans hp, h.ne_of_mem ?_, h.ne_of_mem ?_⟩
  · cases hhead : l₂.head? with
    | none =>
      rw [hhead] at hn
      cases hn
      exact List.mem_cons_self
    | some y =>
      rw [hhead] at hn
      cases hn
      exact List.mem_cons_of_mem _ (List.mem_append_right _ (List.mem_of_head? hhead))
  · rw [← List.cons_append]
    exact List.mem_append_left _ (List.mem_of_getLast? hp)

/-- The last cell points to the head. -/
theorem next_last (h : Ring next prev head l) {z : α} (hz : prev head = some z) :
    next z = some head := by
  have hforth := h.forth
  rw [h.prev_head] at hz
  rw [← List.dropLast_append_getLast? z hz] at hforth
  exact (seg_concat.mp hforth).2

/-- Put `a` in before the head. -/
theorem insert (h : Ring next prev head l) (ha : a ∉ head :: l) (hna : next' a = some head)
    (hpa : prev' a = prev head) (hph : prev' head = some a)
    (hlast : ∀ z, prev head = some z → next' z = some a)
    (hnext : ∀ z ∈ head :: l, prev head ≠ some z → next' z = next z)
    (hprev : ∀ z ∈ l, prev' z = prev z) : Ring next' prev' head (l ++ [a]) := by
  refine ⟨?_, ?_, ?_⟩
  · rw [← List.cons_append]
    refine seg_concat.mpr ⟨h.forth.extend ?_ ?_ (by simp), hna⟩
    · intro z hz
      exact hlast z (h.prev_head.trans hz)
    · intro z hz
      refine hnext z (List.dropLast_subset _ hz) fun heq => ?_
      -- the last cell occurs once
      rw [h.prev_head] at heq
      have hnodup := h.nodup
      rw [← List.dropLast_append_getLast? z heq, List.nodup_append] at hnodup
      exact hnodup.2.2 z hz z (by simp) rfl
  · rw [List.reverse_append, List.reverse_singleton, List.singleton_append]
    refine ⟨rfl, hph, ?_⟩
    rw [hpa]
    exact h.back.2.congr fun z hz => hprev z (List.mem_reverse.mp hz)
  · rw [← List.cons_append, List.nodup_append]
    refine ⟨h.nodup, List.nodup_singleton a, fun z hz b hb => ?_⟩
    rw [List.mem_singleton] at hb
    rintro rfl
    exact ha (hb ▸ hz)

/-- One direction of a removal. -/
private theorem forth_unlink [DecidableEq α] (h : Ring next prev head (l₁ ++ a :: l₂))
    (hnext : ∀ z ∈ head :: (l₁ ++ l₂), next' z = if prev a = some z then next a else next z) :
    Seg next' (some head) (head :: (l₁ ++ l₂)) (some head) := by
  have hnodup := h.nodup
  rw [← List.cons_append, List.nodup_append] at hnodup
  obtain ⟨h₁, -, hdisj⟩ := hnodup
  have hforth := h.forth
  rw [← List.cons_append] at hforth hnext ⊢
  refine hforth.remove (by simp) (fun _ => rfl) ?_ ?_ ?_
  · intro z hz
    have hmem : z ∈ head :: l₁ := List.mem_of_getLast? hz
    rw [hnext z (List.mem_append_left l₂ hmem), if_pos (h.prev_eq.trans hz)]
  · intro z hz
    rw [hnext z (List.mem_append_left l₂ (List.dropLast_subset _ hz)), if_neg]
    rw [h.prev_eq]
    intro hlast
    rw [← List.dropLast_append_getLast? z hlast, List.nodup_append] at h₁
    exact h₁.2.2 z hz z (by simp) rfl
  · intro z hz
    rw [hnext z (List.mem_append_right _ hz), if_neg]
    rw [h.prev_eq]
    intro hlast
    exact hdisj z (List.mem_of_getLast? hlast) z (List.mem_cons_of_mem a hz) rfl

/-- Take `a` out, wherever it is. -/
theorem remove [DecidableEq α] (h : Ring next prev head (l₁ ++ a :: l₂))
    (hnext : ∀ z ∈ head :: (l₁ ++ l₂), next' z = if prev a = some z then next a else next z)
    (hprev : ∀ z ∈ head :: (l₁ ++ l₂), prev' z = if next a = some z then prev a else prev z) :
    Ring next' prev' head (l₁ ++ l₂) := by
  refine ⟨h.forth_unlink hnext, ?_, ?_⟩
  · have hback := h.reverse
    simp only [List.reverse_append, List.reverse_cons, List.append_assoc, List.singleton_append]
      at hback ⊢
    apply hback.forth_unlink
    intro z hz
    apply hprev
    simpa [or_comm] using hz
  · exact h.nodup.sublist (List.Sublist.cons_cons head
      (List.Sublist.append_left (List.sublist_cons_self a l₂) l₁))

end Ring

end Library
