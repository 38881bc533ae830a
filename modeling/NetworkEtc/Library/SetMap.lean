-- SUMMARY: Ordered maps from keys to ordered sets, in which the members of a set are filed.
import Mathlib.Data.List.Sort
import Mathlib.Order.Defs.LinearOrder

/-!
# Maps to sets

A map is the list of its entries in the order of their keys, and a set the list of its members in
their order. An entry stays when its set gets empty.
-/

namespace Library

variable {α κ : Type} [DecidableEq α] [LinearOrder κ]

/-- The set with another member. -/
def setInsert (le : α → α → Prop) [DecidableRel le] (a : α) (set : List α) : List α :=
  if a ∈ set then set else set.orderedInsert le a

variable {le : α → α → Prop} [DecidableRel le] {a b : α} {set : List α}

@[simp] theorem mem_setInsert : b ∈ setInsert le a set ↔ b = a ∨ b ∈ set := by
  unfold setInsert
  split
  · next ha =>
    refine ⟨Or.inr, ?_⟩
    rintro (rfl | hb)
    · exact ha
    · exact hb
  · exact List.mem_orderedInsert le

theorem nodup_setInsert (h : set.Nodup) : (setInsert le a set).Nodup := by
  unfold setInsert
  split
  · exact h
  · next ha => exact (List.perm_orderedInsert le a set).nodup_iff.mpr (List.nodup_cons.mpr ⟨ha, h⟩)

/-- A map from keys to sets. -/
abbrev SetMap (κ α : Type) := List (κ × List α)

namespace SetMap

/-- `operator[]` makes an entry for a key that has none. -/
def touch (map : SetMap κ α) (k : κ) : SetMap κ α :=
  if k ∈ map.map Prod.fst then map else map.orderedInsert (fun a b => a.1 ≤ b.1) (k, [])

/-- Another member for the set of `k`. -/
def file (le : α → α → Prop) [DecidableRel le] (map : SetMap κ α) (k : κ) (a : α) : SetMap κ α :=
  (map.touch k).map fun e => if e.1 = k then (e.1, setInsert le a e.2) else e

/-- A member leaves the set of `k`. -/
def strike (map : SetMap κ α) (k : κ) (a : α) : SetMap κ α :=
  (map.touch k).map fun e => if e.1 = k then (e.1, e.2.filter (· ≠ a)) else e

/-- `a` is filed under `k`. -/
def Filed (map : SetMap κ α) (k : κ) (a : α) : Prop := ∃ set, (k, set) ∈ map ∧ a ∈ set

variable {map : SetMap κ α} {k k' : κ}

omit [DecidableEq α] in
theorem mem_touch {e : κ × List α} (h : e ∈ map.touch k) : e ∈ map ∨ e = (k, []) := by
  unfold touch at h
  split at h
  · exact Or.inl h
  · exact ((List.mem_orderedInsert _).mp h).symm

omit [DecidableEq α] in
theorem touch_key (map : SetMap κ α) (k : κ) : ∃ set, (k, set) ∈ map.touch k := by
  unfold touch
  split
  · next hk =>
    obtain ⟨⟨k, set⟩, he, rfl⟩ := List.mem_map.mp hk
    exact ⟨set, he⟩
  · exact ⟨[], (List.mem_orderedInsert _).mpr (Or.inl rfl)⟩

omit [DecidableEq α] [LinearOrder κ] in
@[simp] theorem filed_nil : ¬ Filed ([] : SetMap κ α) k a := by
  rintro ⟨set, h, -⟩
  exact List.not_mem_nil h

omit [DecidableEq α] in
@[simp] theorem filed_touch : (map.touch k').Filed k a ↔ map.Filed k a := by
  constructor
  · rintro ⟨set, h, ha⟩
    rcases mem_touch h with h | h
    · exact ⟨set, h, ha⟩
    · cases h
      exact absurd ha List.not_mem_nil
  · rintro ⟨set, h, ha⟩
    refine ⟨set, ?_, ha⟩
    unfold touch
    split
    · exact h
    · exact (List.mem_orderedInsert _).mpr (Or.inr h)

@[simp] theorem filed_file : (map.file le k a).Filed k' b ↔ k' = k ∧ b = a ∨ map.Filed k' b := by
  constructor
  · rintro ⟨set, h, hb⟩
    obtain ⟨⟨k₁, set₁⟩, he, heq⟩ := List.mem_map.mp h
    split at heq
    · next hk =>
      obtain ⟨rfl, rfl⟩ := Prod.mk.inj heq
      rcases mem_setInsert.mp hb with rfl | hb
      · exact Or.inl ⟨hk, rfl⟩
      · exact Or.inr (filed_touch.mp ⟨set₁, he, hb⟩)
    · obtain ⟨rfl, rfl⟩ := Prod.mk.inj heq
      exact Or.inr (filed_touch.mp ⟨set₁, he, hb⟩)
  · rintro (⟨rfl, rfl⟩ | h)
    · obtain ⟨set, he⟩ := touch_key map k'
      exact ⟨setInsert le b set, List.mem_map.mpr ⟨(k', set), he, if_pos rfl⟩,
        mem_setInsert.mpr (Or.inl rfl)⟩
    · obtain ⟨set, he, hb⟩ := filed_touch.mpr h
      by_cases hk : k' = k
      · exact ⟨setInsert le a set, List.mem_map.mpr ⟨(k', set), he, if_pos hk⟩,
          mem_setInsert.mpr (Or.inr hb)⟩
      · exact ⟨set, List.mem_map.mpr ⟨(k', set), he, if_neg hk⟩, hb⟩

@[simp] theorem filed_strike : (map.strike k a).Filed k' b ↔ map.Filed k' b ∧ ¬ (k' = k ∧ b = a) := by
  constructor
  · rintro ⟨set, h, hb⟩
    obtain ⟨⟨k₁, set₁⟩, he, heq⟩ := List.mem_map.mp h
    split at heq
    · next hk =>
      obtain ⟨rfl, rfl⟩ := Prod.mk.inj heq
      obtain ⟨hb, hne⟩ := List.mem_filter.mp hb
      exact ⟨filed_touch.mp ⟨set₁, he, hb⟩, fun h => of_decide_eq_true hne h.2⟩
    · next hk =>
      obtain ⟨rfl, rfl⟩ := Prod.mk.inj heq
      exact ⟨filed_touch.mp ⟨set₁, he, hb⟩, fun h => hk h.1⟩
  · rintro ⟨h, hne⟩
    obtain ⟨set, he, hb⟩ := filed_touch.mpr h
    by_cases hk : k' = k
    · exact ⟨set.filter (· ≠ a), List.mem_map.mpr ⟨(k', set), he, if_pos hk⟩,
        List.mem_filter.mpr ⟨hb, decide_eq_true fun hba => hne ⟨hk, hba⟩⟩⟩
    · exact ⟨set, List.mem_map.mpr ⟨(k', set), he, if_neg hk⟩, hb⟩

/-- The members are filed one after the other. -/
def fileAll (le : α → α → Prop) [DecidableRel le] (l : List (κ × α)) : SetMap κ α :=
  l.foldl (fun map e => map.file le e.1 e.2) []

theorem filed_foldl (l : List (κ × α)) (map : SetMap κ α) :
    (l.foldl (fun map e => map.file le e.1 e.2) map).Filed k a ↔ (k, a) ∈ l ∨ map.Filed k a := by
  induction l generalizing map with
  | nil => simp
  | cons e l ih =>
    rw [List.foldl_cons, ih, filed_file, List.mem_cons, Prod.ext_iff, or_assoc, or_left_comm]

@[simp] theorem filed_fileAll {l : List (κ × α)} : (fileAll le l).Filed k a ↔ (k, a) ∈ l := by
  rw [fileAll, filed_foldl, or_iff_left filed_nil]

end SetMap

end Library
