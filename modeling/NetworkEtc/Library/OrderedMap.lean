-- SUMMARY: Lists of keys with values in the order of the keys, each key once.
import Mathlib.Order.Defs.Unbundled

/-!
# Ordered maps

`set` puts a value under a key, where the order of the keys has its place.
-/

namespace Library.OrderedMap

theorem lookup_cons {κ α : Type} [DecidableEq κ] [BEq κ] [LawfulBEq κ] (key : κ) (p : κ × α)
    (m : List (κ × α)) :
    (p :: m).lookup key = if key = p.1 then some p.2 else m.lookup key := by
  rw [List.lookup_cons]
  by_cases heq : key = p.1
  · rw [if_pos heq, beq_iff_eq.mpr heq]
  · rw [if_neg heq, beq_eq_false_iff_ne.mpr heq]

variable {κ α : Type} [LT κ]

/-- The keys grow from left to right. -/
def Sorted (m : List (κ × α)) : Prop := m.Pairwise fun p q => p.1 < q.1

variable [DecidableLT κ] [DecidableEq κ]

/-- `m[key] = value`, up from the first entry whose key is not below `key`. -/
def set (key : κ) (value : α) : List (κ × α) → List (κ × α)
  | [] => [(key, value)]
  | p :: m =>
    if p.1 < key then p :: set key value m
    else if p.1 = key then (key, value) :: m
    else (key, value) :: p :: m

variable {key : κ} {value : α} {m : List (κ × α)} {p : κ × α}

theorem mem_set (h : p ∈ set key value m) : p = (key, value) ∨ p ∈ m := by
  induction m with
  | nil => exact Or.inl (List.mem_singleton.mp h)
  | cons q m ih =>
    unfold set at h
    split at h
    · rcases List.mem_cons.mp h with rfl | h
      · exact Or.inr List.mem_cons_self
      · exact (ih h).imp id (List.mem_cons_of_mem q)
    · split at h
      · exact (List.mem_cons.mp h).imp id (List.mem_cons_of_mem q)
      · exact List.mem_cons.mp h

/-- A key behind all others is put at the end. -/
theorem set_of_last (h : ∀ p ∈ m, p.1 < key) : set key value m = m ++ [(key, value)] := by
  induction m with
  | nil => rfl
  | cons q m ih =>
    unfold set
    rw [if_pos (h q List.mem_cons_self), ih fun p hp => h p (List.mem_cons_of_mem q hp)]
    rfl

/-- A sorted list is what its entries make one after another. -/
theorem foldl_set {done : List (κ × α)} (h : Sorted (done ++ m)) :
    m.foldl (fun m p => set p.1 p.2 m) done = done ++ m := by
  induction m generalizing done with
  | nil => exact (List.append_nil done).symm
  | cons p m ih =>
    have hlast : ∀ q ∈ done, q.1 < p.1 :=
      fun q hq => (List.pairwise_append.mp h).2.2 q hq p List.mem_cons_self
    rw [List.append_cons] at h ⊢
    rw [List.foldl_cons, set_of_last hlast]
    exact ih h

variable [IsStrictTotalOrder κ (· < ·)]

theorem Sorted.set (h : Sorted m) : Sorted (set key value m) := by
  induction m with
  | nil => exact List.pairwise_singleton _ _
  | cons q m ih =>
    obtain ⟨hq, hm⟩ := List.pairwise_cons.mp h
    unfold OrderedMap.set
    split
    · next hlt =>
      refine List.pairwise_cons.mpr ⟨fun p hp => ?_, ih hm⟩
      rcases mem_set hp with rfl | hp
      · exact hlt
      · exact hq p hp
    · next hnot =>
      split
      · next heq => exact List.pairwise_cons.mpr ⟨fun p hp => heq ▸ hq p hp, hm⟩
      · next hne =>
        have hlt : key < q.1 := by
          rcases trichotomous_of (· < ·) q.1 key with hlt | heq | hlt
          · exact absurd hlt hnot
          · exact absurd heq hne
          · exact hlt
        refine List.pairwise_cons.mpr ⟨fun p hp => ?_, h⟩
        rcases List.mem_cons.mp hp with rfl | hp
        · exact hlt
        · exact trans_of (· < ·) hlt (hq p hp)

theorem sorted_foldl_set {done : List (κ × α)} (h : Sorted done) :
    Sorted (m.foldl (fun m p => OrderedMap.set p.1 p.2 m) done) := by
  induction m generalizing done with
  | nil => exact h
  | cons p m ih => exact ih h.set

variable [BEq κ] [LawfulBEq κ]

theorem lookup_set (key' : κ) :
    (set key value m).lookup key' = if key' = key then some value else m.lookup key' := by
  induction m with
  | nil => exact lookup_cons key' (key, value) []
  | cons q m ih =>
    unfold set
    split
    · next hlt =>
      rw [lookup_cons, lookup_cons, ih]
      by_cases heq : key' = q.1
      · have hne : key' ≠ key := by
          rintro rfl
          exact irrefl_of (· < ·) key' (heq ▸ hlt)
        rw [if_pos heq, if_neg hne, if_pos heq]
      · rw [if_neg heq, if_neg heq]
    · split
      · next heq =>
        rw [lookup_cons, lookup_cons, heq]
        by_cases hkey : key' = key
        · rw [if_pos hkey, if_pos hkey]
        · rw [if_neg hkey, if_neg hkey, if_neg hkey]
      · exact lookup_cons key' (key, value) (q :: m)

/-- The last entry for a key is the one that is found. -/
theorem lookup_foldl_set (done : List (κ × α)) (key : κ) :
    (m.foldl (fun m p => set p.1 p.2 m) done).lookup key =
      (m.reverse.lookup key).or (done.lookup key) := by
  induction m generalizing done with
  | nil => rfl
  | cons p m ih =>
    rw [List.foldl_cons, ih, lookup_set, List.reverse_cons, List.lookup_append, Option.or_assoc,
      lookup_cons key p []]
    by_cases heq : key = p.1
    · rw [if_pos heq, if_pos heq]
      rfl
    · rw [if_neg heq, if_neg heq]
      rfl

end Library.OrderedMap
