-- SUMMARY: Maps that count: a key is in the map so long as its count is not zero.
import Mathlib.Data.List.Basic
import Mathlib.Logic.Function.Basic

/-!
# Maps that count

`bump` counts a key once more, and `drop` once less. A key that is not in the map cannot be counted
less.
-/

namespace Library

variable {κ : Type} [DecidableEq κ]

/-- The keys with their counts. -/
abbrev CountMap (κ : Type) := List (κ × Int)

namespace CountMap

/-- `map[k]++` -/
def bump (map : CountMap κ) (k : κ) : CountMap κ :=
  if k ∈ map.map Prod.fst then map.map fun e => if e.1 = k then (e.1, e.2 + 1) else e
  else (k, 1) :: map

/-- `map[k]--`, and the key goes when nothing is left of it. -/
def drop (map : CountMap κ) (k : κ) : Option (CountMap κ) :=
  if k ∈ map.map Prod.fst then
    some ((map.map fun e => if e.1 = k then (e.1, e.2 - 1) else e).filter
      fun e => ¬ (e.1 = k ∧ e.2 = 0))
  else none

/-- The map has the keys that are counted, with their counts. -/
def Counts (map : CountMap κ) (f : κ → Nat) : Prop :=
  ∀ k n, (k, n) ∈ map ↔ n = f k ∧ 0 < f k

variable {map : CountMap κ} {f g : κ → Nat} {k : κ}

omit [DecidableEq κ] in
theorem Counts.congr (h : map.Counts f) (hfg : ∀ k, f k = g k) : map.Counts g := by
  intro k n
  rw [h, hfg]

omit [DecidableEq κ] in
theorem counts_nil (h : ∀ k, f k = 0) : Counts ([] : CountMap κ) f := by
  intro k n
  simp [h k]

omit [DecidableEq κ] in
theorem Counts.eq_nil_iff (h : map.Counts f) : map = [] ↔ ∀ k, f k = 0 := by
  constructor
  · rintro rfl k
    by_contra hne
    exact List.not_mem_nil ((h k (f k)).mpr ⟨rfl, Nat.pos_of_ne_zero hne⟩)
  · intro hzero
    refine List.eq_nil_iff_forall_not_mem.mpr ?_
    rintro ⟨k, n⟩ hmem
    have := ((h k n).mp hmem).2
    rw [hzero k] at this
    exact Nat.lt_irrefl 0 this

omit [DecidableEq κ] in
theorem Counts.mem_keys (h : map.Counts f) : k ∈ map.map Prod.fst ↔ 0 < f k := by
  rw [List.mem_map]
  constructor
  · rintro ⟨⟨k, n⟩, hmem, rfl⟩
    exact ((h k n).mp hmem).2
  · exact fun hpos => ⟨(k, f k), (h k _).mpr ⟨rfl, hpos⟩, rfl⟩

theorem Counts.bump (h : map.Counts f) (k : κ) :
    (map.bump k).Counts (Function.update f k (f k + 1)) := by
  intro k' n
  unfold CountMap.bump
  by_cases hmem : k ∈ map.map Prod.fst
  · have hpos := h.mem_keys.mp hmem
    rw [if_pos hmem, List.mem_map]
    by_cases hk : k' = k
    · subst hk
      rw [Function.update_self]
      constructor
      · rintro ⟨⟨k, m⟩, hm, heq⟩
        obtain ⟨rfl, -⟩ := (h k m).mp hm
        split at heq
        · next hkk =>
          obtain ⟨rfl, rfl⟩ := Prod.mk.inj heq
          exact ⟨by push_cast; rfl, by omega⟩
        · next hkk => exact absurd (Prod.mk.inj heq).1 hkk
      · rintro ⟨rfl, -⟩
        exact ⟨(k', f k'), (h k' _).mpr ⟨rfl, hpos⟩, by rw [if_pos rfl]; push_cast; rfl⟩
    · rw [Function.update_of_ne hk, ← h]
      constructor
      · rintro ⟨⟨k₁, m⟩, hm, heq⟩
        split at heq
        · next hkk => exact absurd ((Prod.mk.inj heq).1.symm.trans hkk) hk
        · rw [← heq]
          exact hm
      · exact fun hm => ⟨(k', n), hm, if_neg hk⟩
  · have hzero : f k = 0 := by
      by_contra hne
      exact hmem (h.mem_keys.mpr (Nat.pos_of_ne_zero hne))
    rw [if_neg hmem, List.mem_cons]
    by_cases hk : k' = k
    · subst hk
      rw [Function.update_self, hzero]
      constructor
      · rintro (heq | hm)
        · exact ⟨(Prod.mk.inj heq).2, by omega⟩
        · exact absurd ((h k' n).mp hm).2 (by omega)
      · rintro ⟨rfl, -⟩
        exact Or.inl rfl
    · rw [Function.update_of_ne hk, ← h]
      exact or_iff_right fun heq => hk (Prod.mk.inj heq).1

theorem Counts.drop (h : map.Counts f) (hpos : 0 < f k) :
    ∃ map', map.drop k = some map' ∧ map'.Counts (Function.update f k (f k - 1)) := by
  unfold CountMap.drop
  rw [if_pos (h.mem_keys.mpr hpos)]
  refine ⟨_, rfl, fun k' n => ?_⟩
  rw [List.mem_filter, List.mem_map, decide_eq_true_iff]
  by_cases hk : k' = k
  · subst hk
    rw [Function.update_self]
    constructor
    · rintro ⟨⟨⟨k, m⟩, hm, heq⟩, hne⟩
      obtain ⟨rfl, -⟩ := (h k m).mp hm
      dsimp only at heq
      split at heq
      · next hkk =>
        obtain ⟨rfl, rfl⟩ := Prod.mk.inj heq
        dsimp only at hne
        refine ⟨by omega, ?_⟩
        by_contra hle
        exact hne ⟨rfl, by omega⟩
      · next hkk => exact absurd (Prod.mk.inj heq).1 hkk
    · rintro ⟨rfl, hlt⟩
      refine ⟨⟨(k', f k'), (h k' _).mpr ⟨rfl, hpos⟩, ?_⟩, ?_⟩
      · rw [if_pos rfl]
        exact Prod.ext rfl (by dsimp only; omega)
      · rintro ⟨-, hzero⟩
        dsimp only at hzero
        omega
  · rw [Function.update_of_ne hk, ← h]
    constructor
    · rintro ⟨⟨⟨k₁, m⟩, hm, heq⟩, -⟩
      split at heq
      · next hkk => exact absurd ((Prod.mk.inj heq).1.symm.trans hkk) hk
      · rw [← heq]
        exact hm
    · exact fun hm => ⟨⟨(k', n), hm, if_neg hk⟩, fun h => hk h.1⟩

end CountMap

end Library
