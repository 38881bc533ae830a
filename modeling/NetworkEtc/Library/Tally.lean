-- SUMMARY: Sums over the members of a finite set that have a given key, as members come and go.
import Mathlib.Algebra.BigOperators.Group.Finset.Basic
import Mathlib.Algebra.BigOperators.Group.Finset.Piecewise
import Mathlib.Algebra.Group.Action.Defs
import Mathlib.Algebra.Order.BigOperators.Group.Finset
import Mathlib.Data.Finset.Insert

/-!
# Tallies

The members of a set have keys and weights. The tally of a key is the weight of all
members that have it.
-/

namespace Library

variable {α κ : Type} [DecidableEq κ]

/-- The weight of the members with the key `k`. -/
def tally (live : Finset α) (key : α → κ) (weight : α → Nat) (k : κ) : Nat :=
  ∑ x ∈ live with key x = k, weight x

variable {live : Finset α} {key key' : α → κ} {weight weight' : α → Nat} {k : κ} {x : α}

theorem tally_empty : tally ∅ key weight k = 0 := by simp [tally]

theorem tally_congr (hkey : ∀ x ∈ live, key' x = key x) (hweight : ∀ x ∈ live, weight' x = weight x) :
    tally live key' weight' k = tally live key weight k := by
  unfold tally
  apply Finset.sum_congr
  · apply Finset.filter_congr
    intro x hx
    rw [hkey x hx]
  · intro x hx
    exact hweight x (Finset.mem_of_mem_filter x hx)

theorem tally_le {n : Nat} (hweight : ∀ x ∈ live, weight x ≤ n) :
    tally live key weight k ≤ live.card * n := by
  unfold tally
  have hsum := Finset.sum_le_card_nsmul (live.filter fun x => key x = k) weight n
    fun x hx => hweight x (Finset.mem_of_mem_filter x hx)
  rw [smul_eq_mul] at hsum
  exact hsum.trans (Nat.mul_le_mul_right n (Finset.card_filter_le ..))

/-- A key with a tally has a member. -/
theorem exists_of_tally_pos (h : 0 < tally live key weight k) : ∃ x ∈ live, key x = k := by
  obtain ⟨x, hx, -⟩ := Finset.exists_ne_zero_of_sum_ne_zero h.ne'
  rw [Finset.mem_filter] at hx
  exact ⟨x, hx.1, hx.2⟩

/-- Counting is weighing with ones. -/
theorem tally_one : tally live key (fun _ => 1) k = (live.filter fun x => key x = k).card := by
  simp [tally]

variable [DecidableEq α]

theorem tally_insert (hx : x ∉ live) : tally (insert x live) key weight k =
    tally live key weight k + if key x = k then weight x else 0 := by
  unfold tally
  rw [Finset.sum_filter, Finset.sum_insert hx, ← Finset.sum_filter, Nat.add_comm]

/-- The share of a member is part of the tally. -/
theorem tally_erase (hx : x ∈ live) :
    tally (live.erase x) key weight k + (if key x = k then weight x else 0) =
      tally live key weight k := by
  rw [← tally_insert (Finset.notMem_erase x live), Finset.insert_erase hx]

theorem le_tally (hx : x ∈ live) : weight x ≤ tally live key weight (key x) := by
  rw [← tally_erase hx, if_pos rfl]
  exact Nat.le_add_left ..

end Library
