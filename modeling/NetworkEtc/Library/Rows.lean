-- SUMMARY: Rows in the order of their keys, and the first and the last of them that a condition holds of.
import Mathlib.Data.List.Nodup

/-!
# Rows

A finite map as the list of its rows in the order of their keys. A cursor that looks for
the first key from a point on, or for the next one, looks for the first key that a
condition holds of; the laws are about any condition. A cursor that goes down looks for the
last key of those below it, and hands out the rows in descending order.
-/

namespace Library

open Std

/-- A finite map. -/
structure Rows (κ ν : Type) [LT κ] where
  rows : List (κ × ν)
  sorted : rows.Pairwise fun a b => a.1 < b.1

namespace Rows

variable {κ ν : Type} [LT κ] {table : Rows κ ν} {p q : κ → Bool} {row : κ × ν} {k : κ}

def keys (table : Rows κ ν) : List κ := table.rows.map Prod.fst

/-- The first row with a key that `p` holds of. -/
def first (table : Rows κ ν) (p : κ → Bool) : Option (κ × ν) :=
  table.rows.find? fun row => p row.1

/-- The last row with a key that `p` holds of. -/
def last (table : Rows κ ν) (p : κ → Bool) : Option (κ × ν) :=
  table.rows.reverse.find? fun row => p row.1

/-- The rows with a key that `p` holds of, the last one first. -/
def descending (table : Rows κ ν) (p : κ → Bool) : List (κ × ν) :=
  (table.rows.filter fun row => p row.1).reverse

/-- How many keys `p` holds of. -/
def count (table : Rows κ ν) (p : κ → Bool) : Nat := table.keys.countP p

/-- The table without a key. -/
def erase [DecidableEq κ] (table : Rows κ ν) (k : κ) : Rows κ ν where
  rows := table.rows.filter fun row => row.1 ≠ k
  sorted := table.sorted.filter _

theorem mem_erase [DecidableEq κ] : row ∈ (table.erase k).rows ↔ row ∈ table.rows ∧ row.1 ≠ k := by
  rw [erase, List.mem_filter, decide_eq_true_iff]

theorem mem_keys_erase [DecidableEq κ] {a : κ} :
    a ∈ (table.erase k).keys ↔ a ∈ table.keys ∧ a ≠ k := by
  rw [keys, keys, List.mem_map, List.mem_map]
  constructor
  · intro hin
    obtain ⟨row, hrow, rfl⟩ := hin
    obtain ⟨hrow, hne⟩ := mem_erase.mp hrow
    exact ⟨⟨row, hrow, rfl⟩, hne⟩
  · intro hin
    obtain ⟨⟨row, hrow, rfl⟩, hne⟩ := hin
    exact ⟨row, mem_erase.mpr ⟨hrow, hne⟩, rfl⟩

theorem mem_of_first (h : table.first p = some row) : row ∈ table.rows :=
  List.mem_of_find?_eq_some h

theorem key_of_first (h : table.first p = some row) : row.1 ∈ table.keys :=
  List.mem_map_of_mem (mem_of_first h)

theorem first_holds (h : table.first p = some row) : p row.1 :=
  List.find?_some (p := fun row : κ × ν => p row.1) h

theorem not_of_first_none (h : table.first p = none) (hk : k ∈ table.keys) : ¬ p k := by
  obtain ⟨row, hrow, rfl⟩ := List.mem_map.mp hk
  exact List.find?_eq_none.mp h row hrow

/-- A condition that a key meets has a first row. -/
theorem first_of_mem (hk : k ∈ table.keys) (hp : p k) : ∃ row, table.first p = some row := by
  cases h : table.first p with
  | some row => exact ⟨row, rfl⟩
  | none => exact absurd hp (not_of_first_none h hk)

theorem mem_descending : row ∈ table.descending p ↔ row ∈ table.rows ∧ p row.1 := by
  rw [descending, List.mem_reverse, List.mem_filter]

theorem length_descending_le : (table.descending p).length ≤ table.rows.length := by
  rw [descending, List.length_reverse]
  exact List.length_filter_le _ _

theorem descending_congr (h : ∀ k ∈ table.keys, p k = q k) :
    table.descending p = table.descending q := by
  have hfilter : (table.rows.filter fun row => p row.1) = table.rows.filter fun row => q row.1 :=
    List.filter_congr fun row hrow => h row.1 (List.mem_map_of_mem hrow)
  rw [descending, descending, hfilter]

theorem descending_sorted (table : Rows κ ν) (p : κ → Bool) :
    (table.descending p).Pairwise fun a b => b.1 < a.1 := by
  rw [descending, List.pairwise_reverse]
  exact table.sorted.filter _

theorem descending_of_last_none (h : table.last p = none) : table.descending p = [] := by
  rw [descending, List.reverse_eq_nil_iff, List.filter_eq_nil_iff]
  intro row hrow
  exact List.find?_eq_none.mp h row (List.mem_reverse.mpr hrow)

omit [LT κ] in
/-- A condition that implies another and leaves out a member holds of fewer members. -/
theorem countP_lt_countP {keys : List κ} (hle : ∀ k ∈ keys, q k → p k) (hmem : k ∈ keys)
    (hp : p k) (hq : ¬ q k) : keys.countP q < keys.countP p := by
  induction keys with
  | nil => cases hmem
  | cons a keys ih =>
    have hrest : ∀ k ∈ keys, q k → p k := fun k hk => hle k (List.mem_cons_of_mem _ hk)
    cases List.mem_cons.mp hmem with
    | inl heq =>
      subst heq
      rw [List.countP_cons_of_neg hq, List.countP_cons_of_pos hp]
      exact Nat.lt_succ_of_le (List.countP_mono_left hrest)
    | inr hin =>
      have hlt := ih hrest hin
      have ha := hle a List.mem_cons_self
      simp only [List.countP_cons]
      split
      · rename_i hqa
        rw [if_pos (ha hqa)]
        exact Nat.succ_lt_succ hlt
      · exact Nat.lt_of_lt_of_le hlt (Nat.le_add_right _ _)

/-- A condition that leaves out the key just found holds of fewer keys. -/
theorem count_lt (h : table.first p = some row) (hle : ∀ k ∈ table.keys, q k → p k)
    (hrow : ¬ q row.1) : table.count q < table.count p :=
  countP_lt_countP hle (key_of_first h) (first_holds h) hrow

theorem count_le (table : Rows κ ν) (p : κ → Bool) : table.count p ≤ table.rows.length := by
  have hlen : table.keys.length = table.rows.length := List.length_map _
  rw [count, ← hlen]
  exact List.countP_le_length

theorem count_erase_le [DecidableEq κ] : (table.erase k).count p ≤ table.count p :=
  (List.filter_sublist.map Prod.fst).countP_le

section

variable [LE κ] [LawfulOrderLT κ]

/-- A row above which no key meets the condition comes before those below it. -/
theorem descending_of_mem (hrow : row ∈ table.rows) (hp : p row.1)
    (hmax : ∀ k ∈ table.keys, p k → ¬ row.1 < k) (hq : ∀ k ∈ table.keys, q k ↔ p k ∧ k < row.1) :
    table.descending p = row :: table.descending q := by
  obtain ⟨before, after, hsplit⟩ := List.append_of_mem hrow
  have hsorted := table.sorted
  rw [hsplit, List.pairwise_append, List.pairwise_cons] at hsorted
  obtain ⟨-, ⟨habove, -⟩, hbelow⟩ := hsorted
  have hkey : ∀ x ∈ table.rows, q x.1 = true ↔ p x.1 = true ∧ x.1 < row.1 :=
    fun x hx => hq x.1 (List.mem_map_of_mem hx)
  have hlow : before.filter (fun x => p x.1) = before.filter (fun x => q x.1) := by
    refine List.filter_congr fun x hx => ?_
    have hlt : x.1 < row.1 := hbelow x hx row List.mem_cons_self
    rw [Bool.eq_iff_iff, hkey x (by simp [hsplit, hx])]
    exact (and_iff_left hlt).symm
  have hhigh : ∀ x ∈ after, p x.1 = false := by
    intro x hx
    have hmem : x.1 ∈ table.keys := List.mem_map_of_mem (by simp [hsplit, hx])
    exact Bool.eq_false_iff.mpr fun hpx => hmax x.1 hmem hpx (habove x hx)
  have hp' : after.filter (fun x => p x.1) = [] := by
    rw [List.filter_eq_nil_iff]
    intro x hx
    simp [hhigh x hx]
  have hq' : after.filter (fun x => q x.1) = [] := by
    rw [List.filter_eq_nil_iff]
    intro x hx hqx
    have hpx := ((hkey x (by simp [hsplit, hx])).mp hqx).1
    rw [hhigh x hx] at hpx
    cases hpx
  have hself : q row.1 = false := by
    rw [← Bool.not_eq_true, hkey row hrow]
    exact fun hand => Std.lt_irrefl hand.2
  simp only [descending, hsplit, List.filter_append, List.filter_cons, hp, hself, if_true,
    Bool.false_eq_true, if_false, hp', hq', hlow, List.reverse_append, List.reverse_cons,
    List.reverse_nil, List.nil_append, List.cons_append]

/-- A key has one row. -/
theorem eq_of_key {a b : κ × ν} (ha : a ∈ table.rows) (hb : b ∈ table.rows) (h : a.1 = b.1) :
    a = b := by
  have hnodup : table.keys.Nodup := by
    rw [keys, List.Nodup, List.pairwise_map]
    refine table.sorted.imp ?_
    intro a b hlt heq
    rw [heq] at hlt
    exact Std.lt_irrefl hlt
  exact List.inj_on_of_nodup_map hnodup ha hb h

/-- Above the last row no key meets the condition. -/
theorem not_lt_of_last (h : table.last p = some row) (hk : k ∈ table.keys) (hp : p k) :
    ¬ row.1 < k := by
  obtain ⟨other, hother, rfl⟩ := List.mem_map.mp hk
  obtain ⟨-, after, before, hrows, hafter⟩ := List.find?_eq_some_iff_append.mp h
  have hsorted := List.pairwise_reverse.mpr table.sorted
  rw [hrows, List.pairwise_append, List.pairwise_cons] at hsorted
  obtain ⟨-, ⟨hbefore, -⟩, -⟩ := hsorted
  rw [← List.mem_reverse, hrows] at hother
  cases List.mem_append.mp hother with
  | inl hin =>
    have := hafter other hin
    simp [hp] at this
  | inr hin =>
    cases List.mem_cons.mp hin with
    | inl heq => rw [heq]; exact Std.lt_irrefl
    | inr hin => exact Std.not_gt_of_lt (hbefore other hin)

/-- The descending rows are the last one and those below it. -/
theorem descending_of_last (h : table.last p = some row)
    (hq : ∀ k ∈ table.keys, q k ↔ p k ∧ k < row.1) :
    table.descending p = row :: table.descending q := by
  have hrow : row ∈ table.rows := List.mem_reverse.mp (List.mem_of_find?_eq_some h)
  have hp : p row.1 := List.find?_some (p := fun row : κ × ν => p row.1) h
  exact descending_of_mem hrow hp (fun k hk hpk => not_lt_of_last h hk hpk) hq

variable [IsLinearOrder κ]

/-- The first row has the least key. -/
theorem first_le (h : table.first p = some row) (hk : k ∈ table.keys) (hp : p k) :
    row.1 ≤ k := by
  obtain ⟨other, hother, rfl⟩ := List.mem_map.mp hk
  obtain ⟨-, before, after, hrows, hbefore⟩ := List.find?_eq_some_iff_append.mp h
  have hsorted := table.sorted
  rw [hrows] at hsorted hother
  cases List.mem_append.mp hother with
  | inl hin =>
    have := hbefore other hin
    simp [hp] at this
  | inr hin =>
    cases List.mem_cons.mp hin with
    | inl heq => rw [heq]; exact le_refl _
    | inr hin =>
      have hlt := (List.pairwise_cons.mp (List.pairwise_append.mp hsorted).2.1).1 other hin
      exact le_of_lt hlt

end

end Rows

end Library
