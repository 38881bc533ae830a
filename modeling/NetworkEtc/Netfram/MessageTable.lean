-- SUMMARY: The table of messages: the sweep that takes out the entries older than the timeout.
import Mathlib.Data.List.Chain
import Mathlib.Data.List.Perm.Basic

/-!
# `TMessageTable`

The sweep erases the entry at its iterator and moves on, and then the loop moves on once more.
-/

namespace Netfram

/-- The entries of a `std::map`, in the order of their keys. -/
structure TMessageTable (κ ν : Type) [LT κ] where
  moTable : List (κ × ν)
  sorted : moTable.Pairwise fun entry entry' => entry.1 < entry'.1

namespace TMessageTable

variable {κ ν : Type}

section

variable (sec : ν → Int) (luCurSec auTimeout : Int)

/-- `luCurSec - loIter->second.Sec() > auTimeout` -/
def Expired (entry : κ × ν) : Prop := auTimeout < luCurSec - sec entry.2

instance : DecidablePred (Expired (κ := κ) sec luCurSec auTimeout) :=
  fun _ => inferInstanceAs (Decidable (_ < _))

/-- The loop of `ClearTimeout` from an iterator on: what is recycled and which entries are left.
Behind the last entry there is no further one to move on to. -/
def clearFrom : List (κ × ν) → Option (List ν × List (κ × ν))
  | [] => some ([], [])
  | entry :: rest =>
    if Expired sec luCurSec auTimeout entry then
      -- `erase(loIter++)`, and then the `loIter++` of the loop
      match rest with
      | [] => none
      | next :: rest =>
        (clearFrom rest).map fun (recycled, left) => (entry.2 :: recycled, next :: left)
    else (clearFrom rest).map fun (recycled, left) => (recycled, entry :: left)

end

variable {sec : ν → Int} {luCurSec auTimeout : Int} {entry : κ × ν} {rest left : List (κ × ν)}
  {recycled : List ν}

theorem clearFrom_sublist (h : clearFrom sec luCurSec auTimeout rest = some (recycled, left)) :
    left.Sublist rest := by
  fun_induction clearFrom sec luCurSec auTimeout rest generalizing recycled left with
  | case1 =>
    cases h
    exact List.Sublist.refl []
  | case2 entry hexpired => cases h
  | case3 entry hexpired next rest ih =>
    obtain ⟨⟨recycled', left'⟩, hrest, heq⟩ := Option.map_eq_some_iff.mp h
    cases heq
    exact ((ih hrest).cons_cons next).cons entry
  | case4 entry rest hexpired ih =>
    obtain ⟨⟨recycled', left'⟩, hrest, heq⟩ := Option.map_eq_some_iff.mp h
    cases heq
    exact (ih hrest).cons_cons entry

/-- `ClearTimeout` -/
def clearTimeout [LT κ] (sec : ν → Int) (luCurSec auTimeout : Int) (table : TMessageTable κ ν) :
    Option (List ν × TMessageTable κ ν) :=
  match h : clearFrom sec luCurSec auTimeout table.moTable with
  | none => none
  | some (recycled, left) => some (recycled, ⟨left, table.sorted.sublist (clearFrom_sublist h)⟩)

-- ---------------------------------------------------------------------------
-- What the sweep is for
-- ---------------------------------------------------------------------------

section

variable (sec : ν → Int) (luCurSec auTimeout : Int)

/-- The sweep ends, has recycled each expired entry once, and leaves the others. -/
def Sweeps [LT κ] (table : TMessageTable κ ν) : Prop :=
  ∃ recycled table', table.clearTimeout sec luCurSec auTimeout = some (recycled, table') ∧
    recycled.Perm ((table.moTable.filter fun entry => Expired sec luCurSec auTimeout entry).map
      Prod.snd) ∧
    table'.moTable = table.moTable.filter fun entry => ¬ Expired sec luCurSec auTimeout entry

/-- Behind each expired entry there is one that is not expired. -/
def Spaced (entries : List (κ × ν)) : Prop :=
  entries.IsChain (fun entry next =>
      Expired sec luCurSec auTimeout entry → ¬ Expired sec luCurSec auTimeout next) ∧
    ∀ entry ∈ entries.getLast?, ¬ Expired sec luCurSec auTimeout entry

end

theorem spaced_cons (hne : rest ≠ []) : Spaced sec luCurSec auTimeout (entry :: rest) ↔
    (Expired sec luCurSec auTimeout entry →
      ∀ next ∈ rest.head?, ¬ Expired sec luCurSec auTimeout next) ∧
      Spaced sec luCurSec auTimeout rest := by
  obtain ⟨next, rest, rfl⟩ := List.exists_cons_of_ne_nil hne
  simp only [Spaced, List.isChain_cons_cons, List.getLast?_cons_cons, List.head?_cons,
    Option.mem_some, forall_eq', and_assoc]

/-- In front of an entry that has not expired, nothing else changes. -/
theorem spaced_cons_of_not (hexpired : ¬ Expired sec luCurSec auTimeout entry) :
    Spaced sec luCurSec auTimeout (entry :: rest) ↔ Spaced sec luCurSec auTimeout rest := by
  cases rest with
  | nil => simp [Spaced, hexpired]
  | cons next rest => simp [spaced_cons, hexpired]

theorem clearFrom_of_spaced (h : Spaced sec luCurSec auTimeout rest) :
    clearFrom sec luCurSec auTimeout rest =
      some ((rest.filter fun entry => Expired sec luCurSec auTimeout entry).map Prod.snd,
        rest.filter fun entry => ¬ Expired sec luCurSec auTimeout entry) := by
  fun_induction clearFrom sec luCurSec auTimeout rest with
  | case1 => rfl
  | case2 entry hexpired => exact absurd hexpired (h.2 entry rfl)
  | case3 entry hexpired next rest ih =>
    obtain ⟨hnext, hrest⟩ := (spaced_cons (List.cons_ne_nil _ _)).mp h
    have hnext := hnext hexpired next rfl
    rw [ih ((spaced_cons_of_not hnext).mp hrest)]
    simp [hexpired, hnext]
  | case4 entry rest hexpired ih =>
    rw [ih ((spaced_cons_of_not hexpired).mp h)]
    simp [hexpired]

theorem spaced_of_clearFrom (h : clearFrom sec luCurSec auTimeout rest =
      some (recycled, rest.filter fun entry => ¬ Expired sec luCurSec auTimeout entry)) :
    Spaced sec luCurSec auTimeout rest := by
  fun_induction clearFrom sec luCurSec auTimeout rest generalizing recycled with
  | case1 => exact ⟨List.IsChain.nil, nofun⟩
  | case2 entry hexpired => cases h
  | case3 entry hexpired next rest ih =>
    obtain ⟨⟨recycled', left⟩, hrest, heq⟩ := Option.map_eq_some_iff.mp h
    have hleft : next :: left = (entry :: next :: rest).filter
        fun entry => ¬ Expired sec luCurSec auTimeout entry := congrArg Prod.snd heq
    -- the entry that is passed over is left, and so it has not expired
    have hnext : ¬ Expired sec luCurSec auTimeout next := by
      have hmem : next ∈ (entry :: next :: rest).filter
          fun entry => ¬ Expired sec luCurSec auTimeout entry := by
        rw [← hleft]
        exact List.mem_cons_self
      simpa using (List.mem_filter.mp hmem).2
    rw [List.filter_cons_of_neg (by simpa using hexpired),
      List.filter_cons_of_pos (by simpa using hnext)] at hleft
    rw [spaced_cons (List.cons_ne_nil _ _), spaced_cons_of_not hnext]
    refine ⟨fun _ entry hentry => ?_, ih (hrest.trans (by rw [(List.cons.inj hleft).2]))⟩
    cases hentry
    exact hnext
  | case4 entry rest hexpired ih =>
    obtain ⟨⟨recycled', left⟩, hrest, heq⟩ := Option.map_eq_some_iff.mp h
    have hleft : entry :: left = (entry :: rest).filter
        fun entry => ¬ Expired sec luCurSec auTimeout entry := congrArg Prod.snd heq
    rw [List.filter_cons, if_pos (by simpa using hexpired)] at hleft
    rw [spaced_cons_of_not hexpired]
    exact ih (hrest.trans (by rw [(List.cons.inj hleft).2]))

theorem clearTimeout_eq_some [LT κ] {table table' : TMessageTable κ ν} :
    table.clearTimeout sec luCurSec auTimeout = some (recycled, table') ↔
      clearFrom sec luCurSec auTimeout table.moTable = some (recycled, table'.moTable) := by
  unfold clearTimeout
  split
  · next hnone => simp [hnone]
  · next recycled' left hsome =>
    obtain ⟨left', hsorted⟩ := table'
    simp [hsome]

theorem spaced_of_sweeps [LT κ] {table : TMessageTable κ ν}
    (h : Sweeps sec luCurSec auTimeout table) : Spaced sec luCurSec auTimeout table.moTable := by
  obtain ⟨recycled, table', hclear, -, htable'⟩ := h
  have hfrom := clearTimeout_eq_some.mp hclear
  rw [htable'] at hfrom
  exact spaced_of_clearFrom hfrom

/-- The sweep does what it is for exactly where behind each expired entry there is one that has not
expired. -/
theorem sweeps_iff [LT κ] {table : TMessageTable κ ν} : Sweeps sec luCurSec auTimeout table ↔
    Spaced sec luCurSec auTimeout table.moTable := by
  refine ⟨spaced_of_sweeps, fun h => ?_⟩
  have hfrom := clearFrom_of_spaced h
  have hsorted := table.sorted.sublist (clearFrom_sublist hfrom)
  exact ⟨_, ⟨_, hsorted⟩, clearTimeout_eq_some.mpr hfrom, List.Perm.refl _, rfl⟩

/-- Of two expired entries in a row, and of a last one. -/
theorem not_sweeps :
    ¬ Sweeps id 10 5 (⟨[(1, 0), (2, 0), (3, 9)], by decide⟩ : TMessageTable Nat Int) ∧
      ¬ Sweeps id 10 5 (⟨[(1, 9), (2, 0)], by decide⟩ : TMessageTable Nat Int) :=
  ⟨fun h => absurd (spaced_of_sweeps h) (by simp [Spaced, Expired]),
    fun h => absurd (spaced_of_sweeps h) (by simp [Spaced, Expired])⟩

end TMessageTable

end Netfram
