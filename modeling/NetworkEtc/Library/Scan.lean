-- SUMMARY: Scans of a memory up to the first element that ends them.
import Mathlib.Data.List.TakeWhile

/-!
# Scans

What a memory holds from a position on, and scans from there. A scan that does not find the element
where it ends leaves the memory.
-/

namespace Library

variable {α : Type} {memory text rest : List α} {stop : α → Bool} {p q : Nat} {c : α}

/-! # Positions -/

/-- The element behind a part of the memory. -/
theorem getElem?_of_drop (hdrop : memory.drop p = text ++ c :: rest) :
    memory[p + text.length]? = some c := by
  rw [← List.getElem?_drop, hdrop, List.getElem?_append_right le_rfl, Nat.sub_self]
  rfl

theorem head_of_drop (hdrop : memory.drop p = c :: rest) : memory[p]? = some c :=
  getElem?_of_drop (hdrop.trans (List.nil_append _).symm)

theorem drop_of_drop (hdrop : memory.drop p = text ++ rest) :
    memory.drop (p + text.length) = rest := by
  rw [← List.drop_drop, hdrop, List.drop_left]

theorem drop_succ_of_drop (hdrop : memory.drop p = c :: rest) : memory.drop (p + 1) = rest := by
  rw [← List.drop_drop, hdrop]
  rfl

theorem slice_of_drop (hdrop : memory.drop p = text ++ rest) :
    (memory.take (p + text.length)).drop p = text := by
  rw [List.drop_take, hdrop, Nat.add_sub_cancel_left, List.take_left]

/-- The same in a memory that goes on. -/
theorem drop_append_of_drop (hdrop : memory.drop p = text ++ c :: rest) (behind : List α) :
    (memory ++ behind).drop p = text ++ c :: (rest ++ behind) := by
  have hp : p ≤ memory.length := by
    have hlen := congrArg List.length hdrop
    simp only [List.length_drop, List.length_append, List.length_cons] at hlen
    omega
  rw [List.drop_append_of_le_length hp, hdrop, List.append_assoc, List.cons_append]

/-! # Scans -/

/-- The elements up to the first one without the property. -/
theorem exists_span (q : α → Prop) [DecidablePred q] (l : List α) :
    ∃ a b, l = a ++ b ∧ (∀ c ∈ a, q c) ∧ ∀ c ∈ b.head?, ¬ q c := by
  refine ⟨l.takeWhile q, l.dropWhile q, List.takeWhile_append_dropWhile.symm,
    fun c hc => ?_, fun c hc => ?_⟩
  · exact of_decide_eq_true (List.mem_takeWhile_imp (p := fun c => decide (q c)) hc)
  have hnot := List.head?_dropWhile_not (fun c => decide (q c)) l
  rw [Option.mem_def.mp hc] at hnot
  exact of_decide_eq_false hnot

/-- The first position from `p` on where the scan ends; `none` if there is no such position in the
memory. -/
def seekIn (stop : α → Bool) (memory : List α) (p : Nat) : Option Nat :=
  ((memory.drop p).findIdx? stop).map (p + ·)

theorem seekIn_of_drop (hdrop : memory.drop p = text ++ c :: rest)
    (htext : ∀ e ∈ text, stop e = false) (hc : stop c = true) :
    seekIn stop memory p = some (p + text.length) := by
  have hnone : text.findIdx? stop = none := List.findIdx?_eq_none_iff.mpr htext
  rw [seekIn, hdrop, List.findIdx?_append, hnone, List.findIdx?_cons, hc]
  simp

/-- What a scan has passed, and where it has ended. -/
theorem exists_of_seekIn (h : seekIn stop memory p = some q) :
    ∃ text c rest, memory.drop p = text ++ c :: rest ∧ q = p + text.length ∧
      (∀ e ∈ text, stop e = false) ∧ stop c = true := by
  obtain ⟨k, hk, rfl⟩ := Option.map_eq_some_iff.mp h
  obtain ⟨hlt, hstop, hbefore⟩ := List.findIdx?_eq_some_iff_getElem.mp hk
  refine ⟨(memory.drop p).take k, (memory.drop p)[k], (memory.drop p).drop (k + 1), ?_, ?_, ?_,
    hstop⟩
  · rw [← List.drop_eq_getElem_cons, List.take_append_drop]
  · rw [List.length_take, min_eq_left hlt.le]
  · intro e he
    obtain ⟨i, hi, rfl⟩ := List.getElem_of_mem he
    rw [List.length_take] at hi
    rw [List.getElem_take]
    simpa using hbefore i (by omega)

end Library
