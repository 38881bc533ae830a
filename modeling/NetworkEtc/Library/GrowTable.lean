-- SUMMARY: Tables that double where they are full and copy as many entries as a count says.
import Mathlib.Logic.Function.Basic
import Mathlib.Data.List.Basic
import Mathlib.Logic.Nontrivial.Basic

/-!
# Tables that grow

The count of the entries is brought up to date by the caller, once all of its entries are in. Until
then a table that grows copies none of them.
-/

namespace Library

/-- Entries, how many of them are counted, and for how many there is room. -/
structure GrowTable (ε : Type) where
  size : Nat
  capacity : Nat
  entries : Nat → ε

namespace GrowTable

variable {ε : Type}

/-- Room for the entry `n`. New memory for `c` entries holds `fresh c`. -/
def grow (fresh : Nat → Nat → ε) (t : GrowTable ε) (n : Nat) : GrowTable ε :=
  if n < t.capacity then t
  else
    { t with
      capacity := t.capacity * 2
      entries := fun i => if i < t.size then t.entries i else fresh (t.capacity * 2) i }

/-- Put an entry at `n`. -/
def record (fresh : Nat → Nat → ε) (t : GrowTable ε) (n : Nat) (e : ε) : GrowTable ε :=
  { t.grow fresh n with entries := Function.update (t.grow fresh n).entries n e }

/-- Put entries at `n` and behind it, one after the other. -/
def recordAll (fresh : Nat → Nat → ε) : GrowTable ε → Nat → List ε → GrowTable ε
  | t, _, [] => t
  | t, n, e :: es => recordAll fresh (t.record fresh n e) (n + 1) es

/-- The entries that have been counted are as before, and behind them there are the new ones. -/
def Holds (t before : GrowTable ε) (es : List ε) : Prop :=
  (∀ i < before.size, t.entries i = before.entries i) ∧
    ∀ i e, es[i]? = some e → t.entries (before.size + i) = e

/-- There is room, and no more is counted than there is room for. -/
structure Sound (t : GrowTable ε) : Prop where
  pos : 0 < t.capacity
  size_le : t.size ≤ t.capacity

/-- The table grows behind the counted entries, or not at all. -/
def Fits (t : GrowTable ε) (n : Nat) : Prop :=
  t.size + n ≤ t.capacity ∨ t.size = t.capacity ∧ n ≤ t.capacity

variable {fresh : Nat → Nat → ε} {t : GrowTable ε} {n : Nat} {e : ε} {es es' : List ε}

@[simp] theorem size_grow : (t.grow fresh n).size = t.size := by
  unfold grow
  split <;> rfl

@[simp] theorem size_record : (t.record fresh n e).size = t.size := size_grow

theorem grow_of_lt (h : n < t.capacity) : t.grow fresh n = t := if_pos h

theorem grow_of_le (h : t.capacity ≤ n) : t.grow fresh n =
    { t with
      capacity := t.capacity * 2
      entries := fun i => if i < t.size then t.entries i else fresh (t.capacity * 2) i } :=
  if_neg (Nat.not_lt.mpr h)

theorem recordAll_append (es es' : List ε) : t.recordAll fresh n (es ++ es') =
    (t.recordAll fresh n es).recordAll fresh (n + es.length) es' := by
  induction es generalizing t n with
  | nil => rfl
  | cons e es ih =>
    rw [List.cons_append, recordAll, recordAll, ih, List.length_cons, Nat.add_right_comm,
      Nat.add_assoc]

@[simp] theorem size_recordAll (es : List ε) : (t.recordAll fresh n es).size = t.size := by
  induction es generalizing t n with
  | nil => rfl
  | cons e es ih => rw [recordAll, ih, size_record]

/-- There is room for each entry that is put in. -/
theorem capacity_record (hpos : 0 < t.capacity) (hle : n ≤ t.capacity) :
    0 < (t.record fresh n e).capacity ∧ n + 1 ≤ (t.record fresh n e).capacity := by
  unfold record grow
  simp only
  split
  · exact ⟨hpos, by omega⟩
  · exact ⟨by simp only; omega, by simp only; omega⟩

theorem capacity_recordAll (es : List ε) (hpos : 0 < t.capacity) (hle : n ≤ t.capacity) :
    0 < (t.recordAll fresh n es).capacity ∧
      n + es.length ≤ (t.recordAll fresh n es).capacity := by
  induction es generalizing t n with
  | nil => exact ⟨hpos, hle⟩
  | cons e es ih =>
    obtain ⟨hpos', hle'⟩ := capacity_record (e := e) hpos hle
    rw [recordAll, List.length_cons, Nat.add_comm es.length, ← Nat.add_assoc]
    exact ih hpos' hle'

theorem Sound.recordAll (h : t.Sound) (fresh : Nat → Nat → ε) (es : List ε) :
    Sound { t.recordAll fresh t.size es with size := t.size + es.length } := by
  obtain ⟨hpos, hle⟩ := capacity_recordAll es h.pos h.size_le
  exact ⟨hpos, hle⟩

/-- Without growth everything stays. -/
theorem recordAll_room (es : List ε) (hroom : n + es.length ≤ t.capacity) :
    (t.recordAll fresh n es).capacity = t.capacity ∧
      (∀ i < n, (t.recordAll fresh n es).entries i = t.entries i) ∧
      ∀ i e, es[i]? = some e → (t.recordAll fresh n es).entries (n + i) = e := by
  induction es generalizing t n with
  | nil => exact ⟨rfl, fun _ _ => rfl, nofun⟩
  | cons e es ih =>
    rw [List.length_cons] at hroom
    have hrecord : t.record fresh n e = { t with entries := Function.update t.entries n e } := by
      rw [record, grow_of_lt (by omega)]
    obtain ⟨hcapacity, hold, hnew⟩ := @ih (t.record fresh n e) (n + 1) (by
      rw [hrecord]
      simp only
      omega)
    rw [recordAll]
    refine ⟨hcapacity.trans (by rw [hrecord]), fun i hi => ?_, fun i e' he' => ?_⟩
    · rw [hold i (by omega), hrecord]
      exact Function.update_of_ne (Nat.ne_of_lt hi) _ _
    · cases i with
      | zero =>
        cases he'
        refine (hold n (Nat.lt_succ_self n)).trans ?_
        rw [hrecord]
        exact Function.update_self _ _ _
      | succ i =>
        have hentry := hnew i e' he'
        rwa [Nat.add_right_comm] at hentry

/-- What has been lost stays lost. -/
theorem recordAll_lost (hfresh : ∀ c, fresh c t.size = e) (hlost : t.entries t.size = e)
    (hn : t.size < n) (es : List ε) : (t.recordAll fresh n es).entries t.size = e := by
  induction es generalizing t n with
  | nil => exact hlost
  | cons e' es ih =>
    have hrecord : (t.record fresh n e').entries t.size = e := by
      rw [record]
      simp only [Function.update_of_ne (Nat.ne_of_lt hn)]
      unfold grow
      split
      · exact hlost
      · simp only [Nat.lt_irrefl, if_false, hfresh]
    have hrest := @ih (t.record fresh n e') (n + 1)
    rw [size_record] at hrest
    exact hrest hfresh hrecord (Nat.lt_succ_of_lt hn)

/-- If the table grows it does so at the first entry, and everything is copied. -/
theorem recordAll_fits (hne : es ≠ []) (h : t.Fits es.length) :
    (t.recordAll fresh t.size es).capacity =
        (if t.size = t.capacity then t.capacity * 2 else t.capacity) ∧
      (t.recordAll fresh t.size es).Holds t es := by
  obtain ⟨e, es, rfl⟩ := List.exists_cons_of_ne_nil hne
  rw [Fits, List.length_cons] at h
  by_cases hfull : t.size = t.capacity
  · have hrecord : t.record fresh t.size e =
        { t with
          capacity := t.capacity * 2
          entries := Function.update (fun i => if i < t.size then t.entries i
            else fresh (t.capacity * 2) i) t.size e } := by
      rw [record, grow_of_le (Nat.le_of_eq hfull.symm)]
    obtain ⟨hcapacity, hold, hnew⟩ := @recordAll_room _ fresh (t.record fresh t.size e)
      (t.size + 1) es (by
        rw [hrecord]
        simp only
        omega)
    rw [recordAll, if_pos hfull]
    refine ⟨hcapacity.trans (by rw [hrecord]), fun i hi => ?_, fun i e' he' => ?_⟩
    · rw [hold i (by omega), hrecord]
      simp only [Function.update_of_ne (Nat.ne_of_lt hi), if_pos hi]
    · cases i with
      | zero =>
        cases he'
        refine (hold t.size (Nat.lt_succ_self _)).trans ?_
        rw [hrecord]
        simp only [Function.update_self]
      | succ i =>
        have hentry := hnew i e' he'
        rwa [Nat.add_right_comm] at hentry
  · have hroom : t.size + (e :: es).length ≤ t.capacity := by
      rw [List.length_cons]
      rcases h with hroom | ⟨heq, -⟩
      · exact hroom
      · exact absurd heq hfull
    rw [if_neg hfull]
    exact recordAll_room (e :: es) hroom

/-- If it grows behind the first entry, that one is lost. -/
theorem recordAll_not_fits (ht : t.Sound) (hnot : ¬ t.Fits es.length) (other : ε) :
    (t.recordAll (fun _ _ => other) t.size es).entries t.size = other := by
  have hpos := ht.pos
  have hsize := ht.size_le
  obtain ⟨hlong, hfull⟩ := not_or.mp hnot
  -- where the table grows with entries that have not been counted
  obtain ⟨k, hk, hklt, hfits⟩ : ∃ k, 0 < k ∧ k < es.length ∧
      t.size + k = if t.size = t.capacity then t.capacity * 2 else t.capacity := by
    by_cases heq : t.size = t.capacity
    · have hmany : ¬ es.length ≤ t.capacity := fun hle => hfull ⟨heq, hle⟩
      exact ⟨t.capacity, hpos, by omega, by rw [if_pos heq]; omega⟩
    · exact ⟨t.capacity - t.size, by omega, by omega, by rw [if_neg heq]; omega⟩
  obtain ⟨e, rest, hdrop⟩ : ∃ e rest, es.drop k = e :: rest :=
    List.exists_cons_of_ne_nil (List.drop_eq_nil_iff.not.mpr (Nat.not_le.mpr hklt))
  have hcount : (es.take k).length = k := List.length_take_of_le (Nat.le_of_lt hklt)
  have hsplit : es = es.take k ++ e :: rest := by rw [← hdrop, List.take_append_drop]
  have htake : es.take k ≠ [] := List.ne_nil_of_length_pos (hcount.symm ▸ hk)
  have htakefits : t.Fits (es.take k).length := by
    rw [hcount]
    split at hfits
    · next heq => exact Or.inr ⟨heq, by omega⟩
    · exact Or.inl (Nat.le_of_eq hfits)
  have hgrown := (@recordAll_fits _ (fun _ _ => other) t _ htake htakefits).1
  rw [← hfits] at hgrown
  have hrest := @recordAll_lost _ (fun _ _ => other)
    ((t.recordAll (fun _ _ => other) t.size (es.take k)).record (fun _ _ => other)
      (t.size + k) e) (t.size + k + 1) other
  rw [size_record, size_recordAll] at hrest
  rw [hsplit, recordAll_append, recordAll, hcount]
  refine hrest (fun _ => rfl) ?_ (by omega) rest
  rw [record, grow_of_le (Nat.le_of_eq hgrown)]
  simp only [Function.update_of_ne (Nat.ne_of_lt (Nat.lt_add_of_pos_right hk)),
    size_recordAll, Nat.lt_irrefl, if_false]

/-- The entries are all there, whatever new memory holds, exactly if the table does not grow behind
the first of them. -/
theorem holds_iff_fits [Nontrivial ε] (ht : t.Sound) :
    (∀ fresh, (t.recordAll fresh t.size es).Holds t es) ↔ t.Fits es.length := by
  constructor
  · intro hholds
    cases es with
    | nil => exact Or.inl ht.size_le
    | cons e es =>
      by_contra hnot
      obtain ⟨other, hother⟩ := exists_ne e
      exact hother ((recordAll_not_fits ht hnot other).symm.trans
        ((hholds fun _ _ => other).2 0 e rfl))
  · intro hfits fresh
    cases es with
    | nil => exact ⟨fun _ _ => rfl, nofun⟩
    | cons e es => exact (recordAll_fits (List.cons_ne_nil e es) hfits).2

end GrowTable

end Library
