-- SUMMARY: Cells linked by pointers, read as lists: inserting, removing, walking.
import Mathlib.Data.List.Basic
import Mathlib.Data.List.Nodup
import Mathlib.Logic.Function.Basic

/-!
# Linked cells

`Seg next p l q` says that the pointer `p`, followed along `next`, meets the cells of
`l` in order and then is `q`. With `q = none` it is a list that ends. A doubly linked
list is two such lists: along `next` from the head, and along `prev` from the tail,
in reverse.
-/

namespace Library

variable {α : Type}

/-- The cells met from `p` until the pointer is `q`. -/
def Seg (next : α → Option α) : Option α → List α → Option α → Prop
  | p, [], q => p = q
  | p, x :: l, q => p = some x ∧ Seg next (next x) l q

variable {next next' : α → Option α} {p q r : Option α} {l m : List α} {x y : α}

@[simp] theorem seg_nil : Seg next p [] q ↔ p = q := Iff.rfl

@[simp] theorem seg_cons : Seg next p (x :: l) q ↔ p = some x ∧ Seg next (next x) l q := Iff.rfl

theorem seg_append : Seg next p (l ++ m) q ↔ ∃ r, Seg next p l r ∧ Seg next r m q := by
  induction l generalizing p with
  | nil => simp
  | cons x l ih => simp [ih, and_assoc]

/-- Only what the cells of the list point to matters. -/
theorem Seg.congr (h : Seg next p l q) (heq : ∀ x ∈ l, next' x = next x) : Seg next' p l q := by
  induction l generalizing p with
  | nil => exact h
  | cons x l ih =>
    refine ⟨h.1, ?_⟩
    rw [heq x (List.mem_cons_self ..)]
    exact ih h.2 fun y hy => heq y (List.mem_cons_of_mem x hy)

/-- The last cell points to the end. -/
theorem seg_concat : Seg next p (l ++ [x]) q ↔ Seg next p l (some x) ∧ next x = q := by
  rw [seg_append]
  constructor
  · rintro ⟨r, hl, rfl, hx⟩
    exact ⟨hl, hx⟩
  · rintro ⟨hl, hx⟩
    exact ⟨some x, hl, rfl, hx⟩

/-- The start is the first cell, or the end if there is none. -/
theorem Seg.start (h : Seg next p l q) : p = (l.head?).or q := by
  cases l with
  | nil => simpa using h
  | cons x l => simpa using h.1

theorem Seg.start_none (h : Seg next p l none) : p = l.head? := by
  rw [h.start, Option.or_none]

/-- A pointer leads to one list only. -/
theorem Seg.unique (h : Seg next p l none) (h' : Seg next p m none) : l = m := by
  induction l generalizing p m with
  | nil =>
    rw [seg_nil] at h
    subst h
    cases m with
    | nil => rfl
    | cons y m => exact absurd h'.1 (by simp)
  | cons x l ih =>
    obtain ⟨rfl, hl⟩ := h
    cases m with
    | nil => exact absurd h' (by simp)
    | cons y m =>
      obtain ⟨heq, hm⟩ := h'
      cases heq
      rw [ih hl hm]

/-- `x` is on the list that starts at `p`. -/
def OnList (next : α → Option α) (p : Option α) (x : α) : Prop := ∃ l, Seg next p l none ∧ x ∈ l

theorem Seg.onList_iff (h : Seg next p l none) : OnList next p x ↔ x ∈ l := by
  constructor
  · rintro ⟨m, hm, hx⟩
    rwa [h.unique hm]
  · exact fun hx => ⟨l, h, hx⟩

/-- What a cell in the middle points to. -/
theorem Seg.next_eq (h : Seg next p (l ++ x :: m) none) : next x = m.head? := by
  obtain ⟨r, -, rfl, hm⟩ := seg_append.mp h
  exact hm.start_none

/-- Put `y` behind `x`. -/
theorem Seg.insert_after (h : Seg next p (l ++ x :: m) q) (hx : next' x = some y)
    (hy : next' y = next x) (hl : ∀ z ∈ l, next' z = next z) (hm : ∀ z ∈ m, next' z = next z) :
    Seg next' p (l ++ x :: y :: m) q := by
  obtain ⟨r, hfront, rfl, hback⟩ := seg_append.mp h
  refine seg_append.mpr ⟨some x, hfront.congr hl, rfl, hx, ?_⟩
  rw [hy]
  exact hback.congr hm

/-- Let the predecessor of `y` point past it. -/
theorem Seg.remove_after (h : Seg next p (l ++ x :: y :: m) q) (hx : next' x = next y)
    (hl : ∀ z ∈ l, next' z = next z) (hm : ∀ z ∈ m, next' z = next z) :
    Seg next' p (l ++ x :: m) q := by
  obtain ⟨r, hfront, rfl, -, hback⟩ := seg_append.mp h
  refine seg_append.mpr ⟨some x, hfront.congr hl, rfl, ?_⟩
  rw [hx]
  exact hback.congr hm

/-- Take `y` out, wherever it is: the pointer to it becomes its own. -/
theorem Seg.remove (h : Seg next p (l ++ y :: m) q)
    (hstart : l = [] → r = next y) (hstart' : l ≠ [] → r = p)
    (hlast : ∀ z ∈ l.getLast?, next' z = next y)
    (hl : ∀ z ∈ l.dropLast, next' z = next z) (hm : ∀ z ∈ m, next' z = next z) :
    Seg next' r (l ++ m) q := by
  rcases List.eq_nil_or_concat l with rfl | ⟨l, x, rfl⟩
  · rw [hstart rfl]
    exact h.2.congr hm
  · rw [hstart' (by simp)]
    simp only [List.concat_eq_append, List.append_assoc, List.singleton_append] at h ⊢
    refine h.remove_after (hlast x (by simp)) (fun z hz => hl z (by simpa using hz)) hm

/-- Let the list go on to `r` where it ended. -/
theorem Seg.extend (h : Seg next p l q) (hlast : ∀ z ∈ l.getLast?, next' z = r)
    (hl : ∀ z ∈ l.dropLast, next' z = next z) (hnil : l = [] → p = r) : Seg next' p l r := by
  rcases List.eq_nil_or_concat l with rfl | ⟨l, x, rfl⟩
  · exact hnil rfl
  · simp only [List.concat_eq_append] at h ⊢
    obtain ⟨hl', -⟩ := seg_concat.mp h
    exact seg_concat.mpr ⟨hl'.congr fun z hz => hl z (by simpa using hz), hlast x (by simp)⟩

/-- Put `y` in front. -/
theorem Seg.push (h : Seg next p l q) (hy : next' y = p) (hl : ∀ z ∈ l, next' z = next z) :
    Seg next' (some y) (y :: l) q :=
  ⟨rfl, hy ▸ h.congr hl⟩

end Library
