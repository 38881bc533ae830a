-- SUMMARY: Coloured binary trees and trees with a hole: reading in order, and black heights.
import Mathlib.Data.List.Basic
import Mathlib.Data.List.Nodup

/-!
# Red-black trees

A tree is read through a hole: a path of frames from a place in the tree up to the
root, and the subtree at that place. A rebalancing loop that climbs by parent links
works at the hole and leaves the frames alone.

Mirrored cases are one case with a `Side`: `make d c t x u` has `t` on the side `d`
and `u` on the other one.
-/

namespace Library

inductive Side where
  | left
  | right
  deriving DecidableEq

def Side.other : Side → Side
  | .left => .right
  | .right => .left

@[simp] theorem Side.other_other (d : Side) : d.other.other = d := by cases d <;> rfl

@[simp] theorem Side.other_ne (d : Side) : d.other ≠ d := by cases d <;> decide

@[simp] theorem Side.ne_other (d : Side) : d ≠ d.other := by cases d <;> decide

theorem Side.eq_or_other (d e : Side) : e = d ∨ e = d.other := by
  cases d <;> cases e <;> simp [other]

inductive RBTree (α : Type) where
  | leaf
  | node (red : Bool) (l : RBTree α) (x : α) (r : RBTree α)
  deriving DecidableEq

namespace RBTree

variable {α β : Type}

/-- The node with `t` on the side `d` and `u` on the other. -/
def make (d : Side) (c : Bool) (t : RBTree α) (x : α) (u : RBTree α) : RBTree α :=
  match d with
  | .left => .node c t x u
  | .right => .node c u x t

theorem make_other (d : Side) (c : Bool) (t : RBTree α) (x : α) (u : RBTree α) :
    make d.other c t x u = make d c u x t := by
  cases d <;> rfl

/-- The colour of the root; a leaf is black. -/
def red : RBTree α → Bool
  | .leaf => false
  | .node c _ _ _ => c

/-- Colour the root black. -/
def blacken : RBTree α → RBTree α
  | .leaf => .leaf
  | .node _ l x r => .node false l x r

/-- The nodes from left to right. -/
def inorder : RBTree α → List α
  | .leaf => []
  | .node _ l x r => inorder l ++ x :: inorder r

def map (f : α → β) : RBTree α → RBTree β
  | .leaf => .leaf
  | .node c l x r => .node c (map f l) (f x) (map f r)

@[simp] theorem red_leaf : (leaf : RBTree α).red = false := rfl

@[simp] theorem red_make {d : Side} {c : Bool} {t u : RBTree α} {x : α} :
    (make d c t x u).red = c := by
  cases d <;> rfl

@[simp] theorem make_ne_leaf {d : Side} {c : Bool} {t u : RBTree α} {x : α} :
    make d c t x u ≠ leaf := by
  cases d <;> simp [make]

@[simp] theorem blacken_make {d : Side} {c : Bool} {t u : RBTree α} {x : α} :
    (make d c t x u).blacken = make d false t x u := by
  cases d <;> rfl

@[simp] theorem red_blacken (t : RBTree α) : t.blacken.red = false := by cases t <;> rfl

@[simp] theorem inorder_blacken (t : RBTree α) : t.blacken.inorder = t.inorder := by
  cases t <;> rfl

theorem blacken_eq {t : RBTree α} (h : t.red = false) : t.blacken = t := by
  cases t with
  | leaf => rfl
  | node c l x r =>
    cases h
    rfl

@[simp] theorem inorder_map (f : α → β) (t : RBTree α) :
    (t.map f).inorder = t.inorder.map f := by
  induction t with
  | leaf => rfl
  | node c l x r ihl ihr => simp [map, inorder, ihl, ihr]

@[simp] theorem red_map (f : α → β) (t : RBTree α) : (t.map f).red = t.red := by
  cases t <;> rfl

@[simp] theorem map_make (f : α → β) {d : Side} {c : Bool} {t u : RBTree α} {x : α} :
    (make d c t x u).map f = make d c (t.map f) (f x) (u.map f) := by
  cases d <;> rfl

theorem map_eq_self {g : α → α} {t : RBTree α} (h : ∀ x ∈ t.inorder, g x = x) : t.map g = t := by
  induction t with
  | leaf => rfl
  | node c l x r ihl ihr =>
    simp only [inorder, List.mem_append, List.mem_cons] at h
    rw [map, ihl fun y hy => h y (.inl hy), h x (.inr (.inl rfl)),
      ihr fun y hy => h y (.inr (.inr hy))]

theorem mem_make {d : Side} {c : Bool} {t u : RBTree α} {x y : α} :
    y ∈ (make d c t x u).inorder ↔ y = x ∨ y ∈ t.inorder ∨ y ∈ u.inorder := by
  cases d <;> simp [make, inorder] <;> tauto

theorem nodup_make {d : Side} {c : Bool} {t u : RBTree α} {x : α} :
    (make d c t x u).inorder.Nodup ↔
      x ∉ t.inorder ∧ x ∉ u.inorder ∧ t.inorder.Nodup ∧ u.inorder.Nodup ∧
        t.inorder.Disjoint u.inorder := by
  cases d
  · simp only [make, inorder, List.nodup_append', List.nodup_cons, List.disjoint_cons_right]
    tauto
  · simp only [make, inorder, List.nodup_append', List.nodup_cons, List.disjoint_cons_right]
    have := @List.disjoint_comm α t.inorder u.inorder
    tauto

/-- A rotation keeps the reading order. -/
theorem inorder_rotate (d : Side) (c c' : Bool) (a : RBTree α) (x : α) (b : RBTree α) (y : α)
    (e : RBTree α) :
    (make d c' (make d c a x b) y e).inorder = (make d c a x (make d c' b y e)).inorder := by
  cases d <;> simp [make, inorder]

/-- The nodes on the way to the side `d`. -/
def walk (d : Side) (t : RBTree α) : List α :=
  match d with
  | .left => t.inorder.reverse
  | .right => t.inorder

@[simp] theorem walk_leaf (d : Side) : (leaf : RBTree α).walk d = [] := by cases d <;> rfl

theorem mem_walk {d : Side} {t : RBTree α} {x : α} : x ∈ t.walk d ↔ x ∈ t.inorder := by
  cases d with
  | left => exact List.mem_reverse
  | right => exact Iff.rfl

@[simp] theorem length_walk (d : Side) (t : RBTree α) : (t.walk d).length = t.inorder.length := by
  cases d with
  | left => exact List.length_reverse
  | right => rfl

theorem walk_make (d : Side) (c : Bool) (t : RBTree α) (x : α) (u : RBTree α) :
    (make d c t x u).walk d = u.walk d ++ x :: t.walk d := by
  cases d with
  | left => simp [make, walk, inorder]
  | right => rfl

theorem walk_make_other (d : Side) (c : Bool) (t : RBTree α) (x : α) (u : RBTree α) :
    (make d.other c t x u).walk d = t.walk d ++ x :: u.walk d := by
  rw [make_other, walk_make]

/-- A tree that is not a leaf, with a chosen side. -/
theorem exists_make {t : RBTree α} (d : Side) (h : t ≠ leaf) :
    ∃ c a x b, t = make d c a x b := by
  cases t with
  | leaf => exact absurd rfl h
  | node c l x r =>
    cases d with
    | left => exact ⟨c, l, x, r, rfl⟩
    | right => exact ⟨c, r, x, l, rfl⟩

theorem exists_make_of_red {t : RBTree α} (d : Side) (h : t.red = true) :
    ∃ a x b, t = make d true a x b := by
  obtain ⟨c, a, x, b, rfl⟩ := exists_make (t := t) d (by rintro rfl; simp at h)
  rw [red_make] at h
  subst h
  exact ⟨a, x, b, rfl⟩

/-! ## Black heights -/

/-- No red node has a red child, and `n` black nodes are met on the way to any leaf. -/
def Balanced : RBTree α → Nat → Prop
  | .leaf, n => n = 0
  | .node true l _ r, n => l.red = false ∧ r.red = false ∧ Balanced l n ∧ Balanced r n
  | .node false l _ r, n => ∃ m, n = m + 1 ∧ Balanced l m ∧ Balanced r m

/-- `Balanced` but for the root, which may be a red node with a red child. -/
def Short (t : RBTree α) (n : Nat) : Prop :=
  match t with
  | .node true l _ r => Balanced l n ∧ Balanced r n
  | t => Balanced t n

@[simp] theorem balanced_leaf {n : Nat} : (leaf : RBTree α).Balanced n ↔ n = 0 := Iff.rfl

theorem balanced_red {d : Side} {t u : RBTree α} {x : α} {n : Nat} :
    (make d true t x u).Balanced n ↔
      t.red = false ∧ u.red = false ∧ t.Balanced n ∧ u.Balanced n := by
  cases d
  · exact Iff.rfl
  · simp only [make, Balanced]
    tauto

theorem balanced_black {d : Side} {t u : RBTree α} {x : α} {n : Nat} :
    (make d false t x u).Balanced (n + 1) ↔ t.Balanced n ∧ u.Balanced n := by
  cases d
  · simp only [make, Balanced, Nat.add_right_cancel_iff, exists_eq_left']
  · simp only [make, Balanced, Nat.add_right_cancel_iff, exists_eq_left']
    tauto

theorem not_balanced_black_zero {d : Side} {t u : RBTree α} {x : α} :
    ¬ (make d false t x u).Balanced 0 := by
  cases d <;> simp [make, Balanced]

/-- A black tree with a black node on the way to its leaves has a black root. -/
theorem Balanced.exists_black {t : RBTree α} {n : Nat} (h : t.Balanced (n + 1))
    (hblack : t.red = false) (d : Side) : ∃ a x b, t = make d false a x b := by
  obtain ⟨c, a, x, b, rfl⟩ := exists_make (t := t) d (by rintro rfl; simp at h)
  rw [red_make] at hblack
  subst hblack
  exact ⟨a, x, b, rfl⟩

theorem Balanced.short {t : RBTree α} {n : Nat} (h : t.Balanced n) : t.Short n := by
  match t, h with
  | .leaf, h => exact h
  | .node false l x r, h => exact h
  | .node true l x r, h => exact ⟨h.2.2.1, h.2.2.2⟩

theorem Short.balanced {t : RBTree α} {n : Nat} (h : t.Short n) (hblack : t.red = false) :
    t.Balanced n := by
  match t, h with
  | .leaf, h => exact h
  | .node false l x r, h => exact h
  | .node true l x r, h => exact absurd hblack (by simp [red])

theorem short_red {d : Side} {t u : RBTree α} {x : α} {n : Nat} :
    (make d true t x u).Short n ↔ t.Balanced n ∧ u.Balanced n := by
  cases d
  · exact Iff.rfl
  · simp only [make, Short]
    tauto

/-- A tree whose root was red gains a black node. -/
theorem Short.blacken {t : RBTree α} {n : Nat} (h : t.Short n) (hred : t.red = true) :
    t.blacken.Balanced (n + 1) := by
  obtain ⟨a, x, b, rfl⟩ := exists_make_of_red .left hred
  rw [blacken_make, balanced_black]
  exact short_red.mp h

/-- Whatever the colour of its root was. -/
theorem Short.exists_blacken {t : RBTree α} {n : Nat} (h : t.Short n) :
    ∃ m, t.blacken.Balanced m := by
  cases hred : t.red with
  | true => exact ⟨n + 1, h.blacken hred⟩
  | false =>
    rw [blacken_eq hred]
    exact ⟨n, h.balanced hred⟩

theorem balanced_map (f : α → β) {t : RBTree α} {n : Nat} (h : t.Balanced n) :
    (t.map f).Balanced n := by
  induction t generalizing n with
  | leaf => exact h
  | node c l x r ihl ihr =>
    cases c with
    | true => exact ⟨by simpa using h.1, by simpa using h.2.1, ihl h.2.2.1, ihr h.2.2.2⟩
    | false =>
      obtain ⟨m, rfl, hl, hr⟩ := h
      exact ⟨m, rfl, ihl hl, ihr hr⟩

/-- A tree without black nodes is a leaf, or one red node. -/
theorem Balanced.zero {t : RBTree α} (h : t.Balanced 0) :
    t = leaf ∨ ∃ x, t = .node true .leaf x .leaf := by
  have hblack : ∀ u : RBTree α, u.Balanced 0 → u.red = false → u = leaf := by
    intro u hu hred
    match u, hu with
    | .leaf, _ => rfl
    | .node false l x r, hu => exact absurd hu (by simp [Balanced])
    | .node true l x r, _ => exact absurd hred (by simp [red])
  match t, h with
  | .leaf, _ => exact .inl rfl
  | .node false l x r, h => exact absurd h (by simp [Balanced])
  | .node true l x r, h =>
    obtain ⟨hl, hr, hbl, hbr⟩ := h
    rw [hblack l hbl hl, hblack r hbr hr]
    exact .inr ⟨x, rfl⟩

end RBTree

/-! ## Holes -/

/-- A node above a hole: the side the hole is on, and the other subtree. -/
structure Frame (α : Type) where
  side : Side
  red : Bool
  x : α
  sib : RBTree α
  deriving DecidableEq

namespace Frame

open Library.RBTree

variable {α β : Type}

def plug (f : Frame α) (t : RBTree α) : RBTree α := make f.side f.red t f.x f.sib

/-- Put a tree into the hole of a path, the lowest frame first. -/
def fill : List (Frame α) → RBTree α → RBTree α
  | [], t => t
  | f :: C, t => fill C (f.plug t)

/-- The nodes of a path. -/
def nodes : List (Frame α) → List α
  | [] => []
  | f :: C => f.x :: (f.sib.inorder ++ nodes C)

/-- What stands left of the hole. -/
def before : List (Frame α) → List α
  | [] => []
  | f :: C => match f.side with
    | .left => before C
    | .right => before C ++ (f.sib.inorder ++ [f.x])

/-- What stands right of the hole. -/
def after : List (Frame α) → List α
  | [] => []
  | f :: C => match f.side with
    | .left => f.x :: f.sib.inorder ++ after C
    | .right => after C

def mapFrame (g : α → β) (f : Frame α) : Frame β := ⟨f.side, f.red, g f.x, f.sib.map g⟩

/-- The hole takes black trees only: it is at the root, or below a red node. -/
def blackOnly : List (Frame α) → Bool
  | [] => true
  | f :: _ => f.red

/-- The path is balanced around a tree of black height `n`. -/
def Awaits : List (Frame α) → Nat → Prop
  | [], _ => True
  | f :: C, n =>
    if f.red then blackOnly C = false ∧ f.sib.red = false ∧ f.sib.Balanced n ∧ Awaits C n
    else f.sib.Balanced n ∧ Awaits C (n + 1)

variable {C : List (Frame α)} {f : Frame α} {t u : RBTree α} {n : Nat} {x : α}

theorem inorder_fill (C : List (Frame α)) (t : RBTree α) :
    (fill C t).inorder = before C ++ t.inorder ++ after C := by
  induction C generalizing t with
  | nil => simp [fill, before, after]
  | cons f C ih =>
    obtain ⟨side, c, x, sib⟩ := f
    rw [fill, ih]
    cases side <;> simp [plug, make, inorder, before, after]

/-- What is still to come behind the hole, on the way to the side `d`. -/
def ahead (d : Side) : List (Frame α) → List α
  | [] => []
  | f :: C => if f.side = d then ahead d C else f.x :: (f.sib.walk d ++ ahead d C)

theorem ahead_left (C : List (Frame α)) : ahead .left C = (before C).reverse := by
  induction C with
  | nil => rfl
  | cons f C ih =>
    obtain ⟨side, c, x, sib⟩ := f
    cases side with
    | left => simpa [ahead, before] using ih
    | right => simp [ahead, before, walk, ih]

theorem ahead_right (C : List (Frame α)) : ahead .right C = after C := by
  induction C with
  | nil => rfl
  | cons f C ih =>
    obtain ⟨side, c, x, sib⟩ := f
    cases side with
    | left => simp [ahead, after, walk, ih]
    | right => simpa [ahead, after] using ih

/-- The way through a tree comes to the hole, and goes on behind it. -/
theorem walk_fill (d : Side) (C : List (Frame α)) (t : RBTree α) :
    (fill C t).walk d = (ahead d.other C).reverse ++ (t.walk d ++ ahead d C) := by
  cases d with
  | left =>
    rw [walk, inorder_fill, Side.other, ahead_left, ahead_right]
    simp [walk]
  | right =>
    rw [walk, inorder_fill, Side.other, ahead_left, ahead_right]
    simp [walk]

/-- Trees that read alike fill a hole alike. -/
theorem inorder_fill_congr (h : t.inorder = u.inorder) :
    (fill C t).inorder = (fill C u).inorder := by
  rw [inorder_fill, inorder_fill, h]

theorem perm_fill (C : List (Frame α)) (t : RBTree α) :
    (fill C t).inorder.Perm (t.inorder ++ nodes C) := by
  induction C generalizing t with
  | nil => simp [fill, nodes]
  | cons f C ih =>
    refine (ih (f.plug t)).trans ?_
    obtain ⟨side, c, x, sib⟩ := f
    have hplug : (plug ⟨side, c, x, sib⟩ t).inorder.Perm (t.inorder ++ x :: sib.inorder) := by
      cases side with
      | left => simp [plug, make, inorder]
      | right =>
        simp only [plug, make, inorder]
        refine List.perm_append_comm.trans ?_
        rw [List.cons_append]
        exact List.perm_middle.symm
    refine (hplug.append_right (nodes C)).trans ?_
    simp [nodes]

theorem map_fill (g : α → β) (C : List (Frame α)) (t : RBTree α) :
    (fill C t).map g = fill (C.map (mapFrame g)) (t.map g) := by
  induction C generalizing t with
  | nil => rfl
  | cons f C ih =>
    rw [fill, ih, List.map_cons, fill]
    simp [plug, mapFrame]

theorem map_frames_eq_self {g : α → α} {C : List (Frame α)} (h : ∀ x ∈ nodes C, g x = x) :
    C.map (mapFrame g) = C := by
  induction C with
  | nil => rfl
  | cons f C ih =>
    simp only [nodes, List.mem_cons, List.mem_append] at h
    rw [List.map_cons, ih fun y hy => h y (.inr (.inr hy))]
    simp [mapFrame, h f.x (.inl rfl), map_eq_self fun y hy => h y (.inr (.inl hy))]

theorem fill_append (C D : List (Frame α)) (t : RBTree α) :
    fill (C ++ D) t = fill D (fill C t) := by
  induction C generalizing t with
  | nil => rfl
  | cons f C ih => exact ih (f.plug t)

/-- Every node of a tree is at some place in it. -/
theorem exists_fill (h : x ∈ t.inorder) : ∃ C c l r, t = fill C (.node c l x r) := by
  induction t with
  | leaf => simp [inorder] at h
  | node c l y r ihl ihr =>
    rw [inorder, List.mem_append, List.mem_cons] at h
    rcases h with h | rfl | h
    · obtain ⟨C, c', l', r', rfl⟩ := ihl h
      exact ⟨C ++ [⟨.left, c, y, r⟩], c', l', r', by rw [fill_append]; rfl⟩
    · exact ⟨[], c, l, r, rfl⟩
    · obtain ⟨C, c', l', r', rfl⟩ := ihr h
      exact ⟨C ++ [⟨.right, c, y, l⟩], c', l', r', by rw [fill_append]; rfl⟩

/-! ### Balance around a hole -/

theorem awaits_red (h : f.red = true) :
    Awaits (f :: C) n ↔
      blackOnly C = false ∧ f.sib.red = false ∧ f.sib.Balanced n ∧ Awaits C n := by
  simp [Awaits, h]

theorem awaits_black (h : f.red = false) :
    Awaits (f :: C) n ↔ f.sib.Balanced n ∧ Awaits C (n + 1) := by
  simp [Awaits, h]

theorem Awaits.sib (h : Awaits (f :: C) n) : f.sib.Balanced n := by
  cases hf : f.red with
  | true => exact ((awaits_red hf).mp h).2.2.1
  | false => exact ((awaits_black hf).mp h).1

/-- The sibling of a hole may be any black tree of the height. -/
theorem Awaits.with_sib (h : Awaits (f :: C) n) (hbal : t.Balanced n) (hblack : t.red = false) :
    Awaits ({ f with sib := t } :: C) n := by
  rcases Bool.eq_false_or_eq_true f.red with hf | hf
  · obtain ⟨hC, -, -, hawaits⟩ := (awaits_red hf).mp h
    exact (awaits_red (f := { f with sib := t }) hf).mpr ⟨hC, hblack, hbal, hawaits⟩
  · obtain ⟨-, hawaits⟩ := (awaits_black hf).mp h
    exact (awaits_black (f := { f with sib := t }) hf).mpr ⟨hbal, hawaits⟩

/-- A tree of the awaited height makes the whole balanced, with a black root. -/
theorem Awaits.fill (h : Awaits C n) (ht : t.Balanced n)
    (hred : t.red = true → blackOnly C = false) :
    ∃ m, (Frame.fill C t).Balanced m ∧ (Frame.fill C t).red = false := by
  induction C generalizing t n with
  | nil =>
    refine ⟨n, ht, ?_⟩
    cases hc : t.red with
    | false => exact hc
    | true => exact absurd (hred hc) (by simp [blackOnly])
  | cons f C ih =>
    rw [Frame.fill]
    cases hf : f.red with
    | true =>
      obtain ⟨hC, hsib, hbal, hawaits⟩ := (awaits_red hf).mp h
      have htblack : t.red = false := by
        cases hc : t.red with
        | false => rfl
        | true => exact absurd (hred hc) (by simp [blackOnly, hf])
      refine ih hawaits ?_ fun _ => hC
      rw [plug, hf, balanced_red]
      exact ⟨htblack, hsib, ht, hbal⟩
    | false =>
      obtain ⟨hbal, hawaits⟩ := (awaits_black hf).mp h
      refine ih hawaits ?_ fun hc => ?_
      · rw [plug, hf, balanced_black]
        exact ⟨ht, hbal⟩
      · rw [plug, red_make, hf] at hc
        exact absurd hc (by simp)

/-- In a balanced tree with a black root every place is balanced. -/
theorem awaits_of_fill {m : Nat} (h : (Frame.fill C t).Balanced m)
    (hroot : (Frame.fill C t).red = false) :
    ∃ n, Awaits C n ∧ t.Balanced n ∧ (t.red = true → blackOnly C = false) := by
  induction C generalizing t with
  | nil =>
    rw [Frame.fill] at h hroot
    exact ⟨m, trivial, h, fun hc => absurd hc (by simp [hroot])⟩
  | cons f C ih =>
    obtain ⟨n, hawaits, hbal, hcol⟩ := ih h hroot
    rw [plug] at hbal hcol
    rw [red_make] at hcol
    cases hf : f.red with
    | true =>
      rw [hf, balanced_red] at hbal
      obtain ⟨ht, hsib, htbal, hsbal⟩ := hbal
      refine ⟨n, (awaits_red hf).mpr ⟨hcol hf, hsib, hsbal, hawaits⟩, htbal, fun hc => ?_⟩
      exact absurd hc (by simp [ht])
    | false =>
      rw [hf] at hbal
      cases n with
      | zero => exact absurd hbal not_balanced_black_zero
      | succ n =>
        rw [balanced_black] at hbal
        exact ⟨n, (awaits_black hf).mpr ⟨hbal.2, hawaits⟩, hbal.1, fun _ => hf⟩

theorem awaits_map (g : α → β) (h : Awaits C n) : Awaits (C.map (mapFrame g)) n := by
  have hblackOnly : ∀ D : List (Frame α), blackOnly (D.map (mapFrame g)) = blackOnly D := by
    intro D
    cases D <;> rfl
  induction C generalizing n with
  | nil => trivial
  | cons f C ih =>
    rw [List.map_cons]
    cases hf : f.red with
    | true =>
      obtain ⟨hC, hsib, hbal, hawaits⟩ := (awaits_red hf).mp h
      refine (awaits_red (f := mapFrame g f) hf).mpr
        ⟨(hblackOnly C).trans hC, ?_, balanced_map g hbal, ih hawaits⟩
      simpa [mapFrame] using hsib
    | false =>
      obtain ⟨hbal, hawaits⟩ := (awaits_black hf).mp h
      exact (awaits_black (f := mapFrame g f) hf).mpr ⟨balanced_map g hbal, ih hawaits⟩

end Frame

end Library
