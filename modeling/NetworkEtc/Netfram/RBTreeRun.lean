-- SUMMARY: Every history of insertions and deletions leaves a red-black tree of the nodes that are in it.
import NetworkEtc.Netfram.RBTreeDelete

/-!
# Histories of the red-black tree

What holds of the memory after a history is said with the links alone: what the root
reaches, where the parent links lead, and which colours are met on the way down.
-/

namespace Netfram

open Library (Side RBTree Frame)
open Library.Frame (fill Awaits)

namespace CRBTree

variable {ν K : Type} [DecidableEq ν]

/-! ## What the links say -/

/-- The nodes below the root. -/
inductive Reach (s : CRBTree ν K) : ν → Prop where
  | root : s.mpoRoot ≠ s.moSentinel → Reach s s.mpoRoot
  | child {x y : ν} {d : Side} : Reach s x → s.child d x = some y → y ≠ s.moSentinel → Reach s y

/-- The nodes on a way down from a link to the sentinel. -/
inductive Path (s : CRBTree ν K) : ν → List ν → Prop where
  | sentinel : Path s s.moSentinel []
  | child {x y : ν} {d : Side} {p : List ν} :
    x ≠ s.moSentinel → s.child d x = some y → Path s y p → Path s x (x :: p)

/-- The memory holds a red-black tree of the nodes `l`. -/
structure Sound (s : CRBTree ν K) (l : List ν) : Prop where
  reach : ∀ x, s.Reach x ↔ x ∈ l
  linked : ∀ x, s.Reach x → ∀ d, ∃ y, s.child d x = some y
  parent : ∀ x, s.Reach x → x ≠ s.mpoRoot →
    ∃ p d, s.Reach p ∧ s.mpoParent x = some p ∧ s.child d p = some x
  child : ∀ p x d, s.Reach p → s.child d p = some x → x ≠ s.moSentinel → s.mpoParent x = some p
  root : s.mcColor s.mpoRoot = false
  red : ∀ x y d, s.Reach x → s.mcColor x = true → s.child d x = some y → s.mcColor y = false
  height : ∃ n, ∀ p, s.Path s.mpoRoot p → p.countP (fun x => !s.mcColor x) = n

variable {s : CRBTree ν K} {par : Option ν} {C : List (Frame ν)} {t W : RBTree ν} {x y : ν}
  {d : Side} {n : Nat} {l L : List ν}

omit [DecidableEq ν] in
/-- The place of a node, taken apart on a side. -/
theorem Represents.place (h : s.Represents W) (hx : x ∈ W.inorder) (d : Side) :
    ∃ par C c a b, s.At par C (.make d c a x b) ∧ W = fill C (.make d c a x b) := by
  obtain ⟨C, c, l, r, rfl⟩ := Library.Frame.exists_fill hx
  obtain ⟨par, hat⟩ := h.at
  cases d with
  | left => exact ⟨par, C, c, l, r, hat, rfl⟩
  | right => exact ⟨par, C, c, r, l, hat, rfl⟩

omit [DecidableEq ν] in
theorem Rep.reach (h : s.Rep par t) (hsentinel : s.moSentinel ∉ t.inorder)
    (hroot : t ≠ .leaf → s.Reach (s.ptr t)) : ∀ x ∈ t.inorder, s.Reach x := by
  induction t generalizing par with
  | leaf => simp [RBTree.inorder]
  | node c l y r ihl ihr =>
    obtain ⟨-, hl, hr, -, hrl, hrr⟩ := h
    have hy : s.Reach y := hroot (by simp)
    simp only [RBTree.inorder, List.mem_append, List.mem_cons, not_or] at hsentinel
    have hbelow : ∀ (d : Side) (u : RBTree ν), s.child d y = some (s.ptr u) →
        s.moSentinel ∉ u.inorder → u ≠ .leaf → s.Reach (s.ptr u) := by
      intro d u hu hs hne
      exact hy.child hu fun heq => hs (heq ▸ ptr_mem hne)
    intro x hx
    rw [RBTree.inorder, List.mem_append, List.mem_cons] at hx
    rcases hx with hx | rfl | hx
    · exact ihl hrl hsentinel.1 (hbelow .left l hl hsentinel.1) x hx
    · exact hy
    · exact ihr hrr hsentinel.2.2 (hbelow .right r hr hsentinel.2.2) x hx

omit [DecidableEq ν] in
/-- A link from a node of the tree leads to a child of it. -/
theorem Represents.child_mem (h : s.Represents W) (hx : x ∈ W.inorder)
    (hchild : s.child d x = some y) (hy : y ≠ s.moSentinel) :
    y ∈ W.inorder ∧ s.mpoParent y = some x := by
  obtain ⟨par, C, c, a, b, hat, rfl⟩ := h.place hx d
  obtain ⟨-, ha, -⟩ := rep_make.mp hat.rep
  rw [hchild, Option.some_inj] at ha
  subst ha
  have hne : a ≠ .leaf := by
    rintro rfl
    exact hy rfl
  refine ⟨?_, At.parent (At.down (f := ⟨d, c, x, b⟩) hat) hne⟩
  rw [(Library.Frame.perm_fill C _).mem_iff]
  exact List.mem_append_left _ (RBTree.mem_make.mpr (.inr (.inl (ptr_mem hne))))

omit [DecidableEq ν] in
theorem Represents.reach_iff (h : s.Represents W) : s.Reach x ↔ x ∈ W.inorder := by
  have hroot : s.mpoRoot = s.ptr W := h.choose_spec.above
  constructor
  · intro hreach
    induction hreach with
    | root hne =>
      rw [hroot] at hne ⊢
      exact (s.ptr_eq_or_mem W).resolve_left hne
    | child _ hchild hy ih => exact (h.child_mem ih hchild hy).1
  · intro hx
    obtain ⟨par, hat⟩ := h
    have hsentinel : s.moSentinel ∉ W.inorder := fun hz => hat.sentinel (List.mem_append_left _ hz)
    refine hat.rep.reach hsentinel (fun hne => ?_) x hx
    rw [← hroot]
    refine .root ?_
    rw [hroot]
    exact fun heq => hsentinel (heq ▸ ptr_mem hne)

omit [DecidableEq ν] in
/-- All ways down from a balanced tree meet the same number of black nodes. -/
theorem Rep.path {p : List ν} (h : s.Rep par t) (hsentinel : s.moSentinel ∉ t.inorder)
    (hbal : t.Balanced n) (hpath : s.Path (s.ptr t) p) : p.countP (fun x => !s.mcColor x) = n := by
  induction t generalizing par n p with
  | leaf =>
    rw [RBTree.balanced_leaf] at hbal
    subst hbal
    rw [ptr_leaf] at hpath
    cases hpath with
    | sentinel => rfl
    | child hne => exact absurd rfl hne
  | node c l y r ihl ihr =>
    obtain ⟨hc, hl, hr, -, hrl, hrr⟩ := h
    simp only [RBTree.inorder, List.mem_append, List.mem_cons, not_or] at hsentinel
    have hway : s.Path y p := hpath
    cases hway with
    | sentinel => exact absurd rfl hsentinel.2.1
    | @child _ z d p _ hchild hway =>
      have hrest : ∀ k, l.Balanced k → r.Balanced k → p.countP (fun x => !s.mcColor x) = k := by
        intro k hkl hkr
        cases d with
        | left =>
          rw [hl, Option.some_inj] at hchild
          exact ihl hrl hsentinel.1 hkl (hchild ▸ hway)
        | right =>
          rw [hr, Option.some_inj] at hchild
          exact ihr hrr hsentinel.2.2 hkr (hchild ▸ hway)
      cases c with
      | true => simp [hc, hrest n hbal.2.2.1 hbal.2.2.2]
      | false =>
        obtain ⟨k, rfl, hkl, hkr⟩ := hbal
        simp [hc, hrest k hkl hkr]

omit [DecidableEq ν] in
theorem Stands.sound (h : s.Stands L) (hperm : L.Perm l) : s.Sound l := by
  obtain ⟨W, hrep, rfl, hblack, n, hbal⟩ := h
  have hroot : s.mpoRoot = s.ptr W := hrep.choose_spec.above
  refine ⟨fun x => ?_, fun x hx d => ?_, fun x hx hne => ?_, fun p x d hp hchild hx => ?_, ?_,
    fun x y d hx hred hchild => ?_, n, fun p hpath => ?_⟩
  · rw [hrep.reach_iff, hperm.mem_iff]
  · obtain ⟨par, C, c, a, b, hat, -⟩ := hrep.place (hrep.reach_iff.mp hx) d
    exact ⟨_, (rep_make.mp hat.rep).2.1⟩
  · obtain ⟨par, C, c, a, b, hat, hfill⟩ := hrep.place (hrep.reach_iff.mp hx) .left
    cases C with
    | nil =>
      have := hat.eq_root_iff.mpr rfl
      rw [ptr_make] at this
      exact absurd this hne
    | cons f C =>
      have hparent := hat.parent RBTree.make_ne_leaf
      have hside := hat.above.2.2.1
      rw [ptr_make] at hparent hside
      refine ⟨f.x, f.side, ?_, hparent, hside⟩
      rw [hrep.reach_iff, hfill, (Library.Frame.perm_fill (f :: C) _).mem_iff]
      simp [Frame.nodes]
  · exact (hrep.child_mem (hrep.reach_iff.mp hp) hchild hx).2
  · obtain ⟨par, hat⟩ := hrep
    rw [hroot, hat.color, hblack]
  · obtain ⟨par, C, c, a, b, hat, hfill⟩ := hrep.place (hrep.reach_iff.mp hx) d
    have hcolor := hat.color
    rw [ptr_make, hred, RBTree.red_make] at hcolor
    subst hcolor
    rw [hfill] at hbal hblack
    obtain ⟨k, -, hk, -⟩ := Library.Frame.awaits_of_fill hbal hblack
    obtain ⟨-, ha, -, -, hra, -⟩ := rep_make.mp hat.rep
    rw [hchild, Option.some_inj] at ha
    rw [ha, hra.color_ptr hat.black]
    exact (RBTree.balanced_red.mp hk).1
  · obtain ⟨par, hat⟩ := hrep
    rw [hroot] at hpath
    exact hat.rep.path (fun hz => hat.sentinel (List.mem_append_left _ hz)) hbal hpath

/-! ## Walking the tree -/

omit [DecidableEq ν] in
theorem Stands.sentinel_notMem (h : s.Stands L) : s.moSentinel ∉ L := by
  obtain ⟨W, ⟨par, hat⟩, rfl, -⟩ := h
  exact fun hz => hat.sentinel (List.mem_append_left _ hz)

theorem Stands.empty_iff (h : s.Stands L) : s.empty = true ↔ L = [] := by
  obtain ⟨W, hrep, rfl, -⟩ := h
  rw [CRBTree.empty, decide_eq_true_iff, hrep.root_eq_sentinel_iff]
  cases W with
  | leaf => simp [RBTree.inorder]
  | node c l x r => simp [RBTree.inorder]

theorem Stands.root_eq_sentinel_iff (h : s.Stands L) : s.mpoRoot = s.moSentinel ↔ L = [] := by
  rw [← h.empty_iff, CRBTree.empty, decide_eq_true_iff]

theorem Stands.seekToFirst {fuel : Nat} (h : s.Stands (x :: L)) (hfuel : L.length < fuel) :
    s.seekToFirst fuel = some x := by
  obtain ⟨W, hrep, hreads, hblack, n, hbal⟩ := h
  have hne : W ≠ .leaf := by
    rintro rfl
    simp [RBTree.inorder] at hreads
  have hlen : W.inorder.length ≤ fuel := by
    rw [hreads]
    exact hfuel
  obtain ⟨C, c, m, u, hrun, -, hinorder, -⟩ := hrep.first hbal hblack hne hlen
  rw [hreads, List.cons.injEq] at hinorder
  rw [CRBTree.seekToFirst, hrun, hinorder.1]

theorem Rep.midTrival {fuel : Nat} (h : s.Rep par t) (hsentinel : s.moSentinel ∉ t.inorder)
    (hfuel : t.inorder.length < fuel) : s.midTrival fuel (s.ptr t) = some t.inorder := by
  induction t generalizing par fuel with
  | leaf =>
    obtain ⟨fuel, rfl⟩ : ∃ k, fuel = k + 1 := ⟨fuel - 1, by omega⟩
    simp [CRBTree.midTrival, RBTree.inorder]
  | node c l x r ihl ihr =>
    obtain ⟨fuel, rfl⟩ : ∃ k, fuel = k + 1 := ⟨fuel - 1, by omega⟩
    obtain ⟨-, hl, hr, -, hrl, hrr⟩ := h
    simp only [RBTree.inorder, List.mem_append, List.mem_cons, not_or, List.length_append,
      List.length_cons] at hsentinel hfuel
    -- a child is walked, or is the sentinel and has no nodes
    have hchild : ∀ u : RBTree ν, s.moSentinel ∉ u.inorder →
        s.midTrival fuel (s.ptr u) = some u.inorder →
        (if s.ptr u ≠ s.moSentinel then s.midTrival fuel (s.ptr u) else some []) =
          some u.inorder := by
      intro u hu hwalk
      by_cases hleaf : u = .leaf
      · subst hleaf
        simp [RBTree.inorder]
      · have hne : s.ptr u ≠ s.moSentinel := fun heq => hu (heq ▸ ptr_mem hleaf)
        rw [if_pos hne, hwalk]
    have hx : x ≠ s.moSentinel := fun heq => hsentinel.2.1 heq.symm
    rw [ptr, CRBTree.midTrival, if_neg hx]
    simp only [hl, hr, Option.bind_eq_bind, Option.bind_some,
      hchild l hsentinel.1 (ihl hrl hsentinel.1 (by omega)),
      hchild r hsentinel.2.2 (ihr hrr hsentinel.2.2 (by omega))]
    rfl

theorem Stands.midTrival {fuel : Nat} (h : s.Stands L) (hfuel : L.length < fuel) :
    s.midTrival fuel s.mpoRoot = some L := by
  obtain ⟨W, ⟨par, hat⟩, rfl, -⟩ := h
  have hroot : s.mpoRoot = s.ptr W := hat.above
  rw [hroot]
  exact hat.rep.midTrival (fun hz => hat.sentinel (List.mem_append_left _ hz)) hfuel

/-! ## Histories -/

/-- A call: a node is inserted under a key, or deleted. -/
inductive Op (ν K : Type) where
  | insert (apoNode : ν) (mtKey : K)
  | delete (apoNode : ν)

def step (less : K → K → Bool) (fuel : Nat) (s : CRBTree ν K) : Op ν K → Option (CRBTree ν K)
  | .insert x k => (s.setKey x k).insert less fuel x
  | .delete x => s.delete fuel x

/-- The calls of a history, the oldest first. -/
def run (less : K → K → Bool) (fuel : Nat) : CRBTree ν K → List (Op ν K) → Option (CRBTree ν K)
  | s, [] => some s
  | s, op :: ops => (s.step less fuel op).bind fun s => run less fuel s ops

/-- The inserted nodes without the deleted ones, after one more call. -/
def Op.leaves (l : List ν) : Op ν K → List ν
  | .insert x _ => x :: l
  | .delete x => l.erase x

/-- A node that is not in the tree is inserted, one that is in it is deleted. The
sentinel is no node a caller has. -/
def Op.Admits (sentinel : ν) (l : List ν) : Op ν K → Prop
  | .insert x _ => x ∉ l ∧ x ≠ sentinel
  | .delete x => x ∈ l

instance Op.decidableAdmits (sentinel : ν) (l : List ν) (op : Op ν K) :
    Decidable (op.Admits sentinel l) :=
  match op with
  | .insert x _ => inferInstanceAs (Decidable (x ∉ l ∧ x ≠ sentinel))
  | .delete x => inferInstanceAs (Decidable (x ∈ l))

/-- The nodes in the tree after a history that starts with those of `l`. -/
def inTree : List ν → List (Op ν K) → List ν
  | l, [] => l
  | l, op :: ops => inTree (op.leaves l) ops

def Admissible (sentinel : ν) : List ν → List (Op ν K) → Prop
  | _, [] => True
  | l, op :: ops => op.Admits sentinel l ∧ Admissible sentinel (op.leaves l) ops

theorem Rep.setKey {k : K} (h : s.Rep par t) : (s.setKey x k).Rep par t :=
  h.congr ⟨rfl, fun _ _ _ => rfl, fun _ _ => rfl, fun _ _ => rfl⟩

theorem Stands.setKey (h : s.Stands L) (x : ν) (k : K) : (s.setKey x k).Stands L := by
  obtain ⟨W, ⟨par, hat⟩, hreads, hblack, hbal⟩ := h
  refine ⟨W, ⟨par, ?_, hat.rep.setKey, hat.nodup, hat.sentinel, hat.black⟩, hreads, hblack, hbal⟩
  have hptr : (s.setKey x k).ptr W = s.ptr W := ptr_congr rfl W
  rw [hptr]
  exact hat.above

theorem stands_init (mtKey : ν → K) (child : Side → ν → Option ν) (mpoParent : ν → Option ν)
    (mcColor : ν → Bool) (moSentinel : ν) :
    (init mtKey child mpoParent mcColor moSentinel).Stands [] := by
  refine ⟨.leaf, ⟨none, rfl, trivial, by simp [RBTree.inorder, Frame.nodes],
    by simp [RBTree.inorder, Frame.nodes], ?_⟩, rfl, rfl, 0, rfl⟩
  simp [init]

/-- One call keeps the tree, and leaves the nodes in it that it has to. -/
theorem Stands.step (less : K → K → Bool) {fuel : Nat} {op : Op ν K} (h : s.Stands L)
    (hperm : L.Perm l) (hop : op.Admits s.moSentinel l) (hfuel : l.length < fuel) :
    ∃ s' L', s.step less fuel op = some s' ∧ s'.Stands L' ∧ L'.Perm (op.leaves l) ∧
      s'.moSentinel = s.moSentinel := by
  have hlen : L.length < fuel := hperm.length_eq ▸ hfuel
  cases op with
  | insert x k =>
    obtain ⟨s', p, q, hinsert, hpq, hstands, -, -, hsent⟩ :=
      (h.setKey x k).insert less (fun hx => hop.1 (hperm.mem_iff.mp hx)) hop.2 hlen
    refine ⟨s', _, hinsert, hstands, ?_, hsent⟩
    rw [hpq] at hperm
    exact List.perm_middle.trans (hperm.cons x)
  | delete x =>
    obtain ⟨s', L', hdelete, hstands, hperm', -, -, hsent⟩ :=
      h.delete (hperm.mem_iff.mpr hop) hlen
    exact ⟨s', L', hdelete, hstands, hperm'.trans (hperm.erase x), hsent⟩

theorem length_leaves_le (op : Op ν K) (l : List ν) : (op.leaves l).length ≤ l.length + 1 := by
  cases op with
  | insert x k => exact Nat.le_refl _
  | delete x => exact Nat.le_succ_of_le List.length_erase_le

theorem length_inTree_le (ops : List (Op ν K)) (l : List ν) :
    (inTree l ops).length ≤ l.length + ops.length := by
  induction ops generalizing l with
  | nil => exact Nat.le_refl _
  | cons op ops ih =>
    have hleaves := length_leaves_le op l
    have hrest := ih (op.leaves l)
    simp only [inTree, List.length_cons]
    omega

theorem Stands.run (less : K → K → Bool) {fuel : Nat} {ops : List (Op ν K)} (h : s.Stands L)
    (hperm : L.Perm l) (hadm : Admissible s.moSentinel l ops) (hfuel : l.length + ops.length < fuel) :
    ∃ s' L', s.run less fuel ops = some s' ∧ s'.Stands L' ∧ L'.Perm (inTree l ops) := by
  induction ops generalizing s L l with
  | nil => exact ⟨s, L, rfl, h, hperm⟩
  | cons op ops ih =>
    obtain ⟨hop, hadm⟩ := hadm
    simp only [List.length_cons] at hfuel
    have hlt : l.length < fuel := by omega
    obtain ⟨s₁, L₁, hstep, h₁, hperm₁, hsent⟩ := h.step less hperm hop hlt
    have hlen := length_leaves_le op l
    rw [← hsent] at hadm
    have hfuel' : (op.leaves l).length + ops.length < fuel := by omega
    obtain ⟨s', L', hrun, hstands, hperm'⟩ := ih h₁ hperm₁ hadm hfuel'
    refine ⟨s', L', ?_, hstands, hperm'⟩
    rw [CRBTree.run, hstep, Option.bind_some, hrun]

/-- Every history of insertions of nodes that are not in the tree and deletions of
nodes that are ends, and leaves a red-black tree of the nodes that were inserted and
not deleted. -/
theorem redBlack_run (less : K → K → Bool) (mtKey : ν → K) (child : Side → ν → Option ν)
    (mpoParent : ν → Option ν) (mcColor : ν → Bool) (moSentinel : ν) (ops : List (Op ν K))
    (hadm : Admissible moSentinel [] ops) (fuel : Nat) (hfuel : ops.length < fuel) :
    ∃ s, (init mtKey child mpoParent mcColor moSentinel).run less fuel ops = some s ∧
      s.Sound (inTree [] ops) := by
  obtain ⟨s, L, hrun, hstands, hperm⟩ :=
    (stands_init mtKey child mpoParent mcColor moSentinel).run less (.refl _) hadm
      (by simpa using hfuel)
  exact ⟨s, hrun, hstands.sound hperm⟩

/-- Four nodes, of which the one with two children is deleted. -/
def fourNodes : List (Op Nat UInt64) :=
  [.insert 1 5, .insert 2 3, .insert 3 9, .insert 4 1, .delete 1]

theorem redBlack_fourNodes :
    ∃ s, (init (fun _ => 0) (fun _ _ => none) (fun _ => none) (fun _ => true) 0).run keyLess 6
      fourNodes = some s ∧ s.Sound [4, 3, 2] := by
  refine redBlack_run keyLess _ _ _ _ 0 fourNodes ?_ 6 (by decide)
  exact ⟨by decide, by decide, by decide, by decide, by decide, trivial⟩

/-! ## The order after a deletion -/

/-- Letting the first node stand for another one keeps the order if and only if that one
comes second. -/
theorem map_standFor_eq_erase {m : ν} (hnodup : (m :: l).Nodup) (hx : x ∈ l) (hmx : m ≠ x) :
    l.map (standFor x m) = (m :: l).erase x ↔ l.head? = some x := by
  obtain ⟨hm, hnodup⟩ := List.nodup_cons.mp hnodup
  cases l with
  | nil => exact absurd hx (by simp)
  | cons y l =>
    rw [List.erase_cons_tail (by simpa using hmx), List.map_cons, List.head?_cons, Option.some_inj]
    constructor
    · intro heq
      by_contra hyx
      rw [standFor_eq_self hyx] at heq
      exact hm ((List.cons.inj heq).1 ▸ List.mem_cons_self ..)
    · rintro rfl
      have hself : l.map (standFor y m) = l := by
        conv_rhs => rw [← List.map_id l]
        refine List.map_congr_left fun z hz => standFor_eq_self fun heq => ?_
        exact (List.nodup_cons.mp hnodup).1 (heq ▸ hz)
      rw [hself, List.erase_cons_head, standFor, if_pos rfl]

/-- After a deletion `MidTrival` meets the other nodes in their order if and only if the node
had at most one child, or was the second in order. -/
theorem midTrival_delete (less : K → K → Bool) (mtKey : ν → K) (child : Side → ν → Option ν)
    (mpoParent : ν → Option ν) (mcColor : ν → Bool) (moSentinel : ν) (ops : List (Op ν K))
    (hadm : Admissible moSentinel [] ops) (fuel : Nat) (hfuel : ops.length < fuel)
    (hrun : (init mtKey child mpoParent mcColor moSentinel).run less fuel ops = some s)
    (hwalk : s.midTrival fuel s.mpoRoot = some L) (hx : x ∈ L) :
    ∃ s', s.delete fuel x = some s' ∧ (s'.midTrival fuel s'.mpoRoot = some (L.erase x) ↔
      s.child .left x = some s.moSentinel ∨ s.child .right x = some s.moSentinel ∨
        L[1]? = some x) := by
  have hfuel' : ([] : List ν).length + ops.length < fuel := by simpa using hfuel
  obtain ⟨s₁, L₁, hrun₁, hstands, hperm⟩ :=
    (stands_init mtKey child mpoParent mcColor moSentinel).run less (.refl _) hadm hfuel'
  obtain rfl := Option.some.inj (hrun₁.symm.trans hrun)
  have hlen : L₁.length < fuel := by
    have hle := length_inTree_le ops ([] : List ν)
    rw [hperm.length_eq]
    simp only [List.length_nil] at hle
    omega
  obtain rfl := Option.some.inj ((hstands.midTrival hlen).symm.trans hwalk)
  obtain ⟨s', L', hdelete, hstands', -, -, hcases⟩ := hstands.delete_cases hx hlen
  refine ⟨s', hdelete, ?_⟩
  rcases hcases with ⟨hchild, rfl⟩ | ⟨hleft, hright, m, T, rfl, hmx, rfl⟩
  · have hwalk' := hstands'.midTrival (List.length_erase_le.trans_lt hlen)
    exact iff_of_true hwalk' (or_assoc.mp (.inl hchild))
  · have hlen' : (T.map (standFor x m)).length < fuel := by
      rw [List.length_map]
      exact Nat.lt_of_succ_lt hlen
    have hwalk' := hstands'.midTrival hlen'
    have hxT : x ∈ T := (List.mem_cons.mp hx).resolve_left hmx.symm
    rw [hwalk', Option.some_inj, map_standFor_eq_erase hstands.nodup hxT hmx, or_iff_right hleft,
      or_iff_right hright, List.getElem?_cons_succ, List.head?_eq_getElem?]

/-- Five nodes; node 1 is the root, 2 and 3 are its children, 4 and 5 those of 2. -/
def fiveNodes : List (Op Nat UInt64) :=
  [.insert 1 40, .insert 2 20, .insert 3 60, .insert 4 10, .insert 5 30]

/-- An empty tree whose sentinel is node 0. -/
def emptyTree : CRBTree Nat UInt64 :=
  init (fun _ => 0) (fun _ _ => none) (fun _ => none) (fun _ => true) 0

/-- Node 2 has two children and comes second. -/
theorem midTrival_delete_second : ∃ s s', emptyTree.run keyLess 6 fiveNodes = some s ∧
    s.delete 6 2 = some s' ∧ s'.midTrival 6 s'.mpoRoot = some ([4, 2, 5, 1, 3].erase 2) := by
  have hcalls : (emptyTree.run keyLess 6 fiveNodes).any (fun s =>
      s.midTrival 6 s.mpoRoot = some [4, 2, 5, 1, 3]) = true := by decide
  obtain ⟨s, hrun, hwalk⟩ := (Option.any_eq_true ..).mp hcalls
  have hadm : Admissible 0 [] fiveNodes :=
    ⟨by decide, by decide, by decide, by decide, by decide, trivial⟩
  obtain ⟨s', hdelete, hiff⟩ := midTrival_delete keyLess (fun _ => 0) (fun _ _ => none)
    (fun _ => none) (fun _ => true) 0 fiveNodes hadm 6 (by decide) hrun (of_decide_eq_true hwalk)
    (by decide : 2 ∈ [4, 2, 5, 1, 3])
  exact ⟨s, s', hrun, hdelete, hiff.mpr (.inr (.inr rfl))⟩

/-- The root has two children and comes fourth: node 4 stands in for it, after 2 and 5. -/
theorem midTrival_delete_root : ((emptyTree.run keyLess 6 fiveNodes).any fun s =>
    s.midTrival 6 s.mpoRoot = some [4, 2, 5, 1, 3] ∧
      ([4, 2, 5, 1, 3].map s.mtKey).Pairwise (· ≤ ·) ∧
      (s.delete 6 1).any fun s' => s'.midTrival 6 s'.mpoRoot = some [2, 5, 4, 3] ∧
        s'.midTrival 6 s'.mpoRoot ≠ some ([4, 2, 5, 1, 3].erase 1)) = true := by
  decide

end CRBTree

end Netfram
