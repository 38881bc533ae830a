-- SUMMARY: The loops of the red-black tree: inserting a node, and making up for a missing black one.
import NetworkEtc.Netfram.RBTreeMem

/-!
# The rebalancing loops

Both loops are followed at a place of the tree. The loop of `Insert` carries a red
tree up that is balanced on its own; the loop of `Delete` carries up a tree that is
one black node short.
-/

namespace Netfram

open Library (Side RBTree Frame)
open Library.Frame (fill Awaits blackOnly)

namespace CRBTree

variable {ν K : Type} [DecidableEq ν] {s s' : CRBTree ν K} {par : Option ν}
  {C : List (Frame ν)} {f g : Frame ν} {t u W : RBTree ν} {x : ν} {d : Side} {n : Nat}

/-! ## The loop of `Insert` -/

/-- A place the loop of `Insert` goes on from: a red tree that is balanced, in a path
that is balanced, reading as `l` all in all. -/
structure Climbs (s : CRBTree ν K) (C : List (Frame ν)) (t : RBTree ν) (l : List ν) : Prop where
  at_ : ∃ par, s.At par C t
  red : t.red = true
  height : ∃ n, t.Balanced n ∧ Awaits C n
  reads : (fill C t).inorder = l

omit [DecidableEq ν] in
theorem plug_ne_leaf : f.plug t ≠ .leaf := RBTree.make_ne_leaf

omit [DecidableEq ν] in
theorem Climbs.ne_leaf {l : List ν} (h : Climbs s C t l) : t ≠ .leaf := by
  rintro rfl
  exact absurd h.red (by simp)

omit [DecidableEq ν] in
theorem ne_leaf_of_red (h : t.red = true) : t ≠ .leaf := by
  rintro rfl
  exact absurd h (by simp)

/-- The grandparent goes down on the other side. -/
theorem insertRotate_spec (h : s.At par (f :: g :: C) t) (hred : t.red = true)
    (hside : f.side = g.side) (ht : t.Balanced n) (hsib : f.sib.red = false)
    (hsibBal : f.sib.Balanced n) (hg : g.sib.red = false) (hgBal : g.sib.Balanced n)
    (hawaits : Awaits C (n + 1)) :
    ∃ s' f', s.insertRotate g.side (s.ptr t) = some (s', s'.ptr t) ∧
      Climbs s' (f' :: C) t (fill (f :: g :: C) t).inorder ∧ Keeps s s' := by
  have hparent := h.parent (ne_leaf_of_red hred)
  have hgrand := h.up.parent plug_ne_leaf
  rw [ptr_plug] at hgrand
  obtain ⟨h₁, hk₁⟩ := h.setColor_parent false
  obtain ⟨h₂, hk₂⟩ := h₁.up.setColor_parent true
  have h₃ := h₂.up
  have htree : Frame.plug { g with red := true } (Frame.plug { f with red := false } t) =
      .make g.side.other true g.sib g.x (.make g.side.other false f.sib f.x t) := by
    simp only [Frame.plug, RBTree.make_other, hside]
  rw [htree] at h₃
  obtain ⟨s', hrotate, h₄, hk₃⟩ := h₃.rotate
  rw [RBTree.make_other, RBTree.make_other] at h₄
  let f' : Frame ν := ⟨g.side, false, f.x, .make g.side true f.sib g.x g.sib⟩
  have h₅ : s'.At (some f.x) (f' :: C) t := At.down (f := f') h₄
  refine ⟨s', f', ?_, ⟨⟨_, h₅⟩, hred, ⟨n, ht, ?_⟩, ?_⟩, (hk₁.trans hk₂).trans hk₃⟩
  · rw [ptr_congr ((hk₁.trans hk₂).trans hk₃).sentinel]
    simp [insertRotate, hparent, hgrand, hrotate]
  · rw [Library.Frame.awaits_black rfl]
    exact ⟨RBTree.balanced_red.mpr ⟨hsib, hg, hsibBal, hgBal⟩, hawaits⟩
  · change (fill C (f'.plug t)).inorder = (fill C (g.plug (f.plug t))).inorder
    apply Library.Frame.inorder_fill_congr
    simp only [f', Frame.plug, hside]
    cases g.side <;> simp [RBTree.make, RBTree.inorder]

/-- A round of the loop goes up, or ends it below a black node. -/
theorem insertRound_spec (h : s.At par (f :: g :: C) t) (hred : t.red = true)
    (ht : t.Balanced n) (hf : f.red = true) (hawaits : Awaits (f :: g :: C) n) :
    ∃ s' C' t', s.insertRound g.side (s.ptr t) f.x g.x = some (s', s'.ptr t') ∧
      Climbs s' C' t' (fill (f :: g :: C) t).inorder ∧ Keeps s s' ∧ C'.length < C.length + 2 := by
  obtain ⟨hg, hsib, hsibBal, hawaits⟩ := (Library.Frame.awaits_red hf).mp hawaits
  obtain ⟨hgBal, hawaits⟩ := (Library.Frame.awaits_black hg).mp hawaits
  have habove := h.above
  have huncle : s.child g.side.other g.x = some (s.ptr g.sib) := habove.2.2.2.2.2.2.2.2.1
  have hcolor : s.mcColor (s.ptr g.sib) = g.sib.red :=
    habove.2.2.2.2.2.2.2.2.2.1.color_ptr h.black
  simp only [insertRound, huncle, Option.bind_eq_bind, Option.bind_some, hcolor]
  cases hu : g.sib.red with
  | true =>
    obtain ⟨a, y, b, hgs⟩ := RBTree.exists_make_of_red .left hu
    obtain ⟨h₁, hk₁⟩ := h.setColor_parent false
    have h₂ := h₁.up.sibling
    rw [hgs] at h₂
    obtain ⟨h₃, hk₂⟩ := h₂.setColor false
    obtain ⟨h₄, hk₃⟩ := h₃.setColor_parent true
    refine ⟨_, C, _, ?_, ⟨⟨_, h₄.up⟩, ?_, ⟨n + 1, ?_, hawaits⟩, ?_⟩, (hk₁.trans hk₂).trans hk₃,
      by omega⟩
    · simp [hgs]
    · simp [Frame.plug]
    · rw [hgs, RBTree.balanced_red] at hgBal
      rw [Frame.plug, RBTree.balanced_red]
      refine ⟨RBTree.red_make, ?_, ?_, ?_⟩
      · simp [Frame.plug]
      · exact RBTree.balanced_black.mpr ⟨hgBal.2.2.1, hgBal.2.2.2⟩
      · exact RBTree.balanced_black.mpr ⟨ht, hsibBal⟩
    · change _ = (fill C (g.plug (f.plug t))).inorder
      apply Library.Frame.inorder_fill_congr
      simp only [Frame.plug, hgs]
      cases g.side <;> cases f.side <;> simp [RBTree.make, RBTree.inorder, Side.other]
  | false =>
    simp only [Bool.false_eq_true, if_false]
    rcases g.side.eq_or_other f.side with hside | hside
    · -- the node is on the outer side already
      have hout : s.child g.side.other f.x ≠ some (s.ptr t) := by
        rw [← hside, habove.2.2.2.1, ne_eq, Option.some_inj]
        exact h.other_ne (.inl (ne_leaf_of_red hred))
      rw [if_neg hout]
      obtain ⟨s', f', hrotate, hclimbs, hkeeps⟩ :=
        insertRotate_spec h hred hside ht hsib hsibBal hu hgBal hawaits
      exact ⟨s', f' :: C, t, hrotate, hclimbs, hkeeps, by simp⟩
    · have hin : s.child g.side.other f.x = some (s.ptr t) := by
        rw [← hside, habove.2.2.1]
      rw [if_pos hin]
      obtain ⟨a, y, b, rfl⟩ := RBTree.exists_make_of_red g.side hred
      have h₁ := h.up
      rw [Frame.plug, hf, hside, RBTree.make_other] at h₁
      obtain ⟨s₁, hrot, h₂, hk₁⟩ := h₁.rotate
      have h₃ := At.down (f := ⟨g.side, true, y, b⟩) h₂
      rw [RBTree.balanced_red] at ht
      obtain ⟨s', f', hrotate, hclimbs, hk₂⟩ :=
        insertRotate_spec h₃ RBTree.red_make rfl
          (RBTree.balanced_red.mpr ⟨hsib, ht.1, hsibBal, ht.2.2.1⟩) ht.2.1 ht.2.2.2 hu hgBal hawaits
      rw [ptr_make] at hrotate
      refine ⟨s', f' :: C, _, ?_, ⟨hclimbs.at_, hclimbs.red, hclimbs.height, ?_⟩, hk₁.trans hk₂,
        by simp⟩
      · simp [hrot, hrotate]
      · rw [hclimbs.reads]
        change (fill C _).inorder = (fill C (g.plug (f.plug _))).inorder
        apply Library.Frame.inorder_fill_congr
        simp only [Frame.plug, hside]
        cases g.side <;> simp [RBTree.make, RBTree.inorder, Side.other]

theorem insertLoop_spec {l : List ν} {fuel : Nat} (h : Climbs s C t l) (hfuel : C.length < fuel) :
    ∃ s' W, s.insertLoop fuel (s.ptr t) = some s' ∧ s'.Represents W ∧ W.inorder = l ∧
      (∃ m, W.Balanced m) ∧ Keeps s s' := by
  induction fuel generalizing s C t with
  | zero => omega
  | succ fuel ih =>
    obtain ⟨par, hat⟩ := h.at_
    obtain ⟨n, hbal, hawaits⟩ := h.height
    rw [insertLoop]
    cases C with
    | nil =>
      rw [if_pos (hat.eq_root_iff.mpr rfl)]
      exact ⟨s, t, rfl, ⟨par, hat⟩, h.reads, ⟨n, hbal⟩, .refl s⟩
    | cons f C =>
      have hcolor : s.mcColor f.x = f.red := hat.above.2.1
      rw [if_neg fun heq => by simpa using hat.eq_root_iff.mp heq]
      simp only [hat.parent h.ne_leaf, Option.bind_eq_bind, Option.bind_some, hcolor]
      cases hf : f.red with
      | false =>
        obtain ⟨m, hm, -⟩ := hawaits.fill hbal fun _ => hf
        exact ⟨s, _, by simp, hat.represents, h.reads, ⟨m, hm⟩, .refl s⟩
      | true =>
        -- below a red node there is a black one, so the grandparent is there
        cases C with
        | nil => exact absurd ((Library.Frame.awaits_red hf).mp hawaits).1 (by simp [blackOnly])
        | cons g C =>
          have hgrand := hat.up.parent plug_ne_leaf
          have hside := hat.up.side (.inl plug_ne_leaf)
          rw [ptr_plug] at hgrand hside
          obtain ⟨s₁, C', t', hround, hclimbs, hk₁, hlen⟩ :=
            insertRound_spec hat h.red hbal hf hawaits
          rw [h.reads] at hclimbs
          have hlen' : C'.length < fuel := by
            simp only [List.length_cons] at hfuel
            omega
          obtain ⟨s', W, hloop, hrep, hreads, hbal', hk₂⟩ := ih hclimbs hlen'
          refine ⟨s', W, ?_, hrep, hreads, hbal', hk₁.trans hk₂⟩
          simp only [hgrand, hside, if_true, Option.bind_some, hround, hloop]

/-- Colouring the root black. -/
theorem Represents.blacken (h : s.Represents W) :
    (s.setColor s.mpoRoot false).Represents W.blacken := by
  obtain ⟨par, hat⟩ := h
  have hroot : s.mpoRoot = s.ptr W := hat.above
  cases W with
  | leaf =>
    refine ⟨par, ?_, trivial, hat.nodup, hat.sentinel, ?_⟩
    · exact hroot
    · have hs : s.mpoRoot = s.moSentinel := hroot
      simp [hs]
  | node c l x r =>
    rw [hroot]
    exact ⟨par, (At.setColor (d := .left) hat false).1⟩

/-! ## Insert -/

/-- The tree behind the memory is a red-black tree that reads as `l`. -/
def Stands (s : CRBTree ν K) (l : List ν) : Prop :=
  ∃ W : RBTree ν, s.Represents W ∧ W.inorder = l ∧ W.red = false ∧ ∃ m, W.Balanced m

section insert

variable (less : K → K → Bool)

/-- The hole is where the key of `x` belongs: not before the node on its left, and
before the node on its right. -/
def Between (less : K → K → Bool) (s : CRBTree ν K) (x : ν) (p q : List ν) : Prop :=
  (∀ y ∈ p.getLast?, less (s.mtKey x) (s.mtKey y) = false) ∧
  (∀ y ∈ q.head?, less (s.mtKey x) (s.mtKey y) = true)

/-- The nodes that the loop of `Insert` compares `x` with. -/
def compared (s : CRBTree ν K) (x : ν) : Nat → ν → List ν
  | 0, _ => []
  | fuel + 1, y =>
    match s.child (if less (s.mtKey x) (s.mtKey y) then Side.left else .right) y with
    | none => [y]
    | some next => if next = s.moSentinel then [y] else y :: compared s x fuel next

/-- The nodes of `M` that `x` is less than are in `q`, the others are in `p`. -/
def Divides (s : CRBTree ν K) (x : ν) (M p q : List ν) : Prop :=
  ∀ y ∈ M, (less (s.mtKey x) (s.mtKey y) = true → y ∈ q) ∧
    (less (s.mtKey x) (s.mtKey y) = false → y ∈ p)

/-- The loop ends at a hole between the nodes it has gone past on either side. -/
theorem descend_place {fuel : Nat} (h : s.At par C t) (hne : t ≠ .leaf)
    (hfuel : t.inorder.length ≤ fuel)
    (hbetween : Between less s x (Frame.before C) (Frame.after C)) :
    ∃ f C', s.descend less x fuel (s.ptr t) = some (f.x, f.side) ∧
      s.At (some f.x) (f :: C') .leaf ∧ fill (f :: C') .leaf = fill C t ∧
      Between less s x (Frame.before (f :: C')) (Frame.after (f :: C')) ∧
      Divides less s x (compared less s x fuel (s.ptr t)) (Frame.before (f :: C'))
        (Frame.after (f :: C')) ∧
      Frame.before C ⊆ Frame.before (f :: C') ∧ Frame.after C ⊆ Frame.after (f :: C') := by
  induction fuel generalizing C t par with
  | zero =>
    have hpos := List.length_pos_of_mem (ptr_mem (s := s) hne)
    omega
  | succ fuel ih =>
    -- the side the key belongs to decides how the node is taken apart
    generalize hd : (if less (s.mtKey x) (s.mtKey (s.ptr t)) then Side.left else .right) = d
    obtain ⟨c, a, y, b, rfl⟩ := RBTree.exists_make d hne
    rw [ptr_make] at hd ⊢
    let f : Frame ν := ⟨d, c, y, b⟩
    have hdown : s.At (some y) (f :: C) a := At.down (f := f) h
    have hbetween' : Between less s x (Frame.before (f :: C)) (Frame.after (f :: C)) := by
      cases hless : less (s.mtKey x) (s.mtKey y) with
      | true =>
        have hleft : d = .left := by simpa [hless] using hd.symm
        refine ⟨?_, ?_⟩
        · simpa [f, Frame.before, hleft] using hbetween.1
        · simpa [f, Frame.after, hleft] using hless
      | false =>
        have hright : d = .right := by simpa [hless] using hd.symm
        refine ⟨?_, ?_⟩
        · simpa [f, Frame.before, hright] using hless
        · simpa [f, Frame.after, hright] using hbetween.2
    have hy : (less (s.mtKey x) (s.mtKey y) = true → y ∈ Frame.after (f :: C)) ∧
        (less (s.mtKey x) (s.mtKey y) = false → y ∈ Frame.before (f :: C)) := by
      refine ⟨fun hless => ?_, fun hless => ?_⟩
      · have hleft : d = .left := by simpa [hless] using hd.symm
        simp [f, Frame.after, hleft]
      · have hright : d = .right := by simpa [hless] using hd.symm
        simp [f, Frame.before, hright]
    have hbefore : Frame.before C ⊆ Frame.before (f :: C) := by
      intro z hz
      cases hf : f.side with
      | left => simpa [Frame.before, hf] using hz
      | right => simp [Frame.before, hf, hz]
    have hafter : Frame.after C ⊆ Frame.after (f :: C) := by
      intro z hz
      cases hf : f.side with
      | left => simp [Frame.after, hf, hz]
      | right => simpa [Frame.after, hf] using hz
    have hchild : s.child d y = some (s.ptr a) := hdown.above.2.2.1
    rw [descend, compared]
    simp only [hd, hchild, Option.bind_eq_bind, Option.bind_some]
    by_cases ha : a = .leaf
    · subst ha
      rw [ptr_leaf, if_pos rfl, if_pos rfl]
      refine ⟨f, C, rfl, hdown, rfl, hbetween', ?_, hbefore, hafter⟩
      intro z hz
      rw [List.mem_singleton] at hz
      exact hz ▸ hy
    · have hns : s.ptr a ≠ s.moSentinel := fun heq =>
        hdown.sentinel (heq ▸ List.mem_append_left _ (ptr_mem ha))
      rw [if_neg hns, if_neg hns]
      have hlen : a.inorder.length ≤ fuel := by
        have : a.inorder.length < (RBTree.make d c a y b).inorder.length := by
          cases d
          · simp only [RBTree.make, RBTree.inorder, List.length_append, List.length_cons]
            omega
          · simp only [RBTree.make, RBTree.inorder, List.length_append, List.length_cons]
            omega
        omega
      obtain ⟨g, C', hrun, hhole, hfill, hb, hdivides, hp, hq⟩ := ih hdown ha hlen hbetween'
      refine ⟨g, C', hrun, hhole, hfill, hb, ?_, List.Subset.trans hbefore hp,
        List.Subset.trans hafter hq⟩
      intro z hz
      cases List.mem_cons.mp hz with
      | inl heq =>
        subst heq
        exact ⟨fun hless => hq (hy.1 hless), fun hless => hp (hy.2 hless)⟩
      | inr hz => exact hdivides z hz

/-- Hanging `x` into a hole, red. -/
theorem insertFrom_spec {fuel : Nat} {y : ν} (hdescend : s.descend less x fuel y = some (f.x, f.side))
    (h : s.At par (f :: C) .leaf) (hx : x ∉ Frame.nodes (f :: C)) (hsentinel : x ≠ s.moSentinel) :
    ∃ s', s.insertFrom less fuel y x = some s' ∧
      s'.At (some f.x) (f :: C) (.node true .leaf x .leaf) ∧
      s'.mtKey = s.mtKey ∧ s'.moSentinel = s.moSentinel := by
  obtain ⟨-, hc, -, hother, hsib, habove⟩ := h.above
  have hnodup := h.nodup
  have hns := h.sentinel
  have hxC := hx
  simp only [Frame.nodes, RBTree.inorder, List.nil_append, List.nodup_cons, List.mem_append,
    List.mem_cons, not_or] at hnodup hxC hns
  let s₁ := (s.setChild f.side f.x (some x)).setParent x (some f.x)
  let s' := ((s₁.setChild .left x (some s.moSentinel)).setChild .right x
    (some s.moSentinel)).setColor x true
  have hagree : ∀ l : List ν, x ∉ l → f.x ∉ l → Agree s s' l := by
    intro l hxl hfl
    refine ⟨rfl, fun z hz e => ?_, fun z hz => ?_, fun z hz => ?_⟩
    all_goals
      have hzx : z ≠ x := fun heq => hxl (heq ▸ hz)
      have hzf : z ≠ f.x := fun heq => hfl (heq ▸ hz)
      simp [s', s₁, hzx, hzf]
  have hfx : f.x ≠ x := fun heq => hxC.1 heq.symm
  refine ⟨s', ?_, ⟨⟨rfl, ?_, ?_, ?_, ?_, ?_⟩, ?_, ?_, ?_, ?_⟩, rfl, rfl⟩
  · simp only [insertFrom, hdescend, Option.bind_eq_bind, Option.bind_some]
    rfl
  · simp [s', s₁, hfx, hc]
  · simp [s', s₁, hfx, ptr]
  · simp [s', s₁, hfx, hother]
  · exact hsib.congr (hagree _ hxC.2.1 hnodup.1.1)
  · have hparent : s'.mpoParent f.x = s.mpoParent f.x := by simp [s', s₁, hfx]
    rw [hparent]
    exact habove.congr (hagree _ hxC.2.2 hnodup.1.2) rfl
  · refine ⟨?_, ?_, ?_, ?_, trivial, trivial⟩
    · simp [s', s₁]
    · simp [s', s₁]
    · simp [s', s₁]
    · simp [s', s₁]
  · have := h.nodup
    simpa [RBTree.inorder, hx] using this
  · have := h.sentinel
    simpa [RBTree.inorder, Ne.symm hsentinel, s', s₁] using this
  · have := h.black
    simpa [s', s₁, Ne.symm hsentinel] using this

omit [DecidableEq ν] in
theorem length_nodes_le (C : List (Frame ν)) : C.length ≤ (Frame.nodes C).length := by
  induction C with
  | nil => exact Nat.le_refl 0
  | cons f C ih =>
    simp only [Frame.nodes, List.length_cons, List.length_append]
    omega

/-- The root is the sentinel exactly in the empty tree. -/
theorem Represents.root_eq_sentinel_iff (h : s.Represents W) :
    s.mpoRoot = s.moSentinel ↔ W = .leaf := by
  obtain ⟨par, hat⟩ := h
  have hroot : s.mpoRoot = s.ptr W := hat.above
  rw [hroot]
  constructor
  · intro heq
    by_contra hne
    exact hat.sentinel (heq ▸ List.mem_append_left _ (ptr_mem hne))
  · rintro rfl
    rfl

/-- What inserting `x` between `p` and `q` does to the tree. A root keeps its parent link, and
hands it on where it goes down. -/
structure Inserted (fuel : Nat) (s : CRBTree ν K) (x : ν) (p q : List ν) (s' : CRBTree ν K) :
    Prop where
  stands : s'.Stands (p ++ x :: q)
  between : Between less s x p q
  divides : p ++ q ≠ [] → Divides less s x (compared less s x fuel s.mpoRoot) p q
  key : s'.mtKey = s.mtKey
  sentinel : s'.moSentinel = s.moSentinel
  top : s'.mpoParent s'.mpoRoot = if p ++ q = [] then none else s.mpoParent s.mpoRoot

theorem insertFrom_top {fuel : Nat} {y : ν} (hrun : s.insertFrom less fuel y x = some s')
    (hx : s.mpoRoot ≠ x) : s'.mpoParent s'.mpoRoot = s.mpoParent s.mpoRoot := by
  simp only [insertFrom, Option.bind_eq_bind, Option.bind_eq_some_iff] at hrun
  obtain ⟨found, -, hrun⟩ := hrun
  cases hrun
  simp [hx]

/-- Inserting a node puts it into the reading order between two nodes its key belongs
between. -/
theorem Stands.inserted {l : List ν} {fuel : Nat} (h : s.Stands l) (hx : x ∉ l)
    (hsentinel : x ≠ s.moSentinel) (hfuel : l.length < fuel) :
    ∃ s' p q, s.insert less fuel x = some s' ∧ l = p ++ q ∧ Inserted less fuel s x p q s' := by
  obtain ⟨W, hrep, rfl, hblack, m, hbal⟩ := h
  rw [CRBTree.insert]
  by_cases hW : W = .leaf
  · subst hW
    rw [if_pos (hrep.root_eq_sentinel_iff.mpr rfl)]
    obtain ⟨par, hat⟩ := hrep
    refine ⟨_, [], [], rfl, rfl, ⟨.node false .leaf x .leaf, ⟨none, rfl, ⟨?_, ?_, ?_, ?_, trivial,
      trivial⟩, ?_, ?_, ?_⟩, rfl, rfl, 1, 0, rfl, rfl, rfl⟩, ?_, fun hnil => absurd rfl hnil, rfl,
      rfl, ?_⟩
    · simp
    · simp
    · simp
    · simp
    · simp [RBTree.inorder, Frame.nodes]
    · simpa [RBTree.inorder, Frame.nodes] using Ne.symm hsentinel
    · simpa [Ne.symm hsentinel] using hat.black
    · simp [Between]
    · simp
  · rw [if_neg fun heq => hW (hrep.root_eq_sentinel_iff.mp heq)]
    obtain ⟨par, hat⟩ := hrep
    obtain ⟨f, C, hdescend, hhole, hfill, hbetween, hdivides, -⟩ :=
      descend_place less (x := x) hat hW (Nat.le_of_lt hfuel)
        (by simp [Between, Frame.before, Frame.after])
    have hroot : s.mpoRoot = s.ptr W := hat.above
    rw [← hroot] at hdescend hdivides
    have hfill : fill (f :: C) .leaf = W := hfill
    have hperm : W.inorder.Perm (Frame.nodes (f :: C)) := by
      rw [← hfill]
      exact Frame.perm_fill (f :: C) .leaf
    obtain ⟨s₁, hfrom, hat₁, hkey₁, hs₁⟩ :=
      insertFrom_spec less hdescend hhole (fun hmem => hx (hperm.mem_iff.mpr hmem)) hsentinel
    rw [← hfill] at hbal hblack
    obtain ⟨n, hawaits, hn, -⟩ := Library.Frame.awaits_of_fill hbal hblack
    rw [RBTree.balanced_leaf] at hn
    subst hn
    have hclimbs : Climbs s₁ (f :: C) (.node true .leaf x .leaf)
        (Frame.before (f :: C) ++ x :: Frame.after (f :: C)) := by
      refine ⟨⟨_, hat₁⟩, rfl, ⟨0, ⟨rfl, rfl, rfl, rfl⟩, hawaits⟩, ?_⟩
      rw [Frame.inorder_fill]
      simp [RBTree.inorder]
    have hlen : (f :: C).length < fuel := by
      have := length_nodes_le (f :: C)
      rw [← hperm.length_eq] at this
      omega
    obtain ⟨s₂, W₂, hloop, hrep₂, hreads, ⟨m₂, hbal₂⟩, hkeeps⟩ := insertLoop_spec hclimbs hlen
    have hreads₀ : W.inorder = Frame.before (f :: C) ++ Frame.after (f :: C) := by
      rw [← hfill, Frame.inorder_fill]
      simp [RBTree.inorder]
    have hmem : s.mpoRoot ∈ W.inorder := hroot ▸ ptr_mem hW
    refine ⟨s₂.setColor s₂.mpoRoot false, Frame.before (f :: C), Frame.after (f :: C), ?_, hreads₀,
      ⟨W₂.blacken, hrep₂.blacken, ?_, RBTree.red_blacken W₂, hbal₂.short.exists_blacken⟩,
      hbetween, fun _ => hdivides, ?_, ?_, ?_⟩
    · have hloop : s₁.insertLoop fuel x = some s₂ := hloop
      simp only [hfrom, hloop, Option.bind_eq_bind, Option.bind_some]
      rfl
    · rw [RBTree.inorder_blacken, hreads]
    · exact hkeeps.key.trans hkey₁
    · exact hkeeps.sentinel.trans hs₁
    · rw [← hreads₀, if_neg (List.ne_nil_of_mem hmem)]
      exact hkeeps.top.trans (insertFrom_top less hfrom fun heq => hx (heq ▸ hmem))

theorem Stands.insert {l : List ν} {fuel : Nat} (h : s.Stands l) (hx : x ∉ l)
    (hsentinel : x ≠ s.moSentinel) (hfuel : l.length < fuel) :
    ∃ s' p q, s.insert less fuel x = some s' ∧ l = p ++ q ∧ s'.Stands (p ++ x :: q) ∧
      Between less s x p q ∧ s'.mtKey = s.mtKey ∧ s'.moSentinel = s.moSentinel := by
  obtain ⟨s', p, q, hrun, hpq, hinserted⟩ := h.inserted less hx hsentinel hfuel
  exact ⟨s', p, q, hrun, hpq, hinserted.stands, hinserted.between, hinserted.key,
    hinserted.sentinel⟩

end insert

/-! ## The loop of `Delete` -/

/-- A place the loop of `Delete` goes on from: a tree that is one black node short for
its path, reading as `l` all in all. The parent link is fixed for the sentinel too. -/
structure Sinks (s : CRBTree ν K) (C : List (Frame ν)) (t : RBTree ν) (l : List ν) : Prop where
  at_ : ∃ par, s.At par C t
  link : ∀ f ∈ C.head?, s.mpoParent (s.ptr t) = some f.x
  height : ∃ n, t.Short n ∧ Awaits C (n + 1)
  reads : (fill C t).inorder = l

/-- The parent link of the hole is where it was. -/
theorem At.link (h : s'.At par (f :: C) t) (hkeeps : Keeps s s')
    (hlink : s.mpoParent (s.ptr t) = some f.x) : s'.mpoParent (s'.ptr t) = some f.x := by
  by_cases ht : t = .leaf
  · subst ht
    rw [ptr_leaf] at hlink ⊢
    rw [hkeeps.sentinel, hkeeps.parent, hlink]
  · exact h.parent ht

omit [DecidableEq ν] in
/-- The whole tree is balanced: the loop is at the root and over. -/
theorem sinks_root {l : List ν} {m : Nat} (h : s.Represents W) (hbal : W.Balanced m)
    (hreads : W.inorder = l) : Sinks s [] W l :=
  ⟨h, by simp, ⟨m, hbal.short, trivial⟩, hreads⟩

variable {a b e : RBTree ν} {w : ν}

/-- The sibling comes up, its far child being red. -/
theorem deleteRotate_spec (h : s.At par (f :: C) t) (hlink : s.mpoParent (s.ptr t) = some f.x)
    (hsib : f.sib = .make f.side false b w e) (he : e.red = true) (ht : t.Balanced n)
    (hawaits : Awaits (f :: C) (n + 1)) :
    ∃ s' W, s.deleteRotate f.side (s.ptr t) w = some (s', s'.ptr W) ∧
      Sinks s' [] W (fill (f :: C) t).inorder ∧ Keeps s s' := by
  have hcolor : s.mcColor f.x = f.red := h.above.2.1
  obtain ⟨e₁, v, e₂, rfl⟩ := RBTree.exists_make_of_red f.side he
  have h₁ := h.sibling
  rw [hsib] at h₁
  obtain ⟨h₂, hk₁⟩ := h₁.setColor f.red
  obtain ⟨h₃, hk₂⟩ := h₂.setColor_parent false
  have hfar := (rep_make.mp h₃.rep).2.2.1
  rw [ptr_make] at hfar
  rw [← Side.other_other f.side, RBTree.make_other, Side.other_other] at h₃
  obtain ⟨h₄, hk₃⟩ := (At.down (f := ⟨f.side.other, f.red, w, b⟩) h₃).setColor false
  have h₅ := h₄.up.up
  simp only [Frame.plug, RBTree.make_other] at h₅
  obtain ⟨s', hrotate, h₆, hk₄⟩ := h₅.rotate
  have hk := ((hk₁.trans hk₂).trans hk₃).trans hk₄
  have hbal : ∃ m, (fill C (.make f.side f.red (.make f.side false t f.x b) w
      (.make f.side false e₁ v e₂))).Balanced m := by
    have hchildren : ∀ hb : b.Balanced n, ∀ he : (RBTree.make f.side true e₁ v e₂).Balanced n,
        (RBTree.make f.side false t f.x b).Balanced (n + 1) ∧
        (RBTree.make f.side false e₁ v e₂).Balanced (n + 1) := by
      intro hb he
      rw [RBTree.balanced_red] at he
      exact ⟨RBTree.balanced_black.mpr ⟨ht, hb⟩, RBTree.balanced_black.mpr ⟨he.2.2.1, he.2.2.2⟩⟩
    cases hf : f.red with
    | true =>
      obtain ⟨hC, -, hsibBal, hawaits⟩ := (Library.Frame.awaits_red hf).mp hawaits
      rw [hsib, RBTree.balanced_black] at hsibBal
      obtain ⟨hl, hr⟩ := hchildren hsibBal.1 hsibBal.2
      obtain ⟨m, hm, -⟩ := hawaits.fill (RBTree.balanced_red.mpr ⟨by simp, by simp, hl, hr⟩)
        fun _ => hC
      exact ⟨m, hm⟩
    | false =>
      obtain ⟨hsibBal, hawaits⟩ := (Library.Frame.awaits_black hf).mp hawaits
      rw [hsib, RBTree.balanced_black] at hsibBal
      obtain ⟨hl, hr⟩ := hchildren hsibBal.1 hsibBal.2
      obtain ⟨m, hm, -⟩ := hawaits.fill (RBTree.balanced_black.mpr ⟨hl, hr⟩) (by simp)
      exact ⟨m, hm⟩
  obtain ⟨m, hm⟩ := hbal
  have hsinks := sinks_root (l := (fill (f :: C) t).inorder) h₆.represents hm (by
    change _ = (fill C (f.plug t)).inorder
    apply Library.Frame.inorder_fill_congr
    simp only [Frame.plug, hsib]
    cases f.side <;> simp [RBTree.make, RBTree.inorder])
  refine ⟨s', _, ?_, hsinks, hk⟩
  obtain ⟨_, hroot⟩ := hsinks.at_
  have hroot : s'.mpoRoot = s'.ptr (fill C _) := hroot.above
  rw [← hroot]
  simp only [deleteRotate, hlink, Option.bind_eq_bind, Option.bind_some, hcolor, hfar, hrotate]
  rfl

/-- The second half of a round: the sibling is black. -/
theorem deleteBlack_spec (h : s.At par (f :: C) t) (hlink : s.mpoParent (s.ptr t) = some f.x)
    (hsib : f.sib = .make f.side false b w e) (ht : t.Balanced n)
    (hawaits : Awaits (f :: C) (n + 1)) :
    ∃ s' C' t', s.deleteBlack f.side (s.ptr t) w = some (s', s'.ptr t') ∧
      Sinks s' C' t' (fill (f :: C) t).inorder ∧ Keeps s s' ∧
      (C' = [] ∨ C' = C ∧ t'.red = f.red) := by
  have hsibBal : b.Balanced n ∧ e.Balanced n := by
    have hbal := hawaits.sib
    rwa [hsib, RBTree.balanced_black] at hbal
  have h₁ := h.sibling
  rw [hsib] at h₁
  obtain ⟨hcw, hnear, hfar, -, hrb, hre⟩ := rep_make.mp h₁.rep
  simp only [deleteBlack, hnear, hfar, Option.bind_eq_bind, Option.bind_some,
    hrb.color_ptr h.black, hre.color_ptr h.black]
  cases he : e.red with
  | true =>
    obtain ⟨s', W, hrotate, hsinks, hkeeps⟩ := deleteRotate_spec h hlink hsib he ht hawaits
    refine ⟨s', [], W, ?_, hsinks, hkeeps, .inl rfl⟩
    simpa using hrotate
  | false =>
    cases hb : b.red with
    | true =>
      -- the near child comes up first
      obtain ⟨b₁, v, b₂, rfl⟩ := RBTree.exists_make_of_red f.side hb
      obtain ⟨h₂, hk₁⟩ := (At.down (f := ⟨f.side, false, w, e⟩) h₁).setColor false
      obtain ⟨h₃, hk₂⟩ := h₂.setColor_parent true
      have h₄ := h₃.up
      rw [Frame.plug] at h₄
      dsimp only at h₄
      rw [← RBTree.make_other, ← RBTree.make_other f.side false] at h₄
      obtain ⟨s₁, hrotate, h₅, hk₃⟩ := h₄.rotate
      rw [RBTree.make_other, RBTree.make_other] at h₅
      have h₆ := h₅.sibling
      dsimp only at h₆
      rw [Side.other_other] at h₆
      have hk := (hk₁.trans hk₂).trans hk₃
      have hlink₁ := h₆.link hk hlink
      have hawaits₁ := hawaits.with_sib (t := .make f.side false b₁ v (.make f.side true b₂ w e))
        (RBTree.balanced_black.mpr ⟨(RBTree.balanced_red.mp hsibBal.1).2.2.1,
          RBTree.balanced_red.mpr ⟨(RBTree.balanced_red.mp hsibBal.1).2.1, he,
            (RBTree.balanced_red.mp hsibBal.1).2.2.2, hsibBal.2⟩⟩) RBTree.red_make
      obtain ⟨s', W, hrot, hsinks, hk₄⟩ :=
        deleteRotate_spec h₆ hlink₁ rfl RBTree.red_make ht hawaits₁
      refine ⟨s', [], W, ?_, ⟨hsinks.at_, hsinks.link, hsinks.height, ?_⟩, hk.trans hk₄, .inl rfl⟩
      · have hchild : s₁.child f.side.other f.x = some v := by
          have := h₆.above.2.2.2.1
          rwa [ptr_make] at this
        rw [ptr_congr hk.sentinel] at hlink₁ hrot
        simp only [Bool.not_true, Bool.not_false, Bool.false_and, Bool.false_eq_true, if_false,
          if_true, ptr_make, hrotate, Option.bind_some, hlink₁, hchild]
        exact hrot
      · rw [hsinks.reads]
        apply Library.Frame.inorder_fill_congr (C := C)
        simp only [Frame.plug, hsib]
        cases f.side <;> simp [RBTree.make, RBTree.inorder]
    | false =>
      -- the sibling turns red, and the parent is where a black node is missing
      obtain ⟨h₂, hk⟩ := h₁.setColor true
      have h₃ := h₂.up
      simp only [Frame.plug, RBTree.make_other] at h₃
      have hsibRed : (RBTree.make f.side true b w e).Balanced n :=
        RBTree.balanced_red.mpr ⟨hb, he, hsibBal.1, hsibBal.2⟩
      refine ⟨_, C, _, ?_, ⟨⟨_, h₃⟩, ?_, ?_, ?_⟩, hk, .inr ⟨rfl, RBTree.red_make⟩⟩
      · simp [hlink]
      · intro g hg
        cases C with
        | nil => simp at hg
        | cons g' C =>
          rw [List.head?_cons, Option.mem_some_iff] at hg
          subst hg
          exact h₃.parent RBTree.make_ne_leaf
      · cases hf : f.red with
        | true =>
          exact ⟨n, RBTree.short_red.mpr ⟨ht, hsibRed⟩,
            ((Library.Frame.awaits_red hf).mp hawaits).2.2.2⟩
        | false =>
          exact ⟨n + 1, (RBTree.balanced_black.mpr ⟨ht, hsibRed⟩).short,
            ((Library.Frame.awaits_black hf).mp hawaits).2⟩
      · apply Library.Frame.inorder_fill_congr (C := C)
        simp only [Frame.plug, hsib]
        cases f.side <;> simp [RBTree.make, RBTree.inorder]

/-- A round of the loop goes up, or to the root, or to a red node: in each case nearer
to the end of the loop. -/
theorem deleteRound_spec (h : s.At par (f :: C) t) (hlink : s.mpoParent (s.ptr t) = some f.x)
    (ht : t.Balanced n) (hawaits : Awaits (f :: C) (n + 1)) :
    ∃ s' C' t', s.deleteRound f.side (s.ptr t) f.x = some (s', s'.ptr t') ∧
      Sinks s' C' t' (fill (f :: C) t).inorder ∧ Keeps s s' ∧
      (C'.length < (f :: C).length ∨ t'.red = true) := by
  have hchild : s.child f.side.other f.x = some (s.ptr f.sib) := h.above.2.2.2.1
  have hcolor : s.mcColor (s.ptr f.sib) = f.sib.red := h.above.2.2.2.2.1.color_ptr h.black
  simp only [deleteRound, hchild, Option.bind_eq_bind, Option.bind_some, hcolor]
  cases hsib : f.sib.red with
  | false =>
    obtain ⟨b, w, e, hmake⟩ := hawaits.sib.exists_black hsib f.side
    obtain ⟨s', C', t', hblack', hsinks, hkeeps, hnear⟩ :=
      deleteBlack_spec h hlink hmake ht hawaits
    refine ⟨s', C', t', ?_, hsinks, hkeeps, .inl ?_⟩
    · simpa [hmake] using hblack'
    · rcases hnear with rfl | ⟨rfl, -⟩ <;> simp
  | true =>
    -- the sibling is red, so its children are black: one of them is the next sibling
    obtain ⟨b, w, e, hmake⟩ := RBTree.exists_make_of_red f.side hsib
    have hf : f.red = false := by
      cases hf : f.red with
      | false => rfl
      | true => exact absurd ((Library.Frame.awaits_red hf).mp hawaits).2.1 (by simp [hsib])
    obtain ⟨hsibBal, hawaits⟩ := (Library.Frame.awaits_black hf).mp hawaits
    rw [hmake, RBTree.balanced_red] at hsibBal
    obtain ⟨hb, he, hbBal, heBal⟩ := hsibBal
    have h₁ := h.sibling
    rw [hmake] at h₁
    obtain ⟨h₂, hk₁⟩ := h₁.setColor false
    obtain ⟨h₃, hk₂⟩ := h₂.setColor_parent true
    have h₄ := h₃.up
    simp only [Frame.plug, RBTree.make_other] at h₄
    obtain ⟨s₁, hrotate, h₅, hk₃⟩ := h₄.rotate
    have h₆ := At.down (f := ⟨f.side, true, f.x, b⟩) (At.down (f := ⟨f.side, false, w, e⟩) h₅)
    have hk := (hk₁.trans hk₂).trans hk₃
    have hlink₁ := h₆.link hk hlink
    obtain ⟨b₁, v, b₂, rfl⟩ := hbBal.exists_black hb f.side
    have hawaits₁ : Awaits (⟨f.side, true, f.x, .make f.side false b₁ v b₂⟩ ::
        ⟨f.side, false, w, e⟩ :: C) (n + 1) := by
      rw [Library.Frame.awaits_red rfl, Library.Frame.awaits_black rfl]
      exact ⟨rfl, hb, hbBal, heBal, hawaits⟩
    obtain ⟨s', C', t', hblack', hsinks, hk₄, hnear⟩ :=
      deleteBlack_spec h₆ hlink₁ rfl ht hawaits₁
    refine ⟨s', C', t', ?_, ⟨hsinks.at_, hsinks.link, hsinks.height, ?_⟩, hk.trans hk₄, ?_⟩
    · have htempw : s₁.child f.side.other f.x = some v := by
        have := h₆.above.2.2.2.1
        rwa [ptr_make] at this
      rw [ptr_congr hk.sentinel] at hlink₁ hblack'
      simp only [hmake, ptr_make, if_true, hrotate, Option.bind_some, hlink₁, htempw, hblack']
    · rw [hsinks.reads]
      change (fill C _).inorder = (fill C _).inorder
      apply Library.Frame.inorder_fill_congr
      simp only [Frame.plug, hmake]
      cases f.side <;> simp [RBTree.make, RBTree.inorder]
    · rcases hnear with rfl | ⟨-, hred⟩
      · exact .inl (by simp)
      · exact .inr hred

/-- At a red node the loop is over. -/
theorem deleteLoop_red {l : List ν} (h : Sinks s C t l) (hred : t.red = true)
    (fuel : Nat) : ∃ s', s.deleteLoop (fuel + 1) (s.ptr t) = some s' ∧ s'.Stands l ∧ Keeps s s' := by
  obtain ⟨par, hat⟩ := h.at_
  obtain ⟨n, hshort, hawaits⟩ := h.height
  have hcolor : s.mcColor (s.ptr t) ≠ false := by simp [hat.color, hred]
  refine ⟨s.setColor (s.ptr t) false, ?_, ?_⟩
  · rw [deleteLoop, if_neg fun hand => hcolor hand.2]
  · obtain ⟨a, y, b, rfl⟩ := RBTree.exists_make_of_red .left hred
    obtain ⟨hat', hkeeps⟩ := hat.setColor false
    have hbal := hshort.blacken hred
    rw [RBTree.blacken_make] at hbal
    obtain ⟨m, hm, hroot⟩ := hawaits.fill hbal (by simp)
    have hreads : (fill C (.make .left false a y b)).inorder = l := by
      rw [← h.reads]
      apply Library.Frame.inorder_fill_congr
      rfl
    rw [ptr_make]
    exact ⟨⟨_, hat'.represents, hreads, hroot, m, hm⟩, hkeeps⟩

theorem deleteLoop_spec {l : List ν} {fuel : Nat} (h : Sinks s C t l) (hfuel : C.length + 1 < fuel) :
    ∃ s', s.deleteLoop fuel (s.ptr t) = some s' ∧ s'.Stands l ∧ Keeps s s' := by
  induction fuel generalizing s C t with
  | zero => omega
  | succ fuel ih =>
    cases hred : t.red with
    | true => exact deleteLoop_red h hred fuel
    | false =>
      obtain ⟨par, hat⟩ := h.at_
      obtain ⟨n, hshort, hawaits⟩ := h.height
      rw [deleteLoop]
      cases C with
      | nil =>
        have hroot : s.ptr t = s.mpoRoot := hat.eq_root_iff.mpr rfl
        rw [if_neg fun hand => hand.1 hroot, hroot]
        refine ⟨_, rfl, ⟨t.blacken, Represents.blacken ⟨par, hat⟩, ?_, RBTree.red_blacken t,
          hshort.exists_blacken⟩, rfl, rfl, rfl, rfl⟩
        rw [RBTree.inorder_blacken]
        exact h.reads
      | cons f C =>
        have hne : s.ptr t ≠ s.mpoRoot := fun heq => by simpa using hat.eq_root_iff.mp heq
        have hlink := h.link f (by simp)
        -- a black node is missing, so the sibling has one and is no leaf
        have hside := hat.side (.inr (by
          intro hleaf
          have := hawaits.sib
          rw [hleaf] at this
          simp at this))
        obtain ⟨s₁, C', t', hround, hsinks, hk₁, hnear⟩ :=
          deleteRound_spec hat hlink (hshort.balanced hred) hawaits
        rw [h.reads] at hsinks
        rw [if_pos ⟨hne, by rw [hat.color, hred]⟩]
        simp only [hlink, Option.bind_eq_bind, Option.bind_some, hside, hround]
        rcases hnear with hlen | hred'
        · simp only [List.length_cons] at hlen hfuel
          obtain ⟨s', hloop, hstands, hk₂⟩ := ih hsinks (by omega)
          exact ⟨s', hloop, hstands, hk₁.trans hk₂⟩
        · obtain ⟨fuel, rfl⟩ : ∃ k, fuel = k + 1 := ⟨fuel - 1, by omega⟩
          obtain ⟨s', hloop, hstands, hk₂⟩ := deleteLoop_red hsinks hred' fuel
          exact ⟨s', hloop, hstands, hk₁.trans hk₂⟩

end CRBTree

end Netfram
