-- SUMMARY: Deleting from the red-black tree: the node itself goes, or the first node stands in for it.
import NetworkEtc.Netfram.RBTreeInv

/-!
# Deletion

`Delete` takes a node with at most one child out of its place. A node with two
children is not taken out: the first node of the whole tree is, and then stands in for
it. The order of the keys is not kept by that, the shape of the tree is.
-/

namespace Netfram

open Library (Side RBTree Frame)
open Library.Frame (fill Awaits blackOnly)

namespace CRBTree

variable {ν K : Type} [DecidableEq ν] {s s₀ s' : CRBTree ν K} {par : Option ν}
  {C : List (Frame ν)} {f : Frame ν} {t u l r W : RBTree ν} {x y m : ν} {d : Side} {c : Bool} {n : Nat}

/-! ## Taking a node out -/

@[simp] theorem mpoParent_forget (s : CRBTree ν K) (x z : ν) :
    (s.forget x).mpoParent z = if z = x then none else s.mpoParent z := by
  simp [forget]

/-- Clearing the links of a node that is not in the tree. -/
theorem At.forget (h : s.At par C t) (hx : x ∉ t.inorder ++ Frame.nodes C) :
    (s.forget x).At par C t := by
  have hagree : ∀ l : List ν, x ∉ l → Agree s (s.forget x) l := by
    intro l hl
    refine ⟨rfl, fun z hz e => ?_, fun z hz => rfl, fun z hz => ?_⟩
    all_goals
      have hzx : z ≠ x := fun heq => hl (heq ▸ hz)
      simp [CRBTree.forget, hzx]
  simp only [List.mem_append, not_or] at hx
  refine ⟨?_, h.rep.congr (hagree _ hx.1), h.nodup, h.sentinel, h.black⟩
  have hptr : (s.forget x).ptr t = s.ptr t := ptr_congr rfl t
  rw [hptr]
  exact h.above.congr (hagree _ hx.2) rfl

/-- The only child of the node in the hole takes its place. -/
theorem At.unlink (h : s.At par (f :: C) (.make d c .leaf x u)) :
    ∃ s', s.relink .left x (s.ptr u) = some s' ∧
      (s'.setParent (s.ptr u) (some f.x)).At (some f.x) (f :: C) u ∧
      Relinked s s' (f :: C) ∧ s'.mpoRoot = s.mpoRoot := by
  obtain ⟨hnodup, hC, hdisj⟩ := List.nodup_append'.mp h.nodup
  obtain ⟨-, hxu, -, hnu, -⟩ := RBTree.nodup_make.mp hnodup
  have hxin : x ∈ (RBTree.make d c .leaf x u).inorder := RBTree.mem_make.mpr (.inl rfl)
  have huin : u.inorder ⊆ (RBTree.make d c .leaf x u).inorder := fun z hz =>
    RBTree.mem_make.mpr (.inr (.inr hz))
  have hxs : x ≠ s.moSentinel := by
    rintro rfl
    exact h.sentinel (List.mem_append_left _ hxin)
  obtain ⟨hc, hd, ho, hp, -, hru⟩ := rep_make.mp h.rep
  have habove := h.above
  rw [ptr_make] at habove
  have hpar : par = some f.x := habove.1
  obtain ⟨s', hrelink, habove', hrel, hroot⟩ :=
    habove.relink (d := .left) (y := s.ptr u) hp hC (hdisj hxin) hxs
  have huC : s.ptr u ∉ Frame.nodes (f :: C) := by
    rcases s.ptr_eq_or_mem u with hu | hu
    · rw [hu]
      exact fun hm => h.sentinel (List.mem_append_right _ hm)
    · exact fun hm => hdisj (huin hu) hm
  refine ⟨s', hrelink, ⟨?_, ?_, ?_, ?_, ?_⟩, hrel, hroot⟩
  · rw [ptr_setParent, ptr_congr hrel.sentinel, ← hpar]
    refine habove'.congr ⟨rfl, fun _ _ _ => rfl, fun _ _ => rfl, fun z hz => ?_⟩ rfl
    have hzu : z ≠ s.ptr u := fun heq => huC (heq ▸ hz)
    simp [hzu]
  · refine hru.reparent hnu hrel.sentinel (fun z hz e => ?_) (fun z hz => ?_) (fun z hz hne => ?_)
      fun hu => ?_
    · rw [child_setParent]
      exact hrel.child z (fun hm => hdisj (huin hz) hm) e
    · rw [mcColor_setParent, hrel.color]
    · rw [mpoParent_setParent, if_neg hne, hrel.parent]
    · simp
  · exact List.nodup_append'.mpr ⟨hnu, hC, fun z hz hz' => hdisj (huin hz) hz'⟩
  · rw [moSentinel_setParent, hrel.sentinel, List.mem_append, not_or]
    have := h.sentinel
    rw [List.mem_append, not_or] at this
    exact ⟨fun hm => this.1 (huin hm), this.2⟩
  · rw [mcColor_setParent, moSentinel_setParent, hrel.color, hrel.sentinel, h.black]

/-- The root goes, and its only child is the new root. -/
theorem Represents.dropRoot (h : s.Represents (.make d c .leaf x u)) :
    (((s.setRoot (s.ptr u)).setColor (s.ptr u) false).forget x).Represents u.blacken := by
  obtain ⟨par, hat⟩ := h
  obtain ⟨hnodup, -, -⟩ := List.nodup_append'.mp hat.nodup
  obtain ⟨-, hxu, -, hnu, -⟩ := RBTree.nodup_make.mp hnodup
  have hru := (rep_make.mp hat.rep).2.2.2.2.2
  have hsentinel : s.moSentinel ∉ u.inorder := fun hm =>
    hat.sentinel (List.mem_append_left _ (RBTree.mem_make.mpr (.inr (.inr hm))))
  have hat' : (s.setRoot (s.ptr u)).At (some x) [] u := by
    refine ⟨?_, hru.congr ⟨rfl, fun _ _ _ => rfl, fun _ _ => rfl, fun _ _ => rfl⟩, ?_, ?_, hat.black⟩
    · rw [ptr_setRoot]
      rfl
    · simpa [Frame.nodes] using hnu
    · simpa [Frame.nodes] using hsentinel
  obtain ⟨par', hat''⟩ := Represents.blacken ⟨_, hat'⟩
  rw [mpoRoot_setRoot] at hat''
  refine ⟨par', hat''.forget ?_⟩
  simpa [Frame.nodes] using hxu

/-- Deleting a node with at most one child. -/
theorem At.deleteAs_self {fuel : Nat} (h : s.At par C (.make d c .leaf x u))
    (hbal : (fill C (.make d c .leaf x u)).Balanced n)
    (hblack : (fill C (.make d c .leaf x u)).red = false) (hfuel : C.length + 1 < fuel) :
    ∃ s', s.deleteAs fuel x x (s.ptr u) = some s' ∧ s'.Stands (fill C u).inorder ∧
      s'.mtKey = s.mtKey ∧ s'.moSentinel = s.moSentinel ∧
      (x ≠ s.mpoRoot → s'.mpoParent s'.mpoRoot = s.mpoParent s.mpoRoot) := by
  have hroot := h.eq_root_iff
  rw [ptr_make] at hroot
  obtain ⟨k, hawaits, hk, hcol⟩ := Library.Frame.awaits_of_fill hbal hblack
  rw [deleteAs]
  cases C with
  | nil =>
    rw [if_pos (hroot.mpr rfl)]
    refine ⟨_, rfl, ⟨u.blacken, h.represents.dropRoot, RBTree.inorder_blacken u,
      RBTree.red_blacken u, ?_⟩, rfl, rfl, fun hne => absurd (hroot.mpr rfl) hne⟩
    cases c with
    | true => exact (RBTree.balanced_red.mp hk).2.2.2.short.exists_blacken
    | false =>
      cases k with
      | zero => exact absurd hk RBTree.not_balanced_black_zero
      | succ k => exact (RBTree.balanced_black.mp hk).2.short.exists_blacken
  | cons f C =>
    have hne : x ≠ s.mpoRoot := fun heq => by simpa using hroot.mp heq
    have hcolor := h.color
    rw [ptr_make, RBTree.red_make] at hcolor
    have hparent := h.parent RBTree.make_ne_leaf
    rw [ptr_make] at hparent
    have hxout : x ∉ u.inorder ++ Frame.nodes (f :: C) := by
      obtain ⟨hnodup, -, hdisj⟩ := List.nodup_append'.mp h.nodup
      rw [List.mem_append, not_or]
      exact ⟨(RBTree.nodup_make.mp hnodup).2.1, hdisj (RBTree.mem_make.mpr (.inl rfl))⟩
    obtain ⟨s₁, hrelink, hat, hrel, hroot₁⟩ := h.unlink
    have hat' := hat.forget hxout
    have hxs : x ≠ s.moSentinel := by
      rintro rfl
      exact h.sentinel (List.mem_append_left _ (RBTree.mem_make.mpr (.inl rfl)))
    have htop : ((s₁.setParent (s.ptr u) (some f.x)).forget x).mpoParent s₁.mpoRoot =
        s.mpoParent s.mpoRoot := by
      have hmem := h.above.root_mem
      have hru : s.mpoRoot ≠ s.ptr u := by
        intro heq
        cases s.ptr_eq_or_mem u with
        | inl hs => exact h.sentinel (hs ▸ heq ▸ List.mem_append_right _ hmem)
        | inr hin => exact List.disjoint_of_nodup_append hat.nodup hin (heq ▸ hmem)
      rw [hroot₁, mpoParent_forget, if_neg (Ne.symm hne), mpoParent_setParent, if_neg hru,
        hrel.parent]
    rw [if_neg hne]
    simp only [hcolor, hrelink, Option.bind_eq_bind, Option.bind_some, if_true, hrel.parent, hparent]
    cases c with
    | true =>
      rw [RBTree.balanced_red] at hk
      obtain ⟨m, hm, hb⟩ := hawaits.fill hk.2.2.2 fun hred => absurd hred (by simp [hk.2.1])
      exact ⟨_, rfl, ⟨_, hat'.represents, rfl, hb, m, hm⟩, hrel.key, hrel.sentinel, fun _ => htop⟩
    | false =>
      cases k with
      | zero => exact absurd hk RBTree.not_balanced_black_zero
      | succ k =>
        rw [RBTree.balanced_black] at hk
        have hptr : ((s₁.setParent (s.ptr u) (some f.x)).forget x).ptr u = s.ptr u :=
          ptr_congr hrel.sentinel u
        have hsinks : Sinks ((s₁.setParent (s.ptr u) (some f.x)).forget x) (f :: C) u
            (fill (f :: C) u).inorder := by
          refine ⟨⟨_, hat'⟩, fun g hg => ?_, ⟨k, hk.2.short, hawaits⟩, rfl⟩
          rw [List.head?_cons, Option.mem_some_iff] at hg
          subst hg
          have hux : s.ptr u ≠ x := ptr_ne (fun hm => hxout (List.mem_append_left _ hm)) hxs
          rw [hptr]
          simp [hux]
        obtain ⟨s', hloop, hstands, hkeeps⟩ := deleteLoop_spec hsinks hfuel
        rw [hptr] at hloop
        refine ⟨s', ?_, hstands, hkeeps.key.trans hrel.key, hkeeps.sentinel.trans hrel.sentinel,
          fun _ => hkeeps.top.trans htop⟩
        simpa using hloop

/-! ## Standing in for a node -/

/-- The parent link of a child that may be the sentinel. -/
theorem mpoParent_ite (s : CRBTree ν K) (y z : ν) (p : Option ν) :
    (if y ≠ s.moSentinel then s.setParent y p else s).mpoParent z =
      if z = y ∧ y ≠ s.moSentinel then p else s.mpoParent z := by
  by_cases hy : y = s.moSentinel
  · rw [if_neg (not_not.mpr hy), if_neg fun hand => hand.2 hy]
  · rw [if_pos hy, mpoParent_setParent]
    simp [hy]

/-- The fields after `m` has taken the place of `x`. -/
structure Placed (s s' : CRBTree ν K) (x m left right : ν) (C : List (Frame ν)) : Prop where
  key : s'.mtKey = s.mtKey
  sentinel : s'.moSentinel = s.moSentinel
  child_left : s'.child .left m = some left
  child_right : s'.child .right m = some right
  child : ∀ z ∉ Frame.nodes C, z ≠ m → ∀ e, s'.child e z = s.child e z
  color_m : s'.mcColor m = s.mcColor x
  color : ∀ z, z ≠ m → s'.mcColor z = s.mcColor z
  parent_m : s'.mpoParent m = s.mpoParent x
  parent_child : ∀ z, z = left ∨ z = right → z ≠ s.moSentinel → s'.mpoParent z = some m
  parent : ∀ z, z ≠ m → (z ≠ left ∧ z ≠ right) ∨ z = s.moSentinel →
    s'.mpoParent z = s.mpoParent z

theorem Above.takePlace {left right : ν} (h : s.Above x par C) (hpar : s.mpoParent x = par)
    (hnodup : (Frame.nodes C).Nodup) (hxC : x ∉ Frame.nodes C) (hmC : m ∉ Frame.nodes C)
    (hleftC : left ∉ Frame.nodes C) (hrightC : right ∉ Frame.nodes C)
    (hxs : x ≠ s.moSentinel) (hxm : x ≠ m) (hleftm : left ≠ m) (hrightm : right ≠ m)
    (hleft : s.child .left x = some left) (hright : s.child .right x = some right) :
    ∃ s', s.takePlace x m = some s' ∧ s'.Above m par C ∧ Placed s s' x m left right C := by
  -- the fields of `m` are those of `x`
  let s₁ := (((s.setChild .left m (some left)).setChild .right m (some right)).setParent m
    par).setColor m (s.mcColor x)
  have hCne : ∀ z ∈ Frame.nodes C, z ≠ m ∧ z ≠ left ∧ z ≠ right := by
    intro z hz
    refine ⟨?_, ?_, ?_⟩
    · rintro rfl; exact hmC hz
    · rintro rfl; exact hleftC hz
    · rintro rfl; exact hrightC hz
  have habove₁ : s₁.Above x par C := by
    refine h.congr ⟨rfl, fun z hz e => ?_, fun z hz => ?_, fun z hz => ?_⟩ rfl
    all_goals simp [s₁, (hCne z hz).1]
  obtain ⟨s₂, hreplace, habove₂, hrel⟩ :=
    habove₁.replace (d := .left) (y := m) (by simp [s₁, hxm, hpar]) hnodup hxC hxs
  -- and its children point to it
  let s₃ := if left ≠ s₂.moSentinel then s₂.setParent left (some m) else s₂
  let s₄ := if right ≠ s₃.moSentinel then s₃.setParent right (some m) else s₃
  have hs₃ : s₃.child = s₂.child ∧ s₃.mcColor = s₂.mcColor ∧ s₃.mpoRoot = s₂.mpoRoot ∧
      s₃.moSentinel = s₂.moSentinel ∧ s₃.mtKey = s₂.mtKey := by
    simp only [s₃]
    split <;> exact ⟨rfl, rfl, rfl, rfl, rfl⟩
  have hs₄ : s₄.child = s₂.child ∧ s₄.mcColor = s₂.mcColor ∧ s₄.mpoRoot = s₂.mpoRoot ∧
      s₄.moSentinel = s₂.moSentinel ∧ s₄.mtKey = s₂.mtKey := by
    simp only [s₄]
    split <;> exact hs₃
  have hparent : ∀ z, s₄.mpoParent z = if z = right ∧ right ≠ s.moSentinel then some m
      else if z = left ∧ left ≠ s.moSentinel then some m else s₁.mpoParent z := by
    intro z
    have hs₂ : s₂.moSentinel = s.moSentinel := hrel.sentinel
    have hs₃' : s₃.moSentinel = s.moSentinel := hs₃.2.2.2.1.trans hs₂
    have hthree : s₃.mpoParent z = if z = left ∧ left ≠ s.moSentinel then some m
        else s₁.mpoParent z := by
      rw [← hs₂, ← hrel.parent]
      exact mpoParent_ite s₂ left z (some m)
    rw [← hthree, ← hs₃']
    exact mpoParent_ite s₃ right z (some m)
  have hchild₂ : ∀ z ∉ Frame.nodes C, ∀ e, s₄.child e z = s₁.child e z := fun z hz e => by
    rw [hs₄.1, hrel.child z hz]
  refine ⟨s₄, ?_, ?_, ?_⟩
  · have hleft₂ : s₂.child .left m = some left := by
      rw [hrel.child m hmC]
      simp [s₁]
    have hright₃ : s₃.child .right m = some right := by
      rw [hs₃.1, hrel.child m hmC]
      simp [s₁]
    have hxright : (s.setChild .left m (some left)).child .right x = some right := by
      simp [hright]
    simp only [CRBTree.takePlace, hleft, hxright, mpoParent_setChild, hpar, mcColor_setParent,
      mcColor_setChild, Option.bind_eq_bind]
    have hreplace' := hreplace
    simp only [s₁] at hreplace'
    rw [hreplace', Option.bind_some, hleft₂, Option.bind_some]
    change (s₃.child .right m).bind _ = _
    rw [hright₃]
    rfl
  · refine habove₂.congr ⟨hs₄.2.2.2.1, fun z hz e => by rw [hs₄.1], fun z _ => by rw [hs₄.2.1],
      fun z hz => ?_⟩ hs₄.2.2.1
    rw [hparent, if_neg fun hand => (hCne z hz).2.2 hand.1, if_neg fun hand => (hCne z hz).2.1 hand.1,
      hrel.parent]
  · refine ⟨hs₄.2.2.2.2.trans hrel.key, hs₄.2.2.2.1.trans hrel.sentinel, ?_, ?_, ?_, ?_, ?_, ?_, ?_, ?_⟩
    · rw [hchild₂ m hmC]
      simp [s₁]
    · rw [hchild₂ m hmC]
      simp [s₁]
    · intro z hz hzm e
      rw [hchild₂ z hz]
      simp [s₁, hzm]
    · rw [hs₄.2.1, hrel.color]
      simp [s₁]
    · intro z hzm
      rw [hs₄.2.1, hrel.color]
      simp [s₁, hzm]
    · rw [hparent, if_neg fun hand => hrightm hand.1.symm, if_neg fun hand => hleftm hand.1.symm]
      simp [s₁, hpar]
    · intro z hz hzs
      rw [hparent]
      rcases hz with rfl | rfl
      · simp [hzs]
      · simp [hzs]
    · intro z hzm hz
      have hr : ¬ (z = right ∧ right ≠ s.moSentinel) := by
        rintro ⟨rfl, hne⟩
        rcases hz with hz | hz
        · exact hz.2 rfl
        · exact hne hz
      have hl : ¬ (z = left ∧ left ≠ s.moSentinel) := by
        rintro ⟨rfl, hne⟩
        rcases hz with hz | hz
        · exact hz.1 rfl
        · exact hne hz
      rw [hparent, if_neg hr, if_neg hl]
      simp [s₁, hzm]

/-- A node from outside the tree takes the place of the one in the hole. The parent
links of the children may be wrong before: they are set. -/
theorem At.takePlace (h : s₀.At par C (.node c l x r)) (hchild : s.child = s₀.child)
    (hcolor : s.mcColor = s₀.mcColor) (hroot : s.mpoRoot = s₀.mpoRoot)
    (hsentinel : s.moSentinel = s₀.moSentinel)
    (hparent : ∀ z, z ≠ s₀.ptr l → z ≠ s₀.ptr r → s.mpoParent z = s₀.mpoParent z)
    (hm : m ∉ (RBTree.node c l x r).inorder ++ Frame.nodes C) (hms : m ≠ s₀.moSentinel) :
    ∃ s', s.takePlace x m = some s' ∧ s'.At par C (.node c l m r) ∧ s'.mtKey = s.mtKey ∧
      s'.moSentinel = s.moSentinel ∧ s'.mpoParent s.moSentinel = s.mpoParent s.moSentinel := by
  obtain ⟨hnodup, hC, hdisj⟩ := List.nodup_append'.mp h.nodup
  obtain ⟨hxl, hxr, hnl, hnr, hlr⟩ := (RBTree.nodup_make (d := .left)).mp hnodup
  obtain ⟨hcx, hxleft, hxright, hxpar, hrl, hrr⟩ := h.rep
  have hin : ∀ z, z = x ∨ z ∈ l.inorder ∨ z ∈ r.inorder → z ∈ (RBTree.node c l x r).inorder :=
    fun z hz => (RBTree.mem_make (d := .left)).mpr hz
  have hns : ∀ z ∈ (RBTree.node c l x r).inorder, z ≠ s₀.moSentinel := by
    rintro z hz rfl
    exact h.sentinel (List.mem_append_left _ hz)
  rw [List.mem_append, not_or] at hm
  have hzm : ∀ z ∈ (RBTree.node c l x r).inorder, z ≠ m := fun z hz heq => hm.1 (heq ▸ hz)
  have hx := hin x (.inl rfl)
  have hlx : s₀.ptr l ≠ x := ptr_ne hxl (hns x hx)
  have hrx : s₀.ptr r ≠ x := ptr_ne hxr (hns x hx)
  have hlm : s₀.ptr l ≠ m := ptr_ne (fun hz => hm.1 (hin _ (.inr (.inl hz)))) hms
  have hrm : s₀.ptr r ≠ m := ptr_ne (fun hz => hm.1 (hin _ (.inr (.inr hz)))) hms
  have hnotC : ∀ u : RBTree ν, u.inorder ⊆ (RBTree.node c l x r).inorder →
      s₀.ptr u ∉ Frame.nodes C := by
    intro u hu
    rcases s₀.ptr_eq_or_mem u with hz | hz
    · rw [hz]
      exact fun hz => h.sentinel (List.mem_append_right _ hz)
    · exact hdisj (hu hz)
  have hlC := hnotC l fun z hz => hin z (.inr (.inl hz))
  have hrC := hnotC r fun z hz => hin z (.inr (.inr hz))
  have habove : s.Above x par C := by
    refine h.above.congr ⟨hsentinel, fun z hz e => by rw [hchild], fun z hz => by rw [hcolor],
      fun z hz => hparent z ?_ ?_⟩ hroot
    · rintro rfl; exact hlC hz
    · rintro rfl; exact hrC hz
  obtain ⟨s', hplace, habove', hplaced⟩ :=
    habove.takePlace (by rw [hparent x hlx.symm hrx.symm, hxpar]) hC (hdisj hx) hm.2 hlC hrC
      (by rw [hsentinel]; exact hns x hx) (hzm x hx) hlm hrm (by rw [hchild, hxleft])
      (by rw [hchild, hxright])
  have hs' : s'.moSentinel = s₀.moSentinel := hplaced.sentinel.trans hsentinel
  -- a child is below `m` now
  have hbelow : ∀ u w : RBTree ν, s₀.Rep (some x) u → u.inorder.Nodup →
      u.inorder ⊆ (RBTree.node c l x r).inorder → u.inorder.Disjoint w.inorder →
      (u = l ∧ w = r ∨ u = r ∧ w = l) → s'.Rep (some m) u := by
    intro u w hu hnu hsub hdisj' hcase
    refine hu.reparent hnu hs' (fun z hz e => ?_) (fun z hz => ?_) (fun z hz hzu => ?_) fun hu => ?_
    · rw [hplaced.child z (hdisj (hsub hz)) (hzm z (hsub hz)), hchild]
    · rw [hplaced.color z (hzm z (hsub hz)), hcolor]
    · have hzw : z ≠ s₀.ptr w := (ptr_ne (fun hz' => hdisj' hz hz') (hns z (hsub hz))).symm
      have hzlr : z ≠ s₀.ptr l ∧ z ≠ s₀.ptr r := by
        rcases hcase with ⟨rfl, rfl⟩ | ⟨rfl, rfl⟩
        · exact ⟨hzu, hzw⟩
        · exact ⟨hzw, hzu⟩
      rw [hplaced.parent z (hzm z (hsub hz)) (.inl hzlr), hparent z hzlr.1 hzlr.2]
    · apply hplaced.parent_child
      · rcases hcase with ⟨rfl, -⟩ | ⟨rfl, -⟩
        · exact .inl rfl
        · exact .inr rfl
      · rw [hsentinel]
        exact hns _ (hsub (ptr_mem hu))
  refine ⟨s', hplace, ⟨habove', ⟨?_, ?_, ?_, ?_, ?_, ?_⟩, ?_, ?_, ?_⟩, hplaced.key,
    hplaced.sentinel, ?_⟩
  · rw [hplaced.color_m, hcolor, hcx]
  · rw [hplaced.child_left, ptr_congr hs']
  · rw [hplaced.child_right, ptr_congr hs']
  · rw [hplaced.parent_m, hparent x hlx.symm hrx.symm, hxpar]
  · exact hbelow l r hrl hnl (fun z hz => hin z (.inr (.inl hz))) hlr (.inl ⟨rfl, rfl⟩)
  · exact hbelow r l hrr hnr (fun z hz => hin z (.inr (.inr hz))) (List.disjoint_symm hlr)
      (.inr ⟨rfl, rfl⟩)
  · have hml : m ∉ l.inorder := fun hz => hm.1 (hin m (.inr (.inl hz)))
    have hmr : m ∉ r.inorder := fun hz => hm.1 (hin m (.inr (.inr hz)))
    refine List.nodup_append'.mpr
      ⟨(RBTree.nodup_make (d := .left)).mpr ⟨hml, hmr, hnl, hnr, hlr⟩, hC, fun z hz => ?_⟩
    rcases (RBTree.mem_make (d := .left)).mp hz with rfl | hz
    · exact hm.2
    · exact hdisj (hin z (.inr hz))
  · rw [hs', List.mem_append, not_or]
    have hsent := h.sentinel
    rw [List.mem_append, not_or] at hsent
    refine ⟨fun hz => ?_, hsent.2⟩
    rcases (RBTree.mem_make (d := .left)).mp hz with heq | hz
    · exact hms heq.symm
    · exact hsent.1 (hin _ (.inr hz))
  · rw [hs', hplaced.color _ hms.symm, hcolor, h.black]
  · exact hplaced.parent _ (by rw [hsentinel]; exact hms.symm) (.inr rfl)

/-! ## The first node -/

/-- The loop ends at a node without a child on the side `d`, with nothing but the rest of
the tree ahead. -/
theorem outermost_spec {fuel : Nat} (d : Side) (h : s.At par C t) (hne : t ≠ .leaf)
    (hfuel : t.inorder.length ≤ fuel) :
    ∃ C' c y r, s.outermost d fuel (s.ptr t) = some y ∧
      fill C' (.make d c .leaf y r) = fill C t ∧ Frame.ahead d C' = Frame.ahead d C := by
  induction fuel generalizing C t par with
  | zero =>
    have hpos := List.length_pos_of_mem (ptr_mem (s := s) hne)
    omega
  | succ fuel ih =>
    obtain ⟨c, l, y, r, rfl⟩ := RBTree.exists_make d hne
    obtain ⟨-, hnext, -⟩ := rep_make.mp h.rep
    have hys : y ≠ s.moSentinel := by
      rintro heq
      exact h.sentinel (heq ▸ List.mem_append_left _ (RBTree.mem_make.mpr (.inl rfl)))
    rw [ptr_make, outermost, if_neg hys]
    simp only [hnext, Option.bind_eq_bind, Option.bind_some]
    by_cases hl : l = .leaf
    · subst hl
      rw [if_neg fun hns => hns rfl]
      exact ⟨C, c, y, r, rfl, rfl, rfl⟩
    · have hdown := At.down (f := ⟨d, c, y, r⟩) h
      have hls : s.ptr l ≠ s.moSentinel := fun heq =>
        hdown.sentinel (heq ▸ List.mem_append_left _ (ptr_mem hl))
      rw [if_pos hls]
      have hlen : l.inorder.length ≤ fuel := by
        have hmake := congrArg List.length (RBTree.walk_make d c l y r)
        simp only [RBTree.length_walk, List.length_append, List.length_cons] at hmake
        omega
      obtain ⟨C', c', y', r', hrun, hfill, hahead⟩ := ih hdown hl hlen
      refine ⟨C', c', y', r', hrun, hfill, ?_⟩
      rw [hahead, Frame.ahead, if_pos rfl]

theorem leftmost_spec {fuel : Nat} (h : s.At par C t) (hne : t ≠ .leaf)
    (hfuel : t.inorder.length ≤ fuel) :
    ∃ C' c y r, s.leftmost fuel (s.ptr t) = some y ∧ fill C' (.node c .leaf y r) = fill C t ∧
      Frame.before C' = Frame.before C := by
  obtain ⟨C', c, y, r, hrun, hfill, hahead⟩ := outermost_spec .left h hne hfuel
  rw [Frame.ahead_left, Frame.ahead_left] at hahead
  exact ⟨C', c, y, r, hrun, hfill, List.reverse_injective hahead⟩

/-! ## Deleting a node with two children -/

/-- `m` for `x`. -/
def standFor (x m z : ν) : ν := if z = x then m else z

theorem standFor_eq_self {z : ν} (h : z ≠ x) : standFor x m z = z := if_neg h

theorem map_standFor (hl : x ∉ l.inorder) (hr : x ∉ r.inorder) (hC : x ∉ Frame.nodes C) :
    (fill C (.node c l x r)).map (standFor x m) = fill C (.node c l m r) := by
  have hself : ∀ L : List ν, x ∉ L → ∀ z ∈ L, standFor x m z = z := fun L hL z hz =>
    standFor_eq_self fun heq => hL (heq ▸ hz)
  rw [Library.Frame.map_fill, Library.Frame.map_frames_eq_self (hself _ hC), RBTree.map,
    RBTree.map_eq_self (hself _ hl), RBTree.map_eq_self (hself _ hr), standFor, if_pos rfl]

/-- The first node of the tree, `m`, stands in for the node `x` somewhere above it or to
its right. -/
theorem At.standIn (h : s.At par (f :: C) (.make d c .leaf m u)) (hx : x ∈ Frame.nodes (f :: C)) :
    ∃ s₁ s', s.relink .left m (s.ptr u) = some s₁ ∧ s₁.standIn x m (s.ptr u) = some s' ∧
      (s'.forget x).Represents ((fill (f :: C) u).map (standFor x m)) ∧
      (u = .leaf → (s'.forget x).mpoParent (s.ptr u) = some (standFor x m f.x)) ∧
      s'.mtKey = s.mtKey ∧ s'.moSentinel = s.moSentinel := by
  have hmin : m ∈ (RBTree.make d c .leaf m u).inorder := RBTree.mem_make.mpr (.inl rfl)
  obtain ⟨hnodup, -, hdisj⟩ := List.nodup_append'.mp h.nodup
  have hmu : m ∉ u.inorder := (RBTree.nodup_make.mp hnodup).2.1
  have hxm : m ≠ x := fun heq => hdisj hmin (heq ▸ hx)
  have hms : m ≠ s.moSentinel := by
    rintro heq
    exact h.sentinel (heq ▸ List.mem_append_left _ hmin)
  have hxs : x ≠ s.moSentinel := by
    rintro heq
    exact h.sentinel (heq ▸ List.mem_append_right _ hx)
  have hparent := h.parent RBTree.make_ne_leaf
  rw [ptr_make] at hparent
  obtain ⟨s₁, hrelink, hat, hrel, -⟩ := h.unlink
  have hperm := Library.Frame.perm_fill (f :: C) u
  -- where `x` is, now that `m` is out
  obtain ⟨D, c₁, l₁, r₁, hfill⟩ :=
    Library.Frame.exists_fill (hperm.mem_iff.mpr (List.mem_append_right _ hx))
  have hrepr := hat.represents
  rw [hfill] at hrepr
  obtain ⟨parx, hatx⟩ := hrepr.at
  have hperm' := Library.Frame.perm_fill D (.node c₁ l₁ x r₁)
  rw [← hfill] at hperm'
  have hm : m ∉ (RBTree.node c₁ l₁ x r₁).inorder ++ Frame.nodes D := by
    rw [← hperm'.mem_iff, hperm.mem_iff, List.mem_append, not_or]
    exact ⟨hmu, hdisj hmin⟩
  let s₂ := if s₁.mpoParent m = some x then s₁.setParent (s.ptr u) (some m)
    else s₁.setParent (s.ptr u) (s₁.mpoParent m)
  have hs₂ : s₂ = s₁.setParent (s.ptr u) (some (standFor x m f.x)) := by
    simp only [s₂, hrel.parent, hparent, Option.some_inj, standFor]
    split <;> rfl
  have hwrong : ∀ z, z ≠ (s₁.setParent (s.ptr u) (some f.x)).ptr l₁ →
      z ≠ (s₁.setParent (s.ptr u) (some f.x)).ptr r₁ →
      s₂.mpoParent z = (s₁.setParent (s.ptr u) (some f.x)).mpoParent z := by
    intro z hzl hzr
    rw [hs₂]
    by_cases hfx : f.x = x
    · -- the link that is already set is that of a child of `x`
      have hzu : z ≠ s.ptr u := by
        have hside := hat.above.2.2.1
        rw [hfx, ptr_setParent, ptr_congr hrel.sentinel, child_setParent] at hside
        obtain ⟨-, hl, hr, -⟩ := hatx.rep
        rw [child_setParent] at hl hr
        rintro rfl
        cases hf : f.side with
        | left =>
          rw [hf, hl, Option.some_inj] at hside
          exact hzl hside.symm
        | right =>
          rw [hf, hr, Option.some_inj] at hside
          exact hzr hside.symm
      simp [hzu]
    · rw [standFor_eq_self hfx]
  have hsent : s₂.moSentinel = s.moSentinel := by
    rw [hs₂]
    exact hrel.sentinel
  obtain ⟨s', hplace, hat', hkey, hsent', hpsent⟩ :=
    hatx.takePlace (s := s₂) (by rw [hs₂]; rfl) (by rw [hs₂]; rfl) (by rw [hs₂]; rfl)
      (by rw [hs₂]; rfl) hwrong hm (by rw [moSentinel_setParent, hrel.sentinel]; exact hms)
  obtain ⟨hnodupx, -, hdisjx⟩ := List.nodup_append'.mp hatx.nodup
  obtain ⟨hxl, hxr, -⟩ := (RBTree.nodup_make (d := .left)).mp hnodupx
  have hxD : x ∉ Frame.nodes D := hdisjx ((RBTree.mem_make (d := .left)).mpr (.inl rfl))
  have hxout : x ∉ (RBTree.node c₁ l₁ m r₁).inorder ++ Frame.nodes D := by
    rw [List.mem_append, not_or]
    refine ⟨fun hz => ?_, hxD⟩
    rcases (RBTree.mem_make (d := .left)).mp hz with heq | hz | hz
    · exact hxm heq.symm
    · exact hxl hz
    · exact hxr hz
  refine ⟨s₁, s', hrelink, hplace, ?_, ?_, ?_, hsent'.trans hsent⟩
  · rw [hfill, map_standFor hxl hxr hxD]
    exact (hat'.forget hxout).represents
  · rintro rfl
    rw [hsent] at hpsent
    rw [ptr_leaf, mpoParent_forget, if_neg hxs.symm, hpsent, hs₂]
    simp
  · rw [hkey, hs₂]
    exact hrel.key

/-- Deleting a node for which another one stands in. -/
theorem At.deleteAs_other {fuel : Nat} (h : s.At par (f :: C) (.make d c .leaf m u))
    (hx : x ∈ Frame.nodes (f :: C)) (hbal : (fill (f :: C) (.make d c .leaf m u)).Balanced n)
    (hblack : (fill (f :: C) (.make d c .leaf m u)).red = false)
    (hfuel : (f :: C).length + 1 < fuel) :
    ∃ s', s.deleteAs fuel x m (s.ptr u) = some s' ∧
      s'.Stands ((fill (f :: C) u).inorder.map (standFor x m)) ∧
      s'.mtKey = s.mtKey ∧ s'.moSentinel = s.moSentinel := by
  have hmin : m ∈ (RBTree.make d c .leaf m u).inorder := RBTree.mem_make.mpr (.inl rfl)
  have hdisj := (List.nodup_append'.mp h.nodup).2.2
  have hxm : m ≠ x := fun heq => hdisj hmin (heq ▸ hx)
  have hroot : m ≠ s.mpoRoot := by
    have := h.eq_root_iff
    rw [ptr_make] at this
    exact fun heq => by simpa using this.mp heq
  have hcolor := h.color
  rw [ptr_make, RBTree.red_make] at hcolor
  obtain ⟨k, hawaits, hk, -⟩ := Library.Frame.awaits_of_fill hbal hblack
  obtain ⟨s₁, s₂, hrelink, hstand, hrep, hlink, hkey, hsent⟩ := h.standIn hx
  have hxu : x ∉ u.inorder := fun hz => hdisj (RBTree.mem_make.mpr (.inr (.inr hz))) hx
  have hu : u.map (standFor x m) = u :=
    RBTree.map_eq_self fun z hz => standFor_eq_self fun heq => hxu (heq ▸ hz)
  rw [Library.Frame.map_fill, hu] at hrep
  have hinorder : (fill ((f :: C).map (Frame.mapFrame (standFor x m))) u).inorder =
      (fill (f :: C) u).inorder.map (standFor x m) := by
    conv_lhs => rw [← hu]
    rw [← Library.Frame.map_fill, RBTree.inorder_map]
  have hawaits' := Library.Frame.awaits_map (standFor x m) hawaits
  rw [deleteAs, if_neg hroot]
  simp only [hcolor, hrelink, Option.bind_eq_bind, Option.bind_some, if_neg hxm, hstand]
  cases c with
  | true =>
    rw [RBTree.balanced_red] at hk
    obtain ⟨j, hj, hb⟩ := hawaits'.fill hk.2.2.2 fun hred => absurd hred (by simp [hk.2.1])
    exact ⟨_, rfl, ⟨_, hrep, hinorder, hb, j, hj⟩, hkey, hsent⟩
  | false =>
    cases k with
    | zero => exact absurd hk RBTree.not_balanced_black_zero
    | succ k =>
      rw [RBTree.balanced_black] at hk
      obtain ⟨par', hat⟩ := hrep.at
      have hptr : (s₂.forget x).ptr u = s.ptr u := ptr_congr hsent u
      have hsinks : Sinks (s₂.forget x) ((f :: C).map (Frame.mapFrame (standFor x m))) u
          ((fill (f :: C) u).inorder.map (standFor x m)) := by
        refine ⟨⟨par', hat⟩, fun g hg => ?_, ⟨k, hk.2.short, hawaits'⟩, hinorder⟩
        rw [List.map_cons, List.head?_cons, Option.mem_some_iff] at hg
        subst hg
        by_cases hleaf : u = .leaf
        · rw [hptr]
          exact hlink hleaf
        · exact hat.parent hleaf
      obtain ⟨s', hloop, hstands, hkeeps⟩ :=
        deleteLoop_spec hsinks (by rw [List.length_map]; exact hfuel)
      rw [hptr] at hloop
      refine ⟨s', ?_, hstands, hkeeps.key.trans hkey, hkeeps.sentinel.trans hsent⟩
      simpa using hloop

omit [DecidableEq ν] in
/-- The in-order list of a place without its node. -/
theorem fill_leaf_side (d : Side) (c : Bool) (x : ν) (u : RBTree ν) (C : List (Frame ν)) :
    ∃ p q, (fill C (.make d c .leaf x u)).inorder = p ++ x :: q ∧
      (fill C u).inorder = p ++ q := by
  rw [Frame.inorder_fill, Frame.inorder_fill]
  cases d with
  | left =>
    exact ⟨Frame.before C, u.inorder ++ Frame.after C, by simp [RBTree.make, RBTree.inorder],
      by simp⟩
  | right =>
    exact ⟨Frame.before C ++ u.inorder, Frame.after C, by simp [RBTree.make, RBTree.inorder],
      by simp⟩

/-- Another node for one that is out of the way. -/
theorem perm_map_standFor {T : List ν} (hnodup : T.Nodup) (hx : x ∈ T) (hxm : m ≠ x) :
    (T.map (standFor x m)).Perm ((m :: T).erase x) := by
  have hself : (T.erase x).map (standFor x m) = T.erase x := by
    conv_rhs => rw [← List.map_id (T.erase x)]
    refine List.map_congr_left fun z hz => standFor_eq_self fun heq => ?_
    exact hnodup.not_mem_erase (heq ▸ hz)
  rw [List.erase_cons_tail (by simpa using hxm)]
  refine ((List.perm_cons_erase hx).map _).trans ?_
  rw [List.map_cons, hself, standFor, if_pos rfl]

/-- The first node of the tree has no left child, and at most one node on its right. -/
theorem Represents.first {fuel : Nat} (hrep : s.Represents W) (hbal : W.Balanced n)
    (hblack : W.red = false) (hne : W ≠ .leaf) (hfuel : W.inorder.length ≤ fuel) :
    ∃ C c m u, s.leftmost fuel s.mpoRoot = some m ∧ W = fill C (.node c .leaf m u) ∧
      W.inorder = m :: (fill C u).inorder ∧ u.Balanced 0 := by
  obtain ⟨par, hat⟩ := hrep
  obtain ⟨C, c, m, u, hrun, hfill, hbefore⟩ := leftmost_spec hat hne hfuel
  have hroot : s.mpoRoot = s.ptr W := hat.above
  have hfill : fill C (.node c .leaf m u) = W := hfill
  have hbefore : Frame.before C = [] := hbefore
  rw [← hroot] at hrun
  refine ⟨C, c, m, u, hrun, hfill.symm, ?_, ?_⟩
  · rw [← hfill, Frame.inorder_fill, Frame.inorder_fill, hbefore]
    simp [RBTree.inorder]
  · rw [← hfill] at hbal hblack
    obtain ⟨k, -, hk, -⟩ := Library.Frame.awaits_of_fill hbal hblack
    cases c with
    | true =>
      obtain ⟨-, -, hleaf, hu⟩ := hk
      rw [RBTree.balanced_leaf] at hleaf
      exact hleaf ▸ hu
    | false =>
      obtain ⟨j, -, hleaf, hu⟩ := hk
      rw [RBTree.balanced_leaf] at hleaf
      exact hleaf ▸ hu

omit [DecidableEq ν] in
theorem Stands.nodup (h : s.Stands L) : L.Nodup := by
  obtain ⟨W, ⟨par, hat⟩, rfl, -⟩ := h
  exact (List.nodup_append'.mp hat.nodup).1

/-- A node with at most one child is taken out. For any other node the first one of the
tree is taken out, and stands in for it. -/
theorem Stands.delete_cases {L : List ν} {fuel : Nat} (h : s.Stands L) (hx : x ∈ L)
    (hfuel : L.length < fuel) :
    ∃ s' L', s.delete fuel x = some s' ∧ s'.Stands L' ∧ s'.mtKey = s.mtKey ∧
      s'.moSentinel = s.moSentinel ∧
      (((s.child .left x = some s.moSentinel ∨ s.child .right x = some s.moSentinel) ∧
          L' = L.erase x) ∨
        (s.child .left x ≠ some s.moSentinel ∧ s.child .right x ≠ some s.moSentinel ∧
          ∃ m T, L = m :: T ∧ m ≠ x ∧ L' = T.map (standFor x m))) := by
  obtain ⟨W, hrep, rfl, hblack, n, hbal⟩ := h
  obtain ⟨C, c, l, r, rfl⟩ := Library.Frame.exists_fill hx
  obtain ⟨par, hat⟩ := hrep.at
  obtain ⟨-, hleft, hright, -⟩ := hat.rep
  have hnodup : (fill C (.node c l x r)).inorder.Nodup :=
    (Library.Frame.perm_fill C _).nodup_iff.mpr hat.nodup
  have hlen : C.length + 1 < fuel := by
    have h₁ := length_nodes_le C
    have h₂ := (Library.Frame.perm_fill C (.node c l x r)).length_eq
    simp only [List.length_append, RBTree.inorder, List.length_cons] at h₂
    omega
  simp only [CRBTree.delete, hleft, hright, chooseSubst, ne_eq, Option.some_inj]
  -- a node with at most one child goes itself
  have hself : ∀ (d : Side) (u : RBTree ν), RBTree.node c l x r = .make d c .leaf x u →
      ∃ s' L', s.deleteAs fuel x x (s.ptr u) = some s' ∧ s'.Stands L' ∧ s'.mtKey = s.mtKey ∧
        s'.moSentinel = s.moSentinel ∧ L' = (fill C (.node c l x r)).inorder.erase x := by
    intro d u hnode
    rw [hnode] at hat hbal hblack hnodup ⊢
    obtain ⟨s', hdelete, hstands, hkey, hsent, -⟩ := hat.deleteAs_self hbal hblack hlen
    obtain ⟨p, q, hpq, hpq'⟩ := fill_leaf_side d c x u C
    refine ⟨s', _, hdelete, hstands, hkey, hsent, ?_⟩
    rw [hpq] at hnodup ⊢
    have hxp : x ∉ p := fun hz => (List.nodup_append'.mp hnodup).2.2 hz (by simp)
    rw [hpq', List.erase_append_right _ hxp, List.erase_cons_head]
  by_cases hl : l = .leaf
  · subst hl
    obtain ⟨s', L', hdelete, hstands, hkey, hsent, heq⟩ := hself .left r rfl
    refine ⟨s', L', ?_, hstands, hkey, hsent, .inl ⟨.inl ptr_leaf, heq⟩⟩
    simpa using hdelete
  · have hls : s.ptr l ≠ s.moSentinel := fun heq => hat.sentinel
      (List.mem_append_left _ ((RBTree.mem_make (d := .left)).mpr (.inr (.inl (heq ▸ ptr_mem hl)))))
    rw [if_neg hls]
    by_cases hr : r = .leaf
    · subst hr
      obtain ⟨s', L', hdelete, hstands, hkey, hsent, heq⟩ := hself .right l rfl
      refine ⟨s', L', ?_, hstands, hkey, hsent, .inl ⟨.inr ptr_leaf, heq⟩⟩
      simpa using hdelete
    · have hrs : s.ptr r ≠ s.moSentinel := fun heq => hat.sentinel
        (List.mem_append_left _ ((RBTree.mem_make (d := .left)).mpr (.inr (.inr (heq ▸ ptr_mem hr)))))
      rw [if_neg hrs]
      have hne : fill C (.node c l x r) ≠ .leaf := by
        intro hleaf
        rw [hleaf] at hx
        simp [RBTree.inorder] at hx
      obtain ⟨D, c', m, u, hrun, hfill, hinorder, hu⟩ :=
        hrep.first hbal hblack hne (Nat.le_of_lt hfuel)
      rw [hfill] at hrep hbal hblack
      obtain ⟨par', hat'⟩ := hrep.at
      obtain ⟨-, hmleft, hmright, -, -, hru⟩ := hat'.rep
      have hxm : m ≠ x := by
        rintro rfl
        rw [hmleft, Option.some_inj] at hleft
        exact hls hleft.symm
      have hxu : x ∉ u.inorder := by
        intro hz
        rcases hu.zero with rfl | ⟨y, rfl⟩
        · simp [RBTree.inorder] at hz
        · simp only [RBTree.inorder, List.nil_append, List.mem_singleton] at hz
          subst hz
          rw [hru.2.1, Option.some_inj] at hleft
          exact hls hleft.symm
      have hxD : x ∈ Frame.nodes D := by
        rw [hfill, (Library.Frame.perm_fill D _).mem_iff, List.mem_append] at hx
        refine hx.resolve_left fun hz => ?_
        rcases (RBTree.mem_make (d := .left)).mp hz with heq | hz | hz
        · exact hxm heq.symm
        · simp [RBTree.inorder] at hz
        · exact hxu hz
      cases D with
      | nil => simp [Frame.nodes] at hxD
      | cons f D =>
        have hlen' : (f :: D).length + 1 < fuel := by
          have h₁ := length_nodes_le (f :: D)
          have h₂ := (Library.Frame.perm_fill (f :: D) (.node c' .leaf m u)).length_eq
          rw [← hfill] at h₂
          simp only [List.length_append, RBTree.inorder, List.length_cons] at h₁ h₂ ⊢
          omega
        obtain ⟨s', hdelete, hstands, hkey, hsent⟩ :=
          At.deleteAs_other (d := .left) hat' hxD hbal hblack hlen'
        refine ⟨s', _, ?_, hstands, hkey, hsent, .inr ⟨hls, hrs, m, _, hinorder, hxm, rfl⟩⟩
        simp [hrun, hmleft, hmright, hdelete]

/-- Deleting a node takes it out of the tree; if it is the first one, the others keep
their order. -/
theorem Stands.delete {L : List ν} {fuel : Nat} (h : s.Stands L) (hx : x ∈ L)
    (hfuel : L.length < fuel) :
    ∃ s' L', s.delete fuel x = some s' ∧ s'.Stands L' ∧ L'.Perm (L.erase x) ∧
      (L.head? = some x → L' = L.tail) ∧ s'.mtKey = s.mtKey ∧ s'.moSentinel = s.moSentinel := by
  obtain ⟨s', L', hdelete, hstands, hkey, hsent, ⟨-, rfl⟩ | ⟨-, -, m, T, rfl, hmx, rfl⟩⟩ :=
    h.delete_cases hx hfuel
  · refine ⟨s', _, hdelete, hstands, .refl _, fun hhead => ?_, hkey, hsent⟩
    obtain ⟨T, rfl⟩ := List.head?_eq_some_iff.mp hhead
    rw [List.erase_cons_head, List.tail_cons]
  · refine ⟨s', _, hdelete, hstands, ?_, fun hhead => ?_, hkey, hsent⟩
    · have hnodup := (List.nodup_cons.mp h.nodup).2
      exact perm_map_standFor hnodup ((List.mem_cons.mp hx).resolve_left hmx.symm) hmx
    · exact absurd (Option.some.inj hhead) hmx

/-- What deleting the first node `x` in front of the nodes `T` does to the tree. Where `x` is the
root and not alone, its link is left in the node that is the root then. -/
structure Advanced (s : CRBTree ν K) (x : ν) (T : List ν) (s' : CRBTree ν K) : Prop where
  stands : s'.Stands T
  key : s'.mtKey = s.mtKey
  sentinel : s'.moSentinel = s.moSentinel
  top : x ≠ s.mpoRoot → s'.mpoParent s'.mpoRoot = s.mpoParent s.mpoRoot
  root : x = s.mpoRoot → T = [] ∨ ∃ y, T = [y] ∧ s'.mpoParent y = some x ∧
    s'.mpoParent x = none ∧ ∀ d, s'.child d x = none

theorem Stands.delete_first {T : List ν} {fuel : Nat} (h : s.Stands (x :: T))
    (hfuel : T.length + 1 < fuel) : ∃ s', s.delete fuel x = some s' ∧ Advanced s x T s' := by
  have hnodup := h.nodup
  obtain ⟨W, hrep, hreads, hblack, n, hbal⟩ := h
  have hne : W ≠ .leaf := by
    rintro rfl
    simp [RBTree.inorder] at hreads
  have hlen : W.inorder.length ≤ fuel := by
    rw [hreads, List.length_cons]
    omega
  obtain ⟨C, c, m, u, -, hfill, hinorder, hu⟩ := hrep.first hbal hblack hne hlen
  rw [hreads, List.cons.injEq] at hinorder
  obtain ⟨rfl, hT⟩ := hinorder
  rw [hfill] at hbal hblack hrep
  obtain ⟨par, hat⟩ := hrep.at
  have hroot := hat.eq_root_iff
  obtain ⟨-, hleft, hright, -, -, hru⟩ := hat.rep
  have hClen : C.length + 1 < fuel := by
    have h₁ := length_nodes_le C
    have h₂ := (Library.Frame.perm_fill C (.node c .leaf x u)).length_eq
    rw [← hfill, hreads] at h₂
    simp only [List.length_append, RBTree.inorder, List.length_cons, List.length_nil] at h₂
    omega
  have hdelete : s.delete fuel x = s.deleteAs fuel x x (s.ptr u) := by
    rw [ptr_leaf] at hleft
    simp [CRBTree.delete, hleft, hright, chooseSubst]
  obtain ⟨s', hrun, hstands, hkey, hsent, htop⟩ :=
    At.deleteAs_self (d := .left) hat hbal hblack hClen
  refine ⟨s', hdelete.trans hrun, hT ▸ hstands, hkey, hsent, htop, fun hxroot => ?_⟩
  have hC : C = [] := hroot.mp hxroot
  subst hC
  cases hu.zero with
  | inl hleaf =>
    subst hleaf
    exact .inl hT
  | inr hred =>
    obtain ⟨y, rfl⟩ := hred
    have hTy : T = [y] := hT
    have hxy : y ≠ x := by
      rintro rfl
      simp [hTy] at hnodup
    rw [deleteAs, if_pos hxroot, Option.some_inj] at hrun
    subst hrun
    refine .inr ⟨y, hTy, ?_, ?_, fun d => ?_⟩
    · rw [mpoParent_forget, if_neg hxy]
      exact hru.2.2.2.1
    · rw [mpoParent_forget, if_pos rfl]
    · cases d with
      | left => simp [CRBTree.forget]
      | right => simp [CRBTree.forget]

end CRBTree

end Netfram
