-- SUMMARY: The memory of the red-black tree read as a tree with a hole, and one step at a place in it.
import NetworkEtc.Netfram.RBTree

/-!
# The tree behind the pointers

`At s par C t` reads the memory as a tree with a hole: the frames `C` from the hole up
to the root, and the tree `t` in the hole, whose root has the parent link `par`. Each
step of the code is a step at such a place. The parent link of the root of the whole
tree is not fixed: deleting the root leaves the link of the next one behind.
-/

namespace Netfram

open Library (Side RBTree Frame)

namespace CRBTree

variable {ν K : Type}

section fields

variable (s : CRBTree ν K) (d e : Side) (x z : ν) (p : Option ν) (c : Bool)

@[simp] theorem child_setRoot : (s.setRoot x).child = s.child := rfl
@[simp] theorem mpoParent_setRoot : (s.setRoot x).mpoParent = s.mpoParent := rfl
@[simp] theorem mcColor_setRoot : (s.setRoot x).mcColor = s.mcColor := rfl
@[simp] theorem mtKey_setRoot : (s.setRoot x).mtKey = s.mtKey := rfl
@[simp] theorem mpoRoot_setRoot : (s.setRoot x).mpoRoot = x := rfl
@[simp] theorem moSentinel_setRoot : (s.setRoot x).moSentinel = s.moSentinel := rfl

variable [DecidableEq ν]

@[simp] theorem child_setChild :
    (s.setChild d x p).child e z = if e = d ∧ z = x then p else s.child e z := by
  unfold setChild
  by_cases he : e = d
  · subst he
    by_cases hz : z = x
    · simp [hz]
    · simp [hz]
  · simp [he]

@[simp] theorem mpoParent_setChild : (s.setChild d x p).mpoParent = s.mpoParent := rfl
@[simp] theorem mcColor_setChild : (s.setChild d x p).mcColor = s.mcColor := rfl
@[simp] theorem mtKey_setChild : (s.setChild d x p).mtKey = s.mtKey := rfl
@[simp] theorem mpoRoot_setChild : (s.setChild d x p).mpoRoot = s.mpoRoot := rfl
@[simp] theorem moSentinel_setChild : (s.setChild d x p).moSentinel = s.moSentinel := rfl

@[simp] theorem mpoParent_setParent :
    (s.setParent x p).mpoParent z = if z = x then p else s.mpoParent z :=
  Function.update_apply ..

@[simp] theorem child_setParent : (s.setParent x p).child = s.child := rfl
@[simp] theorem mcColor_setParent : (s.setParent x p).mcColor = s.mcColor := rfl
@[simp] theorem mtKey_setParent : (s.setParent x p).mtKey = s.mtKey := rfl
@[simp] theorem mpoRoot_setParent : (s.setParent x p).mpoRoot = s.mpoRoot := rfl
@[simp] theorem moSentinel_setParent : (s.setParent x p).moSentinel = s.moSentinel := rfl

@[simp] theorem mcColor_setColor :
    (s.setColor x c).mcColor z = if z = x then c else s.mcColor z :=
  Function.update_apply ..

@[simp] theorem child_setColor : (s.setColor x c).child = s.child := rfl
@[simp] theorem mpoParent_setColor : (s.setColor x c).mpoParent = s.mpoParent := rfl
@[simp] theorem mtKey_setColor : (s.setColor x c).mtKey = s.mtKey := rfl
@[simp] theorem mpoRoot_setColor : (s.setColor x c).mpoRoot = s.mpoRoot := rfl
@[simp] theorem moSentinel_setColor : (s.setColor x c).moSentinel = s.moSentinel := rfl

end fields

/-! ## Reading the memory -/

/-- The link to a tree. -/
def ptr (s : CRBTree ν K) : RBTree ν → ν
  | .leaf => s.moSentinel
  | .node _ _ x _ => x

/-- The tree `t` is in memory, with `par` as the parent link of its root. -/
def Rep (s : CRBTree ν K) : Option ν → RBTree ν → Prop
  | _, .leaf => True
  | par, .node c l x r =>
    s.mcColor x = c ∧ s.child .left x = some (s.ptr l) ∧ s.child .right x = some (s.ptr r) ∧
    s.mpoParent x = par ∧ Rep s (some x) l ∧ Rep s (some x) r

/-- The path `C` is in memory around a hole with the link `hole` and the parent link
`par`. -/
def Above (s : CRBTree ν K) : ν → Option ν → List (Frame ν) → Prop
  | hole, _, [] => s.mpoRoot = hole
  | hole, par, f :: C =>
    par = some f.x ∧ s.mcColor f.x = f.red ∧ s.child f.side f.x = some hole ∧
    s.child f.side.other f.x = some (s.ptr f.sib) ∧ Rep s (some f.x) f.sib ∧
    Above s f.x (s.mpoParent f.x) C

/-- The memory is a tree, seen from the place of `t` in it. -/
structure At (s : CRBTree ν K) (par : Option ν) (C : List (Frame ν)) (t : RBTree ν) : Prop where
  above : s.Above (s.ptr t) par C
  rep : s.Rep par t
  nodup : (t.inorder ++ Frame.nodes C).Nodup
  sentinel : s.moSentinel ∉ t.inorder ++ Frame.nodes C
  black : s.mcColor s.moSentinel = false

/-- The memory is the tree `t`. -/
def Represents (s : CRBTree ν K) (t : RBTree ν) : Prop := ∃ par, s.At par [] t

/-- What no step at a place touches. -/
structure Keeps (s s' : CRBTree ν K) : Prop where
  key : s'.mtKey = s.mtKey
  sentinel : s'.moSentinel = s.moSentinel
  parent : s'.mpoParent s.moSentinel = s.mpoParent s.moSentinel
  top : s'.mpoParent s'.mpoRoot = s.mpoParent s.mpoRoot

theorem Keeps.refl (s : CRBTree ν K) : Keeps s s := ⟨rfl, rfl, rfl, rfl⟩

theorem Keeps.trans {s s' s'' : CRBTree ν K} (h : Keeps s s') (h' : Keeps s' s'') :
    Keeps s s'' := by
  refine ⟨h'.key.trans h.key, h'.sentinel.trans h.sentinel, ?_, h'.top.trans h.top⟩
  have := h'.parent
  rw [h.sentinel] at this
  exact this.trans h.parent

/-- The two memories agree on the nodes of `l`. -/
structure Agree (s s' : CRBTree ν K) (l : List ν) : Prop where
  sentinel : s'.moSentinel = s.moSentinel
  child : ∀ z ∈ l, ∀ e, s'.child e z = s.child e z
  color : ∀ z ∈ l, s'.mcColor z = s.mcColor z
  parent : ∀ z ∈ l, s'.mpoParent z = s.mpoParent z

variable {s s' : CRBTree ν K} {par par' : Option ν} {C : List (Frame ν)} {f : Frame ν}
  {t u a b e : RBTree ν} {x y m hole : ν} {d : Side} {c c' : Bool} {l l' : List ν}

theorem Agree.mono (h : Agree s s' l) (hsub : l' ⊆ l) : Agree s s' l' :=
  ⟨h.sentinel, fun z hz => h.child z (hsub hz), fun z hz => h.color z (hsub hz),
    fun z hz => h.parent z (hsub hz)⟩

theorem ptr_congr (h : s'.moSentinel = s.moSentinel) (t : RBTree ν) : s'.ptr t = s.ptr t := by
  cases t with
  | leaf => exact h
  | node c l x r => rfl

@[simp] theorem ptr_setChild [DecidableEq ν] (d : Side) (x : ν) (p : Option ν) (t : RBTree ν) :
    (s.setChild d x p).ptr t = s.ptr t := ptr_congr rfl t
@[simp] theorem ptr_setParent [DecidableEq ν] (x : ν) (p : Option ν) (t : RBTree ν) :
    (s.setParent x p).ptr t = s.ptr t := ptr_congr rfl t
@[simp] theorem ptr_setColor [DecidableEq ν] (x : ν) (c : Bool) (t : RBTree ν) :
    (s.setColor x c).ptr t = s.ptr t := ptr_congr rfl t
@[simp] theorem ptr_setRoot (x : ν) (t : RBTree ν) :
    (s.setRoot x).ptr t = s.ptr t := ptr_congr rfl t

@[simp] theorem ptr_make : s.ptr (RBTree.make d c a x b) = x := by cases d <;> rfl

@[simp] theorem ptr_plug : s.ptr (f.plug t) = f.x := ptr_make

@[simp] theorem ptr_leaf : s.ptr .leaf = s.moSentinel := rfl

theorem ptr_mem (h : t ≠ .leaf) : s.ptr t ∈ t.inorder := by
  cases t with
  | leaf => exact absurd rfl h
  | node c l x r => simp [ptr, RBTree.inorder]

/-- The link to a tree is the sentinel or one of its nodes. -/
theorem ptr_eq_or_mem (s : CRBTree ν K) (t : RBTree ν) :
    s.ptr t = s.moSentinel ∨ s.ptr t ∈ t.inorder := by
  cases t with
  | leaf => exact .inl rfl
  | node c l x r => exact .inr (ptr_mem (by simp))

theorem ptr_ne (hx : x ∉ t.inorder) (hs : x ≠ s.moSentinel) : s.ptr t ≠ x := by
  rintro rfl
  rcases s.ptr_eq_or_mem t with h | h
  · exact hs h
  · exact hx h

theorem rep_make : s.Rep par (RBTree.make d c a x b) ↔
    s.mcColor x = c ∧ s.child d x = some (s.ptr a) ∧ s.child d.other x = some (s.ptr b) ∧
    s.mpoParent x = par ∧ s.Rep (some x) a ∧ s.Rep (some x) b := by
  cases d
  · exact Iff.rfl
  · simp only [RBTree.make, Rep, Side.other]
    tauto

theorem Rep.congr (h : s.Rep par t) (hagree : Agree s s' t.inorder) : s'.Rep par t := by
  induction t generalizing par with
  | leaf => trivial
  | node c l x r ihl ihr =>
    obtain ⟨hc, hl, hr, hp, hrl, hrr⟩ := h
    have hx : x ∈ (RBTree.node c l x r).inorder := by simp [RBTree.inorder]
    rw [Rep, hagree.color x hx, hagree.child x hx, hagree.child x hx, hagree.parent x hx,
      ptr_congr hagree.sentinel, ptr_congr hagree.sentinel]
    refine ⟨hc, hl, hr, hp, ihl hrl (hagree.mono ?_), ihr hrr (hagree.mono ?_)⟩
    · intro z hz
      simp [RBTree.inorder, hz]
    · intro z hz
      simp [RBTree.inorder, hz]

/-- A tree below another parent. -/
theorem Rep.reparent (h : s.Rep par t) (hnodup : t.inorder.Nodup)
    (hsentinel : s'.moSentinel = s.moSentinel)
    (hchild : ∀ z ∈ t.inorder, ∀ e, s'.child e z = s.child e z)
    (hcolor : ∀ z ∈ t.inorder, s'.mcColor z = s.mcColor z)
    (hparent : ∀ z ∈ t.inorder, z ≠ s.ptr t → s'.mpoParent z = s.mpoParent z)
    (hroot : t ≠ .leaf → s'.mpoParent (s.ptr t) = par') : s'.Rep par' t := by
  cases t with
  | leaf => trivial
  | node c l x r =>
    obtain ⟨hc, hl, hr, -, hrl, hrr⟩ := h
    obtain ⟨hxl, hxr, -⟩ := (RBTree.nodup_make (d := .left) (c := c)).mp hnodup
    have hx : x ∈ (RBTree.node c l x r).inorder := by simp [RBTree.inorder]
    have hsub : ∀ u : RBTree ν, u.inorder ⊆ (RBTree.node c l x r).inorder → x ∉ u.inorder →
        Agree s s' u.inorder := by
      intro u hu hxu
      refine ⟨hsentinel, fun z hz => hchild z (hu hz), fun z hz => hcolor z (hu hz), ?_⟩
      intro z hz
      exact hparent z (hu hz) fun heq : z = x => hxu (heq ▸ hz)
    rw [Rep, hcolor x hx, hchild x hx, hchild x hx, ptr_congr hsentinel, ptr_congr hsentinel]
    refine ⟨hc, hl, hr, hroot (by simp), hrl.congr (hsub l ?_ hxl), hrr.congr (hsub r ?_ hxr)⟩
    · intro z hz
      simp [RBTree.inorder, hz]
    · intro z hz
      simp [RBTree.inorder, hz]

theorem Above.congr (h : s.Above hole par C) (hagree : Agree s s' (Frame.nodes C))
    (hroot : s'.mpoRoot = s.mpoRoot) : s'.Above hole par C := by
  induction C generalizing hole par with
  | nil => exact hroot.trans h
  | cons f C ih =>
    obtain ⟨hp, hc, hside, hother, hsib, habove⟩ := h
    have hx : f.x ∈ Frame.nodes (f :: C) := by simp [Frame.nodes]
    rw [Above, hagree.color _ hx, hagree.child _ hx, hagree.child _ hx, hagree.parent _ hx,
      ptr_congr hagree.sentinel]
    refine ⟨hp, hc, hside, hother, hsib.congr (hagree.mono ?_), ih habove (hagree.mono ?_)⟩
    · intro z hz
      simp [Frame.nodes, hz]
    · intro z hz
      simp [Frame.nodes, hz]

/-! ## Moving the hole -/

theorem nodup_plug (f : Frame ν) (t : RBTree ν) (C : List (Frame ν)) :
    ((f.plug t).inorder ++ Frame.nodes C).Perm (t.inorder ++ Frame.nodes (f :: C)) :=
  (Frame.perm_fill C (f.plug t)).symm.trans (Frame.perm_fill (f :: C) t)

/-- The parent is the place one step up. -/
theorem At.up (h : s.At par (f :: C) t) : s.At (s.mpoParent f.x) C (f.plug t) := by
  obtain ⟨hpar, hc, hside, hother, hsib, habove⟩ := h.above
  have hperm := nodup_plug f t C
  refine ⟨?_, ?_, hperm.nodup_iff.mpr h.nodup, fun hmem => h.sentinel (hperm.mem_iff.mp hmem),
    h.black⟩
  · rw [ptr_plug]
    exact habove
  · rw [Frame.plug, rep_make]
    refine ⟨hc, hside, hother, rfl, ?_, hsib⟩
    rw [← hpar]
    exact h.rep

/-- A child is the place one step down. -/
theorem At.down (h : s.At par C (f.plug t)) : s.At (some f.x) (f :: C) t := by
  have hperm := nodup_plug f t C
  have hrep := h.rep
  rw [Frame.plug, rep_make] at hrep
  obtain ⟨hc, hside, hother, hpar, ht, hsib⟩ := hrep
  have habove := h.above
  rw [ptr_plug] at habove
  refine ⟨⟨rfl, hc, hside, hother, hsib, ?_⟩, ht, hperm.nodup_iff.mp h.nodup,
    fun hmem => h.sentinel (hperm.mem_iff.mpr hmem), h.black⟩
  rw [hpar]
  exact habove

theorem At.represents (h : s.At par C t) : s.Represents (Frame.fill C t) := by
  induction C generalizing par t with
  | nil => exact ⟨par, h⟩
  | cons f C ih => exact ih h.up

theorem Represents.at (h : s.Represents (Frame.fill C t)) : ∃ par, s.At par C t := by
  induction C generalizing t with
  | nil => exact h
  | cons f C ih =>
    obtain ⟨par, hat⟩ := ih h
    exact ⟨some f.x, hat.down⟩

/-- The hole is not above itself. -/
theorem Above.root_mem (h : s.Above hole par (f :: C)) : s.mpoRoot ∈ Frame.nodes (f :: C) := by
  induction C generalizing hole par f with
  | nil =>
    have hroot : s.mpoRoot = f.x := h.2.2.2.2.2
    simp [Frame.nodes, hroot]
  | cons g C ih =>
    have := ih h.2.2.2.2.2
    rw [Frame.nodes]
    exact List.mem_cons_of_mem _ (List.mem_append_right _ this)

/-- What is in the hole does not say where the root is, unless the hole is there. -/
theorem Above.root_eq {hole' : ν} (h : s.Above hole par (f :: C)) (h' : s'.Above hole' par' (f :: C)) :
    s'.mpoRoot = s.mpoRoot := by
  induction C generalizing hole hole' par par' f with
  | nil =>
    have hroot : s.mpoRoot = f.x := h.2.2.2.2.2
    have hroot' : s'.mpoRoot = f.x := h'.2.2.2.2.2
    rw [hroot, hroot']
  | cons g C ih => exact ih h.2.2.2.2.2 h'.2.2.2.2.2

/-- The node in the hole is the root exactly at the top. -/
theorem At.eq_root_iff (h : s.At par C t) : s.ptr t = s.mpoRoot ↔ C = [] := by
  cases C with
  | nil => exact ⟨fun _ => rfl, fun _ => h.above.symm⟩
  | cons f C =>
    refine ⟨fun heq => ?_, by simp⟩
    have hmem := h.above.root_mem
    rw [← heq] at hmem
    rcases s.ptr_eq_or_mem t with hs | ht
    · rw [hs] at hmem
      exact absurd (List.mem_append_right _ hmem) h.sentinel
    · exact absurd hmem (List.disjoint_of_nodup_append h.nodup ht)

/-- The other child of the parent is not the node in the hole. -/
theorem At.other_ne (h : s.At par (f :: C) t) (hne : t ≠ .leaf ∨ f.sib ≠ .leaf) :
    s.ptr f.sib ≠ s.ptr t := by
  have hnodup := h.nodup
  have hsentinel := h.sentinel
  simp only [Frame.nodes, List.mem_append, List.mem_cons, not_or] at hsentinel
  have hdisj : t.inorder.Disjoint f.sib.inorder := by
    refine List.disjoint_of_subset_right ?_ (List.disjoint_of_nodup_append hnodup)
    intro z hz
    simp [Frame.nodes, hz]
  rcases hne with hne | hne
  · exact ptr_ne (fun hmem => hdisj (ptr_mem hne) hmem)
      fun heq => hsentinel.1 (heq ▸ ptr_mem hne)
  · exact fun heq => ptr_ne (fun hmem => hdisj hmem (ptr_mem hne))
      (fun heq => hsentinel.2.2.1 (heq ▸ ptr_mem hne)) heq.symm

/-- The side of the hole below its parent. Where both children are the sentinel the code
cannot tell. -/
theorem At.side [DecidableEq ν] (h : s.At par (f :: C) t) (hne : t ≠ .leaf ∨ f.sib ≠ .leaf) :
    (if s.child .left f.x = some (s.ptr t) then Side.left else .right) = f.side := by
  obtain ⟨-, -, hside, hother, -⟩ := h.above
  cases hf : f.side with
  | left =>
    rw [hf] at hside
    rw [if_pos hside]
  | right =>
    rw [hf, Side.other] at hother
    rw [if_neg]
    rw [hother, Option.some_inj]
    exact h.other_ne hne

/-- The colour that is read through a link. -/
theorem Rep.color_ptr (h : s.Rep par t) (hblack : s.mcColor s.moSentinel = false) :
    s.mcColor (s.ptr t) = t.red := by
  cases t with
  | leaf => exact hblack
  | node c l x r => exact h.1

theorem At.color (h : s.At par C t) : s.mcColor (s.ptr t) = t.red := h.rep.color_ptr h.black

theorem At.parent (h : s.At par (f :: C) t) (hne : t ≠ .leaf) :
    s.mpoParent (s.ptr t) = some f.x := by
  rw [← h.above.1]
  cases t with
  | leaf => exact absurd rfl hne
  | node c l x r => exact h.rep.2.2.2.1

/-- The sibling is the place one step to the side. -/
theorem At.sibling (h : s.At par (f :: C) t) :
    s.At (some f.x) (⟨f.side.other, f.red, f.x, t⟩ :: C) f.sib := by
  have hup := h.up
  rw [Frame.plug, ← Side.other_other f.side, RBTree.make_other] at hup
  exact At.down (f := ⟨f.side.other, f.red, f.x, t⟩) hup

/-! ## One step at a place -/

variable [DecidableEq ν]

/-- What `replace` and `relink` leave as it is. -/
structure Relinked (s s' : CRBTree ν K) (C : List (Frame ν)) : Prop where
  key : s'.mtKey = s.mtKey
  sentinel : s'.moSentinel = s.moSentinel
  parent : s'.mpoParent = s.mpoParent
  color : s'.mcColor = s.mcColor
  child : ∀ z ∉ Frame.nodes C, ∀ e, s'.child e z = s.child e z

theorem Above.relink (h : s.Above x par (f :: C)) (hpar : s.mpoParent x = par)
    (hnodup : (Frame.nodes (f :: C)).Nodup) (hx : x ∉ Frame.nodes (f :: C))
    (hsentinel : x ≠ s.moSentinel) :
    ∃ s', s.relink d x y = some s' ∧ s'.Above y par (f :: C) ∧ Relinked s s' (f :: C) ∧
      s'.mpoRoot = s.mpoRoot := by
  obtain ⟨rfl, hc, hside, hother, hsib, habove⟩ := h
  simp only [Frame.nodes, List.nodup_cons, List.mem_append, List.mem_cons, not_or] at hnodup hx
  have hset : s.relink d x y = some (s.setChild f.side f.x (some y)) := by
    unfold CRBTree.relink
    rw [hpar]
    rcases f.side.eq_or_other d with rfl | rfl
    · simp [hside]
    · have hne : s.ptr f.sib ≠ x := ptr_ne hx.2.1 hsentinel
      simp [hother, hne]
  have hagree : ∀ l : List ν, f.x ∉ l → Agree s (s.setChild f.side f.x (some y)) l := by
    intro l hl
    refine ⟨rfl, fun z hz e => ?_, fun _ _ => rfl, fun _ _ => rfl⟩
    have hz : z ≠ f.x := fun heq => hl (heq ▸ hz)
    simp [hz]
  refine ⟨_, hset, ⟨rfl, hc, by simp, by simpa using hother, ?_, ?_⟩, ⟨rfl, rfl, rfl, rfl, ?_⟩, rfl⟩
  · exact hsib.congr (hagree _ hnodup.1.1)
  · exact habove.congr (hagree _ hnodup.1.2) rfl
  · intro z hz e
    have hz : z ≠ f.x := by
      rintro rfl
      simp [Frame.nodes] at hz
    simp [hz]

theorem Above.replace (h : s.Above x par C) (hpar : s.mpoParent x = par)
    (hnodup : (Frame.nodes C).Nodup) (hx : x ∉ Frame.nodes C) (hsentinel : x ≠ s.moSentinel) :
    ∃ s', s.replace d x y = some s' ∧ s'.Above y par C ∧ Relinked s s' C := by
  unfold CRBTree.replace
  cases C with
  | nil =>
    rw [if_pos (show x = s.mpoRoot from h.symm)]
    exact ⟨_, rfl, rfl, rfl, rfl, rfl, rfl, fun _ _ _ => rfl⟩
  | cons f C =>
    have hroot : x ≠ s.mpoRoot := fun heq => hx (heq ▸ h.root_mem)
    rw [if_neg hroot]
    obtain ⟨s', hrelink, habove, hrelinked, -⟩ := h.relink hpar hnodup hx hsentinel
    exact ⟨s', hrelink, habove, hrelinked⟩

/-- Colouring the node in the hole. -/
theorem At.setColor (h : s.At par C (RBTree.make d c a x b)) (c' : Bool) :
    (s.setColor x c').At par C (RBTree.make d c' a x b) ∧ Keeps s (s.setColor x c') := by
  have hinorder : (RBTree.make d c' a x b).inorder = (RBTree.make d c a x b).inorder := by
    cases d <;> rfl
  obtain ⟨hxa, hxb, -⟩ := RBTree.nodup_make.mp (List.nodup_append.mp h.nodup).1
  have hx : x ∈ (RBTree.make d c a x b).inorder := RBTree.mem_make.mpr (.inl rfl)
  have hagree : ∀ l : List ν, x ∉ l → Agree s (s.setColor x c') l := by
    intro l hl
    refine ⟨rfl, fun _ _ _ => rfl, fun z hz => ?_, fun _ _ => rfl⟩
    have hz : z ≠ x := fun heq => hl (heq ▸ hz)
    simp [hz]
  refine ⟨⟨?_, ?_, ?_, ?_, ?_⟩, rfl, rfl, rfl, rfl⟩
  · have habove := h.above
    rw [ptr_make] at habove ⊢
    exact habove.congr (hagree _ (List.disjoint_of_nodup_append h.nodup hx)) rfl
  · obtain ⟨-, hd, ho, hp, ha, hb⟩ := rep_make.mp h.rep
    exact rep_make.mpr ⟨by simp, hd, ho, hp, ha.congr (hagree _ hxa), hb.congr (hagree _ hxb)⟩
  · rw [hinorder]
    exact h.nodup
  · rw [hinorder]
    exact h.sentinel
  · have hne : s.moSentinel ≠ x := by
      rintro rfl
      exact h.sentinel (List.mem_append_left _ hx)
    simp [hne, h.black]

/-- The fields after a rotation that brings `y` above `x` and moves `inner` over. -/
structure Rotated (d : Side) (s s' : CRBTree ν K) (x y inner : ν) (C : List (Frame ν)) : Prop where
  key : s'.mtKey = s.mtKey
  sentinel : s'.moSentinel = s.moSentinel
  color : s'.mcColor = s.mcColor
  child_x : s'.child d.other x = some inner
  child_y : s'.child d y = some x
  child : ∀ z ∉ Frame.nodes C, ∀ e, ¬ (z = x ∧ e = d.other) → ¬ (z = y ∧ e = d) →
    s'.child e z = s.child e z
  parent_x : s'.mpoParent x = some y
  parent_y : s'.mpoParent y = s.mpoParent x
  parent_inner : inner ≠ s.moSentinel → s'.mpoParent inner = some x
  parent : ∀ z, z ≠ x → z ≠ y → z ≠ inner ∨ inner = s.moSentinel →
    s'.mpoParent z = s.mpoParent z

theorem Above.rotate {inner : ν} (h : s.Above x par C) (hpar : s.mpoParent x = par)
    (hnodup : (Frame.nodes C).Nodup) (hxC : x ∉ Frame.nodes C) (hyC : y ∉ Frame.nodes C)
    (hinnerC : inner ∉ Frame.nodes C) (hsentinel : x ≠ s.moSentinel) (hxy : x ≠ y)
    (hinnerx : inner ≠ x) (hinnery : inner ≠ y)
    (hx : s.child d.other x = some y) (hy : s.child d y = some inner) :
    ∃ s', s.rotate d x = some s' ∧ s'.Above y par C ∧ Rotated d s s' x y inner C := by
  -- the memory before `x` is replaced below its parent
  let s₁ := s.setChild d.other x (some inner)
  let s₂ := if inner ≠ s₁.moSentinel then s₁.setParent inner (some x) else s₁
  let s₃ := s₂.setParent y (s₂.mpoParent x)
  have hchild : s₃.child = s₁.child := by
    simp only [s₃, s₂]
    split <;> rfl
  have hsame : s₃.moSentinel = s.moSentinel ∧ s₃.mtKey = s.mtKey ∧ s₃.mcColor = s.mcColor ∧
      s₃.mpoRoot = s.mpoRoot := by
    simp only [s₃, s₂]
    split <;> exact ⟨rfl, rfl, rfl, rfl⟩
  have hparent₂ : s₂.mpoParent x = par := by
    simp only [s₂, s₁]
    split <;> simp [Ne.symm hinnerx, hpar]
  have hparent : ∀ z, z ≠ y → z ≠ inner ∨ inner = s.moSentinel →
      s₃.mpoParent z = s.mpoParent z := by
    intro z hz hzi
    simp only [s₃, mpoParent_setParent, if_neg hz, s₂, s₁]
    split
    · rename_i hne
      rw [mpoParent_setParent, if_neg (hzi.resolve_right hne)]
      rfl
    · rfl
  have hne : ∀ z ∈ Frame.nodes C, z ≠ x ∧ z ≠ y ∧ z ≠ inner := by
    intro z hz
    refine ⟨?_, ?_, ?_⟩
    · rintro rfl; exact hxC hz
    · rintro rfl; exact hyC hz
    · rintro rfl; exact hinnerC hz
  have habove₃ : s₃.Above x par C := by
    refine h.congr ⟨hsame.1, fun z hz e => ?_, fun z _ => by rw [hsame.2.2.1], fun z hz => ?_⟩
      hsame.2.2.2
    · rw [hchild]
      simp [s₁, (hne z hz).1]
    · exact hparent z (hne z hz).2.1 (.inl (hne z hz).2.2)
  have hpar₃ : s₃.mpoParent x = par := by
    rw [hparent x hxy (.inl (Ne.symm hinnerx)), hpar]
  obtain ⟨s₄, hreplace, habove₄, hrelinked⟩ :=
    habove₃.replace (d := d) (y := y) hpar₃ hnodup hxC (by rw [hsame.1]; exact hsentinel)
  refine ⟨(s₄.setChild d y (some x)).setParent x (some y), ?_, ?_, ?_⟩
  · simp only [CRBTree.rotate, hx, hy, Option.bind_eq_bind, Option.bind_some]
    have : s₃.replace d x y = some s₄ := hreplace
    simp only [s₃, s₂, s₁] at this
    simp only [this]
    rfl
  · refine habove₄.congr ⟨rfl, fun z hz e => ?_, fun _ _ => rfl, fun z hz => ?_⟩ rfl
    · simp [(hne z hz).2.1]
    · simp [(hne z hz).1]
  · refine ⟨hrelinked.key.trans hsame.2.1, hrelinked.sentinel.trans hsame.1,
      hrelinked.color.trans hsame.2.2.1, ?_, by simp, ?_, by simp, ?_, ?_, ?_⟩
    · simp [hxy, hrelinked.child x hxC, hchild, s₁]
    · intro z hz e hzx hzy
      rw [child_setParent, child_setChild, if_neg (fun h => hzy h.symm), hrelinked.child z hz,
        hchild, child_setChild, if_neg (fun h => hzx h.symm)]
    · rw [mpoParent_setParent, if_neg hxy.symm, mpoParent_setChild, hrelinked.parent]
      simp [s₃, hparent₂, hpar]
    · intro hne'
      rw [mpoParent_setParent, if_neg hinnerx, mpoParent_setChild, hrelinked.parent]
      simp [s₃, hinnery, s₂, s₁, hne']
    · intro z hzx hzy hzi
      rw [mpoParent_setParent, if_neg hzx, mpoParent_setChild, hrelinked.parent]
      exact hparent z hzy hzi

/-- A rotation at the node in the hole. -/
theorem At.rotate (h : s.At par C (RBTree.make d c a x (RBTree.make d c' b y e))) :
    ∃ s', s.rotate d x = some s' ∧
      s'.At par C (RBTree.make d c' (RBTree.make d c a x b) y e) ∧ Keeps s s' := by
  obtain ⟨hnodup, hC, hdisj⟩ := List.nodup_append'.mp h.nodup
  obtain ⟨hxa, hxyu, hna, hnu, hau⟩ := RBTree.nodup_make.mp hnodup
  obtain ⟨hyb, hye, hnb, hne, hbe⟩ := RBTree.nodup_make.mp hnu
  rw [RBTree.mem_make] at hxyu
  obtain ⟨hxy, hxb, hxe⟩ := not_or.mp hxyu |>.imp_right not_or.mp
  have hya : y ∉ a.inorder := fun hmem => hau hmem (RBTree.mem_make.mpr (.inl rfl))
  have hab : a.inorder.Disjoint b.inorder := fun z hz hz' =>
    hau hz (RBTree.mem_make.mpr (.inr (.inl hz')))
  have hmem : ∀ z, z = x ∨ z = y ∨ z ∈ a.inorder ∨ z ∈ b.inorder ∨ z ∈ e.inorder →
      z ∉ Frame.nodes C ∧ z ≠ s.moSentinel := by
    intro z hz
    have hin : z ∈ (RBTree.make d c a x (RBTree.make d c' b y e)).inorder := by
      rw [RBTree.mem_make, RBTree.mem_make]
      tauto
    refine ⟨fun hz => hdisj hin hz, ?_⟩
    rintro rfl
    exact h.sentinel (List.mem_append_left _ hin)
  obtain ⟨hxC, hxs⟩ := hmem x (.inl rfl)
  obtain ⟨hyC, hys⟩ := hmem y (.inr (.inl rfl))
  obtain ⟨hcx, hxl, hxr, hpx, hra, hru⟩ := rep_make.mp h.rep
  obtain ⟨hcy, hyl, hyr, hpy, hrb, hre⟩ := rep_make.mp hru
  rw [ptr_make] at hxr
  have hinner : s.ptr b ∉ Frame.nodes C := by
    rcases s.ptr_eq_or_mem b with hb | hb
    · rw [hb]
      exact fun hm => h.sentinel (List.mem_append_right _ hm)
    · exact (hmem _ (by tauto)).1
  have habove := h.above
  rw [ptr_make] at habove
  obtain ⟨s', hrotate, habove', hrot⟩ :=
    habove.rotate (d := d) (y := y) hpx hC hxC hyC hinner hxs hxy (ptr_ne hxb hxs)
      (ptr_ne hyb hys) hxr hyl
  -- a subtree without the three nodes at the joints stays as it is
  have hagree : ∀ u : RBTree ν, (∀ z ∈ u.inorder, z ∈ a.inorder ∨ z ∈ b.inorder ∨ z ∈ e.inorder) →
      x ∉ u.inorder → y ∉ u.inorder → (∀ z ∈ u.inorder, z ≠ s.ptr b ∨ s.ptr b = s.moSentinel) →
      Agree s s' u.inorder := by
    intro u hu hxu hyu hbu
    have hzx : ∀ z ∈ u.inorder, z ≠ x := fun z hz heq => hxu (heq ▸ hz)
    have hzy : ∀ z ∈ u.inorder, z ≠ y := fun z hz heq => hyu (heq ▸ hz)
    refine ⟨hrot.sentinel, fun z hz e => ?_, fun z _ => by rw [hrot.color], fun z hz => ?_⟩
    · exact hrot.child z (hmem z (by have := hu z hz; tauto)).1 e (fun h => hzx z hz h.1)
        (fun h => hzy z hz h.1)
    · exact hrot.parent z (hzx z hz) (hzy z hz) (hbu z hz)
  have hptr : ∀ u : RBTree ν, s'.ptr u = s.ptr u := ptr_congr hrot.sentinel
  have hbleaf : ∀ z, z ∉ b.inorder → z ≠ s.ptr b ∨ s.ptr b = s.moSentinel := by
    intro z hz
    rcases s.ptr_eq_or_mem b with hb | hb
    · exact .inr hb
    · exact .inl fun heq => hz (heq ▸ hb)
  have hra' : s'.Rep (some x) a := hra.congr <| hagree a (fun z hz => .inl hz) hxa hya
    fun z hz => hbleaf z fun hzb => hab hz hzb
  have hre' : s'.Rep (some y) e := hre.congr <| hagree e (fun z hz => .inr (.inr hz)) hxe hye
    fun z hz => hbleaf z fun hzb => hbe hzb hz
  have hrb' : s'.Rep (some x) b := by
    have hzx : ∀ z ∈ b.inorder, z ≠ x := fun z hz heq => hxb (heq ▸ hz)
    have hzy : ∀ z ∈ b.inorder, z ≠ y := fun z hz heq => hyb (heq ▸ hz)
    refine hrb.reparent hnb hrot.sentinel (fun z hz e => ?_) (fun z _ => by rw [hrot.color])
      (fun z hz hzb => hrot.parent z (hzx z hz) (hzy z hz) (.inl hzb)) fun hb => ?_
    · exact hrot.child z (hmem z (by tauto)).1 e (fun h => hzx z hz h.1) (fun h => hzy z hz h.1)
    · exact hrot.parent_inner (hmem _ (by have := ptr_mem (s := s) hb; tauto)).2
  have hinorder := RBTree.inorder_rotate d c c' a x b y e
  refine ⟨s', hrotate, ⟨?_, ?_, ?_, ?_, ?_⟩, hrot.key, hrot.sentinel, ?_, ?_⟩
  · rw [ptr_make]
    exact habove'
  · refine rep_make.mpr ⟨?_, ?_, ?_, ?_, rep_make.mpr ⟨?_, ?_, ?_, ?_, hra', hrb'⟩, hre'⟩
    · rw [hrot.color, hcy]
    · rw [ptr_make, hrot.child_y]
    · rw [hrot.child y hyC, hyr, hptr]
      · exact fun h => hxy h.1.symm
      · exact fun h => d.other_ne h.2
    · rw [hrot.parent_y, hpx]
    · rw [hrot.color, hcx]
    · rw [hrot.child x hxC, hxl, hptr]
      · exact fun h => d.ne_other h.2
      · exact fun h => hxy h.1
    · rw [hrot.child_x, hptr]
    · exact hrot.parent_x
  · rw [hinorder]
    exact h.nodup
  · rw [hinorder, hrot.sentinel]
    exact h.sentinel
  · rw [hrot.color, hrot.sentinel, h.black]
  · refine hrot.parent _ hxs.symm hys.symm ?_
    rw [eq_comm (a := s.ptr b)]
    exact (Decidable.em _).symm
  · cases C with
    | nil =>
      have hroot : s.mpoRoot = x := habove
      have hroot' : s'.mpoRoot = y := habove'
      rw [hroot, hroot', hrot.parent_y]
    | cons f C =>
      have hmem := habove.root_mem
      have hne : ∀ z, z ∉ Frame.nodes (f :: C) → s.mpoRoot ≠ z := fun z hz heq => hz (heq ▸ hmem)
      rw [habove.root_eq habove']
      exact hrot.parent _ (hne x hxC) (hne y hyC) (.inl (hne _ hinner))

/-- Colouring the parent. -/
theorem At.setColor_parent (h : s.At par (f :: C) t) (c' : Bool) :
    (s.setColor f.x c').At (some f.x) ({ f with red := c' } :: C) t ∧
      Keeps s (s.setColor f.x c') := by
  obtain ⟨hat, hkeeps⟩ := At.setColor h.up c'
  exact ⟨At.down (f := { f with red := c' }) hat, hkeeps⟩

end CRBTree

end Netfram
