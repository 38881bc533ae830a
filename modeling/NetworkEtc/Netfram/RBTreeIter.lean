-- SUMMARY: Iterating over the red-black tree in both directions, and which histories leave it iterable.
import NetworkEtc.Netfram.TimerTree

/-!
# `Next`, `Prev`, `SeekToFirst` and `SeekToLast`

An iterator climbs by the parent links and knows the root by its link being `NULL`. The one
step that leaves another link in a root is the deletion of the root in front of a last node:
the node keeps its link to the root that was. An insertion into such a tree makes the
iterator go there.
-/

namespace Netfram

open Library (Side RBTree Frame)
open Library.Frame (fill ahead)

namespace CRBTree

variable {ν K : Type} [DecidableEq ν]

/-- The loop at the end of `Next` and `Prev`, from the parent of the node the iterator is at. -/
def climb (d : Side) (s : CRBTree ν K) : Nat → ν → Option ν
  | 0, _ => none
  | fuel + 1, parent =>
    match s.mpoParent parent with
    | none => some s.moSentinel
    | some grand => if s.child d grand = some parent then climb d s fuel grand else some grand

/-- `Iterator::Next`, and on the other side `Iterator::Prev`: the node the iterator is at
after it. -/
def advance (d : Side) (fuel : Nat) (s : CRBTree ν K) (mpoNode : ν) : Option ν := do
  let next ← s.child d mpoNode
  if next ≠ s.moSentinel then s.outermost d.other fuel next
  else
    match s.mpoParent mpoNode with
    | none => return s.moSentinel
    | some parent =>
      if s.child d.other parent = some mpoNode then return parent else s.climb d fuel parent

/-- The nodes an iterator comes to until it is not valid. -/
def visit (d : Side) (fuel : Nat) (s : CRBTree ν K) : Nat → ν → Option (List ν)
  | 0, _ => none
  | rounds + 1, mpoNode =>
    if mpoNode = s.moSentinel then some []
    else do
      let next ← s.advance d fuel mpoNode
      let rest ← visit d fuel s rounds next
      return mpoNode :: rest

/-- From `SeekToFirst` on with `Next`, or from `SeekToLast` on with `Prev`. -/
def iterate (d : Side) (fuel : Nat) (s : CRBTree ν K) : Option (List ν) :=
  (s.outermost d.other fuel s.mpoRoot).bind (s.visit d fuel fuel)

variable {s s' : CRBTree ν K} {par : Option ν} {C : List (Frame ν)} {f : Frame ν}
  {t u W : RBTree ν} {x y z : ν} {d : Side} {c : Bool} {L l : List ν} {fuel : Nat}

/-! ## One step of an iterator -/

omit [DecidableEq ν] in
/-- The child on the side `d` of the parent is the node in the hole exactly if the hole is
on that side. -/
theorem At.child_eq_iff (h : s.At par (f :: C) t) (hne : t ≠ .leaf) (d : Side) :
    s.child d f.x = some (s.ptr t) ↔ f.side = d := by
  obtain ⟨-, -, hside, hother, -⟩ := h.above
  constructor
  · intro hchild
    by_contra hd
    have hd' : d = f.side.other := (f.side.eq_or_other d).resolve_left fun heq => hd heq.symm
    rw [hd', hother, Option.some_inj] at hchild
    exact h.other_ne (.inl hne) hchild
  · intro hd
    rw [← hd]
    exact hside

omit [DecidableEq ν] in
theorem At.parent_top (h : s.At par [] t) (htop : s.mpoParent s.mpoRoot = none) :
    s.mpoParent (s.ptr t) = none := by
  have hroot : s.mpoRoot = s.ptr t := h.above
  rwa [hroot] at htop

theorem At.climb (h : s.At par C t) (hne : t ≠ .leaf) (htop : s.mpoParent s.mpoRoot = none)
    (hfuel : C.length < fuel) :
    s.climb d fuel (s.ptr t) = some ((ahead d C).head?.getD s.moSentinel) := by
  induction C generalizing t par fuel with
  | nil =>
    obtain ⟨fuel, rfl⟩ : ∃ n, fuel = n + 1 := ⟨fuel - 1, by omega⟩
    rw [CRBTree.climb, h.parent_top htop]
    rfl
  | cons f C ih =>
    obtain ⟨fuel, rfl⟩ : ∃ n, fuel = n + 1 := ⟨fuel - 1, by omega⟩
    rw [CRBTree.climb, h.parent hne]
    dsimp only
    by_cases hside : f.side = d
    · have hfuel' : C.length < fuel := by simpa using hfuel
      have hup := ih h.up plug_ne_leaf hfuel'
      rw [ptr_plug] at hup
      rw [if_pos ((h.child_eq_iff hne d).mpr hside), hup, ahead, if_pos hside]
    · rw [if_neg fun hchild => hside ((h.child_eq_iff hne d).mp hchild), ahead, if_neg hside]
      rfl

/-- A step leads to the next node on the way, and to the sentinel after the last. -/
theorem At.advance (h : s.At par C (.make d c t x u)) (htop : s.mpoParent s.mpoRoot = none)
    (hlen : t.inorder.length ≤ fuel) (hfuel : C.length < fuel) :
    s.advance d fuel x = some ((t.walk d ++ ahead d C).head?.getD s.moSentinel) := by
  have hnext : s.child d x = some (s.ptr t) := (rep_make.mp h.rep).2.1
  rw [CRBTree.advance, hnext]
  simp only [Option.bind_eq_bind, Option.bind_some]
  by_cases ht : t = .leaf
  · subst ht
    rw [ptr_leaf, if_neg fun hns => hns rfl, RBTree.walk_leaf, List.nil_append]
    cases C with
    | nil =>
      have hparent := h.parent_top htop
      rw [ptr_make] at hparent
      rw [hparent]
      rfl
    | cons f C =>
      have hparent := h.parent RBTree.make_ne_leaf
      have hchild := h.child_eq_iff RBTree.make_ne_leaf d.other
      rw [ptr_make] at hparent hchild
      rw [hparent]
      dsimp only
      by_cases hside : f.side = d.other
      · have hd : f.side ≠ d := hside ▸ d.other_ne
        rw [if_pos (hchild.mpr hside), ahead, if_neg hd]
        rfl
      · have hd : f.side = d := (d.eq_or_other f.side).resolve_right hside
        have hfuel' : C.length < fuel := Nat.lt_of_succ_lt hfuel
        have hup := h.up.climb (d := d) plug_ne_leaf htop hfuel'
        rw [ptr_plug] at hup
        rw [if_neg fun heq => hside (hchild.mp heq), hup, ahead, if_pos hd]
  · have hdown : s.At (some x) (⟨d, c, x, u⟩ :: C) t := At.down (f := ⟨d, c, x, u⟩) h
    have hts : s.ptr t ≠ s.moSentinel := fun heq =>
      hdown.sentinel (heq ▸ List.mem_append_left _ (ptr_mem ht))
    rw [if_pos hts]
    obtain ⟨D, c', y, r, hrun, hfill, hahead⟩ := outermost_spec d.other hdown ht hlen
    -- what comes before `t` on the way is the same for both readings of the tree
    have hwalk := congrArg (RBTree.walk d) hfill
    rw [Frame.walk_fill, Frame.walk_fill, hahead, List.append_cancel_left_eq, RBTree.walk_make_other,
      RBTree.walk_leaf, List.nil_append] at hwalk
    have hC : ahead d (⟨d, c, x, u⟩ :: C) = ahead d C := by rw [ahead, if_pos rfl]
    rw [hrun, ← hC, ← hwalk]
    rfl

/-! ## All steps -/

/-- From a node on the way the iterator comes to all that follow. -/
theorem Represents.visit (h : s.Represents W) (htop : s.mpoParent s.mpoRoot = none)
    (hfuel : W.inorder.length < fuel) {pre rest : List ν} {rounds : Nat}
    (hsplit : W.walk d = pre ++ rest) (hrounds : rest.length < rounds) :
    s.visit d fuel rounds (rest.head?.getD s.moSentinel) = some rest := by
  induction rest generalizing pre rounds with
  | nil =>
    obtain ⟨rounds, rfl⟩ : ∃ n, rounds = n + 1 := ⟨rounds - 1, by omega⟩
    simp [CRBTree.visit]
  | cons x rest ih =>
    obtain ⟨rounds, rfl⟩ : ∃ n, rounds = n + 1 := ⟨rounds - 1, by omega⟩
    have hx : x ∈ W.inorder := by
      rw [← RBTree.mem_walk (d := d), hsplit]
      simp
    obtain ⟨C, c, l, r, rfl⟩ := Library.Frame.exists_fill hx
    obtain ⟨par, hat⟩ := h.at
    obtain ⟨t, u, hnode⟩ : ∃ t u, RBTree.node c l x r = .make d c t x u := by
      cases d with
      | left => exact ⟨l, r, rfl⟩
      | right => exact ⟨r, l, rfl⟩
    rw [hnode] at hat hsplit hfuel
    have hxs : x ≠ s.moSentinel := by
      rintro rfl
      exact hat.sentinel (List.mem_append_left _ (RBTree.mem_make.mpr (.inl rfl)))
    -- the node splits the way in two
    have hperm := Library.Frame.perm_fill C (.make d c t x u)
    have hlengths := hperm.length_eq
    have hnodes := length_nodes_le C
    have hmake := congrArg List.length (RBTree.walk_make d c t x u)
    simp only [RBTree.length_walk, List.length_append, List.length_cons] at hlengths hmake
    have hnodup : (fill C (.make d c t x u)).inorder.Nodup := hperm.nodup_iff.mpr hat.nodup
    have hwalkNodup : ((fill C (.make d c t x u)).walk d).Nodup := by
      cases d with
      | left => exact List.nodup_reverse.mpr hnodup
      | right => exact hnodup
    have hrest : rest = t.walk d ++ ahead d C := by
      rw [hsplit] at hwalkNodup
      obtain ⟨hxrest, -⟩ := List.nodup_cons.mp (List.nodup_append.mp hwalkNodup).2.1
      have hxpre : x ∉ pre := fun hmem =>
        (List.nodup_append.mp hwalkNodup).2.2 x hmem x List.mem_cons_self rfl
      have hwalk := hsplit
      rw [Frame.walk_fill, RBTree.walk_make, List.append_assoc, List.cons_append,
        ← List.append_assoc] at hwalk
      exact ((List.append_cons_inj_of_notMem hxpre hxrest).mp hwalk.symm).2.2
    have hbelow : t.inorder.length ≤ fuel := by omega
    have habove : C.length < fuel := by omega
    have hstep := hat.advance htop hbelow habove
    rw [← hrest] at hstep
    have hsplit' : (fill C (.node c l x r)).walk d = (pre ++ [x]) ++ rest := by
      rw [hnode, hsplit]
      simp
    have hrounds' : rest.length < rounds := by simpa using hrounds
    have hgo := ih hsplit' hrounds'
    rw [List.head?_cons, Option.getD_some, CRBTree.visit, if_neg hxs]
    simp [hstep, hgo]

/-- With no parent link in the root the iterator comes to all nodes, in both directions. -/
theorem Stands.iterate (h : s.Stands L) (htop : L ≠ [] → s.mpoParent s.mpoRoot = none)
    (hfuel : L.length < fuel) :
    s.iterate .right fuel = some L ∧ s.iterate .left fuel = some L.reverse := by
  obtain ⟨W, hrep, rfl, -⟩ := h
  suffices hall : ∀ d, s.iterate d fuel = some (W.walk d) from ⟨hall .right, hall .left⟩
  intro d
  by_cases hW : W = .leaf
  · subst hW
    obtain ⟨fuel, rfl⟩ : ∃ n, fuel = n + 1 := ⟨fuel - 1, by omega⟩
    have hroot := hrep.root_eq_sentinel_iff.mpr rfl
    simp [CRBTree.iterate, outermost, CRBTree.visit, hroot]
  · obtain ⟨par, hat⟩ := hrep
    have hroot : s.mpoRoot = s.ptr W := hat.above
    have hne : W.inorder ≠ [] := List.ne_nil_of_mem (ptr_mem (s := s) hW)
    obtain ⟨C, c, y, r, hrun, hfill, hahead⟩ := outermost_spec d.other hat hW (Nat.le_of_lt hfuel)
    have hwalk : W.walk d = y :: (r.walk d ++ ahead d C) := by
      have hsplit := Frame.walk_fill d C (.make d.other c .leaf y r)
      have hfill : fill C (.make d.other c .leaf y r) = W := hfill
      have hahead : ahead d.other C = [] := hahead
      rw [hfill, hahead, RBTree.walk_make_other, RBTree.walk_leaf] at hsplit
      exact hsplit
    have hwhole : W.walk d = [] ++ W.walk d := rfl
    have hlength : (W.walk d).length < fuel := by rwa [RBTree.length_walk]
    have hvisit := Represents.visit ⟨par, hat⟩ (htop hne) hfuel hwhole hlength
    rw [hwalk, List.head?_cons, Option.getD_some, ← hwalk] at hvisit
    rw [CRBTree.iterate, hroot, hrun, Option.bind_some, hvisit]

omit [DecidableEq ν] in
/-- A node that is alone in the tree. -/
theorem Stands.single (h : s.Stands [y]) : s.mpoRoot = y ∧ y ≠ s.moSentinel ∧
    s.mcColor y = false ∧ ∀ d, s.child d y = some s.moSentinel := by
  obtain ⟨W, ⟨par, hat⟩, hreads, hblack, -⟩ := h
  have hleaf : ∀ u : RBTree ν, u.inorder = [] → u = .leaf := by
    intro u hu
    cases u with
    | leaf => rfl
    | node c l x r => simp [RBTree.inorder] at hu
  cases W with
  | leaf => simp [RBTree.inorder] at hreads
  | node c l x r =>
    have hnil : l.inorder = [] ∧ x = y ∧ r.inorder = [] := by
      have hsingle := List.append_eq_singleton_iff.mp hreads
      simpa using hsingle
    obtain ⟨hl, rfl, hr⟩ := hnil
    obtain rfl := hleaf l hl
    obtain rfl := hleaf r hr
    obtain ⟨hc, hleft, hright, -⟩ := hat.rep
    refine ⟨hat.above, fun heq => ?_, hc.trans hblack, fun d => ?_⟩
    · exact hat.sentinel (heq ▸ List.mem_append_left _ (by simp [RBTree.inorder]))
    · cases d with
      | left => exact hleft
      | right => exact hright

/-! ## The link of the root -/

/-- A parent link in a root the iterator can live with: none, or, where the root is alone, one to
a node that has no links itself. -/
def RootLink (s : CRBTree ν K) (L : List ν) : Prop :=
  L = [] ∨ s.mpoParent s.mpoRoot = none ∨
    ∃ y z, L = [y] ∧ s.mpoParent y = some z ∧ z ≠ s.moSentinel ∧ s.mpoParent z = none ∧
      ∀ d, s.child d z = none

theorem RootLink.iterate (hlink : RootLink s L) (h : s.Stands L) (hfuel : L.length < fuel) :
    s.iterate .right fuel = some L ∧ s.iterate .left fuel = some L.reverse := by
  cases hlink with
  | inl hnil => exact h.iterate (fun hne => absurd hnil hne) hfuel
  | inr hlink =>
    cases hlink with
    | inl htop => exact h.iterate (fun _ => htop) hfuel
    | inr hstale =>
      obtain ⟨y, z, rfl, hy, -, hz, hchild⟩ := hstale
      obtain ⟨hroot, hys, -, hleaf⟩ := h.single
      obtain ⟨fuel, rfl⟩ : ∃ n, fuel = n + 2 := ⟨fuel - 2, by simp at hfuel; omega⟩
      -- the way up ends at the node without links
      have hall : ∀ d, s.iterate d (fuel + 2) = some [y] := by
        intro d
        simp [CRBTree.iterate, outermost, CRBTree.visit, CRBTree.advance, CRBTree.climb, hroot, hys,
          hleaf, hy, hz, hchild]
      exact ⟨hall .right, hall .left⟩

/-- Deleting the first node leaves such a link. -/
theorem Advanced.rootLink {T : List ν} (h : Advanced s x T s') (hs : s.Stands (x :: T))
    (hlink : RootLink s (x :: T)) : RootLink s' T := by
  by_cases hroot : x = s.mpoRoot
  · cases h.root hroot with
    | inl hnil => exact .inl hnil
    | inr hlast =>
      obtain ⟨y, hT, hy, hx, hchild⟩ := hlast
      have hxs : x ≠ s'.moSentinel := by
        rw [h.sentinel]
        rintro rfl
        exact hs.sentinel_notMem List.mem_cons_self
      exact .inr (.inr ⟨y, x, hT, hy, hxs, hx, hchild⟩)
  · cases hlink with
    | inl hnil => cases hnil
    | inr hlink =>
      cases hlink with
      | inl htop => exact .inr (.inl ((h.top hroot).trans htop))
      | inr hstale =>
        obtain ⟨y, z, hcons, -⟩ := hstale
        rw [hcons] at hs
        cases hcons
        exact absurd hs.single.1.symm hroot

/-- A node comes below one that is alone: the memory then, but for the colours. -/
theorem insert_second (less : K → K → Bool) (h : s.Stands [y]) (hxy : x ≠ y) (fuel : Nat) :
    ∃ d s', s.insert less (fuel + 1) x = some s' ∧ s'.mpoRoot = y ∧
      s'.moSentinel = s.moSentinel ∧ s'.child d y = some x ∧
      s'.child d.other y = some s.moSentinel ∧ (∀ e, s'.child e x = some s.moSentinel) ∧
      s'.mpoParent x = some y ∧ (∀ v, v ≠ x → s'.mpoParent v = s.mpoParent v) ∧
      ∀ v, v ≠ x → v ≠ y → ∀ e, s'.child e v = s.child e v := by
  obtain ⟨hroot, hys, hblack, hleaf⟩ := h.single
  generalize hd : (if less (s.mtKey x) (s.mtKey y) then Side.left else .right) = d
  let s₁ := (((((s.setChild d y (some x)).setParent x (some y)).setChild .left x
    (some s.moSentinel)).setChild .right x (some s.moSentinel)).setColor x true)
  have hdescend : s.descend less x (fuel + 1) y = some (y, d) := by
    simp [descend, hd, hleaf]
  have hfrom : s.insertFrom less (fuel + 1) y x = some s₁ := by
    simp only [insertFrom, hdescend, Option.bind_eq_bind, Option.bind_some]
    rfl
  have hloop : s₁.insertLoop (fuel + 1) x = some s₁ := by
    simp [insertLoop, s₁, hroot, hxy, hxy.symm, hblack]
  refine ⟨d, s₁.setColor y false, ?_, ?_⟩
  · rw [CRBTree.insert, if_neg (hroot ▸ hys), hroot, hfrom]
    simp only [Option.bind_eq_bind, Option.bind_some, hloop]
    simp [s₁, hroot]
  · refine ⟨hroot, rfl, ?_, ?_, fun e => ?_, ?_, fun v hv => ?_, fun v hvx hvy e => ?_⟩
    · simp [s₁, hxy.symm]
    · simp [s₁, hxy.symm, hleaf]
    · cases e with
      | left => simp [s₁]
      | right => simp [s₁]
    · simp [s₁]
    · simp [s₁, hv]
    · simp [s₁, hvx, hvy]

theorem visit_cons {rounds : Nat} (hx : x ≠ s.moSentinel)
    (hrun : s.visit d fuel rounds x = some l) :
    ∃ next rest n, s.advance d fuel x = some next ∧ s.visit d fuel n next = some rest ∧
      l = x :: rest := by
  cases rounds with
  | zero => cases hrun
  | succ rounds =>
    rw [CRBTree.visit, if_neg hx] at hrun
    simp only [Option.bind_eq_bind, Option.bind_eq_some_iff] at hrun
    obtain ⟨next, hnext, rest, hrest, heq⟩ := hrun
    cases heq
    exact ⟨next, rest, rounds, hnext, hrest, rfl⟩

/-- With a link in the root, inserting a second node makes the iterator go to the node the link
leads to. -/
theorem RootLink.insert_long (less : K → K → Bool) (fuel : Nat) (hlink : RootLink s L) (h : s.Stands L)
    (hne : L ≠ []) (htop : s.mpoParent s.mpoRoot ≠ none) (hx : x ∉ L) (hxs : x ≠ s.moSentinel) :
    ∃ d s', s.insert less (fuel + 1) x = some s' ∧
      ∀ l, s'.iterate d (fuel + 1) = some l → L.length + 2 ≤ l.length := by
  obtain ⟨y, z, rfl, hy, hzs, hz, hchild⟩ := (hlink.resolve_left hne).resolve_left htop
  have hxy : x ≠ y := by simpa using hx
  obtain ⟨hroot, hys, -, -⟩ := h.single
  have hzy : z ≠ y := by
    rintro rfl
    rw [hz] at hy
    cases hy
  obtain ⟨d, s', hrun, hroot', hsent, hchildy, hothery, hchildx, hparx, hpar, hframe⟩ :=
    insert_second less h hxy fuel
  refine ⟨d, s', hrun, fun l hl => ?_⟩
  have hzchild : s'.child d z ≠ some y := by
    by_cases hzx : z = x
    · rw [hzx, hchildx]
      simpa using hys.symm
    · rw [hframe z hzx hzy, hchild]
      simp
  have hpary : s'.mpoParent y = some z := by rw [hpar y hxy.symm, hy]
  have hstart : s'.outermost d.other (fuel + 1) y = some y := by
    simp [outermost, hothery, hsent]
  have hfirst : s'.advance d (fuel + 1) y = some x := by
    simp [CRBTree.advance, outermost, hchildy, hxs, hchildx, hsent]
  have hsecond : s'.advance d (fuel + 1) x = some z := by
    simp [CRBTree.advance, CRBTree.climb, hchildx, hsent, hparx, hothery, hxs.symm, hpary, hzchild]
  rw [← hsent] at hys hxs hzs
  rw [CRBTree.iterate, hroot', hstart, Option.bind_some] at hl
  obtain ⟨next, rest, n, hnext, hl, rfl⟩ := visit_cons hys hl
  rw [hfirst] at hnext
  cases hnext
  obtain ⟨next, rest, n, hnext, hl, rfl⟩ := visit_cons hxs hl
  rw [hsecond] at hnext
  cases hnext
  obtain ⟨next, rest, n, -, -, rfl⟩ := visit_cons hzs hl
  simp

/-! ## Histories -/

section Histories

variable {s s' : CRBTree ν UInt64} {L l : List ν} {fuel : Nat} {op : Op ν UInt64}

/-- `P` holds before every call of a history; `l` are the nodes in the tree. -/
def Before (fuel : Nat) (P : CRBTree ν UInt64 → List ν → Op ν UInt64 → Prop) :
    CRBTree ν UInt64 → List ν → List (Op ν UInt64) → Prop
  | _, _, [] => True
  | s, l, op :: ops => P s l op ∧
    ∀ s', s.step keyLess fuel op = some s' → Before fuel P s' (op.leaves l) ops

/-- Every call of a history ends, and `P` holds of every state reached. -/
def Throughout (fuel : Nat) (P : CRBTree ν UInt64 → List ν → Prop) :
    CRBTree ν UInt64 → List ν → List (Op ν UInt64) → Prop
  | s, l, [] => P s l
  | s, l, op :: ops => P s l ∧
    ∃ s', s.step keyLess fuel op = some s' ∧ Throughout fuel P s' (op.leaves l) ops

/-- A node that is not in the tree is inserted, the one that `SeekToFirst` finds is deleted. -/
def Op.AdmitsFirst (fuel : Nat) (s : CRBTree ν UInt64) (l : List ν) : Op ν UInt64 → Prop
  | .insert x _ => x ∉ l ∧ x ≠ s.moSentinel
  | .delete x => s.seekToFirst fuel = some x ∧ x ≠ s.moSentinel

/-- A node is inserted into an empty tree, or into one whose root has no parent link. -/
def Op.FindsNoLink (s : CRBTree ν UInt64) : Op ν UInt64 → Prop
  | .insert _ _ => s.mpoRoot = s.moSentinel ∨ s.mpoParent s.mpoRoot = none
  | .delete _ => True

/-- An iterator comes to the nodes `l` once each, in the two directions, and ends; the keys do
not fall on the way if they are in a window of `2 ^ 31`. -/
def Iterates (fuel : Nat) (s : CRBTree ν UInt64) (l : List ν) : Prop :=
  ∃ L, s.iterate .right fuel = some L ∧ s.iterate .left fuel = some L.reverse ∧ L.Perm l ∧
    ∀ w, (∀ x ∈ l, w ≤ (s.mtKey x).toNat ∧ (s.mtKey x).toNat < w + 2 ^ 31) →
      L.Pairwise fun a b => (s.mtKey a).toNat ≤ (s.mtKey b).toNat

/-- What a history keeps as long as every insertion finds no link: the nodes in order, and a
link in the root that does no harm yet. -/
structure Iterable (s : CRBTree ν UInt64) (l : List ν) (L : List ν) : Prop where
  stands : s.Stands L
  perm : L.Perm l
  chain : L.IsChain (TreeTimer.Precedes s.mtKey)
  link : RootLink s L

theorem Iterable.iterates (h : Iterable s l L) (hfuel : l.length < fuel) : Iterates fuel s l := by
  have hlen : L.length < fuel := h.perm.length_eq ▸ hfuel
  obtain ⟨hright, hleft⟩ := h.link.iterate h.stands hlen
  refine ⟨L, hright, hleft, h.perm, fun w hwithin => ?_⟩
  exact TreeTimer.pairwise_of_window h.chain fun e he => hwithin e (h.perm.mem_iff.mp he)

theorem RootLink.setKey (h : RootLink s L) (x : ν) (k : UInt64) : RootLink (s.setKey x k) L := h

/-- An insertion that finds no link leaves none. -/
theorem Iterable.insert (h : Iterable s l L) {x : ν} {k : UInt64}
    (hadm : (Op.insert x k).AdmitsFirst fuel s l) (hfinds : (Op.insert x k).FindsNoLink s)
    (hfuel : l.length < fuel) :
    ∃ s' L', s.step keyLess fuel (.insert x k) = some s' ∧ Iterable s' (x :: l) L' := by
  have hx : x ∉ L := fun hmem => hadm.1 (h.perm.mem_iff.mp hmem)
  have hlen : L.length < fuel := h.perm.length_eq ▸ hfuel
  obtain ⟨s', p, q, hrun, hpq, hinserted⟩ :=
    (h.stands.setKey x k).inserted keyLess hx hadm.2 hlen
  have hperm : (p ++ q).Perm l := hpq ▸ h.perm
  have hkey : s'.mtKey = Function.update s.mtKey x k := hinserted.key
  refine ⟨s', p ++ x :: q, hrun, hinserted.stands, List.perm_middle.trans (hperm.cons x), ?_, ?_⟩
  · obtain ⟨hp, hq⟩ := hinserted.between
    rw [← hinserted.key] at hp hq
    have hsame : ∀ y, y ≠ x → s'.mtKey y = s.mtKey y := by
      intro y hy
      rw [hkey, Function.update_of_ne hy]
    exact TreeTimer.isChain_precedes_insert (hpq ▸ hx) hsame hp hq (hpq ▸ h.chain)
  · refine .inr (.inl (hinserted.top.trans ?_))
    split
    · rfl
    · rename_i hne
      rw [← hpq, ← h.stands.root_eq_sentinel_iff] at hne
      exact hfinds.resolve_left hne

/-- Deleting the first node. -/
theorem Iterable.delete (h : Iterable s l L) {x : ν}
    (hadm : (Op.delete x : Op ν UInt64).AdmitsFirst fuel s l) (hfuel : l.length < fuel) :
    ∃ s' L', s.step keyLess fuel (.delete x) = some s' ∧ Iterable s' (l.erase x) L' := by
  have hlen : L.length < fuel := h.perm.length_eq ▸ hfuel
  obtain ⟨hfirst, hxs⟩ := hadm
  cases L with
  | nil =>
    have hroot := h.stands.root_eq_sentinel_iff.mpr rfl
    obtain ⟨fuel, rfl⟩ : ∃ n, fuel = n + 1 := ⟨fuel - 1, by omega⟩
    simp only [seekToFirst, leftmost, outermost, hroot, if_true, Option.some.injEq] at hfirst
    exact absurd hfirst.symm hxs
  | cons y T =>
    simp only [List.length_cons] at hlen
    rw [h.stands.seekToFirst (by omega), Option.some_inj] at hfirst
    subst hfirst
    obtain ⟨s', hrun, hadvanced⟩ := h.stands.delete_first hlen
    refine ⟨s', T, hrun, hadvanced.stands, ?_, ?_, hadvanced.rootLink h.stands h.link⟩
    · have hperm := h.perm.erase y
      rwa [List.erase_cons_head] at hperm
    · rw [hadvanced.key]
      exact h.chain.tail

/-- An insertion that finds a link makes the iterator go astray. -/
theorem Iterable.not_iterates (h : Iterable s l L) {x : ν} {k : UInt64}
    (hadm : (Op.insert x k).AdmitsFirst fuel s l) (hfinds : ¬ (Op.insert x k).FindsNoLink s)
    (hfuel : l.length < fuel) (hrun : s.step keyLess fuel (.insert x k) = some s') :
    ¬ Iterates fuel s' (x :: l) := by
  rintro ⟨M, hright, hleft, hperm, -⟩
  obtain ⟨fuel, rfl⟩ : ∃ n, fuel = n + 1 := ⟨fuel - 1, by omega⟩
  obtain ⟨hroot, htop⟩ := not_or.mp hfinds
  have hne : L ≠ [] := fun hnil => hroot (h.stands.root_eq_sentinel_iff.mpr hnil)
  have hx : x ∉ L := fun hmem => hadm.1 (h.perm.mem_iff.mp hmem)
  obtain ⟨d, s₁, hrun₁, hlong⟩ := (h.link.setKey x k).insert_long keyLess fuel
    (h.stands.setKey x k) hne htop hx hadm.2
  have hs₁ : s₁ = s' := Option.some.inj (hrun₁.symm.trans hrun)
  subst hs₁
  have hlength : M.length = L.length + 1 := by
    rw [hperm.length_eq, List.length_cons, h.perm.length_eq]
  cases d with
  | left =>
    have hle := hlong _ hleft
    rw [List.length_reverse] at hle
    omega
  | right =>
    have hle := hlong _ hright
    omega

theorem Iterable.run {ops : List (Op ν UInt64)} (h : Iterable s l L)
    (hadm : Before fuel (fun s l op => op.AdmitsFirst fuel s l) s l ops)
    (hfuel : l.length + ops.length < fuel) :
    Throughout fuel (Iterates fuel) s l ops ↔ Before fuel (fun s _ op => op.FindsNoLink s) s l ops := by
  induction ops generalizing s l L with
  | nil => exact iff_of_true (h.iterates hfuel) trivial
  | cons op ops ih =>
    simp only [List.length_cons] at hfuel
    have hlen := length_leaves_le op l
    have hlt : l.length < fuel := by omega
    obtain ⟨hop, hadm⟩ := hadm
    -- what the two sides say of the rest, when a step keeps the invariant
    have hrest : ∀ {s' L'}, s.step keyLess fuel op = some s' → Iterable s' (op.leaves l) L' →
        op.FindsNoLink s → (Throughout fuel (Iterates fuel) s l (op :: ops) ↔
          Before fuel (fun s _ op => op.FindsNoLink s) s l (op :: ops)) := by
      intro s' L' hstep h' hfinds
      have hiff := ih h' (hadm s' hstep) (by omega)
      constructor
      · intro hthrough
        obtain ⟨-, s₁, hstep₁, hrest⟩ := hthrough
        refine ⟨hfinds, fun s₂ hstep₂ => ?_⟩
        rw [hstep] at hstep₁ hstep₂
        cases hstep₁
        cases hstep₂
        exact hiff.mp hrest
      · intro hbefore
        exact ⟨h.iterates hlt, s', hstep, hiff.mpr (hbefore.2 s' hstep)⟩
    cases op with
    | insert x k =>
      by_cases hfinds : (Op.insert x k).FindsNoLink s
      · obtain ⟨s', L', hstep, h'⟩ := h.insert hop hfinds hlt
        exact hrest hstep h' hfinds
      · refine iff_of_false (fun hthrough => ?_) fun hbefore => hfinds hbefore.1
        obtain ⟨-, s', hstep, hthrough⟩ := hthrough
        have hnot := h.not_iterates hop hfinds hlt hstep
        cases ops with
        | nil => exact hnot hthrough
        | cons op ops => exact hnot hthrough.1
    | delete x =>
      obtain ⟨s', L', hstep, h'⟩ := h.delete hop hlt
      exact hrest hstep h' trivial

/-- In every state of a history of insertions and deletions of the first node the iterators come
to all nodes and end, if and only if every insertion finds the tree empty or its root without
a parent link. -/
theorem iterates_run_iff (mtKey : ν → UInt64) (child : Side → ν → Option ν)
    (mpoParent : ν → Option ν) (mcColor : ν → Bool) (moSentinel : ν) (ops : List (Op ν UInt64))
    (fuel : Nat) (hadm : Before fuel (fun s l op => op.AdmitsFirst fuel s l)
      (init mtKey child mpoParent mcColor moSentinel) [] ops) (hfuel : ops.length < fuel) :
    Throughout fuel (Iterates fuel) (init mtKey child mpoParent mcColor moSentinel) [] ops ↔
      Before fuel (fun s _ op => op.FindsNoLink s) (init mtKey child mpoParent mcColor moSentinel)
        [] ops := by
  have hinit : Iterable (init mtKey child mpoParent mcColor moSentinel) [] [] :=
    ⟨stands_init .., .refl [], .nil, .inl rfl⟩
  exact hinit.run hadm (by simpa using hfuel)

/-- The state a history ends in is one of those reached. -/
theorem Throughout.last {P : CRBTree ν UInt64 → List ν → Prop} {ops : List (Op ν UInt64)}
    (h : Throughout fuel P s l ops) : ∃ s', s.run keyLess fuel ops = some s' ∧ P s' (inTree l ops) := by
  induction ops generalizing s l with
  | nil => exact ⟨s, rfl, h⟩
  | cons op ops ih =>
    obtain ⟨-, s₁, hstep, h⟩ := h
    obtain ⟨s', hrun, hlast⟩ := ih h
    refine ⟨s', ?_, hlast⟩
    rw [CRBTree.run, hstep, Option.bind_some, hrun]

end Histories

/-- The first of three nodes goes and comes back as the last. -/
def comesBack : List (Op Nat UInt64) :=
  [.insert 1 10, .insert 2 20, .insert 3 30, .delete 1, .insert 1 40]

theorem iterates_comesBack : Throughout 6 (Iterates 6) emptyTree [] comesBack ∧
    Before 6 (fun s _ op => op.FindsNoLink s) emptyTree [] comesBack := by
  have hnoLink : Before 6 (fun s _ op => op.FindsNoLink s) emptyTree [] comesBack := by
    refine ⟨.inl (by decide), fun s₁ h₁ => ?_⟩
    cases h₁
    refine ⟨.inr (by decide), fun s₂ h₂ => ?_⟩
    cases h₂
    refine ⟨.inr (by decide), fun s₃ h₃ => ?_⟩
    cases h₃
    refine ⟨trivial, fun s₄ h₄ => ?_⟩
    cases h₄
    exact ⟨.inr (by decide), fun _ _ => trivial⟩
  refine ⟨(iterates_run_iff _ _ _ _ 0 comesBack 6 ?_ (by decide)).mpr hnoLink, hnoLink⟩
  refine ⟨⟨by decide, by decide⟩, fun s₁ h₁ => ?_⟩
  cases h₁
  refine ⟨⟨by decide, by decide⟩, fun s₂ h₂ => ?_⟩
  cases h₂
  refine ⟨⟨by decide, by decide⟩, fun s₃ h₃ => ?_⟩
  cases h₃
  refine ⟨⟨by decide, by decide⟩, fun s₄ h₄ => ?_⟩
  cases h₄
  exact ⟨⟨by decide, by decide⟩, fun _ _ => trivial⟩

/-- The root goes from the front of another node, and a third node comes. -/
def rootGoes : List (Op Nat UInt64) :=
  [.insert 1 10, .insert 2 20, .delete 1, .insert 3 30]

/-- `Next` leads from node 3 to node 1, which has been deleted, and from there nowhere. -/
theorem not_iterates_rootGoes :
    Before 5 (fun s l op => op.AdmitsFirst 5 s l) emptyTree [] rootGoes ∧
      (emptyTree.run keyLess 5 rootGoes).any (fun s => s.advance .right 5 3 = some 1 ∧
        s.advance .right 5 1 = none) = true ∧
      ¬ Throughout 5 (Iterates 5) emptyTree [] rootGoes := by
  refine ⟨?_, by decide, fun hthrough => ?_⟩
  · refine ⟨⟨by decide, by decide⟩, fun s₁ h₁ => ?_⟩
    cases h₁
    refine ⟨⟨by decide, by decide⟩, fun s₂ h₂ => ?_⟩
    cases h₂
    refine ⟨⟨by decide, by decide⟩, fun s₃ h₃ => ?_⟩
    cases h₃
    exact ⟨⟨by decide, by decide⟩, fun _ _ => trivial⟩
  · obtain ⟨s, hrun, L, hright, -⟩ := hthrough.last
    have hnone : (emptyTree.run keyLess 5 rootGoes).any (fun s => s.iterate .right 5 = none) =
        true := by decide
    rw [hrun, Option.any_some, decide_eq_true_iff, hright] at hnone
    cases hnone

end CRBTree

end Netfram
