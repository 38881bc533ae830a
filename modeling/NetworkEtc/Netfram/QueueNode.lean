-- SUMMARY: The nodes of intrusive rings with their links: what each operation makes of the lists.
import NetworkEtc.Library.Cycle
import NetworkEtc.Netfram.EventPosted

/-!
# `CQueueNode`

A node is the head of a list, or in a list. Nothing but its use tells which.
-/

namespace Netfram

open Library

/-- The fields of all nodes; a pointer that is `NULL` is `none`. -/
structure CQueueNode (α : Type) where
  mpoNext : α → Option α
  mpoPrev : α → Option α
  mbIn : α → Bool

namespace CQueueNode

variable {α : Type} [DecidableEq α]

def next (q : CQueueNode α) (node : α) (value : Option α) : CQueueNode α :=
  { q with mpoNext := fun m => if m = node then value else q.mpoNext m }

def prev (q : CQueueNode α) (node : α) (value : Option α) : CQueueNode α :=
  { q with mpoPrev := fun m => if m = node then value else q.mpoPrev m }

def setIn (q : CQueueNode α) (node : α) (value : Bool) : CQueueNode α :=
  { q with mbIn := fun m => if m = node then value else q.mbIn m }

/-- `Init` -/
def init (q : CQueueNode α) (self : α) : CQueueNode α :=
  ((q.prev self (some self)).next self (some self)).setIn self false

/-- `InsertAM` -/
def insertAM (q : CQueueNode α) (self apoNode : α) : Option (CQueueNode α) := do
  let q := q.next apoNode (q.mpoNext self)
  let q := q.prev apoNode (some self)
  let q := q.prev (← q.mpoNext self) (some apoNode)
  let q := q.next self (some apoNode)
  return q.setIn apoNode true

/-- `InsertBM` -/
def insertBM (q : CQueueNode α) (self apoNode : α) : Option (CQueueNode α) := do
  let q := q.next apoNode (some self)
  let q := q.prev apoNode (q.mpoPrev self)
  let q := q.next (← q.mpoPrev self) (some apoNode)
  let q := q.prev self (some apoNode)
  return q.setIn apoNode true

/-- `Remove` -/
def remove (q : CQueueNode α) (apoNode : α) : Option (Bool × CQueueNode α) :=
  if q.mbIn apoNode then do
    let q := q.prev (← q.mpoNext apoNode) (q.mpoPrev apoNode)
    let q := q.next (← q.mpoPrev apoNode) (q.mpoNext apoNode)
    let q := q.next apoNode none
    let q := q.prev apoNode none
    return (true, q.setIn apoNode false)
  else some (false, q)

/-- `Join` -/
def join (q : CQueueNode α) (self apoNode : α) : Option (CQueueNode α) := do
  let q := q.next (← q.mpoPrev self) (q.mpoNext apoNode)
  let q := q.prev (← q.mpoNext apoNode) (q.mpoPrev self)
  let q := q.prev self (q.mpoPrev apoNode)
  let q := q.next (← q.mpoPrev self) (some self)
  return q.init apoNode

/-- `Split` -/
def split (q : CQueueNode α) (apoSource apoPose apoDest : α) : Option (CQueueNode α) := do
  let q := q.prev apoDest (q.mpoPrev apoSource)
  let q := q.next (← q.mpoPrev apoDest) (some apoDest)
  let q := q.next apoDest (some apoPose)
  let q := q.prev apoSource (q.mpoPrev apoPose)
  let q := q.next (← q.mpoPrev apoSource) (some apoSource)
  return q.prev apoPose (some apoDest)

/-- The list with this head: its nodes are in a list, and the head is not. -/
structure Holds (q : CQueueNode α) (head : α) (l : List α) : Prop where
  ring : Ring q.mpoNext q.mpoPrev head l
  head_out : q.mbIn head = false
  nodes_in : ∀ a ∈ l, q.mbIn a = true

variable {q q' : CQueueNode α} {head self node : α} {l l' l₁ l₂ : List α}

/-- The marks of a list that a node has been put in. -/
theorem Holds.marks (h : q.Holds head l) (hnode : node ∉ head :: l) (hperm : l'.Perm (node :: l))
    (hring : Ring q'.mpoNext q'.mpoPrev head l')
    (hin : ∀ m, q'.mbIn m = if m = node then true else q.mbIn m) : q'.Holds head l' := by
  refine ⟨hring, ?_, fun a ha => ?_⟩
  · rw [hin, if_neg fun heq : head = node => hnode (heq ▸ List.mem_cons_self)]
    exact h.head_out
  · rw [hin]
    split
    · rfl
    · next hne => exact h.nodes_in a (List.mem_of_ne_of_mem hne (hperm.subset ha))

theorem Holds.insertAM (h : q.Holds head l) (hnode : node ∉ head :: l)
    (hself : head :: l = l₁ ++ self :: l₂) (hl' : head :: l' = l₁ ++ self :: node :: l₂) :
    ∃ q', q.insertAM self node = some q' ∧ q'.Holds head l' := by
  obtain ⟨y, k, hy⟩ := List.exists_cons_of_ne_nil (List.append_ne_nil_of_right_ne_nil l₂
    (List.cons_ne_nil head []))
  have hcut : head :: l ++ [head] = l₁ ++ self :: y :: k := by
    rw [hself, List.append_assoc, List.cons_append, hy]
  have hcut' : head :: l' ++ [head] = l₁ ++ self :: node :: y :: k := by
    rw [hl', List.append_assoc, List.cons_append, List.cons_append, hy]
  have hperm : l'.Perm (node :: l) := by
    have hmiddle : (head :: l').Perm (node :: head :: l) := by
      rw [hl', hself, List.append_cons, List.append_cons l₁ self l₂]
      exact List.perm_middle
    exact (hmiddle.trans (List.Perm.swap head node l)).cons_inv
  have hself_ne : self ≠ node := fun heq => hnode (heq ▸ hself ▸ by simp)
  obtain ⟨hlink, -⟩ := h.ring.link hcut
  have hnext : ((q.next node (q.mpoNext self)).prev node (some self)).mpoNext self = some y := by
    simp [next, prev, hself_ne, hlink]
  refine ⟨_, by simp only [CQueueNode.insertAM, hnext]; rfl, ?_⟩
  refine h.marks hnode hperm ?_ fun m => rfl
  refine h.ring.insertAt hcut hcut' hnode (fun z => ?_) fun z => ?_
  · simp only [next, prev, setIn, hlink]
  · simp only [next, prev, setIn]

theorem Holds.insertBM (h : q.Holds head l) (hnode : node ∉ head :: l)
    (hself : l ++ [head] = l₁ ++ self :: l₂) (hl' : l' ++ [head] = l₁ ++ node :: self :: l₂) :
    ∃ q', q.insertBM self node = some q' ∧ q'.Holds head l' := by
  obtain ⟨k, x, hx⟩ : ∃ k x, head :: l₁ = k ++ [x] :=
    ⟨_, _, (List.dropLast_append_getLast (List.cons_ne_nil head l₁)).symm⟩
  have hcut : head :: l ++ [head] = k ++ x :: self :: l₂ := by
    rw [List.cons_append, hself, ← List.cons_append, hx, List.append_assoc, List.singleton_append]
  have hcut' : head :: l' ++ [head] = k ++ x :: node :: self :: l₂ := by
    rw [List.cons_append, hl', ← List.cons_append, hx, List.append_assoc, List.singleton_append]
  have hperm : l'.Perm (node :: l) := by
    apply (List.perm_append_right_iff [head]).mp
    rw [hl', List.cons_append, hself]
    exact List.perm_middle
  have hself_ne : self ≠ node := by
    have hmem : self ∈ l ++ [head] := by simp [hself]
    rintro rfl
    exact hnode ((List.perm_append_singleton head l).subset hmem)
  obtain ⟨-, hlink⟩ := h.ring.link hcut
  have hprev : ((q.next node (some self)).prev node (q.mpoPrev self)).mpoPrev self = some x := by
    simp [next, prev, hself_ne, hlink]
  have hprev' : (q.next node (some self)).mpoPrev self = q.mpoPrev self := rfl
  refine ⟨_, by simp only [CQueueNode.insertBM, hprev', hprev]; rfl, ?_⟩
  refine h.marks hnode hperm ?_ fun m => rfl
  refine h.ring.insertAt hcut hcut' hnode (fun z => ?_) fun z => ?_
  · simp only [next, prev, setIn]
  · simp only [next, prev, setIn, hlink]

theorem Holds.remove (h : q.Holds head (l₁ ++ node :: l₂)) :
    ∃ q', q.remove node = some (true, q') ∧ q'.Holds head (l₁ ++ l₂) := by
  obtain ⟨n, p, hn, hp, hnne, hpne⟩ := h.ring.neighbours
  have hin : q.mbIn node = true := h.nodes_in node (by simp)
  have hprev : (q.prev n (q.mpoPrev node)).mpoPrev node = some p := by
    simp [prev, hnne.symm, hp]
  have hnext : (q.prev n (q.mpoPrev node)).mpoNext node = some n := hn
  refine ⟨_, by simp only [CQueueNode.remove, hin, hn, if_true, Option.bind_eq_bind,
    Option.bind_some, hprev, hnext]; rfl, ?_, ?_, ?_⟩
  · refine h.ring.remove (fun z hz => ?_) fun z hz => ?_
    · have hne := h.ring.ne_of_mem hz
      rw [hp, hn]
      simp only [next, prev, setIn, if_neg hne, Option.some.injEq, @eq_comm _ p z]
    · have hne := h.ring.ne_of_mem hz
      rw [hn, hp]
      simp only [next, prev, setIn, if_neg hne, Option.some.injEq, @eq_comm _ n z]
  · have hne := h.ring.ne_of_mem List.mem_cons_self
    exact (if_neg hne).trans h.head_out
  · intro a ha
    have hne := h.ring.ne_of_mem (List.mem_cons_of_mem head ha)
    refine (if_neg hne).trans (h.nodes_in a ?_)
    rw [List.append_cons, List.mem_append, List.mem_append]
    rcases List.mem_append.mp ha with ha | ha
    · exact Or.inl (Or.inl ha)
    · exact Or.inr ha

/-- What `Join` writes, with the last node `x` of the list, the first node `f` of the other and the
last node `y` of both. -/
theorem join_eq {head' x f y : α} (hprev : q.mpoPrev head = some x)
    (hnext : q.mpoNext head' = some f)
    (hlast : (if head' = f then some x else q.mpoPrev head') = some y) (hx : x ≠ head') :
    ∃ q', q.join head head' = some q' ∧
      (∀ z, q'.mpoNext z = if z = head' then some head' else if z = y then some head
        else if z = x then some f else q.mpoNext z) ∧
      (∀ z, q'.mpoPrev z = if z = head' then some head' else if z = head then some y
        else if z = f then some x else q.mpoPrev z) ∧
      ∀ z, q'.mbIn z = if z = head' then false else q.mbIn z := by
  have hfirst : (q.next x (q.mpoNext head')).mpoNext head' = some f := (if_neg hx.symm).trans hnext
  have hprev₁ : (q.next x (q.mpoNext head')).mpoPrev head = some x := hprev
  have hlast' : ((q.next x (q.mpoNext head')).prev f (some x)).mpoPrev head' = some y := hlast
  have hlast'' : (((q.next x (q.mpoNext head')).prev f (some x)).prev head (some y)).mpoPrev head =
    some y := if_pos rfl
  refine ⟨_, by simp only [CQueueNode.join, hprev, Option.bind_eq_bind, Option.bind_some,
    hfirst, hprev₁, hlast', hlast'']; rfl, fun z => ?_, fun z => rfl, fun z => rfl⟩
  simp only [init, next, prev, setIn, hnext]

theorem Holds.join {head' : α} (h : q.Holds head l) (h' : q.Holds head' l')
    (hdisj : ∀ z ∈ head :: l, z ∉ head' :: l') :
    ∃ q', q.join head head' = some q' ∧ q'.Holds head (l ++ l') ∧ q'.Holds head' [] := by
  obtain ⟨k, x, hx⟩ : ∃ k x, head :: l = k ++ [x] :=
    ⟨_, _, (List.dropLast_append_getLast (List.cons_ne_nil head l)).symm⟩
  have hprev : q.mpoPrev head = some x := by
    rw [h.ring.prev_head, hx, List.getLast?_concat]
  have hne : ∀ z ∈ head :: l, z ≠ head' := fun z hz heq => hdisj z hz (heq ▸ List.mem_cons_self)
  have hhead := hne head List.mem_cons_self
  have hxne := hne x (hx ▸ by simp)
  have hmarks : ∀ z ∈ l ++ l', z ≠ head' ∧ q.mbIn z = true := by
    intro z hz
    rcases List.mem_append.mp hz with hz | hz
    · exact ⟨hne z (List.mem_cons_of_mem head hz), h.nodes_in z hz⟩
    · exact ⟨fun heq => (List.nodup_cons.mp h'.ring.nodup).1 (heq ▸ hz), h'.nodes_in z hz⟩
  -- the ring of the list is what is left to show
  have hjoin : ∀ q' : CQueueNode α, q'.mpoNext head' = some head' → q'.mpoPrev head' = some head' →
      (∀ z, q'.mbIn z = if z = head' then false else q.mbIn z) →
      Ring q'.mpoNext q'.mpoPrev head (l ++ l') → q'.Holds head (l ++ l') ∧ q'.Holds head' [] := by
    intro q' hnext' hprev' hin hring
    refine ⟨⟨hring, ?_, fun z hz => ?_⟩, ⟨Ring.nil hnext' hprev', ?_, nofun⟩⟩
    · rw [hin, if_neg hhead]
      exact h.head_out
    · rw [hin, if_neg (hmarks z hz).1]
      exact (hmarks z hz).2
    · rw [hin, if_pos rfl]
  cases l' with
  | nil =>
    have hnext' : q.mpoNext head' = some head' := h'.ring.next_head
    obtain ⟨q', hq', hnext, hprev'', hin⟩ := q.join_eq hprev hnext' (if_pos rfl) hxne
    refine ⟨q', hq', hjoin q' ((hnext head').trans (if_pos rfl))
      ((hprev'' head').trans (if_pos rfl)) hin ?_⟩
    rw [List.append_nil]
    refine h.ring.congr (fun z hz => ?_) fun z hz => ?_
    · rw [hnext, if_neg (hne z hz)]
      split
      · next heq => rw [heq, h.ring.next_last hprev]
      · rfl
    · rw [hprev'', if_neg (hne z hz), if_neg (hne z hz)]
      split
      · next heq => rw [heq, hprev]
      · rfl
  | cons f t =>
    obtain ⟨k', y, hy⟩ : ∃ k y, f :: t = k ++ [y] :=
      ⟨_, _, (List.dropLast_append_getLast (List.cons_ne_nil f t)).symm⟩
    have hnext' : q.mpoNext head' = some f := h'.ring.next_head
    have hprev' : q.mpoPrev head' = some y := by
      rw [h'.ring.prev_head, hy, ← List.cons_append, List.getLast?_concat]
    have hf : head' ≠ f := by
      rintro rfl
      exact (List.nodup_cons.mp h'.ring.nodup).1 List.mem_cons_self
    obtain ⟨q', hq', hnext, hprev'', hin⟩ := q.join_eq hprev hnext' ((if_neg hf).trans hprev') hxne
    refine ⟨q', hq', hjoin q' ((hnext head').trans (if_pos rfl))
      ((hprev'' head').trans (if_pos rfl)) hin ?_⟩
    refine h.ring.join h'.ring hdisj hx rfl hy (fun z hz => ?_) fun z hz => ?_
    · rw [hnext, if_neg hz]
    · rw [hprev'', if_neg hz]

/-- What `Split` writes, with the last node `y` of the list and the node `x` in front of the cut. -/
theorem split_eq {pose dest x y : α} (hprev : q.mpoPrev head = some y)
    (hpose : q.mpoPrev pose = some x) (hpose_ne : pose ≠ dest) :
    ∃ q', q.split head pose dest = some q' ∧
      (∀ z, q'.mpoNext z = if z = x then some head else if z = dest then some pose
        else if z = y then some dest else q.mpoNext z) ∧
      (∀ z, q'.mpoPrev z = if z = pose then some dest else if z = head then some x
        else if z = dest then some y else q.mpoPrev z) ∧
      ∀ z, q'.mbIn z = q.mbIn z := by
  have hlast : (q.prev dest (some y)).mpoPrev dest = some y := if_pos rfl
  have hpose' : (((q.prev dest (some y)).next y (some dest)).next dest (some pose)).mpoPrev pose =
    some x := (if_neg hpose_ne).trans hpose
  have hsource : ((((q.prev dest (some y)).next y (some dest)).next dest (some pose)).prev head
    (some x)).mpoPrev head = some x := if_pos rfl
  have hsplit : q.split head pose dest =
      some ((((((q.prev dest (some y)).next y (some dest)).next dest (some pose)).prev head
        (some x)).next x (some head)).prev pose (some dest)) := by
    simp only [CQueueNode.split, Option.bind_eq_bind, hprev, hlast, Option.bind_some, hpose',
      hsource]
    rfl
  exact ⟨_, hsplit, fun z => rfl, fun z => rfl, fun z => rfl⟩

theorem Holds.split {dest pose : α} (h : q.Holds head (l₁ ++ pose :: l₂)) (hdest : q.Holds dest l')
    (hnot : dest ∉ head :: (l₁ ++ pose :: l₂)) :
    ∃ q', q.split head pose dest = some q' ∧ q'.Holds head l₁ ∧ q'.Holds dest (pose :: l₂) := by
  obtain ⟨k₁, x, hx⟩ : ∃ k x, head :: l₁ = k ++ [x] :=
    ⟨_, _, (List.dropLast_append_getLast (List.cons_ne_nil head l₁)).symm⟩
  obtain ⟨k₂, y, hy⟩ : ∃ k y, pose :: l₂ = k ++ [y] :=
    ⟨_, _, (List.dropLast_append_getLast (List.cons_ne_nil pose l₂)).symm⟩
  have hprev : q.mpoPrev head = some y := by
    rw [h.ring.prev_head, hy, ← List.append_assoc, ← List.cons_append, List.getLast?_concat]
  have hpose : q.mpoPrev pose = some x := by
    rw [h.ring.prev_eq, hx, List.getLast?_concat]
  have hpose_ne : pose ≠ dest := by
    rintro rfl
    exact hnot (by simp)
  obtain ⟨q', hq', hnext, hprev', hin⟩ := q.split_eq hprev hpose hpose_ne
  obtain ⟨hring, hring'⟩ := h.ring.split hnot hx hy hnext hprev'
  refine ⟨q', hq', ⟨hring, ?_, fun z hz => ?_⟩, ⟨hring', ?_, fun z hz => ?_⟩⟩
  · rw [hin]
    exact h.head_out
  · rw [hin]
    exact h.nodes_in z (List.mem_append_left _ hz)
  · rw [hin]
    exact hdest.head_out
  · rw [hin]
    exact h.nodes_in z (List.mem_append_right _ hz)

/-- What the operations make of a list. Behind the last node, and in front of the first, the head
stands for the node that is given. -/
theorem Holds.operations (h : q.Holds head l) :
    (∀ self node l₁ l₂ l', node ∉ head :: l → head :: l = l₁ ++ self :: l₂ →
      head :: l' = l₁ ++ self :: node :: l₂ →
      ∃ q', q.insertAM self node = some q' ∧ q'.Holds head l') ∧
    (∀ self node l₁ l₂ l', node ∉ head :: l → l ++ [head] = l₁ ++ self :: l₂ →
      l' ++ [head] = l₁ ++ node :: self :: l₂ →
      ∃ q', q.insertBM self node = some q' ∧ q'.Holds head l') ∧
    (∀ node l₁ l₂, l = l₁ ++ node :: l₂ →
      ∃ q', q.remove node = some (true, q') ∧ q'.Holds head (l₁ ++ l₂)) ∧
    (∀ head' l', q.Holds head' l' → (∀ z ∈ head :: l, z ∉ head' :: l') →
      ∃ q', q.join head head' = some q' ∧ q'.Holds head (l ++ l') ∧ q'.Holds head' []) ∧
    ∀ pose dest l₁ l₂ l', l = l₁ ++ pose :: l₂ → q.Holds dest l' → dest ∉ head :: l →
      ∃ q', q.split head pose dest = some q' ∧ q'.Holds head l₁ ∧ q'.Holds dest (pose :: l₂) ∧
        ∃ q'', q'.join head dest = some q'' ∧ q''.Holds head l ∧ q''.Holds dest [] := by
  refine ⟨fun self node l₁ l₂ l' => h.insertAM, fun self node l₁ l₂ l' => h.insertBM, ?_,
    fun head' l' => h.join, ?_⟩
  · rintro node l₁ l₂ rfl
    exact h.remove
  · rintro pose dest l₁ l₂ l' rfl hdest hnot
    obtain ⟨q', hsplit, hfront, hback⟩ := h.split hdest hnot
    have hdisj : ∀ z ∈ head :: l₁, z ∉ dest :: (pose :: l₂) := by
      intro z hz hz'
      have hnodup := h.ring.nodup
      rw [← List.cons_append, List.nodup_append] at hnodup
      rcases List.mem_cons.mp hz' with rfl | hz'
      · exact hnot (List.mem_append_left (pose :: l₂) hz)
      · exact hnodup.2.2 z hz z hz' rfl
    exact ⟨q', hsplit, hfront, hback, hfront.join hback hdisj⟩

/-- The lists 1, 2, 3 of the head 0 and 11, 12 of the head 10, and the empty one of the head 20. -/
def threeLists : CQueueNode Nat where
  mpoNext := fun node =>
    [(0, 1), (1, 2), (2, 3), (3, 0), (10, 11), (11, 12), (12, 10), (20, 20)].lookup node
  mpoPrev := fun node =>
    [(0, 3), (3, 2), (2, 1), (1, 0), (10, 12), (12, 11), (11, 10), (20, 20)].lookup node
  mbIn := fun node => node ∈ [1, 2, 3, 11, 12]

theorem threeLists_holds : threeLists.Holds 0 [1, 2, 3] ∧ threeLists.Holds 10 [11, 12] ∧
    threeLists.Holds 20 [] := by
  refine ⟨⟨⟨?_, ?_, by decide⟩, rfl, by decide⟩, ⟨⟨?_, ?_, by decide⟩, rfl, by decide⟩,
    Ring.nil rfl rfl, rfl, nofun⟩
  · exact ⟨rfl, rfl, rfl, rfl, rfl⟩
  · exact ⟨rfl, rfl, rfl, rfl, rfl⟩
  · exact ⟨rfl, rfl, rfl, rfl⟩
  · exact ⟨rfl, rfl, rfl, rfl⟩

theorem operations_threeLists :
    (∃ q', threeLists.insertAM 1 4 = some q' ∧ q'.Holds 0 [1, 4, 2, 3]) ∧
    (∃ q', threeLists.insertBM 1 4 = some q' ∧ q'.Holds 0 [4, 1, 2, 3]) ∧
    (∃ q', threeLists.remove 2 = some (true, q') ∧ q'.Holds 0 [1, 3]) ∧
    (∃ q', threeLists.join 0 10 = some q' ∧ q'.Holds 0 [1, 2, 3, 11, 12] ∧ q'.Holds 10 []) ∧
    ∃ q', threeLists.split 0 2 20 = some q' ∧ q'.Holds 0 [1] ∧ q'.Holds 20 [2, 3] ∧
      ∃ q'', q'.join 0 20 = some q'' ∧ q''.Holds 0 [1, 2, 3] ∧ q''.Holds 20 [] := by
  obtain ⟨h, h', hnone⟩ := threeLists_holds
  obtain ⟨hafter, hbefore, hremove, hjoin, hsplit⟩ := h.operations
  exact ⟨hafter 1 4 [0] [2, 3] _ (by decide) rfl rfl,
    hbefore 1 4 [] [2, 3, 0] _ (by decide) rfl rfl,
    hremove 2 [1] [3] rfl,
    hjoin 10 [11, 12] h' (by decide),
    hsplit 2 20 [1] [3] [] rfl hnone (by decide)⟩

/-! # The queue of posted events -/

variable {ν : Type} [DecidableEq ν]

/-- The queue of `CEventPosted`, as nodes. -/
def ofQueue (q : Queue ν) : CQueueNode (QueueNode ν) := ⟨q.mpoNext, q.mpoPrev, q.mbIn⟩

theorem ofQueue_insertBM (q : Queue ν) (self node : QueueNode ν) :
    (ofQueue q).insertBM self node = (q.insertBM self node).map ofQueue := by
  unfold insertBM Queue.insertBM
  simp only [Option.bind_eq_bind]
  split
  · next hprev =>
    have hnone : (((ofQueue q).next node (some self)).prev node
        (((ofQueue q).next node (some self)).mpoPrev self)).mpoPrev self = none := hprev
    rw [hnone]
    rfl
  · next p hprev =>
    have hsome : (((ofQueue q).next node (some self)).prev node
        (((ofQueue q).next node (some self)).mpoPrev self)).mpoPrev self = some p := hprev
    rw [hsome]
    rfl

theorem ofQueue_remove (q : Queue ν) (node : QueueNode ν) :
    ((ofQueue q).remove node).map Prod.snd = (q.remove node).map ofQueue := by
  unfold remove Queue.remove
  by_cases hin : q.mbIn node = true
  · have hin' : (ofQueue q).mbIn node = true := hin
    rw [if_pos hin, if_pos hin']
    split
    · next hnext =>
      have hnone : (ofQueue q).mpoNext node = none := hnext
      rw [hnone]
      rfl
    · next n hnext =>
      have hsome : (ofQueue q).mpoNext node = some n := hnext
      rw [hsome]
      simp only [Option.bind_eq_bind, Option.bind_some]
      split
      · next hprev =>
        have hnone : ((ofQueue q).prev n ((ofQueue q).mpoPrev node)).mpoPrev node = none := hprev
        rw [hnone]
        rfl
      · next p hprev =>
        have hsome' : ((ofQueue q).prev n ((ofQueue q).mpoPrev node)).mpoPrev node = some p := hprev
        rw [hsome']
        rfl
  · have hin' : ¬ (ofQueue q).mbIn node = true := hin
    rw [if_neg hin, if_neg hin']
    rfl

end CQueueNode

end Netfram
