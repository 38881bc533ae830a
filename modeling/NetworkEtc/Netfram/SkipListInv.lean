-- SUMMARY: What a skip list stands for, and that inserting and deleting by key keep every level, the backward links, the tail, the length and the level.
import Mathlib.Data.List.TakeWhile
import NetworkEtc.Library.Links
import NetworkEtc.Library.Machine
import NetworkEtc.Netfram.SkipList

/-!
# The invariant of the skip list

A list `L` of nodes, sorted by falling key, stands behind the memory: the chain at
level `i` is the nodes of `L` that are higher than `i`. A search for `k` splits `L`
into the nodes above `k` and the others, and ends on every level at the last node
above `k`; inserting and deleting then happen on every level at that place.
-/

namespace Netfram

open Library

namespace CSkipList

variable {ν K V : Type} [DecidableEq ν] [LinearOrder K]

-- ---------------------------------------------------------------------------
-- Writing to the memory
-- ---------------------------------------------------------------------------

section Memory

variable (mem : ν → SkipNode ν K V) (x y : ν) (i j : Nat) (p : Option ν)
omit [LinearOrder K]

theorem setNext_nexts : (setNext mem x i p y).mapoNexts j =
    if y = x ∧ j = i then p else (mem y).mapoNexts j := by
  unfold setNext
  by_cases hy : y = x
  · subst hy
    by_cases hj : j = i
    · simp [hj]
    · simp [hj]
  · simp [hy]

@[simp] theorem setNext_key : (setNext mem x i p y).mtKey = (mem y).mtKey := by
  unfold setNext
  by_cases hy : y = x
  · simp [hy]
  · simp [hy]

@[simp] theorem setNext_level : (setNext mem x i p y).miLevel = (mem y).miLevel := by
  unfold setNext
  by_cases hy : y = x
  · simp [hy]
  · simp [hy]

@[simp] theorem setNext_prev : (setNext mem x i p y).mpoPrev = (mem y).mpoPrev := by
  unfold setNext
  by_cases hy : y = x
  · simp [hy]
  · simp [hy]

theorem setPrev_prev : (setPrev mem x p y).mpoPrev = if y = x then p else (mem y).mpoPrev := by
  unfold setPrev
  by_cases hy : y = x
  · simp [hy]
  · simp [hy]

@[simp] theorem setPrev_key : (setPrev mem x p y).mtKey = (mem y).mtKey := by
  unfold setPrev
  by_cases hy : y = x
  · simp [hy]
  · simp [hy]

@[simp] theorem setPrev_level : (setPrev mem x p y).miLevel = (mem y).miLevel := by
  unfold setPrev
  by_cases hy : y = x
  · simp [hy]
  · simp [hy]

@[simp] theorem setPrev_nexts : (setPrev mem x p y).mapoNexts = (mem y).mapoNexts := by
  unfold setPrev
  by_cases hy : y = x
  · simp [hy]
  · simp [hy]

end Memory

/-- Two memories with the same keys and heights. -/
def SameNodes (mem mem' : ν → SkipNode ν K V) : Prop :=
  ∀ y, (mem' y).mtKey = (mem y).mtKey ∧ (mem' y).miLevel = (mem y).miLevel

-- ---------------------------------------------------------------------------
-- The invariant
-- ---------------------------------------------------------------------------

/-- The nodes of `L` that are higher than `i`. -/
def atLevel (mem : ν → SkipNode ν K V) (i : Nat) (L : List ν) : List ν :=
  L.filter fun x => i < (mem x).miLevel

/-- The memory stands for the list `L`. -/
structure Stands (maxLvl : Nat) (s : CSkipList ν K V) (L : List ν) : Prop where
  nodup : (s.mpoHead :: L).Nodup
  sorted : L.Pairwise fun x y => (s.mem y).mtKey ≤ (s.mem x).mtKey
  heights : ∀ x ∈ L, 1 ≤ (s.mem x).miLevel ∧ (s.mem x).miLevel ≤ maxLvl
  chains : ∀ i < maxLvl, Seg (fun x => (s.mem x).mapoNexts i) (some s.mpoHead)
    (s.mpoHead :: atLevel s.mem i L) none
  prevs : Seg (fun x => (s.mem x).mpoPrev) s.mpoTail L.reverse none
  length_eq : s.miLength = L.length
  level_pos : 1 ≤ s.miLevel
  level_le : s.miLevel ≤ maxLvl
  heights_le : ∀ x ∈ L, (s.mem x).miLevel ≤ s.miLevel
  level_used : 1 < s.miLevel → ∃ x ∈ L, (s.mem x).miLevel = s.miLevel

/-- The nodes of `L` above `k`. -/
def above (mem : ν → SkipNode ν K V) (k : K) (L : List ν) : List ν :=
  L.takeWhile fun x => k < (mem x).mtKey

/-- The nodes of `L` from the first that is not above `k`. -/
def notAbove (mem : ν → SkipNode ν K V) (k : K) (L : List ν) : List ν :=
  L.dropWhile fun x => k < (mem x).mtKey

/-- The node in front of the place of `k` on level `i`. -/
def pred (s : CSkipList ν K V) (k : K) (L : List ν) (i : Nat) : ν :=
  (s.mpoHead :: atLevel s.mem i (above s.mem k L)).getLast (List.cons_ne_nil _ _)

variable {maxLvl : Nat} {s : CSkipList ν K V} {L : List ν}

section Search

omit [DecidableEq ν]

theorem above_append_notAbove (mem : ν → SkipNode ν K V) (k : K) (L : List ν) :
    above mem k L ++ notAbove mem k L = L :=
  List.takeWhile_append_dropWhile

theorem mem_above {mem : ν → SkipNode ν K V} {k : K} {x : ν} (h : x ∈ above mem k L) :
    x ∈ L ∧ k < (mem x).mtKey :=
  ⟨(List.takeWhile_sublist _).subset h, by simpa using List.mem_takeWhile_imp h⟩

theorem mem_of_mem_notAbove {mem : ν → SkipNode ν K V} {k : K} {x : ν}
    (h : x ∈ notAbove mem k L) : x ∈ L :=
  (List.dropWhile_sublist _).subset h

omit [LinearOrder K] in
theorem atLevel_append (mem : ν → SkipNode ν K V) (i : Nat) (A B : List ν) :
    atLevel mem i (A ++ B) = atLevel mem i A ++ atLevel mem i B :=
  List.filter_append ..

omit [LinearOrder K] in
theorem mem_atLevel {mem : ν → SkipNode ν K V} {i : Nat} {x : ν} :
    x ∈ atLevel mem i L ↔ x ∈ L ∧ i < (mem x).miLevel := by
  simp [atLevel]

/-- In a sorted list nothing after the nodes above `k` is above `k`. -/
theorem Stands.notAbove_le (h : Stands maxLvl s L) {k : K} {x : ν}
    (hx : x ∈ notAbove s.mem k L) : (s.mem x).mtKey ≤ k := by
  have hsorted : (notAbove s.mem k L).Pairwise fun x y => (s.mem y).mtKey ≤ (s.mem x).mtKey :=
    h.sorted.sublist (List.dropWhile_sublist _)
  cases hB : notAbove s.mem k L with
  | nil =>
    rw [hB] at hx
    cases hx
  | cons b B =>
    have hb : (s.mem b).mtKey ≤ k := by
      have hhead := List.head?_dropWhile_not (fun x => decide (k < (s.mem x).mtKey)) L
      rw [← notAbove, hB] at hhead
      simpa using hhead
    rw [hB] at hsorted hx
    rcases List.mem_cons.mp hx with rfl | hx
    · exact hb
    · exact le_trans (List.rel_of_pairwise_cons hsorted hx) hb

/-- The chain of level `i`, cut at the place of `k`. -/
theorem Stands.chain_cut (h : Stands maxLvl s L) (k : K) {i : Nat} (hi : i < maxLvl) :
    Seg (fun x => (s.mem x).mapoNexts i) (some s.mpoHead)
      ((s.mpoHead :: atLevel s.mem i (above s.mem k L)) ++
        atLevel s.mem i (notAbove s.mem k L)) none := by
  have hchain := h.chains i hi
  rw [← above_append_notAbove s.mem k L, atLevel_append] at hchain
  exact hchain

/-- The nodes above `k` on level `i`: those in front of the last one, and the last. -/
theorem exists_front (s : CSkipList ν K V) (k : K) (L : List ν) (i : Nat) :
    ∃ P, s.mpoHead :: atLevel s.mem i (above s.mem k L) = P ++ [pred s k L i] :=
  ⟨_, (List.dropLast_append_getLast (List.cons_ne_nil _ _)).symm⟩

theorem Stands.pred_next (h : Stands maxLvl s L) (k : K) {i : Nat} (hi : i < maxLvl) :
    (s.mem (pred s k L i)).mapoNexts i = (atLevel s.mem i (notAbove s.mem k L)).head? := by
  obtain ⟨P, hP⟩ := exists_front s k L i
  have hcut := h.chain_cut k hi
  rw [hP, List.append_assoc] at hcut
  exact hcut.next_eq

theorem pred_cases (s : CSkipList ν K V) (k : K) (L : List ν) (i : Nat) :
    pred s k L i = s.mpoHead ∨
      (pred s k L i ∈ above s.mem k L ∧ i < (s.mem (pred s k L i)).miLevel) := by
  have hmem : pred s k L i ∈ s.mpoHead :: atLevel s.mem i (above s.mem k L) :=
    List.getLast_mem _
  rcases List.mem_cons.mp hmem with hhead | hmem
  · exact .inl hhead
  · exact .inr (mem_atLevel.mp hmem)

-- ---------------------------------------------------------------------------
-- Searching
-- ---------------------------------------------------------------------------

/-- From a node `u` the walk goes to the last node above the key. -/
theorem walk_eq {mem : ν → SkipNode ν K V} {i : Nat} {k : K} {u : ν} {A B : List ν} {fuel : Nat}
    (hseg : Seg (fun x => (mem x).mapoNexts i) (some u) (u :: (A ++ B)) none)
    (hA : ∀ x ∈ A, k < (mem x).mtKey) (hB : ∀ x ∈ B.head?, ¬ k < (mem x).mtKey)
    (hfuel : A.length < fuel) :
    walk mem i k fuel u = some ((u :: A).getLast (List.cons_ne_nil _ _)) := by
  induction A generalizing u fuel with
  | nil =>
    obtain ⟨fuel, rfl⟩ : ∃ n, fuel = n + 1 := ⟨fuel - 1, by simp at hfuel; omega⟩
    have hnext : (mem u).mapoNexts i = B.head? := hseg.2.start_none
    rw [walk, hnext]
    cases hb : B.head? with
    | none => rfl
    | some b => simp [hB b (by simp [hb])]
  | cons a A ih =>
    obtain ⟨fuel, rfl⟩ : ∃ n, fuel = n + 1 := ⟨fuel - 1, by simp at hfuel; omega⟩
    obtain ⟨-, hnext, hrest⟩ := hseg
    have hlen : A.length < fuel := by
      simp only [List.length_cons] at hfuel
      omega
    have hgo := ih (u := a) ⟨rfl, hrest⟩ (fun x hx => hA x (List.mem_cons_of_mem a hx)) hlen
    have ha := hA a (List.mem_cons_self ..)
    dsimp only at hnext
    rw [walk, hnext]
    simp only [if_pos ha, hgo, List.getLast_cons_cons]

theorem Stands.walk (h : Stands maxLvl s L) (k : K) {i : Nat} (hi : i < maxLvl) {u : ν}
    (hu : u ∈ s.mpoHead :: atLevel s.mem i (above s.mem k L)) :
    walk s.mem i k (s.miLength + 1) u = some (pred s k L i) := by
  obtain ⟨P, A, hsplit⟩ := List.append_of_mem hu
  have hcut := h.chain_cut k hi
  rw [hsplit, List.append_assoc] at hcut
  obtain ⟨r, -, rfl, hseg⟩ := seg_append.mp hcut
  have hA : ∀ x ∈ A, x ∈ atLevel s.mem i (above s.mem k L) := by
    intro x hx
    cases P with
    | nil =>
      rw [(List.cons.inj hsplit).2]
      exact hx
    | cons p P =>
      rw [(List.cons.inj hsplit).2]
      exact List.mem_append_right _ (List.mem_cons_of_mem u hx)
  have hlength : A.length ≤ L.length := by
    have hlen := congrArg List.length hsplit
    have hle : (atLevel s.mem i (above s.mem k L)).length ≤ L.length :=
      ((List.filter_sublist).trans (List.takeWhile_sublist _)).length_le
    simp only [List.length_cons, List.length_append] at hlen
    omega
  rw [walk_eq (A := A) (B := atLevel s.mem i (notAbove s.mem k L)) ⟨rfl, hseg⟩
    (fun x hx => (mem_above (mem_atLevel.mp (hA x hx)).1).2) ?_ ?_]
  · congr 1
    simp only [pred, hsplit]
    rw [List.getLast_append_of_ne_nil _ (List.cons_ne_nil u A)]
  · intro x hx
    have hmem : x ∈ atLevel s.mem i (notAbove s.mem k L) := List.mem_of_mem_head? hx
    exact not_lt.mpr (h.notAbove_le (mem_atLevel.mp hmem).1)
  · rw [h.length_eq]
    omega

/-- A search from a node that is on the level ends at the predecessors. -/
theorem Stands.search (h : Stands maxLvl s L) (hmax : maxLvl ≤ updateSize) (k : K) {n : Nat}
    (hn : n ≤ maxLvl) {u : ν} (upd : Update ν)
    (hu : ∀ i, i + 1 = n → u ∈ s.mpoHead :: atLevel s.mem i (above s.mem k L)) :
    ∃ upd' v, s.search k n u upd = some (upd', v) ∧ (∀ i < n, upd' i = pred s k L i) ∧
      (∀ i, n ≤ i → upd' i = upd i) ∧ (0 < n → v = pred s k L 0) := by
  induction n generalizing u upd with
  | zero => exact ⟨upd, u, rfl, by simp, by simp, by simp⟩
  | succ n ih =>
    have hwalk := h.walk k (i := n) (by omega) (hu n rfl)
    have hdown : ∀ i, i + 1 = n →
        pred s k L n ∈ s.mpoHead :: atLevel s.mem i (above s.mem k L) := by
      intro i hi
      rcases pred_cases s k L n with hhead | ⟨hmem, hlevel⟩
      · rw [hhead]
        exact List.mem_cons_self ..
      · exact List.mem_cons_of_mem _ (mem_atLevel.mpr ⟨hmem, by omega⟩)
    obtain ⟨upd', v, hsearch, hbelow, habove, hv⟩ :=
      ih (by omega) (Function.update upd n (pred s k L n)) hdown
    refine ⟨upd', v, ?_, fun i hi => ?_, fun i hi => ?_, fun _ => ?_⟩
    · rw [CSkipList.search, hwalk]
      simp only [if_pos (show n < updateSize by omega), hsearch]
    · by_cases hin : i < n
      · exact hbelow i hin
      · obtain rfl : i = n := by omega
        rw [habove i (Nat.le_refl i), Function.update_self]
    · rw [habove i (by omega), Function.update_of_ne (by omega)]
    · by_cases hzero : n = 0
      · subst hzero
        cases hsearch
        rfl
      · exact hv (by omega)

/-- Without the array the search goes the same way. -/
theorem descend_of_search {k : K} {n : Nat} {u v : ν} {upd upd' : Update ν}
    (h : s.search k n u upd = some (upd', v)) : s.descend k n u = some v := by
  induction n generalizing u upd with
  | zero =>
    cases h
    rfl
  | succ n ih =>
    rw [CSkipList.search] at h
    rw [descend]
    split at h
    · cases h
    · split at h
      · exact ih h
      · cases h

theorem Stands.matching (h : Stands maxLvl s L) (k : K) :
    s.matching k (pred s k L 0) =
      (notAbove s.mem k L).head?.filter fun x => (s.mem x).mtKey = k := by
  have hfull : atLevel s.mem 0 (notAbove s.mem k L) = notAbove s.mem k L :=
    List.filter_eq_self.mpr fun x hx =>
      decide_eq_true (h.heights x (mem_of_mem_notAbove hx)).1
  have hnext := h.pred_next k (i := 0) (by have := h.level_pos; have := h.level_le; omega)
  rw [hfull] at hnext
  rw [CSkipList.matching, hnext]
  cases (notAbove s.mem k L).head? with
  | none => rfl
  | some x => simp [Option.filter]

/-- A node with the key is there exactly if the first one not above the key has it. -/
theorem Stands.exists_key_iff (h : Stands maxLvl s L) (k : K) :
    (∃ x ∈ L, (s.mem x).mtKey = k) ↔
      ∃ x, (notAbove s.mem k L).head? = some x ∧ (s.mem x).mtKey = k := by
  constructor
  · rintro ⟨y, hy, rfl⟩
    rw [← above_append_notAbove s.mem (s.mem y).mtKey L] at hy
    rcases List.mem_append.mp hy with hy | hy
    · exact absurd (mem_above hy).2 (lt_irrefl _)
    · cases hB : notAbove s.mem (s.mem y).mtKey L with
      | nil =>
        rw [hB] at hy
        cases hy
      | cons b B =>
        have hsorted : (b :: B).Pairwise fun x y => (s.mem y).mtKey ≤ (s.mem x).mtKey :=
          hB ▸ h.sorted.sublist (List.dropWhile_sublist _)
        have hb : (s.mem b).mtKey ≤ (s.mem y).mtKey :=
          h.notAbove_le (by rw [hB]; exact List.mem_cons_self ..)
        rw [hB] at hy
        refine ⟨b, rfl, le_antisymm hb ?_⟩
        rcases List.mem_cons.mp hy with rfl | hy
        · exact le_refl _
        · exact List.rel_of_pairwise_cons hsorted hy
  · rintro ⟨x, hx, hkey⟩
    exact ⟨x, mem_of_mem_notAbove (List.mem_of_mem_head? hx), hkey⟩

/-- `Find(aKey)` ends, and finds a node with the key exactly if there is one. -/
theorem Stands.find (h : Stands maxLvl s L) (hmax : maxLvl ≤ updateSize) (k : K) :
    ∃ r, s.find k = some r ∧ (∀ x, r = some x → x ∈ L ∧ (s.mem x).mtKey = k) ∧
      ((∃ x ∈ L, (s.mem x).mtKey = k) ↔ r ≠ none) := by
  obtain ⟨upd', v, hsearch, -, -, hv⟩ := h.search hmax k h.level_le (u := s.mpoHead)
    (fun _ => s.mpoHead) fun i _ => List.mem_cons_self ..
  refine ⟨(notAbove s.mem k L).head?.filter fun x => (s.mem x).mtKey = k, ?_, ?_, ?_⟩
  · rw [CSkipList.find, descend_of_search hsearch, hv h.level_pos, Option.map_some, h.matching]
  · intro x hx
    obtain ⟨hhead, hkey⟩ := Option.filter_eq_some_iff.mp hx
    exact ⟨mem_of_mem_notAbove (List.mem_of_mem_head? hhead), by simpa using hkey⟩
  · rw [h.exists_key_iff, Option.ne_none_iff_exists']
    simp [Option.filter_eq_some_iff]

end Search

-- ---------------------------------------------------------------------------
-- Inserting
-- ---------------------------------------------------------------------------

omit [LinearOrder K] in
theorem linkLevels_nexts (mem : ν → SkipNode ν K V) {x : ν} {upd : Update ν} {n : Nat}
    (hx : ∀ i < n, upd i ≠ x) (y : ν) (j : Nat) :
    (linkLevels mem x upd n y).mapoNexts j =
      if j < n then
        if y = upd j then some x
        else if y = x then (mem (upd j)).mapoNexts j else (mem y).mapoNexts j
      else (mem y).mapoNexts j := by
  induction n generalizing y j with
  | zero => simp [linkLevels]
  | succ n ih =>
    have ih := fun y j => ih (fun i hi => hx i (by omega)) y j
    simp only [linkLevels, setNext_nexts, ih]
    by_cases hj : j = n
    · subst hj
      simp
    · have hlt : j < n + 1 ↔ j < n := by omega
      simp [hj, hlt]

omit [LinearOrder K] in
theorem linkLevels_same (mem : ν → SkipNode ν K V) (x : ν) (upd : Update ν) (n : Nat) :
    SameNodes mem (linkLevels mem x upd n) ∧
      ∀ y, (linkLevels mem x upd n y).mpoPrev = (mem y).mpoPrev := by
  induction n with
  | zero => exact ⟨fun _ => ⟨rfl, rfl⟩, fun _ => rfl⟩
  | succ n ih =>
    refine ⟨fun y => ?_, fun y => ?_⟩
    · simpa [linkLevels] using ih.1 y
    · simpa [linkLevels] using ih.2 y

theorem raise_eq (head : ν) {level n : Nat} (upd : Update ν) (h : level + n ≤ updateSize) :
    ∃ upd', raise head level n upd = some upd' ∧
      (∀ i, level ≤ i → i < level + n → upd' i = head) ∧
      (∀ i, i < level → upd' i = upd i) := by
  induction n generalizing level upd with
  | zero => exact ⟨upd, rfl, fun i _ _ => by omega, fun _ _ => rfl⟩
  | succ n ih =>
    have hle : level + 1 + n ≤ updateSize := by omega
    obtain ⟨upd', hraise, hup, hbelow⟩ := ih (Function.update upd level head) hle
    refine ⟨upd', ?_, fun i hi hi' => ?_, fun i hi => ?_⟩
    · rw [raise, if_pos (by omega), hraise]
    · by_cases heq : i = level
      · rw [hbelow i (by omega), heq, Function.update_self]
      · exact hup i (by omega) (by omega)
    · rw [hbelow i (by omega), Function.update_of_ne (by omega)]

omit [DecidableEq ν] [LinearOrder K] in
theorem SameNodes.atLevel {mem mem' : ν → SkipNode ν K V} (h : SameNodes mem mem') (i : Nat)
    (L : List ν) : CSkipList.atLevel mem' i L = CSkipList.atLevel mem i L := by
  unfold CSkipList.atLevel
  exact List.filter_congr fun x _ => by rw [(h x).2]

omit [DecidableEq ν] in
theorem Stands.chain_nodup (h : Stands maxLvl s L) (k : K) (i : Nat) :
    ((s.mpoHead :: atLevel s.mem i (above s.mem k L)) ++
      atLevel s.mem i (notAbove s.mem k L)).Nodup := by
  have hsub : (s.mpoHead :: atLevel s.mem i L).Sublist (s.mpoHead :: L) :=
    List.Sublist.cons_cons _ List.filter_sublist
  have hnodup := h.nodup.sublist hsub
  rw [← above_append_notAbove s.mem k L, atLevel_append] at hnodup
  exact hnodup

omit [DecidableEq ν] in
/-- The nodes on the lowest level are all nodes. -/
theorem Stands.atLevel_zero (h : Stands maxLvl s L) {A : List ν} (hA : A ⊆ L) :
    atLevel s.mem 0 A = A :=
  List.filter_eq_self.mpr fun x hx => decide_eq_true (h.heights x (hA hx)).1

omit [DecidableEq ν] in
theorem above_subset (mem : ν → SkipNode ν K V) (k : K) : above mem k L ⊆ L :=
  fun _ hx => (mem_above hx).1

omit [DecidableEq ν] in
theorem notAbove_subset (mem : ν → SkipNode ν K V) (k : K) : notAbove mem k L ⊆ L :=
  fun _ hx => mem_of_mem_notAbove hx

/-- The last of a list, in the way the code looks for it from a head node. -/
theorem getLast_cons_ite {head : ν} {A : List ν} (h : head ∉ A) :
    (if (head :: A).getLast (List.cons_ne_nil _ _) = head then none
      else some ((head :: A).getLast (List.cons_ne_nil _ _))) = A.getLast? := by
  cases A with
  | nil => simp
  | cons a A =>
    have hne : (head :: a :: A).getLast (List.cons_ne_nil _ _) ≠ head := by
      intro heq
      rw [List.getLast_cons_cons] at heq
      exact h (heq ▸ List.getLast_mem _)
    rw [if_neg hne, List.getLast_cons_cons, List.getLast?_eq_some_getLast (List.cons_ne_nil a A)]

theorem Stands.pred_zero (h : Stands maxLvl s L) (k : K) :
    (if pred s k L 0 = s.mpoHead then none else some (pred s k L 0)) =
      (above s.mem k L).getLast? := by
  have hhead : s.mpoHead ∉ above s.mem k L := fun hmem =>
    (List.nodup_cons.mp h.nodup).1 (mem_above hmem).1
  rw [← getLast_cons_ite hhead]
  unfold pred
  simp only [h.atLevel_zero (above_subset s.mem k)]

omit [DecidableEq ν] in
/-- The chain of one level with `x` linked in. -/
theorem Stands.chain_insert (h : Stands maxLvl s L) {k : K} {x : ν} (hx : x ∉ s.mpoHead :: L)
    {i : Nat} (hi : i < maxLvl) {next : ν → Option ν} (hpred : next (pred s k L i) = some x)
    (hself : next x = (s.mem (pred s k L i)).mapoNexts i)
    (hother : ∀ y, y ≠ pred s k L i → y ≠ x → next y = (s.mem y).mapoNexts i) :
    Seg next (some s.mpoHead) (s.mpoHead :: (atLevel s.mem i (above s.mem k L) ++
      x :: atLevel s.mem i (notAbove s.mem k L))) none := by
  obtain ⟨P, hP⟩ := exists_front s k L i
  have hcut := h.chain_cut k hi
  have hnodup := h.chain_nodup k i
  have hxmem : ∀ z ∈ (s.mpoHead :: atLevel s.mem i (above s.mem k L)) ++
      atLevel s.mem i (notAbove s.mem k L), z ≠ x := by
    rintro z hz rfl
    refine hx ?_
    simp only [List.cons_append, List.mem_cons, List.mem_append, mem_atLevel] at hz ⊢
    rcases hz with hz | hz | hz
    · exact .inl hz
    · exact .inr (above_subset s.mem k hz.1)
    · exact .inr (notAbove_subset s.mem k hz.1)
  rw [hP, List.append_assoc, List.singleton_append] at hcut hnodup hxmem
  have hparts := List.nodup_append.mp hnodup
  have hseg := hcut.insert_after hpred hself
    (fun z hz => hother z (fun heq => hparts.2.2 z hz (pred s k L i) (by simp) heq)
      (hxmem z (by simp [hz])))
    (fun z hz => hother z
      (fun heq => (List.nodup_cons.mp hparts.2.1).1 (heq ▸ hz)) (hxmem z (by simp [hz])))
  have hlist : s.mpoHead :: (atLevel s.mem i (above s.mem k L) ++
      x :: atLevel s.mem i (notAbove s.mem k L)) =
      P ++ pred s k L i :: x :: atLevel s.mem i (notAbove s.mem k L) := by
    rw [← List.cons_append, hP, List.append_assoc]
    rfl
  rw [hlist]
  exact hseg

omit [DecidableEq ν] in
/-- The backward links with `x` put between the nodes above and the others. -/
theorem Stands.prev_insert (h : Stands maxLvl s L) {k : K} {x : ν} (hx : x ∉ s.mpoHead :: L)
    {prev : ν → Option ν} {tail : Option ν} (hself : prev x = (above s.mem k L).getLast?)
    (hfirst : ∀ b ∈ (notAbove s.mem k L).head?, prev b = some x ∧ tail = s.mpoTail)
    (hlast : notAbove s.mem k L = [] → tail = some x)
    (hother : ∀ y ≠ x, y ∉ (notAbove s.mem k L).head? → prev y = (s.mem y).mpoPrev) :
    Seg prev tail (above s.mem k L ++ x :: notAbove s.mem k L).reverse none := by
  have hprevs := h.prevs
  have hnodup := (List.nodup_cons.mp h.nodup).2
  have hsplit := above_append_notAbove s.mem k L
  rw [← hsplit] at hnodup
  rw [← hsplit, List.reverse_append] at hprevs
  obtain ⟨r, hback, hfront⟩ := seg_append.mp hprevs
  have hxL : ∀ y ∈ L, y ≠ x := by
    rintro y hy rfl
    exact hx (List.mem_cons_of_mem _ hy)
  have hr : r = prev x := by
    rw [hself, hfront.start_none, List.head?_reverse]
  rw [List.reverse_append, List.reverse_cons, List.append_assoc, List.singleton_append]
  refine seg_append.mpr ⟨some x, ?_, rfl, ?_⟩
  · cases hB : notAbove s.mem k L with
    | nil => exact hlast hB
    | cons b B =>
      obtain ⟨hb, htail⟩ := hfirst b (by simp [hB])
      rw [hB, List.reverse_cons] at hback
      rw [hB] at hnodup
      have hBnodup := (List.nodup_append.mp hnodup).2.1
      rw [htail, List.reverse_cons]
      refine seg_concat.mpr ⟨(seg_concat.mp hback).1.congr fun y hy => ?_, hb⟩
      have hyB := List.mem_reverse.mp hy
      refine hother y (hxL y (notAbove_subset s.mem k (hB ▸ List.mem_cons_of_mem b hyB))) ?_
      rw [hB]
      rintro heq
      cases heq
      exact (List.nodup_cons.mp hBnodup).1 hyB
  · rw [← hr]
    refine hfront.congr fun y hy => ?_
    have hyA := List.mem_reverse.mp hy
    refine hother y (hxL y (above_subset s.mem k hyA)) fun hhead => ?_
    have hyB : y ∈ notAbove s.mem k L := List.mem_of_mem_head? hhead
    exact (List.nodup_append.mp hnodup).2.2 y hyA y hyB rfl

/-- What `Insert` of `x` with the key `k` does to the memory. -/
structure Linked (s : CSkipList ν K V) (L : List ν) (k : K) (x : ν) (s' : CSkipList ν K V) :
    Prop where
  same : SameNodes s.mem s'.mem
  head : s'.mpoHead = s.mpoHead
  length : s'.miLength = s.miLength + 1
  level : s'.miLevel = max s.miLevel (s.mem x).miLevel
  nexts : ∀ y j, (s'.mem y).mapoNexts j =
    if j < (s.mem x).miLevel then
      if y = pred s k L j then some x
      else if y = x then (s.mem (pred s k L j)).mapoNexts j else (s.mem y).mapoNexts j
    else (s.mem y).mapoNexts j
  self : (s'.mem x).mpoPrev = (above s.mem k L).getLast?
  first : ∀ b ∈ (notAbove s.mem k L).head?, (s'.mem b).mpoPrev = some x ∧ s'.mpoTail = s.mpoTail
  last : notAbove s.mem k L = [] → s'.mpoTail = some x
  other : ∀ y ≠ x, y ∉ (notAbove s.mem k L).head? → (s'.mem y).mpoPrev = (s.mem y).mpoPrev

omit [DecidableEq ν] in
theorem pred_ne (k : K) {x : ν} (hx : x ∉ s.mpoHead :: L) (i : Nat) : pred s k L i ≠ x := by
  rintro rfl
  rcases pred_cases s k L i with hhead | ⟨hmem, -⟩
  · exact hx (by simp [hhead])
  · exact hx (List.mem_cons_of_mem _ (above_subset s.mem k hmem))

/-- The array of `Insert` holds the predecessors on all levels of `x`. -/
theorem Stands.insert_search (h : Stands maxLvl s L) (hmax : maxLvl ≤ updateSize) (k : K)
    {level : Nat} (hlevel : level ≤ maxLvl) (upd : Update ν) :
    ∃ upd' v upd'', s.search k s.miLevel s.mpoHead upd = some (upd', v) ∧
      raise s.mpoHead s.miLevel (level - s.miLevel) upd' = some upd'' ∧
      ∀ i < level, upd'' i = pred s k L i := by
  have hle := h.level_le
  obtain ⟨upd', v, hsearch, hupd, -, -⟩ := h.search hmax k h.level_le
    (u := s.mpoHead) upd fun i _ => List.mem_cons_self ..
  have hsum : s.miLevel + (level - s.miLevel) ≤ updateSize := by omega
  obtain ⟨upd'', hraise, hup, hbelow⟩ := raise_eq s.mpoHead upd' hsum
  refine ⟨upd', v, upd'', hsearch, hraise, fun i hi => ?_⟩
  by_cases hlt : i < s.miLevel
  · rw [hbelow i hlt, hupd i hlt]
  · rw [hup i (by omega) (by omega)]
    rcases pred_cases s k L i with hhead | ⟨hmem, hlt'⟩
    · exact hhead.symm
    · have hle := h.heights_le _ (above_subset s.mem k hmem)
      omega

theorem Stands.insert_linked (h : Stands maxLvl s L) (hmax : maxLvl ≤ updateSize) {x : ν}
    (hx : x ∉ s.mpoHead :: L) (hlow : 0 < (s.mem x).miLevel) (hhigh : (s.mem x).miLevel ≤ maxLvl) :
    ∃ s', s.insert x = some s' ∧ Linked s L (s.mem x).mtKey x s' := by
  obtain ⟨upd, v, upd', hsearch, hraise, hpred⟩ :=
    h.insert_search hmax (s.mem x).mtKey hhigh fun _ => x
  generalize hk : (s.mem x).mtKey = k at *
  have hne : ∀ i < (s.mem x).miLevel, upd' i ≠ x := fun i hi => hpred i hi ▸ pred_ne k hx i
  have hnexts := linkLevels_nexts s.mem hne
  obtain ⟨hsame, hprev⟩ := linkLevels_same s.mem x upd' (s.mem x).miLevel
  have hnext0 : (linkLevels s.mem x upd' (s.mem x).miLevel x).mapoNexts 0 =
      (notAbove s.mem k L).head? := by
    have hne : x ≠ upd' 0 := fun heq => pred_ne k hx 0 (by rw [← hpred 0 hlow, ← heq])
    rw [hnexts, if_pos hlow, if_neg hne, if_pos rfl, hpred 0 hlow,
      h.pred_next k (i := 0) (by omega), h.atLevel_zero (notAbove_subset s.mem k)]
  have hself : (if upd' 0 = s.mpoHead then none else some (upd' 0)) =
      (above s.mem k L).getLast? := by
    rw [hpred 0 hlow, h.pred_zero k]
  refine ⟨_, by rw [CSkipList.insert, hk, hsearch]; simp only [hraise]; rfl, ?_⟩
  have hall : ∀ y j, (linkLevels s.mem x upd' (s.mem x).miLevel y).mapoNexts j =
      if j < (s.mem x).miLevel then
        if y = pred s k L j then some x
        else if y = x then (s.mem (pred s k L j)).mapoNexts j else (s.mem y).mapoNexts j
      else (s.mem y).mapoNexts j := by
    intro y j
    rw [hnexts]
    by_cases hj : j < (s.mem x).miLevel
    · rw [if_pos hj, if_pos hj, hpred j hj]
    · rw [if_neg hj, if_neg hj]
  unfold linkPrev
  simp only [setPrev_nexts, hnext0, hself]
  cases hB : (notAbove s.mem k L).head? with
  | none =>
    refine ⟨fun y => ?_, rfl, rfl, rfl, fun y j => ?_, ?_, by simp [hB], fun _ => rfl,
      fun y hy _ => ?_⟩
    · simpa using hsame y
    · simpa using hall y j
    · simp [setPrev_prev]
    · simp [setPrev_prev, hy, hprev]
  | some b =>
    have hbx : b ≠ x := by
      rintro rfl
      exact hx (List.mem_cons_of_mem _ (notAbove_subset s.mem k (List.mem_of_mem_head? hB)))
    refine ⟨fun y => ?_, rfl, rfl, rfl, fun y j => ?_, ?_, ?_, fun hnil => ?_, fun y hy hyb => ?_⟩
    · simpa using hsame y
    · simpa using hall y j
    · simp [setPrev_prev, hbx.symm]
    · intro b' hb'
      rw [hB] at hb'
      cases hb'
      exact ⟨by simp [setPrev_prev], rfl⟩
    · simp [hnil] at hB
    · have hyb' : y ≠ b := fun heq => hyb (by simp [heq, hB])
      simp [setPrev_prev, hy, hyb', hprev]

/-- Every chain once `x` is linked in. -/
theorem Linked.chains {x : ν} {s' : CSkipList ν K V} {k : K} (hlinked : Linked s L k x s')
    (h : Stands maxLvl s L) (hx : x ∉ s.mpoHead :: L) {i : Nat} (hi : i < maxLvl) :
    Seg (fun y => (s'.mem y).mapoNexts i) (some s'.mpoHead)
      (s'.mpoHead :: atLevel s'.mem i (above s.mem k L ++ x :: notAbove s.mem k L)) none := by
  have hnexts := hlinked.nexts
  rw [hlinked.head, hlinked.same.atLevel, atLevel_append]
  by_cases hix : i < (s.mem x).miLevel
  · have hx_at : atLevel s.mem i (x :: notAbove s.mem k L) =
        x :: atLevel s.mem i (notAbove s.mem k L) := by
      simp [atLevel, hix]
    rw [hx_at]
    refine h.chain_insert hx hi ?_ ?_ fun y hy hyx => ?_
    · rw [hnexts, if_pos hix, if_pos rfl]
    · rw [hnexts, if_pos hix, if_neg (pred_ne k hx i).symm, if_pos rfl]
    · rw [hnexts, if_pos hix, if_neg hy, if_neg hyx]
  · have hx_at : atLevel s.mem i (x :: notAbove s.mem k L) =
        atLevel s.mem i (notAbove s.mem k L) := by
      simp [atLevel, hix]
    rw [hx_at]
    exact (h.chain_cut k hi).congr fun y _ => by rw [hnexts, if_neg hix]

omit [DecidableEq ν] in
/-- The new node has its place in the order. -/
theorem Stands.sorted_insert (h : Stands maxLvl s L) {x : ν} {k : K} (hk : (s.mem x).mtKey = k) :
    (above s.mem k L ++ x :: notAbove s.mem k L).Pairwise
      fun x y => (s.mem y).mtKey ≤ (s.mem x).mtKey := by
  have hsorted := h.sorted
  rw [← above_append_notAbove s.mem k L] at hsorted
  obtain ⟨hA, hB, hAB⟩ := List.pairwise_append.mp hsorted
  refine List.pairwise_append.mpr ⟨hA, List.pairwise_cons.mpr ⟨fun b hb => ?_, hB⟩,
    fun a ha b hb => ?_⟩
  · rw [hk]
    exact h.notAbove_le hb
  · rcases List.mem_cons.mp hb with rfl | hb
    · rw [hk]
      exact (mem_above ha).2.le
    · exact hAB a ha b hb

omit [DecidableEq ν] in
theorem perm_insert (mem : ν → SkipNode ν K V) (k : K) (x : ν) (L : List ν) :
    (above mem k L ++ x :: notAbove mem k L).Perm (x :: L) := by
  refine List.perm_middle.trans ?_
  rw [above_append_notAbove]

/-- Inserting a node that is not in the list puts it in front of the nodes that are
not above it. -/
theorem Stands.insert (h : Stands maxLvl s L) (hmax : maxLvl ≤ updateSize) {x : ν}
    (hx : x ∉ s.mpoHead :: L) (hlow : 0 < (s.mem x).miLevel) (hhigh : (s.mem x).miLevel ≤ maxLvl) :
    ∃ s' L', s.insert x = some s' ∧ SameNodes s.mem s'.mem ∧ s'.mpoHead = s.mpoHead ∧
      L'.Perm (x :: L) ∧ Stands maxLvl s' L' := by
  obtain ⟨s', hinsert, hlinked⟩ := h.insert_linked hmax hx hlow hhigh
  generalize hk : (s.mem x).mtKey = k at hlinked
  have hperm := perm_insert s.mem k x L
  have hlevel := h.level_pos
  have hlevel_le := h.level_le
  have hmem : ∀ y, y ∈ above s.mem k L ++ x :: notAbove s.mem k L ↔ y = x ∨ y ∈ L := by
    intro y
    rw [hperm.mem_iff, List.mem_cons]
  refine ⟨s', _, hinsert, hlinked.same, hlinked.head, hperm, ?_⟩
  refine ⟨?_, ?_, ?_, fun i hi => hlinked.chains h hx hi,
    h.prev_insert hx hlinked.self hlinked.first hlinked.last hlinked.other, ?_, ?_, ?_, ?_, ?_⟩
  · rw [hlinked.head, (hperm.cons s.mpoHead).nodup_iff]
    exact (List.Perm.swap x s.mpoHead L).nodup_iff.mpr (List.nodup_cons.mpr ⟨hx, h.nodup⟩)
  · simp only [(hlinked.same _).1]
    exact h.sorted_insert hk
  · intro y hy
    rw [(hlinked.same y).2]
    rcases (hmem y).mp hy with rfl | hy
    · exact ⟨hlow, hhigh⟩
    · exact h.heights y hy
  · rw [hlinked.length, h.length_eq, hperm.length_eq, List.length_cons]
  · rw [hlinked.level]
    omega
  · rw [hlinked.level]
    omega
  · intro y hy
    rw [(hlinked.same y).2, hlinked.level]
    rcases (hmem y).mp hy with rfl | hy
    · exact le_max_right _ _
    · exact (h.heights_le y hy).trans (le_max_left _ _)
  · intro hone
    rw [hlinked.level] at hone ⊢
    by_cases hle : s.miLevel ≤ (s.mem x).miLevel
    · exact ⟨x, (hmem x).mpr (.inl rfl), by rw [(hlinked.same x).2, max_eq_right hle]⟩
    · obtain ⟨y, hy, hyl⟩ := h.level_used (by omega)
      exact ⟨y, (hmem y).mpr (.inr hy), by rw [(hlinked.same y).2, hyl, max_eq_left (by omega)]⟩

-- ---------------------------------------------------------------------------
-- Deleting
-- ---------------------------------------------------------------------------

omit [LinearOrder K] in
theorem unlinkLevels_nexts {x : ν} {upd : Update ν} {n : Nat} (hx : ∀ i < n, upd i ≠ x)
    (mem : ν → SkipNode ν K V) (y : ν) (j : Nat) :
    (unlinkLevels x upd n mem y).mapoNexts j =
      if j < n ∧ y = upd j ∧ (mem y).mapoNexts j = some x then (mem x).mapoNexts j
      else (mem y).mapoNexts j := by
  induction n generalizing mem with
  | zero => simp [unlinkLevels]
  | succ n ih =>
    have ih := fun mem => ih (fun i hi => hx i (by omega)) mem
    have hxn : x ≠ upd n := (hx n (by omega)).symm
    rw [unlinkLevels, ih]
    by_cases hj : j = n
    · subst hj
      by_cases hlink : (mem (upd j)).mapoNexts j = some x
      · by_cases hy : y = upd j
        · subst hy
          simp [hlink, setNext_nexts]
        · simp [hlink, setNext_nexts, hy]
      · by_cases hy : y = upd j
        · subst hy
          simp [hlink]
        · simp [hlink, hy]
    · have hlt : j < n + 1 ↔ j < n := by omega
      by_cases hlink : (mem (upd n)).mapoNexts n = some x
      · simp [hlink, setNext_nexts, hj, hlt]
      · simp [hlink, hlt]

omit [LinearOrder K] in
theorem unlinkLevels_same (x : ν) (upd : Update ν) (n : Nat) (mem : ν → SkipNode ν K V) :
    SameNodes mem (unlinkLevels x upd n mem) ∧
      ∀ y, (unlinkLevels x upd n mem y).mpoPrev = (mem y).mpoPrev := by
  induction n generalizing mem with
  | zero => exact ⟨fun _ => ⟨rfl, rfl⟩, fun _ => rfl⟩
  | succ n ih =>
    rw [unlinkLevels]
    split
    · obtain ⟨hsame, hprev⟩ := ih (setNext mem (upd n) n ((mem x).mapoNexts n))
      exact ⟨fun y => by simpa using hsame y, fun y => by simpa using hprev y⟩
    · exact ih mem

omit [DecidableEq ν] [LinearOrder K] in
/-- `FIXLEVEL` stops at the highest level in use, or at 1. -/
theorem fixLevel_eq (head : SkipNode ν K V) {level : Nat} (hpos : 1 ≤ level) :
    1 ≤ fixLevel head level ∧ fixLevel head level ≤ level ∧
      (∀ i, fixLevel head level ≤ i → i < level → head.mapoNexts i = none) ∧
      (1 < fixLevel head level → head.mapoNexts (fixLevel head level - 1) ≠ none) := by
  induction level using fixLevel.induct head with
  | case1 => omega
  | case2 =>
    rw [fixLevel]
    exact ⟨Nat.le_refl 1, Nat.le_refl 1, fun i _ _ => by omega, fun h => absurd h (by decide)⟩
  | case3 level hnone ih =>
    obtain ⟨hge, hle, hempty, hused⟩ := ih (by omega)
    rw [fixLevel, if_pos hnone]
    refine ⟨hge, by omega, fun i hi hi' => ?_, hused⟩
    by_cases heq : i = level + 1
    · rw [heq]
      exact hnone
    · exact hempty i hi (by omega)
  | case4 level hsome =>
    rw [fixLevel, if_neg hsome]
    exact ⟨by omega, Nat.le_refl _, fun i _ _ => by omega, fun _ => hsome⟩

omit [DecidableEq ν] in
/-- With fewer nodes, relinked, counted, and the level fixed, the memory stands for those
that are left. -/
theorem Stands.shrink {s' : CSkipList ν K V} {L' : List ν} (h : Stands maxLvl s L)
    (hsub : L'.Sublist L) (hsame : SameNodes s.mem s'.mem) (hheadEq : s'.mpoHead = s.mpoHead)
    (hchains : ∀ i < maxLvl, Seg (fun x => (s'.mem x).mapoNexts i) (some s'.mpoHead)
      (s'.mpoHead :: atLevel s'.mem i L') none)
    (hprevs : Seg (fun x => (s'.mem x).mpoPrev) s'.mpoTail L'.reverse none)
    (hlength : s'.miLength = L'.length)
    (hlevel : s'.miLevel = fixLevel (s'.mem s.mpoHead) s.miLevel) : Stands maxLvl s' L' := by
  have hlevel_le := h.level_le
  obtain ⟨hpos, hle, hempty, hused⟩ := fixLevel_eq (s'.mem s.mpoHead) h.level_pos
  have hhead : ∀ i < maxLvl, (s'.mem s.mpoHead).mapoNexts i = (atLevel s'.mem i L').head? := by
    intro i hi
    have hnext := (hchains i hi).2.start_none
    rwa [hheadEq] at hnext
  have hheights : ∀ y ∈ L', (s'.mem y).miLevel ≤ s'.miLevel := by
    intro y hy
    by_contra hlt
    have hold := h.heights_le y (hsub.subset hy)
    rw [(hsame y).2, hlevel] at hlt
    have hnone := hempty (fixLevel (s'.mem s.mpoHead) s.miLevel) (Nat.le_refl _) (by omega)
    rw [hhead _ (by omega)] at hnone
    have hmem : y ∈ atLevel s'.mem (fixLevel (s'.mem s.mpoHead) s.miLevel) L' :=
      mem_atLevel.mpr ⟨hy, by rw [(hsame y).2]; omega⟩
    rw [List.head?_eq_none_iff.mp hnone] at hmem
    cases hmem
  refine ⟨?_, ?_, ?_, hchains, hprevs, hlength, ?_, ?_, hheights, ?_⟩
  · rw [hheadEq]
    exact h.nodup.sublist (List.Sublist.cons_cons _ hsub)
  · simp only [(hsame _).1]
    exact h.sorted.sublist hsub
  · intro y hy
    rw [(hsame y).2]
    exact h.heights y (hsub.subset hy)
  · rw [hlevel]
    exact hpos
  · rw [hlevel]
    omega
  · intro hone
    rw [hlevel] at hone
    have hsome := hused hone
    rw [hhead _ (by omega)] at hsome
    obtain ⟨y, hy⟩ := Option.ne_none_iff_exists'.mp hsome
    obtain ⟨hyL, hylevel⟩ := mem_atLevel.mp (List.mem_of_mem_head? hy)
    have hyle := hheights y hyL
    rw [hlevel] at hyle ⊢
    exact ⟨y, hyL, by omega⟩

/-- What taking `x`, the first node not above `k`, out of the list does to the
memory; `B` are the nodes behind it. -/
structure Unlinked (s : CSkipList ν K V) (L : List ν) (k : K) (x : ν) (B : List ν)
    (s' : CSkipList ν K V) : Prop where
  same : SameNodes s.mem s'.mem
  head : s'.mpoHead = s.mpoHead
  length : s'.miLength = s.miLength - 1
  level : s'.miLevel = fixLevel (s'.mem s.mpoHead) s.miLevel
  nexts : ∀ y ≠ x, ∀ j, (s'.mem y).mapoNexts j =
    if j < s.miLevel ∧ y = pred s k L j ∧ (s.mem y).mapoNexts j = some x then
      (s.mem x).mapoNexts j
    else (s.mem y).mapoNexts j
  first : ∀ b ∈ B.head?, (s'.mem b).mpoPrev = (s.mem x).mpoPrev ∧ s'.mpoTail = s.mpoTail
  last : B = [] → s'.mpoTail = (s.mem x).mpoPrev
  other : ∀ y, y ∉ B.head? → (s'.mem y).mpoPrev = (s.mem y).mpoPrev

section Delete

variable {k : K} {x : ν} {B : List ν}

omit [DecidableEq ν] in
theorem Stands.split_at (_h : Stands maxLvl s L) (hB : notAbove s.mem k L = x :: B) :
    L = above s.mem k L ++ x :: B := by
  rw [← hB, above_append_notAbove]

omit [DecidableEq ν] in
/-- The node to delete is no predecessor. -/
theorem Stands.pred_ne_found (h : Stands maxLvl s L) (hB : notAbove s.mem k L = x :: B) (i : Nat) :
    pred s k L i ≠ x := by
  have hx : x ∈ notAbove s.mem k L := by
    rw [hB]
    exact List.mem_cons_self ..
  rintro rfl
  rcases pred_cases s k L i with hhead | ⟨hmem, -⟩
  · rw [hhead] at hx
    exact (List.nodup_cons.mp h.nodup).1 (notAbove_subset s.mem k hx)
  · exact absurd (mem_above hmem).2 (not_lt.mpr (h.notAbove_le hx))

omit [DecidableEq ν] in
theorem Stands.found_next (h : Stands maxLvl s L) (hB : notAbove s.mem k L = x :: B) :
    (s.mem x).mapoNexts 0 = B.head? := by
  have hchain := h.chains 0 (by have := h.level_pos; have := h.level_le; omega)
  rw [h.atLevel_zero (List.Subset.refl L), h.split_at hB, ← List.cons_append] at hchain
  exact hchain.next_eq

omit [LinearOrder K] in
/-- The links of the lowest level around `x`, when `B` are the nodes behind it. -/
theorem unlinkPrev_eq (hnext : (s.mem x).mapoNexts 0 = B.head?) :
    (∀ y j, ((unlinkPrev s x).mem y).mapoNexts j =
      if y = x ∧ j = 0 then none else (s.mem y).mapoNexts j) ∧
    SameNodes s.mem (unlinkPrev s x).mem ∧ (unlinkPrev s x).mpoHead = s.mpoHead ∧
    (unlinkPrev s x).miLength = s.miLength ∧ (unlinkPrev s x).miLevel = s.miLevel ∧
    (∀ b ∈ B.head?, ((unlinkPrev s x).mem b).mpoPrev = (s.mem x).mpoPrev ∧
      (unlinkPrev s x).mpoTail = s.mpoTail) ∧
    (B = [] → (unlinkPrev s x).mpoTail = (s.mem x).mpoPrev) ∧
    (∀ y, y ∉ B.head? → ((unlinkPrev s x).mem y).mpoPrev = (s.mem y).mpoPrev) := by
  unfold unlinkPrev
  rw [hnext]
  cases hb : B.head? with
  | none =>
    refine ⟨fun y j => setNext_nexts .., fun y => by simp, rfl, rfl, rfl, by simp, fun _ => rfl,
      fun y _ => by simp⟩
  | some b =>
    refine ⟨fun y j => ?_, fun y => by simp, rfl, rfl, rfl, ?_, fun hnil => ?_, fun y hy => ?_⟩
    · simp [setNext_nexts]
    · intro b' hb'
      cases hb'
      exact ⟨by simp [setPrev_prev], rfl⟩
    · simp [hnil] at hb
    · have hne : y ≠ b := fun heq => hy (by simp [heq])
      simp [setPrev_prev, hne]

theorem Stands.delete_unlinked (h : Stands maxLvl s L) (hmax : maxLvl ≤ updateSize)
    (hB : notAbove s.mem k L = x :: B) (hkey : (s.mem x).mtKey = k) :
    ∃ s', s.delete k = some (s', some x) ∧ Unlinked s L k x B s' := by
  obtain ⟨upd, v, hsearch, hupd, -, hv⟩ := h.search hmax k h.level_le
    (u := s.mpoHead) (fun _ => s.mpoHead) fun i _ => List.mem_cons_self ..
  have hlength : s.miLength ≠ 0 := by
    rw [h.length_eq, h.split_at hB]
    simp
  have hmatch : s.matching k v = some x := by
    rw [hv h.level_pos, h.matching, hB]
    simp [Option.filter, hkey]
  have hne : ∀ i < s.miLevel, upd i ≠ x := fun i hi => hupd i hi ▸ h.pred_ne_found hB i
  have hnexts := unlinkLevels_nexts hne s.mem
  obtain ⟨hsame, hprev⟩ := unlinkLevels_same x upd s.miLevel s.mem
  have hxnext : (unlinkLevels x upd s.miLevel s.mem x).mapoNexts 0 = B.head? := by
    rw [hnexts, if_neg ?_, h.found_next hB]
    rintro ⟨hpos, heq, -⟩
    exact h.pred_ne_found hB 0 (by rw [← hupd 0 hpos, ← heq])
  have hall : ∀ y j, (unlinkLevels x upd s.miLevel s.mem y).mapoNexts j =
      if j < s.miLevel ∧ y = pred s k L j ∧ (s.mem y).mapoNexts j = some x then
        (s.mem x).mapoNexts j
      else (s.mem y).mapoNexts j := by
    intro y j
    rw [hnexts]
    by_cases hj : j < s.miLevel
    · rw [hupd j hj]
    · simp [hj]
  obtain ⟨hnexts', hsame', hhead, hlen, hlevel, hfirst, hlast, hother⟩ := unlinkPrev_eq
    (s := { s with mem := unlinkLevels x upd s.miLevel s.mem }) hxnext
  generalize hs' : unlinkPrev { s with mem := unlinkLevels x upd s.miLevel s.mem } x = s' at *
  have hfix : fixLength s'.mem (s.miLength + 1) (some x) s'.miLength = some (s'.miLength - 1) := by
    rw [fixLength, hnexts', if_pos ⟨rfl, rfl⟩, fixLength]
  refine ⟨{ s' with
      miLength := s'.miLength - 1
      miLevel := fixLevel (s'.mem s.mpoHead) s'.miLevel }, ?_, ?_⟩
  · unfold CSkipList.delete
    rw [if_neg hlength, hsearch]
    simp only [hmatch, hs', hfix, Option.map_some]
  refine ⟨fun y => ?_, hhead, ?_, ?_, fun y hy j => ?_, fun b hb => ?_, fun hnil => ?_,
    fun y hy => ?_⟩
  · exact ⟨(hsame' y).1.trans (hsame y).1, (hsame' y).2.trans (hsame y).2⟩
  · simp only [hlen]
  · simp only [hlevel]
  · rw [hnexts', if_neg fun hcond => hy hcond.1]
    exact hall y j
  · exact ⟨(hfirst b hb).1.trans (hprev x), (hfirst b hb).2⟩
  · exact (hlast hnil).trans (hprev x)
  · exact (hother y hy).trans (hprev y)

/-- Every chain once `x` is taken out. -/
theorem Unlinked.chains {s' : CSkipList ν K V} (hunlinked : Unlinked s L k x B s')
    (h : Stands maxLvl s L) (hB : notAbove s.mem k L = x :: B) {i : Nat} (hi : i < maxLvl) :
    Seg (fun y => (s'.mem y).mapoNexts i) (some s'.mpoHead)
      (s'.mpoHead :: atLevel s'.mem i (above s.mem k L ++ B)) none := by
  obtain ⟨P, hP⟩ := exists_front s k L i
  have hcut := h.chain_cut k hi
  have hnodup := h.chain_nodup k i
  have hpred := h.pred_next k hi
  rw [hP, hB] at hcut hnodup
  rw [hB] at hpred
  have hxB : x ∉ B := by
    have hxL := (List.nodup_cons.mp h.nodup).2
    rw [h.split_at hB] at hxL
    exact (List.nodup_cons.mp (List.nodup_append.mp hxL).2.1).1
  have hother : ∀ y ≠ x, y ≠ pred s k L i → (s'.mem y).mapoNexts i = (s.mem y).mapoNexts i := by
    intro y hyx hy
    rw [hunlinked.nexts y hyx, if_neg fun hcond => hy hcond.2.1]
  have hgoal : s'.mpoHead :: atLevel s'.mem i (above s.mem k L ++ B) =
      P ++ pred s k L i :: atLevel s.mem i B := by
    rw [hunlinked.head, hunlinked.same.atLevel, atLevel_append, ← List.cons_append, hP,
      List.append_assoc]
    rfl
  rw [hgoal, hunlinked.head]
  by_cases hix : i < (s.mem x).miLevel
  · have hx_at : atLevel s.mem i (x :: B) = x :: atLevel s.mem i B := by simp [atLevel, hix]
    rw [hx_at, List.append_assoc, List.singleton_append] at hcut hnodup
    rw [hx_at] at hpred
    have hxL : x ∈ L := notAbove_subset s.mem k (by rw [hB]; exact List.mem_cons_self ..)
    have hlevel : i < s.miLevel := lt_of_lt_of_le hix (h.heights_le x hxL)
    obtain ⟨hPn, hrest, hdisj⟩ := List.nodup_append.mp hnodup
    obtain ⟨hpred_notin, hrest⟩ := List.nodup_cons.mp hrest
    refine hcut.remove_after ?_ (fun z hz => hother z ?_ ?_) fun z hz => hother z ?_ ?_
    · rw [hunlinked.nexts _ (h.pred_ne_found hB i), if_pos ⟨hlevel, rfl, hpred⟩]
    · exact fun heq => hdisj z hz x (by simp) heq
    · exact fun heq => hdisj z hz _ (by simp) heq
    · exact fun heq => (List.nodup_cons.mp hrest).1 (heq ▸ hz)
    · exact fun heq => hpred_notin (heq ▸ List.mem_cons_of_mem x hz)
  · have hx_at : atLevel s.mem i (x :: B) = atLevel s.mem i B := by simp [atLevel, hix]
    rw [hx_at, List.append_assoc, List.singleton_append] at hcut
    rw [hx_at] at hpred
    refine hcut.congr fun y hy => ?_
    by_cases heq : y = pred s k L i
    · subst heq
      rw [hunlinked.nexts _ (h.pred_ne_found hB i), if_neg]
      rintro ⟨-, -, hnext⟩
      rw [hpred] at hnext
      exact hxB (mem_atLevel.mp (List.mem_of_mem_head? hnext)).1
    · refine hother y (fun hyx => ?_) heq
      subst hyx
      rcases List.mem_append.mp hy with hyP | hyB
      · have hmem : y ∈ s.mpoHead :: atLevel s.mem i (above s.mem k L) := by
          rw [hP]
          exact List.mem_append_left _ hyP
        have hyx : y ∈ notAbove s.mem k L := by
          rw [hB]
          exact List.mem_cons_self ..
        rcases List.mem_cons.mp hmem with hhead | hmem
        · exact (List.nodup_cons.mp h.nodup).1 (hhead ▸ notAbove_subset s.mem k hyx)
        · exact absurd (mem_above (mem_atLevel.mp hmem).1).2 (not_lt.mpr (h.notAbove_le hyx))
      · rcases List.mem_cons.mp hyB with hyB | hyB
        · exact heq hyB
        · exact hxB (mem_atLevel.mp hyB).1

/-- The backward links once `x` is taken out. -/
theorem Unlinked.prevs {s' : CSkipList ν K V} (hunlinked : Unlinked s L k x B s')
    (h : Stands maxLvl s L) (hB : notAbove s.mem k L = x :: B) :
    Seg (fun y => (s'.mem y).mpoPrev) s'.mpoTail (above s.mem k L ++ B).reverse none := by
  have hprevs := h.prevs
  have hnodup := (List.nodup_cons.mp h.nodup).2
  rw [h.split_at hB] at hnodup
  rw [h.split_at hB, List.reverse_append, List.reverse_cons, List.append_assoc,
    List.singleton_append] at hprevs
  obtain ⟨-, hxB, hdisj⟩ := List.nodup_append.mp hnodup
  have hBnodup := (List.nodup_cons.mp hxB).2
  rw [List.reverse_append]
  refine hprevs.remove (fun hnil => ?_) (fun hne => ?_) (fun z hz => ?_) (fun z hz => ?_)
    fun z hz => ?_
  · exact hunlinked.last (List.reverse_eq_nil_iff.mp hnil)
  · obtain ⟨b, hb⟩ : ∃ b, B.head? = some b := by
      cases B with
      | nil => exact absurd rfl hne
      | cons b B => exact ⟨b, rfl⟩
    exact (hunlinked.first b hb).2
  · rw [List.getLast?_reverse] at hz
    exact (hunlinked.first z hz).1
  · cases B with
    | nil => simp at hz
    | cons b B =>
      rw [List.reverse_cons, List.dropLast_concat] at hz
      refine hunlinked.other z fun hhead => ?_
      cases hhead
      exact (List.nodup_cons.mp hBnodup).1 (List.mem_reverse.mp hz)
  · refine hunlinked.other z fun hhead => ?_
    exact hdisj z (List.mem_reverse.mp hz) z
      (List.mem_cons_of_mem x (List.mem_of_mem_head? hhead)) rfl

/-- Taking out the first node with the key keeps the invariant. -/
theorem Unlinked.stands {s' : CSkipList ν K V} (hunlinked : Unlinked s L k x B s')
    (h : Stands maxLvl s L) (hB : notAbove s.mem k L = x :: B) :
    Stands maxLvl s' (above s.mem k L ++ B) := by
  have hsub : (above s.mem k L ++ B).Sublist L := by
    have hcons : (above s.mem k L ++ B).Sublist (above s.mem k L ++ x :: B) :=
      List.Sublist.append_left (List.sublist_cons_self x B) _
    rwa [← h.split_at hB] at hcons
  refine h.shrink hsub hunlinked.same hunlinked.head
    (fun i hi => hunlinked.chains h hB (i := i) hi) (hunlinked.prevs h hB) ?_ hunlinked.level
  rw [hunlinked.length, h.length_eq]
  conv_lhs => rw [h.split_at hB]
  simp

/-- Deleting by key takes out one node with the key if there is one, and changes
nothing otherwise. -/
theorem Stands.delete (h : Stands maxLvl s L) (hmax : maxLvl ≤ updateSize) (k : K) :
    (∃ s' x L', s.delete k = some (s', some x) ∧ SameNodes s.mem s'.mem ∧
      s'.mpoHead = s.mpoHead ∧ x ∈ L ∧ (s.mem x).mtKey = k ∧ L.Perm (x :: L') ∧
      Stands maxLvl s' L') ∨
    ((∀ x ∈ L, (s.mem x).mtKey ≠ k) ∧ s.delete k = some (s, none)) := by
  by_cases hfound : ∃ x ∈ L, (s.mem x).mtKey = k
  · obtain ⟨x, hx, hkey⟩ := (h.exists_key_iff k).mp hfound
    obtain ⟨B, hB⟩ : ∃ B, notAbove s.mem k L = x :: B := by
      cases hL : notAbove s.mem k L with
      | nil => simp [hL] at hx
      | cons b B =>
        rw [hL] at hx
        cases hx
        exact ⟨B, rfl⟩
    obtain ⟨s', hdelete, hunlinked⟩ := h.delete_unlinked hmax hB hkey
    have hxL : x ∈ L := notAbove_subset s.mem k (by rw [hB]; exact List.mem_cons_self ..)
    have hperm : L.Perm (x :: (above s.mem k L ++ B)) := by
      conv_lhs => rw [h.split_at hB]
      exact List.perm_middle
    exact .inl ⟨s', x, _, hdelete, hunlinked.same, hunlinked.head, hxL, hkey, hperm,
      hunlinked.stands h hB⟩
  · refine .inr ⟨fun x hx hkey => hfound ⟨x, hx, hkey⟩, ?_⟩
    obtain ⟨upd, v, hsearch, -, -, hv⟩ := h.search hmax k h.level_le
      (u := s.mpoHead) (fun _ => s.mpoHead) fun i _ => List.mem_cons_self ..
    have hmatch : s.matching k v = none := by
      rw [hv h.level_pos, h.matching]
      refine Option.filter_eq_none_iff.mpr fun x hx hkey => hfound ?_
      exact (h.exists_key_iff k).mpr ⟨x, hx, by simpa using hkey⟩
    unfold CSkipList.delete
    split
    · rfl
    · rw [hsearch]
      simp only [hmatch]

end Delete

-- ---------------------------------------------------------------------------
-- Histories
-- ---------------------------------------------------------------------------

inductive Op (ν K V : Type) where
  /-- `x` is a fresh node: key, height and value are set, the links are not. -/
  | insert (x : ν) (node : SkipNode ν K V)
  | delete (aKey : K)
  | find (aKey : K)

inductive Reply (ν : Type) where
  | inserted
  | deleted (r : Option ν)
  | found (r : Option ν)
  /-- The call does not come back, or writes past its array. -/
  | lost

def step (s : CSkipList ν K V) : Op ν K V → CSkipList ν K V × Reply ν
  | .insert x node =>
    match ({ s with mem := Function.update s.mem x node } : CSkipList ν K V).insert x with
    | none => (s, .lost)
    | some s => (s, .inserted)
  | .delete aKey =>
    match s.delete aKey with
    | none => (s, .lost)
    | some (s, r) => (s, .deleted r)
  | .find aKey =>
    match s.find aKey with
    | none => (s, .lost)
    | some r => (s, .found r)

/-- A list in memory `mem` with its head node at `head`. -/
def machine (mem : ν → SkipNode ν K V) (head : ν) (maxLvl : Nat) :
    Machine (CSkipList ν K V) (Op ν K V) (Reply ν) :=
  ⟨init mem head maxLvl, step⟩

/-- A node with its key and its height. -/
abbrev Entry (ν K : Type) := ν × K × Nat

/-- The nodes that are there after an operation, from those before it. -/
def leaves (E : List (Entry ν K)) : Op ν K V → Reply ν → List (Entry ν K)
  | .insert x node, _ => (x, node.mtKey, node.miLevel) :: E
  | .delete _, .deleted (some x) => E.filter fun e => e.1 ≠ x
  | _, _ => E

/-- The nodes inserted and not deleted since. -/
def live : List (Step (CSkipList ν K V) (Op ν K V) (Reply ν)) → List (Entry ν K)
  | [] => []
  | st :: tr => leaves (live tr) st.input st.output

/-- A node is inserted that is not in the list, with a height from 1 to `MAX_LVL`. -/
def Admits (head : ν) (maxLvl : Nat) (E : List (Entry ν K)) : Op ν K V → Prop
  | .insert x node =>
    x ≠ head ∧ x ∉ E.map Prod.fst ∧ 0 < node.miLevel ∧ node.miLevel ≤ maxLvl
  | _ => True

def Admissible (head : ν) (maxLvl : Nat) :
    List (Step (CSkipList ν K V) (Op ν K V) (Reply ν)) → Prop
  | [] => True
  | st :: tr => Admits head maxLvl (live tr) st.input ∧ Admissible head maxLvl tr

/-- What an operation has to answer when the nodes in the list are `E`. -/
def Answers (E : List (Entry ν K)) (st : Step (CSkipList ν K V) (Op ν K V) (Reply ν)) : Prop :=
  match st.input with
  | .insert _ _ => st.output = .inserted
  | .delete aKey =>
    (∃ e ∈ E, e.2.1 = aKey ∧ st.output = .deleted (some e.1)) ∨
    ((∀ e ∈ E, e.2.1 ≠ aKey) ∧ st.output = .deleted none ∧ st.post = st.pre)
  | .find aKey =>
    st.post = st.pre ∧
    ((∃ e ∈ E, e.2.1 = aKey ∧ st.output = .found (some e.1)) ∨
      ((∀ e ∈ E, e.2.1 ≠ aKey) ∧ st.output = .found none))

def AllAnswer : List (Step (CSkipList ν K V) (Op ν K V) (Reply ν)) → Prop
  | [] => True
  | st :: tr => Answers (live tr) st ∧ AllAnswer tr

def entries (mem : ν → SkipNode ν K V) (L : List ν) : List (Entry ν K) :=
  L.map fun x => (x, (mem x).mtKey, (mem x).miLevel)

omit [DecidableEq ν] [LinearOrder K] in
theorem SameNodes.entries {mem mem' : ν → SkipNode ν K V} (h : SameNodes mem mem') (L : List ν) :
    CSkipList.entries mem' L = CSkipList.entries mem L := by
  unfold CSkipList.entries
  exact List.map_congr_left fun x _ => by rw [(h x).1, (h x).2]

omit [DecidableEq ν] [LinearOrder K] in
theorem map_fst_entries (mem : ν → SkipNode ν K V) (L : List ν) :
    (entries mem L).map Prod.fst = L := by
  simp [entries, Function.comp_def]

/-- Writing to a cell that is in no chain changes nothing. -/
theorem Stands.put (h : Stands maxLvl s L) {x : ν} (hx : x ∉ s.mpoHead :: L)
    (node : SkipNode ν K V) :
    Stands maxLvl { s with mem := Function.update s.mem x node } L := by
  have hsame : ∀ y ∈ s.mpoHead :: L, Function.update s.mem x node y = s.mem y := by
    intro y hy
    have hne : y ≠ x := fun heq => hx (heq ▸ hy)
    exact Function.update_of_ne hne node s.mem
  have hL : ∀ y ∈ L, Function.update s.mem x node y = s.mem y := fun y hy =>
    hsame y (List.mem_cons_of_mem _ hy)
  have hat : ∀ i, atLevel (Function.update s.mem x node) i L = atLevel s.mem i L := fun i =>
    List.filter_congr fun y hy => by rw [hL y hy]
  refine ⟨h.nodup, ?_, ?_, ?_, ?_, h.length_eq, h.level_pos, h.level_le, ?_, fun hone => ?_⟩
  · refine h.sorted.imp_of_mem fun ha hb hle => ?_
    dsimp only
    rw [hL _ ha, hL _ hb]
    exact hle
  · intro y hy
    dsimp only
    rw [hL y hy]
    exact h.heights y hy
  · intro i hi
    dsimp only
    rw [hat]
    refine (h.chains i hi).congr fun y hy => ?_
    rw [hsame y]
    exact (List.Sublist.cons_cons _ List.filter_sublist).subset hy
  · refine h.prevs.congr fun y hy => ?_
    dsimp only
    rw [hL y (List.mem_reverse.mp hy)]
  · intro y hy
    dsimp only
    rw [hL y hy]
    exact h.heights_le y hy
  · obtain ⟨y, hy, hlevel⟩ := h.level_used hone
    refine ⟨y, hy, ?_⟩
    dsimp only
    rw [hL y hy]
    exact hlevel

theorem stands_init (mem : ν → SkipNode ν K V) (head : ν) {maxLvl : Nat} (hpos : 1 ≤ maxLvl) :
    Stands maxLvl (init mem head maxLvl) [] := by
  refine ⟨by simp, List.Pairwise.nil, by simp, fun i hi => ?_, rfl, rfl, Nat.le_refl 1, hpos,
    by simp, fun hone => absurd hone (by simp [init])⟩
  simp [init, atLevel, hi]

/-- One operation keeps the invariant and answers as it has to. -/
theorem Stands.step (h : Stands maxLvl s L) (hmax : maxLvl ≤ updateSize) {E : List (Entry ν K)}
    (hperm : (entries s.mem L).Perm E) {op : Op ν K V} (hop : Admits s.mpoHead maxLvl E op) :
    (s.step op).1.mpoHead = s.mpoHead ∧
    ∃ L', Stands maxLvl (s.step op).1 L' ∧
      (entries (s.step op).1.mem L').Perm (leaves E op (s.step op).2) ∧
      Answers E ⟨s, op, (s.step op).2, (s.step op).1⟩ := by
  cases op with
  | insert x node =>
    obtain ⟨hxhead, hxE, hlow, hhigh⟩ := hop
    have hx : x ∉ s.mpoHead :: L := by
      rw [← (hperm.map Prod.fst).mem_iff, map_fst_entries] at hxE
      simp [hxhead, hxE]
    have hself : Function.update s.mem x node x = node := Function.update_self ..
    obtain ⟨s', L', hinsert, hsame, hhead, hperm', hstands⟩ :=
      (h.put hx node).insert hmax (x := x) hx (by simpa [hself] using hlow)
        (by simpa [hself] using hhigh)
    have hstep : s.step (.insert x node) = (s', .inserted) := by
      simp only [CSkipList.step, hinsert]
    rw [hstep]
    refine ⟨hhead, L', hstands, ?_, rfl⟩
    rw [hsame.entries]
    refine (hperm'.map _).trans ?_
    dsimp only
    rw [List.map_cons, hself, leaves]
    refine List.Perm.cons _ (List.Perm.trans ?_ hperm)
    refine List.Perm.of_eq (List.map_congr_left fun y hy => ?_)
    have hyx : y ≠ x := fun heq => hx (List.mem_cons_of_mem _ (heq ▸ hy))
    rw [Function.update_of_ne hyx]
  | delete aKey =>
    rcases h.delete hmax aKey with
      ⟨s', x, L', hdelete, hsame, hhead, hx, hkey, hperm', hstands⟩ | ⟨hnone, hdelete⟩
    · have hstep : s.step (.delete aKey) = (s', .deleted (some x)) := by
        simp only [CSkipList.step, hdelete]
      have hxL' : x ∉ L' := by
        have hnodup := (List.nodup_cons.mp h.nodup).2
        exact (List.nodup_cons.mp (hperm'.nodup_iff.mp hnodup)).1
      rw [hstep]
      refine ⟨hhead, L', hstands, ?_, .inl ⟨(x, (s.mem x).mtKey, (s.mem x).miLevel), ?_, hkey, rfl⟩⟩
      · rw [hsame.entries, leaves]
        refine List.Perm.trans (List.Perm.of_eq ?_)
          ((((hperm'.map _).symm.trans hperm)).filter fun e => decide (e.1 ≠ x))
        rw [List.map_cons, List.filter_cons_of_neg (by simp)]
        refine (List.filter_eq_self.mpr fun e he => ?_).symm
        obtain ⟨y, hy, rfl⟩ := List.mem_map.mp he
        simpa using fun heq : y = x => hxL' (heq ▸ hy)
      · exact hperm.mem_iff.mp (List.mem_map_of_mem hx)
    · have hstep : s.step (.delete aKey) = (s, .deleted none) := by
        simp only [CSkipList.step, hdelete]
      rw [hstep]
      refine ⟨rfl, L, h, hperm, .inr ⟨fun e he => ?_, rfl, rfl⟩⟩
      obtain ⟨y, hy, rfl⟩ := List.mem_map.mp (hperm.mem_iff.mpr he)
      exact hnone y hy
  | find aKey =>
    obtain ⟨r, hfind, hfound, hiff⟩ := h.find hmax aKey
    have hstep : s.step (.find aKey) = (s, .found r) := by
      simp only [CSkipList.step, hfind]
    rw [hstep]
    refine ⟨rfl, L, h, hperm, rfl, ?_⟩
    cases r with
    | some x =>
      obtain ⟨hx, hkey⟩ := hfound x rfl
      exact .inl ⟨_, hperm.mem_iff.mp (List.mem_map_of_mem hx), hkey, rfl⟩
    | none =>
      refine .inr ⟨fun e he hkey => ?_, rfl⟩
      obtain ⟨y, hy, rfl⟩ := List.mem_map.mp (hperm.mem_iff.mpr he)
      exact hiff.mp ⟨y, hy, hkey⟩ rfl

/-- The list behind the state is what the history has left. -/
def Sound (maxLvl : Nat) (head : ν) (tr : List (Step (CSkipList ν K V) (Op ν K V) (Reply ν)))
    (s : CSkipList ν K V) : Prop :=
  s.mpoHead = head ∧ (∃ L, Stands maxLvl s L ∧ (entries s.mem L).Perm (live tr)) ∧ AllAnswer tr

/-- Every history of insertions, searches and deletions by key keeps the skip list
in order, and every call answers as the list of the live nodes says. -/
theorem skipList_run (mem : ν → SkipNode ν K V) (head : ν) (maxLvl : Nat) (hpos : 1 ≤ maxLvl)
    (hmax : maxLvl ≤ updateSize) (ops : List (Op ν K V))
    (hadm : Admissible head maxLvl ((machine mem head maxLvl).trace ops)) :
    Sound maxLvl head ((machine mem head maxLvl).trace ops) ((machine mem head maxLvl).run ops) := by
  refine (machine mem head maxLvl).invariant (C := Admissible head maxLvl)
    (P := fun tr s => Sound maxLvl head tr s) (fun _ _ h => h.2)
    ⟨rfl, ⟨[], stands_init mem head hpos, .refl _⟩, trivial⟩ ?_ ops hadm
  rintro ops op hadm ⟨hhead, ⟨L, hL, hperm⟩, hanswers⟩
  have hop : Admits ((machine mem head maxLvl).run ops).mpoHead maxLvl
      (live ((machine mem head maxLvl).trace ops)) op := by
    rw [hhead]
    exact hadm.1
  obtain ⟨hhead', L', hL', hperm', hanswer⟩ := hL.step hmax hperm hop
  exact ⟨hhead'.trans hhead, ⟨L', hL', hperm'⟩, hanswer, hanswers⟩

/-- Two nodes with the key 5, of heights 2 and 1, one of which is deleted again. -/
def duplicates : List (Op Nat Nat Unit) :=
  [.delete 5, .insert 2 ⟨5, 1, (), none, fun _ => none⟩, .insert 1 ⟨5, 2, (), none, fun _ => none⟩]

theorem sound_duplicates :
    ((machine (V := Unit) (fun _ => ⟨0, 0, (), none, fun _ => none⟩) 0 10).run
      duplicates).miLength = 1 ∧
    Sound 10 0 ((machine (V := Unit) (fun _ => ⟨0, 0, (), none, fun _ => none⟩) 0 10).trace
      duplicates) ((machine (V := Unit) (fun _ => ⟨0, 0, (), none, fun _ => none⟩) 0 10).run
        duplicates) := by
  refine ⟨by decide, skipList_run _ 0 10 (by decide) (by decide) duplicates ?_⟩
  exact ⟨trivial, ⟨by decide, by decide, by decide, by decide⟩,
    ⟨by decide, by decide, by decide, by decide⟩, trivial⟩

end CSkipList

end Netfram
