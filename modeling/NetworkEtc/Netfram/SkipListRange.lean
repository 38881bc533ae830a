-- SUMMARY: Deleting from the front of the skip list, between two keys and by node, and when the list outlives it.
import NetworkEtc.Netfram.SkipListCut
import Mathlib.Order.Fin.Basic
import Mathlib.Data.BitVec

/-!
# `DeleteGE`, `DeleteIn` and `Delete(Node*)`

None of the three takes the nodes it passes out of every level. `DeleteGE` lets every link
of the head lead to the one node it has found and keeps the tail, `DeleteIn` keeps the tail
and all backward links, and `Delete(Node*)` compares the links with the predecessor of the
node and takes nothing out.
-/

namespace Netfram

open Library

namespace CSkipList

variable {ν K V : Type} [DecidableEq ν] [LinearOrder K]
variable {maxLvl : Nat} {s s' : CSkipList ν K V} {L L' : List ν} {k : K} {x y : ν}
  {mem mem' : ν → SkipNode ν K V} {i : Nat}

omit [DecidableEq ν] in
/-- A memory stands for one list only. -/
theorem Stands.unique (h : Stands maxLvl s L) (h' : Stands maxLvl s L') : L = L' :=
  List.reverse_injective (h.prevs.unique h'.prevs)

omit [DecidableEq ν] in
/-- A link of level `i` leads to a node of the level. -/
theorem Stands.next_mem (h : Stands maxLvl s L) (hi : i < maxLvl)
    (hx : x ∈ s.mpoHead :: atLevel s.mem i L) (hnext : (s.mem x).mapoNexts i = some y) :
    y ∈ atLevel s.mem i L := by
  obtain ⟨P, Q, hsplit⟩ := List.append_of_mem hx
  have hchain := h.chains i hi
  rw [hsplit] at hchain
  have hhead : Q.head? = some y := by
    rw [← hchain.next_eq]
    exact hnext
  have hmem : y ∈ Q := List.mem_of_mem_head? hhead
  cases P with
  | nil =>
    rw [(List.cons.inj hsplit).2]
    exact hmem
  | cons p P =>
    rw [(List.cons.inj hsplit).2]
    exact List.mem_append_right _ (List.mem_cons_of_mem x hmem)

omit [DecidableEq ν] in
/-- What the topmost link of a node leads to is a node. -/
theorem Stands.top_mem (h : Stands maxLvl s L) (hx : x ∈ L)
    (hnext : (s.mem x).mapoNexts ((s.mem x).miLevel - 1) = some y) : y ∈ L := by
  obtain ⟨hlow, hhigh⟩ := h.heights x hx
  have hmem : x ∈ atLevel s.mem ((s.mem x).miLevel - 1) L := mem_atLevel.mpr ⟨hx, by omega⟩
  exact (mem_atLevel.mp (h.next_mem (by omega) (List.mem_cons_of_mem _ hmem) hnext)).1

-- ---------------------------------------------------------------------------
-- Deleting up to a key
-- ---------------------------------------------------------------------------

/-- The loop of `DeleteGE` goes no further from `q`: its topmost link leads to `next`, which
is below the key. -/
structure Stops (mem : ν → SkipNode ν K V) (k : K) (q : ν) (next : Option ν) : Prop where
  key : k ≤ (mem q).mtKey
  top : (mem q).mapoNexts ((mem q).miLevel - 1) = next
  below : ∀ x ∈ next, (mem x).mtKey < k

omit [DecidableEq ν] in
/-- The loop ends at a node that it stops behind. -/
theorem Stands.passTop_stops (h : Stands maxLvl s L) {fuel : Nat} {p q : ν} {op next : Option ν}
    (hpass : passTop s.mem k fuel p op = some (q, next)) (hp : p ∈ L)
    (hkey : k ≤ (s.mem p).mtKey)
    (htop : (s.mem p).mapoNexts ((s.mem p).miLevel - 1) = op) :
    q ∈ L ∧ Stops s.mem k q next := by
  induction fuel generalizing p op with
  | zero => simp [passTop] at hpass
  | succ fuel ih =>
    cases op with
    | none =>
      simp only [passTop, Option.some.injEq, Prod.mk.injEq] at hpass
      obtain ⟨rfl, rfl⟩ := hpass
      exact ⟨hp, hkey, htop, by simp⟩
    | some u =>
      rw [passTop] at hpass
      split at hpass
      · rename_i hu
        exact ih hpass (h.top_mem hp htop) hu rfl
      · rename_i hu
        simp only [Option.some.injEq, Prod.mk.injEq] at hpass
        obtain ⟨rfl, rfl⟩ := hpass
        refine ⟨hp, hkey, htop, fun x hx => ?_⟩
        cases hx
        exact not_le.mp hu

omit [DecidableEq ν] in
/-- The loop from a node it stops behind. -/
theorem Stops.passTop {q : ν} {next : Option ν} (h : Stops mem k q next) (fuel : Nat) :
    passTop mem k (fuel + 2) q (some q) = some (q, next) := by
  rw [CSkipList.passTop, if_pos h.key, h.top]
  cases next with
  | none => rfl
  | some x => rw [CSkipList.passTop, if_neg (not_le.mpr (h.below x rfl))]

theorem Stops.setNext {q : ν} {next : Option ν} (h : Stops mem k q next) {z : ν} (hz : q ≠ z)
    (i : Nat) (p : Option ν) : Stops (setNext mem z i p) k q next where
  key := by simpa using h.key
  top := by simpa [setNext_nexts, hz] using h.top
  below x hx := by simpa using h.below x hx

omit [DecidableEq ν] in
/-- The tail of the list, when it is not empty. -/
theorem Stands.tail_ne_none (h : Stands maxLvl s L) (hL : L ≠ []) : s.mpoTail ≠ none := by
  intro htail
  have hhead : s.mpoTail = L.reverse.head? := h.prevs.start_none
  rw [htail] at hhead
  exact hL (List.reverse_eq_nil_iff.mp (List.head?_eq_none_iff.mp hhead.symm))

omit [LinearOrder K] in
/-- Parting the front touches the links of the lowest level only. -/
theorem partFront_same {head : ν} {next : Option ν} (hpart : partFront mem head next = some mem') :
    SameNodes mem mem' ∧ ∀ y j, j ≠ 0 → (mem' y).mapoNexts j = (mem y).mapoNexts j := by
  unfold partFront at hpart
  split at hpart
  · cases hpart
    exact ⟨fun _ => ⟨rfl, rfl⟩, fun _ _ _ => rfl⟩
  · split at hpart
    · cases hpart
      exact ⟨fun _ => ⟨rfl, rfl⟩, fun _ _ _ => rfl⟩
    · split at hpart
      · cases hpart
      · cases hpart
        refine ⟨fun y => by simp, fun y j hj => ?_⟩
        simp [setNext_nexts, hj]

/-- After the loop over the levels all links of the head lead to the same place. -/
theorem Stops.relinkHead_head {q : ν} {next : Option ν} {n : Nat}
    (h : Stops mem k q next) (hq : q ≠ s.mpoHead) (hrun : s.relinkHead k n mem q = some mem') :
    SameNodes mem mem' ∧ (∀ i < n, (mem' s.mpoHead).mapoNexts i = next) ∧
      ∀ i, n ≤ i → (mem' s.mpoHead).mapoNexts i = (mem s.mpoHead).mapoNexts i := by
  induction n generalizing mem with
  | zero =>
    cases hrun
    exact ⟨fun _ => ⟨rfl, rfl⟩, fun _ hi => absurd hi (Nat.not_lt_zero _), fun _ _ => rfl⟩
  | succ n ih =>
    rw [relinkHead, h.passTop] at hrun
    by_cases hn : n = 0
    · subst hn
      simp only [if_pos] at hrun
      cases hpart : partFront mem s.mpoHead next with
      | none => simp [hpart] at hrun
      | some mem₁ =>
        obtain ⟨hsame, hnexts⟩ := partFront_same hpart
        simp only [hpart, relinkHead, Option.some.injEq] at hrun
        subst hrun
        refine ⟨fun y => by simpa using hsame y, fun i hi => ?_, fun i hi => ?_⟩
        · obtain rfl : i = 0 := by omega
          simp [setNext_nexts]
        · have hi0 : i ≠ 0 := by omega
          simp [setNext_nexts, hi0, hnexts]
    · simp only [if_neg hn] at hrun
      obtain ⟨hsame, hbelow, habove⟩ := ih (h.setNext hq n next) hrun
      refine ⟨fun y => by simpa using hsame y, fun i hi => ?_, fun i hi => ?_⟩
      · cases Nat.lt_or_ge i n with
        | inl hlt => exact hbelow i hlt
        | inr hge =>
          obtain rfl : i = n := by omega
          rw [habove i hge]
          simp [setNext_nexts]
      · have hin : i ≠ n := by omega
        rw [habove i (by omega)]
        simp [setNext_nexts, hin]

/-- What `DeleteGE` has to do: `r`, which it returns, heads the chain of the nodes with keys
from `k` up, and the list is one of the others. -/
structure RemovesGE (maxLvl : Nat) (s : CSkipList ν K V) (L : List ν) (k : K)
    (s' : CSkipList ν K V) (r : Option ν) : Prop where
  same : SameNodes s.mem s'.mem
  returned : Seg (fun x => (s'.mem x).mapoNexts 0) r
    (L.filter fun x => decide (k ≤ (s.mem x).mtKey)) none
  left : Stands maxLvl s' (L.filter fun x => decide ((s.mem x).mtKey < k))

/-- Where `DeleteGE` changes the list, it leaves the tail, and all levels of the head lead to
one place. -/
theorem Stands.deleteGE_some (h : Stands maxLvl s L) {r : Option ν}
    (hrun : s.deleteGE k = some (s', r)) (hfound : ∃ x ∈ L, k ≤ (s.mem x).mtKey) :
    s'.mpoHead = s.mpoHead ∧ s'.mpoTail = s.mpoTail ∧
      ∃ next, ∀ i < s.miLevel, (s'.mem s.mpoHead).mapoNexts i = next := by
  obtain ⟨x, hx, hkey⟩ := hfound
  have hpos : 0 < maxLvl := Nat.lt_of_lt_of_le h.level_pos h.level_le
  cases L with
  | nil => cases hx
  | cons a L =>
    have hlength : s.miLength ≠ 0 := by
      rw [h.length_eq]
      simp
    have hfirst : (s.mem s.mpoHead).mapoNexts 0 = some a := by
      have hchain := h.chains 0 hpos
      rw [h.atLevel_zero (List.Subset.refl _)] at hchain
      exact hchain.2.start_none
    have ha : k ≤ (s.mem a).mtKey := by
      cases List.mem_cons.mp hx with
      | inl heq => exact heq ▸ hkey
      | inr hin => exact le_trans hkey (List.rel_of_pairwise_cons h.sorted hin)
    have hahead : ∀ q ∈ a :: L, q ≠ s.mpoHead := by
      rintro q hq rfl
      exact (List.nodup_cons.mp h.nodup).1 hq
    unfold CSkipList.deleteGE at hrun
    simp only [if_neg hlength, hfirst, if_neg (not_lt.mpr ha)] at hrun
    cases hrelink : s.relinkHead k s.miLevel s.mem a with
    | none => simp [hrelink] at hrun
    | some mem =>
      simp only [hrelink, Option.map_eq_some_iff, Prod.mk.injEq] at hrun
      obtain ⟨miLength, -, rfl, -⟩ := hrun
      refine ⟨rfl, rfl, ?_⟩
      -- the first turn finds the place, the others find it again
      obtain ⟨n, hn⟩ : ∃ n, s.miLevel = n + 1 := ⟨s.miLevel - 1, by have := h.level_pos; omega⟩
      have hpass : ∃ q next, passTop s.mem k (s.miLength + 2) a (some a) = some (q, next) := by
        rw [hn, relinkHead] at hrelink
        cases hpass : passTop s.mem k (s.miLength + 2) a (some a) with
        | none => simp [hpass] at hrelink
        | some stop => exact ⟨stop.1, stop.2, rfl⟩
      obtain ⟨q, next, hpass⟩ := hpass
      have hfrom := hpass
      rw [CSkipList.passTop, if_pos ha] at hfrom
      obtain ⟨hq, hstops⟩ := h.passTop_stops hfrom List.mem_cons_self ha rfl
      have hsame : s.relinkHead k s.miLevel s.mem q = some mem := by
        rw [hn, relinkHead] at hrelink ⊢
        rw [hstops.passTop]
        rwa [hpass] at hrelink
      exact ⟨next, (hstops.relinkHead_head (hahead q hq) hsame).2.1⟩

/-- The first node below the key, where `DeleteGE` has done what it has to. -/
theorem RemovesGE.full_height {r : Option ν} (hremoves : RemovesGE maxLvl s L k s' r)
    (h : Stands maxLvl s L) (hrun : s.deleteGE k = some (s', r))
    (hfound : ∃ x ∈ L, k ≤ (s.mem x).mtKey) :
    ∃ x, (L.filter fun x => decide ((s.mem x).mtKey < k)).head? = some x ∧
      (s.mem x).miLevel = s.miLevel := by
  obtain ⟨hhead, htail, next, hnext⟩ := h.deleteGE_some hrun hfound
  have hpos := h.level_pos
  have hle := h.level_le
  have hleft := hremoves.left
  generalize hB : (L.filter fun x => decide ((s.mem x).mtKey < k)) = B at hleft
  have hlevel : ∀ i < s.miLevel, (atLevel s'.mem i B).head? = next := by
    intro i hi
    rw [← hnext i hi, ← hhead]
    exact ((hleft.chains i (by omega)).2.start_none).symm
  cases B with
  | nil =>
    -- the tail is still there, but no node
    obtain ⟨x, hx, -⟩ := hfound
    have htailEq : s'.mpoTail = none := hleft.prevs.start_none
    rw [htail] at htailEq
    exact absurd htailEq (h.tail_ne_none (List.ne_nil_of_mem hx))
  | cons b B =>
    refine ⟨b, rfl, ?_⟩
    have hb : b ∈ L := by
      have hmem : b ∈ L.filter fun x => decide ((s.mem x).mtKey < k) := by
        rw [hB]
        exact List.mem_cons_self
      exact (List.mem_filter.mp hmem).1
    have hfirst : (atLevel s'.mem 0 (b :: B)).head? = some b := by
      rw [hleft.atLevel_zero (List.Subset.refl _)]
      rfl
    -- the head leads to `b` on the lowest level, so it does on the highest
    have htop := hlevel (s.miLevel - 1) (by omega)
    rw [← hlevel 0 (by omega), hfirst] at htop
    have hheight := (mem_atLevel.mp (List.mem_of_mem_head? htop)).2
    rw [(hremoves.same b).2] at hheight
    have := h.heights_le b hb
    omega

omit [DecidableEq ν] in
/-- Cut of the list where the keys fall below `k`. -/
theorem Stands.split_below (h : Stands maxLvl s L) (k : K) :
    L = (L.filter fun x => decide (k ≤ (s.mem x).mtKey)) ++
      L.filter fun x => decide ((s.mem x).mtKey < k) := by
  have hsorted := h.sorted
  clear h
  induction L with
  | nil => rfl
  | cons a L ih =>
    obtain ⟨ha, hL⟩ := List.pairwise_cons.mp hsorted
    by_cases hkey : k ≤ (s.mem a).mtKey
    · have hnot : ¬ (s.mem a).mtKey < k := not_lt.mpr hkey
      simp only [List.filter_cons, decide_eq_true hkey, decide_eq_false hnot, if_true,
        Bool.false_eq_true, if_false, List.cons_append]
      rw [← ih hL]
    · have hlt : (s.mem a).mtKey < k := not_le.mp hkey
      have hfront : L.filter (fun x => decide (k ≤ (s.mem x).mtKey)) = [] := by
        apply List.filter_eq_nil_iff.mpr
        intro x hx
        simpa using lt_of_le_of_lt (ha x hx) hlt
      have hback : L.filter (fun x => decide ((s.mem x).mtKey < k)) = L := by
        apply List.filter_eq_self.mpr
        intro x hx
        exact decide_eq_true (lt_of_le_of_lt (ha x hx) hlt)
      simp only [List.filter_cons, decide_eq_false hkey, decide_eq_true hlt, if_true,
        Bool.false_eq_true, if_false, hfront, hback, List.nil_append]

omit [DecidableEq ν] in
/-- From a node with a key from `k` up the loop comes to `x`, which is on all levels. -/
theorem Stands.passTop_full (h : Stands maxLvl s L) (hx : (s.mem x).mtKey < k)
    (hfull : (s.mem x).miLevel = s.miLevel) {fuel : Nat} {P Q B : List ν} {u p : ν}
    (hsplit : L = P ++ u :: (Q ++ x :: B)) (hu : k ≤ (s.mem u).mtKey)
    (hQ : ∀ y ∈ Q, k ≤ (s.mem y).mtKey) (hfuel : Q.length + 2 ≤ fuel) :
    ∃ q ∈ u :: Q, passTop s.mem k fuel p (some u) = some (q, some x) := by
  induction hlen : Q.length using Nat.strongRecOn generalizing P Q u p fuel with
  | ind n ih =>
    obtain ⟨fuel, rfl⟩ : ∃ m, fuel = m + 1 := ⟨fuel - 1, by omega⟩
    have huL : u ∈ L := by
      rw [hsplit]
      simp
    obtain ⟨hlow, hhigh⟩ := h.heights u huL
    generalize hlevel : (s.mem u).miLevel - 1 = i
    have hx_at : x ∈ atLevel s.mem i (x :: B) := by
      refine mem_atLevel.mpr ⟨List.mem_cons_self, ?_⟩
      have := h.heights_le u huL
      omega
    have hxB : atLevel s.mem i (x :: B) = x :: atLevel s.mem i B := by
      simp [atLevel, (mem_atLevel.mp hx_at).2]
    -- what the topmost link of `u` leads to
    have hnext : (s.mem u).mapoNexts i = (atLevel s.mem i Q ++ x :: atLevel s.mem i B).head? := by
      have hchain := h.chains i (by omega)
      have hui : i < (s.mem u).miLevel := by omega
      have hu_at : atLevel s.mem i (u :: (Q ++ x :: B)) =
          u :: (atLevel s.mem i Q ++ x :: atLevel s.mem i B) := by
        rw [← hxB, ← atLevel_append]
        simp [atLevel, hui]
      rw [hsplit, atLevel_append, hu_at, ← List.cons_append] at hchain
      exact hchain.next_eq
    rw [passTop, if_pos hu, hlevel, hnext]
    cases hQi : atLevel s.mem i Q with
    | nil =>
      obtain ⟨fuel, rfl⟩ : ∃ m, fuel = m + 1 := ⟨fuel - 1, by omega⟩
      refine ⟨u, List.mem_cons_self, ?_⟩
      simp only [List.nil_append, List.head?_cons, passTop, if_neg (not_le.mpr hx)]
    | cons v R =>
      have hv : v ∈ Q := (mem_atLevel.mp (hQi ▸ List.mem_cons_self)).1
      obtain ⟨Q₁, Q₂, rfl⟩ := List.append_of_mem hv
      simp only [List.length_append, List.length_cons] at hlen hfuel
      have hsplit' : L = (P ++ u :: Q₁) ++ v :: (Q₂ ++ x :: B) := by
        rw [hsplit]
        simp
      have hfuel' : Q₂.length + 2 ≤ fuel := by omega
      obtain ⟨q, hq, hpass⟩ := ih Q₂.length (by omega) (p := u) hsplit' (hQ v hv)
        (fun y hy => hQ y (by simp [hy])) hfuel' rfl
      refine ⟨q, ?_, ?_⟩
      · exact List.mem_cons_of_mem u (List.mem_append_right _ hq)
      · simpa using hpass

/-- The loop over the levels from a node it stops behind, in front of the node `x`: `last` is
the node in front of `x`. -/
theorem Stops.relinkHead_eq {q last : ν} {n : Nat} (h : Stops mem k q (some x))
    (hq : q ≠ s.mpoHead) (hlast : last ≠ s.mpoHead) (hprev : (mem x).mpoPrev = some last)
    (hfirst : (mem s.mpoHead).mapoNexts 0 ≠ some x) :
    ∃ mem', s.relinkHead k (n + 1) mem q = some mem' ∧
      (∀ y j, (mem' y).mapoNexts j =
        if y = s.mpoHead ∧ j ≤ n then some x else if y = last ∧ j = 0 then none
        else (mem y).mapoNexts j) ∧
      ∀ y, (mem' y).mpoPrev = if y = x then none else (mem y).mpoPrev := by
  induction n generalizing mem with
  | zero =>
    refine ⟨_, by rw [relinkHead, h.passTop]; simp [partFront, hfirst, hprev, relinkHead]; rfl,
      fun y j => ?_, fun y => ?_⟩
    · by_cases hy : y = s.mpoHead
      · subst hy
        simp [setNext_nexts, hlast.symm]
      · simp [setNext_nexts, hy]
    · simp [setPrev_prev]
  | succ n ih =>
    have hprev' : ((CSkipList.setNext mem s.mpoHead (n + 1) (some x)) x).mpoPrev = some last := by
      simpa using hprev
    have hfirst' : ((CSkipList.setNext mem s.mpoHead (n + 1) (some x)) s.mpoHead).mapoNexts 0 ≠
        some x := by
      simpa [setNext_nexts] using hfirst
    obtain ⟨mem', hrun, hnexts, hprevs⟩ := ih (h.setNext hq (n + 1) (some x)) hprev' hfirst'
    refine ⟨mem', ?_, fun y j => ?_, fun y => by simpa using hprevs y⟩
    · rw [relinkHead, h.passTop]
      simpa using hrun
    · rw [hnexts, setNext_nexts]
      by_cases hy : y = s.mpoHead
      · by_cases hj : j ≤ n
        · have hj' : j ≤ n + 1 := by omega
          simp [hy, hj, hj']
        · by_cases hj' : j = n + 1
          · simp [hy, hj']
          · have hj'' : ¬ j ≤ n + 1 := by omega
            simp [hy, hj, hj', hj'']
      · simp [hy]

/-- What `DeleteGE` does to the memory where it finds `x` on all levels: the head leads to it
everywhere, and it is parted from `last`, the node in front. -/
structure Parted (s : CSkipList ν K V) (last x : ν) (mem : ν → SkipNode ν K V) : Prop where
  same : SameNodes s.mem mem
  nexts : ∀ y j, (mem y).mapoNexts j =
    if y = s.mpoHead ∧ j < s.miLevel then some x else if y = last ∧ j = 0 then none
    else (s.mem y).mapoNexts j
  prev : ∀ y, (mem y).mpoPrev = if y = x then none else (s.mem y).mpoPrev

section Parted

variable {a last : ν} {A P B : List ν}

theorem Stands.parted (h : Stands maxLvl s L) (hsplit : L = a :: A ++ x :: B)
    (hlast : a :: A = P ++ [last]) (hfront : ∀ y ∈ a :: A, k ≤ (s.mem y).mtKey)
    (hx : (s.mem x).mtKey < k) (hfull : (s.mem x).miLevel = s.miLevel) :
    ∃ mem, s.relinkHead k s.miLevel s.mem a = some mem ∧ Parted s last x mem := by
  have hpos := h.level_pos
  have hle := h.level_le
  have hnodup := h.nodup
  rw [hsplit] at hnodup
  obtain ⟨hheadL, hLnodup⟩ := List.nodup_cons.mp hnodup
  have hhead : ∀ y ∈ a :: A, y ≠ s.mpoHead := by
    rintro y hy rfl
    exact hheadL (List.mem_append_left _ hy)
  have hlastMem : last ∈ a :: A := by
    rw [hlast]
    simp
  have haL : a ∈ L := by
    rw [hsplit]
    simp
  have hxprev : (s.mem x).mpoPrev = some last := by
    have hprevs := h.prevs
    rw [hsplit, List.reverse_append, List.reverse_cons, List.append_assoc,
      List.singleton_append] at hprevs
    rw [hprevs.next_eq, hlast]
    simp
  have hfirst : (s.mem s.mpoHead).mapoNexts 0 ≠ some x := by
    have hchain := h.chains 0 (by omega)
    rw [h.atLevel_zero (List.Subset.refl _), hsplit] at hchain
    have hnext : (s.mem s.mpoHead).mapoNexts 0 = some a := hchain.2.start_none
    have hax : a ≠ x := (List.nodup_append.mp hLnodup).2.2 a List.mem_cons_self x
      List.mem_cons_self
    simpa [hnext] using hax
  -- the first turn stops behind a node `q`, and so do the others
  have hfuel : A.length + 2 ≤ s.miLength + 2 := by
    rw [h.length_eq, hsplit]
    simp only [List.cons_append, List.length_cons, List.length_append]
    omega
  have ha := hfront a List.mem_cons_self
  obtain ⟨q, hq, hpass⟩ := h.passTop_full (p := a) (P := []) hx hfull hsplit ha
    (fun y hy => hfront y (List.mem_cons_of_mem a hy)) hfuel
  have hstops : Stops s.mem k q (some x) := by
    have hfrom := hpass
    rw [CSkipList.passTop, if_pos ha] at hfrom
    exact (h.passTop_stops hfrom haL ha rfl).2
  obtain ⟨n, hn⟩ : ∃ n, s.miLevel = n + 1 := ⟨s.miLevel - 1, by omega⟩
  obtain ⟨mem, hrelink, hnexts, hprev⟩ := hstops.relinkHead_eq (s := s) (n := n) (hhead q hq)
    (hhead last hlastMem) hxprev hfirst
  refine ⟨mem, ?_, ?_, fun y j => ?_, hprev⟩
  · rw [relinkHead, hstops.passTop] at hrelink
    rw [hn, relinkHead, hpass]
    exact hrelink
  · exact (hstops.relinkHead_head (hhead q hq) hrelink).1
  · have hlt : j < s.miLevel ↔ j ≤ n := by omega
    simp only [hnexts, hlt]

/-- Every chain behind the relinked head. -/
theorem Parted.chains {mem : ν → SkipNode ν K V} (hparted : Parted s last x mem)
    (h : Stands maxLvl s L) (hsplit : L = a :: A ++ x :: B) (hlast : last ∈ a :: A)
    (hfull : (s.mem x).miLevel = s.miLevel) {i : Nat} (hi : i < maxLvl) :
    Seg (fun y => (mem y).mapoNexts i) (some s.mpoHead)
      (s.mpoHead :: atLevel mem i (x :: B)) none := by
  have hnodup := h.nodup
  rw [hsplit] at hnodup
  obtain ⟨hheadL, hLnodup⟩ := List.nodup_cons.mp hnodup
  rw [hparted.same.atLevel]
  have hchain := h.chains i hi
  by_cases hlevel : i < s.miLevel
  · have hxB : atLevel s.mem i (x :: B) = x :: atLevel s.mem i B := by
      simp [atLevel, hfull, hlevel]
    rw [hsplit, atLevel_append, ← List.cons_append] at hchain
    obtain ⟨r, -, hback⟩ := seg_append.mp hchain
    refine ⟨rfl, ?_⟩
    have hhead : (mem s.mpoHead).mapoNexts i = some x := by
      rw [hparted.nexts, if_pos ⟨rfl, hlevel⟩]
    have hr : r = some x := by
      rw [hxB] at hback
      exact hback.1
    dsimp only
    rw [hhead, ← hr]
    refine hback.congr fun y hy => ?_
    have hyB := (mem_atLevel.mp hy).1
    have hyhead : y ≠ s.mpoHead := by
      rintro rfl
      exact hheadL (List.mem_append_right _ hyB)
    have hylast : y ≠ last := ((List.nodup_append.mp hLnodup).2.2 last hlast y hyB).symm
    rw [hparted.nexts, if_neg fun hcond => hyhead hcond.1, if_neg fun hcond => hylast hcond.1]
  · -- no node is as high
    have hnone : ∀ A ⊆ L, atLevel s.mem i A = [] := by
      intro A hA
      apply List.filter_eq_nil_iff.mpr
      intro y hy
      have := h.heights_le y (hA hy)
      simp
      omega
    have hsub : x :: B ⊆ L := by
      rw [hsplit]
      exact List.subset_append_right _ _
    have hpos := h.level_pos
    rw [hnone L (List.Subset.refl L)] at hchain
    rw [hnone _ hsub]
    refine hchain.congr fun y _ => ?_
    rw [hparted.nexts, if_neg fun hcond => hlevel hcond.2, if_neg (by omega)]

/-- The nodes in front are a chain that ends. -/
theorem Parted.detached {mem : ν → SkipNode ν K V} (hparted : Parted s last x mem)
    (h : Stands maxLvl s L) (hsplit : L = a :: A ++ x :: B) (hlast : a :: A = P ++ [last]) :
    Seg (fun y => (mem y).mapoNexts 0) (some a) (a :: A) none := by
  have hpos := h.level_pos
  have hle := h.level_le
  have hnodup := h.nodup
  rw [hsplit] at hnodup
  obtain ⟨hheadL, hLnodup⟩ := List.nodup_cons.mp hnodup
  have hPnodup : (P ++ [last]).Nodup := hlast ▸ (List.nodup_append.mp hLnodup).1
  have hchain := h.chains 0 (by omega)
  rw [h.atLevel_zero (List.Subset.refl _), hsplit] at hchain
  obtain ⟨r, hfront, -⟩ := seg_append.mp hchain.2
  have hstart := hfront.1
  rw [hlast] at hfront hheadL ⊢
  rw [← hstart]
  refine hfront.extend (fun z hz => ?_) (fun z hz => ?_) (by simp)
  · rw [List.getLast?_concat, Option.mem_some_iff] at hz
    subst hz
    have hne : last ≠ s.mpoHead := by
      rintro rfl
      exact hheadL (by simp)
    rw [hparted.nexts, if_neg fun hcond => hne hcond.1, if_pos ⟨rfl, rfl⟩]
  · rw [List.dropLast_concat] at hz
    have hne : z ≠ s.mpoHead := by
      rintro rfl
      exact hheadL (by simp [hz])
    have hzlast : z ≠ last := (List.nodup_append.mp hPnodup).2.2 z hz last List.mem_cons_self
    rw [hparted.nexts, if_neg fun hcond => hne hcond.1, if_neg fun hcond => hzlast hcond.1]

/-- The backward links end at `x`. -/
theorem Parted.prevs {mem : ν → SkipNode ν K V} (hparted : Parted s last x mem)
    (h : Stands maxLvl s L) (hsplit : L = a :: A ++ x :: B) :
    Seg (fun y => (mem y).mpoPrev) s.mpoTail (x :: B).reverse none := by
  have hLnodup := (List.nodup_cons.mp h.nodup).2
  rw [hsplit] at hLnodup
  have hxB := (List.nodup_cons.mp (List.nodup_append.mp hLnodup).2.1).1
  have hprevs := h.prevs
  rw [hsplit, List.reverse_append, List.reverse_cons, List.append_assoc,
    List.singleton_append] at hprevs
  obtain ⟨r, hback, hrx, -⟩ := seg_append.mp hprevs
  rw [List.reverse_cons]
  refine seg_concat.mpr ⟨?_, ?_⟩
  · rw [← hrx]
    refine hback.congr fun y hy => ?_
    have hyx : y ≠ x := by
      rintro rfl
      exact hxB (List.mem_reverse.mp hy)
    rw [hparted.prev, if_neg hyx]
  · rw [hparted.prev, if_pos rfl]

end Parted

/-- Where the first node below the key is on all levels, `DeleteGE` does what it has to. -/
theorem Stands.removesGE (h : Stands maxLvl s L) {a : ν} {A B : List ν}
    (hA : (L.filter fun x => decide (k ≤ (s.mem x).mtKey)) = a :: A)
    (hB : (L.filter fun x => decide ((s.mem x).mtKey < k)) = x :: B)
    (hfull : (s.mem x).miLevel = s.miLevel) :
    ∃ s' r, s.deleteGE k = some (s', r) ∧ RemovesGE maxLvl s L k s' r := by
  have hsplit := h.split_below k
  rw [hA, hB] at hsplit
  have hpos := h.level_pos
  have hle := h.level_le
  have hfront : ∀ y ∈ a :: A, k ≤ (s.mem y).mtKey := by
    intro y hy
    rw [← hA] at hy
    simpa using (List.mem_filter.mp hy).2
  have hx : (s.mem x).mtKey < k := by
    have hmem : x ∈ L.filter fun x => decide ((s.mem x).mtKey < k) := hB ▸ List.mem_cons_self
    simpa using (List.mem_filter.mp hmem).2
  obtain ⟨P, last, hlast⟩ : ∃ P last, a :: A = P ++ [last] :=
    ⟨_, _, (List.dropLast_append_getLast (List.cons_ne_nil a A)).symm⟩
  obtain ⟨mem, hrelink, hparted⟩ := h.parted hsplit hlast hfront hx hfull
  have hdetached := hparted.detached h hsplit hlast
  have hlength : s.miLength = (a :: A).length + (x :: B).length := by
    rw [h.length_eq, hsplit, List.length_append]
  have hkept : (a :: A).length ≤ s.miLength + 1 := by omega
  have hfix := fixLength_seg (n := s.miLength) hdetached hkept
  have hnonempty : s.miLength ≠ 0 := by
    rw [hlength]
    simp
  have hfirst : (s.mem s.mpoHead).mapoNexts 0 = some a := by
    have hchain := h.chains 0 (by omega)
    rw [h.atLevel_zero (List.Subset.refl _), hsplit] at hchain
    exact hchain.2.start_none
  refine ⟨{ s with
      mem
      miLength := s.miLength - (a :: A).length
      miLevel := fixLevel (mem s.mpoHead) s.miLevel }, some a, ?_, hparted.same, hA ▸ hdetached, ?_⟩
  · unfold CSkipList.deleteGE
    simp only [if_neg hnonempty, hfirst, if_neg (not_lt.mpr (hfront a List.mem_cons_self)),
      hrelink, hfix, Option.map_some]
  · rw [hB]
    have hlastMem : last ∈ a :: A := by
      rw [hlast]
      simp
    have hsub : (x :: B).Sublist L := by
      rw [hsplit]
      exact List.sublist_append_right _ _
    refine h.shrink hsub hparted.same rfl (fun i hi => hparted.chains h hsplit hlastMem hfull hi)
      (hparted.prevs h hsplit) ?_ rfl
    dsimp only
    omega

/-- With no key from `k` up `DeleteGE` has nothing to do, and does nothing. -/
theorem Stands.removesGE_none (h : Stands maxLvl s L) (hbelow : ∀ x ∈ L, (s.mem x).mtKey < k) :
    ∃ s' r, s.deleteGE k = some (s', r) ∧ RemovesGE maxLvl s L k s' r := by
  have hpos := h.level_pos
  have hle := h.level_le
  have hA : L.filter (fun x => decide (k ≤ (s.mem x).mtKey)) = [] := by
    apply List.filter_eq_nil_iff.mpr
    intro x hx
    simpa using hbelow x hx
  have hB : L.filter (fun x => decide ((s.mem x).mtKey < k)) = L :=
    List.filter_eq_self.mpr fun x hx => decide_eq_true (hbelow x hx)
  refine ⟨s, none, ?_, fun _ => ⟨rfl, rfl⟩, by rw [hA]; rfl, by rwa [hB]⟩
  have hchain := h.chains 0 (by omega)
  rw [h.atLevel_zero (List.Subset.refl _)] at hchain
  have hfirst : (s.mem s.mpoHead).mapoNexts 0 = L.head? := hchain.2.start_none
  unfold CSkipList.deleteGE
  cases L with
  | nil => simp [h.length_eq]
  | cons a L => simp [h.length_eq, hfirst, hbelow a List.mem_cons_self]

/-- `DeleteGE` does what it has to if and only if there is nothing to delete, or there are nodes
below the key and the first of them is as high as the list. -/
theorem removesGE_iff (h : Stands maxLvl s L) (k : K) :
    (∃ s' r, s.deleteGE k = some (s', r) ∧ RemovesGE maxLvl s L k s' r) ↔
      (∀ x ∈ L, (s.mem x).mtKey < k) ∨
        ∃ x, (L.filter fun x => decide ((s.mem x).mtKey < k)).head? = some x ∧
          (s.mem x).miLevel = s.miLevel := by
  constructor
  · rintro ⟨s', r, hrun, hremoves⟩
    by_cases hfound : ∃ x ∈ L, k ≤ (s.mem x).mtKey
    · exact .inr (hremoves.full_height h hrun hfound)
    · exact .inl fun x hx => not_le.mp fun hkey => hfound ⟨x, hx, hkey⟩
  · intro hcases
    by_cases hbelow : ∀ x ∈ L, (s.mem x).mtKey < k
    · exact h.removesGE_none hbelow
    · obtain ⟨x, hx, hfull⟩ := hcases.resolve_left hbelow
      obtain ⟨B, hB⟩ := List.head?_eq_some_iff.mp hx
      cases hA : L.filter fun x => decide (k ≤ (s.mem x).mtKey) with
      | nil =>
        refine absurd (fun y hy => not_le.mp fun hkey => ?_) hbelow
        exact List.filter_eq_nil_iff.mp hA y hy (decide_eq_true hkey)
      | cons a A => exact h.removesGE hA hB hfull

/-- The second of two nodes is on both levels, and the first is taken off in front of it. -/
theorem removesGE_twoNodes : ∃ s' r, (twoNodes 5 3).deleteGE 4 = some (s', r) ∧
    RemovesGE 10 (twoNodes 5 3) [1, 2] 4 s' r :=
  (removesGE_iff (stands_twoNodes (by decide)) 4).mpr (.inr ⟨2, by decide, rfl⟩)

/-- Where all nodes go the tail stays. -/
theorem not_removesGE_twoNodes : Stands 10 (twoNodes 5 3) [1, 2] ∧
    ¬ ∃ s' r, (twoNodes 5 3).deleteGE 3 = some (s', r) ∧
      RemovesGE 10 (twoNodes 5 3) [1, 2] 3 s' r := by
  have hstands : Stands 10 (twoNodes 5 3) [1, 2] := stands_twoNodes (by decide)
  refine ⟨hstands, ?_⟩
  rintro ⟨s', r, hrun, hremoves⟩
  obtain ⟨x, hx, -⟩ := hremoves.full_height hstands hrun ⟨2, by decide, by decide⟩
  have hnone : [1, 2].filter (fun x => decide (((twoNodes 5 3).mem x).mtKey < 3)) = [] := by
    decide
  rw [hnone] at hx
  cases hx

-- ---------------------------------------------------------------------------
-- Deleting between two keys
-- ---------------------------------------------------------------------------

/-- What `DeleteIn` has to do: the list is one of the nodes whose key is not between the
bounds. -/
structure RemovesIn (maxLvl : Nat) (s : CSkipList ν K V) (L : List ν) (a b : K)
    (s' : CSkipList ν K V) : Prop where
  same : SameNodes s.mem s'.mem
  left : Stands maxLvl s'
    (L.filter fun x => decide (¬ (min a b ≤ (s.mem x).mtKey ∧ (s.mem x).mtKey ≤ max a b)))

omit [DecidableEq ν] [LinearOrder K] in
theorem fixLength_le {fuel m n : Nat} {p : Option ν} (hrun : fixLength mem fuel p n = some m) :
    m ≤ n := by
  induction fuel generalizing p n with
  | zero =>
    cases p with
    | none =>
      cases hrun
      exact Nat.le_refl m
    | some x => cases hrun
  | succ fuel ih =>
    cases p with
    | none =>
      cases hrun
      exact Nat.le_refl m
    | some x =>
      rw [fixLength] at hrun
      exact (ih hrun).trans (Nat.sub_le n 1)

omit [DecidableEq ν] [LinearOrder K] in
/-- The length loop takes off one node at least. -/
theorem fixLength_some_le {fuel m n : Nat} (hrun : fixLength mem fuel (some x) n = some m) :
    m ≤ n - 1 := by
  cases fuel with
  | zero => cases hrun
  | succ fuel =>
    rw [fixLength] at hrun
    exact fixLength_le hrun

omit [LinearOrder K] in
theorem endBefore_prev {lpoNode : Option ν} (hrun : endBefore mem lpoNode = some mem') (y : ν) :
    (mem' y).mpoPrev = (mem y).mpoPrev := by
  cases lpoNode with
  | none =>
    cases hrun
    rfl
  | some z =>
    simp only [endBefore, Option.map_eq_some_iff] at hrun
    obtain ⟨prev, -, rfl⟩ := hrun
    simp

/-- The level loop of `DeleteIn` leaves the backward links. -/
theorem spliceLevels_prev {aiEnd : K} {upd : Update ν} {n : Nat}
    (hrun : s.spliceLevels aiEnd upd n mem = some mem') (y : ν) :
    (mem' y).mpoPrev = (mem y).mpoPrev := by
  induction n generalizing mem with
  | zero =>
    cases hrun
    rfl
  | succ n ih =>
    rw [spliceLevels] at hrun
    split at hrun
    · cases hrun
    · rename_i lpoNode _
      dsimp only at hrun
      split at hrun
      · cases hrun
      · rename_i mem₁ hend
        have hmem : (mem₁ y).mpoPrev = (mem y).mpoPrev := by
          split at hend
          · rw [endBefore_prev hend, setNext_prev]
          · cases hend
            rw [setNext_prev]
        rw [ih hrun, hmem]

/-- Where the interval holds a node, `DeleteIn` counts fewer nodes and keeps the backward
links of them all. -/
theorem Stands.deleteBetween_found (h : Stands maxLvl s L) (hmax : maxLvl ≤ updateSize)
    {B : List ν} {aiStart aiEnd : K} (hB : notAbove s.mem aiStart L = x :: B)
    (hkey : aiEnd ≤ (s.mem x).mtKey) {r : Option ν}
    (hrun : s.deleteBetween aiStart aiEnd = some (s', r)) : ¬ Stands maxLvl s' L' := by
  intro h'
  obtain ⟨upd, hfind, -, -⟩ := h.findLE hmax hB false fun _ => s.mpoHead
  unfold CSkipList.deleteBetween at hrun
  simp only [hfind, if_neg (not_lt.mpr hkey)] at hrun
  cases hsplice : s.spliceLevels aiEnd upd s.miLevel s.mem with
  | none => simp [hsplice] at hrun
  | some mem =>
    simp only [hsplice, Option.map_eq_some_iff, Prod.mk.injEq] at hrun
    obtain ⟨miLength, hfix, rfl, -⟩ := hrun
    have hprevs : Seg (fun x => (mem x).mpoPrev) s.mpoTail L.reverse none :=
      h.prevs.congr fun y _ => spliceLevels_prev hsplice y
    have hL : L = L' := List.reverse_injective (hprevs.unique h'.prevs)
    have hless := fixLength_some_le hfix
    have hlength : miLength = L'.length := h'.length_eq
    have hx : x ∈ L := notAbove_subset s.mem aiStart (hB ▸ List.mem_cons_self)
    have hpos : 0 < L.length := List.length_pos_of_mem hx
    rw [h.length_eq] at hless
    rw [← hL] at hlength
    omega

/-- Where the interval holds no node, `DeleteIn` changes nothing. -/
theorem Stands.deleteBetween_none (h : Stands maxLvl s L) (hmax : maxLvl ≤ updateSize)
    {aiStart aiEnd : K} (hnone : ∀ x ∈ (notAbove s.mem aiStart L).head?, (s.mem x).mtKey < aiEnd) :
    s.deleteBetween aiStart aiEnd = some (s, none) := by
  unfold CSkipList.deleteBetween
  cases hB : notAbove s.mem aiStart L with
  | nil => rw [h.findLE_none hB]
  | cons x B =>
    obtain ⟨upd, hfind, -, -⟩ := h.findLE hmax hB false fun _ => s.mpoHead
    have hx : (s.mem x).mtKey < aiEnd := hnone x (by rw [hB]; rfl)
    simp only [hfind, if_pos hx]

/-- Between two equal bounds there is one key. -/
theorem between_self {a k : K} : (min a a ≤ k ∧ k ≤ max a a) ↔ k = a := by
  rw [min_self, max_self, le_antisymm_iff]
  exact and_comm

/-- Between equal bounds `DeleteIn` takes out one node, so it must be the only one. -/
theorem Stands.delete_removesIn_iff (h : Stands maxLvl s L) (hmax : maxLvl ≤ updateSize) (a : K) :
    (∃ s' r, s.delete a = some (s', r) ∧ RemovesIn maxLvl s L a a s') ↔
      ∀ x ∈ L, ∀ y ∈ L, (s.mem x).mtKey = a → (s.mem y).mtKey = a → x = y := by
  have hbetween : ∀ A : List ν, A.filter (fun y => decide (¬ (min a a ≤ (s.mem y).mtKey ∧
      (s.mem y).mtKey ≤ max a a))) = A.filter fun y => decide ((s.mem y).mtKey ≠ a) := by
    intro A
    simp only [between_self, ne_eq]
  by_cases hfound : ∃ x ∈ L, (s.mem x).mtKey = a
  · obtain ⟨x, hx, hkey⟩ := (h.exists_key_iff a).mp hfound
    obtain ⟨B, hB⟩ := List.head?_eq_some_iff.mp hx
    have hxL : x ∈ L := notAbove_subset s.mem a (hB ▸ List.mem_cons_self)
    obtain ⟨s₁, hdelete, hunlinked⟩ := h.delete_unlinked hmax hB hkey
    have hleft := hunlinked.stands h hB
    have hsplit := h.split_at hB
    constructor
    · rintro ⟨s', r, hrun, -, hin⟩
      rw [hdelete] at hrun
      cases hrun
      -- the nodes left are those in front of `x` and behind it, and none has the key
      rw [hbetween] at hin
      have heq := hleft.unique hin
      have hother : ∀ y ∈ L, (s.mem y).mtKey = a → y = x := by
        intro y hy hya
        by_contra hyx
        rw [hsplit] at hy
        have hyB : y ∈ above s.mem a L ++ B := by
          simpa [hyx] using hy
        rw [heq] at hyB
        simpa [hya] using (List.mem_filter.mp hyB).2
      intro y hy z hz hya hza
      rw [hother y hy hya, hother z hz hza]
    · intro hunique
      refine ⟨s₁, some x, hdelete, hunlinked.same, ?_⟩
      have hnodup := (List.nodup_cons.mp h.nodup).2
      rw [hsplit] at hnodup
      have hxB : x ∉ above s.mem a L ++ B :=
        (List.nodup_cons.mp (List.perm_middle.nodup_iff.mp hnodup)).1
      have hkeep : (above s.mem a L ++ B).filter (fun y => decide ((s.mem y).mtKey ≠ a)) =
          above s.mem a L ++ B := by
        apply List.filter_eq_self.mpr
        intro y hy
        have hyL : y ∈ L := by
          rw [hsplit]
          exact List.perm_middle.mem_iff.mpr (List.mem_cons_of_mem x hy)
        exact decide_eq_true fun hya => hxB (hunique y hyL x hxL hya hkey ▸ hy)
      have hdrop : L.filter (fun y => decide ((s.mem y).mtKey ≠ a)) = above s.mem a L ++ B := by
        conv_lhs => rw [hsplit]
        rw [List.filter_append, List.filter_cons_of_neg (by simp [hkey]), ← List.filter_append,
          hkeep]
      rw [hbetween, hdrop]
      exact hleft
  · have hdelete : s.delete a = some (s, none) := by
      cases h.delete hmax a with
      | inl hsome =>
        obtain ⟨-, x, -, -, -, -, hx, hkey, -⟩ := hsome
        exact absurd ⟨x, hx, hkey⟩ hfound
      | inr hnone => exact hnone.2
    have hkeep : L.filter (fun y => decide ((s.mem y).mtKey ≠ a)) = L :=
      List.filter_eq_self.mpr fun y hy => decide_eq_true fun hya => hfound ⟨y, hy, hya⟩
    constructor
    · intro _ x hx _ _ hxa
      exact absurd ⟨x, hx, hxa⟩ hfound
    · intro _
      refine ⟨s, none, hdelete, fun _ => ⟨rfl, rfl⟩, ?_⟩
      rw [hbetween, hkeep]
      exact h

omit [DecidableEq ν] in
/-- The first node that is not above `k` is not below any other. -/
theorem Stands.first_ge (h : Stands maxLvl s L) (hx : x ∈ L) (hkey : (s.mem x).mtKey ≤ k) :
    ∃ y ∈ (notAbove s.mem k L).head?, (s.mem x).mtKey ≤ (s.mem y).mtKey := by
  have hmem : x ∈ notAbove s.mem k L := by
    rw [h.notAbove_eq_filter]
    exact List.mem_filter.mpr ⟨hx, decide_eq_true hkey⟩
  have hsorted : (notAbove s.mem k L).Pairwise fun x y => (s.mem y).mtKey ≤ (s.mem x).mtKey :=
    h.sorted.sublist (List.dropWhile_sublist _)
  cases hB : notAbove s.mem k L with
  | nil =>
    rw [hB] at hmem
    cases hmem
  | cons y B =>
    rw [hB] at hmem hsorted
    refine ⟨y, rfl, ?_⟩
    cases List.mem_cons.mp hmem with
    | inl heq => rw [heq]
    | inr hin => exact List.rel_of_pairwise_cons hsorted hin

/-- Between two bounds `DeleteIn` is right where it finds no node, neither between the bounds
it goes by nor between those it was given. -/
theorem Stands.deleteBetween_removesIn_iff (h : Stands maxLvl s L) (hmax : maxLvl ≤ updateSize)
    (a b aiEnd : K) :
    (∃ s' r, s.deleteBetween (max a b) aiEnd = some (s', r) ∧ RemovesIn maxLvl s L a b s') ↔
      (∀ x ∈ L, ¬ (min a b ≤ (s.mem x).mtKey ∧ (s.mem x).mtKey ≤ max a b)) ∧
        ∀ x ∈ L, ¬ (aiEnd ≤ (s.mem x).mtKey ∧ (s.mem x).mtKey ≤ max a b) := by
  by_cases hfound : ∃ x ∈ (notAbove s.mem (max a b) L).head?, aiEnd ≤ (s.mem x).mtKey
  · obtain ⟨x, hx, hkey⟩ := hfound
    obtain ⟨B, hB⟩ := List.head?_eq_some_iff.mp hx
    have hmem : x ∈ notAbove s.mem (max a b) L := hB ▸ List.mem_cons_self
    constructor
    · rintro ⟨s', r, hrun, hin⟩
      exact absurd hin.left (h.deleteBetween_found hmax hB hkey hrun)
    · intro hnone
      exact absurd ⟨hkey, h.notAbove_le hmem⟩ (hnone.2 x (notAbove_subset s.mem _ hmem))
  · have hbelow : ∀ x ∈ (notAbove s.mem (max a b) L).head?, (s.mem x).mtKey < aiEnd :=
      fun x hx => not_le.mp fun hkey => hfound ⟨x, hx, hkey⟩
    have hrun := h.deleteBetween_none hmax hbelow
    have hoff : ∀ x ∈ L, ¬ (aiEnd ≤ (s.mem x).mtKey ∧ (s.mem x).mtKey ≤ max a b) := by
      intro x hx hkey
      obtain ⟨y, hy, hxy⟩ := h.first_ge hx hkey.2
      exact absurd (hkey.1.trans hxy) (not_le.mpr (hbelow y hy))
    constructor
    · intro hin
      obtain ⟨s', r, hrun', hin⟩ := hin
      rw [hrun] at hrun'
      cases hrun'
      refine ⟨fun x hx => ?_, hoff⟩
      rw [h.unique hin.left] at hx
      simpa only [decide_eq_true_eq] using (List.mem_filter.mp hx).2
    · intro hnone
      refine ⟨s, none, hrun, fun _ => ⟨rfl, rfl⟩, ?_⟩
      rw [List.filter_eq_self.mpr fun x hx => decide_eq_true (hnone.1 x hx)]
      exact h

/-- `DeleteIn` does what it has to if and only if its bounds are equal and one node at most has
the key, or they are not and there is nothing to delete, neither between them nor above what
the type `int` makes of the lower one when they come in the wrong order. -/
theorem removesIn_iff (h : Stands maxLvl s L) (hmax : maxLvl ≤ updateSize) (toInt : K → K)
    (a b : K) :
    (∃ s' r, s.deleteIn toInt a b = some (s', r) ∧ RemovesIn maxLvl s L a b s') ↔
      (a = b ∧ ∀ x ∈ L, ∀ y ∈ L, (s.mem x).mtKey = a → (s.mem y).mtKey = a → x = y) ∨
        (a ≠ b ∧ (∀ x ∈ L, ¬ (min a b ≤ (s.mem x).mtKey ∧ (s.mem x).mtKey ≤ max a b)) ∧
          (a < b → ∀ x ∈ L, ¬ (toInt a ≤ (s.mem x).mtKey ∧ (s.mem x).mtKey ≤ b))) := by
  by_cases hL : L = []
  · subst hL
    have hrun : s.deleteIn toInt a b = some (s, none) := if_pos h.length_eq
    constructor
    · intro _
      by_cases hab : a = b
      · exact .inl ⟨hab, by simp⟩
      · exact .inr ⟨hab, by simp, by simp⟩
    · intro _
      exact ⟨s, none, hrun, fun _ => ⟨rfl, rfl⟩, h⟩
  · have hlength : s.miLength ≠ 0 := by
      rw [h.length_eq]
      exact fun hzero => hL (List.length_eq_zero_iff.mp hzero)
    cases lt_trichotomy a b with
    | inl hlt =>
      have hrun : s.deleteIn toInt a b = s.deleteBetween b (toInt a) := by
        rw [CSkipList.deleteIn, if_neg hlength, if_pos hlt]
      have hbetween := h.deleteBetween_removesIn_iff hmax a b (toInt a)
      rw [max_eq_right hlt.le] at hbetween ⊢
      rw [hrun, hbetween]
      constructor
      · intro hnone
        exact .inr ⟨hlt.ne, hnone.1, fun _ => hnone.2⟩
      · intro hcases
        obtain ⟨-, hnone, htoInt⟩ := hcases.resolve_left fun heq => hlt.ne heq.1
        exact ⟨hnone, htoInt hlt⟩
    | inr hge =>
      cases hge with
      | inl heq =>
        subst heq
        have hrun : s.deleteIn toInt a a = s.delete a := by
          rw [CSkipList.deleteIn, if_neg hlength, if_neg (lt_irrefl a), if_pos rfl]
        rw [hrun, h.delete_removesIn_iff hmax a]
        constructor
        · intro hone
          exact .inl ⟨rfl, hone⟩
        · intro hcases
          exact (hcases.resolve_right fun hne => hne.1 rfl).2
      | inr hgt =>
        have hrun : s.deleteIn toInt a b = s.deleteBetween a b := by
          rw [CSkipList.deleteIn, if_neg hlength, if_neg (not_lt.mpr hgt.le), if_neg hgt.ne']
        have hbetween := h.deleteBetween_removesIn_iff hmax a b b
        rw [max_eq_left hgt.le, min_eq_right hgt.le] at hbetween
        rw [hrun, hbetween, max_eq_left hgt.le, min_eq_right hgt.le]
        constructor
        · intro hnone
          exact .inr ⟨hgt.ne', hnone.1, fun hlt => absurd hlt (not_lt.mpr hgt.le)⟩
        · intro hcases
          have hnone := (hcases.resolve_left fun heq => hgt.ne' heq.1).2.1
          exact ⟨hnone, hnone⟩

/-- What the type `int` makes of a 64-bit key: the lower half, with its sign. -/
def throughInt (key : Fin (2 ^ 64)) : Fin (2 ^ 64) :=
  (((BitVec.ofFin key).truncate 32).signExtend 64).toFin

example : throughInt 3000000000 = 18446744072414584320 := by decide

/-- Equal bounds, and one node with the key. -/
theorem removesIn_twoNodes : ∃ s' r,
    (twoNodes (5 : Fin (2 ^ 64)) 3).deleteIn throughInt 3 3 = some (s', r) ∧
      RemovesIn 10 (twoNodes (5 : Fin (2 ^ 64)) 3) [1, 2] 3 3 s' :=
  (removesIn_iff (stands_twoNodes (by decide)) (by decide) throughInt 3 3).mpr
    (.inl ⟨rfl, by decide⟩)

/-- A node between the bounds stays at the tail. -/
theorem not_removesIn_twoNodes : Stands 10 (twoNodes (5 : Fin (2 ^ 64)) 3) [1, 2] ∧
    ¬ ∃ s' r, (twoNodes (5 : Fin (2 ^ 64)) 3).deleteIn throughInt 4 2 = some (s', r) ∧
      RemovesIn 10 (twoNodes (5 : Fin (2 ^ 64)) 3) [1, 2] 4 2 s' := by
  have hstands : Stands 10 (twoNodes (5 : Fin (2 ^ 64)) 3) [1, 2] := stands_twoNodes (by decide)
  refine ⟨hstands, ?_⟩
  rintro ⟨s', r, hrun, hin⟩
  have hbetween : (twoNodes (5 : Fin (2 ^ 64)) 3).deleteBetween 4 2 = some (s', r) := hrun
  have hfirst : notAbove (twoNodes (5 : Fin (2 ^ 64)) 3).mem 4 [1, 2] = [2] := by decide
  exact hstands.deleteBetween_found (by decide) hfirst (by decide) hbetween hin.left

-- ---------------------------------------------------------------------------
-- Deleting a node
-- ---------------------------------------------------------------------------

/-- The walk to `x` stays on its level, in front of `x`. -/
theorem Stands.walkTo_mem (h : Stands maxLvl s L) (hi : i < maxLvl) {fuel : Nat} {u v : ν}
    (hu : u ∈ s.mpoHead :: atLevel s.mem i L) (hux : u ≠ x)
    (hrun : walkTo s.mem i x fuel u = some v) : v ∈ s.mpoHead :: atLevel s.mem i L ∧ v ≠ x := by
  induction fuel generalizing u with
  | zero => cases hrun
  | succ fuel ih =>
    rw [walkTo] at hrun
    split at hrun
    · cases hrun
      exact ⟨hu, hux⟩
    · rename_i next hnext
      split at hrun
      · rename_i hon
        exact ih (List.mem_cons_of_mem _ (h.next_mem hi hu hnext)) hon.1 hrun
      · cases hrun
        exact ⟨hu, hux⟩

/-- The search of `Delete(Node*)` ends at a node in front of `x`, which it keeps as the
predecessor on the lowest level. -/
theorem Stands.searchNode_mem (h : Stands maxLvl s L) {n : Nat} (hn : n ≤ maxLvl) {u v : ν}
    {upd upd' : Update ν} (hu : ∀ i, i + 1 = n → u ∈ s.mpoHead :: atLevel s.mem i L)
    (hux : u ≠ x) (hpos : 0 < n) (hrun : s.searchNode x n u upd = some (upd', v)) :
    upd' 0 = v ∧ v ∈ s.mpoHead :: L ∧ v ≠ x := by
  induction n generalizing u upd with
  | zero => cases hpos
  | succ n ih =>
    rw [searchNode] at hrun
    cases hwalk : walkTo s.mem n x (s.miLength + 1) u with
    | none => simp [hwalk] at hrun
    | some w =>
      simp only [hwalk] at hrun
      split at hrun
      · obtain ⟨hw, hwx⟩ := h.walkTo_mem (by omega) (hu n rfl) hux hwalk
        cases Nat.eq_zero_or_pos n with
        | inl hzero =>
          subst hzero
          cases hrun
          refine ⟨Function.update_self .., ?_, hwx⟩
          exact (List.Sublist.cons_cons _ List.filter_sublist).subset hw
        | inr hpos =>
          refine ih (by omega) (fun i hin => ?_) hwx hpos hrun
          cases List.mem_cons.mp hw with
          | inl hhead => exact List.mem_cons.mpr (.inl hhead)
          | inr hmem =>
            obtain ⟨hwL, hlevel⟩ := mem_atLevel.mp hmem
            exact List.mem_cons_of_mem _ (mem_atLevel.mpr ⟨hwL, by omega⟩)
      · cases hrun

omit [LinearOrder K] in
/-- The loop that takes `z` out of the levels leaves the lowest as it is where `z` does not
come behind the predecessor there. -/
theorem unlinkLevels_zero {z : ν} {upd : Update ν} (n : Nat)
    (hlink : (mem (upd 0)).mapoNexts 0 ≠ some z) (y : ν) :
    (unlinkLevels z upd n mem y).mapoNexts 0 = (mem y).mapoNexts 0 := by
  induction n generalizing mem with
  | zero => rfl
  | succ n ih =>
    rw [unlinkLevels]
    split
    · rename_i hnext
      have hn : 0 ≠ n := by
        rintro rfl
        exact hlink hnext
      have hsame : ∀ y, (setNext mem (upd n) n ((mem z).mapoNexts n) y).mapoNexts 0 =
          (mem y).mapoNexts 0 := by
        intro y
        rw [setNext_nexts, if_neg fun hcond => hn hcond.2]
      rw [ih (by rwa [hsame]), hsame]
    · exact ih hlink

omit [LinearOrder K] in
theorem unlinkPrev_head (s : CSkipList ν K V) (x : ν) : (unlinkPrev s x).mpoHead = s.mpoHead := by
  unfold unlinkPrev
  split <;> rfl

omit [LinearOrder K] in
theorem unlinkPrev_nexts (s : CSkipList ν K V) {y : ν} (hy : y ≠ x) (j : Nat) :
    ((unlinkPrev s x).mem y).mapoNexts j = (s.mem y).mapoNexts j := by
  unfold unlinkPrev
  split
  · simp [setNext_nexts, hy]
  · simp [setNext_nexts, hy]

/-- `Delete(Node*)` leaves the link to its node on the lowest level, so the node is still in
the list. -/
theorem Stands.deleteNode_mem (h : Stands maxLvl s L) (hx : x ∈ L) {r : Option ν}
    (hrun : s.deleteNode (some x) = some (s', r)) (h' : Stands maxLvl s' L')
    (hkeep : ∀ y ∈ L, y ≠ x → y ∈ L') : x ∈ L' := by
  have hpos := h.level_pos
  have hle := h.level_le
  have hheadx : s.mpoHead ≠ x := by
    rintro rfl
    exact (List.nodup_cons.mp h.nodup).1 hx
  rw [deleteNode] at hrun
  cases hsearch : s.searchNode x s.miLevel s.mpoHead (fun _ => s.mpoHead) with
  | none => simp [hsearch] at hrun
  | some found =>
    obtain ⟨upd, v⟩ := found
    obtain ⟨hv, hvL, hvx⟩ := h.searchNode_mem hle (fun _ _ => List.mem_cons_self) hheadx hpos
      hsearch
    simp only [hsearch] at hrun
    by_cases hlink : (s.mem (upd 0)).mapoNexts 0 = some x
    · simp only [hlink, ne_eq, not_true_eq_false, if_false, Option.map_eq_some_iff,
        Prod.mk.injEq] at hrun
      obtain ⟨miLength, -, rfl, -⟩ := hrun
      -- the loop looks for links to `v`, the predecessor itself
      have hkept : (unlinkLevels v upd s.miLevel s.mem v).mapoNexts 0 = some x := by
        have hother : (s.mem (upd 0)).mapoNexts 0 ≠ some v := by
          rw [hlink]
          simpa using hvx.symm
        rw [unlinkLevels_zero _ hother, ← hv, hlink]
      have hhead := unlinkPrev_head { s with mem := unlinkLevels v upd s.miLevel s.mem } x
      have hnext := unlinkPrev_nexts { s with mem := unlinkLevels v upd s.miLevel s.mem } hvx 0
      rw [hkept] at hnext
      have hvL' : v ∈ s.mpoHead :: L' := by
        cases List.mem_cons.mp hvL with
        | inl heq => exact List.mem_cons.mpr (.inl heq)
        | inr hmem => exact List.mem_cons_of_mem _ (hkeep v hmem hvx)
      have hzero := h'.atLevel_zero (List.Subset.refl L')
      rw [← hzero]
      refine h'.next_mem (x := v) (by omega) ?_ hnext
      rw [hzero]
      dsimp only
      rwa [hhead]
    · simp only [ne_eq, hlink, not_false_eq_true, if_true, Option.some.injEq,
        Prod.mk.injEq] at hrun
      obtain ⟨rfl, -⟩ := hrun
      rwa [← h.unique h']

/-- `Delete(Node*)` never leaves a list of the other nodes. -/
theorem not_removesNode (h : Stands maxLvl s L) (hx : x ∈ L) :
    ¬ ∃ s' r L', s.deleteNode (some x) = some (s', r) ∧ (∀ y, y ∈ L' ↔ y ∈ L ∧ y ≠ x) ∧
      Stands maxLvl s' L' := by
  rintro ⟨s', r, L', hrun, hmem, h'⟩
  have hin : x ∈ L' := h.deleteNode_mem hx hrun h' fun y hy hyx => (hmem y).mpr ⟨hy, hyx⟩
  exact ((hmem x).mp hin).2 rfl

/-- The first of two nodes with the same key. -/
theorem not_removesNode_twoNodes : ¬ ∃ s' r L',
    (twoNodes 5 5).deleteNode (some 1) = some (s', r) ∧ (∀ y, y ∈ L' ↔ y ∈ [1, 2] ∧ y ≠ 1) ∧
      Stands 10 s' L' :=
  not_removesNode (stands_twoNodes (by decide)) (by decide)

/-- The last of two nodes: the one in front still leads to it. -/
theorem deleteNode_twoNodes : Stands 10 (twoNodes 5 3) [1, 2] ∧
    ¬ ∃ s' r L', (twoNodes 5 3).deleteNode (some 2) = some (s', r) ∧
      (∀ y, y ∈ L' ↔ y ∈ [1, 2] ∧ y ≠ 2) ∧ Stands 10 s' L' := by
  have hstands : Stands 10 (twoNodes 5 3) [1, 2] := stands_twoNodes (by decide)
  refine ⟨hstands, ?_⟩
  rintro ⟨s', r, L', hrun, hmem, h'⟩
  have hin : 2 ∈ L' :=
    hstands.deleteNode_mem (by decide) hrun h' fun y hy hne => (hmem y).mpr ⟨hy, hne⟩
  exact ((hmem 2).mp hin).2 rfl

end CSkipList

end Netfram
