-- SUMMARY: Cutting the skip list off from a key on, with the search from its tail.
import NetworkEtc.Netfram.SkipListInv

/-!
# `DeleteLE` and `DeleteAfter`

Both end every level at the last node above the key, which leaves the nodes above it and
parts them from the others. `DeleteLE` looks for the place from the tail: it goes back to a
node above the key that is on all levels, and down from there as every search does.
-/

namespace Netfram

open Library

namespace CSkipList

variable {ν K V : Type} [DecidableEq ν] [LinearOrder K]
variable {maxLvl : Nat} {s s' : CSkipList ν K V} {L : List ν} {k : K} {x : ν} {B : List ν}

omit [DecidableEq ν] in
/-- In a sorted list the nodes above `k` are those in front. -/
theorem Stands.above_eq_filter (h : Stands maxLvl s L) (k : K) :
    above s.mem k L = L.filter fun x => decide (k < (s.mem x).mtKey) := by
  have hfront : (above s.mem k L).filter (fun x => decide (k < (s.mem x).mtKey)) =
      above s.mem k L :=
    List.filter_eq_self.mpr fun x hx => decide_eq_true (mem_above hx).2
  have hback : (notAbove s.mem k L).filter (fun x => decide (k < (s.mem x).mtKey)) = [] := by
    apply List.filter_eq_nil_iff.mpr
    intro x hx
    simpa using h.notAbove_le hx
  conv_rhs => rw [← above_append_notAbove s.mem k L]
  rw [List.filter_append, hfront, hback, List.append_nil]

omit [DecidableEq ν] in
/-- The others are those behind. -/
theorem Stands.notAbove_eq_filter (h : Stands maxLvl s L) (k : K) :
    notAbove s.mem k L = L.filter fun x => decide ((s.mem x).mtKey ≤ k) := by
  have hback : (notAbove s.mem k L).filter (fun x => decide ((s.mem x).mtKey ≤ k)) =
      notAbove s.mem k L :=
    List.filter_eq_self.mpr fun x hx => decide_eq_true (h.notAbove_le hx)
  have hfront : (above s.mem k L).filter (fun x => decide ((s.mem x).mtKey ≤ k)) = [] := by
    apply List.filter_eq_nil_iff.mpr
    intro x hx
    simpa using (mem_above hx).2
  conv_rhs => rw [← above_append_notAbove s.mem k L]
  rw [List.filter_append, hfront, hback, List.nil_append]

-- ---------------------------------------------------------------------------
-- Searching from the tail
-- ---------------------------------------------------------------------------

omit [DecidableEq ν] in
/-- Where the way back ends: a node that the search can start from on the highest level. -/
theorem retreat_spec {fuel : Nat} {P : List ν} {u : ν}
    (hseg : Seg (fun x => (s.mem x).mpoPrev) (some u) (u :: P) none) (hfuel : P.length < fuel) :
    ∃ v, s.retreat k fuel u = some v ∧
      (v = s.mpoHead ∨ (v ∈ u :: P ∧ k < (s.mem v).mtKey ∧ (s.mem v).miLevel = s.miLevel)) := by
  induction P generalizing u fuel with
  | nil =>
    obtain ⟨fuel, rfl⟩ : ∃ n, fuel = n + 1 := ⟨fuel - 1, by simp at hfuel; omega⟩
    have hprev : (s.mem u).mpoPrev = none := hseg.2
    unfold retreat
    by_cases hback : (s.mem u).mtKey ≤ k ∨ (s.mem u).miLevel ≠ s.miLevel
    · refine ⟨s.mpoHead, ?_, .inl rfl⟩
      simp [hback, hprev]
    · refine ⟨u, by simp [hback], .inr ⟨List.mem_cons_self, ?_⟩⟩
      simpa using hback
  | cons p P ih =>
    obtain ⟨fuel, rfl⟩ : ∃ n, fuel = n + 1 := ⟨fuel - 1, by simp at hfuel; omega⟩
    obtain ⟨-, hprev, hrest⟩ := hseg
    have hlen : P.length < fuel := by
      simp only [List.length_cons] at hfuel
      omega
    unfold retreat
    by_cases hback : (s.mem u).mtKey ≤ k ∨ (s.mem u).miLevel ≠ s.miLevel
    · obtain ⟨v, hv, hcases⟩ := ih (u := p) ⟨rfl, hrest⟩ hlen
      refine ⟨v, ?_, hcases.imp_right fun hin => ⟨List.mem_cons_of_mem u hin.1, hin.2⟩⟩
      have hprev' : (s.mem u).mpoPrev = some p := hprev
      simp [hback, hprev', hv]
    · refine ⟨u, by simp [hback], .inr ⟨List.mem_cons_self, ?_⟩⟩
      simpa using hback

omit [DecidableEq ν] in
/-- From either end `FindLE` fills the array with the predecessors. -/
theorem Stands.findLE (h : Stands maxLvl s L) (hmax : maxLvl ≤ updateSize)
    (hB : notAbove s.mem k L = x :: B) (abReverse : Bool) (upd : Update ν) :
    ∃ upd', s.findLE k abReverse upd = some (upd', some x) ∧
      (∀ i < s.miLevel, upd' i = pred s k L i) ∧ ∀ i, s.miLevel ≤ i → upd' i = upd i := by
  have hpos := h.level_pos
  have hle := h.level_le
  have hsplit := above_append_notAbove s.mem k L
  -- the tail is not above the key
  obtain ⟨tail, T, htail⟩ : ∃ tail T, L.reverse = tail :: T := by
    cases hL : L.reverse with
    | nil => simp [List.reverse_eq_nil_iff.mp hL, notAbove] at hB
    | cons tail T => exact ⟨tail, T, rfl⟩
  have hprevs := h.prevs
  have htailEq : s.mpoTail = some tail := by
    have hstart := hprevs.start_none
    rwa [htail] at hstart
  have htailMem : tail ∈ notAbove s.mem k L := by
    have hlast : L.getLast? = some tail := by
      rw [← List.head?_reverse, htail, List.head?_cons]
    rw [← hsplit, hB, List.getLast?_append_cons] at hlast
    rw [hB]
    exact List.mem_of_getLast? hlast
  have hnot : ¬ k < (s.mem tail).mtKey := not_lt.mpr (h.notAbove_le htailMem)
  -- where the search starts
  obtain ⟨u, hstart, hu⟩ : ∃ u, s.startLE k abReverse tail = some u ∧
      ∀ i, i + 1 = s.miLevel → u ∈ s.mpoHead :: atLevel s.mem i (above s.mem k L) := by
    cases abReverse with
    | false => exact ⟨s.mpoHead, rfl, fun i _ => List.mem_cons_self⟩
    | true =>
      rw [htailEq, htail] at hprevs
      have hlen : T.length < s.miLength + 1 := by
        have hlength := congrArg List.length htail
        rw [List.length_reverse, List.length_cons] at hlength
        have := h.length_eq
        omega
      obtain ⟨v, hv, hcases⟩ := retreat_spec (k := k) hprevs hlen
      refine ⟨v, hv, fun i hi => ?_⟩
      cases hcases with
      | inl hhead =>
        rw [hhead]
        exact List.mem_cons_self
      | inr hin =>
        obtain ⟨hmem, hkey, hlevel⟩ := hin
        rw [← htail, List.mem_reverse] at hmem
        apply List.mem_cons_of_mem
        rw [h.above_eq_filter]
        exact mem_atLevel.mpr ⟨List.mem_filter.mpr ⟨hmem, decide_eq_true hkey⟩, by omega⟩
  obtain ⟨upd', v, hsearch, hbelow, habove, hv⟩ := h.search hmax k hle upd hu
  refine ⟨upd', ?_, hbelow, habove⟩
  have hnext : (s.mem v).mapoNexts 0 = some x := by
    rw [hv hpos, h.pred_next k (i := 0) (by omega), h.atLevel_zero (notAbove_subset s.mem k), hB]
    rfl
  unfold CSkipList.findLE
  simp [htailEq, hnot, hstart, hsearch, hnext]

omit [DecidableEq ν] in
/-- `FindLE` finds nothing where all nodes are above the key. -/
theorem Stands.findLE_none (h : Stands maxLvl s L) (hB : notAbove s.mem k L = [])
    (abReverse : Bool) (upd : Update ν) : s.findLE k abReverse upd = some (upd, none) := by
  have hall : ∀ x ∈ L, k < (s.mem x).mtKey := by
    intro x hx
    rw [← above_append_notAbove s.mem k L, hB, List.append_nil] at hx
    exact (mem_above hx).2
  have htail : s.mpoTail = L.reverse.head? := h.prevs.start_none
  unfold CSkipList.findLE
  cases hL : L.reverse with
  | nil => simp [htail, hL]
  | cons tail T =>
    have hmem : tail ∈ L := by
      rw [← List.mem_reverse, hL]
      exact List.mem_cons_self
    simp [htail, hL, hall tail hmem]

omit [DecidableEq ν] in
/-- The array, the node found: all is the same from the tail and from the head. -/
theorem Stands.findLE_reverse (h : Stands maxLvl s L) (hmax : maxLvl ≤ updateSize) (k : K)
    (upd : Update ν) : ∃ r, s.findLE k true upd = some r ∧ s.findLE k false upd = some r := by
  cases hB : notAbove s.mem k L with
  | nil => exact ⟨_, h.findLE_none hB true upd, h.findLE_none hB false upd⟩
  | cons x B =>
    obtain ⟨upd₁, hback, hbelow₁, habove₁⟩ := h.findLE hmax hB true upd
    obtain ⟨upd₂, hforth, hbelow₂, habove₂⟩ := h.findLE hmax hB false upd
    have heq : upd₁ = upd₂ := by
      funext i
      cases Nat.lt_or_ge i s.miLevel with
      | inl hlt => rw [hbelow₁ i hlt, hbelow₂ i hlt]
      | inr hge => rw [habove₁ i hge, habove₂ i hge]
    exact ⟨_, hback, heq ▸ hforth⟩

-- ---------------------------------------------------------------------------
-- Cutting
-- ---------------------------------------------------------------------------

omit [LinearOrder K] in
theorem cutLevels_nexts (upd : Update ν) (n : Nat) (mem : ν → SkipNode ν K V) (y : ν) (j : Nat) :
    (cutLevels upd n mem y).mapoNexts j =
      if j < n ∧ y = upd j then none else (mem y).mapoNexts j := by
  induction n generalizing mem with
  | zero => simp [cutLevels]
  | succ n ih =>
    rw [cutLevels, ih, setNext_nexts]
    by_cases hj : j = n
    · subst hj
      simp
    · have hlt : j < n + 1 ↔ j < n := by omega
      simp [hj, hlt]

omit [LinearOrder K] in
theorem cutLevels_same (upd : Update ν) (n : Nat) (mem : ν → SkipNode ν K V) :
    SameNodes mem (cutLevels upd n mem) ∧
      ∀ y, (cutLevels upd n mem y).mpoPrev = (mem y).mpoPrev := by
  induction n generalizing mem with
  | zero => exact ⟨fun _ => ⟨rfl, rfl⟩, fun _ => rfl⟩
  | succ n ih =>
    obtain ⟨hsame, hprev⟩ := ih (setNext mem (upd n) n none)
    exact ⟨fun y => by simpa [cutLevels] using hsame y,
      fun y => by simpa [cutLevels] using hprev y⟩

omit [DecidableEq ν] [LinearOrder K] in
/-- The length loop takes off the nodes of the chain. -/
theorem fixLength_seg {mem : ν → SkipNode ν K V} {l : List ν} {p : Option ν} {fuel n : Nat}
    (hseg : Seg (fun x => (mem x).mapoNexts 0) p l none) (hfuel : l.length ≤ fuel) :
    fixLength mem fuel p n = some (n - l.length) := by
  induction l generalizing p fuel n with
  | nil =>
    have hp : p = none := hseg
    subst hp
    cases fuel <;> rfl
  | cons x l ih =>
    obtain ⟨rfl, hrest⟩ := hseg
    obtain ⟨fuel, rfl⟩ : ∃ m, fuel = m + 1 := ⟨fuel - 1, by simp at hfuel; omega⟩
    simp only [List.length_cons] at hfuel
    rw [fixLength, ih hrest (by omega), List.length_cons]
    congr 1
    omega

/-- What cutting the list off at the place of `k` does to the memory; `x` is the first node
behind it. -/
structure Cut (s : CSkipList ν K V) (L : List ν) (k : K) (x : ν) (s' : CSkipList ν K V) :
    Prop where
  same : SameNodes s.mem s'.mem
  head : s'.mpoHead = s.mpoHead
  tail : s'.mpoTail = (s.mem x).mpoPrev
  length : s'.miLength = s.miLength - (notAbove s.mem k L).length
  level : s'.miLevel = fixLevel (s'.mem s.mpoHead) s.miLevel
  nexts : ∀ y j, (s'.mem y).mapoNexts j =
    if j < s.miLevel ∧ y = pred s k L j then none else (s.mem y).mapoNexts j
  prev : ∀ y, (s'.mem y).mpoPrev = (s.mem y).mpoPrev

omit [DecidableEq ν] in
/-- No predecessor is cut off. -/
theorem Stands.pred_notMem (h : Stands maxLvl s L) (k : K) (i : Nat) :
    pred s k L i ∉ notAbove s.mem k L := by
  intro hmem
  cases pred_cases s k L i with
  | inl hhead =>
    rw [hhead] at hmem
    exact (List.nodup_cons.mp h.nodup).1 (notAbove_subset s.mem k hmem)
  | inr habove => exact absurd (mem_above habove.1).2 (not_lt.mpr (h.notAbove_le hmem))

omit [DecidableEq ν] in
/-- The nodes that are not above the key stay linked with each other. -/
theorem Stands.detached (h : Stands maxLvl s L) {mem : ν → SkipNode ν K V}
    (hnexts : ∀ y ∈ notAbove s.mem k L, (mem y).mapoNexts 0 = (s.mem y).mapoNexts 0) :
    Seg (fun y => (mem y).mapoNexts 0) (notAbove s.mem k L).head? (notAbove s.mem k L) none := by
  have hpos : 0 < maxLvl := Nat.lt_of_lt_of_le h.level_pos h.level_le
  obtain ⟨r, -, hback⟩ := seg_append.mp (h.chain_cut k hpos)
  rw [h.atLevel_zero (notAbove_subset s.mem k)] at hback
  rw [← hback.start_none]
  exact hback.congr hnexts

theorem Stands.cutFrom (h : Stands maxLvl s L) (hB : notAbove s.mem k L = x :: B)
    {upd : Update ν} (hupd : ∀ i < s.miLevel, upd i = pred s k L i) :
    ∃ s', s.cutFrom upd x = some (s', some x) ∧ Cut s L k x s' := by
  obtain ⟨hsame, hprev⟩ := cutLevels_same upd s.miLevel s.mem
  have hnexts : ∀ y j, (cutLevels upd s.miLevel s.mem y).mapoNexts j =
      if j < s.miLevel ∧ y = pred s k L j then none else (s.mem y).mapoNexts j := by
    intro y j
    rw [cutLevels_nexts]
    by_cases hj : j < s.miLevel
    · rw [hupd j hj]
    · simp [hj]
  have hkept : ∀ y ∈ notAbove s.mem k L,
      (cutLevels upd s.miLevel s.mem y).mapoNexts 0 = (s.mem y).mapoNexts 0 := by
    intro y hy
    rw [hnexts, if_neg]
    rintro ⟨-, rfl⟩
    exact h.pred_notMem k 0 hy
  have hseg := h.detached hkept
  have hlength : (notAbove s.mem k L).length ≤ s.miLength + 1 := by
    have hle := (List.dropWhile_sublist (l := L) fun x => decide (k < (s.mem x).mtKey)).length_le
    rw [h.length_eq]
    exact Nat.le_succ_of_le hle
  have hfix := fixLength_seg (n := s.miLength) hseg hlength
  rw [hB, List.head?_cons] at hfix
  refine ⟨{ s with
      mem := cutLevels upd s.miLevel s.mem
      mpoTail := (cutLevels upd s.miLevel s.mem x).mpoPrev
      miLength := s.miLength - (x :: B).length
      miLevel := fixLevel (cutLevels upd s.miLevel s.mem s.mpoHead) s.miLevel }, ?_, ?_⟩
  · unfold CSkipList.cutFrom
    simp only [hfix, Option.map_some]
  · exact ⟨hsame, rfl, hprev x, by rw [hB], rfl, hnexts, hprev⟩

/-- The chain of one level ends where it was cut. -/
theorem Cut.chains (hcut : Cut s L k x s') (h : Stands maxLvl s L) {i : Nat} (hi : i < maxLvl) :
    Seg (fun y => (s'.mem y).mapoNexts i) (some s'.mpoHead)
      (s'.mpoHead :: atLevel s'.mem i (above s.mem k L)) none := by
  rw [hcut.head, hcut.same.atLevel]
  by_cases hlevel : i < s.miLevel
  · obtain ⟨P, hP⟩ := exists_front s k L i
    have hnodup := h.chain_nodup k i
    rw [hP] at hnodup
    have hPnodup := (List.nodup_append.mp hnodup).1
    obtain ⟨r, hfront, -⟩ := seg_append.mp (h.chain_cut k hi)
    rw [hP] at hfront ⊢
    refine hfront.extend (fun z hz => ?_) (fun z hz => ?_) (by simp)
    · rw [List.getLast?_concat, Option.mem_some_iff] at hz
      rw [hcut.nexts, if_pos ⟨hlevel, hz.symm⟩]
    · rw [List.dropLast_concat] at hz
      rw [hcut.nexts, if_neg]
      rintro ⟨-, rfl⟩
      exact (List.nodup_append.mp hPnodup).2.2 _ hz _ List.mem_cons_self rfl
  · -- no node is as high, and the head has no link there
    have hnone : ∀ A ⊆ L, atLevel s.mem i A = [] := by
      intro A hA
      apply List.filter_eq_nil_iff.mpr
      intro y hy
      have := h.heights_le y (hA hy)
      simp
      omega
    have hchain := h.chains i hi
    rw [hnone L (List.Subset.refl L)] at hchain
    rw [hnone _ (above_subset s.mem k)]
    refine hchain.congr fun y _ => ?_
    rw [hcut.nexts, if_neg fun hcond => hlevel hcond.1]

/-- The nodes above the key are left. -/
theorem Cut.stands (hcut : Cut s L k x s') (h : Stands maxLvl s L)
    (hB : notAbove s.mem k L = x :: B) : Stands maxLvl s' (above s.mem k L) := by
  have hsplit := above_append_notAbove s.mem k L
  refine h.shrink (List.takeWhile_sublist _) hcut.same hcut.head
    (fun i hi => hcut.chains h hi) ?_ ?_ hcut.level
  · have hprevs := h.prevs
    rw [← hsplit, hB, List.reverse_append, List.reverse_cons] at hprevs
    obtain ⟨r, hback, hfront⟩ := seg_append.mp hprevs
    have hr : (s.mem x).mpoPrev = r := (seg_concat.mp hback).2
    rw [hcut.tail, hr]
    exact hfront.congr fun y _ => hcut.prev y
  · have hlen := congrArg List.length hsplit
    rw [List.length_append] at hlen
    rw [hcut.length, h.length_eq]
    omega

/-- The nodes that are cut off hang together behind the first of them. -/
theorem Cut.detached (hcut : Cut s L k x s') (h : Stands maxLvl s L) :
    Seg (fun y => (s'.mem y).mapoNexts 0) (notAbove s.mem k L).head? (notAbove s.mem k L) none :=
  h.detached fun y hy => by
    rw [hcut.nexts, if_neg]
    rintro ⟨-, rfl⟩
    exact h.pred_notMem k 0 hy

-- ---------------------------------------------------------------------------
-- The calls
-- ---------------------------------------------------------------------------

/-- What a call that cuts off the nodes with keys up to `k` has to do: `r`, which it returns,
heads the chain of these nodes, and the list is one of the others. -/
structure CutsOff (maxLvl : Nat) (s : CSkipList ν K V) (L : List ν) (k : K)
    (s' : CSkipList ν K V) (r : Option ν) : Prop where
  same : SameNodes s.mem s'.mem
  returned : Seg (fun x => (s'.mem x).mapoNexts 0) r
    (L.filter fun x => decide ((s.mem x).mtKey ≤ k)) none
  left : Stands maxLvl s' (L.filter fun x => decide (k < (s.mem x).mtKey))
  unchanged : r = none → s' = s

theorem Cut.cutsOff (hcut : Cut s L k x s') (h : Stands maxLvl s L)
    (hB : notAbove s.mem k L = x :: B) : CutsOff maxLvl s L k s' (some x) := by
  refine ⟨hcut.same, ?_, ?_, fun hnone => by simp at hnone⟩
  · have hseg := hcut.detached h
    rw [h.notAbove_eq_filter] at hseg hB
    rwa [hB] at hseg ⊢
  · rw [← h.above_eq_filter]
    exact hcut.stands h hB

omit [DecidableEq ν] in
/-- Where no key is up to `k` there is nothing to cut off. -/
theorem Stands.cutsOff_none (h : Stands maxLvl s L) (hB : notAbove s.mem k L = []) :
    CutsOff maxLvl s L k s none := by
  have hsplit := above_append_notAbove s.mem k L
  rw [hB, List.append_nil, h.above_eq_filter] at hsplit
  refine ⟨fun _ => ⟨rfl, rfl⟩, ?_, hsplit.symm ▸ h, fun _ => rfl⟩
  rw [← h.notAbove_eq_filter, hB]
  exact rfl

/-- `DeleteLE(aKey)` cuts off the nodes with keys up to `aKey`. -/
theorem Stands.deleteLE (h : Stands maxLvl s L) (hmax : maxLvl ≤ updateSize) (k : K) :
    ∃ s' r, s.deleteLE k = some (s', r) ∧ CutsOff maxLvl s L k s' r := by
  unfold CSkipList.deleteLE
  cases hB : notAbove s.mem k L with
  | nil =>
    refine ⟨s, none, ?_, h.cutsOff_none hB⟩
    rw [h.findLE_none hB]
    split <;> rfl
  | cons x B =>
    have hlength : s.miLength ≠ 0 := by
      rw [h.length_eq, ← above_append_notAbove s.mem k L, hB]
      simp
    obtain ⟨upd, hfind, hupd, -⟩ := h.findLE hmax hB true fun _ => s.mpoHead
    obtain ⟨s', hrun, hcut⟩ := h.cutFrom hB hupd
    refine ⟨s', some x, ?_, hcut.cutsOff h hB⟩
    rw [if_neg hlength, hfind]
    exact hrun

/-- `DeleteAfter(aKey)` does the same if there is a node with the key, and nothing otherwise. -/
theorem Stands.deleteAfter (h : Stands maxLvl s L) (hmax : maxLvl ≤ updateSize) (k : K) :
    ((∃ x ∈ L, (s.mem x).mtKey = k) →
      ∃ s' r, s.deleteAfter k = some (s', r) ∧ CutsOff maxLvl s L k s' r) ∧
    ((∀ x ∈ L, (s.mem x).mtKey ≠ k) → s.deleteAfter k = some (s, none)) := by
  obtain ⟨upd, v, hsearch, hupd, -, hv⟩ := h.search hmax k h.level_le
    (u := s.mpoHead) (fun _ => s.mpoHead) fun i _ => List.mem_cons_self
  have hmatch := h.matching k
  rw [← hv h.level_pos] at hmatch
  unfold CSkipList.deleteAfter
  rw [hsearch]
  constructor
  · intro hfound
    obtain ⟨x, hx, hkey⟩ := (h.exists_key_iff k).mp hfound
    obtain ⟨B, hB⟩ : ∃ B, notAbove s.mem k L = x :: B := List.head?_eq_some_iff.mp hx
    obtain ⟨s', hrun, hcut⟩ := h.cutFrom hB hupd
    refine ⟨s', some x, ?_, hcut.cutsOff h hB⟩
    have hx' : s.matching k v = some x := by
      rw [hmatch, hx]
      simp [Option.filter, hkey]
    simp only [hx']
    exact hrun
  · intro hnone
    have hx' : s.matching k v = none := by
      rw [hmatch]
      apply Option.filter_eq_none_iff.mpr
      intro x hx hkey
      exact hnone x (notAbove_subset s.mem k (List.mem_of_mem_head? hx)) (by simpa using hkey)
    simp only [hx']

/-- Searching from the tail is searching from the head; `DeleteLE` cuts off the nodes with
keys up to `k` and keeps the others in order, and `DeleteAfter` does so exactly where a node
has the key. -/
theorem cutsOff_le (h : Stands maxLvl s L) (hmax : maxLvl ≤ updateSize) (k : K) (upd : Update ν) :
    (∃ found, s.findLE k true upd = some found ∧ s.findLE k false upd = some found) ∧
    (∃ s' r, s.deleteLE k = some (s', r) ∧ CutsOff maxLvl s L k s' r) ∧
    ((∃ x ∈ L, (s.mem x).mtKey = k) →
      ∃ s' r, s.deleteAfter k = some (s', r) ∧ CutsOff maxLvl s L k s' r) ∧
    ((∀ x ∈ L, (s.mem x).mtKey ≠ k) → s.deleteAfter k = some (s, none)) :=
  ⟨h.findLE_reverse hmax k upd, h.deleteLE hmax k, h.deleteAfter hmax k⟩

/-- Two nodes, 1 in front with the key `a` on one level, 2 with the key `b` on two. -/
def twoNodes (a b : K) : CSkipList Nat K Unit where
  mem
    | 0 => ⟨a, 10, (), none, fun i => if i = 0 then some 1 else if i = 1 then some 2 else none⟩
    | 1 => ⟨a, 1, (), none, fun i => if i = 0 then some 2 else none⟩
    | _ => ⟨b, 2, (), some 1, fun _ => none⟩
  mpoHead := 0
  mpoTail := some 2
  miLength := 2
  miLevel := 2

theorem stands_twoNodes {a b : K} (h : b ≤ a) : Stands 10 (twoNodes a b) [1, 2] := by
  refine ⟨by simp [twoNodes], by simpa [twoNodes] using h, by simp [twoNodes], fun i _ => ?_,
    ⟨rfl, rfl, rfl⟩, rfl, by simp [twoNodes], by simp [twoNodes], by simp [twoNodes],
    fun _ => ⟨2, by simp, rfl⟩⟩
  cases i with
  | zero => exact ⟨rfl, rfl, rfl, rfl⟩
  | succ i =>
    cases i with
    | zero => exact ⟨rfl, rfl, rfl⟩
    | succ i => simp [atLevel, twoNodes]

/-- The second node is cut off. -/
theorem cutsOff_le_twoNodes :
    (∃ s' r, (twoNodes 5 3).deleteLE 4 = some (s', r) ∧ CutsOff 10 (twoNodes 5 3) [1, 2] 4 s' r) ∧
    ∃ s' r, (twoNodes 5 3).deleteAfter 3 = some (s', r) ∧
      CutsOff 10 (twoNodes 5 3) [1, 2] 3 s' r := by
  have hstands : Stands 10 (twoNodes 5 3) [1, 2] := stands_twoNodes (by decide)
  refine ⟨(cutsOff_le hstands (by decide) 4 fun _ => 0).2.1, ?_⟩
  exact (cutsOff_le hstands (by decide) 3 fun _ => 0).2.2.1 ⟨2, by decide, rfl⟩

example : ((twoNodes 5 3).deleteLE 4).map (fun r => (r.1.miLength, r.1.miLevel, r.2)) =
    some (1, 1, some 2) := by decide

end CSkipList

end Netfram
