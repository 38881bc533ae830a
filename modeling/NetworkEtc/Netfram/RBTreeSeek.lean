-- SUMMARY: Searching the red-black tree by key, and which histories of insertions keep it searchable.
import NetworkEtc.Netfram.RBTreeRun
import Mathlib.Data.List.Chain

/-!
# `Iterator::Seek`

`Insert` goes left where the difference of the keys, cut to 32 bits, is negative; `Seek`
compares the keys themselves. A node put on the wrong side of one it was compared with stays
there through all rotations, so the tree is in order exactly as long as every comparison of
every insertion came out as it does for the whole keys.
-/

namespace Netfram

open Library (Side RBTree)

namespace CRBTree

variable {ν : Type} [DecidableEq ν]

/-- The loop of `Iterator::Seek`, and the node the iterator is at. -/
def seek (s : CRBTree ν UInt64) (target : UInt64) : Nat → ν → Option ν
  | 0, _ => none
  | fuel + 1, mpoNode =>
    if mpoNode ≠ s.moSentinel ∧ s.mtKey mpoNode ≠ target then
      (s.child (if target < s.mtKey mpoNode then .left else .right) mpoNode).bind
        (seek s target fuel)
    else some mpoNode

variable {s s' : CRBTree ν UInt64} {par : Option ν} {t : RBTree ν} {x : ν} {k : UInt64}
  {L l p q : List ν} {fuel : Nat}

/-- The keys do not fall along the list. -/
def Ascends (key : ν → UInt64) (l : List ν) : Prop := l.Pairwise fun a b => key a ≤ key b

/-! ## Searching -/

omit [DecidableEq ν] in
/-- Where a part of the list has no node with the property, it is in the other. -/
theorem exists_mem_append_left_iff {P : ν → Prop} (hq : ∀ z ∈ q, ¬ P z) :
    (∃ z ∈ p, P z) ↔ ∃ z ∈ p ++ q, P z := by
  constructor
  · intro hin
    obtain ⟨z, hz, hP⟩ := hin
    exact ⟨z, List.mem_append_left q hz, hP⟩
  · intro hin
    obtain ⟨z, hz, hP⟩ := hin
    exact ⟨z, (List.mem_append.mp hz).resolve_right fun hzq => hq z hzq hP, hP⟩

omit [DecidableEq ν] in
theorem exists_mem_append_right_iff {P : ν → Prop} (hp : ∀ z ∈ p, ¬ P z) :
    (∃ z ∈ q, P z) ↔ ∃ z ∈ p ++ q, P z := by
  rw [exists_mem_append_left_iff (q := p) hp]
  simp only [List.mem_append, or_comm]

theorem Rep.seek (h : s.Rep par t) (hsentinel : s.moSentinel ∉ t.inorder)
    (hsorted : Ascends s.mtKey t.inorder) (hfuel : t.inorder.length < fuel) :
    ∃ x, s.seek k fuel (s.ptr t) = some x ∧
      ((x ≠ s.moSentinel ∧ s.mtKey x = k) ↔ ∃ y ∈ t.inorder, s.mtKey y = k) := by
  induction t generalizing par fuel with
  | leaf =>
    obtain ⟨fuel, rfl⟩ : ∃ n, fuel = n + 1 := ⟨fuel - 1, by omega⟩
    exact ⟨s.moSentinel, by simp [CRBTree.seek], by simp [RBTree.inorder]⟩
  | node c l y r ihl ihr =>
    obtain ⟨fuel, rfl⟩ : ∃ n, fuel = n + 1 := ⟨fuel - 1, by omega⟩
    obtain ⟨-, hl, hr, -, hrl, hrr⟩ := h
    simp only [RBTree.inorder, List.mem_append, List.mem_cons, not_or, List.length_append,
      List.length_cons] at hsentinel hfuel
    obtain ⟨hsl, hsr, hslr⟩ := List.pairwise_append.mp hsorted
    obtain ⟨hyr, hsr⟩ := List.pairwise_cons.mp hsr
    have hy : y ≠ s.moSentinel := fun heq => hsentinel.2.1 heq.symm
    rw [ptr, CRBTree.seek]
    by_cases hkey : s.mtKey y = k
    · rw [if_neg fun hand => hand.2 hkey]
      have hmem : y ∈ (RBTree.node c l y r).inorder := by simp [RBTree.inorder]
      exact ⟨y, rfl, fun _ => ⟨y, hmem, hkey⟩, fun _ => ⟨hy, hkey⟩⟩
    · rw [if_pos ⟨hy, hkey⟩]
      by_cases hlt : k < s.mtKey y
      · -- the node and what is behind it are above the key
        have hfuel' : l.inorder.length < fuel := by omega
        obtain ⟨x, hrun, hx⟩ := ihl hrl hsentinel.1 hsl hfuel'
        refine ⟨x, by simp [hlt, hl, hrun], hx.trans ?_⟩
        have hnot : ∀ z ∈ y :: r.inorder, s.mtKey z ≠ k := by
          intro z hz hzk
          cases List.mem_cons.mp hz with
          | inl heq => exact hkey (heq ▸ hzk)
          | inr hin => exact UInt64.lt_irrefl k (UInt64.lt_of_lt_of_le hlt (hzk ▸ hyr z hin))
        exact exists_mem_append_left_iff hnot
      · have hfuel' : r.inorder.length < fuel := by omega
        obtain ⟨x, hrun, hx⟩ := ihr hrr hsentinel.2.2 hsr hfuel'
        refine ⟨x, by simp [hlt, hr, hrun], hx.trans ?_⟩
        have hle : s.mtKey y < k := UInt64.lt_of_le_of_ne (UInt64.not_lt.mp hlt) hkey
        have hnot : ∀ z ∈ l.inorder ++ [y], s.mtKey z ≠ k := by
          intro z hz hzk
          cases List.mem_append.mp hz with
          | inl hin =>
            have hzy := hslr z hin y List.mem_cons_self
            exact UInt64.lt_irrefl _ (UInt64.lt_of_lt_of_le hle (hzk ▸ hzy))
          | inr heq => exact hkey (List.mem_singleton.mp heq ▸ hzk)
        rw [RBTree.inorder, List.append_cons]
        exact exists_mem_append_right_iff hnot

/-- In a tree in order a search finds a node with the key exactly if there is one. -/
theorem Stands.seek (h : s.Stands L) (hsorted : Ascends s.mtKey L) (hfuel : L.length < fuel) :
    ∃ x, s.seek k fuel s.mpoRoot = some x ∧
      ((x ≠ s.moSentinel ∧ s.mtKey x = k) ↔ ∃ y ∈ L, s.mtKey y = k) := by
  obtain ⟨W, ⟨par, hat⟩, rfl, -⟩ := h
  have hroot : s.mpoRoot = s.ptr W := hat.above
  rw [hroot]
  exact hat.rep.seek (fun hz => hat.sentinel (List.mem_append_left _ hz)) hsorted hfuel

/-! ## Inserting in order -/

/-- Where two comparisons agree on the nodes they meet they lead to the same place. -/
theorem descend_congr {less less' : UInt64 → UInt64 → Bool} {z : ν}
    (h : ∀ y ∈ compared less s x fuel z,
      less (s.mtKey x) (s.mtKey y) = less' (s.mtKey x) (s.mtKey y)) :
    s.descend less x fuel z = s.descend less' x fuel z := by
  induction fuel generalizing z with
  | zero => rfl
  | succ fuel ih =>
    rw [compared] at h
    have hz : less (s.mtKey x) (s.mtKey z) = less' (s.mtKey x) (s.mtKey z) := by
      refine h z ?_
      split
      · exact List.mem_singleton_self z
      · split
        · exact List.mem_singleton_self z
        · exact List.mem_cons_self
    rw [descend, descend, ← hz]
    cases hchild : s.child (if less (s.mtKey x) (s.mtKey z) then .left else .right) z with
    | none => simp
    | some next =>
      simp only [hchild, Option.bind_eq_bind, Option.bind_some] at h ⊢
      by_cases hnext : next = s.moSentinel
      · rw [if_pos hnext, if_pos hnext]
      · rw [if_neg hnext] at h
        rw [if_neg hnext, if_neg hnext]
        exact ih fun y hy => h y (List.mem_cons_of_mem z hy)

theorem Stands.unique (h : s.Stands L) (h' : s.Stands l) : L = l := by
  have hL : L.length < max L.length l.length + 1 := by omega
  have hl : l.length < max L.length l.length + 1 := by omega
  have hwalk := h.midTrival hL
  rw [h'.midTrival hl] at hwalk
  exact (Option.some.inj hwalk).symm

theorem keyLess_self (k : UInt64) : keyLess k k = false := by
  simp [keyLess]

omit [DecidableEq ν] in
/-- Between two nodes its key belongs between a node keeps the order. -/
theorem ascends_insert {key : ν → UInt64} (h : Ascends key (p ++ q))
    (hp : ∀ y ∈ p.getLast?, key y ≤ key x) (hq : ∀ y ∈ q.head?, key x ≤ key y) :
    Ascends key (p ++ x :: q) := by
  have : IsTrans ν fun a b => key a ≤ key b := ⟨fun _ _ _ hab hbc => UInt64.le_trans hab hbc⟩
  obtain ⟨hchainp, hchainq, -⟩ := List.isChain_append.mp (List.isChain_iff_pairwise.mpr h)
  refine List.isChain_iff_pairwise.mp (List.isChain_append.mpr
    ⟨hchainp, List.isChain_cons.mpr ⟨hq, hchainq⟩, fun y hy z hz => ?_⟩)
  rw [List.head?_cons, Option.mem_some_iff] at hz
  exact hz ▸ hp y hy

/-- Every node that the loop of `Insert` compares `x` with is on the side of it that the whole
keys say. -/
def ComparesRight (fuel : Nat) (s : CRBTree ν UInt64) (x : ν) : Prop :=
  s.mpoRoot ≠ s.moSentinel → ∀ y ∈ compared keyLess s x fuel s.mpoRoot,
    keyLess (s.mtKey x) (s.mtKey y) = decide (s.mtKey x < s.mtKey y)

/-- An insertion leaves the tree in order if and only if it was and all comparisons are right. -/
theorem Stands.insert_ascends_iff (h : s.Stands L) (hx : x ∉ L) (hsentinel : x ≠ s.moSentinel)
    (hfuel : L.length < fuel) :
    ∃ s' p q, s.insert keyLess fuel x = some s' ∧ L = p ++ q ∧ s'.Stands (p ++ x :: q) ∧
      s'.mtKey = s.mtKey ∧ s'.moSentinel = s.moSentinel ∧
      (Ascends s.mtKey (p ++ x :: q) ↔ Ascends s.mtKey L ∧ ComparesRight fuel s x) := by
  obtain ⟨s', p, q, hrun, hpq, hinserted⟩ := h.inserted keyLess hx hsentinel hfuel
  refine ⟨s', p, q, hrun, hpq, hinserted.stands, hinserted.key, hinserted.sentinel, ?_⟩
  have hsub : (p ++ q).Sublist (p ++ x :: q) :=
    List.Sublist.append_left (List.sublist_cons_self x q) p
  constructor
  · intro hsorted
    refine ⟨hpq ▸ hsorted.sublist hsub, fun hroot y hy => ?_⟩
    have hne : p ++ q ≠ [] := by
      rw [← hpq]
      exact fun hnil => hroot (h.root_eq_sentinel_iff.mpr hnil)
    obtain ⟨hright, hleft⟩ := hinserted.divides hne y hy
    obtain ⟨-, hxq, hpxq⟩ := List.pairwise_append.mp hsorted
    cases hless : keyLess (s.mtKey x) (s.mtKey y) with
    | true =>
      have hle := (List.pairwise_cons.mp hxq).1 y (hright hless)
      have hkey : s.mtKey x ≠ s.mtKey y := by
        intro heq
        rw [heq, keyLess_self] at hless
        cases hless
      exact (decide_eq_true (UInt64.lt_of_le_of_ne hle hkey)).symm
    | false =>
      have hle := hpxq y (hleft hless) x List.mem_cons_self
      exact (decide_eq_false (UInt64.not_lt.mpr hle)).symm
  · rintro ⟨hsorted, hright⟩
    -- inserting by the whole keys is the same
    obtain ⟨s₁, p₁, q₁, hrun₁, hpq₁, hinserted₁⟩ :=
      h.inserted (fun a b => decide (a < b)) hx hsentinel hfuel
    have hsame : s.insert keyLess fuel x = s.insert (fun a b => decide (a < b)) fuel x := by
      rw [CRBTree.insert, CRBTree.insert]
      split
      · rfl
      · rename_i hroot
        have hplace : s.descend keyLess x fuel s.mpoRoot =
            s.descend (fun a b => decide (a < b)) x fuel s.mpoRoot := descend_congr (hright hroot)
        rw [insertFrom, insertFrom, hplace]
    rw [← hsame, hrun] at hrun₁
    cases hrun₁
    rw [hinserted.stands.unique hinserted₁.stands]
    refine ascends_insert (hpq₁ ▸ hsorted) (fun y hy => ?_) fun y hy => ?_
    · exact UInt64.not_lt.mp (of_decide_eq_false (hinserted₁.between.1 y hy))
    · exact UInt64.le_of_lt (of_decide_eq_true (hinserted₁.between.2 y hy))

/-! ## Histories of insertions -/

/-- The calls that insert nodes with their keys. -/
def inserts (calls : List (ν × UInt64)) : List (Op ν UInt64) :=
  calls.map fun call => .insert call.1 call.2

/-- The nodes are met in the order of their keys, and a search for a key ends at a node with
the key exactly if it is one of `keys`. -/
structure Ordered (fuel : Nat) (s : CRBTree ν UInt64) (keys : List UInt64) : Prop where
  sorted : ∃ l, s.midTrival fuel s.mpoRoot = some l ∧ (l.map s.mtKey).Pairwise (· ≤ ·)
  seek : ∀ k, ∃ x, s.seek k fuel s.mpoRoot = some x ∧
    ((x ≠ s.moSentinel ∧ s.mtKey x = k) ↔ k ∈ keys)

/-- Every insertion of a history compares right. -/
def AllCompareRight (fuel : Nat) : CRBTree ν UInt64 → List (ν × UInt64) → Prop
  | _, [] => True
  | s, (x, k) :: calls => ComparesRight fuel (s.setKey x k) x ∧
    ∀ s', s.step keyLess fuel (.insert x k) = some s' → AllCompareRight fuel s' calls

omit [DecidableEq ν] in
theorem ascends_iff {key : ν → UInt64} : Ascends key L ↔ (L.map key).Pairwise (· ≤ ·) :=
  List.pairwise_map.symm

theorem Stands.ordered_iff {keys : List UInt64} (h : s.Stands L) (hfuel : L.length < fuel)
    (hkeys : (L.map s.mtKey).Perm keys) : Ordered fuel s keys ↔ Ascends s.mtKey L := by
  have hwalk := h.midTrival hfuel
  constructor
  · intro hordered
    obtain ⟨l, hl, hsorted⟩ := hordered.sorted
    rw [hwalk] at hl
    cases hl
    exact ascends_iff.mpr hsorted
  · intro hsorted
    refine ⟨⟨L, hwalk, ascends_iff.mp hsorted⟩, fun k => ?_⟩
    obtain ⟨x, hrun, hx⟩ := h.seek (k := k) hsorted hfuel
    refine ⟨x, hrun, hx.trans ?_⟩
    rw [← hkeys.mem_iff, List.mem_map]

theorem Stands.run_inserts {calls : List (ν × UInt64)} {keys : List UInt64} (h : s.Stands L)
    (hperm : L.Perm l) (hkeys : (L.map s.mtKey).Perm keys)
    (hadm : Admissible s.moSentinel l (inserts calls)) (hfuel : l.length + calls.length < fuel) :
    ∃ s' L', s.run keyLess fuel (inserts calls) = some s' ∧ s'.Stands L' ∧ L'.length < fuel ∧
      (L'.map s'.mtKey).Perm (keys ++ calls.map Prod.snd) ∧
      (Ascends s'.mtKey L' ↔ Ascends s.mtKey L ∧ AllCompareRight fuel s calls) := by
  induction calls generalizing s L l keys with
  | nil =>
    refine ⟨s, L, rfl, h, ?_, by simpa using hkeys, ?_⟩
    · rw [hperm.length_eq]
      simpa using hfuel
    · simp [AllCompareRight]
  | cons call calls ih =>
    obtain ⟨x, k⟩ := call
    obtain ⟨⟨hxl, hsentinel⟩, hadm⟩ := hadm
    simp only [List.length_cons] at hfuel
    have hx : x ∉ L := fun hmem => hxl (hperm.mem_iff.mp hmem)
    have hlen : L.length < fuel := by
      rw [hperm.length_eq]
      omega
    obtain ⟨s₁, p, q, hrun, hpq, hstands, hkey, hsent, hsorted⟩ :=
      (h.setKey x k).insert_ascends_iff hx hsentinel hlen
    -- the other nodes keep their keys
    have hsetKey : ∀ y ∈ L, (s.setKey x k).mtKey y = s.mtKey y := by
      intro y hy
      have hyx : y ≠ x := fun heq => hx (heq ▸ hy)
      exact Function.update_of_ne hyx k s.mtKey
    have hself : (s.setKey x k).mtKey x = k := Function.update_self ..
    have hold : L.map (s.setKey x k).mtKey = L.map s.mtKey := List.map_congr_left hsetKey
    have hL : L.Perm (p ++ q) := .of_eq hpq
    have hperm₁ : (p ++ x :: q).Perm (x :: l) :=
      List.perm_middle.trans ((hL.symm.trans hperm).cons x)
    have hkeys₁ : ((p ++ x :: q).map s₁.mtKey).Perm (k :: keys) := by
      rw [hkey]
      refine (List.perm_middle.map _).trans ?_
      rw [List.map_cons, hself, ← hpq, hold]
      exact hkeys.cons k
    have hadm : Admissible s₁.moSentinel (x :: l) (inserts calls) := by
      rw [hsent]
      exact hadm
    obtain ⟨s', L', hrun', hstands', hlen', hkeys', hiff⟩ :=
      ih hstands hperm₁ hkeys₁ hadm (by simp only [List.length_cons]; omega)
    have hstep : s.step keyLess fuel (.insert x k) = some s₁ := hrun
    refine ⟨s', L', ?_, hstands', hlen', hkeys'.trans ?_, hiff.trans ?_⟩
    · rw [inserts, List.map_cons, CRBTree.run, hstep, Option.bind_some]
      exact hrun'
    · rw [List.map_cons, List.cons_append]
      exact List.perm_middle.symm
    · rw [hkey, hsorted, ascends_iff, ascends_iff, hold, AllCompareRight, hstep, and_assoc]
      simp

/-- After a history of insertions the nodes are in the order of their keys and every key is
found, if and only if every comparison of a new key with one in the tree came out as it does
for the whole keys. -/
theorem ordered_run_iff (mtKey : ν → UInt64) (child : Side → ν → Option ν)
    (mpoParent : ν → Option ν) (mcColor : ν → Bool) (moSentinel : ν) (calls : List (ν × UInt64))
    (hadm : Admissible moSentinel [] (inserts calls)) (fuel : Nat) (hfuel : calls.length < fuel) :
    ∃ s, (init mtKey child mpoParent mcColor moSentinel).run keyLess fuel (inserts calls) = some s ∧
      (Ordered fuel s (calls.map Prod.snd) ↔
        AllCompareRight fuel (init mtKey child mpoParent mcColor moSentinel) calls) := by
  have hinit := stands_init mtKey child mpoParent mcColor moSentinel
  have hnone : (([] : List ν).map (init mtKey child mpoParent mcColor moSentinel).mtKey).Perm [] :=
    .refl []
  obtain ⟨s, L, hrun, hstands, hlen, hkeys, hiff⟩ :=
    hinit.run_inserts (.refl []) hnone hadm (by simpa using hfuel)
  refine ⟨s, hrun, (hstands.ordered_iff hlen hkeys).trans (hiff.trans ?_)⟩
  exact and_iff_right List.Pairwise.nil

/-- Three keys near each other. -/
theorem ordered_threeKeys : ∃ s, emptyTree.run keyLess 4 (inserts [(1, 5), (2, 3), (3, 9)]) = some s ∧
    Ordered 4 s [5, 3, 9] ∧ AllCompareRight 4 emptyTree [(1, 5), (2, 3), (3, 9)] := by
  obtain ⟨s, hrun, hiff⟩ := ordered_run_iff _ _ _ _ 0 [(1, 5), (2, 3), (3, 9)]
    ⟨by decide, by decide, by decide, trivial⟩ 4 (by decide)
  have hright : AllCompareRight 4 emptyTree [(1, 5), (2, 3), (3, 9)] := by
    refine ⟨fun _ => by decide, fun s₁ h₁ => ?_⟩
    cases h₁
    refine ⟨fun _ => by decide, fun s₂ h₂ => ?_⟩
    cases h₂
    exact ⟨fun _ => by decide, fun _ _ => trivial⟩
  exact ⟨s, hrun, hiff.mpr hright, hright⟩

/-- Two keys of which one is `2 ^ 31` more than the other: it comes first, and is not found. -/
theorem not_ordered_farKeys : Admissible 0 [] (inserts [(1, 0), (2, 2147483648)]) ∧
    ∃ s, emptyTree.run keyLess 3 (inserts [(1, 0), (2, 2147483648)]) = some s ∧
      s.midTrival 3 s.mpoRoot = some [2, 1] ∧ s.seek 2147483648 3 s.mpoRoot = some s.moSentinel ∧
      ¬ Ordered 3 s [0, 2147483648] := by
  have hcalls : (emptyTree.run keyLess 3 (inserts [(1, 0), (2, 2147483648)])).any (fun s =>
      s.midTrival 3 s.mpoRoot = some [2, 1] ∧
        s.seek 2147483648 3 s.mpoRoot = some s.moSentinel) = true := by decide
  obtain ⟨s, hrun, hfound⟩ := (Option.any_eq_true ..).mp hcalls
  obtain ⟨hwalk, hseek⟩ := of_decide_eq_true hfound
  refine ⟨⟨by decide, by decide, trivial⟩, s, hrun, hwalk, hseek, fun hordered => ?_⟩
  obtain ⟨x, hrun', hx⟩ := hordered.seek 2147483648
  rw [hseek] at hrun'
  cases hrun'
  exact (hx.mpr (by simp)).1 rfl

end CRBTree

end Netfram
