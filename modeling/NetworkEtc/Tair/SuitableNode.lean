-- SUMMARY: Which server the builder picks for a cell, and that it finds one if there is one.
import NetworkEtc.Tair.Books

/-!
# `get_suitable_node`

The candidates are in sets, by how far they are from what they are capable of. At the first levels
the builder only looks at the first sets, and at the last two levels at all of them.
-/

namespace Tair

open Library

namespace TableBuilder

variable {σ : Type} {b : TableBuilder σ} {ok : ServerId → Bool} {original suitable id : ServerId}
  {set : List ServerId} {level s calls : Nat} {k : Int} {candidates : Index}

-- ---------------------------------------------------------------------------
-- One set
-- ---------------------------------------------------------------------------

theorem suitableIn_eq_or (ok : ServerId → Bool) (original suitable : ServerId) (set : List ServerId) :
    suitableIn ok original set suitable = suitable ∨
      suitableIn ok original set suitable ∈ set ∧ ok (suitableIn ok original set suitable) = true := by
  induction set generalizing suitable with
  | nil => exact Or.inl rfl
  | cons id set ih =>
    rw [suitableIn]
    split
    · next hid =>
      split
      · exact Or.inr ⟨List.mem_cons_self, hid⟩
      · rcases ih id with h | ⟨hmem, hok⟩
        · rw [h]
          exact Or.inr ⟨List.mem_cons_self, hid⟩
        · exact Or.inr ⟨List.mem_cons_of_mem _ hmem, hok⟩
    · rcases ih suitable with h | ⟨hmem, hok⟩
      · exact Or.inl h
      · exact Or.inr ⟨List.mem_cons_of_mem _ hmem, hok⟩

/-- If there is a good one in the set, a good one is taken. -/
theorem ok_suitableIn (original suitable : ServerId) (hmem : id ∈ set) (hid : ok id = true) :
    ok (suitableIn ok original set suitable) = true := by
  induction set generalizing suitable with
  | nil => exact absurd hmem List.not_mem_nil
  | cons id' set ih =>
    rw [suitableIn]
    split
    · next hid' =>
      split
      · exact hid'
      · rcases suitableIn_eq_or ok original id' set with h | ⟨-, hok⟩
        · rw [h]
          exact hid'
        · exact hok
    · next hid' =>
      rcases List.mem_cons.mp hmem with rfl | hmem
      · exact absurd hid hid'
      · exact ih suitable hmem

-- ---------------------------------------------------------------------------
-- One level
-- ---------------------------------------------------------------------------

/-- What is found in one set, from whichever of its members the loop starts. -/
theorem suitableAt_cons (b : TableBuilder σ) (ok : ServerId → Bool) (original : ServerId)
    (candidates : Index) (k : Int) (set : List ServerId) (calls : Nat)
    (h : s < level + 1 ∧ suitable.first = 0) :
    ∃ s' calls', ∃ set' : List ServerId, (∀ id, id ∈ set' ↔ id ∈ set) ∧
      (level < CONSIDER_BASE ∨ s' = s) ∧
      b.suitableAt ok original level ((k, set) :: candidates) s (suitable, calls) =
        b.suitableAt ok original level candidates s'
          (suitableIn ok original set' suitable, calls') := by
  refine ⟨if level < CONSIDER_BASE then s + 1 else s, ?_⟩
  have hs : level < CONSIDER_BASE ∨ (if level < CONSIDER_BASE then s + 1 else s) = s := by
    by_cases hlevel : level < CONSIDER_BASE
    · exact Or.inl hlevel
    · exact Or.inr (if_neg hlevel)
  rw [suitableAt, if_pos h]
  dsimp only
  by_cases hempty : set.length = 0
  · rw [if_pos hempty, List.eq_nil_of_length_eq_zero hempty]
    exact ⟨calls, [], fun id => Iff.rfl, hs, rfl⟩
  · rw [if_neg hempty]
    by_cases hplace : b.bPlaceFlag = 0
    · rw [if_pos hplace]
      exact ⟨calls, set, fun id => Iff.rfl, hs, rfl⟩
    · rw [if_neg hplace]
      exact ⟨calls + 1, _, fun id => List.mem_rotate, hs, rfl⟩

theorem suitableAt_eq_or (b : TableBuilder σ) (ok : ServerId → Bool) (original : ServerId)
    (level : Nat) (candidates : Index) (s : Nat) (found : ServerId × Nat) :
    (b.suitableAt ok original level candidates s found).1 = found.1 ∨
      (∃ k, candidates.Filed k (b.suitableAt ok original level candidates s found).1) ∧
        ok (b.suitableAt ok original level candidates s found).1 = true := by
  induction candidates generalizing s found with
  | nil => exact Or.inl rfl
  | cons entry candidates ih =>
    obtain ⟨k, set⟩ := entry
    obtain ⟨suitable, calls⟩ := found
    have hrest : ∀ {id}, (∃ k, SetMap.Filed candidates k id) →
        ∃ k', SetMap.Filed ((k, set) :: candidates) k' id := by
      rintro id ⟨k', set', hmem, hid⟩
      exact ⟨k', set', List.mem_cons_of_mem _ hmem, hid⟩
    by_cases h : s < level + 1 ∧ suitable.first = 0
    · obtain ⟨s', calls', set', hset, -, heq⟩ := suitableAt_cons b ok original candidates k
        set calls h
      rw [heq]
      rcases ih s' (suitableIn ok original set' suitable, calls') with hfound | ⟨hfiled, hok⟩
      · rw [hfound]
        rcases suitableIn_eq_or ok original suitable set' with h | ⟨hmem, hok⟩
        · exact Or.inl h
        · exact Or.inr ⟨⟨k, set, List.mem_cons_self, (hset _).mp hmem⟩, hok⟩
      · exact Or.inr ⟨hrest hfiled, hok⟩
    · rw [suitableAt, if_neg h]
      exact Or.inl rfl

/-- At the last levels nobody who would do is missed. -/
theorem suitableAt_eq_none (hnonzero : ∀ id, ok id = true → id.first ≠ 0)
    (hlevel : CONSIDER_BASE ≤ level) {found : ServerId × Nat}
    (hnone : (b.suitableAt ok original level candidates 0 found).1.first = 0)
    (hfiled : candidates.Filed k id) : ok id = false := by
  induction candidates generalizing found with
  | nil => exact absurd hfiled SetMap.filed_nil
  | cons entry candidates ih =>
    obtain ⟨k', set⟩ := entry
    obtain ⟨suitable, calls⟩ := found
    have hzero : suitable.first = 0 := by
      by_contra hne
      rw [suitableAt, if_neg fun h => hne h.2] at hnone
      exact hne hnone
    have hlooks : 0 < level + 1 ∧ suitable.first = 0 := ⟨Nat.succ_pos level, hzero⟩
    obtain ⟨s', calls', set', hset, hs, heq⟩ := suitableAt_cons b ok original candidates k' set calls
      hlooks
    rw [hs.resolve_left (Nat.not_lt.mpr hlevel)] at heq
    rw [heq] at hnone
    obtain ⟨members, hmem, hid⟩ := hfiled
    rcases List.mem_cons.mp hmem with hhere | hrest
    · obtain ⟨rfl, rfl⟩ := Prod.mk.inj hhere
      rw [Bool.eq_false_iff]
      intro hok
      have htaken := ok_suitableIn original suitable
        ((hset id).mpr hid) hok
      rcases suitableAt_eq_or b ok original level candidates 0
        (suitableIn ok original set' suitable, calls') with h | ⟨-, h⟩
      · rw [h] at hnone
        exact hnonzero _ htaken hnone
      · exact hnonzero _ h hnone
    · exact ih hnone ⟨members, hrest, hid⟩

-- ---------------------------------------------------------------------------
-- All levels
-- ---------------------------------------------------------------------------

/-- A server that is picked is a candidate, and good at some level. If there is none, none is good
at the last levels. -/
structure Suitable (ok : Nat → ServerId → Bool) (candidates : Index) (id : ServerId) : Prop where
  good : id.first ≠ 0 → (∃ k, candidates.Filed k id) ∧ ∃ level, ok level id = true
  none : id.first = 0 → ∀ k id', candidates.Filed k id' →
    ok CONSIDER_BASE id' = false ∧ ok CONSIDER_FORCE id' = false

theorem foldl_levels (b : TableBuilder σ) (ok : Nat → ServerId → Bool) (original : ServerId)
    (candidates : Index) (hnonzero : ∀ level id, ok level id = true → id.first ≠ 0)
    (levels : List Nat) (found : ServerId × Nat) :
    let result := levels.foldl (fun found level =>
      if found.1.first = 0 then b.suitableAt (ok level) original level candidates 0 found
      else found) found
    (result.1 = found.1 ∨ (∃ k, candidates.Filed k result.1) ∧ ∃ level, ok level result.1 = true) ∧
      (result.1.first = 0 → ∀ level ∈ levels, CONSIDER_BASE ≤ level → ∀ k id,
        candidates.Filed k id → ok level id = false) := by
  induction levels generalizing found with
  | nil => exact ⟨Or.inl rfl, fun _ level hmem => absurd hmem List.not_mem_nil⟩
  | cons level levels ih =>
    rw [List.foldl_cons]
    obtain ⟨hgood, hnone⟩ := ih (if found.1.first = 0 then
      b.suitableAt (ok level) original level candidates 0 found else found)
    refine ⟨?_, fun hzero level' hmem hlevel k id hfiled => ?_⟩
    · rcases hgood with h | h
      · rw [h]
        split
        · rcases suitableAt_eq_or b (ok level) original level candidates 0 found with h | ⟨hfiled, hok⟩
          · exact Or.inl h
          · exact Or.inr ⟨hfiled, level, hok⟩
        · exact Or.inl rfl
      · exact Or.inr h
    · rcases List.mem_cons.mp hmem with rfl | hmem
      · have hlast : (if found.1.first = 0 then
            b.suitableAt (ok level') original level' candidates 0 found else found).1.first = 0 := by
          rcases hgood with h | ⟨-, level, hok⟩
          · rw [← h]
            exact hzero
          · exact absurd hzero (hnonzero level _ hok)
        split at hlast
        · exact suitableAt_eq_none (hnonzero level') hlevel hlast hfiled
        · next hne => exact absurd hlast hne
      · exact hnone hzero level' hmem hlevel k id hfiled

/-- What a kind of builder says of servers, it says of those that are available. -/
def Virtual.OnlyAvailable (V : Virtual σ) : Prop :=
  ∀ b id line idx table level inUse,
    V.isThisNodeOK b id line idx table level inUse = .nodeOk → b.isNodeAvailble id = true

variable {V : Virtual σ}

theorem getSuitableNode_spec (hV : Virtual.OnlyAvailable V) (b : TableBuilder σ)
    (lineNum nodeIdx : Nat) (table : HashTable) (original : ServerId) :
    Suitable
      (fun level id => V.isThisNodeOK b id lineNum nodeIdx table level false = .nodeOk)
      (if lineNum = 0 then b.mtokens.candidateNode else b.tokens.candidateNode)
      (getSuitableNode V b lineNum nodeIdx table original).1 := by
  obtain ⟨hgood, hnone⟩ := foldl_levels b
    (fun level id => V.isThisNodeOK b id lineNum nodeIdx table level false = .nodeOk) original
    (if lineNum = 0 then b.mtokens.candidateNode else b.tokens.candidateNode)
    (fun level id hok => (isNodeAvailble_iff.mp (hV _ _ _ _ _ _ _ (of_decide_eq_true hok))).1)
    [CONSIDER_ALL, CONSIDER_POS, CONSIDER_BASE, CONSIDER_FORCE] (ServerId.invalid, b.randomCalls)
  unfold getSuitableNode
  dsimp only
  constructor
  · intro hne
    exact hgood.resolve_left fun h => hne (congrArg ServerId.first h)
  · intro hzero k id' hfiled
    exact ⟨hnone hzero CONSIDER_BASE (by decide) (by decide) k id' hfiled,
      hnone hzero CONSIDER_FORCE (by decide) (by decide) k id' hfiled⟩

theorem samePlan_randomCalls (b : TableBuilder σ) (calls : Nat) :
    SamePlan b { b with randomCalls := calls } := ⟨rfl, rfl, rfl, rfl, rfl, rfl, rfl⟩

/-- Picking a server changes nothing but the number of calls to `random`. -/
theorem exists_getSuitableNode_builder (V : Virtual σ) (b : TableBuilder σ)
    (lineNum nodeIdx : Nat) (table : HashTable) (original : ServerId) : ∃ calls,
    (getSuitableNode V b lineNum nodeIdx table original).2 = { b with randomCalls := calls } := by
  unfold getSuitableNode
  exact ⟨_, rfl⟩

end TableBuilder

end Tair
