-- SUMMARY: Round robin: the next open session of the manager, in the order of the ids.
import NetworkEtc.Netfram.SessionManager

/-!
# `CNextSession`

An iterator over `moSessionIDs` is a place in the order of the ids; behind the last one is `end()`.
The counter is a `size_t`. It is reduced by the size of the table before it is used, and a call adds
no more than the size of the table to it and one, so it does not wrap around.
-/

namespace Netfram

namespace CNextSession

variable {σ : Type}

/-- The first loop: `loFirst` goes on, and around. -/
def advance (auSize : Nat) : Nat → Nat → Nat
  | 0, loFirst => loFirst
  | i + 1, loFirst => advance auSize i ((if loFirst = auSize then 0 else loFirst) + 1)

/-- The second loop: the session it ends at, or `NULL`, and the counter. -/
def seek (closed : σ → Bool) (table : List σ) (loTemp : Nat) :
    Nat → Nat → Nat → Option (Option σ × Nat)
  | 0, _, _ => none
  | fuel + 1, loFirst, muCount =>
    match table[loFirst]? with
    | none => -- `loFirst == aoLast`
      if 0 = loTemp then some (none, muCount) else seek closed table loTemp fuel 0 muCount
    | some p =>
      if closed p then
        if loFirst + 1 = loTemp then some (none, muCount + 1)
        else seek closed table loTemp fuel (loFirst + 1) (muCount + 1)
      else some (some p, muCount)

/-- `operator()`. One turn takes no more steps than there are places. -/
def next (closed : σ → Bool) (table : List σ) (muCount : Nat) : Option (Option σ × Nat) :=
  if table.length = 0 then some (none, muCount)
  else
    let muCount := muCount % table.length
    let loTemp := advance table.length muCount 0
    seek closed table loTemp (table.length + 2) loTemp (muCount + 1)

end CNextSession

namespace CSessionManager

variable {σ : Type}

/-- `FindIf<CNextSession>` -/
def findNext (m : CSessionManager σ) (closed : σ → Bool) (muCount : Nat) :
    Option (Option σ × Nat) :=
  if m.moSessionIDs.keys.card = 0 then some (none, muCount)
  else CNextSession.next closed m.sessions muCount

end CSessionManager

/-! # What is found -/

namespace CNextSession

variable {σ : Type} {closed : σ → Bool} {table : List σ} {start k fuel loFirst muCount : Nat}

/-- The session found is the first open one from `start` on, around the table, and the counter stands
for the place behind it. -/
structure IsNext (closed : σ → Bool) (table : List σ) (start : Nat) (apoSession : Option σ)
    (muCount : Nat) : Prop where
  null : apoSession = none ↔ ∀ p ∈ table, closed p = true
  session : ∀ p, apoSession = some p → ∃ k < table.length,
    table[(start + k) % table.length]? = some p ∧ closed p = false ∧
    (∀ j < k, ∀ q, table[(start + j) % table.length]? = some q → closed q = true) ∧
    muCount % table.length = (start + k + 1) % table.length
  bound : muCount ≤ 2 * table.length

/-- The first loop ends at the place of its count. -/
theorem advance_eq {n i : Nat} (h : loFirst + i < n) : advance n i loFirst = loFirst + i := by
  induction i generalizing loFirst with
  | zero => rfl
  | succ i ih =>
    rw [advance, if_neg (by omega), ih (by omega)]
    omega

/-- The sessions at the first `k` places are closed. -/
def ClosedUpTo (closed : σ → Bool) (table : List σ) (start k : Nat) : Prop :=
  ∀ j < k, ∀ q, table[(start + j) % table.length]? = some q → closed q = true

theorem ClosedUpTo.succ (h : ClosedUpTo closed table start k)
    (hk : ∀ q, table[(start + k) % table.length]? = some q → closed q = true) :
    ClosedUpTo closed table start (k + 1) := by
  intro j hj
  rcases Nat.lt_succ_iff_lt_or_eq.mp hj with hlt | rfl
  · exact h j hlt
  · exact hk

/-- After one turn nothing is left. -/
theorem ClosedUpTo.all (h : ClosedUpTo closed table start table.length)
    (hstart : start < table.length) : ∀ p ∈ table, closed p = true := by
  intro p hp
  obtain ⟨i, hi, rfl⟩ := List.mem_iff_getElem.mp hp
  rcases Nat.lt_or_ge i start with hlt | hge
  · apply h (table.length - start + i) (by omega)
    rw [show start + (table.length - start + i) = table.length + i by omega, Nat.add_mod_left,
      Nat.mod_eq_of_lt hi, List.getElem?_eq_getElem hi]
  · apply h (i - start) (by omega)
    rw [Nat.add_sub_of_le hge, Nat.mod_eq_of_lt hi, List.getElem?_eq_getElem hi]

theorem IsNext.of_all (h : ∀ p ∈ table, closed p = true) (hcount : muCount ≤ 2 * table.length) :
    IsNext closed table start none muCount :=
  ⟨⟨fun _ => h, fun _ => rfl⟩, fun _ hp => (Option.some_ne_none _ hp.symm).elim, hcount⟩

/-- The second loop, `k` steps behind where it began. -/
theorem seek_isNext (hstart : start < table.length) (hk : k ≤ table.length)
    (hclosed : ClosedUpTo closed table start k)
    (hplace : loFirst = start + k ∧ loFirst ≤ table.length ∨
      loFirst < start ∧ start + k = table.length + loFirst)
    (hfuel : table.length + 2 ≤ fuel + k + if start ≤ loFirst then 0 else 1) :
    ∃ apoSession muCount, seek closed table start fuel loFirst (start + k + 1) =
      some (apoSession, muCount) ∧ IsNext closed table start apoSession muCount := by
  induction fuel generalizing k loFirst with
  | zero =>
    exfalso
    split at hfuel
    · omega
    · omega
  | succ fuel ih =>
    rw [seek]
    cases hget : table[loFirst]? with
    | none =>
      have hend := List.getElem?_eq_none_iff.mp hget
      obtain ⟨rfl, hle⟩ := hplace.resolve_right (by omega)
      simp only
      split
      · next hzero =>
        subst hzero
        obtain rfl : k = table.length := by omega
        exact ⟨_, _, rfl, IsNext.of_all (hclosed.all hstart) (by omega)⟩
      · next hne =>
        apply ih hk hclosed
        · omega
        · rw [if_neg (by omega)]
          rw [if_pos (by omega)] at hfuel
          omega
    | some p =>
      have hlt := (List.getElem?_eq_some_iff.mp hget).1
      have hmod : (start + k) % table.length = loFirst := by
        rcases hplace with ⟨rfl, -⟩ | ⟨-, heq⟩
        · exact Nat.mod_eq_of_lt hlt
        · rw [heq, Nat.add_mod_left, Nat.mod_eq_of_lt hlt]
      simp only
      split
      · next hp =>
        have hclosed' : ClosedUpTo closed table start (k + 1) := by
          refine hclosed.succ fun q hq => ?_
          rw [hmod, hget] at hq
          rwa [← Option.some.inj hq]
        split
        · next hturn =>
          have hall := hclosed'
          rw [show k + 1 = table.length by omega] at hall
          exact ⟨_, _, rfl, IsNext.of_all (hall.all hstart) (by omega)⟩
        · next hne =>
          have hfuel' : table.length + 2 ≤ fuel + (k + 1) + if start ≤ loFirst + 1 then 0 else 1 := by
            rcases Nat.lt_or_ge loFirst start with hbefore | hbehind
            · rw [if_neg (by omega)] at hfuel ⊢
              omega
            · rw [if_pos hbehind] at hfuel
              rw [if_pos (by omega)]
              omega
          have hplace' : loFirst + 1 = start + (k + 1) ∧ loFirst + 1 ≤ table.length ∨
              loFirst + 1 < start ∧ start + (k + 1) = table.length + (loFirst + 1) := by omega
          exact ih (by omega) hclosed' hplace' hfuel'
      · next hp =>
        have hopen : closed p = false := by simpa using hp
        refine ⟨_, _, rfl, ⟨fun hnone => (Option.some_ne_none p hnone).elim, fun hall => ?_⟩, ?_, ?_⟩
        · exact absurd (hall p (List.mem_of_getElem? hget)) hp
        · rintro _ ⟨⟩
          exact ⟨k, by omega, hmod.symm ▸ hget, hopen, hclosed, rfl⟩
        · omega

theorem next_isNext (closed : σ → Bool) (htable : table ≠ []) (muCount : Nat) :
    ∃ apoSession muCount', next closed table muCount = some (apoSession, muCount') ∧
      IsNext closed table (muCount % table.length) apoSession muCount' := by
  have hpos := List.length_pos_of_ne_nil htable
  have hstart := Nat.mod_lt muCount hpos
  have hadvance : advance table.length (muCount % table.length) 0 = muCount % table.length := by
    rw [advance_eq (by omega), Nat.zero_add]
  rw [next, if_neg (by omega)]
  simp only [hadvance]
  exact seek_isNext hstart (Nat.zero_le _) (fun j hj => absurd hj (Nat.not_lt_zero j))
    (by omega) (by rw [if_pos le_rfl])

end CNextSession

namespace CSessionManager

variable {σ : Type}

theorem length_sessions (m : CSessionManager σ) :
    m.sessions.length = m.moSessionIDs.keys.card := by
  rw [sessions, List.filterMap_length_eq_length.mpr, Finset.length_sort]
  intro id hid
  obtain ⟨p, hp⟩ := Finmap.mem_iff.mp (Finmap.mem_keys.mp ((Finset.mem_sort _).mp hid))
  rw [hp]
  rfl

/-- The next session is found, and it is the first open one in turn. -/
theorem findNext_isNext (m : CSessionManager σ) (closed : σ → Bool) (muCount : Nat)
    (hm : m.moSessionIDs ≠ ∅) :
    ∃ apoSession muCount', m.findNext closed muCount = some (apoSession, muCount') ∧
      CNextSession.IsNext closed m.sessions (muCount % m.sessions.length) apoSession muCount' := by
  have hcard : m.moSessionIDs.keys.card ≠ 0 := by
    intro hcard
    apply hm
    apply Finmap.ext_lookup
    intro id
    rw [Finmap.lookup_empty, Finmap.lookup_eq_none, ← Finmap.mem_keys, Finset.card_eq_zero.mp hcard]
    exact Finset.notMem_empty id
  rw [findNext, if_neg hcard]
  apply CNextSession.next_isNext
  rw [← List.length_pos_iff, length_sessions]
  exact Nat.pos_of_ne_zero hcard

/-- Two sessions. -/
def twoSessions : CSessionManager Bool := ⟨∅, (Finmap.singleton 1 true).insert 2 false, ∅, 0⟩

theorem findNext_isNext_twoSessions : twoSessions.moSessionIDs ≠ ∅ ∧
    ∃ apoSession muCount', twoSessions.findNext (fun _ => false) 3 = some (apoSession, muCount') ∧
      CNextSession.IsNext (fun _ => false) twoSessions.sessions (3 % twoSessions.sessions.length)
        apoSession muCount' := by
  have hne : twoSessions.moSessionIDs ≠ ∅ := by decide
  exact ⟨hne, findNext_isNext twoSessions _ 3 hne⟩

end CSessionManager

end Netfram
