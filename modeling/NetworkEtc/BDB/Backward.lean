-- SUMMARY: The backward visit of a table, and the tables whose rows it hands out as they are.
import NetworkEtc.BDB.Table
import Mathlib.Data.List.Chain

/-!
# `CTable::VisitBackward`

`DB_SET_RANGE` gives the smallest key from the start key on, so the visit looks at that row
first and goes down from there. It takes the row for a match if the start key is a prefix of
its key, and hands it out with the value where the key belongs.
-/

namespace BDB

open Library Std

namespace CTable

variable {table : Rows Bytes Bytes} {tv : CTableVisitor}

/-- `cursor->get` with `DB_PREV`. A cursor that was not used stands behind all rows. -/
def getPrev (table : Rows Bytes Bytes) (cursor : Option Bytes) : Option (Bytes × Bytes) :=
  table.last fun k => cursor.all fun c => decide (k < c)

/-- The variables of the loop. -/
structure Back where
  cursor : Option Bytes
  bsKey : Bytes
  bsValue : Bytes
  /-- The calls of `Accept` so far. -/
  calls : List (Bytes × Bytes)

/-- The loop after `get` gave a row, up to `Accept`. -/
def Back.take (s : Back) (row : Bytes × Bytes) : Back :=
  let bsKey := initBlock s.bsKey row.1
  let bsValue := initBlock s.bsValue row.2
  { cursor := some row.1
    bsKey
    bsValue
    calls := s.calls ++ [(bsKey, bsValue)] }

/-- The `while` loop: what `VisitBackward` returns and the calls of `Accept`. -/
def backLoop (table : Rows Bytes Bytes) (tv : CTableVisitor) :
    Nat → Back → Option (Bool × List (Bytes × Bytes))
  | 0, _ => none
  | fuel + 1, s =>
    match getPrev table s.cursor with
    | none => some (true, s.calls)
    | some row =>
      let s' := s.take row
      if tv.accept s.calls s'.bsKey s'.bsValue then backLoop table tv fuel s'
      else some (false, s'.calls)

/-- `memcmp(start, key, MIN(start size, key size)) == 0` -/
def matchesStart (start key : Bytes) : Bool :=
  start.take (min start.length key.length) == key.take (min start.length key.length)

/-- The two `Init` before the loop, which are both on `bsKey`. -/
def matchBlock (row : Bytes × Bytes) : Bytes := initBlock (initBlock [] row.1) row.2

/-- `VisitBackward` -/
def visitBackward (table : Rows Bytes Bytes) (tv : CTableVisitor) (fuel : Nat) :
    Option (Bool × List (Bytes × Bytes)) :=
  let start := tv.getStartKey.getD []
  if 0 < start.length then
    match get table none start .DB_SET_RANGE with
    -- end of database: the cursor is closed, and a new one was not used
    | none => backLoop table tv fuel ⟨none, [], [], []⟩
    | some row =>
      if matchesStart start row.1 then
        if tv.accept [] (matchBlock row) [] then
          backLoop table tv fuel ⟨some row.1, matchBlock row, [], [(matchBlock row, [])]⟩
        else some (false, [(matchBlock row, [])])
      else backLoop table tv fuel ⟨some row.1, [], [], []⟩
  else backLoop table tv fuel ⟨none, [], [], []⟩

/-! # What the visitor should get -/

/-- The rows that a visitor gets who had `calls` before, up to the one it refuses. -/
def offered (tv : CTableVisitor) :
    List (Bytes × Bytes) → List (Bytes × Bytes) → List (Bytes × Bytes)
  | _, [] => []
  | calls, row :: rows =>
    row :: if tv.accept calls row.1 row.2 then offered tv (calls ++ [row]) rows else []

/-- The rows up to the start key, the last one first. -/
def upTo (table : Rows Bytes Bytes) (start : Bytes) : List (Bytes × Bytes) :=
  table.descending fun k => decide (k ≤ start)

/-- An empty key or value comes only behind a row where it is empty, too. -/
def Follows (a b : Bytes × Bytes) : Prop := (b.1 = [] → a.1 = []) ∧ (b.2 = [] → a.2 = [])

/-- The row that the visit looks at first is not taken for a match, or it is one without a
value. -/
def Apart (table : Rows Bytes Bytes) (start : Bytes) : Prop :=
  (start, []) ∈ table.rows ∨ ∀ k ∈ table.keys, ¬ start <+: k

/-- The visit hands out a row behind the start key by mistake, which looks like the row that it
should begin with, and the visitor refuses it. -/
def Mistaken (table : Rows Bytes Bytes) (tv : CTableVisitor) (start : Bytes) : Prop :=
  ∃ k v, table.first (fun k => decide (start ≤ k)) = some (k, v) ∧ start <+: k ∧ v ≠ [] ∧
    (upTo table start).head? = some (v, []) ∧ tv.accept [] v [] = false

/-- When the visitor gets the rows as they are. -/
def HandsOut (table : Rows Bytes Bytes) (tv : CTableVisitor) (start : Bytes) : Prop :=
  Apart table start ∧ (offered tv [] (upTo table start)).IsChain Follows ∨
    Mistaken table tv start

/-! # The loop -/

variable {s : Back} {row : Bytes × Bytes} {start : Bytes} {fuel : Nat}

/-- The keys that are left to visit. -/
def Back.below (s : Back) : Bytes → Bool := fun k => s.cursor.all fun c => decide (k < c)

theorem initBlock_eq_iff {block dbt : Bytes} : initBlock block dbt = dbt ↔ (dbt = [] → block = []) := by
  rw [initBlock]
  split
  · rename_i hempty
    rw [List.length_eq_zero_iff] at hempty
    simp [hempty]
  · rename_i hsome
    rw [List.length_eq_zero_iff] at hsome
    simp [hsome]

/-- A row is handed out as it is if and only if it may follow what the blocks are on. -/
theorem Back.shown_iff :
    (initBlock s.bsKey row.1, initBlock s.bsValue row.2) = row ↔
      Follows (s.bsKey, s.bsValue) row := by
  rw [Follows, ← initBlock_eq_iff, ← initBlock_eq_iff, Prod.ext_iff]

/-- Behind the row that the cursor is on, the rest of those below. -/
theorem Back.descending_below (hlast : getPrev table s.cursor = some row) :
    table.descending s.below = row :: table.descending (s.take row).below := by
  apply Rows.descending_of_last hlast
  intro k hk
  have hrow : s.below row.1 := by
    have hfound := List.find?_some hlast
    exact hfound
  simp only [Back.below, Back.take, Option.all_some, decide_eq_true_eq] at hrow ⊢
  cases hcursor : s.cursor with
  | none => simp
  | some c =>
    rw [hcursor] at hrow
    simp only [Option.all_some, decide_eq_true_eq] at hrow ⊢
    constructor
    · intro hlt
      exact ⟨Std.lt_trans hlt hrow, hlt⟩
    · exact fun hand => hand.2

/-- The loop ends, and it hands out the rows below the cursor as they are if and only if each
of them may follow the one before. -/
theorem backLoop_spec (hfuel : (table.descending s.below).length < fuel) :
    ∃ ret calls, backLoop table tv fuel s = some (ret, s.calls ++ calls) ∧
      (calls = offered tv s.calls (table.descending s.below) ↔
        ((s.bsKey, s.bsValue) :: offered tv s.calls (table.descending s.below)).IsChain Follows) ∧
      calls.head? = (table.descending s.below).head?.map fun row =>
        (initBlock s.bsKey row.1, initBlock s.bsValue row.2) := by
  induction fuel generalizing s with
  | zero => exact absurd hfuel (Nat.not_lt_zero _)
  | succ fuel ih =>
    cases hlast : getPrev table s.cursor with
    | none =>
      have hnil : table.descending s.below = [] := Rows.descending_of_last_none hlast
      refine ⟨true, [], by simp [backLoop, hlast], ?_, ?_⟩
      · rw [hnil]
        simp [offered]
      · rw [hnil]
        rfl
    | some row =>
      have hbelow := Back.descending_below hlast
      rw [hbelow] at hfuel ⊢
      obtain ⟨ret, calls, hloop, hiff, -⟩ := ih (s := s.take row) (by simpa using hfuel)
      have hcalls : (s.take row).calls =
          s.calls ++ [(initBlock s.bsKey row.1, initBlock s.bsValue row.2)] := rfl
      have hblocks : ((s.take row).bsKey, (s.take row).bsValue) =
          (initBlock s.bsKey row.1, initBlock s.bsValue row.2) := rfl
      have hstep : backLoop table tv (fuel + 1) s =
          if tv.accept s.calls (initBlock s.bsKey row.1) (initBlock s.bsValue row.2) then
            backLoop table tv fuel (s.take row)
          else some (false, (s.take row).calls) := by
        rw [backLoop, hlast]
        rfl
      rw [hstep, hloop, hcalls]
      by_cases hfollows : Follows (s.bsKey, s.bsValue) row
      · have hshown := Back.shown_iff.mpr hfollows
        obtain ⟨hkey, hvalue⟩ := Prod.mk.inj hshown
        rw [hblocks, hcalls, hshown] at hiff
        rw [hshown, hkey, hvalue, offered]
        cases haccept : tv.accept s.calls row.1 row.2 with
        | true =>
          refine ⟨ret, row :: calls, by simp, ?_, by simp [hkey, hvalue]⟩
          rw [if_pos rfl, List.cons_inj_right, hiff, List.isChain_cons_cons]
          exact (and_iff_right hfollows).symm
        | false =>
          refine ⟨false, [row], rfl, ?_, by simp [hkey, hvalue]⟩
          simpa using hfollows
      · -- what the visitor gets is not the row
        have hshown := mt Back.shown_iff.mp hfollows
        have hcons : ∀ rest, (initBlock s.bsKey row.1, initBlock s.bsValue row.2) :: rest ≠
            offered tv s.calls (row :: table.descending (s.take row).below) := by
          intro rest heq
          exact hshown (List.head_eq_of_cons_eq heq)
        have hchain : ¬ ((s.bsKey, s.bsValue) ::
            offered tv s.calls (row :: table.descending (s.take row).below)).IsChain Follows := by
          rw [offered, List.isChain_cons_cons]
          exact fun hand => hfollows hand.1
        split
        · exact ⟨ret, _ :: calls, by simp, iff_of_false (hcons calls) hchain, rfl⟩
        · exact ⟨false, [_], rfl, iff_of_false (hcons []) hchain, rfl⟩

/-! # The visit -/

theorem matchesStart_iff {key : Bytes} (hle : start ≤ key) :
    matchesStart start key ↔ start <+: key := by
  rw [matchesStart, beq_iff_eq]
  by_cases hlen : start.length ≤ key.length
  · rw [Nat.min_eq_left hlen, List.take_length, List.prefix_iff_eq_take]
  · have hshort : key.length < start.length := Nat.lt_of_not_le hlen
    rw [Nat.min_eq_right (Nat.le_of_lt hshort), List.take_length]
    refine iff_of_false ?_ fun hpre => hlen hpre.length_le
    intro htake
    have hpre : key <+: start := List.prefix_iff_eq_take.mpr htake.symm
    have heq : key = start := Std.le_antisymm hpre.le hle
    rw [heq] at hshort
    exact Nat.lt_irrefl _ hshort

/-- The blocks are empty before the first row. -/
theorem isChain_fresh {rows : List (Bytes × Bytes)} :
    ((([], []) : Bytes × Bytes) :: rows).IsChain Follows ↔ rows.IsChain Follows := by
  rw [List.isChain_cons]
  exact and_iff_right fun row _ => ⟨fun _ => rfl, fun _ => rfl⟩

theorem get_range : get table none start .DB_SET_RANGE =
    table.first fun k => decide (start ≤ k) := rfl

theorem le_of_range (hfirst : table.first (fun k => decide (start ≤ k)) = some row) :
    start ≤ row.1 := by
  have haim := Rows.first_holds hfirst
  exact of_decide_eq_true haim

/-- The keys below the first row of the range are those below the start key. -/
theorem lt_range_iff {k : Bytes} (hfirst : table.first (fun k => decide (start ≤ k)) = some row)
    (hk : k ∈ table.keys) : k < row.1 ↔ k < start := by
  constructor
  · intro hlt
    refine Std.not_le.mp fun hle => ?_
    exact Std.not_le.mpr hlt (Rows.first_le hfirst hk (decide_eq_true hle))
  · exact fun hlt => Std.lt_of_lt_of_le hlt (le_of_range hfirst)

/-- The fuel that a whole visit needs is enough for any part of it. -/
theorem backLoop_ends (tv : CTableVisitor) (s : Back) (hfuel : table.rows.length < fuel) :
    ∃ ret calls, backLoop table tv fuel s = some (ret, s.calls ++ calls) ∧
      (calls = offered tv s.calls (table.descending s.below) ↔
        ((s.bsKey, s.bsValue) :: offered tv s.calls (table.descending s.below)).IsChain Follows) ∧
      calls.head? = (table.descending s.below).head?.map fun row =>
        (initBlock s.bsKey row.1, initBlock s.bsValue row.2) :=
  backLoop_spec (Nat.lt_of_le_of_lt Rows.length_descending_le hfuel)

/-- The start key is not in the table if the first row of the range has another key. -/
theorem absent_of_ne (hfirst : table.first (fun k => decide (start ≤ k)) = some row)
    (hne : row.1 ≠ start) : start ∉ table.keys := by
  intro hk
  have hle : row.1 ≤ start := Rows.first_le hfirst hk (by simp)
  exact hne (Std.le_antisymm hle (le_of_range hfirst))

theorem upTo_of_absent (hfirst : table.first (fun k => decide (start ≤ k)) = some row)
    (hne : row.1 ≠ start) : upTo table start = table.descending fun k => decide (k < row.1) := by
  refine Rows.descending_congr fun k hk => ?_
  rw [decide_eq_decide, lt_range_iff hfirst hk]
  constructor
  · intro hle
    exact Std.lt_of_le_of_ne hle fun heq => absent_of_ne hfirst hne (heq ▸ hk)
  · exact Std.le_of_lt

section

variable (hfuel : table.rows.length < fuel)

include hfuel

/-- The loop from fresh blocks on. -/
theorem backLoop_fresh {cursor : Option Bytes}
    (hupTo : upTo table start = table.descending (Back.below ⟨cursor, [], [], []⟩))
    (hapart : Apart table start) (hright : ¬ Mistaken table tv start) :
    ∃ ret calls, backLoop table tv fuel ⟨cursor, [], [], []⟩ = some (ret, calls) ∧
      (calls = offered tv [] (upTo table start) ↔ HandsOut table tv start) := by
  obtain ⟨ret, calls, hloop, hiff, -⟩ :=
    backLoop_ends tv ⟨cursor, [], [], []⟩ hfuel
  refine ⟨ret, calls, hloop, ?_⟩
  rw [hupTo, hiff, isChain_fresh, ← hupTo, HandsOut, or_iff_left hright]
  exact (and_iff_right hapart).symm

/-- The first row is taken for a match, and its key is the start key. -/
theorem matched_start {v : Bytes} (hne : start ≠ [])
    (hfirst : table.first (fun k => decide (start ≤ k)) = some (start, v)) :
    ∃ ret calls,
      (if tv.accept [] (matchBlock (start, v)) [] then
        backLoop table tv fuel ⟨some start, matchBlock (start, v), [], [(matchBlock (start, v), [])]⟩
      else some (false, [(matchBlock (start, v), [])])) = some (ret, calls) ∧
      (calls = offered tv [] (upTo table start) ↔ HandsOut table tv start) := by
  have hrow : (start, v) ∈ table.rows := Rows.mem_of_first hfirst
  have hself : start ∈ table.keys := Rows.key_of_first hfirst
  have hupTo : upTo table start = (start, v) :: table.descending fun k => decide (k < start) := by
    refine Rows.descending_of_mem hrow (by simp) ?_ ?_
    · intro k _ hle
      exact Std.not_lt.mpr (of_decide_eq_true hle)
    · intro k _
      simp only [decide_eq_true_eq]
      exact ⟨fun hlt => ⟨Std.le_of_lt hlt, hlt⟩, fun hand => hand.2⟩
  have hright : ¬ Mistaken table tv start := by
    rintro ⟨k, w, hfirst', -, hw, hhead, -⟩
    rw [hfirst, Option.some_inj, Prod.mk.injEq] at hfirst'
    rw [hupTo, List.head?_cons, Option.some_inj, Prod.mk.injEq] at hhead
    exact hw (hfirst'.2 ▸ hhead.2)
  rw [HandsOut, or_iff_left hright, hupTo]
  by_cases hv : v = []
  · subst hv
    have hblock : matchBlock (start, []) = start := by
      simp [matchBlock, initBlock, hne]
    have hapart : Apart table start := .inl hrow
    rw [hblock, offered]
    cases haccept : tv.accept [] start [] with
    | false => exact ⟨false, _, rfl, iff_of_true rfl ⟨hapart, by simp⟩⟩
    | true =>
      obtain ⟨ret, calls, hloop, hiff, -⟩ :=
        backLoop_ends tv ⟨some start, start, [], [(start, [])]⟩ hfuel
      refine ⟨ret, (start, []) :: calls, ?_, ?_⟩
      · rw [if_pos rfl, hloop]
        rfl
      · rw [if_pos rfl, List.cons_inj_right]
        exact hiff.trans (and_iff_right hapart).symm
  · -- the visitor gets the value for the key, and no value
    have happart : ¬ Apart table start := by
      intro hapart
      cases hapart with
      | inl hempty => exact hv (Prod.mk.inj (Rows.eq_of_key hrow hempty rfl)).2
      | inr hnone => exact hnone start hself (List.prefix_refl start)
    have hcons : ∀ rest, (matchBlock (start, v), []) :: rest ≠
        offered tv [] ((start, v) :: table.descending fun k => decide (k < start)) := by
      intro rest heq
      have hhead := List.head_eq_of_cons_eq heq
      exact hv (Prod.mk.inj hhead).2.symm
    obtain ⟨ret, calls, hloop, -⟩ := backLoop_ends tv
      ⟨some start, matchBlock (start, v), [], [(matchBlock (start, v), [])]⟩ hfuel
    split
    · exact ⟨ret, _, hloop, iff_of_false (hcons calls) fun hand => happart hand.1⟩
    · exact ⟨false, _, rfl, iff_of_false (hcons []) fun hand => happart hand.1⟩

/-- The first row is taken for a match, and its key is behind the start key. -/
theorem matched_behind
    (hfirst : table.first (fun k => decide (start ≤ k)) = some row) (hpre : start <+: row.1)
    (hbehind : row.1 ≠ start) :
    ∃ ret calls,
      (if tv.accept [] (matchBlock row) [] then
        backLoop table tv fuel ⟨some row.1, matchBlock row, [], [(matchBlock row, [])]⟩
      else some (false, [(matchBlock row, [])])) = some (ret, calls) ∧
      (calls = offered tv [] (upTo table start) ↔ HandsOut table tv start) := by
  have hstart : start < row.1 := Std.lt_of_le_of_ne (le_of_range hfirst) hbehind.symm
  have hupTo := upTo_of_absent hfirst hbehind
  have hblock : matchBlock row = if row.2 = [] then row.1 else row.2 := by
    have hkey : row.1 ≠ [] := by
      intro hnil
      rw [hnil] at hstart
      simp at hstart
    simp [matchBlock, initBlock, hkey]
  have happart : ¬ Apart table start := by
    intro hapart
    cases hapart with
    | inl hself => exact absent_of_ne hfirst hbehind (List.mem_map_of_mem hself)
    | inr hnone => exact hnone row.1 (Rows.key_of_first hfirst) hpre
  rw [HandsOut, or_iff_right fun hand => happart hand.1]
  cases haccept : tv.accept [] (matchBlock row) [] with
  | false =>
    refine ⟨false, _, rfl, ?_, ?_⟩
    · intro heq
      cases hrows : upTo table start with
      | nil =>
        rw [hrows] at heq
        cases heq
      | cons first rest =>
        rw [hrows] at heq
        have hhead : (matchBlock row, []) = first := List.head_eq_of_cons_eq heq
        have hle : matchBlock row ≤ start := by
          have hin : first ∈ upTo table start := hrows ▸ List.mem_cons_self
          have hlow := (Rows.mem_descending.mp hin).2
          rw [← hhead] at hlow
          exact of_decide_eq_true hlow
        have hvalue : row.2 ≠ [] := by
          intro hnil
          rw [hblock, if_pos hnil] at hle
          exact Std.not_le.mpr hstart hle
        rw [hblock, if_neg hvalue] at hhead haccept
        exact ⟨row.1, row.2, hfirst, hpre, hvalue, by rw [hrows, hhead]; rfl, haccept⟩
    · intro hmistaken
      obtain ⟨k, v, hfirst', -, hvalue, hhead, -⟩ := hmistaken
      rw [hfirst, Option.some_inj] at hfirst'
      subst hfirst'
      rw [hblock, if_neg hvalue] at haccept ⊢
      obtain ⟨rest, hrows⟩ := List.head?_eq_some_iff.mp hhead
      rw [hrows, offered, haccept]
      rfl
  | true =>
    obtain ⟨ret, calls, hloop, -, hnext⟩ := backLoop_ends tv
      ⟨some row.1, matchBlock row, [], [(matchBlock row, [])]⟩ hfuel
    refine ⟨ret, _, hloop, iff_of_false ?_ ?_⟩
    · -- the loop hands out the same again, where the key of the next row is smaller
      intro heq
      have hbelow : Back.below ⟨some row.1, matchBlock row, [], [(matchBlock row, [])]⟩ =
        fun k => decide (k < row.1) := rfl
      rw [hbelow, ← hupTo] at hnext
      cases hrows : upTo table start with
      | nil =>
        rw [hrows] at heq
        cases heq
      | cons first rest =>
        rw [hrows] at heq hnext
        have hhead : (matchBlock row, []) = first := List.head_eq_of_cons_eq heq
        subst hhead
        rw [offered, haccept, if_pos rfl] at heq
        have htail : calls = offered tv [(matchBlock row, [])] rest := List.tail_eq_of_cons_eq heq
        have hself : initBlock (matchBlock row) (matchBlock row) = matchBlock row :=
          initBlock_eq_iff.mpr id
        simp only [htail, List.head?_cons, Option.map_some, hself] at hnext
        cases rest with
        | nil => cases hnext
        | cons second rest =>
          have hsecond : second = (matchBlock row, []) := Option.some.inj hnext
          have hsorted := Rows.descending_sorted table fun k => decide (k ≤ start)
          rw [← upTo, hrows, hsecond, List.pairwise_cons] at hsorted
          exact Std.lt_irrefl (hsorted.1 _ List.mem_cons_self)
    · intro hmistaken
      obtain ⟨k, v, hfirst', -, hvalue, -, hrefuse⟩ := hmistaken
      rw [hfirst, Option.some_inj] at hfirst'
      subst hfirst'
      rw [hblock, if_neg hvalue, hrefuse] at haccept
      cases haccept

end

/-- For every table, start key and visitor the visit ends, and the visitor gets the rows up to
the start key, the last one first, each with its own key and value, until it refuses one, if
and only if the table hands them out. -/
theorem visitBackward_iff (table : Rows Bytes Bytes) (tv : CTableVisitor) (start : Bytes)
    (hstart : tv.getStartKey = some start) (hne : start ≠ []) (fuel : Nat)
    (hfuel : table.rows.length < fuel) :
    ∃ ret calls, visitBackward table tv fuel = some (ret, calls) ∧
      (calls = offered tv [] (upTo table start) ↔ HandsOut table tv start) := by
  have hlen : 0 < start.length := List.length_pos_iff.mpr hne
  rw [visitBackward, hstart, Option.getD_some, if_pos hlen, get_range]
  cases hfirst : table.first (fun k => decide (start ≤ k)) with
  | none =>
    -- all keys are below the start key
    have hlow : ∀ k ∈ table.keys, k < start := by
      intro k hk
      refine Std.not_le.mp fun hle => ?_
      exact Rows.not_of_first_none hfirst hk (decide_eq_true hle)
    refine backLoop_fresh hfuel ?_ (.inr ?_) ?_
    · refine Rows.descending_congr fun k hk => ?_
      exact decide_eq_true (Std.le_of_lt (hlow k hk))
    · exact fun k hk hpre => Std.not_le.mpr (hlow k hk) hpre.le
    · rintro ⟨k, v, hsome, -⟩
      rw [hfirst] at hsome
      cases hsome
  | some row =>
    have hle := le_of_range hfirst
    by_cases hpre : start <+: row.1
    · simp only [matchesStart_iff hle, hpre, if_true]
      by_cases hself : row.1 = start
      · obtain ⟨k, v⟩ := row
        cases hself
        exact matched_start hfuel hne hfirst
      · exact matched_behind hfuel hfirst hpre hself
    · simp only [matchesStart_iff hle, hpre, if_false]
      have hself : row.1 ≠ start := fun heq => hpre (heq ▸ List.prefix_refl start)
      refine backLoop_fresh hfuel (upTo_of_absent hfirst hself) (.inr ?_) ?_
      · intro k hk hother
        have hbetween := Rows.first_le hfirst hk (decide_eq_true hother.le)
        exact hpre (prefix_of_between (List.prefix_refl start) hother hle hbetween)
      · rintro ⟨k, v, hsome, hother, -⟩
        rw [hfirst, Option.some_inj] at hsome
        exact hpre (hsome ▸ hother)

/-- A key with an empty value, and others below it. -/
def plainTable : Rows Bytes Bytes where
  rows := [([97], [1]), ([98], [2]), ([99], [])]
  sorted := by decide

/-- Between two keys the visitor gets what is below, from a key of the table on it does not. -/
theorem visitBackward_plain :
    visitBackward plainTable (acceptAll (some [98, 0])) 4 =
      some (true, offered (acceptAll (some [98, 0])) [] (upTo plainTable [98, 0])) ∧
    HandsOut plainTable (acceptAll (some [98, 0])) [98, 0] ∧
    ¬ HandsOut plainTable (acceptAll (some [98])) [98] := by
  obtain ⟨ret, calls, hrun, hiff⟩ :=
    visitBackward_iff plainTable (acceptAll (some [98, 0])) [98, 0] rfl (by decide) 4 (by decide)
  obtain ⟨ret', calls', hrun', hiff'⟩ :=
    visitBackward_iff plainTable (acceptAll (some [98])) [98] rfl (by decide) 4 (by decide)
  have hplain : visitBackward plainTable (acceptAll (some [98, 0])) 4 =
      some (true, offered (acceptAll (some [98, 0])) [] (upTo plainTable [98, 0])) := by decide
  have hpresent : visitBackward plainTable (acceptAll (some [98])) 4 =
      some (true, [([2], []), ([97], [1])]) := by decide
  refine ⟨hplain, hiff.mp ?_, fun hhands => ?_⟩
  · rw [hrun, Option.some_inj, Prod.mk.injEq] at hplain
    exact hplain.2
  · rw [hrun', Option.some_inj, Prod.mk.injEq] at hpresent
    have hcalls := hiff'.mpr hhands
    rw [hpresent.2] at hcalls
    exact absurd hcalls (by decide)

/-- From a key of the table on, the visitor gets its value for the key, and no value. -/
theorem visitBackward_present : ∃ ret calls,
    visitBackward plainTable (acceptAll (some [98])) 4 = some (ret, calls) ∧
      calls ≠ offered (acceptAll (some [98])) [] (upTo plainTable [98]) :=
  ⟨true, [([2], []), ([97], [1])], by decide, by decide⟩

end CTable

end BDB
