-- SUMMARY: The forward visit of a table, and the tables it walks through without a slip.
import NetworkEtc.Library.Rows
import Mathlib.Data.List.Infix

/-!
# `CTable::Visit`

A table is a finite map from keys to values in the order of the keys as unsigned bytes.
The cursor's `get` gives the first key that its flags ask for. The loop hands every row it
gets to the visitor; behind a key of more than two bytes that starts with `@@` or with `!!`
it means to go on at `@@~` or at `!!~`.
-/

namespace BDB

open Library Std

abbrev Bytes := List UInt8

inductive Flags where
  | DB_NEXT
  | DB_SET_RANGE
  deriving DecidableEq

structure CTableVisitor where
  getStartKey : Option Bytes
  /-- Its answer to a key and a value, after the calls it had before. -/
  accept : List (Bytes × Bytes) → Bytes → Bytes → Bool

namespace CTable

variable {table : Rows Bytes Bytes} {tv : CTableVisitor}

/-- The keys that `get` looks for. A cursor that was not used stands before all rows. -/
def wanted (cursor : Option Bytes) (key : Bytes) : Flags → Bytes → Bool
  | .DB_NEXT, k => cursor.all fun c => decide (c < k)
  | .DB_SET_RANGE, k => decide (key ≤ k)

/-- `cursor->get` -/
def get (table : Rows Bytes Bytes) (cursor : Option Bytes) (key : Bytes) (flags : Flags) :
    Option (Bytes × Bytes) :=
  table.first (wanted cursor key flags)

/-- `Init` of a block on what a `Dbt` holds. It refuses a size of 0, and the block stays on
what it was on before. -/
def initBlock (block dbt : Bytes) : Bytes := if dbt.length = 0 then block else dbt

/-- `GetSize() > 2 && GetRead()[0] == c && GetRead()[1] == c` -/
def isSystem (c : UInt8) (key : Bytes) : Bool :=
  decide (2 < key.length) && key[0]? == some c && key[1]? == some c

/-- `"@@"` -/
def atAt : Bytes := [64, 64]

/-- `"@@~"` -/
def atAtEnd : Bytes := [64, 64, 126]

/-- `"!!"` -/
def bangBang : Bytes := [33, 33]

/-- `"!!~"` -/
def bangBangEnd : Bytes := [33, 33, 126]

/-- The variables of the loop. -/
structure Visit where
  cursor : Option Bytes
  key : Bytes
  flags : Flags
  bsKey : Bytes
  bsValue : Bytes
  /-- The calls of `Accept` so far. -/
  calls : List (Bytes × Bytes)

/-- The loop begins at the start key, if there is one. -/
def Visit.start (tv : CTableVisitor) : Visit where
  cursor := none
  key := tv.getStartKey.getD []
  flags := if 0 < (tv.getStartKey.getD []).length then .DB_SET_RANGE else .DB_NEXT
  bsKey := []
  bsValue := []
  calls := []

/-- The end of the loop: where to go on. The `else` belongs to the second condition. -/
def jump (bsKey key : Bytes) (flags : Flags) : Bytes × Flags :=
  let (key, _) := if isSystem 64 bsKey then (atAtEnd, .DB_SET_RANGE) else (key, flags)
  if isSystem 33 bsKey then (bangBangEnd, .DB_SET_RANGE) else (key, .DB_NEXT)

/-- The loop after `get` gave a row, up to `Accept`. -/
def Visit.take (s : Visit) (row : Bytes × Bytes) : Visit :=
  let bsKey := initBlock s.bsKey row.1
  let bsValue := initBlock s.bsValue row.2
  { s with
    cursor := some row.1
    key := row.1
    bsKey
    bsValue
    calls := s.calls ++ [(bsKey, bsValue)] }

/-- The loop behind `Accept`. -/
def Visit.move (s : Visit) : Visit :=
  { s with key := (jump s.bsKey s.key s.flags).1, flags := (jump s.bsKey s.key s.flags).2 }

/-- The `while` loop: what `Visit` returns and the calls of `Accept`. Out of fuel is a loop
that has not ended yet. -/
def visitLoop (table : Rows Bytes Bytes) (tv : CTableVisitor) :
    Nat → Visit → Option (Bool × List (Bytes × Bytes))
  | 0, _ => none
  | fuel + 1, s =>
    match get table s.cursor s.key s.flags with
    | none => some (true, s.calls)
    | some row =>
      let s' := s.take row
      if tv.accept s.calls s'.bsKey s'.bsValue then visitLoop table tv fuel s'.move
      else some (false, s'.calls)

/-- `Visit` with a visitor that goes forward. -/
def visit (table : Rows Bytes Bytes) (tv : CTableVisitor) (fuel : Nat) :
    Option (Bool × List (Bytes × Bytes)) :=
  visitLoop table tv fuel (Visit.start tv)

/-! # The order of the keys -/

/-- Between two keys with a prefix every key has it. -/
theorem prefix_of_between {p a k b : Bytes} (ha : p <+: a) (hb : p <+: b) (hak : a ≤ k)
    (hkb : k ≤ b) : p <+: k := by
  induction p generalizing a k b with
  | nil => exact List.nil_prefix
  | cons c p ih =>
    obtain ⟨a, rfl⟩ := ha
    obtain ⟨b, rfl⟩ := hb
    cases k with
    | nil => simp at hak
    | cons d k =>
      simp only [List.cons_append, List.cons_le_cons_iff] at hak hkb
      have hd : d = c := by grind
      subst hd
      have hak : p ++ a ≤ k := by simpa [UInt8.lt_irrefl] using hak
      have hkb : k ≤ p ++ b := by simpa [UInt8.lt_irrefl] using hkb
      rw [List.prefix_cons_inj]
      exact ih (List.prefix_append p a) (List.prefix_append p b) hak hkb

theorem isSystem_iff {c : UInt8} {key : Bytes} :
    isSystem c key ↔ 2 < key.length ∧ [c, c] <+: key := by
  cases key with
  | nil => simp [isSystem]
  | cons a key =>
    cases key with
    | nil => simp [isSystem]
    | cons b key => simp [isSystem, and_assoc, @eq_comm _ c]

/-- A key from `!!~` on that starts with `!!` is longer than two bytes. -/
theorem isSystem_of_end_le {key : Bytes} (hkey : bangBang <+: key) (h : bangBangEnd ≤ key) :
    isSystem 33 key := by
  rw [isSystem_iff]
  refine ⟨?_, hkey⟩
  obtain ⟨rest, rfl⟩ := hkey
  cases rest with
  | nil => exact absurd h (by decide)
  | cons a rest => simp [bangBang]

theorem not_bang_of_atAt {key : Bytes} (hkey : atAt <+: key) : ¬ bangBang <+: key := by
  obtain ⟨rest, rfl⟩ := hkey
  simp [atAt, bangBang]

/-! # One turn of the loop -/

/-- The keys that the next `get` looks for. -/
def Visit.aim (s : Visit) : Bytes → Bool := wanted s.cursor s.key s.flags

/-- An empty key is only looked for while `bsKey` is empty. -/
def Visit.Fits (s : Visit) : Prop := s.aim [] → s.bsKey = []

variable {s : Visit} {row : Bytes × Bytes} {k : Bytes} {fuel : Nat}

theorem Visit.take_bsKey (hs : s.Fits) (hget : get table s.cursor s.key s.flags = some row) :
    (s.take row).bsKey = row.1 := by
  have haim : s.aim row.1 := Rows.first_holds hget
  simp only [Visit.take, initBlock]
  split
  · rename_i hempty
    rw [List.length_eq_zero_iff] at hempty
    rw [hempty] at haim ⊢
    exact hs haim
  · rfl

/-- Behind a long key with `!!` the loop wants the keys from `!!~` on, and behind any other
key those above it: the jump behind `@@` is lost. -/
theorem Visit.aim_move (hs : s.Fits) (hget : get table s.cursor s.key s.flags = some row) :
    (s.take row).move.aim k =
      if isSystem 33 row.1 then decide (bangBangEnd ≤ k) else decide (row.1 < k) := by
  have hkey := Visit.take_bsKey hs hget
  simp only [Visit.aim, Visit.move, jump, hkey]
  split
  · rfl
  · rfl

theorem Visit.fits_move (hs : s.Fits) (hget : get table s.cursor s.key s.flags = some row) :
    (s.take row).move.Fits := by
  intro haim
  rw [Visit.aim_move hs hget] at haim
  split at haim
  · simp [bangBangEnd] at haim
  · simp at haim

theorem Visit.fits_start : (Visit.start tv).Fits := fun _ => rfl

/-- The visit begins with the keys from the start key on. -/
theorem Visit.aim_start : (Visit.start tv).aim k = decide (tv.getStartKey.getD [] ≤ k) := by
  simp only [Visit.aim, Visit.start]
  split
  · rfl
  · rename_i hempty
    have hnil : tv.getStartKey.getD [] = [] := by simpa using hempty
    simp [hnil, wanted]

/-- The loop goes on from a row, the visitor having accepted it. -/
theorem visitLoop_succ (haccept : ∀ calls key value, tv.accept calls key value)
    (hget : get table s.cursor s.key s.flags = some row) :
    visitLoop table tv (fuel + 1) s = visitLoop table tv fuel (s.take row).move := by
  simp [visitLoop, hget, haccept]

theorem visitLoop_end (hget : get table s.cursor s.key s.flags = none) :
    visitLoop table tv (fuel + 1) s = some (true, s.calls) := by
  simp [visitLoop, hget]

/-! # When the loop ends -/

/-- No key that `p` holds of starts with `!!` and stands at `!!~` or behind it. -/
def Passable (table : Rows Bytes Bytes) (p : Bytes → Bool) : Prop :=
  ∀ k ∈ table.keys, p k → bangBang <+: k → k < bangBangEnd

/-- With a key that starts with `!!` at `!!~` or behind it the loop comes back to the first
such key for ever. -/
theorem visitLoop_none (haccept : ∀ calls key value, tv.accept calls key value)
    (hk : k ∈ table.keys) (hbang : bangBang <+: k) (hend : bangBangEnd ≤ k) (hs : s.Fits)
    (haim : s.aim k) : visitLoop table tv fuel s = none := by
  induction fuel generalizing s with
  | zero => rfl
  | succ fuel ih =>
    obtain ⟨row, hget⟩ := Rows.first_of_mem hk haim
    rw [visitLoop_succ haccept hget]
    apply ih (Visit.fits_move hs hget)
    rw [Visit.aim_move hs hget]
    split
    · exact decide_eq_true hend
    · rename_i hrow
      have hle : row.1 ≤ k := Rows.first_le hget hk haim
      have hne : row.1 ≠ k := by
        intro heq
        rw [heq] at hrow
        exact hrow (isSystem_of_end_le hbang hend)
      apply decide_eq_true
      grind

/-- What a cursor looks for goes up. -/
theorem wanted_mono {cursor : Option Bytes} {key : Bytes} {flags : Flags} {a b : Bytes}
    (ha : wanted cursor key flags a) (hab : a ≤ b) : wanted cursor key flags b := by
  cases flags with
  | DB_NEXT =>
    cases cursor with
    | none => rfl
    | some c =>
      simp only [wanted, Option.all_some, decide_eq_true_eq] at ha ⊢
      exact Std.lt_of_lt_of_le ha hab
  | DB_SET_RANGE =>
    simp only [wanted, decide_eq_true_eq] at ha ⊢
    exact Std.le_trans ha hab

section

variable (hs : s.Fits) (hget : get table s.cursor s.key s.flags = some row)
  (hpass : Passable table s.aim)

include hs hget hpass

/-- The loop goes up. -/
theorem Visit.lt_of_aim_move (haim : (s.take row).move.aim k) : row.1 < k := by
  rw [Visit.aim_move hs hget] at haim
  split at haim
  · rename_i hrow
    have hlt : row.1 < bangBangEnd :=
      hpass _ (Rows.key_of_first hget) (Rows.first_holds hget) (isSystem_iff.mp hrow).2
    exact Std.lt_of_lt_of_le hlt (of_decide_eq_true haim)
  · exact of_decide_eq_true haim

theorem Visit.aim_of_aim_move (haim : (s.take row).move.aim k) : s.aim k :=
  wanted_mono (Rows.first_holds hget)
    (Std.le_of_lt (Visit.lt_of_aim_move hs hget hpass haim))

theorem Visit.passable_move : Passable table (s.take row).move.aim :=
  fun k hk haim => hpass k hk (Visit.aim_of_aim_move hs hget hpass haim)

omit hpass in
/-- The loop jumps keys that start with `!!` only. -/
theorem Visit.aim_move_of_not_bang (hk : k ∈ table.keys) (haim : s.aim k)
    (hbang : ¬ bangBang <+: k) : k = row.1 ∨ (s.take row).move.aim k := by
  have hle : row.1 ≤ k := Rows.first_le hget hk haim
  rw [Visit.aim_move hs hget]
  split
  · rename_i hrow
    right
    apply decide_eq_true
    apply Std.not_lt.mp
    intro hlt
    have hend : bangBang <+: bangBangEnd := ⟨[126], rfl⟩
    exact hbang (prefix_of_between (isSystem_iff.mp hrow).2 hend hle (Std.le_of_lt hlt))
  · simp only [decide_eq_true_eq]
    grind

end

/-- Without such a key the loop ends. -/
theorem visitLoop_ends (haccept : ∀ calls key value, tv.accept calls key value) (hs : s.Fits)
    (hpass : Passable table s.aim) : ∃ fuel result, visitLoop table tv fuel s = some result := by
  induction hn : table.count s.aim using Nat.strongRecOn generalizing s with
  | ind n ih =>
    cases hget : get table s.cursor s.key s.flags with
    | none => exact ⟨1, _, visitLoop_end hget⟩
    | some row =>
      have hlt : table.count (s.take row).move.aim < n := by
        rw [← hn]
        apply Rows.count_lt hget
        · intro k _ haim
          exact Visit.aim_of_aim_move hs hget hpass haim
        · intro haim
          exact Std.lt_irrefl (Visit.lt_of_aim_move hs hget hpass haim)
      obtain ⟨fuel, result, hrest⟩ := ih _ hlt (Visit.fits_move hs hget)
        (Visit.passable_move hs hget hpass) rfl
      exact ⟨fuel + 1, result, by rw [visitLoop_succ haccept hget, hrest]⟩

/-! # What the loop visits -/

def AtMostOne (p : Bytes → Prop) (keys : List Bytes) : Prop :=
  ∀ a ∈ keys, ∀ b ∈ keys, p a → p b → a = b

/-- What the calls for `keys` have visited of the keys that `p` holds of. -/
structure Walked (table : Rows Bytes Bytes) (p : Bytes → Bool) (keys : List Bytes) : Prop where
  increasing : keys.Pairwise (· < ·)
  found : ∀ k ∈ keys, k ∈ table.keys ∧ p k
  complete : ∀ k ∈ table.keys, p k → ¬ bangBang <+: k → k ∈ keys
  once : AtMostOne (fun k => isSystem 33 k ∧ k < bangBangEnd) keys

theorem Walked.nil {p : Bytes → Bool} (h : ∀ k ∈ table.keys, ¬ p k) : Walked table p [] where
  increasing := List.Pairwise.nil
  found := nofun
  complete k hk hp _ := absurd hp (h k hk)
  once := nofun

theorem Walked.cons {keys : List Bytes} (hs : s.Fits)
    (hget : get table s.cursor s.key s.flags = some row) (hpass : Passable table s.aim)
    (h : Walked table (s.take row).move.aim keys) : Walked table s.aim (row.1 :: keys) where
  increasing := by
    refine List.pairwise_cons.mpr ⟨?_, h.increasing⟩
    intro k hk
    exact Visit.lt_of_aim_move hs hget hpass (h.found k hk).2
  found k hk := by
    cases List.mem_cons.mp hk with
    | inl heq =>
      rw [heq]
      exact ⟨Rows.key_of_first hget, Rows.first_holds hget⟩
    | inr hin =>
      exact ⟨(h.found k hin).1, Visit.aim_of_aim_move hs hget hpass (h.found k hin).2⟩
  complete k hk hp hbang := by
    cases Visit.aim_move_of_not_bang hs hget hk hp hbang with
    | inl heq => rw [heq]; exact List.mem_cons_self
    | inr haim => exact List.mem_cons_of_mem _ (h.complete k hk haim hbang)
  once := by
    -- Behind a long key with `!!` all keys are at `!!~` or behind it.
    have hlast : isSystem 33 row.1 → ∀ k ∈ keys, ¬ k < bangBangEnd := by
      intro hrow k hk
      have haim := (h.found k hk).2
      rw [Visit.aim_move hs hget, if_pos hrow, decide_eq_true_eq] at haim
      exact Std.not_lt.mpr haim
    intro a ha b hb hpa hpb
    cases List.mem_cons.mp ha with
    | inl heqa =>
      cases List.mem_cons.mp hb with
      | inl heqb => rw [heqa, heqb]
      | inr hinb => exact absurd hpb.2 (hlast (heqa ▸ hpa.1) b hinb)
    | inr hina =>
      cases List.mem_cons.mp hb with
      | inl heqb => exact absurd hpa.2 (hlast (heqb ▸ hpb.1) a hina)
      | inr hinb => exact h.once a hina b hinb hpa hpb

/-- The calls of a loop that ends. -/
theorem visitLoop_walked (haccept : ∀ calls key value, tv.accept calls key value)
    (hs : s.Fits) (hpass : Passable table s.aim) {result : Bool × List (Bytes × Bytes)}
    (hrun : visitLoop table tv fuel s = some result) :
    ∃ calls, result = (true, s.calls ++ calls) ∧ Walked table s.aim (calls.map Prod.fst) := by
  induction fuel generalizing s with
  | zero => cases hrun
  | succ fuel ih =>
    cases hget : get table s.cursor s.key s.flags with
    | none =>
      rw [visitLoop_end hget] at hrun
      cases hrun
      refine ⟨[], by simp, ?_⟩
      exact Walked.nil fun k hk => Rows.not_of_first_none hget hk
    | some row =>
      rw [visitLoop_succ haccept hget] at hrun
      obtain ⟨calls, hresult, hwalked⟩ := ih (Visit.fits_move hs hget)
        (Visit.passable_move hs hget hpass) hrun
      refine ⟨(row.1, initBlock s.bsValue row.2) :: calls, ?_, ?_⟩
      · have hkey : initBlock s.bsKey row.1 = row.1 := Visit.take_bsKey hs hget
        rw [hresult]
        simp [Visit.move, Visit.take, hkey]
      · have hcons := Walked.cons hs hget hpass hwalked
        exact hcons

/-! # The visit -/

/-- Which keys the visit of a table hands to the visitor, in this order, if it skips the
system keys behind `@@` and `!!`. -/
structure Skips (table : Rows Bytes Bytes) (start : Bytes) (keys : List Bytes) : Prop where
  increasing : keys.Pairwise (· < ·)
  complete : ∀ k ∈ table.keys, start ≤ k → ¬ atAt <+: k → ¬ bangBang <+: k → k ∈ keys
  atOnce : AtMostOne (fun k => atAt <+: k ∧ 2 < k.length ∧ k < atAtEnd) keys
  bangOnce : AtMostOne (fun k => bangBang <+: k ∧ 2 < k.length ∧ k < bangBangEnd) keys

/-- From the start key on, at most one long key with `@@` stands below `@@~`, and no key with
`!!` at `!!~` or behind it. -/
structure Clear (table : Rows Bytes Bytes) (start : Bytes) : Prop where
  atOnce : AtMostOne (fun k => start ≤ k ∧ atAt <+: k ∧ 2 < k.length ∧ k < atAtEnd) table.keys
  passable : ∀ k ∈ table.keys, start ≤ k → bangBang <+: k → k < bangBangEnd

theorem passable_start : Passable table (Visit.start tv).aim ↔
    ∀ k ∈ table.keys, tv.getStartKey.getD [] ≤ k → bangBang <+: k → k < bangBangEnd := by
  simp only [Passable, Visit.aim_start, decide_eq_true_eq]

/-- The visit ends if and only if no key from the start key on starts with `!!` and stands at
`!!~` or behind it. -/
theorem visit_ends_iff (haccept : ∀ calls key value, tv.accept calls key value) :
    (∃ fuel result, visit table tv fuel = some result) ↔
      Passable table (Visit.start tv).aim := by
  constructor
  · rintro ⟨fuel, result, hrun⟩ k hk haim hbang
    apply Std.not_le.mp
    intro hend
    rw [visit, visitLoop_none haccept hk hbang hend Visit.fits_start haim] at hrun
    cases hrun
  · exact visitLoop_ends haccept Visit.fits_start

/-- The visit ends and has skipped the system keys if and only if the table is clear. -/
theorem visit_skips_iff (table : Rows Bytes Bytes) (tv : CTableVisitor)
    (haccept : ∀ calls key value, tv.accept calls key value) :
    (∃ fuel result, visit table tv fuel = some result ∧
      Skips table (tv.getStartKey.getD []) (result.2.map Prod.fst)) ↔
      Clear table (tv.getStartKey.getD []) := by
  constructor
  · rintro ⟨fuel, result, hrun, hskips⟩
    have hpass := (visit_ends_iff haccept).mp ⟨fuel, result, hrun⟩
    obtain ⟨calls, rfl, hwalked⟩ := visitLoop_walked haccept Visit.fits_start hpass hrun
    have hstart : (Visit.start tv).calls = [] := rfl
    rw [hstart, List.nil_append] at hskips
    -- No long key with `@@` is jumped.
    have hvisited : ∀ k ∈ table.keys, tv.getStartKey.getD [] ≤ k → atAt <+: k →
        k ∈ calls.map Prod.fst := by
      intro k hk hle hat
      apply hwalked.complete k hk
      · rw [Visit.aim_start]
        exact decide_eq_true hle
      · exact not_bang_of_atAt hat
    refine ⟨?_, passable_start.mp hpass⟩
    intro a ha b hb hpa hpb
    exact hskips.atOnce a (hvisited a ha hpa.1 hpa.2.1) b (hvisited b hb hpb.1 hpb.2.1)
      hpa.2 hpb.2
  · intro hclear
    have hpass := passable_start.mpr hclear.passable
    obtain ⟨fuel, result, hrun⟩ := (visit_ends_iff haccept).mpr hpass
    obtain ⟨calls, rfl, hwalked⟩ := visitLoop_walked haccept Visit.fits_start hpass hrun
    have hstart : (Visit.start tv).calls = [] := rfl
    refine ⟨fuel, _, hrun, ?_⟩
    rw [hstart, List.nil_append]
    have hfrom : ∀ k ∈ calls.map Prod.fst, k ∈ table.keys ∧ tv.getStartKey.getD [] ≤ k := by
      intro k hk
      obtain ⟨hmem, haim⟩ := hwalked.found k hk
      rw [Visit.aim_start] at haim
      exact ⟨hmem, of_decide_eq_true haim⟩
    refine ⟨hwalked.increasing, ?_, ?_, ?_⟩
    · intro k hk hle _ hbang
      apply hwalked.complete k hk _ hbang
      rw [Visit.aim_start]
      exact decide_eq_true hle
    · intro a ha b hb hpa hpb
      exact hclear.atOnce a (hfrom a ha).1 b (hfrom b hb).1 ⟨(hfrom a ha).2, hpa⟩
        ⟨(hfrom b hb).2, hpb⟩
    · intro a ha b hb hpa hpb
      exact hwalked.once a ha b hb ⟨isSystem_iff.mpr ⟨hpa.2.1, hpa.1⟩, hpa.2.2⟩
        ⟨isSystem_iff.mpr ⟨hpb.2.1, hpb.1⟩, hpb.2.2⟩

def acceptAll (start : Option Bytes) : CTableVisitor where
  getStartKey := start
  accept _ _ _ := true

/-- Keys with `!!` and with `@@`, and others. -/
def mixedTable : Rows Bytes Bytes where
  rows := [([33, 33, 97], [1]), ([33, 33, 98], [2]), ([64, 64, 97], [3]), ([97], [4])]
  sorted := by decide

theorem visit_skips_mixed : ∃ fuel result, visit mixedTable (acceptAll none) fuel = some result ∧
    Skips mixedTable [] (result.2.map Prod.fst) := by
  apply (visit_skips_iff mixedTable (acceptAll none) fun _ _ _ => rfl).mpr
  exact ⟨by unfold AtMostOne; decide, by decide⟩

example : visit mixedTable (acceptAll none) 4 =
    some (true, [([33, 33, 97], [1]), ([64, 64, 97], [3]), ([97], [4])]) := by decide

/-- One key, and it is `!!~`. -/
def endTable : Rows Bytes Bytes where
  rows := [(bangBangEnd, [1])]
  sorted := by decide

/-- The visit of this table never ends. -/
theorem visit_skips_endTable : ¬ ∃ fuel result, visit endTable (acceptAll none) fuel =
    some result ∧ Skips endTable [] (result.2.map Prod.fst) := by
  rintro ⟨fuel, result, hrun, -⟩
  rw [visit, visitLoop_none (fun _ _ _ => rfl) (k := bangBangEnd) (by decide) (by decide)
    (Std.le_refl _) Visit.fits_start (by decide)] at hrun
  cases hrun

/-- Two keys with `@@`. -/
def leaseTable : Rows Bytes Bytes where
  rows := [([64, 64, 97], [1]), ([64, 64, 98], [2])]
  sorted := by decide

example : visit leaseTable (acceptAll none) 3 =
    some (true, [([64, 64, 97], [1]), ([64, 64, 98], [2])]) := by decide

end CTable

end BDB
