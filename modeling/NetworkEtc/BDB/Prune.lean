-- SUMMARY: Deleting the keys with a prefix, and the tables in which no others go.
import NetworkEtc.BDB.Table

/-!
# `CTable::Prune`

The scan begins at the prefix and ends at the first key that is too short or that `strncmp`
tells from the prefix. `strncmp` takes both for strings, which end at the first zero byte, so
behind the keys with the prefix it may go on to keys that agree with it up to there only.
-/

namespace BDB

open Library Std

namespace CTable

variable {table : Rows Bytes Bytes} {pruneExpiries : Bool} {k : Bytes}

/-- Only what is read counts: neither string is shorter than `n`. -/
def strncmp : Nat → Bytes → Bytes → Int
  | 0, _, _ => 0
  | n + 1, s, t =>
    let a := s.headD 0
    let b := t.headD 0
    if a ≠ b then (a.toNat : Int) - b.toNat
    else if a = 0 then 0
    else strncmp n s.tail t.tail

/-- `key.get_size() >= 2 && key.get_data()[0] == c && key.get_data()[1] == c` -/
def startsTwice (c : UInt8) (key : Bytes) : Bool :=
  decide (2 ≤ key.length) && key[0]? == some c && key[1]? == some c

/-- The `while` loop: the table behind it. -/
def pruneLoop (pre : Bytes) (pruneExpiries : Bool) :
    Nat → Rows Bytes Bytes → Option Bytes → Bytes → Flags → Option (Rows Bytes Bytes)
  | 0, _, _, _, _ => none
  | fuel + 1, table, cursor, key, flags =>
    match get table cursor key flags with
    | none => some table
    | some (key, _) =>
      if key.length < pre.length then some table
      else if strncmp pre.length pre key ≠ 0 then some table
      -- don't delete keys starting with @@
      else if startsTwice 64 key then
        pruneLoop pre pruneExpiries fuel table (some key) key .DB_NEXT
      -- don't delete keys starting with !!
      else if !pruneExpiries && startsTwice 33 key then
        pruneLoop pre pruneExpiries fuel table (some key) key .DB_NEXT
      else pruneLoop pre pruneExpiries fuel (table.erase key) (some key) key .DB_NEXT

/-- `Prune` -/
def prune (table : Rows Bytes Bytes) (pre : Bytes) (pruneExpiries : Bool) (fuel : Nat) :
    Option (Rows Bytes Bytes) :=
  pruneLoop pre pruneExpiries fuel table none pre
    (if 0 < pre.length then .DB_SET_RANGE else .DB_NEXT)

/-! # What should go -/

/-- A key that stays whatever the prefix is. -/
def Protected (pruneExpiries : Bool) (k : Bytes) : Prop :=
  atAt <+: k ∨ pruneExpiries = false ∧ bangBang <+: k

/-- The table without the keys that have the prefix, and otherwise as it was. -/
def Pruned (table table' : Rows Bytes Bytes) (pre : Bytes) (pruneExpiries : Bool) : Prop :=
  ∀ row, row ∈ table'.rows ↔
    row ∈ table.rows ∧ ¬ (pre <+: row.1 ∧ ¬ Protected pruneExpiries row.1)

/-- The bytes up to the first zero byte, and this byte. -/
def cString : Bytes → Bytes
  | [] => []
  | b :: bytes => b :: if b = 0 then [] else cString bytes

/-- A key behind those with the prefix that agrees with it up to its first zero byte, is not
shorter and not protected, and is reached: no key is in between that is shorter. -/
structure Straggler (table : Rows Bytes Bytes) (pre : Bytes) (pruneExpiries : Bool)
    (k : Bytes) : Prop where
  mem : k ∈ table.keys
  behind : pre < k
  other : ¬ pre <+: k
  agrees : cString pre <+: k
  free : ¬ Protected pruneExpiries k
  reached : ∀ a ∈ table.keys, pre ≤ a → a ≤ k → pre.length ≤ a.length

/-! # Strings -/

theorem strncmp_eq_zero_iff {s t : Bytes} (hlen : s.length ≤ t.length) :
    strncmp s.length s t = 0 ↔ cString s <+: t := by
  induction s generalizing t with
  | nil => simp [strncmp, cString]
  | cons a s ih =>
    cases t with
    | nil => cases hlen
    | cons b t =>
      have hrest := ih (Nat.le_of_succ_le_succ hlen)
      simp only [List.length_cons, strncmp, cString, List.headD_cons, List.tail_cons,
        List.cons_prefix_cons]
      by_cases hab : a = b
      · subst hab
        by_cases hzero : a = 0
        · simp [hzero]
        · simpa [hzero] using hrest
      · have hne : a.toNat ≠ b.toNat := fun heq => hab (UInt8.toNat_inj.mp heq)
        simp only [ne_eq, hab, not_false_eq_true, if_true, false_and, iff_false]
        omega

theorem prefix_cString (s : Bytes) : cString s <+: s := by
  induction s with
  | nil => exact List.prefix_refl []
  | cons b s ih =>
    rw [cString, List.prefix_cons_inj]
    split
    · exact List.nil_prefix
    · exact ih

theorem startsTwice_iff {c : UInt8} {key : Bytes} : startsTwice c key ↔ [c, c] <+: key := by
  cases key with
  | nil => simp [startsTwice]
  | cons a key =>
    cases key with
    | nil => simp [startsTwice]
    | cons b key => simp [startsTwice, @eq_comm _ c]

theorem protected_iff : Protected pruneExpiries k ↔
    startsTwice 64 k = true ∨ (!pruneExpiries && startsTwice 33 k) = true := by
  rw [Protected, Bool.and_eq_true, Bool.not_eq_true', startsTwice_iff, startsTwice_iff, atAt, bangBang]

/-! # The loop -/

variable {pre : Bytes} {p : Bytes → Bool} {fuel : Nat}

/-- The loop goes on at this key. -/
def Passes (pre k : Bytes) : Prop := pre.length ≤ k.length ∧ strncmp pre.length pre k = 0

/-- The scan of the keys that `p` holds of comes to this key and goes on. -/
def Reached (table : Rows Bytes Bytes) (p : Bytes → Bool) (pre k : Bytes) : Prop :=
  p k ∧ ∀ a ∈ table.keys, p a → a ≤ k → Passes pre a

section

variable {cursor : Option Bytes} {key : Bytes} {flags : Flags} {row : Bytes × Bytes}
  (hget : get table cursor key flags = some row)

include hget

/-- The cursor looks for the row it is given and those above it. -/
theorem wanted_iff (hk : k ∈ table.keys) : wanted cursor key flags k ↔ row.1 ≤ k := by
  constructor
  · exact Rows.first_le hget hk
  · exact wanted_mono (Rows.first_holds hget)

/-- The scan goes on behind a row that passes, whether or not the row was taken out. -/
theorem reached_next {table' : Rows Bytes Bytes} (hpass : Passes pre row.1)
    (hkeys : ∀ a, a ≠ row.1 → (a ∈ table'.keys ↔ a ∈ table.keys)) (hk : k ∈ table.keys)
    (hne : k ≠ row.1) :
    Reached table' (wanted (some row.1) row.1 .DB_NEXT) pre k ↔
      Reached table (wanted cursor key flags) pre k := by
  have hnext : ∀ a, wanted (some row.1) row.1 .DB_NEXT a ↔ row.1 < a := fun a => by simp [wanted]
  rw [Reached, Reached, hnext, wanted_iff hget hk]
  refine and_congr ⟨Std.le_of_lt, fun hle => Std.lt_of_le_of_ne hle hne.symm⟩ ?_
  constructor
  · intro hall a ha haim hle
    rw [wanted_iff hget ha] at haim
    by_cases heq : a = row.1
    · rw [heq]
      exact hpass
    · exact hall a ((hkeys a heq).mpr ha) ((hnext a).mpr (Std.lt_of_le_of_ne haim (Ne.symm heq))) hle
  · intro hall a ha haim hle
    rw [hnext] at haim
    have hother : a ≠ row.1 := fun heq => Std.lt_irrefl (heq ▸ haim)
    have hmem := (hkeys a hother).mp ha
    exact hall a hmem ((wanted_iff hget hmem).mpr (Std.le_of_lt haim)) hle

/-- A row that passes is reached. -/
theorem reached_first (hpass : Passes pre row.1) : Reached table (wanted cursor key flags) pre row.1 := by
  refine ⟨Rows.first_holds hget, fun a ha haim hle => ?_⟩
  have heq : a = row.1 := Std.le_antisymm hle ((wanted_iff hget ha).mp haim)
  rw [heq]
  exact hpass

/-- If the first row does not pass, the scan reaches no key. -/
theorem not_reached (hpass : ¬ Passes pre row.1) (hk : k ∈ table.keys) :
    ¬ Reached table (wanted cursor key flags) pre k := by
  intro hreached
  refine hpass (hreached.2 row.1 (Rows.key_of_first hget) (Rows.first_holds hget) ?_)
  exact (wanted_iff hget hk).mp hreached.1

theorem count_next_lt :
    table.count (wanted (some row.1) row.1 .DB_NEXT) < table.count (wanted cursor key flags) := by
  refine Rows.count_lt hget ?_ ?_
  · intro k hk hnext
    have hlt : row.1 < k := by simpa [wanted] using hnext
    exact (wanted_iff hget hk).mpr (Std.le_of_lt hlt)
  · simp [wanted]

end

/-- The loop takes the unprotected ones of the keys that it reaches from the table. -/
theorem pruneLoop_spec {cursor : Option Bytes} {key : Bytes} {flags : Flags}
    (hfuel : table.count (wanted cursor key flags) < fuel) :
    ∃ table', pruneLoop pre pruneExpiries fuel table cursor key flags = some table' ∧
      ∀ row, row ∈ table'.rows ↔ row ∈ table.rows ∧
        ¬ (Reached table (wanted cursor key flags) pre row.1 ∧ ¬ Protected pruneExpiries row.1) := by
  induction fuel generalizing table cursor key flags with
  | zero => exact absurd hfuel (Nat.not_lt_zero _)
  | succ fuel ih =>
    cases hget : get table cursor key flags with
    | none =>
      refine ⟨table, by simp [pruneLoop, hget], fun row => ?_⟩
      refine (and_iff_left_of_imp fun hrow hand => ?_).symm
      exact Rows.not_of_first_none hget (List.mem_map_of_mem hrow) hand.1.1
    | some found =>
      have hlt := Nat.lt_of_lt_of_le (count_next_lt hget) (Nat.le_of_lt_succ hfuel)
      by_cases hpass : Passes pre found.1
      · have hlen : ¬ found.1.length < pre.length := Nat.not_lt.mpr hpass.1
        have hcmp : ¬ strncmp pre.length pre found.1 ≠ 0 := not_not.mpr hpass.2
        by_cases hprotected : Protected pruneExpiries found.1
        · -- the row stays
          obtain ⟨table', hloop, hrows⟩ := ih hlt
          refine ⟨table', ?_, fun row => ?_⟩
          · simp only [pruneLoop, hget, if_neg hlen, if_neg hcmp]
            cases protected_iff.mp hprotected with
            | inl hat => rw [if_pos hat, hloop]
            | inr hbang => rw [if_pos hbang, ite_self, hloop]
          · rw [hrows]
            refine and_congr_right fun hrow => not_congr ?_
            by_cases hself : row.1 = found.1
            · exact iff_of_false (fun hand => hand.2 (hself ▸ hprotected))
                fun hand => hand.2 (hself ▸ hprotected)
            · rw [reached_next hget hpass (fun a _ => Iff.rfl) (List.mem_map_of_mem hrow) hself]
        · have hrest : (table.erase found.1).count (wanted (some found.1) found.1 .DB_NEXT) < fuel :=
            Nat.lt_of_le_of_lt Rows.count_erase_le hlt
          obtain ⟨table', hloop, hrows⟩ := ih hrest
          refine ⟨table', ?_, fun row => ?_⟩
          · rw [protected_iff, not_or] at hprotected
            simp only [pruneLoop, hget, if_neg hlen, if_neg hcmp, if_neg hprotected.1,
              if_neg hprotected.2, hloop]
          · rw [hrows, Rows.mem_erase, and_assoc]
            refine and_congr_right fun hrow => ?_
            by_cases hself : row.1 = found.1
            · have hfirst := reached_first hget hpass
              rw [← hself] at hfirst hprotected
              exact iff_of_false (fun hand => hand.1 hself) fun hnot => hnot ⟨hfirst, hprotected⟩
            · have hkeys : ∀ a, a ≠ found.1 → (a ∈ (table.erase found.1).keys ↔ a ∈ table.keys) := by
                intro a ha
                rw [Rows.mem_keys_erase]
                exact and_iff_left ha
              rw [reached_next hget hpass hkeys (List.mem_map_of_mem hrow) hself]
              exact and_iff_right hself
      · refine ⟨table, ?_, fun row => ?_⟩
        · simp only [pruneLoop, hget]
          split
          · rfl
          · rename_i hlen
            rw [if_pos fun heq => hpass ⟨Nat.not_lt.mp hlen, heq⟩]
        · refine (and_iff_left_of_imp fun hrow hand => ?_).symm
          exact not_reached hget hpass (List.mem_map_of_mem hrow) hand.1

/-! # The table behind it -/

/-- The scan from the prefix on reaches the keys that have it, and the stragglers. -/
theorem reached_iff (hk : k ∈ table.keys) (hfree : ¬ Protected pruneExpiries k) :
    Reached table (fun k => decide (pre ≤ k)) pre k ↔
      pre <+: k ∨ Straggler table pre pruneExpiries k := by
  have hpass : ∀ a, Passes pre a ↔ pre.length ≤ a.length ∧ cString pre <+: a :=
    fun a => and_congr_right strncmp_eq_zero_iff
  constructor
  · intro hreached
    have hle : pre ≤ k := of_decide_eq_true hreached.1
    by_cases hpre : pre <+: k
    · exact .inl hpre
    · refine .inr ⟨hk, ?_, hpre, ?_, hfree, ?_⟩
      · exact Std.lt_of_le_of_ne hle fun heq => hpre (heq ▸ List.prefix_refl pre)
      · exact ((hpass k).mp (hreached.2 k hk hreached.1 (Std.le_refl k))).2
      · intro a ha hpa hak
        exact (hreached.2 a ha (decide_eq_true hpa) hak).1
  · intro hor
    cases hor with
    | inl hpre =>
      refine ⟨decide_eq_true hpre.le, fun a _ hpa hak => ?_⟩
      have hbetween : pre <+: a :=
        prefix_of_between (List.prefix_refl pre) hpre (of_decide_eq_true hpa) hak
      exact (hpass a).mpr ⟨hbetween.length_le, (prefix_cString pre).trans hbetween⟩
    | inr h =>
      refine ⟨decide_eq_true (Std.le_of_lt h.behind), fun a ha hpa hak => ?_⟩
      have hpa : pre ≤ a := of_decide_eq_true hpa
      have hbetween : cString pre <+: a :=
        prefix_of_between (prefix_cString pre) h.agrees hpa hak
      exact (hpass a).mpr ⟨h.reached a ha hpa hak, hbetween⟩

theorem wanted_start : wanted none pre (if 0 < pre.length then .DB_SET_RANGE else .DB_NEXT) =
    fun k => decide (pre ≤ k) := by
  split
  · rfl
  · rename_i hempty
    have hnil : pre = [] := by simpa using hempty
    subst hnil
    funext k
    simp [wanted]

/-- For every table, prefix and both flags the scan ends, and the table behind it is without
exactly the unprotected keys with the prefix if and only if the table has no straggler. -/
theorem prune_iff (table : Rows Bytes Bytes) (pre : Bytes) (pruneExpiries : Bool) (fuel : Nat)
    (hfuel : table.rows.length < fuel) :
    ∃ table', prune table pre pruneExpiries fuel = some table' ∧
      (Pruned table table' pre pruneExpiries ↔ ∀ k, ¬ Straggler table pre pruneExpiries k) := by
  have hcount : table.count (wanted none pre (if 0 < pre.length then .DB_SET_RANGE else .DB_NEXT)) <
      fuel := Nat.lt_of_le_of_lt (Rows.count_le table _) hfuel
  obtain ⟨table', hloop, hrows⟩ : ∃ table', prune table pre pruneExpiries fuel = some table' ∧ _ :=
    pruneLoop_spec hcount
  rw [wanted_start] at hrows
  refine ⟨table', hloop, ?_, ?_⟩
  · intro hpruned k hk
    obtain ⟨row, hrow, rfl⟩ := List.mem_map.mp hk.mem
    have hgone : row ∉ table'.rows := by
      rw [hrows]
      exact fun hand => hand.2 ⟨(reached_iff hk.mem hk.free).mpr (.inr hk), hk.free⟩
    exact hgone ((hpruned row).mpr ⟨hrow, fun hand => hk.other hand.1⟩)
  · intro hnone row
    rw [hrows]
    refine and_congr_right fun hrow => not_congr (and_congr_left fun hfree => ?_)
    rw [reached_iff (List.mem_map_of_mem hrow) hfree, or_iff_left (hnone row.1)]

/-- A prefix with a zero byte in it, and a key that has it only up to there. -/
def zeroTable : Rows Bytes Bytes where
  rows := [([97, 0, 98], [1]), ([97, 0, 99], [2])]
  sorted := by decide

theorem prune_zeroTable : ∃ table', prune zeroTable [97, 0, 99] true 3 = some table' ∧
    Pruned zeroTable table' [97, 0, 99] true ∧ ∀ k, ¬ Straggler zeroTable [97, 0, 99] true k := by
  obtain ⟨table', hprune, hiff⟩ := prune_iff zeroTable [97, 0, 99] true 3 (by decide)
  have hnone : ∀ k, ¬ Straggler zeroTable [97, 0, 99] true k := by
    intro k hk
    have hkeys : ∀ k ∈ zeroTable.keys, [97, 0, 99] < k → [97, 0, 99] <+: k := by decide
    exact hk.other (hkeys k hk.mem hk.behind)
  exact ⟨table', hprune, hiff.mpr hnone, hnone⟩

/-- The key goes with the others. -/
theorem prune_straggler : ∃ table', prune zeroTable [97, 0, 98] true 3 = some table' ∧
    ¬ Pruned zeroTable table' [97, 0, 98] true := by
  refine ⟨⟨[], .nil⟩, rfl, fun hpruned => ?_⟩
  have hstays := (hpruned ([97, 0, 99], [2])).mpr ⟨by decide, fun hand => by
    exact absurd hand.1 (by decide)⟩
  cases hstays

end CTable

end BDB
