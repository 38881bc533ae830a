-- SUMMARY: The counter of restarts: how a node counts its incarnations, and the proposal ids of each of them.
import NetworkEtc.Netfram.Common
import NetworkEtc.PL.Proposer

/-!
# `InitRestartCounter` and incarnations

The table keeps the number of restarts as a decimal text. Every incarnation reads
it, adds one and stores it again. The sum is kept in a local variable that has the
name of the member, so the member, which `NextHighest` packs into the ids, stays as
the program was loaded: zero.
-/

namespace PL

open Library Library.Decimal Library.Printf Netfram

namespace ReplicatedConfig

/-- The memory a `CMemblock buf(1024)` is given. -/
abbrev Buffer := {memory : List UInt8 // memory.length = 1024}

/-- The value of `@@restartCounter` in the table `keyspace`. -/
abbrev Table := Option (List UInt8)

/-- What the local variable holds before it is incremented. -/
def parseCounter (table : Table) : UInt64 :=
  match table with
  | some text =>
    let (counter, nread) := strntouint64 text (Int32.ofNat text.length)
    if UInt32.ofNat nread ≠ UInt32.ofNat text.length then 0 else counter
  | none => 0

/-- The configuration and the table afterwards. Without a table (`none`) nothing is
done. -/
def initRestartCounter (rconf : ReplicatedConfig) (table : Option Table) (memory : Buffer) :
    ReplicatedConfig × Option Table :=
  match table with
  | none => (rconf, none)
  | some table =>
    let restartCounter := parseCounter table
    let restartCounter := restartCounter + 1
    let buf := CMemblock.init memory
    let r := snprintf buf.mpcBase 0 buf.getCapacity "%llu".toList [.unsignedLongLong restartCounter]
    (rconf, some (some ({ buf with mpcBase := r.1 }.setWrite r.2).unread))

end ReplicatedConfig

open ReplicatedConfig

/-- One incarnation of a node: what its memory holds at the start, and how often it
calls `StartPreparing`. -/
structure Incarnation where
  memory : Buffer
  mem : PLeaseProposer
  calls : Nat

/-- The ids a proposer takes in so many calls of `StartPreparing`. -/
def preparedIDs (rconf : ReplicatedConfig) (p : PLeaseProposer) : Nat → List UInt64
  | 0 => []
  | calls + 1 =>
    let p := (p.startPreparing rconf).1
    p.state.proposalID :: preparedIDs rconf p calls

/-- The ids of each of a sequence of incarnations, and the table after them. -/
def incarnate (nodeID numNodes : UInt32) : Option Table → List Incarnation →
    List (List UInt64) × Option Table
  | table, [] => ([], table)
  | table, life :: lives =>
    let r := (loaded nodeID numNodes).initRestartCounter table life.memory
    let ids := preparedIDs r.1 life.mem.init life.calls
    let rest := incarnate nodeID numNodes r.2 lives
    (ids :: rest.1, rest.2)

-- ---------------------------------------------------------------------------
-- The table counts
-- ---------------------------------------------------------------------------

theorem parseCounter_numeral {n : Nat} (h : n < 2 ^ 64) :
    parseCounter (some (numeral n)) = UInt64.ofNat n := by
  have hlen : (numeral n).length ≤ 20 := length_numeral_le (by omega) (by decide)
  have hpos : 0 < (numeral n).length := List.length_pos_iff.mpr (numeral_isNumeral n).1
  have hint : (Int32.ofNat (numeral n).length).toInt = (numeral n).length :=
    Int32.toInt_ofNat_of_lt (by omega)
  have hone : ¬ Int32.ofNat (numeral n).length < 1 := by
    have h1 : (1 : Int32).toInt = 1 := rfl
    rw [Int32.lt_iff_toInt_lt, hint, h1]
    omega
  have hdigits : leadingDigits (numeral n) (numeral n).length = numeral n := by
    have happ : leadingDigits (numeral n ++ []) (numeral n).length = numeral n :=
      leadingDigits_append (numeral_isNumeral n).2 (Nat.le_refl _) (by simp)
    rwa [List.append_nil] at happ
  rw [parseCounter, strntouint64_eq hone, hint, Int.toNat_natCast, hdigits, value_numeral]
  simp

/-- The text stored is the numeral of the local variable. -/
theorem initRestartCounter_table (rconf : ReplicatedConfig) (table : Table) (memory : Buffer) :
    (rconf.initRestartCounter (some table) memory).2 =
      some (some (numeral (parseCounter table + 1).toNat)) := by
  obtain ⟨memory, hmemory⟩ := memory
  generalize hcounter : parseCounter table + 1 = counter
  have htext : text "%llu".toList [.unsignedLongLong counter] = numeral counter.toNat := by
    have hchars : "%llu".toList = ['%', 'l', 'l', 'u'] := by decide
    rw [hchars, text, text, List.append_nil]
  have hlen : (numeral counter.toNat).length ≤ 20 :=
    length_numeral_le (by have := counter.toNat_lt; omega) (by decide)
  have hroom : ¬ 1024 < (numeral counter.toNat).length := by omega
  have htake := take_drop_snprintf memory 0 1024 "%llu".toList [.unsignedLongLong counter]
    (by rw [htext]; omega) (Nat.zero_le _)
  rw [htext] at htake
  have hret : (snprintf memory 0 1024 "%llu".toList [.unsignedLongLong counter]).2 =
      (numeral counter.toNat).length := by
    rw [snprintf, htext]
  simp only [initRestartCounter, hcounter, CMemblock.init, CMemblock.getCapacity, hmemory,
    CMemblock.setWrite, Nat.sub_zero, hret, if_neg hroom, CMemblock.unread, CMemblock.getRead,
    Nat.zero_add, htake]

/-- The table counts the incarnations. -/
theorem incarnate_table (nodeID numNodes : UInt32) (lives : List Incarnation) {n : Nat}
    (h : n + lives.length < 2 ^ 64) :
    (incarnate nodeID numNodes (some (some (numeral n))) lives).2 =
      some (some (numeral (n + lives.length))) := by
  induction lives generalizing n with
  | nil => rfl
  | cons life lives ih =>
    rw [List.length_cons] at h ⊢
    have hnext : (UInt64.ofNat n + 1).toNat = n + 1 := by
      have hn : UInt64.ofNat n + 1 = UInt64.ofNat (n + 1) := by simp
      rw [hn, UInt64.toNat_ofNat_of_lt' (by simp only [UInt64.size]; omega)]
    simp only [incarnate]
    rw [initRestartCounter_table, parseCounter_numeral (by omega), hnext, ih (by omega)]
    congr 3
    omega

-- ---------------------------------------------------------------------------
-- The ids do not
-- ---------------------------------------------------------------------------

/-- No proposal id occurs in two incarnations. -/
def UniqueAcross (ids : List (List UInt64)) : Prop :=
  ids.Pairwise fun earlier later => ∀ id ∈ earlier, id ∉ later

/-- At most one incarnation takes a proposal id at all. -/
def OneProposing (lives : List Incarnation) : Prop :=
  lives.Pairwise fun earlier later => earlier.calls = 0 ∨ later.calls = 0

@[simp] theorem initRestartCounter_rconf (rconf : ReplicatedConfig) (table : Option Table)
    (memory : Buffer) : (rconf.initRestartCounter table memory).1 = rconf := by
  cases table <;> rfl

/-- Whatever the table holds, an incarnation takes its ids from a counter of zero. -/
theorem incarnate_ids (nodeID numNodes : UInt32) (table : Option Table)
    (lives : List Incarnation) :
    (incarnate nodeID numNodes table lives).1 =
      lives.map fun life => preparedIDs (loaded nodeID numNodes) life.mem.init life.calls := by
  induction lives generalizing table with
  | nil => rfl
  | cons life lives ih =>
    simp only [incarnate, List.map_cons, initRestartCounter_rconf]
    rw [ih]

/-- The first id is always the same. -/
theorem mem_preparedIDs (rconf : ReplicatedConfig) (mem : PLeaseProposer) {calls : Nat}
    (h : calls ≠ 0) : rconf.nextHighest 0 ∈ preparedIDs rconf mem.init calls := by
  cases calls with
  | zero => exact absurd rfl h
  | succ calls => exact List.mem_cons_self

/-- Ids are unique across the incarnations of a node exactly if at most one of them
ever prepares: the count of restarts is in the table and not in the ids. -/
theorem uniqueAcross_iff (nodeID numNodes : UInt32) (table : Option Table)
    (lives : List Incarnation) :
    UniqueAcross (incarnate nodeID numNodes table lives).1 ↔ OneProposing lives := by
  rw [incarnate_ids, UniqueAcross, OneProposing, List.pairwise_map]
  refine List.Pairwise.iff fun earlier later => ⟨fun h => ?_, fun h => ?_⟩
  · by_contra hcalls
    rw [not_or] at hcalls
    exact h _ (mem_preparedIDs _ earlier.mem hcalls.1) (mem_preparedIDs _ later.mem hcalls.2)
  · rcases h with h | h <;> simp [h, preparedIDs]

/-- An incarnation that prepares once. -/
def preparesOnce : Incarnation where
  memory := ⟨List.replicate 1024 0, List.length_replicate⟩
  mem := .zeroed
  calls := 1

/-- Node 1 restarts once; its first proposal has the same id before and after,
though the table went from absent to 1 and to 2. -/
theorem not_uniqueAcross :
    ¬ UniqueAcross (incarnate 1 3 (some none) [preparesOnce, preparesOnce]).1 := by
  rw [incarnate_ids]
  intro h
  have hids := (List.pairwise_cons.mp h).1 _ List.mem_cons_self 16777217 (by decide)
  exact hids (by decide)

end PL
