-- SUMMARY: The law of a counter holds as long as every call starts from zero.
import NetworkEtc.Mdb.ItemCounts
import NetworkEtc.Mdb.LazyClear

/-!
# The law of a counter

`add_count` answers what it has found plus `count`, but puts the bytes of `count` alone:
the line that would put the sum is commented out. So the next call starts from `count`.
-/

namespace Mdb

open Library

namespace Store

/-! # The bytes of a counter -/

theorem bytes_or (c : BitVec 32) :
    (c.setWidth 8).setWidth 32 ||| ((c >>> 8).setWidth 8).setWidth 32 <<< 8 |||
      ((c >>> 16).setWidth 8).setWidth 32 <<< 16 |||
      ((c >>> 24).setWidth 8).setWidth 32 <<< 24 = c := by
  apply BitVec.eq_of_getLsbD_eq
  intro i hi
  simp only [BitVec.getLsbD_or, BitVec.getLsbD_setWidth, BitVec.getLsbD_shiftLeft,
    BitVec.getLsbD_ushiftRight]
  -- which of the bytes has the bit
  rcases Nat.lt_or_ge i 8 with h₁ | h₁
  · simp [h₁, hi, show i < 16 by omega, show i < 24 by omega]
  rcases Nat.lt_or_ge i 16 with h₂ | h₂
  · simp [hi, Nat.not_lt.mpr h₁, h₂, show i < 24 by omega, show i - 8 < 8 by omega,
      show i - 8 < 32 by omega, Nat.add_sub_cancel' h₁]
  rcases Nat.lt_or_ge i 24 with h₃ | h₃
  · simp [hi, Nat.not_lt.mpr h₁, Nat.not_lt.mpr h₂, h₃, show ¬ i - 8 < 8 by omega,
      show i - 16 < 8 by omega, show i - 16 < 32 by omega, Nat.add_sub_cancel' h₂]
  · simp [hi, Nat.not_lt.mpr h₁, Nat.not_lt.mpr h₂, Nat.not_lt.mpr h₃,
      show ¬ i - 8 < 8 by omega, show ¬ i - 16 < 8 by omega, show i - 24 < 8 by omega,
      show i - 24 < 32 by omega, Nat.add_sub_cancel' h₃]

theorem word_bytes (c : UInt32) :
    word c.toUInt8 (c >>> 8).toUInt8 (c >>> 16).toUInt8 (c >>> 24).toUInt8 = c := by
  apply UInt32.toBitVec_inj.mp
  exact bytes_or c.toBitVec

/-- A counter is read as it has been written. -/
theorem counterOf_counterBytes (count : Int32) : counterOf (counterBytes count) = count := by
  unfold counterOf counterBytes
  simp [ITEM_HEAD_LENGTH]
  rw [word_bytes]
  simp

/-! # The law -/

/-- What a call answers as the counter of the key, if it succeeds. -/
def returned (s : Store) (k : List UInt8) : StoreOp → Option Int32
  | .addCount key count initValue notNegative expired resultValue getTime crrntTime evictTime =>
    if key.data = k then
      (s.doAddCount key count initValue notNegative expired resultValue getTime crrntTime
        evictTime).bind fun r => if r.1.1 = TAIR_RETURN_SUCCESS then some r.1.2.1 else none
    else none
  | _ => none

/-- The last answer of a run for the counter of the key. -/
def lastResult (s : Store) (k : List UInt8) (ops : List StoreOp) : Option Int32 :=
  gather step (fun s op last => (s.returned k op).or last) none s ops

/-- A call adds its count to the sum; the first one adds it to its initial value. -/
def sumAfter (sum : Option Int) : StoreOp → Option Int
  | .addCount _ count initValue _ _ _ _ _ _ => some (sum.getD initValue.toInt + count.toInt)
  | _ => sum

/-- The initial value of the first call on the key that succeeds, and the counts of all
that do. -/
def counterSum (s : Store) (k : List UInt8) (ops : List StoreOp) : Option Int :=
  gather step (fun s op sum => if (s.returned k op).isSome then sumAfter sum op else sum) none s ops

/-- The counter in the item under the key. -/
def storedCount (s : Store) (k : List UInt8) : Option Int32 :=
  (s.entry k).map fun it => counterOf it.value

/-- After every part of a run the last answer is the sum, and it is the counter in the
store. A call that does not succeed leaves the value in the store alone. -/
def CounterLaw (s : Store) (k : List UInt8) (ops : List StoreOp) : Prop :=
  (∀ ops₁ ops₂ s₁, ops = ops₁ ++ ops₂ → s.run ops₁ = some s₁ →
    (s.lastResult k ops₁).map Int32.toInt = s.counterSum k ops₁ ∧
      s₁.storedCount k = s.lastResult k ops₁) ∧
  ∀ ops₁ op ops₂ s₁ s₂, ops = ops₁ ++ op :: ops₂ → s.run ops₁ = some s₁ → s₁.step op = some s₂ →
    s₁.returned k op = none → (s₂.entry k).map MdbItem.value = (s₁.entry k).map MdbItem.value

/-- The call does not put or remove the key, and is no count of an item that has expired. -/
def Spares (s : Store) (k : List UInt8) : StoreOp → Prop
  | .put key _ _ _ _ _ => key.data ≠ k
  | .remove key => key.data ≠ k
  | .addCount key _ _ _ _ _ getTime _ _ =>
    key.data = k → ∀ it, s.entry k = some it → s.isItemExpired it getTime = false
  | _ => True

/-- All that happens to the item under the key in a run are counts: no other write to it,
and it neither expires nor is evicted. -/
def Undisturbed (s : Store) (k : List UInt8) (ops : List StoreOp) : Prop :=
  ∀ ops₁ op ops₂ s₁ s₂, ops = ops₁ ++ op :: ops₂ → s.run ops₁ = some s₁ → s₁.step op = some s₂ →
    s₁.Spares k op ∧ (s₁.entry k ≠ none → s₂.entry k ≠ none)

/-- What a call counts from: the counter it finds, or the initial value. -/
def startValue (found : Option MdbItem) (initValue : Int32) : Int32 :=
  match found with
  | none => initValue
  | some it => counterOf it.value

/-- The checks of `add_count` let the call go on. -/
def Passes (found : Option MdbItem) (count initValue : Int32) (notNegative : Bool) : Prop :=
  match found with
  | none => startCount count initValue notNegative = none
  | some it => notNegative = true →
    ¬ (counterOf it.value ≤ 0 ∧ count < 0) ∧ ¬ counterOf it.value + count < 0

/-- A count of the key starts from zero, or does not pass the checks. -/
def FromZero (s : Store) (k : List UInt8) : StoreOp → Prop
  | .addCount key count initValue notNegative _ _ _ _ _ =>
    key.data = k → Passes (s.entry k) count initValue notNegative →
      startValue (s.entry k) initValue = 0
  | _ => True

/-- What is under the key is a counter that is not hidden. -/
def Plain (s : Store) (k : List UInt8) : Prop :=
  ∀ it, s.entry k = some it → it.itemId.itemFlags = TAIR_ITEM_FLAG_ADDCOUNT

variable {s s' : Store} {g : Ledger} {k : List UInt8} {op : StoreOp} {ops : List StoreOp}
  {it : MdbItem} {key key' oldValue : DataEntry} {count initValue resultValue result : Int32}
  {notNegative : Bool} {expired code : Int} {getTime crrntTime evictTime : UInt32}

/-! # What a count does -/

theorem nextCount_absent (hcode : code ≠ TAIR_RETURN_SUCCESS) :
    (startCount count initValue notNegative = none ∧
      nextCount code key oldValue count initValue notNegative resultValue =
        (none, initValue + count, oldValue)) ∨
    (startCount count initValue notNegative ≠ none ∧
      (nextCount code key oldValue count initValue notNegative resultValue).1 ≠ none) := by
  unfold nextCount
  rw [if_neg hcode]
  cases hstart : startCount count initValue notNegative with
  | none => exact Or.inl ⟨rfl, rfl⟩
  | some code => exact Or.inr ⟨by simp, by simp⟩

theorem nextCount_found (hflag : it.itemId.itemFlags = TAIR_ITEM_FLAG_ADDCOUNT) :
    (Passes (some it) count initValue notNegative ∧
      nextCount TAIR_RETURN_SUCCESS (gotKey key it) (gotValue .init it) count initValue notNegative
        resultValue = (none, counterOf it.value + count, gotValue .init it)) ∨
    (¬ Passes (some it) count initValue notNegative ∧
      (nextCount TAIR_RETURN_SUCCESS (gotKey key it) (gotValue .init it) count initValue notNegative
        resultValue).1 ≠ none) := by
  have hkey : (gotKey key it).dataMeta.flag = TAIR_ITEM_FLAG_ADDCOUNT := hflag
  have hvalue : (gotValue .init it).data = it.value := rfl
  have hcounter : testFlag TAIR_ITEM_FLAG_ADDCOUNT TAIR_ITEM_FLAG_ADDCOUNT = true := by decide
  have hshown : testFlag TAIR_ITEM_FLAG_ADDCOUNT TAIR_ITEM_FLAG_DELETED = false := by decide
  simp only [nextCount, hkey, hvalue, hcounter, hshown, if_true, Bool.false_eq_true, if_false, Passes]
  cases notNegative with
  | false => simp
  | true =>
    simp only [true_and, forall_const]
    split
    · next hzero => exact Or.inr ⟨fun hpasses => hpasses.1 hzero, by simp⟩
    · next hzero =>
      split
      · next hbounds => exact Or.inr ⟨fun hpasses => hpasses.2 hbounds, by simp⟩
      · next hbounds => exact Or.inl ⟨⟨hzero, hbounds⟩, rfl⟩

/-- A count that is put is under its key. -/
theorem Settled.put_count {s₁ : Store} (h : s.Settled g) (hkey : key.IsKey)
    (hflag : (countEntry oldValue count).dataMeta.flag = TAIR_ITEM_FLAG_ADDCOUNT)
    (haccepts : ∀ it, s.entry key.data = some it →
      ¬ Refuses key (countEntry oldValue count) true crrntTime s it)
    (hput : s.doPut key (countEntry oldValue count) true expired crrntTime evictTime =
      some ((code, key'), s₁)) :
    code = TAIR_RETURN_SUCCESS ∧ ∃ it, s₁.entry key.data = some it ∧
      it.value = counterBytes count ∧ it.itemId.itemFlags = TAIR_ITEM_FLAG_ADDCOUNT := by
  have hvalue := isValue_countEntry oldValue count
  rcases h.put_stored hkey hvalue hput with ⟨-, -, it, hentry, hrefuses⟩ |
    ⟨hcode, slot, version, hstored⟩
  · exact absurd hrefuses (haccepts it hentry)
  · refine ⟨hcode, _, hstored.entry_self, ?_, ?_⟩
    · rw [MdbItem.value_body]
      exact value_fillItem hkey.2 hvalue
    · change (slot.itemId.flags ||| (countEntry oldValue count).dataMeta.flag.setWidth 4).setWidth 8
        = TAIR_ITEM_FLAG_ADDCOUNT
      rw [hstored.flags_eq, hflag]
      decide

/-- A count that passes the checks answers its start plus its count, and leaves the count;
any other leaves all as it is. -/
theorem Settled.addCount_counter (h : s.Settled g) (hkey : key.IsKey) (hplain : s.Plain key.data)
    (hfresh : ∀ it, s.entry key.data = some it → s.isItemExpired it getTime = false)
    (hadd : s.doAddCount key count initValue notNegative expired resultValue getTime crrntTime
      evictTime = some ((code, result, key'), s')) :
    (Passes (s.entry key.data) count initValue notNegative ∧ code = TAIR_RETURN_SUCCESS ∧
      result = startValue (s.entry key.data) initValue + count ∧
      ∃ it, s'.entry key.data = some it ∧ it.value = counterBytes count ∧
        it.itemId.itemFlags = TAIR_ITEM_FLAG_ADDCOUNT) ∨
    (¬ Passes (s.entry key.data) count initValue notNegative ∧ code ≠ TAIR_RETURN_SUCCESS ∧
      s'.entry key.data = s.entry key.data) := by
  obtain ⟨rc, key₁, oldValue, s₁, hget, hrest⟩ := doAddCount_cases hadd
  rcases h.doGet .init getTime hkey.ne_nil with ⟨hget', hnone⟩ |
    ⟨x, hx, hxkey, ⟨hexpired, -⟩ | ⟨-, ⟨-, s₂, hget', ht⟩ | ⟨-, hfail⟩⟩⟩
  · -- a new counter
    rw [hget', Option.some.injEq, Prod.mk.injEq, Prod.mk.injEq, Prod.mk.injEq] at hget
    obtain ⟨⟨rfl, rfl, rfl⟩, rfl⟩ := hget
    have hentry := h.entry_none hkey.ne_nil hnone
    rw [hentry]
    have hcode : TAIR_RETURN_DATA_NOT_EXIST ≠ TAIR_RETURN_SUCCESS := by decide
    rcases nextCount_absent hcode with ⟨hpasses, hnext⟩ | ⟨hfails, hstop⟩
    · rw [hnext] at hrest
      rcases hrest with ⟨code', hstop, -⟩ | ⟨-, rc', key₂, hput, heq⟩
      · exact absurd hstop (by simp)
      have hcount : (countEntry .init count).dataMeta.flag = TAIR_ITEM_FLAG_ADDCOUNT := by
        change DataEntry.init.dataMeta.flag ||| TAIR_ITEM_FLAG_ADDCOUNT = _
        decide
      obtain ⟨hcode, hstored⟩ :=
        h.put_count hkey hcount (fun it hit => by simp [hentry] at hit) hput
      rw [Prod.mk.injEq, Prod.mk.injEq] at heq
      exact Or.inl ⟨hpasses, heq.1.trans hcode, heq.2.1, hstored⟩
    · rcases hrest with ⟨code', hcode, heq, rfl⟩ | ⟨hgo, -⟩
      · refine Or.inr ⟨hfails, ?_, hentry⟩
        rw [(Prod.mk.inj heq).1]
        exact nextCount_ne hcode
      · exact absurd hgo hstop
  · have hlive := hfresh _ (h.entry_of hx hxkey)
    rw [isItemExpired_body, hexpired] at hlive
    exact absurd hlive (by decide)
  · -- the counter that is found
    rw [hget', Option.some.injEq, Prod.mk.injEq, Prod.mk.injEq, Prod.mk.injEq] at hget
    obtain ⟨⟨rfl, rfl, rfl⟩, rfl⟩ := hget
    have hentry := h.entry_of hx hxkey
    have hentry₂ : s₂.entry key.data = some (s.mem.item x.addr).body := by
      rw [ht.entry h hkey.ne_nil, hentry]
    have hflag : (s.mem.item x.addr).itemId.itemFlags = TAIR_ITEM_FLAG_ADDCOUNT :=
      hplain (s.mem.item x.addr).body hentry
    rw [hentry]
    rcases nextCount_found hflag with ⟨hpasses, hnext⟩ | ⟨hfails, hstop⟩
    · rw [hnext] at hrest
      rcases hrest with ⟨code', hstop, -⟩ | ⟨-, rc', key₂, hput, heq⟩
      · exact absurd hstop (by simp)
      have haccepts : ∀ it, s₂.entry (gotKey key (s.mem.item x.addr)).data = some it →
          ¬ Refuses (gotKey key (s.mem.item x.addr))
            (countEntry (gotValue .init (s.mem.item x.addr)) count) true crrntTime s₂ it := by
        intro it hit
        have hit : s₂.entry key.data = some it := hit
        rw [hentry₂, Option.some.injEq] at hit
        rw [← hit]
        intro hrefuses
        have hlocked : testFlag (s.mem.item x.addr).itemId.itemFlags TAIR_ITEM_FLAG_LOCKED = true :=
          (refuses_counter rfl).mp ((refuses_congr rfl).mp hrefuses)
        rw [hflag] at hlocked
        exact absurd hlocked (by decide)
      have hkey' : (gotKey key (s.mem.item x.addr)).IsKey := hkey
      have hcount : (countEntry (gotValue .init (s.mem.item x.addr)) count).dataMeta.flag =
          TAIR_ITEM_FLAG_ADDCOUNT := by
        change (s.mem.item x.addr).itemId.itemFlags ||| TAIR_ITEM_FLAG_ADDCOUNT = _
        rw [hflag]
        decide
      obtain ⟨hcode, hstored⟩ := ht.settled.put_count hkey' hcount haccepts hput
      rw [Prod.mk.injEq, Prod.mk.injEq] at heq
      exact Or.inl ⟨hpasses, heq.1.trans hcode, heq.2.1, hstored⟩
    · rcases hrest with ⟨code', hcode, heq, rfl⟩ | ⟨hgo, -⟩
      · refine Or.inr ⟨hfails, ?_, hentry₂⟩
        rw [(Prod.mk.inj heq).1]
        exact nextCount_ne hcode
      · exact absurd hgo hstop
  · rw [hfail] at hget
    exact absurd hget (by simp)

/-- What a call does to a counter that is undisturbed. -/
theorem Settled.step_counter (h : s.Settled g) (hop : op.Admissible) (hplain : s.Plain k)
    (hspares : s.Spares k op) (hstays : s.entry k ≠ none → s'.entry k ≠ none)
    (hstep : s.step op = some s') :
    (s.returned k op = none ∧ s'.entry k = s.entry k ∧ s.FromZero k op) ∨
    ∃ count initValue it, s.returned k op = some (startValue (s.entry k) initValue + count) ∧
      (∀ sum, sumAfter sum op = some (sum.getD initValue.toInt + count.toInt)) ∧
      s'.entry k = some it ∧ it.value = counterBytes count ∧
      it.itemId.itemFlags = TAIR_ITEM_FLAG_ADDCOUNT ∧
      (s.FromZero k op ↔ startValue (s.entry k) initValue = 0) := by
  have hother : s.putTime k op = none → s'.entry k = s.entry k := by
    intro hnone
    rcases eq_or_ne k [] with rfl | hk
    · simp [entry, find]
    cases hentry : s'.entry k with
    | none =>
      by_contra hne
      exact hstays (Ne.symm hne) hentry
    | some it =>
      rcases h.step_entry hop hstep hk hentry with hput | ⟨-, hbefore⟩
      · rw [hnone] at hput
        exact absurd hput (by simp)
      · exact hbefore.symm
  cases op with
  | put key value versionCare expired crrntTime evictTime =>
    have hne : key.data ≠ k := hspares
    exact Or.inl ⟨rfl, hother (by simp [putTime, hne]), trivial⟩
  | addCount key count initValue notNegative expired resultValue getTime crrntTime evictTime =>
    rcases eq_or_ne key.data k with rfl | hne
    swap
    · refine Or.inl ⟨?_, hother (by simp [putTime, hne]), fun heq => absurd heq hne⟩
      rw [returned, if_neg hne]
    obtain ⟨⟨⟨code, result, key'⟩, s₁⟩, hadd, rfl⟩ := Option.map_eq_some_iff.mp hstep
    rw [returned, if_pos rfl, hadd, Option.bind_some]
    rcases h.addCount_counter hop hplain (hspares rfl) hadd with
      ⟨hpasses, rfl, rfl, it, hentry, hvalue, hflags⟩ | ⟨hfails, hcode, hentry⟩
    · right
      refine ⟨count, initValue, it, rfl, fun _ => rfl, hentry, hvalue, hflags, ?_⟩
      exact ⟨fun hzero => hzero rfl hpasses, fun hzero _ _ => hzero⟩
    · refine Or.inl ⟨if_neg hcode, hentry, fun _ hpasses => absurd hpasses hfails⟩
  | remove => exact Or.inl ⟨rfl, hother rfl, trivial⟩
  | get => exact Or.inl ⟨rfl, hother rfl, trivial⟩
  | lookup => exact Or.inl ⟨rfl, hother rfl, trivial⟩
  | clear => exact Or.inl ⟨rfl, hother rfl, trivial⟩
  | setAreaQuota => exact Or.inl ⟨rfl, hother rfl, trivial⟩
  | checkQuota => exact Or.inl ⟨rfl, hother rfl, trivial⟩

/-! # The law along a run -/

/-- The law for one state: the last answer, the sum and the counter in the store agree. -/
def Agrees (last : Option Int32) (sum : Option Int) (s : Store) (k : List UInt8) : Prop :=
  last.map Int32.toInt = sum ∧ s.storedCount k = last

/-- Where they agree, the sum so far, or the initial value, is what a count starts from. -/
theorem Agrees.getD_sum {last : Option Int32} {sum : Option Int} (h : Agrees last sum s k) :
    sum.getD initValue.toInt = (startValue (s.entry k) initValue).toInt := by
  obtain ⟨rfl, rfl⟩ := h
  unfold storedCount startValue
  cases s.entry k with
  | none => rfl
  | some it => rfl

/-- A call keeps the law if and only if it starts from zero, or counts nothing. -/
theorem Settled.agrees_step {last : Option Int32} {sum : Option Int} (h : s.Settled g)
    (hop : op.Admissible) (hplain : s.Plain k) (hspares : s.Spares k op)
    (hstays : s.entry k ≠ none → s'.entry k ≠ none) (hstep : s.step op = some s')
    (hagrees : Agrees last sum s k) :
    Agrees ((s.returned k op).or last)
      (if (s.returned k op).isSome then sumAfter sum op else sum) s' k ↔ s.FromZero k op := by
  rcases h.step_counter hop hplain hspares hstays hstep with ⟨hnone, hentry, hzero⟩ |
    ⟨count, initValue, it, hreturned, hsum, hentry, hvalue, -, hzero⟩
  · have hstored : s'.storedCount k = s.storedCount k := by rw [storedCount, hentry, storedCount]
    rw [hnone, Option.none_or]
    refine iff_of_true ⟨hagrees.1, ?_⟩ hzero
    rw [hstored]
    exact hagrees.2
  · have hstored : s'.storedCount k = some count := by
      rw [storedCount, hentry, Option.map_some, hvalue, counterOf_counterBytes]
    rw [hreturned, Option.some_or, Option.isSome_some, if_pos rfl, hsum, hagrees.getD_sum, hzero,
      Agrees, hstored, Option.some.injEq, Option.map_some, Option.some.injEq]
    generalize startValue (s.entry k) initValue = start
    constructor
    · rintro ⟨-, heq⟩
      rwa [eq_comm, Int32.add_eq_right] at heq
    · rintro rfl
      simp

/-- Along an undisturbed run the item under the key stays a plain counter. -/
theorem Settled.plain_run {ops₁ ops₂ : List StoreOp} {s₁ : Store} (h : s.Settled g)
    (hops : ∀ op ∈ ops, op.Admissible) (habsent : s.entry k = none)
    (hfree : s.Undisturbed k ops) (heq : ops = ops₁ ++ ops₂) (hrun : s.run ops₁ = some s₁) :
    (∃ g₁, s₁.Settled g₁) ∧ s₁.Plain k := by
  have hall : s.run ops₁ = some s₁ ∧ (∃ g₁, s₁.Settled g₁) ∧ s₁.Plain k := by
    apply runFrom_induction (C := fun ops₁ => ∃ ops₂, ops = ops₁ ++ ops₂)
      (P := fun ops₁ s₁ => s.run ops₁ = some s₁ ∧ (∃ g₁, s₁.Settled g₁) ∧ s₁.Plain k)
      _ _ _ ⟨ops₂, heq⟩ hrun
    · rintro ops₁ op ⟨ops₂, rfl⟩
      exact ⟨op :: ops₂, by simp⟩
    · exact ⟨rfl, ⟨g, h⟩, fun it hentry => by simp [habsent] at hentry⟩
    · rintro ops₁ op s₁ s₂ ⟨ops₂, heq⟩ ⟨hrun₁, ⟨g₁, hs₁⟩, hplain⟩ hstep
      have heq : ops = ops₁ ++ op :: ops₂ := by simp [heq]
      have hop : op.Admissible := hops op (by simp [heq])
      obtain ⟨hspares, hstays⟩ := hfree ops₁ op ops₂ s₁ s₂ heq hrun₁ hstep
      obtain ⟨-, g₂, hmoves⟩ := hs₁.step_moves hop hstep
      refine ⟨?_, ⟨g₂, hmoves.settled hs₁⟩, fun it hentry => ?_⟩
      · rw [run] at hrun₁
        rw [run, runFrom_concat, hrun₁, Option.bind_some, hstep]
      · rcases hs₁.step_counter hop hplain hspares hstays hstep with ⟨-, hsame, -⟩ |
          ⟨_, _, it', -, -, hentry', -, hflags, -⟩
        · exact hplain it (hsame ▸ hentry)
        · rw [hentry', Option.some.injEq] at hentry
          rw [← hentry]
          exact hflags
  exact hall.2

/-- In a run in which nothing but counts happens to a key, the law of its counter holds if
and only if every count that passes the checks starts from zero: from the initial value
zero where there is no counter yet, from a counter of zero else. -/
theorem counterLaw_run {param : MdbParam} {ops₀ : List StoreOp} {s₀ : Store}
    (hinit : Store.init param = some s₀) (hops : ∀ op ∈ ops₀ ++ ops, op.Admissible)
    (hrun₀ : s₀.run ops₀ = some s) (hrun : s.run ops = some s') (habsent : s.entry k = none)
    (hfree : s.Undisturbed k ops) :
    s.CounterLaw k ops ↔ ∀ ops₁ op ops₂ s₁, ops = ops₁ ++ op :: ops₂ → s.run ops₁ = some s₁ →
      s₁.FromZero k op := by
  have hops₁ : ∀ op ∈ ops, op.Admissible := fun op hop => hops op (List.mem_append_right _ hop)
  obtain ⟨g, -, hs, -⟩ := reached hinit (fun op hop => hops op (List.mem_append_left _ hop)) hrun₀
  have hcuts : ∀ ops₁ op ops₂ s₁ s₂, ops = ops₁ ++ op :: ops₂ → s.run ops₁ = some s₁ →
      s₁.step op = some s₂ → ∃ g₁, s₁.Settled g₁ ∧ s₁.Plain k ∧ op.Admissible ∧ s₁.Spares k op ∧
        (s₁.entry k ≠ none → s₂.entry k ≠ none) := by
    intro ops₁ op ops₂ s₁ s₂ heq hrun₁ hstep
    obtain ⟨⟨g₁, hs₁⟩, hplain⟩ := hs.plain_run hops₁ habsent hfree heq hrun₁
    exact ⟨g₁, hs₁, hplain, hops₁ op (by simp [heq]), hfree ops₁ op ops₂ s₁ s₂ heq hrun₁ hstep⟩
  have hlaw : (∀ ops₁ ops₂ s₁, ops = ops₁ ++ ops₂ → s.run ops₁ = some s₁ →
      Agrees (s.lastResult k ops₁) (s.counterSum k ops₁) s₁ k) ↔
      ∀ ops₁ op ops₂ s₁, ops = ops₁ ++ op :: ops₂ → s.run ops₁ = some s₁ → s₁.FromZero k op := by
    apply runFrom_forall_iff
      (P := fun ops₁ s₁ => Agrees (s.lastResult k ops₁) (s.counterSum k ops₁) s₁ k) hrun
    · exact ⟨rfl, by rw [storedCount, habsent]; rfl⟩
    · intro ops₁ op ops₂ s₁ s₂ heq hrun₁ hagrees hstep
      obtain ⟨g₁, hs₁, hplain, hop, hspares, hstays⟩ := hcuts ops₁ op ops₂ s₁ s₂ heq hrun₁ hstep
      rw [lastResult, counterSum, gather_concat hrun₁ hstep, gather_concat hrun₁ hstep]
      exact hs₁.agrees_step hop hplain hspares hstays hstep hagrees
  refine ⟨fun h => hlaw.mp h.1, fun hzero => ⟨hlaw.mpr hzero, ?_⟩⟩
  intro ops₁ op ops₂ s₁ s₂ heq hrun₁ hstep hnone
  obtain ⟨g₁, hs₁, hplain, hop, hspares, hstays⟩ := hcuts ops₁ op ops₂ s₁ s₂ heq hrun₁ hstep
  rcases hs₁.step_counter hop hplain hspares hstays hstep with ⟨-, hsame, -⟩ |
    ⟨count, initValue, it, hreturned, -⟩
  · rw [hsame]
  · rw [hnone] at hreturned
    exact absurd hreturned (by simp)

instance decidableSpares (s : Store) (k : List UInt8) (op : StoreOp) : Decidable (s.Spares k op) :=
  match op with
  | .put .. => inferInstanceAs (Decidable (_ ≠ _))
  | .remove _ => inferInstanceAs (Decidable (_ ≠ _))
  | .addCount key _ _ _ _ _ getTime _ _ => inferInstanceAs (Decidable
      (key.data = k → ∀ it ∈ s.entry k, s.isItemExpired it getTime = false))
  | .get .. => instDecidableTrue
  | .lookup .. => instDecidableTrue
  | .clear .. => instDecidableTrue
  | .setAreaQuota .. => instDecidableTrue
  | .checkQuota => instDecidableTrue

instance decidablePasses (found : Option MdbItem) (count initValue : Int32) (notNegative : Bool) :
    Decidable (Passes found count initValue notNegative) :=
  match found with
  | none => inferInstanceAs (Decidable (_ = none))
  | some _ => inferInstanceAs (Decidable (_ → _ ∧ _))

instance decidableFromZero (s : Store) (k : List UInt8) (op : StoreOp) :
    Decidable (s.FromZero k op) :=
  match op with
  | .addCount .. => inferInstanceAs (Decidable (_ → _ → _ = _))
  | .put .. => instDecidableTrue
  | .get .. => instDecidableTrue
  | .remove .. => instDecidableTrue
  | .lookup .. => instDecidableTrue
  | .clear .. => instDecidableTrue
  | .setAreaQuota .. => instDecidableTrue
  | .checkQuota => instDecidableTrue

/-- What `Undisturbed` asks of a step. -/
def LeavesAlone (k : List UInt8) (s : Store) (op : StoreOp) : Prop :=
  s.Spares k op ∧ ∀ s' ∈ s.step op, (s.entry k).isSome → (s'.entry k).isSome

instance decidableLeavesAlone (k : List UInt8) (s : Store) (op : StoreOp) :
    Decidable (LeavesAlone k s op) :=
  inferInstanceAs (Decidable (_ ∧ ∀ s' ∈ s.step op, _))

theorem undisturbed_of_eachStep (h : EachStep step (LeavesAlone k) s ops) : s.Undisturbed k ops := by
  intro ops₁ op ops₂ s₁ s₂ heq hrun hstep
  obtain ⟨hspares, hstays⟩ := eachStep_iff.mp h ops₁ op ops₂ s₁ heq hrun
  simp only [Option.isSome_iff_ne_none] at hstays
  exact ⟨hspares, hstays s₂ hstep⟩

/-- A count of the first key. -/
def countOne (count initValue : Int32) : StoreOp :=
  .addCount (keyNo 1) count initValue false 0 0 1 1 1

/-- Two counts that start from zero, and between them a put of another key. -/
def fromZero : List StoreOp :=
  [countOne 0 0, .put (keyNo 2) (keyNo 20) false 0 1 1, countOne 5 7]

/-- One more count, which starts from five. -/
def fromFive : List StoreOp := fromZero ++ [countOne 1 7]

theorem admissible_fromFive : ∀ op ∈ fromFive, op.Admissible := by decide +kernel

theorem undisturbed_fromFive : smallStore.Undisturbed (keyNo 1).data fromFive :=
  undisturbed_of_eachStep (by decide +kernel)

theorem entry_smallStore : smallStore.entry (keyNo 1).data = none := by
  apply Option.isNone_iff_eq_none.mp
  decide +kernel

theorem fromZero_fromZero :
    EachStep step (fun s => s.FromZero (keyNo 1).data) smallStore fromZero := by
  decide +kernel

theorem not_fromZero_fromFive :
    ¬ EachStep step (fun s => s.FromZero (keyNo 1).data) smallStore fromFive := by
  decide +kernel

/-- The law holds for the counts that start from zero, and no longer with the one after them. -/
theorem counterLaw_fromFive : smallStore.CounterLaw (keyNo 1).data fromZero ∧
    ¬ smallStore.CounterLaw (keyNo 1).data fromFive := by
  have hsome : (smallStore.run fromZero).isSome ∧ (smallStore.run fromFive).isSome := by
    decide +kernel
  obtain ⟨s, hrun⟩ := Option.isSome_iff_exists.mp hsome.1
  obtain ⟨s', hrun'⟩ := Option.isSome_iff_exists.mp hsome.2
  have hops : ∀ op ∈ [] ++ fromZero, op.Admissible :=
    fun op hop => admissible_fromFive op (List.mem_append_left _ hop)
  have hfree : smallStore.Undisturbed (keyNo 1).data fromZero :=
    undisturbed_of_eachStep (by decide +kernel)
  have hlaw := counterLaw_run init_smallParam hops rfl hrun entry_smallStore hfree
  have hops' : ∀ op ∈ [] ++ fromFive, op.Admissible := admissible_fromFive
  have hlaw' := counterLaw_run init_smallParam hops' rfl hrun' entry_smallStore undisturbed_fromFive
  refine ⟨hlaw.mpr (eachStep_iff.mp fromZero_fromZero), fun hholds => ?_⟩
  exact not_fromZero_fromFive (eachStep_iff.mpr (hlaw'.mp hholds))

/-- A counter that starts from ten: the answer is fifteen, five is stored. -/
theorem counterLaw_ten : Store.init smallParam = some smallStore ∧
    smallStore.entry (keyNo 1).data = none ∧
    smallStore.Undisturbed (keyNo 1).data [countOne 5 10] ∧
    ¬ smallStore.CounterLaw (keyNo 1).data [countOne 5 10] := by
  refine ⟨init_smallParam, entry_smallStore, undisturbed_of_eachStep (by decide +kernel), ?_⟩
  rintro ⟨hlaw, -⟩
  have hcalls : (smallStore.run [countOne 5 10]).any (fun s =>
      s.storedCount (keyNo 1).data = some 5 ∧
        smallStore.lastResult (keyNo 1).data [countOne 5 10] = some 15) = true := by
    decide +kernel
  obtain ⟨s', hrun', hrest⟩ := (Option.any_eq_true ..).mp hcalls
  obtain ⟨hstored, hlast⟩ := of_decide_eq_true hrest
  have hagree := (hlaw [countOne 5 10] [] s' rfl hrun').2
  rw [hstored, hlast] at hagree
  exact absurd hagree (by decide)

end Store

end Mdb
