-- SUMMARY: Runs of the store: every call is a sequence of changes, so a store in use stays settled.
import Mathlib.Logic.Relation
import NetworkEtc.Library.Runs
import NetworkEtc.Mdb.Start

/-!
# The store in use

Any sequence of calls, from a new store on. Each call is made of `Change`s; what every
change keeps, every run keeps. The clock may read anything.
-/

namespace Mdb

open Library

/-- The calls of `mdb_manager`, with the readings of the clock each makes. -/
inductive StoreOp where
  | put (key value : DataEntry) (versionCare : Bool) (expired : Int)
      (crrntTime evictTime : UInt32)
  | get (key value : DataEntry) (time : UInt32)
  | remove (key : DataEntry)
  | addCount (key : DataEntry) (count initValue : Int32) (notNegative : Bool) (expired : Int)
      (resultValue : Int32) (getTime crrntTime evictTime : UInt32)
  | lookup (key : DataEntry) (time : UInt32)
  | clear (area : Nat) (time : UInt32)
  | setAreaQuota (area : Nat) (quota : UInt64)
  | checkQuota

/-- The readings of the clock that a call makes. -/
def StoreOp.readings : StoreOp → List UInt32
  | .put _ _ _ _ crrntTime evictTime => [crrntTime, evictTime]
  | .get _ _ time => [time]
  | .remove _ => []
  | .addCount _ _ _ _ _ _ getTime crrntTime evictTime => [getTime, crrntTime, evictTime]
  | .lookup _ time => [time]
  | .clear _ time => [time]
  | .setAreaQuota _ _ => []
  | .checkQuota => []

/-- The key has its area in front, and its length fits `key_len`. -/
def DataEntry.IsKey (key : DataEntry) : Prop := 2 ≤ key.data.length ∧ key.data.length < 4096

/-- The length of the value fits `data_len`. -/
def DataEntry.IsValue (value : DataEntry) : Prop := value.data.length < 2 ^ 20

instance (key : DataEntry) : Decidable key.IsKey := inferInstanceAs (Decidable (_ ∧ _))
instance (value : DataEntry) : Decidable value.IsValue := inferInstanceAs (Decidable (_ < _))

/-- The lengths of the key and of the value fit their fields. -/
def StoreOp.Admissible : StoreOp → Prop
  | .put key value _ _ _ _ => key.IsKey ∧ value.IsValue
  | .get key _ _ => key.IsKey
  | .remove key => key.IsKey
  | .addCount key _ _ _ _ _ _ _ _ => key.IsKey
  | .lookup key _ => key.IsKey
  | .clear _ _ => True
  | .setAreaQuota _ _ => True
  | .checkQuota => True

instance (op : StoreOp) : Decidable op.Admissible :=
  match op with
  | .put .. => inferInstanceAs (Decidable (_ ∧ _))
  | .get key _ _ => inferInstanceAs (Decidable key.IsKey)
  | .remove key => inferInstanceAs (Decidable key.IsKey)
  | .addCount key .. => inferInstanceAs (Decidable key.IsKey)
  | .lookup key _ => inferInstanceAs (Decidable key.IsKey)
  | .clear .. => instDecidableTrue
  | .setAreaQuota .. => instDecidableTrue
  | .checkQuota => instDecidableTrue

theorem DataEntry.IsKey.ne_nil {key : DataEntry} (h : key.IsKey) : key.data ≠ [] :=
  Store.ne_nil_of_two_le h.1

namespace Store

/-- The store after a call. -/
def step (s : Store) : StoreOp → Option Store
  | .put key value versionCare expired crrntTime evictTime =>
    (s.doPut key value versionCare expired crrntTime evictTime).map Prod.snd
  | .get key value time => (s.doGet key value time).map Prod.snd
  | .remove key => (s.doRemove key).map Prod.snd
  | .addCount key count initValue notNegative expired resultValue getTime crrntTime evictTime =>
    (s.doAddCount key count initValue notNegative expired resultValue getTime crrntTime
      evictTime).map Prod.snd
  | .lookup key time => (s.doLookup key time).map Prod.snd
  | .clear area time => s.clear area time
  | .setAreaQuota area quota => s.setAreaQuota area quota
  | .checkQuota => s.checkQuota

/-- The store after a sequence of calls. -/
def run (s : Store) (ops : List StoreOp) : Option Store := runFrom step s ops

/-! # Changes -/

/-- An item goes, or none. -/
inductive Loss : Store × Ledger → Store × Ledger → Prop where
  | touched {s s' : Store} {g : Ledger} (h : s.Touched s' g) : Loss (s, g) (s', g)
  | removed {s s' : Store} {g g' : Ledger} {x : ItemId} (h : s.Removed s' g g' x) :
    Loss (s, g) (s', g')

/-- A change of the items of the store, and of whose they are. -/
inductive Change : Store × Ledger → Store × Ledger → Prop where
  | loss {c c' : Store × Ledger} (h : Loss c c') : Change c c'
  | putNew {s s' : Store} {g g' : Ledger} {i : Nat} {x : ItemId} {it : MdbItem}
      (h : s.PutNew s' g g' i x it) : Change (s, g) (s', g')
  | putOver {s s' : Store} {g g' : Ledger} {i : Nat} {x : ItemId} {it : MdbItem}
      (h : s.PutOver s' g g' i x it) : Change (s, g) (s', g')

def Losses : Store × Ledger → Store × Ledger → Prop := Relation.ReflTransGen Loss

/-- One change after another. -/
def Changes : Store × Ledger → Store × Ledger → Prop := Relation.ReflTransGen Change

/-- The items change, or a quota or a time is noted. -/
inductive Move : Store × Ledger → Store × Ledger → Prop where
  | change {c c' : Store × Ledger} (h : Change c c') : Move c c'
  | marked {s : Store} {g : Ledger} {areaStat : Nat → AreaStat} (areaTimestamp : Nat → UInt32)
      (h : ∀ k, (areaStat k).dataSize = (s.areaStat k).dataSize ∧
        (areaStat k).spaceUsage = (s.areaStat k).spaceUsage ∧
        (areaStat k).itemCount = (s.areaStat k).itemCount) :
    Move (s, g) ({ s with areaStat, areaTimestamp }, g)

def Moves : Store × Ledger → Store × Ledger → Prop := Relation.ReflTransGen Move

variable {s s' s'' : Store} {g g' g'' : Ledger} {x : ItemId} {key value : DataEntry}
  {c c' : Store × Ledger}

theorem Loss.settled (h : Loss c c') : c'.1.Settled c'.2 := by
  cases h with
  | touched h => exact h.settled
  | removed h => exact h.settled

theorem Change.settled (h : Change c c') : c'.1.Settled c'.2 := by
  cases h with
  | loss h => exact h.settled
  | putNew h => exact h.settled
  | putOver h => exact h.settled

theorem Move.settled (h : Move c c') (hs : c.1.Settled c.2) : c'.1.Settled c'.2 := by
  cases h with
  | change h => exact h.settled
  | marked areaTimestamp _ => exact hs.restat _ areaTimestamp

/-- The rule for invariants of settled stores. -/
theorem Moves.invariant {P : Store → Ledger → Prop}
    (hstep : ∀ c c', Move c c' → c.1.Settled c.2 → P c.1 c.2 → P c'.1 c'.2)
    (h : Moves c c') (hs : c.1.Settled c.2) (hP : P c.1 c.2) :
    c'.1.Settled c'.2 ∧ P c'.1 c'.2 := by
  induction h with
  | refl => exact ⟨hs, hP⟩
  | tail _ hmove ih => exact ⟨hmove.settled ih.1, hstep _ _ hmove ih.1 ih.2⟩

theorem Moves.settled (h : Moves c c') (hs : c.1.Settled c.2) : c'.1.Settled c'.2 :=
  (h.invariant (P := fun _ _ => True) (fun _ _ _ _ _ => trivial) hs trivial).1

theorem Changes.moves (h : Changes c c') : Moves c c' :=
  Relation.ReflTransGen.mono (fun _ _ hchange => Move.change hchange) _ _ h

theorem Losses.changes (h : Losses c c') : Changes c c' :=
  Relation.ReflTransGen.mono (fun _ _ hloss => Change.loss hloss) _ _ h

theorem Changes.settled (h : Changes (s, g) (s', g')) (hs : s.Settled g) : s'.Settled g' :=
  h.moves.settled hs

/-- Changes of items do not touch the times of the areas. -/
theorem Changes.areaTimestamp_eq (h : Changes c c') : c'.1.areaTimestamp = c.1.areaTimestamp := by
  induction h with
  | refl => rfl
  | tail _ hchange ih =>
    cases hchange with
    | loss hloss =>
      cases hloss with
      | touched h => exact h.areaTimestamp_eq.trans ih
      | removed h => exact h.areaTimestamp_eq.trans ih
    | putNew h => exact h.areaTimestamp_eq.trans ih
    | putOver h => exact h.areaTimestamp_eq.trans ih

theorem Losses.settled (h : Losses (s, g) (s', g')) (hs : s.Settled g) : s'.Settled g' :=
  h.changes.settled hs

theorem Dropped.losses {key : List UInt8} (h : s.Dropped g key s' g') :
    Losses (s, g) (s', g') := by
  cases h with
  | absent _ => exact .refl
  | removed _ h => exact .single (.removed h)

/-! # The calls are made of changes -/

section

variable {time crrntTime evictTime : UInt32} {version : UInt16} {expired : Int} {versionCare : Bool}

theorem Settled.placeItem_changes {r : Int × DataEntry} (h : s.Settled g) (hkey : key.IsKey)
    (hvalue : value.IsValue) (harea : key.area = keyArea key.data)
    (hnew : ∀ y, g.InUse y → s.keyOf y ≠ key.data)
    (hplace : s.placeItem key value version expired crrntTime evictTime = some (r, s')) :
    ∃ g', Changes (s, g) (s', g') := by
  rcases h.placeItem version expired crrntTime evictTime hkey.1 hkey.2 hvalue harea hnew with
    ⟨i, x, slot, s₁, g₁, -, -, -, hplace', hput⟩ | ⟨i, x, slot, s₁, g₁, -, -, -, hplace', hput⟩ |
    ⟨hplace', -⟩
  · rw [hplace', Option.some.injEq, Prod.mk.injEq] at hplace
    exact ⟨g₁, hplace.2 ▸ .single (.putNew hput)⟩
  · rw [hplace', Option.some.injEq, Prod.mk.injEq] at hplace
    exact ⟨g₁, hplace.2 ▸ .single (.putOver hput)⟩
  · rw [hplace'] at hplace
    exact absurd hplace (by simp)

theorem Settled.doPut_changes {r : Int × DataEntry} (h : s.Settled g) (hkey : key.IsKey)
    (hvalue : value.IsValue)
    (hput : s.doPut key value versionCare expired crrntTime evictTime = some (r, s')) :
    ∃ g', Changes (s, g) (s', g') := by
  rcases h.doPut value versionCare expired crrntTime evictTime hkey.ne_nil with
    ⟨-, -, -, -, code, -, hrefused⟩ | ⟨version, s₁, g₁, -, hdropped, -, hplace⟩
  · rw [hrefused, Option.some.injEq, Prod.mk.injEq] at hput
    exact ⟨g, hput.2 ▸ .refl⟩
  · rw [hplace] at hput
    have hkey' : ({ key with area := keyArea key.data } : DataEntry).IsKey := hkey
    obtain ⟨g', hchanges⟩ := (hdropped.settled h).placeItem_changes hkey' hvalue rfl
      (fun y hy => hdropped.keyOf_ne h hy) hput
    exact ⟨g', hdropped.losses.changes.trans hchanges⟩

theorem Settled.doGet_losses {r : Int × DataEntry × DataEntry} (h : s.Settled g)
    (hkey : key.IsKey) (hget : s.doGet key value time = some (r, s')) :
    r.2.1.data = key.data ∧ ∃ g', Losses (s, g) (s', g') := by
  rcases h.doGet value time hkey.ne_nil with ⟨hnone, -⟩ |
    ⟨x, hx, -, ⟨-, s₁, g₁, hexpired, hremoved⟩ | ⟨-, ⟨-, s₁, hfound, htouched⟩ | ⟨-, hfail⟩⟩⟩
  · rw [hnone, Option.some.injEq, Prod.mk.injEq] at hget
    obtain ⟨rfl, rfl⟩ := hget
    exact ⟨rfl, g, .refl⟩
  · rw [hexpired, Option.some.injEq, Prod.mk.injEq] at hget
    obtain ⟨rfl, rfl⟩ := hget
    exact ⟨rfl, g₁, .single (.removed hremoved)⟩
  · rw [hfound, Option.some.injEq, Prod.mk.injEq] at hget
    obtain ⟨rfl, rfl⟩ := hget
    exact ⟨rfl, g, .single (.touched htouched)⟩
  · rw [hfail] at hget
    exact absurd hget (by simp)

theorem Settled.doRemove_losses {r : Int × DataEntry} (h : s.Settled g) (hkey : key.IsKey)
    (hremove : s.doRemove key = some (r, s')) : ∃ g', Losses (s, g) (s', g') := by
  obtain ⟨code, key', s₁, g₁, hremove', hdropped⟩ := h.doRemove hkey.ne_nil
  rw [hremove', Option.some.injEq, Prod.mk.injEq] at hremove
  exact ⟨g₁, hremove.2 ▸ hdropped.losses⟩

theorem Settled.doLookup_losses {r : Bool} (h : s.Settled g) (hkey : key.IsKey)
    (hlookup : s.doLookup key time = some (r, s')) : ∃ g', Losses (s, g) (s', g') := by
  rcases eq_or_ne key.area (keyArea key.data) with harea | harea
  · rcases h.doLookup time hkey.ne_nil harea with ⟨hnone, -⟩ |
      ⟨x, hx, -, ⟨-, s₁, g₁, hexpired, hremoved⟩ | ⟨-, hfound⟩⟩
    · rw [hnone, Option.some.injEq, Prod.mk.injEq] at hlookup
      exact ⟨g, hlookup.2 ▸ .refl⟩
    · rw [hexpired, Option.some.injEq, Prod.mk.injEq] at hlookup
      exact ⟨g₁, hlookup.2 ▸ .single (.removed hremoved)⟩
    · rw [hfound, Option.some.injEq, Prod.mk.injEq] at hlookup
      exact ⟨g, hlookup.2 ▸ .refl⟩
  · unfold Store.doLookup at hlookup
    rw [if_neg harea, Option.some.injEq, Prod.mk.injEq] at hlookup
    exact ⟨g, hlookup.2 ▸ .refl⟩

theorem length_counterBytes (count : Int32) : (counterBytes count).length = 6 := rfl

/-- The value that `do_add_count` puts. -/
def countEntry (oldValue : DataEntry) (count : Int32) : DataEntry :=
  let value := oldValue.setData (counterBytes count)
  { value with
    dataMeta := { value.dataMeta with flag := value.dataMeta.flag ||| TAIR_ITEM_FLAG_ADDCOUNT } }

theorem isValue_countEntry (oldValue : DataEntry) (count : Int32) :
    (countEntry oldValue count).IsValue := by
  unfold DataEntry.IsValue
  change (counterBytes count).length < 2 ^ 20
  rw [length_counterBytes]
  decide

/-- `do_add_count` stops after its get, or goes on to a put. -/
theorem doAddCount_cases {r : Int × Int32 × DataEntry} {count initValue resultValue : Int32}
    {notNegative : Bool} {getTime : UInt32}
    (h : s.doAddCount key count initValue notNegative expired resultValue getTime crrntTime
      evictTime = some (r, s')) :
    ∃ rc key' oldValue s₁, s.doGet key .init getTime = some ((rc, key', oldValue), s₁) ∧
      ((∃ code, (nextCount rc key' oldValue count initValue notNegative resultValue).1 = some code ∧
          r = (code, (nextCount rc key' oldValue count initValue notNegative resultValue).2.1, key') ∧
          s' = s₁) ∨
        ((nextCount rc key' oldValue count initValue notNegative resultValue).1 = none ∧
          ∃ rc' key'', s₁.doPut key' (countEntry (nextCount rc key' oldValue count initValue
              notNegative resultValue).2.2 count) true expired crrntTime evictTime =
              some ((rc', key''), s') ∧
            r = (rc', (nextCount rc key' oldValue count initValue notNegative resultValue).2.1,
              key''))) := by
  unfold Store.doAddCount at h
  rw [Option.bind_eq_bind, Option.bind_eq_some_iff] at h
  obtain ⟨⟨⟨rc, key', oldValue⟩, s₁⟩, hget, h⟩ := h
  refine ⟨rc, key', oldValue, s₁, hget, ?_⟩
  simp only at h
  split at h
  · next code result rest hnext =>
    rw [Option.some.injEq, Prod.mk.injEq] at h
    rw [hnext]
    exact Or.inl ⟨code, rfl, h.1.symm, h.2.symm⟩
  · next result rest hnext =>
    rw [Option.bind_eq_bind, Option.bind_eq_some_iff] at h
    obtain ⟨⟨⟨rc', key''⟩, s₂⟩, hput, h⟩ := h
    rw [Option.some.injEq, Prod.mk.injEq] at h
    obtain ⟨rfl, rfl⟩ := h
    rw [hnext]
    exact Or.inr ⟨rfl, rc', key'', hput, rfl⟩

theorem Settled.doAddCount_changes {r : Int × Int32 × DataEntry}
    {count initValue resultValue : Int32} {notNegative : Bool} {getTime : UInt32}
    (h : s.Settled g) (hkey : key.IsKey)
    (hadd : s.doAddCount key count initValue notNegative expired resultValue getTime crrntTime
      evictTime = some (r, s')) : ∃ g', Changes (s, g) (s', g') := by
  obtain ⟨rc, key', oldValue, s₁, hget, ⟨code, -, -, rfl⟩ |
    ⟨-, rc', key'', hput, -⟩⟩ := doAddCount_cases hadd
  · obtain ⟨-, g₁, hlosses⟩ := h.doGet_losses hkey hget
    exact ⟨g₁, hlosses.changes⟩
  · obtain ⟨hdata, g₁, hlosses⟩ := h.doGet_losses hkey hget
    have hkey' : key'.IsKey := by
      unfold DataEntry.IsKey
      rw [hdata]
      exact hkey
    obtain ⟨g', hchanges⟩ :=
      (hlosses.settled h).doPut_changes hkey' (isValue_countEntry _ count) hput
    exact ⟨g', hlosses.changes.trans hchanges⟩

/-! # Quotas -/

/-- The last item of an area's list in a slab. -/
theorem Settled.tail_item (h : s.Settled g) {i k : Nat} (hi : i < g.count)
    (hk : (s.slabs i).itemTail k ≠ 0) :
    ∃ x, g.InSlab i x ∧ g.area x = k ∧ ((s.slabs i).itemTail k).addr = x.addr := by
  obtain ⟨hx, hxk⟩ := (h.listed i hi).tail_place hk
  exact ⟨_, hx, hxk, rfl⟩

variable {k : Nat} {first : Bool}

theorem Settled.keepRound_losses {n i : Nat} {exceed exceed' : UInt64} (h : s.Settled g)
    (hn : i + n ≤ g.count) (hkeep : keepRound k first n i s exceed = some (exceed', s')) :
    ∃ g', Losses (s, g) (s', g') := by
  induction n generalizing i s g exceed with
  | zero =>
    simp only [keepRound, Option.some.injEq, Prod.mk.injEq] at hkeep
    exact ⟨g, hkeep.2 ▸ .refl⟩
  | succ n ih =>
    have hnext : i + 1 + n ≤ g.count := by omega
    unfold keepRound at hkeep
    simp only at hkeep
    split at hkeep
    · exact ih h hnext hkeep
    · next hlist =>
      split at hkeep
      · exact ih h hnext hkeep
      · obtain ⟨x, hx, -, haddr⟩ := h.tail_item (by omega) (not_or.mp hlist).2
        obtain ⟨s₁, g₁, hremove, hremoved⟩ := h.removeItem (Ledger.inUse_of (by omega) hx)
        rw [haddr, hremove] at hkeep
        simp only [Option.bind_eq_bind, Option.bind_some] at hkeep
        generalize (if UInt64.ofNat (itemSize (s.mem.item x.addr)) ≤ exceed then
          exceed - UInt64.ofNat (itemSize (s.mem.item x.addr)) else 0) = rest at hkeep
        split at hkeep
        · rw [Option.some.injEq, Prod.mk.injEq] at hkeep
          exact ⟨g₁, hkeep.2 ▸ .single (.removed hremoved)⟩
        · obtain ⟨g', hlosses⟩ := ih hremoved.settled (hremoved.given.count_eq ▸ hnext) hkeep
          exact ⟨g', .head (.removed hremoved) hlosses⟩

theorem Settled.keepLoop_losses {fuel : Nat} {exceed : UInt64} (h : s.Settled g)
    (hkeep : keepLoop k fuel first s exceed = some s') : ∃ g', Losses (s, g) (s', g') := by
  induction fuel generalizing s g first exceed with
  | zero => exact absurd hkeep (by simp [keepLoop])
  | succ fuel ih =>
    unfold keepLoop at hkeep
    split at hkeep
    · rw [Option.some.injEq] at hkeep
      exact ⟨g, hkeep ▸ .refl⟩
    · rw [Option.bind_eq_bind, Option.bind_eq_some_iff] at hkeep
      obtain ⟨⟨exceed₁, s₁⟩, hround, hrest⟩ := hkeep
      obtain ⟨g₁, hlosses₁⟩ := h.keepRound_losses (by rw [Nat.zero_add, h.count_eq]) hround
      obtain ⟨g', hlosses⟩ := ih (hlosses₁.settled h) hrest
      exact ⟨g', hlosses₁.trans hlosses⟩

theorem Settled.checkArea_losses {i : Nat} (h : s.Settled g) (hcheck : s.checkArea i = some s') :
    ∃ g', Losses (s, g) (s', g') := by
  unfold Store.checkArea at hcheck
  simp only at hcheck
  split at hcheck
  · rw [Option.some.injEq] at hcheck
    exact ⟨g, hcheck ▸ .refl⟩
  · split at hcheck
    · unfold Store.keepAreaQuota at hcheck
      split at hcheck
      · exact h.keepLoop_losses hcheck
      · exact absurd hcheck (by simp)
    · rw [Option.some.injEq] at hcheck
      exact ⟨g, hcheck ▸ .refl⟩

theorem Settled.checkFrom_losses {n i : Nat} (h : s.Settled g)
    (hcheck : checkFrom n i s = some s') : ∃ g', Losses (s, g) (s', g') := by
  induction n generalizing i s g with
  | zero =>
    simp only [checkFrom, Option.some.injEq] at hcheck
    exact ⟨g, hcheck ▸ .refl⟩
  | succ n ih =>
    simp only [checkFrom, Option.bind_eq_some_iff] at hcheck
    obtain ⟨s₁, hfirst, hrest⟩ := hcheck
    obtain ⟨g₁, hlosses₁⟩ := h.checkArea_losses hfirst
    obtain ⟨g', hlosses⟩ := ih (hlosses₁.settled h) hrest
    exact ⟨g', hlosses₁.trans hlosses⟩

end

/-! # Runs -/

/-- The times of the areas after a call. -/
def timesAfter (times : Nat → UInt32) : StoreOp → Nat → UInt32
  | .clear area time => Function.update times area time
  | _ => times

/-- Every call is a sequence of moves; only `clear` sets the time of an area. -/
theorem Settled.step_moves {op : StoreOp} (h : s.Settled g) (hop : op.Admissible)
    (hstep : s.step op = some s') :
    s'.areaTimestamp = timesAfter s.areaTimestamp op ∧ ∃ g', Moves (s, g) (s', g') := by
  have hitems : (∃ g', Changes (s, g) (s', g')) →
      s'.areaTimestamp = s.areaTimestamp ∧ ∃ g', Moves (s, g) (s', g') := by
    rintro ⟨g', hchanges⟩
    exact ⟨hchanges.areaTimestamp_eq, g', hchanges.moves⟩
  cases op with
  | put key value versionCare expired crrntTime evictTime =>
    obtain ⟨⟨r, s₁⟩, hput, rfl⟩ := Option.map_eq_some_iff.mp hstep
    exact hitems (h.doPut_changes hop.1 hop.2 hput)
  | get key value time =>
    obtain ⟨⟨r, s₁⟩, hget, rfl⟩ := Option.map_eq_some_iff.mp hstep
    obtain ⟨-, g₁, hlosses⟩ := h.doGet_losses hop hget
    exact hitems ⟨g₁, hlosses.changes⟩
  | remove key =>
    obtain ⟨⟨r, s₁⟩, hremove, rfl⟩ := Option.map_eq_some_iff.mp hstep
    obtain ⟨g₁, hlosses⟩ := h.doRemove_losses hop hremove
    exact hitems ⟨g₁, hlosses.changes⟩
  | addCount key count initValue notNegative expired resultValue getTime crrntTime evictTime =>
    obtain ⟨⟨r, s₁⟩, hadd, rfl⟩ := Option.map_eq_some_iff.mp hstep
    exact hitems (h.doAddCount_changes hop hadd)
  | lookup key time =>
    obtain ⟨⟨r, s₁⟩, hlookup, rfl⟩ := Option.map_eq_some_iff.mp hstep
    obtain ⟨g₁, hlosses⟩ := h.doLookup_losses hop hlookup
    exact hitems ⟨g₁, hlosses.changes⟩
  | clear area time =>
    change s.clear area time = some s' at hstep
    unfold Store.clear at hstep
    split at hstep
    · rw [← Option.some.inj hstep]
      exact ⟨rfl, g, .single (.marked _ fun _ => ⟨rfl, rfl, rfl⟩)⟩
    · exact absurd hstep (by simp)
  | setAreaQuota area quota =>
    change s.setAreaQuota area quota = some s' at hstep
    unfold Store.setAreaQuota at hstep
    split at hstep
    · rw [← Option.some.inj hstep]
      refine ⟨rfl, g, .single (.marked s.areaTimestamp fun k => ?_)⟩
      rw [Function.update_apply]
      split
      · next heq => rw [heq]; exact ⟨rfl, rfl, rfl⟩
      · exact ⟨rfl, rfl, rfl⟩
    · exact absurd hstep (by simp)
  | checkQuota =>
    obtain ⟨g₁, hlosses⟩ := h.checkFrom_losses hstep
    exact hitems ⟨g₁, hlosses.changes⟩

/-- So is every run. -/
theorem Settled.run_moves {ops : List StoreOp} (h : s.Settled g)
    (hops : ∀ op ∈ ops, op.Admissible) (hrun : s.run ops = some s') :
    ∃ g', Moves (s, g) (s', g') := by
  apply runFrom_invariant (P := fun s' => ∃ g', Moves (s, g) (s', g'))
    (C := StoreOp.Admissible) _ ⟨g, .refl⟩ hops hrun
  rintro s₁ op s₂ hop ⟨g₁, hmoves⟩ hstep
  obtain ⟨-, g₂, hmoves₁⟩ := (hmoves.settled h).step_moves hop hstep
  exact ⟨g₂, hmoves.trans hmoves₁⟩

/-! # The clock -/

/-- The clock does not go backwards. -/
def InOrder (ops : List StoreOp) : Prop := (ops.flatMap StoreOp.readings).Pairwise (· ≤ ·)

instance (ops : List StoreOp) : Decidable (InOrder ops) :=
  inferInstanceAs (Decidable (List.Pairwise _ _))

/-- The times of the areas have been read from the clock. -/
theorem Settled.areaTimestamp_run {ops : List StoreOp} (h : s.Settled g)
    (hzero : ∀ k, s.areaTimestamp k = 0) (hops : ∀ op ∈ ops, op.Admissible)
    (hrun : s.run ops = some s') (k : Nat) :
    s'.areaTimestamp k = 0 ∨ s'.areaTimestamp k ∈ ops.flatMap StoreOp.readings := by
  have hall : (∃ g', s'.Settled g') ∧
      ∀ k, s'.areaTimestamp k = 0 ∨ s'.areaTimestamp k ∈ ops.flatMap StoreOp.readings := by
    apply runFrom_induction (C := fun ops => ∀ op ∈ ops, op.Admissible)
      (P := fun ops s' => (∃ g', s'.Settled g') ∧
        ∀ k, s'.areaTimestamp k = 0 ∨ s'.areaTimestamp k ∈ ops.flatMap StoreOp.readings)
      _ ⟨⟨g, h⟩, fun k => Or.inl (hzero k)⟩ _ hops hrun
    · intro ops op hall op' hop'
      exact hall op' (List.mem_append_left _ hop')
    · rintro ops op s₁ s₂ hall ⟨⟨g₁, hs₁⟩, hread⟩ hstep
      have hop : op.Admissible := hall op (List.mem_append_right _ (List.mem_singleton_self op))
      obtain ⟨htimes, g₂, hmoves⟩ := hs₁.step_moves hop hstep
      refine ⟨⟨g₂, hmoves.settled hs₁⟩, fun k => ?_⟩
      rw [List.flatMap_append, List.mem_append, htimes]
      have hkeep : s₁.areaTimestamp k = 0 ∨ s₁.areaTimestamp k ∈ ops.flatMap StoreOp.readings ∨
          s₁.areaTimestamp k ∈ [op].flatMap StoreOp.readings :=
        (hread k).imp_right Or.inl
      cases op with
      | clear area time =>
        rw [timesAfter, Function.update_apply]
        split
        · exact Or.inr (Or.inr (by simp [StoreOp.readings]))
        · exact hkeep
      | put => exact hkeep
      | get => exact hkeep
      | remove => exact hkeep
      | addCount => exact hkeep
      | lookup => exact hkeep
      | setAreaQuota => exact hkeep
      | checkQuota => exact hkeep
  exact hall.2 k

end Store

end Mdb
