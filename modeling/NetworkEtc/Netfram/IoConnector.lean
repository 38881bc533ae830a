-- SUMMARY: The connectors of a cycle, and when they keep the number of their sessions.
import Mathlib.Algebra.Group.Nat.Defs
import Mathlib.Data.Finset.Range
import Mathlib.Logic.Function.Basic
import NetworkEtc.Netfram.NextSession

/-!
# `CIoConnector`

The sessions of a connector are numbered in the order in which they are made. A connect succeeds,
and its session is inserted into the manager at once. Sockets are numbered by an `int`, so the size
of a group is an `int`, too.
-/

namespace Netfram

structure CIoConnector where
  moName : List UInt8
  moRemote : SockAddr
  muRetry : UInt32
  muRetryInterval : UInt32
  muRetryed : UInt32
  miSessionNum : Int
  mi64LastTry : Int

/-- The connectors of a cycle, with what they share: the manager, the counter of ids, and the
counter `CNextSession::muCount`. -/
structure Connectors (κ : Type) where
  connector : κ → CIoConnector
  /-- How many sessions the connector has made. -/
  made : κ → Nat
  mbClosed : κ × Nat → Bool
  muSessionID : κ × Nat → UInt64
  manager : CSessionManager (κ × Nat)
  mu64SessionID : UInt64
  muCount : Nat

namespace Connectors

variable {κ : Type} [DecidableEq κ]

/-- Before the first session. -/
def init (connector : κ → CIoConnector) (mu64SessionID : UInt64) (muCount : Nat) :
    Connectors κ where
  connector := connector
  made := fun _ => 0
  mbClosed := fun _ => false
  muSessionID := fun _ => 0
  manager := .init
  mu64SessionID := mu64SessionID
  muCount := muCount

/-- What the manager reads of a session. -/
def sessionData (s : Connectors κ) : SessionData (κ × Nat) where
  sessionID := s.muSessionID
  remote := fun p => (s.connector p.1).moRemote
  serviceName := fun p => (s.connector p.1).moName

/-- The id of the session that is made after `i` others: `CCycle::GetSession` takes one number and
`Connect` the next, of which `SetSessionID` keeps 32 bits. -/
def newID (s : Connectors κ) (i : Nat) : UInt64 :=
  (s.mu64SessionID + 2 * UInt64.ofNat i + 1).toUInt32.toUInt64

/-- `Connect(CSockAddr&)` and `FireSessionOpen` -/
def connectOne (s : Connectors κ) (c : κ) : Connectors κ :=
  let lpoSession := (c, s.made c)
  let s' :=
    { s with
      made := Function.update s.made c (s.made c + 1)
      mbClosed := Function.update s.mbClosed lpoSession false
      muSessionID := Function.update s.muSessionID lpoSession (s.newID 0)
      mu64SessionID := s.mu64SessionID + 2 }
  { s' with manager := s.manager.insert s'.sessionData lpoSession }

/-- The loop of `Connect()` -/
def connectLoop (c : κ) : Nat → Connectors κ → Connectors κ
  | 0, s => s
  | i + 1, s => connectLoop c i (s.connectOne c)

/-- `Connect()` -/
def connect (s : Connectors κ) (c : κ) (sec : Int) : Connectors κ :=
  let s := connectLoop c (s.connector c).miSessionNum.toNat s
  { s with
    connector := Function.update s.connector c
      { s.connector c with muRetryed := (s.connector c).muRetryed + 1, mi64LastTry := sec } }

/-- `CSession::Close` -/
def close (s : Connectors κ) (p : κ × Nat) : Connectors κ :=
  { s with mbClosed := Function.update s.mbClosed p true }

/-- `Remove`: whatever session is next, it is closed. -/
def remove : Nat → Connectors κ → Option (Connectors κ)
  | 0, s => some s
  | i + 1, s =>
    (s.manager.findNext s.mbClosed s.muCount).bind fun (lpoSession, muCount) =>
      let s := { s with muCount }
      match lpoSession with
      | some p => remove i (s.close p)
      | none => remove i s

/-- The peer has closed: `FireSessionClose` erases the session, and `CloseSession` closes it. Its
object is free then, so this happens once. -/
def lose (s : Connectors κ) (p : κ × Nat) : Connectors κ :=
  if s.manager.moSessionIDs.lookup (s.muSessionID p) = some p then
    { s.close p with manager := (s.manager.erase s.sessionData (s.muSessionID p)).2 }
  else s

/-- `SetSessionNum` -/
def setSessionNum (s : Connectors κ) (c : κ) (aiSessionNum : Int) : Connectors κ :=
  { s with
    connector :=
      Function.update s.connector c { s.connector c with miSessionNum := aiSessionNum } }

/-- The interval is over and the retries are not: `lbInter` and `lbTry` of `HandleChanged`. -/
def Tries (s : Connectors κ) (c : κ) (sec : Int) : Prop :=
  let o := s.connector c
  (o.muRetryInterval = 0 ∨ (o.muRetryInterval.toNat : Int) ≤ sec - o.mi64LastTry) ∧
    (o.muRetry = 0 ∨ o.muRetryed < o.muRetry)

instance (s : Connectors κ) (c : κ) (sec : Int) : Decidable (s.Tries c sec) :=
  inferInstanceAs (Decidable (_ ∧ _))

/-- `HandleChanged` -/
def handleChanged (s : Connectors κ) (c : κ) (sec : Int) : Option (Connectors κ) :=
  if ¬ s.Tries c sec then some s
  else
    (s.manager.eraseClosed s.mbClosed).bind fun manager =>
      let s := { s with manager }
      let liCurr : Int := s.manager.getSizeIn (s.connector c).moName
      let miSessionNum := (s.connector c).miSessionNum
      if miSessionNum < liCurr then remove (liCurr - miSessionNum).toNat s
      else if liCurr < miSessionNum then some (s.connect c sec)
      else some s

inductive Op (κ : Type) where
  | close (p : κ × Nat)
  | lose (p : κ × Nat)
  | setSessionNum (c : κ) (aiSessionNum : Int)
  | handleChanged (c : κ) (sec : Int)

/-- One step; `none` where it does what is undefined. -/
def step (s : Connectors κ) : Op κ → Option (Connectors κ)
  | .close p => some (s.close p)
  | .lose p => some (s.lose p)
  | .setSessionNum c aiSessionNum => some (s.setSessionNum c aiSessionNum)
  | .handleChanged c sec => s.handleChanged c sec

/-! # The number of sessions -/

/-- How many sessions of the connector are open. -/
def numOpen (s : Connectors κ) (c : κ) : Nat :=
  ((Finset.range (s.made c)).filter fun n => s.mbClosed (c, n) = false).card

/-- `HandleChanged` leaves the connector with as many open sessions as it should have, and closes no
session of another. -/
def KeepsPool (s : Connectors κ) (c : κ) (sec : Int) : Prop :=
  ∃ s', s.handleChanged c sec = some s' ∧ s'.numOpen c = (s.connector c).miSessionNum ∧
    ∀ p : κ × Nat, p.1 ≠ c → p.2 < s.made p.1 → s.mbClosed p = false → s'.mbClosed p = false

/-- Every `HandleChanged` of a run does so that the limits of its retries do not hold back. -/
def Kept (s : Connectors κ) : List (Op κ) → Prop
  | [] => True
  | op :: ops =>
    (∀ c sec, op = .handleChanged c sec → s.Tries c sec → s.KeepsPool c sec) ∧
      ∀ s', s.step op = some s' → Kept s' ops

/-- How many sessions of the connector the manager has. -/
def numIn (s : Connectors κ) (c : κ) : Nat := s.manager.sessions.countP (·.1 = c)

/-- How many sessions the manager has of all connectors with the name of this one. -/
def numNamed (s : Connectors κ) (c : κ) : Nat :=
  s.manager.sessions.countP fun p => (s.connector p.1).moName = (s.connector c).moName

/-- The next `k` sessions in turn are those of the connector. -/
def NextOwn (s : Connectors κ) (c : κ) (k : Nat) : Prop :=
  ∀ j < k, ∀ p,
    s.manager.sessions[(s.muCount + j) % s.manager.sessions.length]? = some p → p.1 = c

/-- What `HandleChanged` has to find: the manager has no closed session; and it has as many of the
connector's as it should have, or none, or, where no other connector has the name, too many, of
which the surplus is next in turn. -/
structure Settled (s : Connectors κ) (c : κ) : Prop where
  allOpen : ∀ p ∈ s.manager.sessions, s.mbClosed p = false
  balance : (s.connector c).miSessionNum = s.numNamed c ∧ s.numIn c = s.numNamed c ∨
    (s.numNamed c : Int) < (s.connector c).miSessionNum ∧ s.numIn c = 0 ∨
    0 ≤ (s.connector c).miSessionNum ∧ (s.connector c).miSessionNum < s.numNamed c ∧
      s.numIn c = s.numNamed c ∧ s.NextOwn c (s.numNamed c - (s.connector c).miSessionNum.toNat)

/-- The ids of the next `k` sessions are not those of sessions that the manager has. -/
def Fresh (s : Connectors κ) (k : Nat) : Prop :=
  ∀ i < k, s.manager.moSessionIDs.lookup (s.newID i) = none ∧ ∀ j < i, s.newID j ≠ s.newID i

/-- Every `HandleChanged` of the run finds what it has to, -/
def SettledRun (s : Connectors κ) : List (Op κ) → Prop
  | [] => True
  | op :: ops =>
    (∀ c sec, op = .handleChanged c sec → s.Tries c sec → s.Settled c) ∧
      ∀ s', s.step op = some s' → SettledRun s' ops

/-- and no session that is made in it gets the id of one that the manager has. -/
def FreshRun (s : Connectors κ) : List (Op κ) → Prop
  | [] => True
  | op :: ops =>
    (∀ c sec, op = .handleChanged c sec → s.Tries c sec →
        (s.numNamed c : Int) < (s.connector c).miSessionNum →
          s.Fresh (s.connector c).miSessionNum.toNat) ∧
      ∀ s', s.step op = some s' → FreshRun s' ops

/-! # What the manager knows -/

/-- The manager has a session. -/
def IsIn (s : Connectors κ) (p : κ × Nat) : Prop :=
  s.manager.moSessionIDs.lookup (s.muSessionID p) = some p

/-- The ids are those of the sessions that the manager has, every open session is one of them, and
the groups are those of the names. -/
structure Sound (s : Connectors κ) : Prop where
  sessionID : ∀ id p, s.manager.moSessionIDs.lookup id = some p → s.muSessionID p = id
  made : ∀ p, s.IsIn p → p.2 < s.made p.1
  isIn : ∀ p : κ × Nat, p.2 < s.made p.1 → s.mbClosed p = false → s.IsIn p
  inGroup : ∀ name id, id ∈ (s.manager.moGroups.lookup name).getD ∅ ↔
    ∃ p, s.manager.moSessionIDs.lookup id = some p ∧ (s.connector p.1).moName = name
  named : ∀ c, (s.connector c).moName ≠ []

section

variable {s s' : Connectors κ} {c : κ} {p q : κ × Nat} {id : UInt64} {k : Nat} {sec : Int}

omit [DecidableEq κ] in
theorem sound_init (connector : κ → CIoConnector) (mu64SessionID : UInt64) (muCount : Nat)
    (hnamed : ∀ c, (connector c).moName ≠ []) :
    (init connector mu64SessionID muCount).Sound := by
  refine ⟨fun id p hp => ?_, fun p hp => ?_, fun p hp => ?_, fun name id => ?_, hnamed⟩
  · simp [init, CSessionManager.init] at hp
  · simp [IsIn, init, CSessionManager.init] at hp
  · simp [init] at hp
  · simp [init, CSessionManager.init]

theorem exists_lookup_iff {σ : Type} {m : CSessionManager σ} {p : σ} :
    p ∈ m.sessions ↔ ∃ id, m.moSessionIDs.lookup id = some p := by
  unfold CSessionManager.sessions
  rw [List.mem_filterMap]
  constructor
  · rintro ⟨id, -, hid⟩
    exact ⟨id, hid⟩
  · rintro ⟨id, hid⟩
    refine ⟨id, ?_, hid⟩
    rw [Finset.mem_sort, Finmap.mem_keys, Finmap.mem_iff]
    exact ⟨p, hid⟩

omit [DecidableEq κ] in
theorem Sound.mem_sessions (h : s.Sound) : p ∈ s.manager.sessions ↔ s.IsIn p := by
  rw [exists_lookup_iff]
  constructor
  · rintro ⟨id, hid⟩
    unfold IsIn
    rwa [h.sessionID id p hid]
  · intro hp
    exact ⟨_, hp⟩

omit [DecidableEq κ] in
/-- In the table the ids are in order. -/
theorem Sound.map_sessions (h : s.Sound) :
    s.manager.sessions.map s.muSessionID = s.manager.moSessionIDs.keys.sort := by
  have hlookup : ∀ id ∈ s.manager.moSessionIDs.keys.sort,
      (s.manager.moSessionIDs.lookup id).map s.muSessionID = some id := by
    intro id hid
    rw [Finset.mem_sort, Finmap.mem_keys, Finmap.mem_iff] at hid
    obtain ⟨p, hp⟩ := hid
    rw [hp, Option.map_some, h.sessionID id p hp]
  unfold CSessionManager.sessions
  rw [List.map_filterMap]
  exact (List.filterMap_congr hlookup).trans List.filterMap_some

omit [DecidableEq κ] in
theorem Sound.nodup_map (h : s.Sound) : (s.manager.sessions.map s.muSessionID).Nodup := by
  rw [h.map_sessions]
  exact Finset.sort_nodup ..

omit [DecidableEq κ] in
theorem Sound.nodup_sessions (h : s.Sound) : s.manager.sessions.Nodup :=
  List.Nodup.of_map s.muSessionID h.nodup_map

omit [DecidableEq κ] in
/-- `GetSize` counts the sessions of the name. -/
theorem Sound.getSizeIn (h : s.Sound) (c : κ) :
    s.manager.getSizeIn (s.connector c).moName = s.numNamed c := by
  have hnodup : ((s.manager.sessions.filter
      fun p => (s.connector p.1).moName = (s.connector c).moName).map s.muSessionID).Nodup :=
    (List.filter_sublist.map s.muSessionID).nodup h.nodup_map
  have hgroup : (s.manager.moGroups.lookup (s.connector c).moName).getD ∅ =
      ((s.manager.sessions.filter fun p =>
        (s.connector p.1).moName = (s.connector c).moName).map s.muSessionID).toFinset := by
    ext id
    rw [h.inGroup, List.mem_toFinset, List.mem_map]
    constructor
    · rintro ⟨p, hp, hname⟩
      refine ⟨p, List.mem_filter.mpr ⟨exists_lookup_iff.mpr ⟨id, hp⟩, ?_⟩,
        h.sessionID id p hp⟩
      exact decide_eq_true hname
    · rintro ⟨p, hp, rfl⟩
      obtain ⟨hmem, hname⟩ := List.mem_filter.mp hp
      exact ⟨p, h.mem_sessions.mp hmem, of_decide_eq_true hname⟩
  rw [CSessionManager.getSizeIn, hgroup, List.toFinset_card_of_nodup hnodup, List.length_map,
    numNamed, List.countP_eq_length_filter]

omit [DecidableEq κ] in
theorem isSome_eraseClosedIn {σ : Type} (m : CSessionManager σ) (closed : σ → Bool)
    (name : List UInt8) : (m.eraseClosedIn closed name).isSome ↔
      ∀ id ∈ (m.moGroups.lookup name).getD ∅,
        (m.moSessionIDs.lookup id).any (fun lpoSession => !closed lpoSession) = true := by
  unfold CSessionManager.eraseClosedIn
  cases m.moGroups.lookup name with
  | none => simp
  | some ids =>
    simp only [CSessionManager.eraseClosedGroup, Option.getD_some]
    split
    · next hall => exact iff_of_true rfl hall
    · next hnot => exact iff_of_false Bool.false_ne_true hnot

omit [DecidableEq κ] in
/-- `EraseClosed` comes to its end where the manager has no closed session, and only there. -/
theorem Sound.eraseClosed (h : s.Sound) :
    (∀ p ∈ s.manager.sessions, s.mbClosed p = false) ∧
        s.manager.eraseClosed s.mbClosed = some s.manager ∨
      (¬ ∀ p ∈ s.manager.sessions, s.mbClosed p = false) ∧
        s.manager.eraseClosed s.mbClosed = none := by
  have hiff : (∀ name ∈ s.manager.moGroups.keys,
      (s.manager.eraseClosedIn s.mbClosed name).isSome) ↔
        ∀ p ∈ s.manager.sessions, s.mbClosed p = false := by
    constructor
    · intro hall p hp
      obtain ⟨id, hid⟩ := exists_lookup_iff.mp hp
      have hmem := (h.inGroup _ id).mpr ⟨p, hid, rfl⟩
      have hkey : (s.connector p.1).moName ∈ s.manager.moGroups.keys := by
        rw [Finmap.mem_keys, Finmap.mem_iff]
        cases hlookup : s.manager.moGroups.lookup (s.connector p.1).moName with
        | none => simp [hlookup] at hmem
        | some ids => exact ⟨ids, rfl⟩
      have hany := (isSome_eraseClosedIn ..).mp (hall _ hkey) id hmem
      rw [hid] at hany
      simpa using hany
    · intro hopen name _
      refine (isSome_eraseClosedIn ..).mpr fun id hmem => ?_
      obtain ⟨p, hid, -⟩ := (h.inGroup name id).mp hmem
      rw [hid, Option.any_some, hopen p (exists_lookup_iff.mpr ⟨id, hid⟩)]
      rfl
  unfold CSessionManager.eraseClosed
  split
  · next hall => exact Or.inl ⟨hiff.mp hall, rfl⟩
  · next hnot => exact Or.inr ⟨fun hopen => hnot (hiff.mpr hopen), rfl⟩

/-- Where the manager has no closed session, the open ones are those that it has. -/
theorem Sound.numOpen_eq (h : s.Sound) (hopen : ∀ p ∈ s.manager.sessions, s.mbClosed p = false)
    (c : κ) : s.numOpen c = s.numIn c := by
  have hnodup : ((s.manager.sessions.filter fun p => p.1 = c).map Prod.snd).Nodup := by
    refine List.Nodup.map_on ?_ (h.nodup_sessions.filter _)
    rintro ⟨c', n⟩ hn ⟨c'', n'⟩ hn' rfl
    obtain rfl : c' = c := of_decide_eq_true (List.mem_filter.mp hn).2
    obtain rfl : c'' = c' := of_decide_eq_true (List.mem_filter.mp hn').2
    rfl
  have hsets : (Finset.range (s.made c)).filter (fun n => s.mbClosed (c, n) = false) =
      ((s.manager.sessions.filter fun p => p.1 = c).map Prod.snd).toFinset := by
    ext n
    rw [Finset.mem_filter, Finset.mem_range, List.mem_toFinset, List.mem_map]
    constructor
    · rintro ⟨hmade, hclosed⟩
      exact ⟨(c, n), List.mem_filter.mpr ⟨h.mem_sessions.mpr (h.isIn (c, n) hmade hclosed),
        decide_eq_true rfl⟩, rfl⟩
    · rintro ⟨⟨c', n⟩, hn, rfl⟩
      obtain ⟨hmem, hc⟩ := List.mem_filter.mp hn
      obtain rfl : c' = c := of_decide_eq_true hc
      exact ⟨h.made _ (h.mem_sessions.mp hmem), hopen _ hmem⟩
  rw [numOpen, hsets, List.toFinset_card_of_nodup hnodup, List.length_map, numIn,
    List.countP_eq_length_filter]

/-! # The steps -/

omit [DecidableEq κ] in
/-- More closed sessions, and the names of before. -/
theorem Sound.congr (h : s.Sound) (hmanager : s'.manager = s.manager) (hmade : s'.made = s.made)
    (hid : s'.muSessionID = s.muSessionID)
    (hclosed : ∀ p, s'.mbClosed p = false → s.mbClosed p = false)
    (hname : ∀ c, (s'.connector c).moName = (s.connector c).moName) : s'.Sound := by
  refine ⟨fun id p hp => ?_, fun p hp => ?_, fun p hp hopen => ?_, fun name id => ?_, fun c => ?_⟩
  · rw [hmanager] at hp
    rw [hid]
    exact h.sessionID id p hp
  · unfold IsIn at hp
    rw [hmanager, hid] at hp
    rw [hmade]
    exact h.made p hp
  · unfold IsIn
    rw [hmanager, hid]
    rw [hmade] at hp
    exact h.isIn p hp (hclosed p hopen)
  · simp only [hmanager, hname]
    exact h.inGroup name id
  · rw [hname]
    exact h.named c

theorem Sound.close (h : s.Sound) (p : κ × Nat) : (s.close p).Sound := by
  refine h.congr rfl rfl rfl (fun q hq => ?_) fun _ => rfl
  rcases eq_or_ne q p with rfl | hne
  · simp [Connectors.close] at hq
  · simpa [Connectors.close, Function.update_of_ne hne] using hq

theorem Sound.setSessionNum (h : s.Sound) (c : κ) (aiSessionNum : Int) :
    (s.setSessionNum c aiSessionNum).Sound := by
  refine h.congr rfl rfl rfl (fun q hq => hq) fun c' => ?_
  rcases eq_or_ne c' c with rfl | hne
  · simp [Connectors.setSessionNum]
  · simp [Connectors.setSessionNum, Function.update_of_ne hne]

theorem Sound.lose (h : s.Sound) (p : κ × Nat) : (s.lose p).Sound := by
  unfold Connectors.lose
  split
  rotate_left
  · exact h
  next hp =>
  have hgroup : s.muSessionID p ∈
      (s.manager.moGroups.lookup (s.connector p.1).moName).getD ∅ :=
    (h.inGroup _ _).mpr ⟨p, hp, rfl⟩
  cases hids : s.manager.moGroups.lookup (s.connector p.1).moName with
  | none => simp [hids] at hgroup
  | some ids =>
    have herase : (s.manager.erase s.sessionData (s.muSessionID p)).2 =
        { s.manager with
          moSessionIDs := s.manager.moSessionIDs.erase (s.muSessionID p)
          moIdenties := s.manager.moIdenties.erase (s.connector p.1).moRemote.getID
          moGroups := s.manager.moGroups.insert (s.connector p.1).moName
            (ids.erase (s.muSessionID p)) } := by
      simp only [CSessionManager.erase, hp, sessionData, hids]
    have hleft : ∀ id q,
        (s.manager.moSessionIDs.erase (s.muSessionID p)).lookup id = some q ↔
          s.manager.moSessionIDs.lookup id = some q ∧ id ≠ s.muSessionID p := by
      intro id q
      rcases eq_or_ne id (s.muSessionID p) with rfl | hne
      · simp
      · simp [Finmap.lookup_erase_ne hne, hne]
    rw [herase]
    refine ⟨fun id q hq => ?_, fun q hq => ?_, fun q hmade hopen => ?_, fun name id => ?_,
      h.named⟩
    · exact h.sessionID id q ((hleft id q).mp hq).1
    · exact h.made q ((hleft _ q).mp hq).1
    · rcases eq_or_ne q p with rfl | hne
      · simp [Connectors.close] at hopen
      · have hin : s.IsIn q := h.isIn q hmade
          (by simpa [Connectors.close, Function.update_of_ne hne] using hopen)
        refine (hleft _ q).mpr ⟨hin, fun hid => hne ?_⟩
        unfold IsIn at hin
        rw [show s.muSessionID q = s.muSessionID p from hid, hp] at hin
        exact (Option.some.inj hin).symm
    · simp only [hleft, Connectors.close]
      have hold := h.inGroup name id
      rcases eq_or_ne name (s.connector p.1).moName with rfl | hne
      · rw [hids, Option.getD_some] at hold
        rw [Finmap.lookup_insert, Option.getD_some, Finset.mem_erase, hold]
        constructor
        · rintro ⟨hid, q, hq, hname⟩
          exact ⟨q, ⟨hq, hid⟩, hname⟩
        · rintro ⟨q, ⟨hq, hid⟩, hname⟩
          exact ⟨hid, q, hq, hname⟩
      · rw [Finmap.lookup_insert_of_ne _ hne, hold]
        constructor
        · rintro ⟨q, hq, hname⟩
          refine ⟨q, ⟨hq, ?_⟩, hname⟩
          rintro rfl
          rw [hp] at hq
          cases hq
          exact hne hname.symm
        · rintro ⟨q, ⟨hq, -⟩, hname⟩
          exact ⟨q, hq, hname⟩

/-- A session is made whose id is not that of another. -/
theorem Sound.connectOne (h : s.Sound) (c : κ)
    (hfresh : s.manager.moSessionIDs.lookup (s.newID 0) = none) : (s.connectOne c).Sound := by
  have hname : (s.connector c).moName.length ≠ 0 := fun hlen =>
    h.named c (List.length_eq_zero_iff.mp hlen)
  have hnew : ∀ id q, (s.connectOne c).manager.moSessionIDs.lookup id = some q ↔
      id = s.newID 0 ∧ q = (c, s.made c) ∨ s.manager.moSessionIDs.lookup id = some q := by
    intro id q
    have hinsert : (s.connectOne c).manager.moSessionIDs =
        s.manager.moSessionIDs.insert (s.newID 0) (c, s.made c) := by
      simp [Connectors.connectOne, CSessionManager.insert, sessionData]
    rw [hinsert]
    rcases eq_or_ne id (s.newID 0) with rfl | hne
    · simp [hfresh, eq_comm]
    · simp [Finmap.lookup_insert_of_ne _ hne, hne]
  have hold : ∀ id q, s.manager.moSessionIDs.lookup id = some q → q ≠ (c, s.made c) := by
    rintro id q hq rfl
    have hin : s.IsIn (c, s.made c) := by
      unfold IsIn
      rwa [h.sessionID id _ hq]
    exact absurd (h.made _ hin) (Nat.lt_irrefl _)
  have hid : ∀ q, q ≠ (c, s.made c) → (s.connectOne c).muSessionID q = s.muSessionID q :=
    fun q hne => Function.update_of_ne hne ..
  have hid_new : (s.connectOne c).muSessionID (c, s.made c) = s.newID 0 :=
    Function.update_self ..
  refine ⟨fun id q hq => ?_, fun q hq => ?_, fun q hmade hopen => ?_, fun name id => ?_,
    h.named⟩
  · rcases (hnew id q).mp hq with ⟨rfl, rfl⟩ | hq
    · exact hid_new
    · rw [hid q (hold id q hq)]
      exact h.sessionID id q hq
  · have hgrow : s.made q.1 ≤ (s.connectOne c).made q.1 := by
      rcases eq_or_ne q.1 c with heq | hne
      · simp [Connectors.connectOne, heq]
      · simp [Connectors.connectOne, Function.update_of_ne hne]
    rcases (hnew _ q).mp hq with ⟨-, rfl⟩ | hq
    · simp [Connectors.connectOne]
    · have hin : s.IsIn q := by
        unfold IsIn
        rwa [h.sessionID _ q hq]
      exact Nat.lt_of_lt_of_le (h.made q hin) hgrow
  · refine (hnew _ q).mpr ?_
    rcases eq_or_ne q (c, s.made c) with rfl | hne
    · exact Or.inl ⟨hid_new, rfl⟩
    · right
      rw [hid q hne]
      refine h.isIn q ?_ ?_
      · rcases eq_or_ne q.1 c with heq | hne'
        · simp only [Connectors.connectOne, heq, Function.update_self] at hmade
          have hlast : q.2 ≠ s.made c := fun hlast => hne (Prod.ext heq hlast)
          rw [heq]
          omega
        · simpa [Connectors.connectOne, Function.update_of_ne hne'] using hmade
      · simpa [Connectors.connectOne, Function.update_of_ne hne] using hopen
  · have hinsert : (s.connectOne c).manager.moGroups =
        s.manager.moGroups.insert (s.connector c).moName
          (insert (s.newID 0) ((s.manager.moGroups.lookup (s.connector c).moName).getD ∅)) := by
      have hgroup : s.manager.groupName (s.connector c).moName = (s.connector c).moName :=
        if_neg hname
      simp only [Connectors.connectOne, CSessionManager.insert, CSessionManager.insertGroup,
        sessionData, Function.update_self]
      rw [hgroup]
    have hbefore := h.inGroup name id
    simp only [hnew]
    rw [hinsert]
    rcases eq_or_ne name (s.connector c).moName with rfl | hne
    · rw [Finmap.lookup_insert, Option.getD_some, Finset.mem_insert, hbefore]
      constructor
      · rintro (rfl | ⟨q, hq, hqname⟩)
        · exact ⟨(c, s.made c), Or.inl ⟨rfl, rfl⟩, rfl⟩
        · exact ⟨q, Or.inr hq, hqname⟩
      · rintro ⟨q, ⟨rfl, rfl⟩ | hq, hqname⟩
        · exact Or.inl rfl
        · exact Or.inr ⟨q, hq, hqname⟩
    · rw [Finmap.lookup_insert_of_ne _ hne, hbefore]
      constructor
      · rintro ⟨q, hq, hqname⟩
        exact ⟨q, Or.inr hq, hqname⟩
      · rintro ⟨q, ⟨rfl, rfl⟩ | hq, hqname⟩
        · exact absurd hqname.symm hne
        · exact ⟨q, hq, hqname⟩

theorem Fresh.connectOne (hfresh : s.Fresh (k + 1)) (c : κ) : (s.connectOne c).Fresh k := by
  have hnext : ∀ i, (s.connectOne c).newID i = s.newID (i + 1) := by
    intro i
    have hcount : s.mu64SessionID + 2 + 2 * UInt64.ofNat i + 1 =
        s.mu64SessionID + 2 * UInt64.ofNat (i + 1) + 1 := by
      rw [UInt64.ofNat_add, UInt64.mul_add, UInt64.add_assoc s.mu64SessionID,
        UInt64.add_comm 2]
      rfl
    exact congrArg (fun n : UInt64 => n.toUInt32.toUInt64) hcount
  intro i hi
  obtain ⟨hnone, hother⟩ := hfresh (i + 1) (Nat.succ_lt_succ hi)
  rw [hnext]
  refine ⟨?_, fun j hj => ?_⟩
  · have hinsert : (s.connectOne c).manager.moSessionIDs =
        s.manager.moSessionIDs.insert (s.newID 0) (c, s.made c) := by
      simp [Connectors.connectOne, CSessionManager.insert, sessionData]
    rw [hinsert, Finmap.lookup_insert_of_ne _ (hother 0 (Nat.succ_pos i)).symm]
    exact hnone
  · rw [hnext]
    exact hother (j + 1) (Nat.succ_lt_succ hj)

theorem Sound.connectLoop (h : s.Sound) (c : κ) (hfresh : s.Fresh k) :
    (connectLoop c k s).Sound := by
  induction k generalizing s with
  | zero => exact h
  | succ k ih =>
    exact ih (h.connectOne c (hfresh 0 (Nat.succ_pos k)).1) (hfresh.connectOne c)

theorem connectLoop_connector (c : κ) (k : Nat) (s : Connectors κ) :
    (connectLoop c k s).connector = s.connector := by
  induction k generalizing s with
  | zero => rfl
  | succ k ih => exact ih (s.connectOne c)

/-- The sessions there are stay as they are. -/
theorem connectLoop_mbClosed (c : κ) (k : Nat) (s : Connectors κ) (hp : p.2 < s.made p.1) :
    (connectLoop c k s).mbClosed p = s.mbClosed p := by
  induction k generalizing s with
  | zero => rfl
  | succ k ih =>
    have hne : p ≠ (c, s.made c) := by
      rintro rfl
      exact Nat.lt_irrefl _ hp
    have hmade : p.2 < (s.connectOne c).made p.1 := by
      rcases eq_or_ne p.1 c with heq | hne'
      · rw [heq] at hp
        simp only [Connectors.connectOne, heq, Function.update_self]
        omega
      · simpa [Connectors.connectOne, Function.update_of_ne hne'] using hp
    rw [Connectors.connectLoop, ih _ hmade]
    exact Function.update_of_ne hne ..

theorem numOpen_connectOne (s : Connectors κ) (c : κ) :
    (s.connectOne c).numOpen c = s.numOpen c + 1 := by
  have hmade : (s.connectOne c).made c = s.made c + 1 := Function.update_self ..
  have hclosed : ∀ n, (s.connectOne c).mbClosed (c, n) =
      if n = s.made c then false else s.mbClosed (c, n) := by
    intro n
    simp [Connectors.connectOne, Function.update_apply]
  have hold : (Finset.range (s.made c)).filter
      (fun n => (s.connectOne c).mbClosed (c, n) = false) =
        (Finset.range (s.made c)).filter fun n => s.mbClosed (c, n) = false := by
    apply Finset.filter_congr
    intro n hn
    rw [hclosed, if_neg (Finset.mem_range.mp hn).ne]
  rw [numOpen, numOpen, hmade, Finset.range_add_one, Finset.filter_insert, hold, hclosed,
    if_pos rfl, if_pos rfl, Finset.card_insert_of_notMem]
  simp

theorem numOpen_connectLoop (c : κ) (k : Nat) (s : Connectors κ) :
    (connectLoop c k s).numOpen c = s.numOpen c + k := by
  induction k generalizing s with
  | zero => rfl
  | succ k ih =>
    rw [connectLoop, ih, numOpen_connectOne]
    omega

/-! # The surplus -/

/-- The session is one of `k` at the places from `start` on, around the table. -/
def InTurn (table : List (κ × Nat)) (start k : Nat) (p : κ × Nat) : Prop :=
  ∃ j < k, table[(start + j) % table.length]? = some p

omit [DecidableEq κ] in
theorem inTurn_succ {table : List (κ × Nat)} {start : Nat}
    (hp : table[(start + k) % table.length]? = some p) :
    InTurn table start (k + 1) q ↔ InTurn table start k q ∨ q = p := by
  constructor
  · rintro ⟨j, hj, hq⟩
    rcases Nat.lt_succ_iff_lt_or_eq.mp hj with hlt | rfl
    · exact Or.inl ⟨j, hlt, hq⟩
    · exact Or.inr (Option.some.inj (hq.symm.trans hp))
  · rintro (⟨j, hj, hq⟩ | rfl)
    · exact ⟨j, Nat.lt_succ_of_lt hj, hq⟩
    · exact ⟨k, Nat.lt_succ_self k, hp⟩

/-- Places less than a turn apart are different. -/
theorem add_mod_inj {start n i j : Nat} (hi : i < n) (hj : j < n)
    (h : (start + i) % n = (start + j) % n) : i = j := by
  have hmod : i ≡ j [MOD n] := Nat.ModEq.add_left_cancel' start h
  rwa [Nat.ModEq, Nat.mod_eq_of_lt hi, Nat.mod_eq_of_lt hj] at hmod

/-- `Remove` closes the sessions that are next in turn, `j` of which it has closed. -/
theorem remove_inTurn (k j : Nat) (hnodup : s.manager.sessions.Nodup)
    (hopen : ∀ p ∈ s.manager.sessions, s.mbClosed p = false) (mbClosed : κ × Nat → Bool)
    (muCount : Nat) (hj : j + k ≤ s.manager.sessions.length)
    (hclosed : ∀ p, mbClosed p = true ↔
      s.mbClosed p = true ∨ InTurn s.manager.sessions s.muCount j p)
    (hcount : muCount % s.manager.sessions.length =
      (s.muCount + j) % s.manager.sessions.length) :
    ∃ mbClosed' muCount',
      remove k { s with mbClosed, muCount } =
        some { s with mbClosed := mbClosed', muCount := muCount' } ∧
      ∀ p, mbClosed' p = true ↔
        s.mbClosed p = true ∨ InTurn s.manager.sessions s.muCount (j + k) p := by
  induction k generalizing j mbClosed muCount with
  | zero => exact ⟨mbClosed, muCount, rfl, hclosed⟩
  | succ k ih =>
    have hpos : 0 < s.manager.sessions.length := by omega
    have hne : s.manager.moSessionIDs ≠ ∅ := by
      intro hempty
      have hlength : s.manager.sessions.length = 0 := by
        rw [CSessionManager.length_sessions, hempty]
        rfl
      omega
    obtain ⟨lpoSession, next, hfind, hnext⟩ :=
      CSessionManager.findNext_isNext s.manager mbClosed muCount hne
    rw [hcount] at hnext
    -- the next place has an open session
    have hplace := Nat.mod_lt (s.muCount + j) hpos
    obtain ⟨p, hp⟩ : ∃ p, s.manager.sessions[(s.muCount + j) % s.manager.sessions.length]? =
        some p := ⟨_, List.getElem?_eq_getElem hplace⟩
    have hfresh : mbClosed p = false := by
      rw [← Bool.not_eq_true, hclosed]
      rintro (hold | ⟨i, hi, hget⟩)
      · rw [hopen p (List.mem_of_getElem? hp)] at hold
        exact Bool.noConfusion hold
      · have hplace' := Nat.mod_lt (s.muCount + i) hpos
        have hsame := (List.getElem?_inj hplace' hnodup).mp (hget.trans hp.symm)
        exact hi.ne (add_mod_inj (by omega) (by omega) hsame)
    cases lpoSession with
    | none =>
      have hall := hnext.null.mp rfl p (List.mem_of_getElem? hp)
      rw [hfresh] at hall
      exact Bool.noConfusion hall
    | some q =>
      obtain ⟨i, -, hget, -, hbefore, hturn⟩ := hnext.session q rfl
      have hzero : i = 0 := by
        by_contra hne
        have hall := hbefore 0 (Nat.pos_of_ne_zero hne) p (by rwa [Nat.add_zero, Nat.mod_mod])
        rw [hfresh] at hall
        exact Bool.noConfusion hall
      subst hzero
      rw [Nat.add_zero, Nat.mod_mod, hp] at hget
      obtain rfl := Option.some.inj hget
      have hstep : remove (k + 1) { s with mbClosed, muCount } =
          remove k { s with mbClosed := Function.update mbClosed p true, muCount := next } := by
        simp only [remove, hfind, Option.bind_some, close]
      rw [hstep, show j + (k + 1) = j + 1 + k by omega]
      refine ih (j + 1) _ _ (by omega) (fun r => ?_) ?_
      · rw [inTurn_succ hp]
        rcases eq_or_ne r p with rfl | hne
        · simp
        · simp [hclosed, hne]
      · rw [hturn, Nat.add_zero, Nat.mod_add_mod, Nat.add_assoc]

omit [DecidableEq κ] in
/-- What `Remove` has closed, if the connector's own sessions are next in turn. -/
theorem numOpen_remove (s' : Connectors κ) (h : s.Sound)
    (hopen : ∀ p ∈ s.manager.sessions, s.mbClosed p = false)
    (hk : k ≤ s.manager.sessions.length) (hown : s.NextOwn c k)
    (hmade : s'.made = s.made)
    (hclosed : ∀ p, s'.mbClosed p = true ↔
      s.mbClosed p = true ∨ InTurn s.manager.sessions s.muCount k p) :
    s'.numOpen c + k = s.numOpen c := by
  have hget : ∀ j < k, ∃ n, s.manager.sessions[
      (s.muCount + j) % s.manager.sessions.length]? = some (c, n) := by
    intro j hj
    have hplace := Nat.mod_lt (s.muCount + j) (show 0 < s.manager.sessions.length by omega)
    refine ⟨(s.manager.sessions[(s.muCount + j) % s.manager.sessions.length]).2, ?_⟩
    rw [List.getElem?_eq_getElem hplace]
    exact congrArg some (Prod.ext (hown j hj _ (List.getElem?_eq_getElem hplace)) rfl)
  choose! serial hserial using hget
  have hinj : Set.InjOn serial (Finset.range k) := by
    intro i hi j hj heq
    rw [Finset.coe_range, Set.mem_Iio] at hi hj
    have hplace := Nat.mod_lt (s.muCount + i) (show 0 < s.manager.sessions.length by omega)
    have hsame := (List.getElem?_inj hplace h.nodup_sessions).mp
      ((hserial i hi).trans ((congrArg (fun n => some (c, n)) heq).trans (hserial j hj).symm))
    exact add_mod_inj (by omega) (by omega) hsame
  have hturn : ∀ n, InTurn s.manager.sessions s.muCount k (c, n) ↔
      n ∈ (Finset.range k).image serial := by
    intro n
    rw [Finset.mem_image]
    constructor
    · rintro ⟨j, hj, hn⟩
      rw [hserial j hj] at hn
      cases hn
      exact ⟨j, Finset.mem_range.mpr hj, rfl⟩
    · rintro ⟨j, hj, rfl⟩
      exact ⟨j, Finset.mem_range.mp hj, hserial j (Finset.mem_range.mp hj)⟩
  have hsub : (Finset.range k).image serial ⊆
      (Finset.range (s.made c)).filter fun n => s.mbClosed (c, n) = false := by
    intro n hn
    obtain ⟨j, hj, rfl⟩ := Finset.mem_image.mp hn
    have hmem := List.mem_of_getElem? (hserial j (Finset.mem_range.mp hj))
    exact Finset.mem_filter.mpr ⟨Finset.mem_range.mpr (h.made _ (h.mem_sessions.mp hmem)),
      hopen _ hmem⟩
  have hleft : (Finset.range (s'.made c)).filter (fun n => s'.mbClosed (c, n) = false) =
      ((Finset.range (s.made c)).filter fun n => s.mbClosed (c, n) = false) \
        (Finset.range k).image serial := by
    ext n
    rw [Finset.mem_filter, Finset.mem_sdiff, Finset.mem_filter, ← hturn, hmade,
      ← Bool.not_eq_true, hclosed, not_or, Bool.not_eq_true, and_assoc]
  have hcard := Finset.card_sdiff_add_card_eq_card hsub
  rw [Finset.card_image_of_injOn hinj, Finset.card_range] at hcard
  rw [numOpen, numOpen, hleft]
  exact hcard

/-! # The pool -/

omit [DecidableEq κ] in
theorem numNamed_le (s : Connectors κ) (c : κ) : s.numNamed c ≤ s.manager.sessions.length :=
  List.countP_le_length

/-- `HandleChanged`, where the manager has no closed session. -/
theorem Sound.handleChanged_eq (h : s.Sound) (htries : s.Tries c sec)
    (hopen : ∀ p ∈ s.manager.sessions, s.mbClosed p = false) :
    s.handleChanged c sec =
      if (s.connector c).miSessionNum < s.numNamed c then
        remove (s.numNamed c - (s.connector c).miSessionNum).toNat s
      else if s.numNamed c < (s.connector c).miSessionNum then some (s.connect c sec)
      else some s := by
  have herase : s.manager.eraseClosed s.mbClosed = some s.manager := by
    rcases h.eraseClosed with ⟨-, herase⟩ | ⟨hnot, -⟩
    · exact herase
    · exact absurd hopen hnot
  unfold handleChanged
  rw [if_neg (not_not.mpr htries), herase, Option.bind_some]
  dsimp only
  rw [h.getSizeIn]

/-- A surplus. -/
theorem Sound.keepsPool_remove (h : s.Sound) (htries : s.Tries c sec)
    (hopen : ∀ p ∈ s.manager.sessions, s.mbClosed p = false)
    (hnum : 0 ≤ (s.connector c).miSessionNum)
    (hmany : (s.connector c).miSessionNum < s.numNamed c) :
    s.KeepsPool c sec ↔ s.numIn c = s.numNamed c ∧
      s.NextOwn c (s.numNamed c - (s.connector c).miSessionNum.toNat) := by
  have hle := s.numNamed_le c
  obtain ⟨mbClosed, muCount, hremove, hclosed⟩ := remove_inTurn
    (s.numNamed c - (s.connector c).miSessionNum.toNat) 0 h.nodup_sessions hopen
    s.mbClosed s.muCount (by omega) (fun p => by simp [InTurn]) rfl
  rw [Nat.zero_add] at hclosed
  have hhandle : s.handleChanged c sec =
      some { s with mbClosed := mbClosed, muCount := muCount } := by
    rw [h.handleChanged_eq htries hopen, if_pos hmany, ← hremove]
    congr 1
    omega
  have hnumOpen := h.numOpen_eq hopen c
  constructor
  · rintro ⟨s', hs', hcount, hothers⟩
    obtain rfl := Option.some.inj (hhandle.symm.trans hs')
    have hown : s.NextOwn c (s.numNamed c - (s.connector c).miSessionNum.toNat) := by
      intro j hj p hp
      by_contra hne
      have hmem := List.mem_of_getElem? hp
      have hstays : mbClosed p = false :=
        hothers p hne (h.made p (h.mem_sessions.mp hmem)) (hopen p hmem)
      have hgone := (hclosed p).mpr (Or.inr ⟨j, hj, hp⟩)
      rw [hstays] at hgone
      exact Bool.noConfusion hgone
    have hrest := numOpen_remove { s with mbClosed := mbClosed, muCount := muCount } h hopen
      (by omega) hown rfl hclosed
    exact ⟨by omega, hown⟩
  · rintro ⟨hall, hown⟩
    have hrest := numOpen_remove { s with mbClosed := mbClosed, muCount := muCount } h hopen
      (by omega) hown rfl hclosed
    refine ⟨_, hhandle, by omega, fun p hne hp hopen' => ?_⟩
    rw [← Bool.not_eq_true]
    intro hgone
    rcases (hclosed p).mp hgone with hold | ⟨j, hj, hp⟩
    · rw [hopen'] at hold
      exact Bool.noConfusion hold
    · exact hne (hown j hj p hp)

/-- A deficit. -/
theorem Sound.keepsPool_connect (h : s.Sound) (htries : s.Tries c sec)
    (hopen : ∀ p ∈ s.manager.sessions, s.mbClosed p = false)
    (hfew : s.numNamed c < (s.connector c).miSessionNum) :
    s.KeepsPool c sec ↔ s.numIn c = 0 := by
  have hhandle : s.handleChanged c sec = some (s.connect c sec) := by
    rw [h.handleChanged_eq htries hopen, if_neg (by omega), if_pos hfew]
  have hcount : (s.connect c sec).numOpen c =
      s.numIn c + (s.connector c).miSessionNum.toNat := by
    rw [← h.numOpen_eq hopen c]
    exact numOpen_connectLoop c _ s
  constructor
  · rintro ⟨s', hs', hnum, -⟩
    obtain rfl := Option.some.inj (hhandle.symm.trans hs')
    omega
  · intro hnone
    refine ⟨_, hhandle, by omega, fun p hne hp hopen' => ?_⟩
    exact (connectLoop_mbClosed c _ s hp).trans hopen'

/-- `HandleChanged` keeps the pool just when it finds what it has to. -/
theorem Sound.keepsPool_iff (h : s.Sound) (htries : s.Tries c sec) :
    s.KeepsPool c sec ↔ s.Settled c := by
  rcases h.eraseClosed with ⟨hopen, -⟩ | ⟨hnot, hnone⟩
  rotate_left
  · refine iff_of_false ?_ fun hsettled => hnot hsettled.allOpen
    rintro ⟨s', hs', -⟩
    unfold handleChanged at hs'
    rw [if_neg (not_not.mpr htries), hnone] at hs'
    cases hs'
  have hsettled : ∀ {P : Prop}, (s.Settled c → P) → (P →
      (s.connector c).miSessionNum = s.numNamed c ∧ s.numIn c = s.numNamed c ∨
        (s.numNamed c : Int) < (s.connector c).miSessionNum ∧ s.numIn c = 0 ∨
        0 ≤ (s.connector c).miSessionNum ∧ (s.connector c).miSessionNum < s.numNamed c ∧
          s.numIn c = s.numNamed c ∧
          s.NextOwn c (s.numNamed c - (s.connector c).miSessionNum.toNat)) →
      (P ↔ s.Settled c) := fun hto hfrom => ⟨fun hP => ⟨hopen, hfrom hP⟩, hto⟩
  rcases lt_trichotomy (s.connector c).miSessionNum (s.numNamed c) with hmany | heq | hfew
  · rcases lt_or_ge (s.connector c).miSessionNum 0 with hneg | hnum
    · refine iff_of_false ?_ fun hsettled => ?_
      · rintro ⟨s', -, hcount, -⟩
        omega
      · rcases hsettled.balance with ⟨heq, -⟩ | ⟨hfew, -⟩ | ⟨hnum, -⟩
        · omega
        · omega
        · omega
    · rw [h.keepsPool_remove htries hopen hnum hmany]
      refine hsettled (fun hsettled => ?_) fun hown => Or.inr (Or.inr ⟨hnum, hmany, hown⟩)
      rcases hsettled.balance with ⟨heq, -⟩ | ⟨hfew, -⟩ | ⟨-, -, hown⟩
      · omega
      · omega
      · exact hown
  · have hhandle : s.handleChanged c sec = some s := by
      rw [h.handleChanged_eq htries hopen, if_neg (by omega), if_neg (by omega)]
    have hnumOpen := h.numOpen_eq hopen c
    refine hsettled (fun hsettled => ⟨s, hhandle, ?_, fun _ _ _ hopen' => hopen'⟩) ?_
    · rcases hsettled.balance with ⟨-, hall⟩ | ⟨hfew, -⟩ | ⟨-, hmany, -⟩
      · omega
      · omega
      · omega
    · rintro ⟨s', hs', hcount, -⟩
      obtain rfl := Option.some.inj (hhandle.symm.trans hs')
      exact Or.inl ⟨heq, by omega⟩
  · rw [h.keepsPool_connect htries hopen hfew]
    refine hsettled (fun hsettled => ?_) fun hnone => Or.inr (Or.inl ⟨hfew, hnone⟩)
    rcases hsettled.balance with ⟨heq, -⟩ | ⟨-, hnone⟩ | ⟨-, hmany, -⟩
    · omega
    · exact hnone
    · omega

/-- `Remove` closes sessions and nothing else. -/
theorem Sound.remove (h : s.Sound) (hremove : remove k s = some s') : s'.Sound := by
  induction k generalizing s with
  | zero =>
    cases hremove
    exact h
  | succ k ih =>
    obtain ⟨⟨lpoSession, muCount⟩, -, hrest⟩ := Option.bind_eq_some_iff.mp hremove
    have hcount : ({ s with muCount } : Connectors κ).Sound :=
      h.congr rfl rfl rfl (fun _ hp => hp) fun _ => rfl
    cases lpoSession with
    | none => exact ih hcount hrest
    | some p => exact ih (hcount.close p) hrest

theorem Sound.connect (h : s.Sound) (c : κ) (sec : Int)
    (hfresh : s.Fresh (s.connector c).miSessionNum.toNat) : (s.connect c sec).Sound := by
  refine (h.connectLoop c hfresh).congr rfl rfl rfl (fun _ hp => hp) fun c' => ?_
  rw [connectLoop_connector]
  simp only [Connectors.connect, connectLoop_connector]
  rcases eq_or_ne c' c with rfl | hne
  · rw [Function.update_self]
  · rw [Function.update_of_ne hne]

theorem Sound.handleChanged (h : s.Sound)
    (hfresh : s.Tries c sec → (s.numNamed c : Int) < (s.connector c).miSessionNum →
      s.Fresh (s.connector c).miSessionNum.toNat)
    (hstep : s.handleChanged c sec = some s') : s'.Sound := by
  by_cases htries : s.Tries c sec
  rotate_left
  · unfold Connectors.handleChanged at hstep
    rw [if_pos htries] at hstep
    cases hstep
    exact h
  rcases h.eraseClosed with ⟨hopen, -⟩ | ⟨-, hnone⟩
  rotate_left
  · unfold Connectors.handleChanged at hstep
    rw [if_neg (not_not.mpr htries), hnone] at hstep
    cases hstep
  rw [h.handleChanged_eq htries hopen] at hstep
  split at hstep
  · exact h.remove hstep
  · split at hstep
    · next hfew =>
      cases hstep
      exact h.connect c sec (hfresh htries hfew)
    · cases hstep
      exact h

/-- From any state in order: the pools are kept just when every `HandleChanged` finds what it has
to. -/
theorem Sound.keptRun_iff (h : s.Sound) (ops : List (Op κ)) (hfresh : s.FreshRun ops) :
    s.Kept ops ↔ s.SettledRun ops := by
  induction ops generalizing s with
  | nil => exact Iff.rfl
  | cons op ops ih =>
    obtain ⟨hids, hrest⟩ := hfresh
    have hsound : ∀ s', s.step op = some s' → s'.Sound := by
      intro s' hstep
      cases op with
      | close p =>
        cases hstep
        exact h.close p
      | lose p =>
        cases hstep
        exact h.lose p
      | setSessionNum c aiSessionNum =>
        cases hstep
        exact h.setSessionNum c aiSessionNum
      | handleChanged c sec => exact h.handleChanged (hids c sec rfl) hstep
    unfold Kept SettledRun
    refine and_congr ?_ ?_
    · constructor
      · intro hkeeps c sec hop htries
        exact (h.keepsPool_iff htries).mp (hkeeps c sec hop htries)
      · intro hsettled c sec hop htries
        exact (h.keepsPool_iff htries).mpr (hsettled c sec hop htries)
    · constructor
      · intro hkept s' hstep
        exact (ih (hsound s' hstep) (hrest s' hstep)).mp (hkept s' hstep)
      · intro hsettled s' hstep
        exact (ih (hsound s' hstep) (hrest s' hstep)).mpr (hsettled s' hstep)

end

/-- Every run of connectors that have names, in which ids are not used again too early, keeps the
pools just when every `HandleChanged` finds all of the connector's sessions or none, or a surplus
that is next in turn, and no closed session. -/
theorem poolsKept_iff (connector : κ → CIoConnector) (mu64SessionID : UInt64) (muCount : Nat)
    (ops : List (Op κ)) (hnamed : ∀ c, (connector c).moName ≠ [])
    (hfresh : (init connector mu64SessionID muCount).FreshRun ops) :
    (init connector mu64SessionID muCount).Kept ops ↔
      (init connector mu64SessionID muCount).SettledRun ops :=
  (sound_init connector mu64SessionID muCount hnamed).keptRun_iff ops hfresh

/-- A connector that is to have two sessions. -/
def twoWanted (_ : Unit) : CIoConnector where
  moName := [97]
  moRemote := ⟨0x7f000001, 80⟩
  muRetry := 0
  muRetryInterval := 0
  muRetryed := 0
  miSessionNum := 2
  mi64LastTry := 0

theorem kept_twoWanted : (init twoWanted 1 0).Kept [.handleChanged () 0] := by
  refine (poolsKept_iff twoWanted 1 0 [.handleChanged () 0]
    (fun _ => List.cons_ne_nil _ _) ?_).mpr ?_
  · refine ⟨fun c sec _ _ _ i hi => ⟨Finmap.lookup_empty _, ?_⟩, fun _ _ => trivial⟩
    change i < 2 at hi
    intro j hj
    obtain ⟨rfl, rfl⟩ : i = 1 ∧ j = 0 := by omega
    decide
  · have hempty : (init twoWanted 1 0).manager.sessions = [] :=
      List.eq_nil_of_length_eq_zero ((CSessionManager.length_sessions _).trans rfl)
    refine ⟨fun c sec _ _ => ⟨fun _ _ => rfl, Or.inr (Or.inl ⟨?_, ?_⟩)⟩, fun _ _ => trivial⟩
    · rw [numNamed, hempty]
      exact (by decide : ((0 : Nat) : Int) < 2)
    · rw [numIn, hempty]
      rfl

/-- It has two, loses one, and gets two. -/
theorem not_kept_twoWanted : ¬ (init twoWanted 1 0).Kept
    [.handleChanged () 0, .lose ((), 0), .handleChanged () 1] := by
  intro h
  have hthree : (((init twoWanted 1 0).handleChanged () 0).bind fun s =>
      ((s.lose ((), 0)).handleChanged () 1).map fun s => s.numOpen ()) = some 3 := by
    decide +kernel
  have htries : ((init twoWanted 1 0).handleChanged () 0).all (fun s =>
      (s.lose ((), 0)).Tries () 1 ∧ ((s.lose ((), 0)).connector ()).miSessionNum = 2) = true := by
    decide +kernel
  obtain ⟨s, hs, hthree⟩ := Option.bind_eq_some_iff.mp hthree
  obtain ⟨s', hs', hthree⟩ := Option.map_eq_some_iff.mp hthree
  rw [hs, Option.all_some, decide_eq_true_eq] at htries
  obtain ⟨htries, htwo⟩ := htries
  obtain ⟨s'', hs'', hnum, -⟩ := ((h.2 s hs).2 _ rfl).1 () 1 rfl htries
  obtain rfl := Option.some.inj (hs'.symm.trans hs'')
  rw [hthree, htwo] at hnum
  exact absurd hnum (by decide)

end Connectors

end Netfram
