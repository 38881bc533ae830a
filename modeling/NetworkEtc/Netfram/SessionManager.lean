-- SUMMARY: The registry of sessions: by id, by remote address, and by group, and when the three agree.
import Mathlib.Data.Finmap
import Mathlib.Data.Finset.Card
import Mathlib.Data.Finset.Sort
import NetworkEtc.Library.Printf
import NetworkEtc.Netfram.SockAddr

/-!
# `CSessionManager`

The manager keeps three maps by hand. A session of a service without a name is put into
a group whose name is made up at that moment.
-/

namespace Netfram

open Library Library.Printf

/-- The sessions there are, each with the name of its service. -/
structure SessionData (σ : Type) where
  sessionID : σ → UInt64
  remote : σ → SockAddr
  serviceName : σ → List UInt8

/-- Sessions of which no two have the same id or the same remote address. -/
structure Sessions (σ : Type) extends SessionData σ where
  sessionID_injective : Function.Injective sessionID
  remote_injective : Function.Injective remote

/-- The maps of the manager; the counter of made up names has eight bits. -/
structure CSessionManager (σ : Type) where
  moIdenties : Finmap fun _ : UInt64 => UInt64
  moSessionIDs : Finmap fun _ : UInt64 => σ
  moGroups : Finmap fun _ : List UInt8 => Finset UInt64
  muUNameCount : UInt8

namespace CSessionManager

variable {σ : Type}

def init : CSessionManager σ := ⟨∅, ∅, ∅, 0⟩

/-- The text `Default%d` in ten bytes, with the zero at the end. -/
def defaultName (count : UInt8) : List UInt8 :=
  (text "Default%u".toList [.unsigned count.toUInt32]).take 9

/-- `moGroups[name].insert(id)` -/
def insertGroup (m : CSessionManager σ) (name : List UInt8) (id : UInt64) : CSessionManager σ :=
  { m with moGroups := m.moGroups.insert name (Insert.insert id ((m.moGroups.lookup name).getD ∅)) }

/-- The group a session is put into. -/
def groupName (m : CSessionManager σ) (name : List UInt8) : List UInt8 :=
  if name.length = 0 then defaultName m.muUNameCount else name

/-- `Insert` -/
def insert (ss : SessionData σ) (m : CSessionManager σ) (apoSession : σ) : CSessionManager σ :=
  let loGroupName := ss.serviceName apoSession
  let liSessionID := ss.sessionID apoSession
  let m' := m.insertGroup (m.groupName loGroupName) liSessionID
  { m' with
    muUNameCount := if loGroupName.length = 0 then m.muUNameCount + 1 else m.muUNameCount
    moIdenties := m.moIdenties.insert (ss.remote apoSession).getID liSessionID
    moSessionIDs := m.moSessionIDs.insert liSessionID apoSession }

/-- `Erase(uint64_t)`: whether there was a session with the id. -/
def erase (ss : SessionData σ) (m : CSessionManager σ) (au64SessionID : UInt64) :
    Bool × CSessionManager σ :=
  match m.moSessionIDs.lookup au64SessionID with
  | none => (false, m)
  | some lpoSession =>
    let m :=
      { m with
        moSessionIDs := m.moSessionIDs.erase au64SessionID
        moIdenties := m.moIdenties.erase (ss.remote lpoSession).getID }
    let name := ss.serviceName lpoSession
    match m.moGroups.lookup name with
    | none => (true, m)
    | some ids =>
      (true, { m with moGroups := m.moGroups.insert name (ids.erase (ss.sessionID lpoSession)) })

/-- `GetSize` -/
def getSize (m : CSessionManager σ) : Nat := m.moIdenties.keys.card

instance decidableAllOpen (m : CSessionManager σ) (closed : σ → Bool) (ids : Finset UInt64) :
    Decidable (∀ id ∈ ids,
      (m.moSessionIDs.lookup id).any (fun lpoSession => !closed lpoSession) = true) :=
  Finset.decidableDforallFinset

/-- `EraseClosed` of one group. An id without a session is a null pointer that is
dereferenced. After a closed session has been erased from the three maps, the loop goes on
with the iterator whose element it has erased: that is undefined, whatever the order. -/
def eraseClosedGroup (m : CSessionManager σ) (closed : σ → Bool) (ids : Finset UInt64) :
    Option (CSessionManager σ) :=
  if ∀ id ∈ ids, (m.moSessionIDs.lookup id).any (fun lpoSession => !closed lpoSession) then some m
  else none

/-- `EraseClosed(std::string&)` -/
def eraseClosedIn (m : CSessionManager σ) (closed : σ → Bool) (aoGroup : List UInt8) :
    Option (CSessionManager σ) :=
  match m.moGroups.lookup aoGroup with
  | none => some m
  | some ids => m.eraseClosedGroup closed ids

/-- `EraseClosed()`, over all groups; a group that comes to its end has changed nothing. -/
def eraseClosed (m : CSessionManager σ) (closed : σ → Bool) : Option (CSessionManager σ) :=
  if ∀ aoGroup ∈ m.moGroups.keys, (m.eraseClosedIn closed aoGroup).isSome then some m else none

/-- `GetSize(std::string)` -/
def getSizeIn (m : CSessionManager σ) (aoGroup : List UInt8) : Nat :=
  ((m.moGroups.lookup aoGroup).getD ∅).card

/-- The loop of `Clear(std::string&)`. Nothing moves its iterator, and nothing is erased from the
set. An id without a session is a null pointer that is dereferenced. -/
def clearLoop (ss : SessionData σ) :
    Nat → CSessionManager σ → Option UInt64 → Option (CSessionManager σ)
  | 0, _, _ => none
  | _ + 1, m, none => some m -- `loIter->second.end()`
  | fuel + 1, m, some loSetIter =>
    (m.moSessionIDs.lookup loSetIter).bind fun lpoSession =>
      clearLoop ss fuel
        { m with
          moIdenties := m.moIdenties.erase (ss.remote lpoSession).getID
          moSessionIDs := m.moSessionIDs.erase loSetIter }
        (some loSetIter)

/-- `Clear(std::string&)`. To erase at `end()` is undefined. -/
def clear (ss : SessionData σ) (m : CSessionManager σ) (aoGroup : List UInt8) (fuel : Nat) :
    Option (CSessionManager σ) :=
  match m.moGroups.lookup aoGroup with
  | none => none -- `this->moGroups.erase(loIter)`
  | some ids =>
    if ids.card = 0 then some m
    else
      (clearLoop ss fuel m ids.sort.head?).map fun m =>
        { m with moGroups := m.moGroups.erase aoGroup }

/-- The sessions of `moSessionIDs`, in its order. -/
def sessions (m : CSessionManager σ) : List σ :=
  m.moSessionIDs.keys.sort.filterMap fun id => m.moSessionIDs.lookup id

-- ---------------------------------------------------------------------------
-- Clearing a group
-- ---------------------------------------------------------------------------

/-- The sessions of the group have been removed, and nothing else. -/
structure Cleared (m m' : CSessionManager σ) (aoGroup : List UInt8) : Prop where
  group : (m'.moGroups.lookup aoGroup).getD ∅ = ∅
  groups : ∀ name, name ≠ aoGroup → m'.moGroups.lookup name = m.moGroups.lookup name
  sessionIDs : ∀ id, m'.moSessionIDs.lookup id =
    if id ∈ (m.moGroups.lookup aoGroup).getD ∅ then none else m.moSessionIDs.lookup id
  identies : ∀ a, m'.moIdenties.lookup a =
    (m.moIdenties.lookup a).filter (· ∉ (m.moGroups.lookup aoGroup).getD ∅)
  absent : m.moGroups.lookup aoGroup = none → m' = m

/-- `Clear` comes to an end, and has removed the sessions of the group. -/
def Clears (ss : SessionData σ) (m : CSessionManager σ) (aoGroup : List UInt8) : Prop :=
  ∃ fuel m', m.clear ss aoGroup fuel = some m' ∧ m.Cleared m' aoGroup

section

variable {ss : SessionData σ} {m : CSessionManager σ} {aoGroup : List UInt8}

/-- The loop does not come to an end: its session is gone in the second round. -/
theorem clearLoop_some (ss : SessionData σ) (m : CSessionManager σ) (fuel : Nat) (id : UInt64) :
    clearLoop ss fuel m (some id) = none := by
  cases fuel with
  | zero => rfl
  | succ fuel =>
    rw [clearLoop]
    cases m.moSessionIDs.lookup id with
    | none => rfl
    | some p =>
      rw [Option.bind_some]
      cases fuel with
      | zero => rfl
      | succ fuel =>
        rw [clearLoop, Finmap.lookup_erase]
        rfl

theorem clear_none (fuel : Nat) (hgroup : m.moGroups.lookup aoGroup ≠ some ∅) :
    m.clear ss aoGroup fuel = none := by
  unfold clear
  cases hlookup : m.moGroups.lookup aoGroup with
  | none => rfl
  | some ids =>
    have hne : ids.card ≠ 0 := fun hcard =>
      hgroup (hlookup.trans (congrArg some (Finset.card_eq_zero.mp hcard)))
    have hpos : 0 < ids.sort.length := by
      rw [Finset.length_sort]
      exact Nat.pos_of_ne_zero hne
    have hhead : ids.sort.head? = some (ids.sort.head (List.ne_nil_of_length_pos hpos)) :=
      List.head?_eq_some_head _
    simp only [if_neg hne]
    rw [hhead, clearLoop_some, Option.map_none]

/-- A group without a session is left as it is. -/
theorem clear_empty (fuel : Nat) (hgroup : m.moGroups.lookup aoGroup = some ∅) :
    m.clear ss aoGroup fuel = some m := by
  unfold clear
  rw [hgroup]
  rfl

theorem cleared_empty (hgroup : m.moGroups.lookup aoGroup = some ∅) : m.Cleared m aoGroup := by
  refine ⟨?_, fun _ _ => rfl, fun id => ?_, fun a => ?_, fun _ => rfl⟩
  · rw [hgroup]
    rfl
  · rw [hgroup, Option.getD_some, if_neg (Finset.notMem_empty id)]
  · rw [hgroup, Option.getD_some]
    cases m.moIdenties.lookup a with
    | none => rfl
    | some id => rfl

/-- `Clear` clears a group that is there and has no sessions, and no other. -/
theorem clears_iff (ss : SessionData σ) (m : CSessionManager σ) (aoGroup : List UInt8) :
    m.Clears ss aoGroup ↔ m.moGroups.lookup aoGroup = some ∅ := by
  constructor
  · rintro ⟨fuel, m', hclear, -⟩
    by_contra hgroup
    rw [clear_none fuel hgroup] at hclear
    cases hclear
  · intro hgroup
    exact ⟨0, m, clear_empty 0 hgroup, cleared_empty hgroup⟩

/-- One session of the service `"a"`. -/
def oneNamed : SessionData Unit where
  sessionID := fun _ => 7
  remote := fun _ => ⟨0x7f000001, 80⟩
  serviceName := fun _ => [ascii 'a']

/-- Its group is not cleared. -/
theorem not_clears_oneNamed :
    ¬ ((init : CSessionManager Unit).insert oneNamed ()).Clears oneNamed [ascii 'a'] := by
  rintro ⟨fuel, m', hclear, -⟩
  have hgroup : ((init : CSessionManager Unit).insert oneNamed ()).moGroups.lookup [ascii 'a'] =
      some {7} := rfl
  rw [clear_none fuel (by rw [hgroup]; decide)] at hclear
  cases hclear

end

-- ---------------------------------------------------------------------------
-- Runs
-- ---------------------------------------------------------------------------

variable [DecidableEq σ]

/-- The calls. Which sessions are closed by then is not the manager's to say. -/
inductive Call (σ : Type) where
  | insert (apoSession : σ)
  | erase (au64SessionID : UInt64)
  | eraseClosed (closed : σ → Bool)
  | eraseClosedIn (closed : σ → Bool) (aoGroup : List UInt8)

/-- The manager, with the sessions that were inserted and not erased since. -/
structure Use (σ : Type) where
  manager : CSessionManager σ
  inserted : Finset σ

namespace Use

def init : Use σ := ⟨.init, ∅⟩

/-- One call; `none` where it does what is undefined. -/
def step (ss : Sessions σ) (u : Use σ) : Call σ → Option (Use σ)
  | .insert p => some ⟨u.manager.insert ss.toSessionData p, Insert.insert p u.inserted⟩
  | .erase id =>
    some ⟨(u.manager.erase ss.toSessionData id).2, u.inserted.filter fun p => ss.sessionID p ≠ id⟩
  | .eraseClosed closed =>
    (u.manager.eraseClosed closed).map fun m => ⟨m, u.inserted.filter fun p => closed p = false⟩
  | .eraseClosedIn closed name =>
    (u.manager.eraseClosedIn closed name).map fun m =>
      ⟨m, u.inserted.filter fun p => closed p = true →
        ss.sessionID p ∉ (u.manager.moGroups.lookup name).getD ∅⟩

/-- An id is in a group. -/
def InGroup (u : Use σ) (name : List UInt8) (id : UInt64) : Prop :=
  ∃ ids, u.manager.moGroups.lookup name = some ids ∧ id ∈ ids

/-- The three maps agree. -/
structure Agree (u : Use σ) : Prop where
  groups : ∀ id, (∃ name, u.InGroup name id) ↔ id ∈ u.manager.moSessionIDs.keys
  identies : ∀ id, (∃ a, u.manager.moIdenties.lookup a = some id) ↔ id ∈ u.manager.moSessionIDs.keys
  disjoint : ∀ name name' id, u.InGroup name id → u.InGroup name' id → name = name'
  size : u.manager.getSize = u.inserted.card

/-- What a call must not do: insert a session of an unnamed service again while it is in,
unless the new group is the one it is in; erase one by its id; or come upon a closed
session in `EraseClosed`. -/
def Harmless (ss : Sessions σ) (u : Use σ) : Call σ → Prop
  | .insert p => ss.serviceName p = [] → p ∈ u.inserted →
      u.InGroup (u.manager.groupName (ss.serviceName p)) (ss.sessionID p)
  | .erase id => ∀ p ∈ u.inserted, ss.sessionID p = id → ss.serviceName p ≠ []
  | .eraseClosed closed => ∀ p ∈ u.inserted, closed p = false
  | .eraseClosedIn closed name => ∀ p ∈ u.inserted, u.InGroup name (ss.sessionID p) → closed p = false

def HarmlessRun (ss : Sessions σ) (u : Use σ) : List (Call σ) → Prop
  | [] => True
  | call :: calls => u.Harmless ss call ∧ ∀ u' ∈ u.step ss call, HarmlessRun ss u' calls

/-- No call of the run does what is undefined, and the maps agree after each. -/
def AgreeRun (ss : Sessions σ) (u : Use σ) : List (Call σ) → Prop
  | [] => u.Agree
  | call :: calls => u.Agree ∧ ∃ u', u.step ss call = some u' ∧ AgreeRun ss u' calls

/-- What holds after harmless calls: the maps say what the set of inserted sessions says. -/
structure Sound (ss : Sessions σ) (u : Use σ) (group : σ → List UInt8) : Prop where
  sessionIDs : ∀ id p, u.manager.moSessionIDs.lookup id = some p ↔ p ∈ u.inserted ∧ ss.sessionID p = id
  identies : ∀ a id, u.manager.moIdenties.lookup a = some id ↔
    ∃ p ∈ u.inserted, (ss.remote p).getID = a ∧ ss.sessionID p = id
  inGroup : ∀ name id, u.InGroup name id ↔ ∃ p ∈ u.inserted, group p = name ∧ ss.sessionID p = id
  named : ∀ p ∈ u.inserted, ss.serviceName p ≠ [] → group p = ss.serviceName p
  unnamed : u.manager.moGroups.lookup [] = none

variable {ss : Sessions σ} {u : Use σ} {group : σ → List UInt8} {p : σ} {id : UInt64}
  {closed : σ → Bool} {name : List UInt8} {call : Call σ}

omit [DecidableEq σ] in
theorem mem_keys {κ β : Type} [DecidableEq κ] {m : Finmap fun _ : κ => β} {a : κ} :
    a ∈ m.keys ↔ ∃ b, m.lookup a = some b := by
  rw [Finmap.mem_keys, Finmap.mem_iff]

omit [DecidableEq σ] in
/-- What the maps say agrees. -/
theorem Sound.agree (h : Sound ss u group) : u.Agree := by
  have hkeys : ∀ id, id ∈ u.manager.moSessionIDs.keys ↔ ∃ p ∈ u.inserted, ss.sessionID p = id := by
    intro id
    simp only [mem_keys, h.sessionIDs]
  refine ⟨fun id => ?_, fun id => ?_, fun name name' id hin hin' => ?_, ?_⟩
  · simp only [hkeys, h.inGroup]
    constructor
    · rintro ⟨_, p, hp, -, hid⟩
      exact ⟨p, hp, hid⟩
    · rintro ⟨p, hp, hid⟩
      exact ⟨_, p, hp, rfl, hid⟩
  · simp only [hkeys, h.identies]
    constructor
    · rintro ⟨_, p, hp, -, hid⟩
      exact ⟨p, hp, hid⟩
    · rintro ⟨p, hp, hid⟩
      exact ⟨_, p, hp, rfl, hid⟩
  · obtain ⟨p, -, rfl, hid⟩ := (h.inGroup _ _).mp hin
    obtain ⟨p', -, rfl, hid'⟩ := (h.inGroup _ _).mp hin'
    rw [ss.sessionID_injective (hid.trans hid'.symm)]
  · have himage : u.manager.moIdenties.keys = u.inserted.image fun p => (ss.remote p).getID := by
      apply Finset.ext
      intro a
      simp only [mem_keys, h.identies, Finset.mem_image]
      constructor
      · rintro ⟨_, p, hp, ha, -⟩
        exact ⟨p, hp, ha⟩
      · rintro ⟨p, hp, ha⟩
        exact ⟨_, p, hp, ha, rfl⟩
    rw [getSize, himage]
    exact Finset.card_image_of_injective _ (SockAddr.getID_injective.comp ss.remote_injective)

/-- A session inserted is in its group, where everything else stays. -/
theorem inGroup_insert : InGroup ⟨u.manager.insert ss.toSessionData p, Insert.insert p u.inserted⟩ name id ↔
    (name = u.manager.groupName (ss.serviceName p) ∧ id = ss.sessionID p) ∨ u.InGroup name id := by
  unfold InGroup CSessionManager.insert insertGroup
  simp only
  rcases eq_or_ne name (u.manager.groupName (ss.serviceName p)) with rfl | hne
  · rw [Finmap.lookup_insert]
    cases hlookup : u.manager.moGroups.lookup (u.manager.groupName (ss.serviceName p)) with
    | none => simp
    | some ids => simp
  · rw [Finmap.lookup_insert_of_ne _ hne]
    simp [hne]

omit [DecidableEq σ] in
theorem groupName_ne_nil (m : CSessionManager σ) (name : List UInt8) : m.groupName name ≠ [] := by
  unfold groupName
  split
  · exact List.cons_ne_nil _ _
  · next hlen => exact fun hnil => hlen (by rw [hnil]; rfl)

theorem Sound.insert (h : Sound ss u group) (hcall : u.Harmless ss (.insert p)) :
    Sound ss ⟨u.manager.insert ss.toSessionData p, Insert.insert p u.inserted⟩
      (Function.update group p (u.manager.groupName (ss.serviceName p))) := by
  -- a session that is in already is put where it is
  have hgroup : ∀ p' ∈ u.inserted,
      Function.update group p (u.manager.groupName (ss.serviceName p)) p' = group p' := by
    intro p' hp'
    rcases eq_or_ne p' p with rfl | hne
    · rw [Function.update_self]
      by_cases hname : ss.serviceName p' = []
      · obtain ⟨q, -, hq, hid⟩ := (h.inGroup _ _).mp (hcall hname hp')
        rw [← hq, ss.sessionID_injective hid]
      · rw [h.named p' hp' hname, groupName, if_neg (fun hlen => hname (List.length_eq_zero_iff.mp hlen))]
    · rw [Function.update_of_ne hne]
  refine ⟨fun id q => ?_, fun a id => ?_, fun name id => ?_, fun q hq hname => ?_, ?_⟩
  · simp only [CSessionManager.insert, Finset.mem_insert]
    rcases eq_or_ne id (ss.sessionID p) with rfl | hne
    · rw [Finmap.lookup_insert]
      constructor
      · rintro ⟨⟩
        exact ⟨Or.inl rfl, rfl⟩
      · rintro ⟨-, hid⟩
        rw [ss.sessionID_injective hid]
    · rw [Finmap.lookup_insert_of_ne _ hne, h.sessionIDs]
      constructor
      · rintro ⟨hq, hid⟩
        exact ⟨Or.inr hq, hid⟩
      · rintro ⟨rfl | hq, hid⟩
        · exact absurd hid.symm hne
        · exact ⟨hq, hid⟩
  · simp only [CSessionManager.insert, Finset.mem_insert]
    rcases eq_or_ne a (ss.remote p).getID with rfl | hne
    · rw [Finmap.lookup_insert]
      constructor
      · rintro ⟨⟩
        exact ⟨p, Or.inl rfl, rfl, rfl⟩
      · rintro ⟨q, -, ha, rfl⟩
        rw [ss.remote_injective (SockAddr.getID_injective ha)]
    · rw [Finmap.lookup_insert_of_ne _ hne, h.identies]
      constructor
      · rintro ⟨q, hq, ha, hid⟩
        exact ⟨q, Or.inr hq, ha, hid⟩
      · rintro ⟨q, rfl | hq, ha, hid⟩
        · exact absurd ha.symm hne
        · exact ⟨q, hq, ha, hid⟩
  · rw [inGroup_insert, h.inGroup]
    simp only [Finset.mem_insert]
    constructor
    · rintro (⟨rfl, rfl⟩ | ⟨q, hq, rfl, hid⟩)
      · exact ⟨p, Or.inl rfl, Function.update_self .., rfl⟩
      · exact ⟨q, Or.inr hq, hgroup q hq, hid⟩
    · rintro ⟨q, rfl | hq, rfl, rfl⟩
      · exact Or.inl ⟨Function.update_self .., rfl⟩
      · exact Or.inr ⟨q, hq, (hgroup q hq).symm, rfl⟩
  · rcases Finset.mem_insert.mp hq with rfl | hq
    · rw [Function.update_self, groupName,
        if_neg (fun hlen => hname (List.length_eq_zero_iff.mp hlen))]
    · rw [hgroup q hq, h.named q hq hname]
  · simp only [CSessionManager.insert, insertGroup]
    rw [Finmap.lookup_insert_of_ne _ (groupName_ne_nil _ _).symm, h.unnamed]

/-- A session of an unnamed service that is inserted once more is in two groups. -/
theorem Sound.insertTwice (h : Sound ss u group) (hcall : ¬ u.Harmless ss (.insert p)) :
    ¬ Agree ⟨u.manager.insert ss.toSessionData p, Insert.insert p u.inserted⟩ := by
  simp only [Harmless, not_forall] at hcall
  obtain ⟨-, hp, hnot⟩ := hcall
  intro h'
  have hold : u.InGroup (group p) (ss.sessionID p) := (h.inGroup _ _).mpr ⟨p, hp, rfl, rfl⟩
  have heq := h'.disjoint _ _ _ (inGroup_insert.mpr (Or.inr hold))
    (inGroup_insert.mpr (Or.inl ⟨rfl, rfl⟩))
  exact hnot (heq ▸ hold)

/-- Where nothing with the id is inserted, nothing is erased. -/
theorem Sound.erase_none (h : Sound ss u group) (hid : u.manager.moSessionIDs.lookup id = none) :
    u.step ss (.erase id) = some u := by
  have hfilter : u.inserted.filter (fun p => ss.sessionID p ≠ id) = u.inserted := by
    apply Finset.filter_true_of_mem
    intro p hp heq
    rw [(h.sessionIDs id p).mpr ⟨hp, heq⟩] at hid
    exact Option.some_ne_none p hid
  simp only [Use.step, CSessionManager.erase, hid, hfilter]

theorem Sound.erase (h : Sound ss u group) (hp : p ∈ u.inserted) (hname : ss.serviceName p ≠ []) :
    ∃ u', u.step ss (.erase (ss.sessionID p)) = some u' ∧ Sound ss u' group := by
  have hlookup : u.manager.moSessionIDs.lookup (ss.sessionID p) = some p :=
    (h.sessionIDs _ _).mpr ⟨hp, rfl⟩
  obtain ⟨ids, hids, hmem⟩ := (h.inGroup (ss.serviceName p) (ss.sessionID p)).mpr
    ⟨p, hp, h.named p hp hname, rfl⟩
  have hleft : ∀ q, q ∈ u.inserted.filter (fun q => ss.sessionID q ≠ ss.sessionID p) ↔
      q ∈ u.inserted ∧ q ≠ p := by
    intro q
    rw [Finset.mem_filter]
    exact and_congr_right' (not_congr ss.sessionID_injective.eq_iff)
  simp only [Use.step, CSessionManager.erase, hlookup, hids]
  refine ⟨_, rfl, fun id q => ?_, fun a id => ?_, fun name id => ?_, fun q hq hname => ?_, ?_⟩
  · rw [hleft]
    rcases eq_or_ne id (ss.sessionID p) with rfl | hne
    · rw [Finmap.lookup_erase]
      constructor
      · intro hnone
        exact absurd hnone (Option.some_ne_none q).symm
      · rintro ⟨⟨-, hqp⟩, hid⟩
        exact absurd (ss.sessionID_injective hid) hqp
    · rw [Finmap.lookup_erase_ne hne, h.sessionIDs]
      constructor
      · rintro ⟨hq, hid⟩
        exact ⟨⟨hq, fun heq => hne (heq ▸ hid.symm)⟩, hid⟩
      · rintro ⟨⟨hq, -⟩, hid⟩
        exact ⟨hq, hid⟩
  · simp only [hleft]
    rcases eq_or_ne a (ss.remote p).getID with rfl | hne
    · rw [Finmap.lookup_erase]
      constructor
      · intro hnone
        exact absurd hnone (Option.some_ne_none id).symm
      · rintro ⟨q, ⟨-, hqp⟩, ha, -⟩
        exact absurd (ss.remote_injective (SockAddr.getID_injective ha)) hqp
    · rw [Finmap.lookup_erase_ne hne, h.identies]
      constructor
      · rintro ⟨q, hq, ha, hid⟩
        exact ⟨q, ⟨hq, fun heq => hne (heq ▸ ha.symm)⟩, ha, hid⟩
      · rintro ⟨q, ⟨hq, -⟩, ha, hid⟩
        exact ⟨q, hq, ha, hid⟩
  · have hold := h.inGroup name id
    simp only [InGroup, hleft] at hold ⊢
    rcases eq_or_ne name (ss.serviceName p) with rfl | hne
    · rw [Finmap.lookup_insert]
      simp only [hids, Option.some.injEq, exists_eq_left'] at hold ⊢
      rw [Finset.mem_erase, hold]
      constructor
      · rintro ⟨hid, q, hq, hgroup, rfl⟩
        exact ⟨q, ⟨hq, fun heq => hid (by rw [heq])⟩, hgroup, rfl⟩
      · rintro ⟨q, ⟨hq, hqp⟩, hgroup, rfl⟩
        exact ⟨fun heq => hqp (ss.sessionID_injective heq), q, hq, hgroup, rfl⟩
    · rw [Finmap.lookup_insert_of_ne _ hne, hold]
      constructor
      · rintro ⟨q, hq, hgroup, hid⟩
        refine ⟨q, ⟨hq, ?_⟩, hgroup, hid⟩
        rintro rfl
        exact hne (hgroup.symm.trans (h.named q hq ‹_›))
      · rintro ⟨q, ⟨hq, -⟩, hgroup, hid⟩
        exact ⟨q, hq, hgroup, hid⟩
  · exact h.named q ((hleft q).mp hq).1 hname
  · rw [Finmap.lookup_insert_of_ne _ hname.symm, h.unnamed]

/-- A session of an unnamed service that is erased stays in its group. -/
theorem Sound.eraseUnnamed (h : Sound ss u group) (hp : p ∈ u.inserted)
    (hname : ss.serviceName p = []) {u' : Use σ}
    (hstep : u.step ss (.erase (ss.sessionID p)) = some u') : ¬ u'.Agree := by
  have hlookup : u.manager.moSessionIDs.lookup (ss.sessionID p) = some p :=
    (h.sessionIDs _ _).mpr ⟨hp, rfl⟩
  obtain ⟨ids, hids, hmem⟩ : u.InGroup (group p) (ss.sessionID p) :=
    (h.inGroup _ _).mpr ⟨p, hp, rfl, rfl⟩
  have hgroup : u.manager.moGroups.lookup (ss.serviceName p) = none := by
    rw [hname, h.unnamed]
  simp only [Use.step, CSessionManager.erase, hlookup, hgroup, Option.some.injEq] at hstep
  subst hstep
  intro h'
  have hkey := (h'.groups (ss.sessionID p)).mp ⟨group p, ids, hids, hmem⟩
  rw [Finmap.keys_erase] at hkey
  exact (Finset.notMem_erase _ _) hkey

variable (closed) (name) in
omit [DecidableEq σ] in
/-- `EraseClosed` comes to the end of a group in which no session is closed, and of no
other. -/
theorem Sound.eraseClosedIn (h : Sound ss u group) :
    ((∀ p ∈ u.inserted, u.InGroup name (ss.sessionID p) → closed p = false) ∧
      u.manager.eraseClosedIn closed name = some u.manager) ∨
    ((∃ p ∈ u.inserted, u.InGroup name (ss.sessionID p) ∧ closed p = true) ∧
      u.manager.eraseClosedIn closed name = none) := by
  unfold CSessionManager.eraseClosedIn
  cases hlookup : u.manager.moGroups.lookup name with
  | none =>
    refine Or.inl ⟨?_, rfl⟩
    rintro p - ⟨ids, hids, -⟩
    rw [hlookup] at hids
    exact absurd hids (Option.some_ne_none ids).symm
  | some ids =>
    have hsession : ∀ p ∈ u.inserted, u.manager.moSessionIDs.lookup (ss.sessionID p) = some p :=
      fun p hp => (h.sessionIDs _ _).mpr ⟨hp, rfl⟩
    simp only [eraseClosedGroup]
    split
    · next hall =>
      refine Or.inl ⟨?_, rfl⟩
      rintro p hp ⟨ids', hids, hmem⟩
      obtain rfl : ids = ids' := Option.some.inj (hlookup.symm.trans hids)
      have hopen := hall _ hmem
      rw [hsession p hp] at hopen
      simpa using hopen
    · next hnot =>
      refine Or.inr ⟨?_, rfl⟩
      simp only [not_forall] at hnot
      obtain ⟨id, hmem, hclosed⟩ := hnot
      obtain ⟨p, hp, -, rfl⟩ := (h.inGroup name id).mp ⟨ids, hlookup, hmem⟩
      rw [hsession p hp] at hclosed
      exact ⟨p, hp, ⟨ids, hlookup, hmem⟩, by simpa using hclosed⟩

variable (closed) in
omit [DecidableEq σ] in
/-- `EraseClosed` comes to its end where no session is closed, and only there. -/
theorem Sound.eraseClosed (h : Sound ss u group) :
    ((∀ p ∈ u.inserted, closed p = false) ∧ u.manager.eraseClosed closed = some u.manager) ∨
    ((∃ p ∈ u.inserted, closed p = true) ∧ u.manager.eraseClosed closed = none) := by
  unfold CSessionManager.eraseClosed
  split
  · next hall =>
    refine Or.inl ⟨fun p hp => ?_, rfl⟩
    obtain ⟨ids, hids, hmem⟩ : u.InGroup (group p) (ss.sessionID p) :=
      (h.inGroup _ _).mpr ⟨p, hp, rfl, rfl⟩
    rcases h.eraseClosedIn closed (group p) with ⟨hopen, -⟩ | ⟨-, hnone⟩
    · exact hopen p hp ⟨ids, hids, hmem⟩
    · have hsome := hall (group p) (mem_keys.mpr ⟨ids, hids⟩)
      rw [hnone] at hsome
      exact absurd hsome (by simp)
  · next hnot =>
    refine Or.inr ⟨?_, rfl⟩
    simp only [not_forall] at hnot
    obtain ⟨name, -, hname⟩ := hnot
    rcases h.eraseClosedIn closed name with ⟨-, hsome⟩ | ⟨hclosed, -⟩
    · rw [hsome] at hname
      exact absurd rfl hname
    · obtain ⟨p, hp, -, hp'⟩ := hclosed
      exact ⟨p, hp, hp'⟩

/-- A harmless call keeps the maps together. -/
theorem Sound.step (h : Sound ss u group) (hcall : u.Harmless ss call) :
    ∃ u' group', u.step ss call = some u' ∧ Sound ss u' group' := by
  cases call with
  | insert p => exact ⟨_, _, rfl, h.insert hcall⟩
  | erase id =>
    cases hlookup : u.manager.moSessionIDs.lookup id with
    | none => exact ⟨u, group, h.erase_none hlookup, h⟩
    | some p =>
      obtain ⟨hp, rfl⟩ := (h.sessionIDs id p).mp hlookup
      obtain ⟨u', hstep, hu'⟩ := h.erase hp (hcall p hp rfl)
      exact ⟨u', group, hstep, hu'⟩
  | eraseClosed closed =>
    rcases h.eraseClosed closed with ⟨-, hsome⟩ | ⟨⟨p, hp, hclosed⟩, -⟩
    · refine ⟨u, group, ?_, h⟩
      simp only [Use.step, hsome, Option.map_some, Finset.filter_true_of_mem hcall]
    · rw [hcall p hp] at hclosed
      exact Bool.noConfusion hclosed
  | eraseClosedIn closed name =>
    rcases h.eraseClosedIn closed name with
      ⟨-, hsome⟩ | ⟨⟨p, hp, hin, hclosed⟩, -⟩
    · refine ⟨u, group, ?_, h⟩
      have hfilter : u.inserted.filter (fun p => closed p = true →
          ss.sessionID p ∉ (u.manager.moGroups.lookup name).getD ∅) = u.inserted := by
        apply Finset.filter_true_of_mem
        intro p hp hclosed hmem
        cases hlookup : u.manager.moGroups.lookup name with
        | none => simp [hlookup] at hmem
        | some ids =>
          rw [hlookup, Option.getD_some] at hmem
          rw [hcall p hp ⟨ids, hlookup, hmem⟩] at hclosed
          exact Bool.noConfusion hclosed
      simp only [Use.step, hsome, Option.map_some, hfilter]
    · rw [hcall p hp hin] at hclosed
      exact Bool.noConfusion hclosed

/-- Any other call ends in what is undefined, or takes the maps apart. -/
theorem Sound.harmful (h : Sound ss u group) (hcall : ¬ u.Harmless ss call) :
    ∀ u', u.step ss call = some u' → ¬ u'.Agree := by
  intro u' hstep
  cases call with
  | insert p =>
    cases hstep
    exact h.insertTwice hcall
  | erase id =>
    simp only [Harmless, not_forall, not_not] at hcall
    obtain ⟨p, hp, rfl, hname⟩ := hcall
    exact h.eraseUnnamed hp hname hstep
  | eraseClosed closed =>
    rcases h.eraseClosed closed with ⟨hopen, -⟩ | ⟨-, hnone⟩
    · exact absurd hopen hcall
    · simp only [Use.step, hnone, Option.map_none] at hstep
      exact absurd hstep (Option.some_ne_none u').symm
  | eraseClosedIn closed name =>
    rcases h.eraseClosedIn closed name with ⟨hopen, -⟩ | ⟨-, hnone⟩
    · exact absurd hopen hcall
    · simp only [Use.step, hnone, Option.map_none] at hstep
      exact absurd hstep (Option.some_ne_none u').symm

theorem Sound.agreeRun_iff {calls : List (Call σ)} (h : Sound ss u group) :
    u.AgreeRun ss calls ↔ u.HarmlessRun ss calls := by
  induction calls generalizing u group with
  | nil => exact ⟨fun _ => trivial, fun _ => h.agree⟩
  | cons call calls ih =>
    unfold AgreeRun HarmlessRun
    constructor
    · rintro ⟨-, u', hstep, hrun⟩
      have hcall : u.Harmless ss call := by
        by_contra hnot
        apply h.harmful hnot u' hstep
        cases calls with
        | nil => exact hrun
        | cons _ _ => exact hrun.1
      obtain ⟨u'', group', hstep', h'⟩ := h.step hcall
      obtain rfl : u' = u'' := Option.some.inj (hstep.symm.trans hstep')
      refine ⟨hcall, fun v hv => ?_⟩
      obtain rfl : u' = v := Option.some.inj (hstep.symm.trans hv)
      exact (ih h').mp hrun
    · rintro ⟨hcall, hrun⟩
      obtain ⟨u', group', hstep, h'⟩ := h.step hcall
      exact ⟨h.agree, u', hstep, (ih h').mpr (hrun u' hstep)⟩

omit [DecidableEq σ] in
theorem stands_empty (ss : Sessions σ) : Sound ss init fun _ => [] := by
  refine ⟨fun id p => ?_, fun a id => ?_, fun name id => ?_, fun p hp => ?_, rfl⟩
  · simp [init, CSessionManager.init]
  · simp [init, CSessionManager.init]
  · simp [init, CSessionManager.init, InGroup]
  · simp [init] at hp

/-- One session of a service without a name. -/
def oneUnnamed : Sessions Unit where
  sessionID := fun _ => 7
  remote := fun _ => ⟨0x7f000001, 80⟩
  serviceName := fun _ => []
  sessionID_injective := fun _ _ _ => rfl
  remote_injective := fun _ _ _ => rfl

end Use

end CSessionManager

end Netfram
