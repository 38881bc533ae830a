-- SUMMARY: The pool of sessions: taking one for a socket, closing it, and the list of the free ones.
import Mathlib.Algebra.Group.Nat.Defs
import Mathlib.Data.Finset.Card
import Mathlib.Data.Finset.Range
import Mathlib.Logic.Function.Basic
import NetworkEtc.Library.Links

/-!
# `CCycle`

All sessions are made at the start. Those that are free are chained through `mpoData`,
the field in which the users of a session keep what they like.
-/

namespace Netfram

open Library

/-- A `void*`: `NULL`, a session, by its place in the array, or anything else. -/
inductive Pointer where
  | null
  | session (i : Nat)
  | other (address : Nat)
  deriving DecidableEq

/-- A session, as far as the pool reads and writes it. -/
structure CSession where
  mpoData : Pointer
  miFd : Int32
  muSessionID : UInt64
  mbClosed : Bool
  mbReadActive : Bool
  deriving DecidableEq

namespace CSession

/-- `CSession()` -/
def init : CSession := ⟨.null, -1, 0, false, false⟩

/-- `Close` -/
def close (s : CSession) : CSession :=
  if s.mbClosed then s else { s with mbClosed := true, mbReadActive := false }

/-- `Reset` -/
def reset (s : CSession) : CSession :=
  { s with mpoData := .null, miFd := 0, muSessionID := 0, mbClosed := false, mbReadActive := false }

/-- `SetSessionID`, which takes 32 bits. -/
def setSessionID (s : CSession) (auSessionID : UInt32) : CSession :=
  { s with muSessionID := auSessionID.toUInt64 }

end CSession

structure CCycle where
  mpoFreeSessions : Pointer
  muFreeCount : UInt32
  muMaxFd : UInt32
  mpoSessions : Nat → CSession
  mu64SessionID : UInt64

namespace CCycle

def setSession (c : CCycle) (i : Nat) (s : CSession) : CCycle :=
  { c with mpoSessions := Function.update c.mpoSessions i s }

/-- The loop of `InitEvent`, from session `n` down. -/
def initLoop : Nat → Pointer → (Nat → CSession) → Pointer × (Nat → CSession)
  | 0, lpoNext, sessions => (lpoNext, sessions)
  | n + 1, lpoNext, sessions =>
    initLoop n (.session n)
      (Function.update sessions n { sessions n with mpoData := lpoNext, miFd := -1 })

/-- `InitEvent`. The loop tests its counter at the end: it does not stop where there are
no sessions. -/
def initEvent (maxSession : Nat) (muMaxFd : UInt32) : Option CCycle :=
  let luCount := UInt32.ofNat maxSession
  if luCount = 0 then none
  else
    let (lpoNext, sessions) := initLoop luCount.toNat .null fun _ => .init
    some ⟨lpoNext, luCount, muMaxFd, sessions, 1⟩

/-- `GetSession`: the session for a socket, or `NULL`. The head of the list is
dereferenced: `none` if it is no session. -/
def getSession (c : CCycle) (aiSock : Int32) : Option (Pointer × CCycle) :=
  if c.muMaxFd ≤ aiSock.toUInt32 then some (.null, c)
  else
    match c.mpoFreeSessions with
    | .null => some (.null, c)
    | .other _ => none
    | .session i =>
      let c :=
        { c with mpoFreeSessions := (c.mpoSessions i).mpoData, muFreeCount := c.muFreeCount - 1 }
      let s := { (c.mpoSessions i).reset with miFd := aiSock }
      let s := s.setSessionID c.mu64SessionID.toUInt32
      some (.session i, { c.setSession i s with mu64SessionID := c.mu64SessionID + 1 })

/-- `FreeSession` -/
def freeSession (c : CCycle) (i : Nat) : CCycle :=
  { c.setSession i { c.mpoSessions i with mpoData := c.mpoFreeSessions } with
    mpoFreeSessions := .session i
    muFreeCount := c.muFreeCount + 1 }

def setFileDesc (c : CCycle) (i : Nat) (aiFd : Int32) : CCycle :=
  c.setSession i { c.mpoSessions i with miFd := aiFd }

/-- `CloseSession` -/
def closeSession (c : CCycle) (i : Nat) : CCycle :=
  let c := c.setSession i (c.mpoSessions i).close
  if (c.mpoSessions i).miFd = -1 then c else (c.freeSession i).setFileDesc i (-1)

/-- `CEventDo::CloseAccepted` -/
def closeAccepted (c : CCycle) (i : Nat) : CCycle := (c.freeSession i).setFileDesc i (-1)

/-- `CSession::SetData` -/
def setData (c : CCycle) (i : Nat) (apvData : Pointer) : CCycle :=
  c.setSession i { c.mpoSessions i with mpoData := apvData }

-- ---------------------------------------------------------------------------
-- Runs
-- ---------------------------------------------------------------------------

inductive Call where
  | getSession (aiSock : Int32)
  | setData (i : Nat) (apvData : Pointer)
  | closeSession (i : Nat)
  | closeAccepted (i : Nat)

def step (c : CCycle) : Call → Option CCycle
  | .getSession aiSock => (c.getSession aiSock).map Prod.snd
  | .setData i apvData => some (c.setData i apvData)
  | .closeSession i => some (c.closeSession i)
  | .closeAccepted i => some (c.closeAccepted i)

def run (c : CCycle) : List Call → Option CCycle
  | [] => some c
  | call :: calls => (c.step call).bind fun c => run c calls

/-- A session has a socket. -/
def InUse (c : CCycle) (i : Nat) : Prop := (c.mpoSessions i).miFd ≠ -1

instance decidableInUse (c : CCycle) (i : Nat) : Decidable (c.InUse i) :=
  inferInstanceAs (Decidable (_ ≠ _))

/-- What the users of the pool keep to: only sessions in use get data, and are closed
as accepted. -/
def Admissible (maxSession : Nat) (c : CCycle) : Call → Prop
  | .getSession _ => True
  | .setData i _ => i < maxSession ∧ c.InUse i
  | .closeSession i => i < maxSession
  | .closeAccepted i => i < maxSession ∧ c.InUse i

instance decidableCall (maxSession : Nat) (c : CCycle) :
    (call : Call) → Decidable (c.Admissible maxSession call)
  | .getSession _ => isTrue trivial
  | .setData i _ => inferInstanceAs (Decidable (i < maxSession ∧ c.InUse i))
  | .closeSession i => inferInstanceAs (Decidable (i < maxSession))
  | .closeAccepted i => inferInstanceAs (Decidable (i < maxSession ∧ c.InUse i))

def AdmissibleRun (maxSession : Nat) (c : CCycle) : List Call → Prop
  | [] => True
  | call :: calls => c.Admissible maxSession call ∧ ∀ c' ∈ c.step call, AdmissibleRun maxSession c' calls

instance decidableCalls (maxSession : Nat) :
    (c : CCycle) → (calls : List Call) → Decidable (c.AdmissibleRun maxSession calls)
  | _, [] => isTrue trivial
  | c, call :: calls =>
    have : ∀ c', Decidable (AdmissibleRun maxSession c' calls) :=
      fun c' => decidableCalls maxSession c' calls
    match h : c.step call with
    | none => decidable_of_iff (c.Admissible maxSession call) (by simp [AdmissibleRun, h])
    | some c' =>
      decidable_of_iff (c.Admissible maxSession call ∧ AdmissibleRun maxSession c' calls)
        (by simp [AdmissibleRun, h])

/-- What a session's `mpoData` leads to. -/
def next (c : CCycle) : Pointer → Option Pointer
  | .session i => some (c.mpoSessions i).mpoData
  | _ => none

/-- The sessions of `l`, and no others, are met from `mpoFreeSessions`, and then `NULL`. -/
def FreeList (c : CCycle) (l : List Nat) : Prop :=
  Seg c.next (some c.mpoFreeSessions) (l.map .session) (some .null)

/-- The pool is in order with `l` as its free sessions. -/
structure Sound (maxSession : Nat) (c : CCycle) (l : List Nat) : Prop where
  freeList : c.FreeList l
  nodup : l.Nodup
  count : c.muFreeCount.toNat = l.length
  mem_iff : ∀ i, i ∈ l ↔ i < maxSession ∧ ¬ c.InUse i
  max_lt : maxSession < 2 ^ 32

variable {c c' : CCycle} {maxSession i : Nat} {l : List Nat}

/-- A list stays where none of its sessions is given other data. -/
theorem FreeList.congr (h : c.FreeList l) (hhead : c'.mpoFreeSessions = c.mpoFreeSessions)
    (hdata : ∀ i ∈ l, (c'.mpoSessions i).mpoData = (c.mpoSessions i).mpoData) : c'.FreeList l := by
  unfold FreeList at h ⊢
  rw [hhead]
  apply h.congr
  intro p hp
  obtain ⟨i, hi, rfl⟩ := List.mem_map.mp hp
  exact congrArg some (hdata i hi)

/-- There are never more free sessions than sessions. -/
theorem Sound.length_le (h : Sound maxSession c l) : l.length ≤ maxSession := by
  have hsub : l.toFinset ⊆ Finset.range maxSession := by
    intro i hi
    exact Finset.mem_range.mpr ((h.mem_iff i).mp (List.mem_toFinset.mp hi)).1
  have hcard := Finset.card_le_card hsub
  rwa [List.toFinset_card_of_nodup h.nodup, Finset.card_range] at hcard

/-- One more is free than before only if that makes no more than there are. -/
theorem Sound.length_lt (h : Sound maxSession c l) (hi : i < maxSession) (huse : c.InUse i) :
    l.length < maxSession := by
  have hnot : i ∉ l := fun hmem => ((h.mem_iff i).mp hmem).2 huse
  have hsub : insert i l.toFinset ⊆ Finset.range maxSession := by
    intro j hj
    rw [Finset.mem_insert, List.mem_toFinset] at hj
    rcases hj with rfl | hj
    · exact Finset.mem_range.mpr hi
    · exact Finset.mem_range.mpr ((h.mem_iff j).mp hj).1
  have hcard := Finset.card_le_card hsub
  rw [Finset.card_insert_of_notMem (by simpa using hnot), Finset.card_range,
    List.toFinset_card_of_nodup h.nodup] at hcard
  exact hcard

/-- A session that is free keeps its data, and none comes into use or goes out of it. -/
theorem Sound.setSession (h : Sound maxSession c l) {s : CSession}
    (hdata : i ∈ l → s.mpoData = (c.mpoSessions i).mpoData)
    (hfd : s.miFd = -1 ↔ (c.mpoSessions i).miFd = -1) : Sound maxSession (c.setSession i s) l := by
  refine ⟨h.freeList.congr rfl ?_, h.nodup, h.count, ?_, h.max_lt⟩
  · intro j hj
    simp only [CCycle.setSession, Function.update_apply]
    split
    · next heq => rw [hdata (heq ▸ hj), heq]
    · rfl
  · intro j
    rw [h.mem_iff j]
    simp only [InUse, CCycle.setSession, Function.update_apply]
    split
    · next heq =>
      rw [heq]
      exact and_congr_right' (not_congr (not_congr hfd.symm))
    · rfl

/-- A session in use becomes the first free one. -/
theorem Sound.release (h : Sound maxSession c l) (hi : i < maxSession) (huse : c.InUse i) :
    Sound maxSession ((c.freeSession i).setFileDesc i (-1)) (i :: l) := by
  have hnot : i ∉ l := fun hmem => ((h.mem_iff i).mp hmem).2 huse
  have hlt := h.length_lt hi huse
  have hmax := h.max_lt
  refine ⟨⟨rfl, ?_⟩, List.nodup_cons.mpr ⟨hnot, h.nodup⟩, ?_, ?_, hmax⟩
  · have hdata : ((c.freeSession i).setFileDesc i (-1)).next (.session i) =
        some c.mpoFreeSessions := by
      simp [next, freeSession, setFileDesc, CCycle.setSession]
    rw [hdata]
    refine Seg.congr h.freeList ?_
    intro p hp
    obtain ⟨j, hj, rfl⟩ := List.mem_map.mp hp
    have hne : j ≠ i := fun heq => hnot (heq ▸ hj)
    simp [next, freeSession, setFileDesc, CCycle.setSession, Function.update_of_ne hne]
  · change (c.muFreeCount + 1).toNat = l.length + 1
    rw [UInt32.toNat_add, h.count]
    exact Nat.mod_eq_of_lt (by simp; omega)
  · intro j
    rw [List.mem_cons, h.mem_iff j]
    rcases eq_or_ne j i with rfl | hne
    · simp [InUse, freeSession, setFileDesc, CCycle.setSession, hi]
    · simp [InUse, freeSession, setFileDesc, CCycle.setSession, hne]

/-- `GetSession` gives `NULL`, or the first free session, which is in use from then on. -/
theorem Sound.getSession (h : Sound maxSession c l) (aiSock : Int32) :
    c.getSession aiSock = some (.null, c) ∨
    ∃ i l' c', l = i :: l' ∧ c.getSession aiSock = some (.session i, c') ∧
      Sound maxSession c' l' := by
  unfold CCycle.getSession
  split
  · exact Or.inl rfl
  next hsock =>
  cases l with
  | nil =>
    have hhead : c.mpoFreeSessions = .null := Option.some.inj h.freeList
    rw [hhead]
    exact Or.inl rfl
  | cons i l =>
    obtain ⟨hhead, hrest⟩ := h.freeList
    have hhead : c.mpoFreeSessions = .session i := Option.some.inj hhead
    obtain ⟨hnot, hnodup⟩ := List.nodup_cons.mp h.nodup
    have hcount := h.count
    -- no descriptor that passes the check is -1
    have hfd : aiSock ≠ -1 := by
      rintro rfl
      exact hsock (UInt32.le_iff_toNat_le.mpr (Nat.le_pred_of_lt c.muMaxFd.toNat_lt))
    rw [hhead]
    refine Or.inr ⟨i, l, _, rfl, rfl, ?_, hnodup, ?_, ?_, h.max_lt⟩
    · refine Seg.congr hrest ?_
      intro p hp
      obtain ⟨j, hj, rfl⟩ := List.mem_map.mp hp
      have hne : j ≠ i := fun heq => hnot (heq ▸ hj)
      simp [next, CCycle.setSession, Function.update_of_ne hne]
    · change (c.muFreeCount - 1).toNat = l.length
      rw [List.length_cons] at hcount
      have hle : (1 : UInt32) ≤ c.muFreeCount := by
        rw [UInt32.le_iff_toNat_le, hcount]
        exact Nat.le_add_left 1 _
      rw [UInt32.toNat_sub_of_le _ _ hle, hcount]
      rfl
    · intro j
      have hmem := h.mem_iff j
      rcases eq_or_ne j i with rfl | hne
      · simp [InUse, CCycle.setSession, CSession.setSessionID, CSession.reset, hnot, hfd]
      · rw [List.mem_cons, or_iff_right hne] at hmem
        rw [hmem]
        simp [InUse, CCycle.setSession, Function.update_of_ne hne]

/-- What one call does. -/
theorem Sound.step {call : Call} (h : Sound maxSession c l)
    (hcall : c.Admissible maxSession call) :
    ∃ c' l', c.step call = some c' ∧ Sound maxSession c' l' := by
  cases call with
  | getSession aiSock =>
    rcases h.getSession aiSock with hget | ⟨i, l', c', -, hget, hsound⟩
    · exact ⟨c, l, by rw [CCycle.step, hget]; rfl, h⟩
    · exact ⟨c', l', by rw [CCycle.step, hget]; rfl, hsound⟩
  | setData i apvData =>
    refine ⟨_, l, rfl, h.setSession (fun hmem => ?_) Iff.rfl⟩
    exact absurd hcall.2 ((h.mem_iff i).mp hmem).2
  | closeSession i =>
    have hclose : (c.mpoSessions i).close.mpoData = (c.mpoSessions i).mpoData ∧
        (c.mpoSessions i).close.miFd = (c.mpoSessions i).miFd := by
      unfold CSession.close
      split
      · exact ⟨rfl, rfl⟩
      · exact ⟨rfl, rfl⟩
    have hclosed := h.setSession (i := i) (fun _ => hclose.1) (by rw [hclose.2])
    simp only [CCycle.step, closeSession]
    split
    · exact ⟨_, l, rfl, hclosed⟩
    · next hfd => exact ⟨_, i :: l, rfl, hclosed.release hcall hfd⟩
  | closeAccepted i => exact ⟨_, i :: l, rfl, h.release hcall.1 hcall.2⟩

/-- What a sequence of calls does. -/
theorem Sound.run {calls : List Call} (h : Sound maxSession c l)
    (hcalls : c.AdmissibleRun maxSession calls) :
    ∃ c' l', c.run calls = some c' ∧ Sound maxSession c' l' := by
  induction calls generalizing c l with
  | nil => exact ⟨c, l, rfl, h⟩
  | cons call calls ih =>
    obtain ⟨c₁, l₁, hstep, h₁⟩ := h.step hcalls.1
    obtain ⟨c', l', hrun, h'⟩ := ih h₁ (hcalls.2 c₁ hstep)
    refine ⟨c', l', ?_, h'⟩
    rw [CCycle.run, hstep]
    exact hrun

/-- The loop of `InitEvent` chains the sessions below `n` before those it has been given. -/
theorem initLoop_spec (n : Nat) (lpoNext : Pointer) (sessions : Nat → CSession) :
    Seg (fun p => match p with
        | .session i => some ((initLoop n lpoNext sessions).2 i).mpoData
        | _ => none) (some (initLoop n lpoNext sessions).1) ((List.range n).map .session)
      (some lpoNext) ∧
    (∀ i < n, ((initLoop n lpoNext sessions).2 i).miFd = -1) ∧
    ∀ i, n ≤ i → (initLoop n lpoNext sessions).2 i = sessions i := by
  induction n generalizing lpoNext sessions with
  | zero => exact ⟨rfl, fun i hi => absurd hi (Nat.not_lt_zero i), fun _ _ => rfl⟩
  | succ n ih =>
    unfold initLoop
    obtain ⟨hseg, hfd, hrest⟩ := ih (.session n)
      (Function.update sessions n { sessions n with mpoData := lpoNext, miFd := -1 })
    refine ⟨?_, fun i hi => ?_, fun i hi => ?_⟩
    · rw [List.range_succ, List.map_append, List.map_singleton]
      refine seg_concat.mpr ⟨hseg, ?_⟩
      simp [hrest n le_rfl]
    · rcases Nat.lt_succ_iff_lt_or_eq.mp hi with hi | rfl
      · exact hfd i hi
      · simp [hrest i le_rfl]
    · rw [hrest i (by omega), Function.update_of_ne (by omega)]

theorem sound_initEvent {muMaxFd : UInt32} (hmax : maxSession < 2 ^ 32)
    (hinit : initEvent maxSession muMaxFd = some c) : Sound maxSession c (List.range maxSession) := by
  have htoNat : (UInt32.ofNat maxSession).toNat = maxSession :=
    UInt32.toNat_ofNat_of_lt' hmax
  unfold initEvent at hinit
  simp only at hinit
  split at hinit
  · exact absurd hinit (by simp)
  · obtain ⟨hseg, hfd, -⟩ := initLoop_spec maxSession .null fun _ => CSession.init
    rw [htoNat] at hinit
    cases hinit
    refine ⟨hseg.congr ?_, List.nodup_range, ?_, fun i => ?_, hmax⟩
    · intro p _
      cases p <;> rfl
    · rw [htoNat, List.length_range]
    · rw [List.mem_range]
      refine ⟨fun hi => ⟨hi, fun huse => huse (hfd i hi)⟩, fun hi => hi.1⟩

/-- The session pool: after every sequence of calls the free list has no repetitions,
`muFreeCount` is its length, the sessions on it are those without a socket, with the
sessions in use they are as many as configured, and `GetSession` gives no session that
is in use. -/
theorem sessionPool_run {maxSession : Nat} {muMaxFd : UInt32} (hmax : maxSession < 2 ^ 32)
    {c : CCycle} (hinit : initEvent maxSession muMaxFd = some c) (calls : List Call)
    (hcalls : c.AdmissibleRun maxSession calls) :
    ∃ c', c.run calls = some c' ∧
      (∃ l, c'.FreeList l ∧ l.Nodup ∧ c'.muFreeCount.toNat = l.length ∧
        (∀ i, i ∈ l ↔ i < maxSession ∧ (c'.mpoSessions i).miFd = -1) ∧
        l.length + ((Finset.range maxSession).filter fun i =>
          (c'.mpoSessions i).miFd ≠ -1).card = maxSession) ∧
      ∀ aiSock, ∃ p c'', c'.getSession aiSock = some (p, c'') ∧
        (p = .null ∨ ∃ i < maxSession, p = .session i ∧ (c'.mpoSessions i).miFd = -1) := by
  obtain ⟨c', l, hrun, h⟩ := (sound_initEvent hmax hinit).run hcalls
  have hmem : ∀ i, i ∈ l ↔ i < maxSession ∧ (c'.mpoSessions i).miFd = -1 := by
    intro i
    rw [h.mem_iff i]
    exact and_congr_right' not_ne_iff
  refine ⟨c', hrun, ⟨l, h.freeList, h.nodup, h.count, hmem, ?_⟩, fun aiSock => ?_⟩
  · have hfree : l.toFinset = (Finset.range maxSession).filter fun i =>
        (c'.mpoSessions i).miFd = -1 := by
      apply Finset.ext
      intro i
      rw [List.mem_toFinset, hmem, Finset.mem_filter, Finset.mem_range]
    rw [← List.toFinset_card_of_nodup h.nodup, hfree, Finset.card_filter_add_card_filter_not,
      Finset.card_range]
  · rcases h.getSession aiSock with hget | ⟨i, l', c'', rfl, hget, -⟩
    · exact ⟨.null, c', hget, Or.inl rfl⟩
    · obtain ⟨hi, hfd⟩ := (hmem i).mp List.mem_cons_self
      exact ⟨.session i, c'', hget, Or.inr ⟨i, hi, rfl, hfd⟩⟩

/-- A pool of two sessions. -/
def twoSessions : CCycle where
  mpoFreeSessions := .session 0
  muFreeCount := 2
  muMaxFd := 1024
  mpoSessions := Function.update (Function.update (fun _ => .init) 1
    { CSession.init with mpoData := .null }) 0 { CSession.init with mpoData := .session 1 }
  mu64SessionID := 1

/-- A session is taken, given data and closed twice; another is closed as accepted. -/
theorem sessionPool_closedTwice : ∃ c', twoSessions.run [.getSession 7, .setData 0 (.other 4096),
      .closeSession 0, .closeSession 0, .getSession 8, .closeAccepted 0] = some c' ∧
    (∃ l, c'.FreeList l ∧ l.Nodup ∧ c'.muFreeCount.toNat = l.length ∧
      (∀ i, i ∈ l ↔ i < 2 ∧ (c'.mpoSessions i).miFd = -1) ∧
      l.length + ((Finset.range 2).filter fun i => (c'.mpoSessions i).miFd ≠ -1).card = 2) ∧
    ∀ aiSock, ∃ p c'', c'.getSession aiSock = some (p, c'') ∧
      (p = .null ∨ ∃ i < 2, p = .session i ∧ (c'.mpoSessions i).miFd = -1) :=
  sessionPool_run (by decide) rfl _ (by decide)

end CCycle

end Netfram
