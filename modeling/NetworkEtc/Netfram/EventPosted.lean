-- SUMMARY: The queue of posted events: an intrusive ring, what posting and processing do to it.
import NetworkEtc.Library.Ring

/-!
# `CEventPosted`

Events are nodes of a ring through `moHead`. The poller and the timer post them; a thread
takes out the first one whose lock it gets and handles it. Events of listening sockets
have a ring of their own, `moAccept`, and are left out.
-/

namespace Netfram

open Library

-- ---------------------------------------------------------------------------
-- `CQueueNode`
-- ---------------------------------------------------------------------------

/-- The nodes: the head of the ring, and the events. -/
inductive QueueNode (ν : Type) where
  | head
  | event (e : ν)
  deriving DecidableEq

/-- The fields of the nodes; a pointer that is `NULL` is `none`. -/
structure Queue (ν : Type) where
  mpoNext : QueueNode ν → Option (QueueNode ν)
  mpoPrev : QueueNode ν → Option (QueueNode ν)
  mbIn : QueueNode ν → Bool

namespace Queue

variable {ν : Type} [DecidableEq ν]

def setNext (q : Queue ν) (n : QueueNode ν) (value : Option (QueueNode ν)) : Queue ν :=
  { q with mpoNext := fun m => if m = n then value else q.mpoNext m }

def setPrev (q : Queue ν) (n : QueueNode ν) (value : Option (QueueNode ν)) : Queue ν :=
  { q with mpoPrev := fun m => if m = n then value else q.mpoPrev m }

def setIn (q : Queue ν) (n : QueueNode ν) (value : Bool) : Queue ν :=
  { q with mbIn := fun m => if m = n then value else q.mbIn m }

/-- `moHead.Init()`. The events are as `CIoEvent::Reset` leaves them: each by itself. -/
def init : Queue ν := ⟨some, some, fun _ => false⟩

def empty (q : Queue ν) : Bool := q.mpoPrev .head = some .head

/-- `InsertBM`: put `apoNode` before `self`. -/
def insertBM (q : Queue ν) (self apoNode : QueueNode ν) : Option (Queue ν) :=
  let q := q.setNext apoNode (some self)
  let q := q.setPrev apoNode (q.mpoPrev self)
  match q.mpoPrev self with
  | none => none
  | some prev =>
    let q := q.setNext prev (some apoNode)
    let q := q.setPrev self (some apoNode)
    some (q.setIn apoNode true)

/-- `Remove` -/
def remove (q : Queue ν) (apoNode : QueueNode ν) : Option (Queue ν) :=
  if q.mbIn apoNode then
    match q.mpoNext apoNode with
    | none => none
    | some next =>
      let q := q.setPrev next (q.mpoPrev apoNode)
      match q.mpoPrev apoNode with
      | none => none
      | some prev =>
        let q := q.setNext prev (q.mpoNext apoNode)
        let q := q.setNext apoNode none
        let q := q.setPrev apoNode none
        some (q.setIn apoNode false)
  else some q

/-- `Post`, which is what `PostEvent` does with an event that is not `Accept`. -/
def post (q : Queue ν) (apoEvent : ν) : Option (Queue ν) := q.insertBM .head (.event apoEvent)

/-- The walk of `ProcessPosted` from a node: `locked` events are met whose locks are
taken, and then one that is handled. Where the walk comes back to the head before that,
nothing is. -/
def firstFree (q : Queue ν) : Nat → Option (QueueNode ν) → Option (Option ν)
  | _, none => none
  | _, some .head => some none
  | 0, some (.event e) => some (some e)
  | locked + 1, some (.event e) =>
    -- the assertion that an event is not its own successor
    if q.mpoNext (.event e) = some (.event e) then none
    else firstFree q locked (q.mpoNext (.event e))

/-- One round of `ProcessPosted` up to `LockedDeletePosted`: the event it takes out. -/
def process (q : Queue ν) (locked : Nat) : Option (Option ν × Queue ν) :=
  if q.empty then some (none, q)
  else
    match q.firstFree locked (q.mpoNext .head) with
    | none => none
    | some none => some (none, q)
    | some (some e) => (q.remove (.event e)).map fun q => (some e, q)

-- ---------------------------------------------------------------------------
-- Runs
-- ---------------------------------------------------------------------------

inductive Call (ν : Type) where
  /-- An event is ready to be read or written, or its timer has expired. -/
  | post (e : ν)
  | process (locked : Nat)

/-- The queue, with the events that are posted and not yet processed, by the time of
their first pending posting. -/
structure Use (ν : Type) where
  queue : Queue ν
  pending : List ν

namespace Use

def init : Use ν := ⟨.init, []⟩

def step (u : Use ν) : Call ν → Option (Use ν)
  | .post e =>
    (u.queue.post e).map fun queue =>
      ⟨queue, if e ∈ u.pending then u.pending else u.pending ++ [e]⟩
  | .process locked =>
    (u.queue.process locked).map fun (taken, queue) =>
      ⟨queue, match taken with
        | none => u.pending
        | some e => u.pending.erase e⟩

def run (u : Use ν) : List (Call ν) → Option (Use ν)
  | [] => some u
  | call :: calls => (u.step call).bind fun u => run u calls

/-- The ring holds the pending events, each once, in order. -/
def WellFormed (u : Use ν) : Prop :=
  Ring u.queue.mpoNext u.queue.mpoPrev .head (u.pending.map .event)

/-- The call does not post an event that is pending. -/
def Fresh (u : Use ν) : Call ν → Prop
  | .post e => e ∉ u.pending
  | .process _ => True

/-- No call of the run posts a pending event. -/
def FreshRun (u : Use ν) : List (Call ν) → Prop
  | [] => True
  | call :: calls => u.Fresh call ∧ ∀ u' ∈ u.step call, FreshRun u' calls

/-- After every call of the run the ring is well formed. -/
def WellFormedRun (u : Use ν) : List (Call ν) → Prop
  | [] => u.WellFormed
  | call :: calls => u.WellFormed ∧ ∃ u', u.step call = some u' ∧ WellFormedRun u' calls

instance decidableFresh (u : Use ν) : (call : Call ν) → Decidable (u.Fresh call)
  | .post e => inferInstanceAs (Decidable (e ∉ u.pending))
  | .process _ => isTrue trivial

instance decidableFreshRun : (u : Use ν) → (calls : List (Call ν)) → Decidable (u.FreshRun calls)
  | _, [] => isTrue trivial
  | u, call :: calls =>
    have : ∀ u', Decidable (FreshRun u' calls) := fun u' => decidableFreshRun u' calls
    match h : u.step call with
    | none => decidable_of_iff (u.Fresh call) (by simp [FreshRun, h])
    | some u' => decidable_of_iff (u.Fresh call ∧ FreshRun u' calls) (by simp [FreshRun, h])

/-- What holds as long as no pending event is posted. -/
structure Sound (u : Use ν) : Prop where
  ring : u.WellFormed
  isIn : ∀ e ∈ u.pending, u.queue.mbIn (.event e) = true

end Use

-- ---------------------------------------------------------------------------
-- What the operations do
-- ---------------------------------------------------------------------------

variable {q q' : Queue ν} {e : ν} {n p z : QueueNode ν} {l : List ν}

/-- What `Post` does to the pointers, whether the event is in the ring or not. -/
theorem post_spec (hz : q.mpoPrev .head = some z) :
    ∃ q', q.post e = some q' ∧
      (∀ m, q'.mpoNext m =
        if m = z then some (.event e) else if m = .event e then some .head else q.mpoNext m) ∧
      (∀ m, q'.mpoPrev m =
        if m = .head then some (.event e) else if m = .event e then some z else q.mpoPrev m) ∧
      ∀ m, q'.mbIn m = if m = .event e then true else q.mbIn m := by
  simp only [post, insertBM, setNext, setPrev, setIn, hz]
  exact ⟨_, rfl, fun _ => rfl, fun _ => rfl, fun _ => rfl⟩

theorem remove_spec (hin : q.mbIn (.event e) = true) (hn : q.mpoNext (.event e) = some n)
    (hp : q.mpoPrev (.event e) = some p) (hne : n ≠ .event e) :
    ∃ q', q.remove (.event e) = some q' ∧
      (∀ m, m ≠ .event e → q'.mpoNext m = if m = p then some n else q.mpoNext m) ∧
      (∀ m, m ≠ .event e → q'.mpoPrev m = if m = n then some p else q.mpoPrev m) ∧
      ∀ m, m ≠ .event e → q'.mbIn m = q.mbIn m := by
  simp only [remove, hin, if_true, hn, setPrev, setNext, setIn, hp, if_neg hne.symm]
  refine ⟨_, rfl, fun m hm => ?_, fun m hm => ?_, fun m hm => ?_⟩
  · simp only [if_neg hm]
  · simp only [if_neg hm]
  · simp only [if_neg hm]

/-- The walk meets the events of the ring in order. -/
theorem firstFree_eq {locked : Nat} {start : Option (QueueNode ν)}
    (h : Seg q.mpoNext start (l.map .event) (some .head)) (hnodup : l.Nodup) :
    q.firstFree locked start = some l[locked]? := by
  induction l generalizing locked start with
  | nil =>
    rw [List.map_nil, seg_nil] at h
    subst h
    cases locked <;> rfl
  | cons e l ih =>
    obtain ⟨rfl, hl⟩ := h
    obtain ⟨he, hnodup⟩ := List.nodup_cons.mp hnodup
    cases locked with
    | zero => rfl
    | succ locked =>
      have hnext : q.mpoNext (.event e) ≠ some (.event e) := by
        rw [hl.start]
        cases l with
        | nil => simp
        | cons e' l =>
          have hne : e' ≠ e := fun heq => he (heq ▸ List.mem_cons_self)
          simpa using hne
      unfold firstFree
      rw [if_neg hnext, ih hl hnodup, List.getElem?_cons_succ]

namespace Use

variable {u u' : Use ν} {call : Call ν} {locked : Nat}

/-- Posting an event that is not pending puts it at the end of the ring. -/
theorem Sound.post (h : u.Sound) (he : e ∉ u.pending) :
    ∃ u', u.step (.post e) = some u' ∧ u'.Sound := by
  obtain ⟨z, hz⟩ := h.ring.exists_last
  have hnot : QueueNode.event e ∉ QueueNode.head :: u.pending.map QueueNode.event := by
    simpa using he
  have hze : QueueNode.event e ≠ z := by
    rintro rfl
    rw [h.ring.prev_head] at hz
    exact hnot (List.mem_of_getLast? hz)
  obtain ⟨q', hpost, hnext, hprev, hin⟩ := post_spec (e := e) hz
  refine ⟨⟨q', u.pending ++ [e]⟩, ?_, ?_, ?_⟩
  · simp only [Use.step, hpost, Option.map_some, if_neg he]
  · unfold WellFormed
    rw [List.map_append]
    apply h.ring.insert hnot
    · rw [hnext, if_neg hze, if_pos rfl]
    · rw [hprev, if_neg (by simp), if_pos rfl, hz]
    · rw [hprev, if_pos rfl]
    · intro y hy
      rw [hz] at hy
      rw [hnext, if_pos (Option.some.inj hy).symm]
    · intro y hy hne
      have hyz : y ≠ z := fun heq => hne (heq ▸ hz)
      rw [hnext, if_neg hyz, if_neg]
      rintro rfl
      exact hnot hy
    · intro y hy
      have hyh : y ≠ .head := by
        rintro rfl
        simp at hy
      rw [hprev, if_neg hyh, if_neg]
      rintro rfl
      exact hnot (List.mem_cons_of_mem _ hy)
  · intro e' he'
    simp only [hin]
    split
    · rfl
    · next hne =>
      rcases List.mem_append.mp he' with hmem | hmem
      · exact h.isIn e' hmem
      · rw [List.mem_singleton] at hmem
        exact absurd (congrArg QueueNode.event hmem) hne

/-- Posting an event that is pending breaks the ring: the last node now points to the
event. -/
theorem Sound.repost (h : u.Sound) (he : e ∈ u.pending) (hstep : u.step (.post e) = some u') :
    ¬ u'.WellFormed := by
  intro h'
  obtain ⟨z, hz⟩ := h.ring.exists_last
  obtain ⟨q', hpost, hnext, -, -⟩ := post_spec (e := e) hz
  simp only [Use.step, hpost, Option.map_some, if_pos he, Option.some.injEq] at hstep
  subst hstep
  have hlast : q'.mpoPrev .head = some z := by
    rw [h'.prev_head, ← h.ring.prev_head, hz]
  have hhead := h'.next_last hlast
  rw [hnext, if_pos rfl] at hhead
  exact absurd hhead (by simp)

/-- A thread takes out a pending event, or none. -/
theorem Sound.process (h : u.Sound) :
    ∃ u', u.step (.process locked) = some u' ∧ u'.Sound := by
  simp only [Use.step, Queue.process]
  split
  · exact ⟨_, rfl, h⟩
  have hnodup : u.pending.Nodup := (List.nodup_cons.mp h.ring.nodup).2.of_map _
  rw [firstFree_eq h.ring.forth.2 hnodup]
  cases hget : u.pending[locked]? with
  | none => exact ⟨_, rfl, h⟩
  | some e =>
    obtain ⟨l₁, l₂, hsplit⟩ := List.append_of_mem (List.mem_of_getElem? hget)
    have hring := h.ring
    unfold WellFormed at hring
    rw [hsplit, List.map_append, List.map_cons] at hring
    obtain ⟨n, p, hn, hp, hne, -⟩ := hring.neighbours
    have hmem : e ∈ u.pending := by
      rw [hsplit]
      exact List.mem_append_right _ List.mem_cons_self
    obtain ⟨q', hremove, hnext, hprev, hin⟩ := remove_spec (h.isIn e hmem) hn hp hne
    have herase : u.pending.erase e = l₁ ++ l₂ := by
      rw [hsplit] at hnodup ⊢
      have hl₁ : e ∉ l₁ := fun hl => (List.nodup_append.mp hnodup).2.2 e hl e List.mem_cons_self rfl
      rw [List.erase_append_right _ hl₁, List.erase_cons_head]
    refine ⟨⟨q', l₁ ++ l₂⟩, ?_, ?_, ?_⟩
    · simp only [hremove, Option.map_some, herase]
    · unfold WellFormed
      rw [List.map_append]
      apply hring.remove
      · intro y hy
        rw [hnext y (hring.ne_of_mem hy), hn, hp]
        simp only [Option.some.injEq, eq_comm]
      · intro y hy
        rw [hprev y (hring.ne_of_mem hy), hn, hp]
        simp only [Option.some.injEq, eq_comm]
    · intro e' he'
      have hmem' : e' ∈ u.pending := List.mem_of_mem_erase (herase ▸ he')
      have hne' : QueueNode.event e' ≠ .event e := by
        apply hring.ne_of_mem
        rw [← List.map_append]
        exact List.mem_cons_of_mem _ (List.mem_map_of_mem he')
      rw [hin _ hne']
      exact h.isIn e' hmem'

/-- One call keeps the ring, if and only if it does not post a pending event. -/
theorem Sound.step (h : u.Sound) :
    ∃ u', u.step call = some u' ∧ (u.Fresh call → u'.Sound) ∧ (u'.WellFormed → u.Fresh call) := by
  cases call with
  | post e =>
    by_cases he : e ∈ u.pending
    · obtain ⟨z, hz⟩ := h.ring.exists_last
      obtain ⟨q', hpost, -⟩ := post_spec (e := e) hz
      have hstep : u.step (.post e) = some ⟨q', u.pending⟩ := by
        simp only [Use.step, hpost, Option.map_some, if_pos he]
      exact ⟨_, hstep, fun hfresh => absurd he hfresh, fun h' => absurd h' (h.repost he hstep)⟩
    · obtain ⟨u', hstep, hu'⟩ := h.post he
      exact ⟨u', hstep, fun _ => hu', fun _ => he⟩
  | process locked =>
    obtain ⟨u', hstep, hu'⟩ := h.process
    exact ⟨u', hstep, fun _ => hu', fun _ => trivial⟩

theorem Sound.wellFormedRun_iff {calls : List (Call ν)} (h : u.Sound) :
    u.WellFormedRun calls ↔ u.FreshRun calls := by
  induction calls generalizing u with
  | nil => exact ⟨fun _ => trivial, fun _ => h.ring⟩
  | cons call calls ih =>
    obtain ⟨u', hstep, hsound, hfresh⟩ := h.step
    unfold WellFormedRun FreshRun
    rw [hstep]
    constructor
    · rintro ⟨-, _, ⟨⟩, hrun⟩
      have hcall : u.Fresh call := by
        cases calls with
        | nil => exact hfresh hrun
        | cons _ _ => exact hfresh hrun.1
      refine ⟨hcall, ?_⟩
      rintro _ ⟨⟩
      exact (ih (hsound hcall)).mp hrun
    · rintro ⟨hcall, hrun⟩
      exact ⟨h.ring, u', rfl, (ih (hsound hcall)).mpr (hrun u' rfl)⟩

omit [DecidableEq ν] in
theorem ring_empty : (init : Use ν).Sound := ⟨Ring.nil rfl rfl, by simp [init]⟩

/-- In every run the queue stays a well formed ring with each pending event once, in the
order of posting, if and only if no event is posted while it is pending. -/
theorem postedRing_iff (calls : List (Call ν)) :
    (init : Use ν).WellFormedRun calls ↔ (init : Use ν).FreshRun calls :=
  ring_empty.wellFormedRun_iff

/-- An event that is ready to be read is posted, then another one, and then the first
one's timer expires. -/
theorem postedRing_broken :
    ¬ (init : Use Nat).WellFormedRun [.post 0, .post 1, .post 0] :=
  fun h => absurd (ring_empty.wellFormedRun_iff.mp h) (by decide)

end Use

end Queue

end Netfram
