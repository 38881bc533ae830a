-- SUMMARY: Runs of one PaxosLease proposer, the answers its counters stand for, and the rule of its proposals.
import NetworkEtc.PL.Proposer

/-!
# Runs of a proposer

The proposer keeps three counters and the best accepted proposal it was told of.
Here the counters are tied to the answers they stand for: at any moment of a
prepare phase there is a list of answers, and the counters are a function of it.
The rule that guards a proposal is then a statement about that list.
-/

namespace PL

open Library

namespace PLeaseProposer

-- ---------------------------------------------------------------------------
-- The answers behind the counters
-- ---------------------------------------------------------------------------

/-- The highest accepted proposal among the answers, newest first, and its owner.
An answer replaces one of the same id that came before it. -/
def bestAccepted (nodeID : UInt32) : List PLeaseMsg → UInt64 × UInt32
  | [] => (0, nodeID)
  | msg :: older =>
    let best := bestAccepted nodeID older
    if msg.type = .preparePreviouslyAccepted ∧ msg.acceptedProposalID ≥ best.1 then
      (msg.acceptedProposalID, msg.leaseOwner)
    else best

/-- The fields of a proposer in its prepare phase stand for the answers, newest
first. -/
structure PrepareTally (nodeID : UInt32) (p : PLeaseProposer) (answers : List PLeaseMsg) :
    Prop where
  response : ∀ msg ∈ answers, msg.isPrepareResponse = true
  received : p.numReceived = answers.length
  rejected : p.numRejected = answers.countP (fun msg => msg.type == .prepareRejected)
  best : (p.state.highestReceivedProposalID, p.state.leaseOwner) = bestAccepted nodeID answers

/-- The last of the answers with the highest accepted id, newest first. -/
def LastHighest (answers : List PLeaseMsg) (msg : PLeaseMsg) : Prop :=
  ∃ newer older, answers = newer ++ msg :: older ∧
    msg.type = .preparePreviouslyAccepted ∧
    (∀ a ∈ newer, a.type = .preparePreviouslyAccepted →
      a.acceptedProposalID < msg.acceptedProposalID) ∧
    (∀ a ∈ older, a.type = .preparePreviouslyAccepted →
      a.acceptedProposalID ≤ msg.acceptedProposalID)

theorem startPreparing_tally (rconf : ReplicatedConfig) (p : PLeaseProposer) :
    PrepareTally rconf.nodeID (startPreparing rconf p).1 [] where
  response := by simp
  received := rfl
  rejected := rfl
  best := rfl

/-- Counting an answer puts it in front of the answers counted before. -/
theorem PrepareTally.count {nodeID : UInt32} {p : PLeaseProposer} {answers : List PLeaseMsg}
    {msg : PLeaseMsg} (h : PrepareTally nodeID p answers) (hresp : msg.isPrepareResponse = true) :
    PrepareTally nodeID (countPrepareResponse { p with msg := msg }) (msg :: answers) := by
  have hbest1 : (bestAccepted nodeID answers).1 = p.state.highestReceivedProposalID := by
    rw [← h.best]
  have hresponse : ∀ m ∈ msg :: answers, m.isPrepareResponse = true := by
    intro m hm
    rcases List.mem_cons.mp hm with rfl | hm
    · exact hresp
    · exact h.response m hm
  unfold countPrepareResponse
  dsimp only
  split
  · rename_i hrej
    refine ⟨hresponse, ?_, ?_, ?_⟩
    · simp [h.received]
    · simp [h.rejected, hrej]
    · simp [bestAccepted, hrej, h.best]
  rename_i hrej
  split
  · rename_i hprev
    refine ⟨hresponse, ?_, ?_, ?_⟩
    · simp [h.received]
    · simp [h.rejected, hprev.1]
    · rw [bestAccepted, hbest1, if_pos hprev]
  · rename_i hprev
    refine ⟨hresponse, ?_, ?_, ?_⟩
    · simp [h.received]
    · simp [h.rejected, hrej]
    · rw [bestAccepted, hbest1, if_neg hprev]
      exact h.best

/-- What is not rejected is a promise. -/
theorem PrepareTally.promises {nodeID : UInt32} {p : PLeaseProposer} {answers : List PLeaseMsg}
    (h : PrepareTally nodeID p answers) :
    p.numReceived - p.numRejected = answers.countP PLeaseMsg.isPromise := by
  have hpromise : answers.countP PLeaseMsg.isPromise =
      answers.countP (fun msg => decide ¬ (msg.type == .prepareRejected) = true) := by
    refine List.countP_congr fun msg hmsg => ?_
    have hresp := h.response msg hmsg
    cases htype : msg.type <;>
      simp_all [PLeaseMsg.isPromise, PLeaseMsg.isPrepareResponse]
  have hlen := List.length_eq_countP_add_countP
    (fun msg : PLeaseMsg => msg.type == .prepareRejected) (l := answers)
  rw [h.received, h.rejected, hpromise]
  omega

theorem bestAccepted_le {nodeID : UInt32} {answers : List PLeaseMsg} {bound : UInt64}
    (h : ∀ a ∈ answers, a.type = .preparePreviouslyAccepted → a.acceptedProposalID ≤ bound) :
    (bestAccepted nodeID answers).1 ≤ bound := by
  induction answers with
  | nil => exact UInt64.zero_le
  | cons msg older ih =>
    unfold bestAccepted
    dsimp only
    split
    · rename_i hprev
      exact h msg List.mem_cons_self hprev.1
    · exact ih fun a ha => h a (List.mem_cons_of_mem _ ha)

/-- Either no answer tells of an accepted proposal, or the best one is an answer's. -/
theorem bestAccepted_cases (nodeID : UInt32) (answers : List PLeaseMsg) :
    ((∀ a ∈ answers, a.type ≠ .preparePreviouslyAccepted) ∧
      bestAccepted nodeID answers = (0, nodeID)) ∨
    ∃ b ∈ answers, b.type = .preparePreviouslyAccepted ∧
      bestAccepted nodeID answers = (b.acceptedProposalID, b.leaseOwner) ∧
      ∀ a ∈ answers, a.type = .preparePreviouslyAccepted →
        a.acceptedProposalID ≤ b.acceptedProposalID := by
  induction answers with
  | nil => exact .inl ⟨by simp, rfl⟩
  | cons msg older ih =>
    unfold bestAccepted
    dsimp only
    split
    · rename_i hprev
      refine .inr ⟨msg, List.mem_cons_self, hprev.1, rfl, fun a ha htype => ?_⟩
      rcases List.mem_cons.mp ha with rfl | ha
      · exact UInt64.le_refl _
      · rcases ih with ⟨hnone, -⟩ | ⟨b, -, -, hbest, hle⟩
        · exact absurd htype (hnone a ha)
        · rw [hbest] at hprev
          exact UInt64.le_trans (hle a ha htype) hprev.2
    · rename_i hprev
      rcases ih with ⟨hnone, hbest⟩ | ⟨b, hb, hbtype, hbest, hle⟩
      · refine .inl ⟨fun a ha => ?_, hbest⟩
        rcases List.mem_cons.mp ha with rfl | ha
        · intro htype
          exact hprev ⟨htype, hbest ▸ UInt64.zero_le⟩
        · exact hnone a ha
      · refine .inr ⟨b, List.mem_cons_of_mem _ hb, hbtype, hbest, fun a ha htype => ?_⟩
        rcases List.mem_cons.mp ha with rfl | ha
        · rw [hbest] at hprev
          exact UInt64.le_of_lt (UInt64.not_le.mp fun hge => hprev ⟨htype, hge⟩)
        · exact hle a ha htype

/-- The best accepted proposal is that of the last answer with the highest id. -/
theorem bestAccepted_eq_of_lastHighest {nodeID : UInt32} {answers : List PLeaseMsg}
    {msg : PLeaseMsg} (h : LastHighest answers msg) :
    bestAccepted nodeID answers = (msg.acceptedProposalID, msg.leaseOwner) := by
  obtain ⟨newer, older, rfl, htype, hnewer, holder⟩ := h
  induction newer with
  | nil =>
    have hle : (bestAccepted nodeID older).1 ≤ msg.acceptedProposalID := bestAccepted_le holder
    simp [bestAccepted, htype, hle]
  | cons a newer ih =>
    rw [List.cons_append, bestAccepted, ih fun b hb => hnewer b (List.mem_cons_of_mem _ hb)]
    apply if_neg
    rintro ⟨ha, hge⟩
    exact UInt64.not_le.mpr (hnewer a List.mem_cons_self ha) hge

-- ---------------------------------------------------------------------------
-- The machine
-- ---------------------------------------------------------------------------

/-- What one proposer goes through: calls, timeouts, requests of other nodes that
raise the highest id, answers, and new readings of the clock. -/
inductive Op where
  | startAcquireLease
  | stopAcquireLease
  | onAcquireLeaseTimeout
  | onExtendLeaseTimeout
  | bumpHighest (proposalID : UInt64)
  | processMsg (msg : PLeaseMsg)
  | clock (now : UInt64)

/-- A proposer and the clock it reads. -/
structure Clocked where
  now : UInt64
  proposer : PLeaseProposer

def call (s : Clocked) (r : PLeaseProposer × List Effect) : Clocked × List Effect :=
  ({ s with proposer := r.1 }, r.2)

def step (rconf : ReplicatedConfig) (s : Clocked) : Op → Clocked × List Effect
  | .startAcquireLease => call s (startAcquireLease rconf s.proposer)
  | .stopAcquireLease => call s (stopAcquireLease s.proposer)
  | .onAcquireLeaseTimeout => call s (onAcquireLeaseTimeout rconf s.proposer)
  | .onExtendLeaseTimeout => call s (onExtendLeaseTimeout rconf s.proposer)
  | .bumpHighest proposalID => call s (s.proposer.bumpHighest proposalID, [])
  | .processMsg msg => call s (processMsg rconf s.now s.proposer msg)
  | .clock now => ({ s with now := now }, [])

/-- The proposer after `Init` on memory that holds `mem`. -/
def machine (rconf : ReplicatedConfig) (now : UInt64) (mem : PLeaseProposer) :
    Machine Clocked Op (List Effect) where
  init := ⟨now, mem.init⟩
  step := step rconf

/-- The steps of a run, newest first. -/
abbrev Trace := List (Step Clocked Op (List Effect))

/-- Everything a step can do, as far as rounds go. -/
inductive Move (rconf : ReplicatedConfig) (s : Clocked) (op : Op) :
    PLeaseProposer → List Effect → Prop
  | quiet {p' : PLeaseProposer} {effects : List Effect}
      (hout : ∀ msg ∈ broadcasts effects, msg.type = .learnChosen)
      (hhigh : s.proposer.highestProposalID ≤ p'.highestProposalID)
      (hid : p'.state.proposalID = s.proposer.state.proposalID)
      (hphase : p'.state.preparing = true → p'.state.proposing = true →
        s.proposer.state.preparing = true ∧ s.proposer.state.proposing = true)
      (hprep : p'.state.preparing = true → s.proposer.state.preparing = true)
      (htally : ∀ answers, p'.state.preparing = true →
        PrepareTally rconf.nodeID s.proposer answers → PrepareTally rconf.nodeID p' answers)
      (huncounted : ∀ msg, op = .processMsg msg → p'.state.preparing = true →
        msg.isPrepareResponse = true → msg.proposalID ≠ s.proposer.state.proposalID) :
      Move rconf s op p' effects
  | restarted (p : PLeaseProposer) {before : List Effect} (hbefore : broadcasts before = [])
      (hhigh : p.highestProposalID = s.proposer.highestProposalID) :
      Move rconf s op (startPreparing rconf p).1 (before ++ (startPreparing rconf p).2)
  | counted (msg : PLeaseMsg) (hop : op = .processMsg msg)
      (hresp : msg.isPrepareResponse = true) (hprep : s.proposer.state.preparing = true)
      (hid : msg.proposalID = s.proposer.state.proposalID) :
      Move rconf s op (countPrepareResponse { s.proposer with msg := msg }) []
  | proposed (msg : PLeaseMsg) (hop : op = .processMsg msg)
      (hresp : msg.isPrepareResponse = true) (hprep : s.proposer.state.preparing = true)
      (hid : msg.proposalID = s.proposer.state.proposalID)
      (hmaj : rconf.minMajority ≤ (countPrepareResponse { s.proposer with msg := msg }).numReceived -
        (countPrepareResponse { s.proposer with msg := msg }).numRejected)
      (howner : (countPrepareResponse { s.proposer with msg := msg }).state.leaseOwner =
        rconf.nodeID)
      {p' : PLeaseProposer} {request : PLeaseMsg}
      (hhigh : p'.highestProposalID = s.proposer.highestProposalID)
      (hid' : p'.state.proposalID = s.proposer.state.proposalID)
      (hphase : p'.state.preparing = false)
      (htype : request.type = .proposeRequest)
      (hrequest : request.proposalID = s.proposer.state.proposalID) :
      Move rconf s op p' [.broadcastMessage request]

section Moves

variable {rconf : ReplicatedConfig} {s : Clocked} {op : Op}

/-- The tally reads only five fields. -/
theorem PrepareTally.congr {nodeID : UInt32} {p p' : PLeaseProposer} {answers : List PLeaseMsg}
    (h : PrepareTally nodeID p answers) (hstate : p'.state = p.state)
    (hreceived : p'.numReceived = p.numReceived) (hrejected : p'.numRejected = p.numRejected) :
    PrepareTally nodeID p' answers where
  response := h.response
  received := by rw [hreceived, h.received]
  rejected := by rw [hrejected, h.rejected]
  best := by rw [hstate, h.best]

/-- A step that leaves the phases and the counters alone. -/
theorem Move.idle {p' : PLeaseProposer} {effects : List Effect} (hout : broadcasts effects = [])
    (hhigh : s.proposer.highestProposalID ≤ p'.highestProposalID)
    (hstate : p'.state = s.proposer.state) (hreceived : p'.numReceived = s.proposer.numReceived)
    (hrejected : p'.numRejected = s.proposer.numRejected)
    (huncounted : ∀ msg, op = .processMsg msg → p'.state.preparing = true →
      msg.isPrepareResponse = true → msg.proposalID ≠ s.proposer.state.proposalID) :
    Move rconf s op p' effects :=
  .quiet (by simp [hout]) hhigh (by rw [hstate]) (by rw [hstate]; exact And.intro)
    (by rw [hstate]; exact id) (fun _ _ h => h.congr hstate hreceived hrejected) huncounted

/-- A step that ends without a prepare phase and asks for nothing. -/
theorem Move.unprepared {p' : PLeaseProposer} {effects : List Effect}
    (hout : ∀ msg ∈ broadcasts effects, msg.type = .learnChosen)
    (hhigh : p'.highestProposalID = s.proposer.highestProposalID)
    (hid : p'.state.proposalID = s.proposer.state.proposalID)
    (hprep : p'.state.preparing = false) : Move rconf s op p' effects :=
  .quiet hout (UInt64.le_of_eq hhigh.symm) hid (by simp [hprep]) (by simp [hprep])
    (by simp [hprep]) (by simp [hprep])

theorem Move.restarted_now (p : PLeaseProposer)
    (hhigh : p.highestProposalID = s.proposer.highestProposalID) :
    Move rconf s op (startPreparing rconf p).1 (startPreparing rconf p).2 := by
  have h : Move rconf s op (startPreparing rconf p).1 ([] ++ (startPreparing rconf p).2) :=
    .restarted p rfl hhigh
  exact h

theorem processMsg_move {msg : PLeaseMsg}
    (hexcl : ¬ (s.proposer.state.preparing = true ∧ s.proposer.state.proposing = true)) :
    Move rconf s (.processMsg msg) (processMsg rconf s.now s.proposer msg).1
      (processMsg rconf s.now s.proposer msg).2 := by
  have hout := processMsg_outcome rconf s.now s.proposer msg
  generalize processMsg rconf s.now s.proposer msg = r at hout ⊢
  obtain ⟨p', effects⟩ := r
  dsimp only at hout ⊢
  cases hout with
  | skipped _ hes hskip =>
    refine .idle ?_ (UInt64.le_refl _) rfl rfl rfl ?_
    · rcases hes with rfl | rfl <;> rfl
    · rintro _ ⟨⟩ hprep hresp
      exact hskip hresp hprep
  | prepareCounted hresp hprep hid => exact .counted msg rfl hresp hprep hid
  | prepareRestarted hresp hprep hid => exact .restarted_now _ (by simp)
  | gaveUp hresp hprep hid => exact .unprepared (by simp) (by simp) (by simp) rfl
  | proposed hresp hprep hid hmaj howner =>
    exact .proposed msg rfl hresp hprep hid hmaj howner (by simp) (by simp) rfl rfl rfl
  | proposeCounted hresp hprop hid =>
    have hnot : s.proposer.state.preparing = false := by
      simpa [hprop] using hexcl
    exact .unprepared (by simp) (by simp) (by simp) (by simpa using hnot)
  | proposeRestarted hresp hprop hid => exact .restarted_now _ (by simp)
  | learned hresp hprop hid hmaj hlive =>
    have hnot : s.proposer.state.preparing = false := by
      simpa [hprop] using hexcl
    apply Move.unprepared
    · simp [learn, broadcastMessage, PLeaseMsg.learnChosen, PLeaseMsg.init]
    · simp [learn, broadcastMessage]
    · simp [learn, broadcastMessage]
    · simpa [learn, broadcastMessage] using hnot

theorem step_move
    (hexcl : ¬ (s.proposer.state.preparing = true ∧ s.proposer.state.proposing = true)) :
    Move rconf s op (step rconf s op).1.proposer (step rconf s op).2 := by
  cases op with
  | startAcquireLease =>
    simp only [step, call, startAcquireLease, andThen_fst, andThen_snd]
    split
    · exact .restarted s.proposer rfl rfl
    · exact .idle rfl (UInt64.le_refl _) rfl rfl rfl (by rintro _ ⟨⟩)
  | stopAcquireLease => exact .unprepared (by simp [step, call, stopAcquireLease]) rfl rfl rfl
  | onAcquireLeaseTimeout => exact .restarted_now s.proposer rfl
  | onExtendLeaseTimeout => exact .restarted s.proposer rfl rfl
  | bumpHighest proposalID =>
    exact .idle rfl (highestProposalID_le_bumpHighest s.proposer proposalID)
      (bumpHighest_state _ _) (bumpHighest_numReceived _ _) (bumpHighest_numRejected _ _)
      (by rintro _ ⟨⟩)
  | processMsg msg => exact processMsg_move hexcl
  | clock now => exact .idle rfl (UInt64.le_refl _) rfl rfl rfl (by rintro _ ⟨⟩)

end Moves

-- ---------------------------------------------------------------------------
-- The rule of a proposal
-- ---------------------------------------------------------------------------

/-- A request of this type for `id`. -/
def asks (type : PLeaseMsgType) (id : UInt64) (msg : PLeaseMsg) : Bool :=
  msg.type == type && msg.proposalID == id

/-- How many requests of this type a run broadcasts for `id`. -/
def requests (type : PLeaseMsgType) (id : UInt64) (tr : Trace) : Nat :=
  (tr.map fun st => (broadcasts st.output).countP (asks type id)).sum

/-- The answer to the prepare request for `id` that a step counts, if it counts
one: the proposer is preparing, and the answer is for its current proposal. -/
def countedAnswer? (id : UInt64) (st : Step Clocked Op (List Effect)) : Option PLeaseMsg :=
  match st.input with
  | .processMsg msg =>
    if st.pre.proposer.state.preparing && msg.isPrepareResponse &&
        msg.proposalID == st.pre.proposer.state.proposalID && msg.proposalID == id then some msg
    else none
  | _ => none

/-- The answers counted for `id` since its prepare request went out, newest first. -/
def countedSincePrepare (id : UInt64) : Trace → List PLeaseMsg
  | [] => []
  | st :: earlier =>
    if (broadcasts st.output).any (asks .prepareRequest id) then []
    else (countedAnswer? id st).toList ++ countedSincePrepare id earlier

/-- The rounds of a run fit the 40 bits an id has for them. -/
def RoundsBelow (tr : Trace) : Prop :=
  ∀ st ∈ tr, ∀ msg ∈ broadcasts st.output, msg.type = .prepareRequest →
    roundOf st.pre.proposer.highestProposalID + 1 < 2 ^ 40

/-- Every proposal of a run follows its prepare request and a majority of promises
counted since, and the last of the highest accepted proposals among the answers
is one of this node. -/
def ProposeRule (rconf : ReplicatedConfig) (tr : Trace) : Prop :=
  ∀ later st earlier, tr = later ++ st :: earlier →
    ∀ msg ∈ broadcasts st.output, msg.type = .proposeRequest →
      (∃ st₀ ∈ earlier, ∃ msg₀ ∈ broadcasts st₀.output,
        asks .prepareRequest msg.proposalID msg₀ = true) ∧
      rconf.minMajority ≤
        (countedSincePrepare msg.proposalID (st :: earlier)).countP PLeaseMsg.isPromise ∧
      ∀ best, LastHighest (countedSincePrepare msg.proposalID (st :: earlier)) best →
        best.leaseOwner = rconf.nodeID

/-- The state of a proposer and the run that led to it. -/
structure RoundInv (rconf : ReplicatedConfig) (tr : Trace) (s : Clocked) : Prop where
  exclusive : ¬ (s.proposer.state.preparing = true ∧ s.proposer.state.proposing = true)
  current_le : s.proposer.state.proposalID ≤ s.proposer.highestProposalID
  asked_le : ∀ st ∈ tr, ∀ msg ∈ broadcasts st.output, msg.type ≠ .learnChosen →
    msg.proposalID ≤ s.proposer.highestProposalID
  prepared : s.proposer.state.preparing = true → ∃ st ∈ tr, ∃ msg ∈ broadcasts st.output,
    asks .prepareRequest s.proposer.state.proposalID msg = true
  unproposed : s.proposer.state.preparing = true →
    requests .proposeRequest s.proposer.state.proposalID tr = 0
  tally : s.proposer.state.preparing = true →
    PrepareTally rconf.nodeID s.proposer (countedSincePrepare s.proposer.state.proposalID tr)
  once : ∀ id, requests .proposeRequest id tr ≤ 1
  rule : ProposeRule rconf tr

@[simp] theorem requests_cons (type : PLeaseMsgType) (id : UInt64)
    (st : Step Clocked Op (List Effect)) (tr : Trace) :
    requests type id (st :: tr) =
      (broadcasts st.output).countP (asks type id) + requests type id tr := rfl

/-- An id above everything asked for is new. -/
theorem requests_eq_zero {type : PLeaseMsgType} {id : UInt64} {tr : Trace}
    (h : ∀ st ∈ tr, ∀ msg ∈ broadcasts st.output, ¬ asks type id msg = true) :
    requests type id tr = 0 := by
  induction tr with
  | nil => rfl
  | cons st tr ih =>
    rw [requests_cons, ih fun st' hst => h st' (List.mem_cons_of_mem _ hst),
      List.countP_eq_zero.mpr (h st List.mem_cons_self)]

/-- A step that broadcasts no proposal owes the rule nothing. -/
theorem ProposeRule.cons {rconf : ReplicatedConfig} {st : Step Clocked Op (List Effect)}
    {tr : Trace} (h : ProposeRule rconf tr)
    (hst : ∀ msg ∈ broadcasts st.output, msg.type ≠ .proposeRequest) :
    ProposeRule rconf (st :: tr) := by
  intro later st' earlier heq msg hmsg htype
  cases later with
  | nil =>
    obtain ⟨rfl, rfl⟩ := List.cons.inj heq
    exact absurd htype (hst msg hmsg)
  | cons _ later =>
    obtain ⟨rfl, rfl⟩ := List.cons.inj heq
    exact h later st' earlier rfl msg hmsg htype

section Rounds

variable {rconf : ReplicatedConfig} {tr : Trace} {s s' : Clocked} {op : Op}
  {effects : List Effect}

theorem countedSincePrepare_cons {id : UInt64} {st : Step Clocked Op (List Effect)}
    (h : ∀ msg ∈ broadcasts st.output, msg.type ≠ .prepareRequest) :
    countedSincePrepare id (st :: tr) =
      (countedAnswer? id st).toList ++ countedSincePrepare id tr := by
  rw [countedSincePrepare, if_neg]
  simp only [List.any_eq_true, asks, Bool.and_eq_true, beq_iff_eq]
  rintro ⟨msg, hmsg, htype, -⟩
  exact h msg hmsg htype

theorem countedAnswer?_processMsg {msg : PLeaseMsg} (hop : op = .processMsg msg)
    (hresp : msg.isPrepareResponse = true) (hprep : s.proposer.state.preparing = true)
    (hid : msg.proposalID = s.proposer.state.proposalID) :
    countedAnswer? s.proposer.state.proposalID ⟨s, op, effects, s'⟩ = some msg := by
  simp [countedAnswer?, hop, hresp, hprep, hid]

theorem countedAnswer?_eq_none (h : ∀ msg, op = .processMsg msg → msg.isPrepareResponse = true →
      msg.proposalID ≠ s.proposer.state.proposalID) :
    countedAnswer? s.proposer.state.proposalID ⟨s, op, effects, s'⟩ = none := by
  cases op with
  | processMsg msg =>
    have hmsg := h msg rfl
    simp only [countedAnswer?]
    apply if_neg
    simp only [Bool.and_eq_true, beq_iff_eq]
    rintro ⟨⟨⟨-, hresp⟩, hid⟩, -⟩
    exact hmsg hresp hid
  | _ => rfl

/-- What was asked for stays below the highest id when that goes up and the step
asks for nothing. -/
theorem RoundInv.asked_cons (h : RoundInv rconf tr s)
    (hhigh : s.proposer.highestProposalID ≤ s'.proposer.highestProposalID)
    (hout : ∀ msg ∈ broadcasts effects, msg.type ≠ .learnChosen →
      msg.proposalID ≤ s'.proposer.highestProposalID) :
    ∀ st ∈ (⟨s, op, effects, s'⟩ :: tr : Trace), ∀ msg ∈ broadcasts st.output,
      msg.type ≠ .learnChosen → msg.proposalID ≤ s'.proposer.highestProposalID := by
  intro st hst msg hmsg htype
  rcases List.mem_cons.mp hst with rfl | hst
  · exact hout msg hmsg htype
  · exact UInt64.le_trans (h.asked_le st hst msg hmsg htype) hhigh

/-- No proposal in the step, none more in the run. -/
theorem requests_cons_of_ne {type : PLeaseMsgType} {id : UInt64}
    {st : Step Clocked Op (List Effect)} (h : ∀ msg ∈ broadcasts st.output, msg.type ≠ type) :
    requests type id (st :: tr) = requests type id tr := by
  have hzero : (broadcasts st.output).countP (asks type id) = 0 := by
    refine List.countP_eq_zero.mpr fun msg hmsg => ?_
    simp [asks, h msg hmsg]
  rw [requests_cons, hzero, Nat.zero_add]

/-- A step that asks for nothing. -/
theorem RoundInv.quiet (h : RoundInv rconf tr s)
    (hout : ∀ msg ∈ broadcasts effects, msg.type = .learnChosen)
    (hhigh : s.proposer.highestProposalID ≤ s'.proposer.highestProposalID)
    (hid : s'.proposer.state.proposalID = s.proposer.state.proposalID)
    (hphase : s'.proposer.state.preparing = true → s'.proposer.state.proposing = true →
      s.proposer.state.preparing = true ∧ s.proposer.state.proposing = true)
    (hprep : s'.proposer.state.preparing = true → s.proposer.state.preparing = true)
    (htally : s'.proposer.state.preparing = true → PrepareTally rconf.nodeID s'.proposer
      (countedSincePrepare s.proposer.state.proposalID (⟨s, op, effects, s'⟩ :: tr))) :
    RoundInv rconf (⟨s, op, effects, s'⟩ :: tr) s' := by
  have hnoPropose : ∀ msg ∈ broadcasts effects, msg.type ≠ .proposeRequest := by
    intro msg hmsg
    rw [hout msg hmsg]
    decide
  refine ⟨?_, ?_, ?_, ?_, ?_, ?_, ?_, ?_⟩
  · rintro ⟨h₁, h₂⟩
    exact h.exclusive (hphase h₁ h₂)
  · exact hid ▸ UInt64.le_trans h.current_le hhigh
  · exact h.asked_cons hhigh fun msg hmsg htype => absurd (hout msg hmsg) htype
  · intro hp
    obtain ⟨st, hst, msg, hmsg, hasks⟩ := h.prepared (hprep hp)
    exact ⟨st, List.mem_cons_of_mem _ hst, msg, hmsg, hid ▸ hasks⟩
  · intro hp
    rw [requests_cons_of_ne hnoPropose, hid]
    exact h.unproposed (hprep hp)
  · intro hp
    rw [hid]
    exact htally hp
  · intro id
    rw [requests_cons_of_ne hnoPropose]
    exact h.once id
  · exact h.rule.cons hnoPropose

/-- A new round: its id is above everything asked for so far. -/
theorem RoundInv.restarted (h : RoundInv rconf tr s) {p : PLeaseProposer} {now : UInt64}
    {before : List Effect} (hbefore : broadcasts before = [])
    (hhigh : p.highestProposalID = s.proposer.highestProposalID)
    (hround : roundOf s.proposer.highestProposalID + 1 < 2 ^ 40) :
    RoundInv rconf
      (⟨s, op, before ++ (startPreparing rconf p).2, ⟨now, (startPreparing rconf p).1⟩⟩ :: tr)
      ⟨now, (startPreparing rconf p).1⟩ := by
  have hbroadcasts : broadcasts (before ++ (startPreparing rconf p).2) =
      [p.msg.prepareRequest rconf.nodeID (rconf.nextHighest p.highestProposalID)
        rconf.getPaxosID] := by
    rw [broadcasts_append, hbefore]
    rfl
  rw [← hhigh] at hround
  have hnew := startPreparing_highestProposalID rconf p hround
  have hlt : s.proposer.highestProposalID < rconf.nextHighest p.highestProposalID :=
    hhigh ▸ rconf.lt_nextHighest hround
  have hnoPropose : ∀ msg ∈ broadcasts (before ++ (startPreparing rconf p).2),
      msg.type ≠ .proposeRequest := by
    simp [hbefore, PLeaseMsg.prepareRequest, PLeaseMsg.init]
  refine ⟨?_, ?_, ?_, ?_, ?_, ?_, ?_, ?_⟩
  · simp
  · simp [hnew]
  · apply h.asked_cons
    · simpa [hnew] using UInt64.le_of_lt hlt
    · simp [hbefore, hnew, PLeaseMsg.prepareRequest]
  · intro _
    refine ⟨_, List.mem_cons_self, _, by rw [hbroadcasts]; exact List.mem_singleton_self _, ?_⟩
    simp [asks, PLeaseMsg.prepareRequest, PLeaseMsg.init]
  · intro _
    rw [requests_cons_of_ne hnoPropose]
    refine requests_eq_zero fun st hst msg hmsg hasks => ?_
    simp only [asks, startPreparing_state, Bool.and_eq_true, beq_iff_eq] at hasks
    have hle := h.asked_le st hst msg hmsg (by rw [hasks.1]; decide)
    exact UInt64.not_le.mpr hlt (hasks.2 ▸ hle)
  · intro _
    rw [countedSincePrepare, if_pos]
    · exact startPreparing_tally rconf p
    · dsimp only
      rw [hbroadcasts]
      simp [asks, PLeaseMsg.prepareRequest, PLeaseMsg.init]
  · intro id
    rw [requests_cons_of_ne hnoPropose]
    exact h.once id
  · exact h.rule.cons hnoPropose

/-- A proposal: the tally of the prepare phase, with the answer that completed the
majority, is what the rule asks for. -/
theorem RoundInv.proposed (h : RoundInv rconf tr s) {msg request : PLeaseMsg}
    (hop : op = .processMsg msg) (hresp : msg.isPrepareResponse = true)
    (hprep : s.proposer.state.preparing = true) (hid : msg.proposalID = s.proposer.state.proposalID)
    (hmaj : rconf.minMajority ≤ (countPrepareResponse { s.proposer with msg := msg }).numReceived -
      (countPrepareResponse { s.proposer with msg := msg }).numRejected)
    (howner : (countPrepareResponse { s.proposer with msg := msg }).state.leaseOwner =
      rconf.nodeID)
    (hhigh : s'.proposer.highestProposalID = s.proposer.highestProposalID)
    (hid' : s'.proposer.state.proposalID = s.proposer.state.proposalID)
    (hphase : s'.proposer.state.preparing = false) (htype : request.type = .proposeRequest)
    (hrequest : request.proposalID = s.proposer.state.proposalID) :
    RoundInv rconf (⟨s, op, [.broadcastMessage request], s'⟩ :: tr) s' := by
  have hbroadcasts : broadcasts [.broadcastMessage request] = [request] := rfl
  refine ⟨?_, ?_, ?_, ?_, ?_, ?_, ?_, ?_⟩
  · simp [hphase]
  · simpa [hid', hhigh] using h.current_le
  · refine h.asked_cons (by simp [hhigh]) ?_
    simpa [hbroadcasts, hrequest, hhigh] using fun _ => h.current_le
  · simp [hphase]
  · simp [hphase]
  · simp [hphase]
  · intro id
    have hcount : (broadcasts [.broadcastMessage request]).countP (asks .proposeRequest id) =
        if s.proposer.state.proposalID = id then 1 else 0 := by
      simp [hbroadcasts, asks, htype, hrequest]
    rw [requests_cons, hcount]
    split
    · rename_i heq
      rw [← heq, h.unproposed hprep]
    · simpa using h.once id
  · intro later st earlier heq m hm hm'
    cases later with
    | cons _ later =>
      obtain ⟨rfl, rfl⟩ := List.cons.inj heq
      exact h.rule later st earlier rfl m hm hm'
    | nil =>
      obtain ⟨rfl, rfl⟩ := List.cons.inj heq
      obtain rfl : m = request := by simpa [hbroadcasts] using hm
      have htally := (h.tally hprep).count hresp
      rw [hrequest, countedSincePrepare_cons (by simp [hbroadcasts, htype]),
        countedAnswer?_processMsg hop hresp hprep hid]
      refine ⟨h.prepared hprep, ?_, fun best hbest => ?_⟩
      · exact htally.promises ▸ hmaj
      · have hbest' := htally.best.trans (bestAccepted_eq_of_lastHighest hbest)
        exact (congrArg Prod.snd hbest').symm.trans howner

theorem RoundInv.step (h : RoundInv rconf tr s) (hmove : Move rconf s op s'.proposer effects)
    (hround : ∀ msg ∈ broadcasts effects, msg.type = .prepareRequest →
      roundOf s.proposer.highestProposalID + 1 < 2 ^ 40) :
    RoundInv rconf (⟨s, op, effects, s'⟩ :: tr) s' := by
  obtain ⟨now', p'⟩ := s'
  dsimp only at hmove
  cases hmove with
  | quiet hout hhigh hid hphase hprep htally huncounted =>
    refine h.quiet hout hhigh hid hphase hprep fun hp => ?_
    have hnoPrepare : ∀ msg ∈ broadcasts effects, msg.type ≠ .prepareRequest := by
      intro msg hmsg
      rw [hout msg hmsg]
      decide
    rw [countedSincePrepare_cons hnoPrepare,
      countedAnswer?_eq_none fun msg hop => huncounted msg hop hp]
    exact htally _ hp (h.tally (hprep hp))
  | restarted p hbefore hhigh =>
    exact h.restarted hbefore hhigh (by simpa [hbefore, PLeaseMsg.prepareRequest,
      PLeaseMsg.init] using hround)
  | counted msg hop hresp hprep hid =>
    refine h.quiet (by simp) (by simp) (by simp) (by simpa using And.intro) (by simp)
      fun _ => ?_
    rw [countedSincePrepare_cons (by simp), countedAnswer?_processMsg hop hresp hprep hid]
    exact (h.tally hprep).count hresp
  | proposed msg hop hresp hprep hid hmaj howner hhigh hid' hphase htype hrequest =>
    exact h.proposed hop hresp hprep hid hmaj howner hhigh hid' hphase htype hrequest

end Rounds

theorem roundInv_init (rconf : ReplicatedConfig) (now : UInt64) (mem : PLeaseProposer) :
    RoundInv rconf [] (machine rconf now mem).init := by
  refine ⟨?_, ?_, ?_, ?_, ?_, ?_, ?_, ?_⟩ <;>
    simp [machine, init, PLeaseProposerState.init, requests, ProposeRule]

theorem roundInv_run (rconf : ReplicatedConfig) (now : UInt64) (mem : PLeaseProposer)
    (ops : List Op) (hrounds : RoundsBelow ((machine rconf now mem).trace ops)) :
    RoundInv rconf ((machine rconf now mem).trace ops) ((machine rconf now mem).run ops) := by
  refine (machine rconf now mem).invariant (C := RoundsBelow)
    (fun _ _ h st hst => h st (List.mem_cons_of_mem _ hst)) (roundInv_init rconf now mem) ?_ ops
    hrounds
  intro ops op hrounds hinv
  exact hinv.step (step_move hinv.exclusive) (hrounds _ List.mem_cons_self)

/-- How many rounds a run starts. -/
def prepares (tr : Trace) : Nat :=
  (tr.map fun st => (broadcasts st.output).countP fun msg => msg.type == .prepareRequest).sum

/-- A request has brought the highest id there is: the round after it has the id 1, and so has
the next one. -/
def wrapped : List Op :=
  [.processMsg ⟨.prepareCurrentlyOpen, 2, 1, 0, 0, 0, 0, 0⟩,
    .processMsg ⟨.prepareCurrentlyOpen, 0, 1, 0, 0, 0, 0, 0⟩,
    .onAcquireLeaseTimeout,
    .processMsg ⟨.prepareCurrentlyOpen, 2, 1, 0, 0, 0, 0, 0⟩,
    .processMsg ⟨.prepareCurrentlyOpen, 0, 1, 0, 0, 0, 0, 0⟩,
    .startAcquireLease,
    .bumpHighest 18446744073709551615]

end PLeaseProposer

end PL
