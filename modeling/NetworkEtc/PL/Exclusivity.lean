-- SUMMARY: When at most one node at a time holds the lease, and a run in which two do.
import NetworkEtc.PL.Rounds

/-!
# Exclusive leases

At most one node takes itself for the owner of the lease, in every run without
duplicated datagrams in which no acceptor loses track of a lease that is not over.

The handlers do not see to the latter. An acceptor's timer is set to the duration in
milliseconds, while the duration is added to a time in seconds elsewhere, so the timer
runs out long before the lease does; and an acceptor takes a proposal below the one it
has accepted, if the promise for the latter did not reach it.
-/

namespace PL

open Library Netfram LeaseEvent

variable {numNodes : UInt32}

section Step

variable {out : Output numNodes.toNat} {h : History numNodes}
  {answered : Fin numNodes.toNat → List (Datagram numNodes.toNat)} {v v' : View numNodes}
  {i : Fin numNodes.toNat} {lease' : PaxosLease} {es : List Effect}

theorem Sound.tick (hs : Sound out h answered v) {now' : UInt64} (hle : v.now ≤ now')
    (hnow : now'.toNat < 2 ^ 34) : Sound out h answered { v with now := now' } := by
  have hle' := UInt64.le_iff_toNat_le.mp hle
  refine ⟨hnow, { hs.ids with }, { hs.flow with }, { hs.linked with past := ?_, acceptor := ?_ }⟩
  · exact fun e he => (hs.linked.past e he).trans hle'
  · intro a
    refine { hs.linked.acceptor a with live := fun p t ht hlive => ?_ }
    exact (hs.linked.acceptor a).live p t ht (hle'.trans hlive)

/-- The moves that use up no message. -/
theorem Sound.quiet (hs : Sound out h answered v) (hcell : numNodes.toNat ≤ maxCellSize)
    {input : Option PLeaseMsg}
    (hmicro : PaxosLease.Micro keeping (configOf i) v.now input false (v.lease i) lease' es)
    (hinput : ∀ msg, input = some msg → msg.isRequest = true →
      roundOf msg.proposalID ≤ rounds out)
    (hroom : rounds (out ++ es.map fun e => (i, e)) < 2 ^ 40) :
    ∃ h' answered', Sound (out ++ es.map fun e => (i, e)) h' answered' (v.put i lease' es) := by
  have hmove := micro_idMove hmicro
  have hacceptor := hs.linked.acceptor i
  have hproposer := hs.linked.proposer i
  have hlearner := hs.linked.learner i
  have hsame : ∀ φ, Phase.active φ (v.lease i).proposer = true →
      Phase.active φ (v.lease i).proposer = true ∧
      (v.lease i).proposer.state.proposalID = (v.lease i).proposer.state.proposalID :=
    fun _ hactive => ⟨hactive, rfl⟩
  cases hmicro with
  | silent _ hes =>
    exact ⟨h, answered, hs.idle hcell hroom (by simp [hes]) hmove hinput hsame hacceptor hproposer
      hlearner (by simp [hes])⟩
  | flag _ _ =>
    exact ⟨h, answered, hs.idle hcell hroom (by simp) hmove hinput hsame hacceptor hproposer
      hlearner (by simp)⟩
  | prepare _ => exact ⟨h, _, hs.start hcell rfl rfl rfl rfl hroom⟩
  | rest _ =>
    have hphase : ∀ φ, Phase.active φ { (v.lease i).proposer with
        state.preparing := false, state.proposing := false } = false := by
      intro φ
      cases φ <;> rfl
    refine ⟨h, answered, hs.idle hcell hroom (by simp) hmove hinput (fun φ hactive => ?_) hacceptor
      (.inactive hphase) hlearner (by simp)⟩
    simp [hphase] at hactive
  | raise _ _ _ =>
    refine ⟨h, answered, hs.idle hcell hroom (by simp) hmove hinput (fun φ hactive => ?_) hacceptor
      (hproposer.congr (by simp) (by simp) (by simp) (by simp)) hlearner (by simp)⟩
    cases φ <;> simpa [Phase.active] using hactive
  | forget _ hforget =>
    exact ⟨h, answered, hs.idle hcell hroom (by simp) hmove hinput hsame (hacceptor.forget hforget)
      hproposer hlearner (by simp)⟩
  | expire _ =>
    refine ⟨h, answered, hs.idle hcell hroom (by simp) hmove hinput hsame hacceptor hproposer
      (fun hlearned => ?_) (by simp)⟩
    cases hlearned

/-- The moves that use up a datagram. -/
theorem Sound.use (hs : Sound out h answered v) (hcell : numNodes.toNat ≤ maxCellSize)
    {d : Datagram numNodes.toNat} (hd : d ∈ v.inFlight)
    (hmicro : PaxosLease.Micro keeping (configOf d.dst) v.now (some d.msg) true (v.lease d.dst)
      lease' es)
    (hroom : rounds (out ++ es.map fun e => (d.dst, e)) < 2 ^ 40) :
    ∃ h' answered', Sound (out ++ es.map fun e => (d.dst, e)) h' answered'
      ((v.take d).put d.dst lease' es) := by
  have hmove := micro_idMove hmicro
  cases hmicro with
  | request _ hmsg _ hserve hout =>
    obtain rfl := Option.some.inj hmsg
    obtain ⟨h', hs'⟩ := hs.request hcell hd hserve hout hroom
    exact ⟨h', answered, hs'⟩
  | answer _ hmsg hout =>
    obtain rfl := Option.some.inj hmsg
    exact hs.answer hcell hd hout hroom
  | learn _ hmsg htype hexpire =>
    obtain rfl := Option.some.inj hmsg
    refine ⟨h, answered, (hs.take hd).idle hcell hroom (by simp) hmove ?_
      (fun _ hactive => ⟨hactive, rfl⟩) (hs.linked.acceptor d.dst) (hs.linked.proposer d.dst)
      (fun _ howner => ?_) (by simp)⟩
    · rintro _ ⟨⟩
      exact hs.ids.round_request d hd
    · -- Only the owner itself sends a lease to learn, so the lease is this node's own.
      obtain ⟨hsrc, p, t, hchosen, hlocal⟩ := (hs.linked.backed d hd).learnChosen htype
      have heq : d.src = d.dst := configOf_nodeID_inj (hsrc.symm.trans howner)
      rw [hexpire howner]
      exact ⟨p, t, heq ▸ hchosen, hlocal⟩

theorem Sound.step (hs : Sound out h answered v) (hcell : numNodes.toNat ≤ maxCellSize)
    {out' : Output numNodes.toNat} (hstep : View.Step keeping False v v' out')
    (hroom : rounds (out ++ out') < 2 ^ 40) :
    ∃ h' answered', Sound (out ++ out') h' answered' v' := by
  cases hstep with
  | tick hle hnow =>
    rw [List.append_nil]
    exact ⟨h, answered, hs.tick hle hnow⟩
  | lose hd =>
    rw [List.append_nil]
    exact ⟨h, answered, hs.take hd⟩
  | duplicate hdup _ => exact hdup.elim
  | own hmicro => exact hs.quiet hcell hmicro (by simp) hroom
  | read hd hmicro =>
    refine hs.quiet hcell hmicro ?_ hroom
    rintro _ ⟨⟩
    exact hs.ids.round_request _ hd
  | use hd hmicro => exact hs.use hcell hd hmicro hroom

theorem Sound.run (hs : Sound out h answered v) (hcell : numNodes.toNat ≤ maxCellSize)
    {out' : Output numNodes.toNat} (hrun : View.Run keeping False v v' out')
    (hroom : rounds (out ++ out') < 2 ^ 40) :
    ∃ h' answered', Sound (out ++ out') h' answered' v' := by
  induction hrun with
  | nil =>
    rw [List.append_nil]
    exact ⟨h, answered, hs⟩
  | snoc _ hstep ih =>
    rw [← List.append_assoc] at hroom ⊢
    have hroom' := rounds_append ▸ hroom
    obtain ⟨h', answered', hs'⟩ := ih (by omega)
    exact hs'.step hcell hstep hroom

end Step

-- ---------------------------------------------------------------------------
-- Runs of a cluster
-- ---------------------------------------------------------------------------

namespace System

/-- What `IsLeaseOwner` returns at node `i`. -/
def isLeaseOwner (s : System numNodes) (i : Fin numNodes.toNat) : Bool :=
  (PLeaseLearner.isLeaseOwner (s.nodes i).rconf s.clock.sec (s.nodes i).lease).1

/-- No two nodes take themselves for the owner. -/
def Exclusive (s : System numNodes) : Prop :=
  ∀ i j, s.isLeaseOwner i = true → s.isLeaseOwner j = true → i = j

def Label.isDuplicate {n : Nat} : Label n → Bool
  | .duplicate _ => true
  | _ => false

/-- The node whose acceptor's timer a step handles, if it does. -/
def forgets? (st : Step (System numNodes) (Label numNodes.toNat) (Output numNodes.toNat)) :
    Option (Fin numNodes.toNat) :=
  match st.input with
  | .handleTimeout i .acceptorLeaseTimer =>
    if (st.pre.nodes i).posted.contains .acceptorLeaseTimer then some i else none
  | _ => none

/-- A run in which ids do not run out, the network duplicates nothing, and no acceptor
loses track of a lease that is not over. -/
structure Kept (tr : Trace numNodes) : Prop where
  rounds_lt : rounds (outputs tr) < 2 ^ 40
  noDuplicates : ∀ st ∈ tr, st.input.isDuplicate = false
  /-- No acceptor handles its timer before the lease it has accepted is over. -/
  forgetsExpired : ∀ st ∈ tr, ∀ i ∈ forgets? st,
    (st.pre.nodes i).lease.acceptor.accepted = true →
      (st.pre.nodes i).lease.acceptor.acceptedExpireTime < st.pre.clock.sec
  /-- No acceptor is handed a proposal it would accept that is below the one it has
  accepted, before that one is over. -/
  acceptsUpwards : ∀ st ∈ tr, ∀ d ∈ delivered? st, d.msg.type = .proposeRequest →
    (st.pre.nodes d.dst).lease.acceptor.accepted = true →
    ¬ (st.pre.nodes d.dst).lease.acceptor.acceptedExpireTime < st.pre.clock.sec →
    ¬ d.msg.proposalID < (st.pre.nodes d.dst).lease.acceptor.promisedProposalID →
    (st.pre.nodes d.dst).lease.acceptor.acceptedProposalID ≤ d.msg.proposalID

section Kept

variable {tr : Trace numNodes}
  {st : Step (System numNodes) (Label numNodes.toNat) (Output numNodes.toNat)}

theorem Kept.tail (h : Kept (st :: tr)) : Kept tr where
  rounds_lt := by
    have hlt := h.rounds_lt
    rw [outputs, rounds_append] at hlt
    omega
  noDuplicates st' hst' := h.noDuplicates st' (List.mem_cons_of_mem _ hst')
  forgetsExpired st' hst' := h.forgetsExpired st' (List.mem_cons_of_mem _ hst')
  acceptsUpwards st' hst' := h.acceptsUpwards st' (List.mem_cons_of_mem _ hst')

/-- Each step of such a run keeps to the rule of the moves. -/
theorem Kept.allowed (h : Kept tr) (hst : st ∈ tr) : Allowed keeping False st.pre st.input := by
  cases hinput : st.input with
  | duplicate k =>
    have hnot := h.noDuplicates st hst
    simp [hinput, Label.isDuplicate] at hnot
  | handleTimeout i event =>
    cases event with
    | acceptorLeaseTimer =>
      intro hposted
      apply h.forgetsExpired st hst i
      simp [forgets?, hinput, hposted]
    | _ => exact trivial
  | deliver k =>
    intro d hd _
    exact h.acceptsUpwards st hst d (delivered?_eq_some.mpr ⟨k, hinput, hd⟩)
  | _ => exact trivial

end Kept

theorem sound_init (now : CTimeValue) (mem : Fin numNodes.toNat → PLeaseProposer) :
    Sound [] [] (fun _ => []) (machine numNodes now mem).init.view where
  clock := now.sec_lt
  ids := (runIdInv_init now mem).ids
  flow := by
    have hphase : ∀ φ i, Phase.active φ
        ((machine numNodes now mem).init.view.lease i).proposer = false := by
      intro φ i
      cases φ <;> rfl
    refine ⟨?_, ?_, ?_, ?_, ?_⟩
    · simp [hphase]
    · exact fun i hprep => absurd ((hphase .prepare i).symm.trans hprep) Bool.false_ne_true
    · simp [machine, view, tokens]
    · simp [hphase]
    · exact fun i hboth => absurd ((hphase .prepare i).symm.trans hboth.1) Bool.false_ne_true
  linked := by
    refine ⟨trivial, by simp, by simp, fun a => ⟨by simp, by simp, ?_⟩, fun i => .inactive ?_,
      ?_, by simp [machine, view]⟩
    · simp [machine, view, Process.init, PaxosLease.init, PLeaseAcceptorState.init]
    · intro φ
      cases φ <;> rfl
    · intro i hlearned
      cases hlearned

theorem sound_run (now : CTimeValue) (mem : Fin numNodes.toNat → PLeaseProposer)
    (labels : List (Label numNodes.toNat)) (hcell : numNodes.toNat ≤ maxCellSize)
    (hkept : Kept ((machine numNodes now mem).trace labels)) :
    ∃ h answered, Sound (outputs ((machine numNodes now mem).trace labels)) h answered
      ((machine numNodes now mem).run labels).view := by
  refine (machine numNodes now mem).invariant
    (P := fun tr s => ∃ h answered, Sound (outputs tr) h answered s.view)
    (fun _ _ => Kept.tail) ⟨[], _, sound_init now mem⟩ ?_ labels hkept
  rintro labels label hkept ⟨h, answered, hs⟩
  have hallowed := hkept.allowed List.mem_cons_self
  exact hs.run hcell (step_run (run_rconf now mem labels) label hallowed) hkept.rounds_lt

/-- A node that takes itself for the owner has a chosen lease that is not over. -/
theorem chosen_of_isLeaseOwner {s : System numNodes} {out : Output numNodes.toNat}
    {h : History numNodes} {answered : Fin numNodes.toNat → List (Datagram numNodes.toNat)}
    (hs : Sound out h answered s.view) (hconfig : ∀ i, (s.nodes i).rconf = configOf i)
    {i : Fin numNodes.toNat} (howner : s.isLeaseOwner i = true) :
    ∃ p t, Chosen h i p t ∧ t ≤ s.clock.sec.toNat ∧ s.clock.sec.toNat ≤ t + leaseTime := by
  obtain ⟨hlearned, hnode, hlive⟩ := PLeaseLearner.of_isLeaseOwner howner
  rw [hconfig i] at hnode
  obtain ⟨p, t, hchosen, hexpire⟩ := hs.linked.learner i hlearned hnode
  refine ⟨p, t, hchosen, hs.linked.past _ hchosen.1, ?_⟩
  rw [← hexpire]
  exact Nat.le_of_not_lt fun hlt => hlive (UInt64.lt_iff_toNat_lt.mpr hlt)

theorem exclusive_run (now : CTimeValue) (mem : Fin numNodes.toNat → PLeaseProposer)
    (labels : List (Label numNodes.toNat)) (hcell : numNodes.toNat ≤ maxCellSize)
    (hkept : Kept ((machine numNodes now mem).trace labels)) :
    Exclusive ((machine numNodes now mem).run labels) := by
  intro i j hi hj
  obtain ⟨h, answered, hs⟩ := sound_run now mem labels hcell hkept
  obtain ⟨p, t, hp, hpast, hlive⟩ := chosen_of_isLeaseOwner hs (run_rconf now mem labels) hi
  obtain ⟨q, t', hq, hpast', hlive'⟩ := chosen_of_isLeaseOwner hs (run_rconf now mem labels) hj
  exact hs.linked.valid.owner_unique hp hq ⟨hpast, hpast'⟩ ⟨hlive, hlive'⟩

/-- In every run of a cluster of at most 256 nodes that meets the condition, at most one
node at a time takes itself for the owner of the lease: at the end of the run and
before each of its steps. -/
theorem exclusive_of_kept (now : CTimeValue) (mem : Fin numNodes.toNat → PLeaseProposer)
    (labels : List (Label numNodes.toNat)) (hcell : numNodes.toNat ≤ maxCellSize)
    (hkept : Kept ((machine numNodes now mem).trace labels)) :
    Exclusive ((machine numNodes now mem).run labels) ∧
      ∀ st ∈ (machine numNodes now mem).trace labels, Exclusive st.pre := by
  refine ⟨exclusive_run now mem labels hcell hkept, ?_⟩
  induction labels with
  | nil => simp
  | cons label labels ih =>
    intro st hst
    rcases List.mem_cons.mp hst with rfl | hst
    · exact exclusive_run now mem labels hcell hkept.tail
    · exact ih hkept.tail st hst

/-- Node 2 of three acquires the lease. -/
def acquires : List (Label 3) :=
  [.deliver 4, .deliver 2, .deliver 2, .deliver 1, .deliver 1, .deliver 1, .deliver 1, .deliver 0,
    .deliver 0, .call node2 .acquireLease]

theorem exclusive_acquires :
    isLeaseOwner ((machine 3 (.ofSec 1000) fun _ => .zeroed).run acquires) node2 = true ∧
    Exclusive ((machine 3 (.ofSec 1000) fun _ => .zeroed).run acquires) := by
  refine ⟨by decide, (exclusive_of_kept _ _ _ (by decide) ?_).1⟩
  exact ⟨by decide, by decide, by decide, by decide⟩

/-- Nodes 1 and 2 both acquire the lease. Node 0 does not see the prepare request of
node 2; it accepts its proposal, which makes node 2 the owner, and then the late and
lower proposal of node 1, whose owner it reports when node 1 prepares again. -/
def acquireBoth : List (Label 3) :=
  [.deliver 8, .deliver 7, .deliver 7, .deliver 6, .deliver 6, .deliver 6, .deliver 6, .deliver 5,
    .deliver 5, .deliver 5, .deliver 5, .deliver 5, .deliver 2, .deliver 2, .deliver 2, .deliver 8,
    .deliver 6, .deliver 6, .deliver 6, .deliver 5, .deliver 5, .deliver 5, .deliver 2, .deliver 2,
    .deliver 4, .deliver 4, .deliver 0, .deliver 0, .call node2 .acquireLease, .call node1 .acquireLease]

set_option maxRecDepth 10000 in
theorem not_exclusive :
    (∀ st ∈ (machine 3 (.ofSec 1000) fun _ => .zeroed).trace acquireBoth,
      st.input.isDuplicate = false) ∧
    ¬ Exclusive ((machine 3 (.ofSec 1000) fun _ => .zeroed).run acquireBoth) := by
  refine ⟨by decide, fun h => ?_⟩
  have heq := h node1 node2 (by decide) (by decide)
  exact absurd heq (by decide)

end System

end PL
