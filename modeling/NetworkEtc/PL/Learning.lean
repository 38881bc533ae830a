-- SUMMARY: When a proposer tells the others to learn its lease, and whether a majority has accepted it.
import Mathlib.Data.Finset.Card
import NetworkEtc.PL.Network

/-!
# Learning after a quorum

A proposer counts acceptances and does not look at who sent them. The count is at
most the number of nodes heard from as long as no node is heard from twice; a
datagram that arrives twice is counted twice.
-/

namespace PL

open Library Netfram

variable {numNodes : UInt32}

/-- The messages node `a` writes, in order. -/
def sentBy {n : Nat} (a : Fin n) (out : Output n) : List PLeaseMsg :=
  out.filterMap fun (j, e) => if j = a then e.msg? else none

namespace System

/-- The sender of the acceptance of `id` that a step hands to node `i`, if it does. -/
def acceptance? (i : Fin numNodes.toNat) (id : UInt64)
    (st : Step (System numNodes) (Label numNodes.toNat) (Output numNodes.toNat)) :
    Option (Fin numNodes.toNat) :=
  (delivered? st).bind fun d =>
    if d.dst = i ∧ d.msg.type = .proposeAccepted ∧ d.msg.proposalID = id then some d.src else none

/-- The nodes from which node `i` has received an acceptance of `id`. -/
def heard (i : Fin numNodes.toNat) (id : UInt64) (tr : Trace numNodes) :
    Finset (Fin numNodes.toNat) :=
  (tr.filterMap (acceptance? i id)).toFinset

/-- Whenever a node tells the others to learn its current proposal, a majority has
sent acceptances of it. -/
def LearnedByQuorum (tr : Trace numNodes) : Prop :=
  ∀ later st earlier, tr = later ++ st :: earlier →
    ∀ i msg, (i, Effect.broadcastMessage msg) ∈ st.output → msg.type = .learnChosen →
      ∃ acceptors : Finset (Fin numNodes.toNat), numNodes.toNat < 2 * acceptors.card ∧
        ∀ a ∈ acceptors, ∃ m ∈ sentBy a (outputs earlier), m.type = .proposeAccepted ∧
          m.proposalID = (st.pre.nodes i).lease.proposer.state.proposalID

/-- No node that is proposing is handed a second acceptance of its proposal from the
same sender. -/
def AcceptedOnce : Trace numNodes → Prop
  | [] => True
  | st :: earlier =>
    (∀ d ∈ delivered? st, d.msg.type = .proposeAccepted →
      (st.pre.nodes d.dst).lease.proposer.state.proposing = true →
      d.msg.proposalID = (st.pre.nodes d.dst).lease.proposer.state.proposalID →
      d.src ∉ heard d.dst d.msg.proposalID earlier) ∧ AcceptedOnce earlier

instance decidableAcceptedOnce : (tr : Trace numNodes) → Decidable (AcceptedOnce tr)
  | [] => inferInstanceAs (Decidable True)
  | _ :: earlier =>
    have := decidableAcceptedOnce earlier
    inferInstanceAs (Decidable (_ ∧ AcceptedOnce earlier))

end System

-- ---------------------------------------------------------------------------
-- The count of one proposer
-- ---------------------------------------------------------------------------

/-- A proposer has counted no more acceptances than there are. -/
def Counted (heard : UInt64 → Nat) (p : PLeaseProposer) : Prop :=
  p.state.proposing = true → p.numAccepted ≤ heard p.state.proposalID

section Count

variable {counts counts' : UInt64 → Nat} {rconf : ReplicatedConfig} {now : UInt64}

theorem Counted.mono {p : PLeaseProposer} (h : Counted counts p)
    (hle : ∀ id, counts id ≤ counts' id) : Counted counts' p :=
  fun hprop => (h hprop).trans (hle _)

theorem Counted.congr {p p' : PLeaseProposer} (h : Counted counts p)
    (hprop : p'.state.proposing = p.state.proposing)
    (hid : p'.state.proposalID = p.state.proposalID) (hcount : p'.numAccepted = p.numAccepted) :
    Counted counts p' := by
  intro hprop'
  rw [hid, hcount]
  exact h (hprop ▸ hprop')

theorem counted_of_not_proposing {p : PLeaseProposer} (h : p.state.proposing = false) :
    Counted counts p := by
  intro hprop
  rw [h] at hprop
  cases hprop

/-- A move that looks at no answer counts nothing and learns nothing. -/
theorem micro_counted {rules : Rules} {input : Option PLeaseMsg} {used : Bool}
    {lease lease' : PaxosLease} {es : List Effect}
    (h : PaxosLease.Micro rules rconf now input used lease lease' es)
    (hinput : ∀ msg, input = some msg → msg.isResponse = false)
    (hcounted : Counted counts lease.proposer) :
    Counted counts lease'.proposer ∧ ∀ msg ∈ broadcasts es, msg.type ≠ .learnChosen := by
  cases h with
  | silent _ hes =>
    refine ⟨hcounted, fun msg hmsg => ?_⟩
    have hsent : msg ∈ sentMsgs es :=
      List.mem_filterMap.mpr ⟨_, mem_broadcasts.mp hmsg, rfl⟩
    simp [hes] at hsent
  | flag _ _ | forget _ _ | expire _ => exact ⟨hcounted, by simp⟩
  | learn _ _ _ _ => exact ⟨hcounted, by simp⟩
  | prepare _ =>
    refine ⟨counted_of_not_proposing rfl, ?_⟩
    simp [PLeaseMsg.prepareRequest, PLeaseMsg.init]
  | rest _ => exact ⟨counted_of_not_proposing rfl, by simp⟩
  | raise _ _ _ => exact ⟨hcounted.congr (by simp) (by simp) (by simp), by simp⟩
  | request _ _ _ _ hout =>
    refine ⟨hcounted, ?_⟩
    cases hout <;> simp
  | answer _ hmsg hout =>
    have hnot := hinput _ hmsg
    simp only [PLeaseMsg.isResponse, Bool.or_eq_false_iff] at hnot
    cases hout with
    | skipped _ hes _ =>
      refine ⟨hcounted.congr rfl rfl rfl, ?_⟩
      rcases hes with rfl | rfl <;> simp
    | prepareCounted hresp _ _ | prepareRestarted hresp _ _ | gaveUp hresp _ _
    | proposed hresp _ _ _ _ => simp [hnot.1] at hresp
    | proposeCounted hresp _ _ | proposeRestarted hresp _ _ | learned hresp _ _ _ _ =>
      simp [hnot.2] at hresp

theorem moves_counted {rules : Rules} {input : Option PLeaseMsg} {used : Bool}
    {lease lease' : PaxosLease} {es : List Effect}
    (h : PaxosLease.Moves rules rconf now input used lease lease' es)
    (hinput : ∀ msg, input = some msg → msg.isResponse = false)
    (hcounted : Counted counts lease.proposer) :
    Counted counts lease'.proposer ∧ ∀ msg ∈ broadcasts es, msg.type ≠ .learnChosen := by
  induction h with
  | nil => exact ⟨hcounted, by simp⟩
  | quiet _ hmicro ih | use _ hmicro ih =>
    obtain ⟨hcounted', hes⟩ := ih hcounted
    obtain ⟨hcounted'', hes'⟩ := micro_counted hmicro hinput hcounted'
    refine ⟨hcounted'', fun msg hmsg => ?_⟩
    rcases List.mem_append.mp (broadcasts_append _ _ ▸ hmsg) with hmsg | hmsg
    · exact hes msg hmsg
    · exact hes' msg hmsg
  | after _ hmicro ih =>
    obtain ⟨hcounted', hes⟩ := ih hcounted
    obtain ⟨hcounted'', hes'⟩ := micro_counted hmicro (by simp) hcounted'
    refine ⟨hcounted'', fun msg hmsg => ?_⟩
    rcases List.mem_append.mp (broadcasts_append _ _ ▸ hmsg) with hmsg | hmsg
    · exact hes msg hmsg
    · exact hes' msg hmsg

/-- An answer is counted once, and if it ends the round the count is a majority. -/
theorem outcome_counted {p p' : PLeaseProposer} {msg : PLeaseMsg} {es : List Effect}
    (h : PLeaseProposer.Outcome rconf now p msg p' es) (hcounted : Counted counts p)
    (hle : ∀ id, counts id ≤ counts' id)
    (hnew : msg.type = .proposeAccepted → p.state.proposing = true →
      msg.proposalID = p.state.proposalID → counts msg.proposalID < counts' msg.proposalID) :
    Counted counts' p' ∧ ∀ m ∈ broadcasts es, m.type = .learnChosen →
      rconf.minMajority ≤ counts' p.state.proposalID := by
  -- The count after the answer, in the phase in which it is one.
  have hcount : p.state.proposing = true → msg.proposalID = p.state.proposalID →
      (PLeaseProposer.countProposeResponse { p with msg := msg }).numAccepted ≤
        counts' p.state.proposalID := by
    intro hprop hid
    unfold PLeaseProposer.countProposeResponse
    dsimp only
    split
    · rename_i htype
      have hlt := hnew htype hprop hid
      rw [hid] at hlt
      exact Nat.succ_le_of_lt (Nat.lt_of_le_of_lt (hcounted hprop) hlt)
    · exact (hcounted hprop).trans (hle _)
  cases h with
  | skipped _ hes _ =>
    refine ⟨(hcounted.congr rfl rfl rfl).mono hle, ?_⟩
    rcases hes with rfl | rfl <;> simp
  | prepareCounted _ _ _ | gaveUp _ _ _ =>
    exact ⟨(hcounted.congr (by simp) (by simp) (by simp)).mono hle, by simp⟩
  | prepareRestarted _ _ _ | proposeRestarted _ _ _ =>
    refine ⟨counted_of_not_proposing rfl, ?_⟩
    simp [PLeaseMsg.prepareRequest, PLeaseMsg.init]
  | proposed _ _ _ _ _ =>
    refine ⟨fun _ => Nat.zero_le _, ?_⟩
    simp [PLeaseMsg.proposeRequest, PLeaseMsg.init]
  | proposeCounted _ hprop hid =>
    refine ⟨fun _ => ?_, by simp⟩
    rw [PLeaseProposer.countProposeResponse_state]
    exact hcount hprop hid
  | learned _ hprop hid hmaj _ =>
    refine ⟨counted_of_not_proposing rfl, fun _ _ _ => hmaj.trans (hcount hprop hid)⟩

/-- The same for a whole step of a process. -/
theorem process_counted (proc : Process) (now : CTimeValue) (op : Process.Op)
    (hcounted : Counted counts proc.lease.proposer) (hle : ∀ id, counts id ≤ counts' id)
    (hnew : ∀ msg, op = .onRead msg → msg.type = .proposeAccepted →
      proc.lease.proposer.state.proposing = true →
      msg.proposalID = proc.lease.proposer.state.proposalID →
      counts msg.proposalID < counts' msg.proposalID) :
    Counted counts' (proc.step now op).1.lease.proposer ∧
    ∀ m ∈ broadcasts (proc.step now op).2, m.type = .learnChosen →
      proc.rconf.minMajority ≤ counts' proc.lease.proposer.state.proposalID := by
  by_cases hresp : ∃ msg, op = .onRead msg ∧ msg.isResponse = true
  · obtain ⟨msg, rfl, hresp⟩ := hresp
    have hnot : msg.isRequest = false := by
      cases htype : msg.type <;> simp_all [PLeaseMsg.isRequest, PLeaseMsg.isResponse,
        PLeaseMsg.isPrepareResponse, PLeaseMsg.isProposeResponse]
    have hout := outcome_counted (PLeaseProposer.processMsg_outcome proc.rconf now.sec
      proc.lease.proposer msg) hcounted hle (hnew msg rfl)
    simpa [Process.step, Process.commit, PaxosLease.onRead, PaxosLease.withProposer, hresp, hnot]
      using hout
  · have hquiet : Counted counts (proc.step now op).1.lease.proposer ∧
        ∀ msg ∈ broadcasts (proc.step now op).2, msg.type ≠ .learnChosen := by
      by_cases hread : ∃ msg, op = .onRead msg
      · obtain ⟨msg, rfl⟩ := hread
        obtain ⟨used, hmoves⟩ : ∃ used, PaxosLease.Moves .any proc.rconf now.sec (some msg) used
            proc.lease _ _ := System.onRead_step_moves proc now msg fun _ => trivial
        refine moves_counted hmoves ?_ hcounted
        rintro _ ⟨⟩
        simpa using fun h => hresp ⟨msg, rfl, h⟩
      · have hmoves : PaxosLease.Moves .any proc.rconf now.sec none false proc.lease
            (proc.step now op).1.lease (proc.step now op).2 :=
          System.step_moves proc now (fun msg h => hread ⟨msg, h⟩) fun _ _ => trivial
        exact moves_counted hmoves (by simp) hcounted
    exact ⟨hquiet.1.mono hle, fun m hm htype => absurd htype (hquiet.2 m hm)⟩

end Count

-- ---------------------------------------------------------------------------
-- Runs of a cluster
-- ---------------------------------------------------------------------------

section Output

variable {n : Nat} {a i : Fin n} {es : List Effect} {out out' : Output n} {msg : PLeaseMsg}

@[simp] theorem sentBy_append : sentBy a (out ++ out') = sentBy a out ++ sentBy a out' :=
  List.filterMap_append

theorem sentBy_map_self : sentBy i (es.map fun e => (i, e)) = sentMsgs es := by
  simp [sentBy, sentMsgs, List.filterMap_map]

end Output

namespace System

/-- Either no process takes a step, or one does: on its own, or with a datagram that
was in flight. -/
theorem step_cases (s : System numNodes) (label : Label numNodes.toNat) :
    ((s.step label).2 = [] ∧ (s.step label).1.nodes = s.nodes ∧
      ∀ d ∈ (s.step label).1.inFlight, d ∈ s.inFlight) ∨
    ∃ i op, (s.step label).2 = ((s.nodes i).step s.clock op).2.map (fun e => (i, e)) ∧
      (s.step label).1.nodes = Function.update s.nodes i ((s.nodes i).step s.clock op).1 ∧
      (∀ d ∈ (s.step label).1.inFlight, d ∈ s.inFlight ∨
        d ∈ ((s.nodes i).step s.clock op).2.flatMap (posts i)) ∧
      ∀ msg, op = .onRead msg → ∃ k d, label = .deliver k ∧ s.inFlight[k]? = some d ∧
        d.dst = i ∧ d.msg = msg := by
  cases label with
  | call i c => exact .inr ⟨i, .call c, rfl, rfl, fun d => List.mem_append.mp, by simp⟩
  | expire i event => exact .inr ⟨i, .expire event, rfl, rfl, fun d => List.mem_append.mp, by simp⟩
  | handleTimeout i event =>
    exact .inr ⟨i, .handleTimeout event, rfl, rfl, fun d => List.mem_append.mp, by simp⟩
  | deliver k =>
    cases hd : s.inFlight[k]? with
    | none => exact .inl (by simp [step, hd])
    | some d =>
      refine .inr ⟨d.dst, .onRead d.msg, ?_, ?_, ?_, ?_⟩
      · simp only [step, hd, act]
      · simp only [step, hd, act]
      · intro d' hd'
        simp only [step, hd, act] at hd'
        exact (List.mem_append.mp hd').imp_left List.mem_of_mem_eraseIdx
      · rintro _ ⟨⟩
        exact ⟨k, d, rfl, hd, rfl, rfl⟩
  | drop k => exact .inl ⟨rfl, rfl, fun d => List.mem_of_mem_eraseIdx⟩
  | duplicate k =>
    cases hd : s.inFlight[k]? with
    | none => exact .inl (by simp [step, hd])
    | some d =>
      refine .inl (by simp [step, hd, List.mem_of_getElem? hd])
  | tick now =>
    simp only [step]
    split <;> exact .inl ⟨rfl, rfl, fun _ => id⟩

theorem heard_cons {i : Fin numNodes.toNat} {id : UInt64} {tr : Trace numNodes}
    (st : Step (System numNodes) (Label numNodes.toNat) (Output numNodes.toNat)) :
    heard i id (st :: tr) = match acceptance? i id st with
      | some a => insert a (heard i id tr)
      | none => heard i id tr := by
  unfold heard
  rw [List.filterMap_cons]
  split <;> simp_all

theorem heard_subset_cons {i : Fin numNodes.toNat} {id : UInt64} {tr : Trace numNodes}
    (st : Step (System numNodes) (Label numNodes.toNat) (Output numNodes.toNat)) :
    heard i id tr ⊆ heard i id (st :: tr) := by
  rw [heard_cons]
  split
  · exact Finset.subset_insert _ _
  · exact Finset.Subset.refl _

/-- The counts are right, what is in flight was sent, and what was heard was sent. -/
structure LearnInv (tr : Trace numNodes) (s : System numNodes) : Prop where
  counted : ∀ i, Counted (fun id => (heard i id tr).card) (s.nodes i).lease.proposer
  sent : ∀ d ∈ s.inFlight, d.msg ∈ sentBy d.src (outputs tr)
  accepted : ∀ i id, ∀ a ∈ heard i id tr, ∃ m ∈ sentBy a (outputs tr),
    m.type = .proposeAccepted ∧ m.proposalID = id

section Step

variable {tr : Trace numNodes} {s : System numNodes}
  {st : Step (System numNodes) (Label numNodes.toNat) (Output numNodes.toNat)}

/-- An acceptance that has been heard by the end of a step was sent before it. -/
theorem LearnInv.heard_sent (h : LearnInv tr s) (hpre : st.pre = s) {i : Fin numNodes.toNat}
    {id : UInt64} {a : Fin numNodes.toNat} (ha : a ∈ heard i id (st :: tr)) :
    ∃ m ∈ sentBy a (outputs tr), m.type = .proposeAccepted ∧ m.proposalID = id := by
  rw [heard_cons] at ha
  split at ha
  · rename_i b hb
    rcases Finset.mem_insert.mp ha with rfl | ha
    · obtain ⟨d, hdelivered, hd⟩ := Option.bind_eq_some_iff.mp hb
      obtain ⟨k, -, hk⟩ := delivered?_eq_some.mp hdelivered
      split at hd
      · rename_i hacc
        obtain rfl := Option.some.inj hd
        exact ⟨d.msg, h.sent d (List.mem_of_getElem? (hpre ▸ hk)), hacc.2⟩
      · cases hd
    · exact h.accepted i id a ha
  · exact h.accepted i id a ha

/-- A step in which nobody is heard from twice keeps the invariant, and whoever learns
in it has heard from a majority. -/
theorem LearnInv.step (h : LearnInv tr s) (hconfig : ∀ i, (s.nodes i).rconf = configOf i)
    (hpre : st.pre = s) (hstep : s.step st.input = (st.post, st.output))
    (honce : ∀ d, delivered? st = some d → d.msg.type = .proposeAccepted →
      (s.nodes d.dst).lease.proposer.state.proposing = true →
      d.msg.proposalID = (s.nodes d.dst).lease.proposer.state.proposalID →
      d.src ∉ heard d.dst d.msg.proposalID tr) :
    LearnInv (st :: tr) st.post ∧
    ∀ i msg, (i, Effect.broadcastMessage msg) ∈ st.output → msg.type = .learnChosen →
      (configOf i).minMajority ≤
        (heard i (s.nodes i).lease.proposer.state.proposalID (st :: tr)).card := by
  have hle : ∀ i id, (heard i id tr).card ≤ (heard i id (st :: tr)).card :=
    fun i id => Finset.card_le_card (heard_subset_cons st)
  have hkept : ∀ {a : Fin numNodes.toNat} {m : PLeaseMsg}, m ∈ sentBy a (outputs tr) →
      m ∈ sentBy a (outputs (st :: tr)) := by
    intro a m hm
    rw [outputs, sentBy_append]
    exact List.mem_append_left _ hm
  have haccepted : ∀ i id, ∀ a ∈ heard i id (st :: tr), ∃ m ∈ sentBy a (outputs (st :: tr)),
      m.type = .proposeAccepted ∧ m.proposalID = id := by
    intro i id a ha
    obtain ⟨m, hm, hacc⟩ := h.heard_sent hpre ha
    exact ⟨m, hkept hm, hacc⟩
  have hcases := step_cases s st.input
  rw [hstep] at hcases
  dsimp only at hcases
  rcases hcases with ⟨hout, hnodes, hflight⟩ | ⟨i, op, hout, hnodes, hflight, hop⟩
  · refine ⟨⟨fun i => ?_, fun d hd => hkept (h.sent d (hflight d hd)), haccepted⟩, by simp [hout]⟩
    rw [hnodes]
    exact (h.counted i).mono (hle i)
  · -- The process that steps counts what it reads; the others count as before.
    have hcount := process_counted (s.nodes i) s.clock op (h.counted i) (hle i) ?_
    · refine ⟨⟨fun j => ?_, fun d hd => ?_, haccepted⟩, fun j msg hmsg htype => ?_⟩
      · rw [hnodes]
        by_cases hj : j = i
        · subst hj
          rw [Function.update_self]
          exact hcount.1
        · rw [Function.update_of_ne hj]
          exact (h.counted j).mono (hle j)
      · rcases hflight d hd with hd | hd
        · exact hkept (h.sent d hd)
        · obtain ⟨rfl, hmsg⟩ := mem_posts hd
          rw [outputs, sentBy_append, hout, sentBy_map_self]
          exact List.mem_append_right _ hmsg
      · rw [hout] at hmsg
        obtain ⟨e, he, heq⟩ := List.mem_map.mp hmsg
        obtain ⟨rfl, rfl⟩ := Prod.mk.inj heq
        have hmaj := hcount.2 msg (mem_broadcasts.mpr he) htype
        rwa [hconfig i] at hmaj
    · intro msg hread htype hprop hid
      obtain ⟨k, d, hinput, hk, rfl, rfl⟩ := hop msg hread
      have hdelivered : delivered? st = some d :=
        delivered?_eq_some.mpr ⟨k, hinput, hpre ▸ hk⟩
      have hacceptance : acceptance? d.dst d.msg.proposalID st = some d.src := by
        simp [acceptance?, hdelivered, htype]
      apply Finset.card_lt_card
      rw [heard_cons, hacceptance]
      exact Finset.ssubset_insert (honce d hdelivered htype hprop hid)

end Step

theorem learnInv_init (now : CTimeValue) (mem : Fin numNodes.toNat → PLeaseProposer) :
    LearnInv [] (machine numNodes now mem).init := by
  refine ⟨fun i => counted_of_not_proposing rfl, ?_, ?_⟩ <;> simp [machine, heard]

/-- In every run in which no proposer is handed a second acceptance of its proposal
from the same sender, a proposer tells the others to learn only after a majority of
nodes has accepted. Nothing else is asked of the network. -/
theorem learnedByQuorum_of_acceptedOnce (now : CTimeValue)
    (mem : Fin numNodes.toNat → PLeaseProposer) (labels : List (Label numNodes.toNat))
    (honce : AcceptedOnce ((machine numNodes now mem).trace labels)) :
    LearnedByQuorum ((machine numNodes now mem).trace labels) := by
  refine ((machine numNodes now mem).invariant (C := AcceptedOnce)
    (P := fun tr s => LearnInv tr s ∧ LearnedByQuorum tr) (fun _ _ h => h.2)
    ⟨learnInv_init now mem, by simp [LearnedByQuorum]⟩ ?_ labels honce).2
  rintro labels label honce ⟨hinv, hquorum⟩
  obtain ⟨hinv', hlearn⟩ := hinv.step (run_rconf now mem labels) rfl rfl honce.1
  refine ⟨hinv', fun later st earlier heq i msg hmsg htype => ?_⟩
  cases later with
  | nil =>
    obtain ⟨rfl, rfl⟩ := List.cons.inj heq
    have hmaj := hlearn i msg hmsg htype
    simp only [ReplicatedConfig.minMajority, configOf, ReplicatedConfig.loaded] at hmaj
    have hpre : ((machine numNodes now mem).stepAfter labels label).pre =
        (machine numNodes now mem).run labels := rfl
    refine ⟨heard i _ (_ :: (machine numNodes now mem).trace labels), ?_,
      fun a ha => hinv.heard_sent hpre ha⟩
    exact Nat.lt_of_lt_of_le (by omega) (Nat.mul_le_mul_left 2 hmaj)
  | cons _ later =>
    obtain ⟨-, heq⟩ := List.cons.inj heq
    exact hquorum later st earlier heq i msg hmsg htype

/-- Node 2 of three learns after nodes 0 and 1 have accepted. -/
def learns : List (Label 3) :=
  [.deliver 2, .deliver 2, .deliver 1, .deliver 1, .deliver 1, .deliver 1, .deliver 0, .deliver 0,
    .call node2 .acquireLease]

theorem learnedByQuorum_learns :
    (∃ msg, (node2, Effect.broadcastMessage msg) ∈
      ((machine 3 (.ofSec 1000) fun _ => .zeroed).stepAfter learns.tail (.deliver 2)).output ∧
      msg.type = .learnChosen) ∧
    LearnedByQuorum ((machine 3 (.ofSec 1000) fun _ => .zeroed).trace learns) := by
  refine ⟨⟨⟨.learnChosen, 2, 16777218, 0, 2, 70000, 71000, 2⟩, by decide⟩, ?_⟩
  exact learnedByQuorum_of_acceptedOnce _ _ _ (by decide)

/-- Only node 0 accepts, and its answer arrives twice. -/
def learnsTooSoon : List (Label 3) :=
  [.deliver 3, .deliver 0, .duplicate 3, .deliver 1, .deliver 1, .deliver 1, .deliver 0, .deliver 0,
    .call node2 .acquireLease]

theorem not_learnedByQuorum :
    ¬ LearnedByQuorum ((machine 3 (.ofSec 1000) fun _ => .zeroed).trace learnsTooSoon) := by
  intro h
  obtain ⟨acceptors, hcard, hsent⟩ := h [] _ _ rfl node2
    ⟨.learnChosen, 2, 16777218, 0, 2, 70000, 71000, 2⟩ (by decide) rfl
  have hzero : ∀ a : Fin 3, (∃ m ∈ sentBy a (outputs ((machine 3 (.ofSec 1000)
      fun _ => .zeroed).trace learnsTooSoon.tail)), m.type = .proposeAccepted) → a = 0 := by
    decide
  have hsub : acceptors ⊆ {node0} := by
    intro a ha
    obtain ⟨m, hm, htype, -⟩ := hsent a ha
    exact Finset.mem_singleton.mpr (hzero a ⟨m, hm, htype⟩)
  have hle := Finset.card_le_card hsub
  rw [Finset.card_singleton] at hle
  exact absurd hcard (by simp; omega)

end System

end PL
