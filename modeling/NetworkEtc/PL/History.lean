-- SUMMARY: What the nodes of a cluster hold and send, tied to a history of promises, acceptances and proposals.
import NetworkEtc.Library.LeaseHistory
import NetworkEtc.PL.ProposerRun
import NetworkEtc.PL.Tokens

/-!
# The history behind a view

A view shows what the nodes remember now. The argument for exclusive leases is about
what they did, so a history is kept beside the view, and `Linked` says what every
promise, acceptance and datagram of the view stands for in it.
-/

namespace PL

open Library Netfram LeaseEvent

instance linearOrderUInt64 : LinearOrder UInt64 where
  le_refl _ := UInt64.le_refl _
  le_trans _ _ _ := UInt64.le_trans
  le_antisymm _ _ := UInt64.le_antisymm
  lt_iff_le_not_ge a b := by
    simp only [UInt64.lt_iff_toNat_lt, UInt64.le_iff_toNat_le]
    omega
  le_total := UInt64.le_total
  toDecidableLE := inferInstance

variable {numNodes : UInt32}

abbrev History (numNodes : UInt32) := List (LeaseEvent (Fin numNodes.toNat) UInt64)

/-- How long a lease lasts, in seconds: the source adds its milliseconds to `Now()`. -/
def leaseTime : Nat := maxLeaseTime.toNat

theorem configOf_nodeID_inj {i j : Fin numNodes.toNat}
    (h : (configOf i).nodeID = (configOf j).nodeID) : i = j := by
  have hlt : ∀ k : Fin numNodes.toNat, (k : Nat) < 2 ^ 32 := fun k =>
    k.isLt.trans (UInt32.toNat_lt numNodes)
  have hnat := congrArg UInt32.toNat h
  simp only [configOf, ReplicatedConfig.loaded, UInt32.toNat_ofNat'] at hnat
  rw [Nat.mod_eq_of_lt (hlt i), Nat.mod_eq_of_lt (hlt j)] at hnat
  exact Fin.ext hnat

-- ---------------------------------------------------------------------------
-- Links
-- ---------------------------------------------------------------------------

/-- What a datagram says did happen. -/
structure Backed (h : History numNodes) (d : Datagram numNodes.toNat) : Prop where
  currentlyOpen : d.msg.type = .prepareCurrentlyOpen →
    ∃ t, promise d.src d.msg.proposalID none t ∈ h
  previouslyAccepted : d.msg.type = .preparePreviouslyAccepted →
    (∃ t, promise d.src d.msg.proposalID (some d.msg.acceptedProposalID) t ∈ h) ∧
    ∃ n t, d.msg.leaseOwner = (configOf n).nodeID ∧ propose n d.msg.acceptedProposalID t ∈ h
  proposeRequest : d.msg.type = .proposeRequest → d.msg.duration = maxLeaseTime ∧
    ∃ n t, d.msg.leaseOwner = (configOf n).nodeID ∧ propose n d.msg.proposalID t ∈ h
  proposeAccepted : d.msg.type = .proposeAccepted → ∃ t, accept d.src d.msg.proposalID t ∈ h
  learnChosen : d.msg.type = .learnChosen → d.msg.leaseOwner = (configOf d.src).nodeID ∧
    ∃ p t, Chosen h d.src p t ∧ d.msg.localExpireTime.toNat = t + leaseTime

/-- An acceptor remembers its promises, and what it has accepted while that lasts. -/
structure AcceptorLink (h : History numNodes) (now : Nat) (a : Fin numNodes.toNat)
    (state : PLeaseAcceptorState) : Prop where
  promised : ∀ q accepted t, promise a q accepted t ∈ h → q ≤ state.promisedProposalID
  live : ∀ p t, accept a p t ∈ h → now ≤ t + leaseTime → state.accepted = true ∧
    p ≤ state.acceptedProposalID ∧ t + leaseTime ≤ state.acceptedExpireTime.toNat
  owner : state.accepted = true → ∃ n t, state.acceptedLeaseOwner = (configOf n).nodeID ∧
    propose n state.acceptedProposalID t ∈ h

/-- The answers a proposer has counted are for its proposal, which is not in the history
while it prepares and is there once it proposes. -/
structure ProposerLink (h : History numNodes) (i : Fin numNodes.toNat) (p : PLeaseProposer)
    (answered : List (Datagram numNodes.toNat)) : Prop where
  preparing : p.state.preparing = true → (∀ n t, propose n p.state.proposalID t ∉ h) ∧
    PLeaseProposer.PrepareTally (configOf i).nodeID p (answered.map Datagram.msg)
  proposing : p.state.proposing = true → p.state.leaseOwner = (configOf i).nodeID ∧
    p.numAccepted ≤ answered.countP (fun d => d.msg.type == .proposeAccepted) ∧
    ∃ t, propose i p.state.proposalID t ∈ h ∧ p.state.expireTime.toNat = t + leaseTime
  answers : ∀ φ, Phase.active φ p = true → ∀ d ∈ answered,
    Backed h d ∧ d.msg.proposalID = p.state.proposalID

/-- A learner that takes its own node for the owner has a chosen lease to show. -/
def LearnerLink (h : History numNodes) (i : Fin numNodes.toNat) (learner : PLeaseLearnerState) :
    Prop :=
  learner.learned = true → learner.leaseOwner = (configOf i).nodeID →
    ∃ p t, Chosen h i p t ∧ learner.expireTime.toNat = t + leaseTime

structure Linked (out : Output numNodes.toNat) (h : History numNodes)
    (answered : Fin numNodes.toNat → List (Datagram numNodes.toNat)) (v : View numNodes) :
    Prop where
  valid : Valid leaseTime h
  past : ∀ e ∈ h, e.time ≤ v.now.toNat
  proposed : ∀ n p t, propose n p t ∈ h → p ∈ taken n out
  acceptor : ∀ a, AcceptorLink h v.now.toNat a (v.lease a).acceptor
  proposer : ∀ i, ProposerLink h i (v.lease i).proposer (answered i)
  learner : ∀ i, LearnerLink h i (v.lease i).learner
  backed : ∀ d ∈ v.inFlight, Backed h d

section Mono

variable {h : History numNodes} {evs : History numNodes} {i : Fin numNodes.toNat}

theorem Backed.append {d : Datagram numNodes.toNat} (hd : Backed h d) : Backed (evs ++ h) d where
  currentlyOpen htype := by
    obtain ⟨t, ht⟩ := hd.currentlyOpen htype
    exact ⟨t, List.mem_append_right _ ht⟩
  previouslyAccepted htype := by
    obtain ⟨⟨t, ht⟩, n, t', howner, ht'⟩ := hd.previouslyAccepted htype
    exact ⟨⟨t, List.mem_append_right _ ht⟩, n, t', howner, List.mem_append_right _ ht'⟩
  proposeRequest htype := by
    obtain ⟨hduration, n, t, howner, ht⟩ := hd.proposeRequest htype
    exact ⟨hduration, n, t, howner, List.mem_append_right _ ht⟩
  proposeAccepted htype := by
    obtain ⟨t, ht⟩ := hd.proposeAccepted htype
    exact ⟨t, List.mem_append_right _ ht⟩
  learnChosen htype := by
    obtain ⟨howner, p, t, hchosen, hexpire⟩ := hd.learnChosen htype
    exact ⟨howner, p, t, hchosen.mono fun _ => List.mem_append_right _, hexpire⟩

/-- What other nodes do is nothing to an acceptor. -/
theorem AcceptorLink.append {now : Nat} {a : Fin numNodes.toNat} {state : PLeaseAcceptorState}
    (hlink : AcceptorLink h now a state)
    (hpromise : ∀ q accepted t, promise a q accepted t ∉ evs)
    (haccept : ∀ p t, accept a p t ∉ evs) : AcceptorLink (evs ++ h) now a state where
  promised q accepted t ht := by
    rcases List.mem_append.mp ht with ht | ht
    · exact absurd ht (hpromise q accepted t)
    · exact hlink.promised q accepted t ht
  live p t ht := by
    rcases List.mem_append.mp ht with ht | ht
    · exact absurd ht (haccept p t)
    · exact hlink.live p t ht
  owner hacc := by
    obtain ⟨n, t, howner, ht⟩ := hlink.owner hacc
    exact ⟨n, t, howner, List.mem_append_right _ ht⟩

/-- Proposals of other ids are nothing to a proposer. -/
theorem ProposerLink.append {p : PLeaseProposer} {answered : List (Datagram numNodes.toNat)}
    (hlink : ProposerLink h i p answered)
    (hpropose : p.state.preparing = true → ∀ n t, propose n p.state.proposalID t ∉ evs) :
    ProposerLink (evs ++ h) i p answered where
  preparing hprep := by
    obtain ⟨hnone, htally⟩ := hlink.preparing hprep
    refine ⟨fun n t ht => ?_, htally⟩
    rcases List.mem_append.mp ht with ht | ht
    · exact hpropose hprep n t ht
    · exact hnone n t ht
  proposing hprop := by
    obtain ⟨howner, hcount, t, ht, hexpire⟩ := hlink.proposing hprop
    exact ⟨howner, hcount, t, List.mem_append_right _ ht, hexpire⟩
  answers φ hactive d hd := by
    obtain ⟨hbacked, hid⟩ := hlink.answers φ hactive d hd
    exact ⟨hbacked.append, hid⟩

theorem LearnerLink.append {learner : PLeaseLearnerState} (hlink : LearnerLink h i learner) :
    LearnerLink (evs ++ h) i learner := by
  intro hlearned howner
  obtain ⟨p, t, hchosen, hexpire⟩ := hlink hlearned howner
  exact ⟨p, t, hchosen.mono fun _ => List.mem_append_right _, hexpire⟩

end Mono

section Put

variable {out : Output numNodes.toNat} {h evs : History numNodes}
  {answered : Fin numNodes.toNat → List (Datagram numNodes.toNat)} {v : View numNodes}
  {i : Fin numNodes.toNat} {lease' : PaxosLease} {es : List Effect}

theorem Linked.take (hl : Linked out h answered v) (d : Datagram numNodes.toNat) :
    Linked out h answered (v.take d) :=
  { hl with backed := fun d' hd' => hl.backed d' (Multiset.mem_of_mem_erase hd') }

/-- What has to be seen when node `i` moves and adds `evs` to the history. -/
theorem Linked.put (hl : Linked out h answered v) {answered' : List (Datagram numNodes.toNat)}
    (hvalid : Valid leaseTime (evs ++ h))
    (hevs : ∀ e ∈ evs, e.node = i ∧ e.time = v.now.toNat)
    (hproposed : ∀ n p t, propose n p t ∈ evs → p ∈ taken n out ∧
      ∀ j, j ≠ i → (v.lease j).proposer.state.preparing = true →
        (v.lease j).proposer.state.proposalID ≠ p)
    (hacceptor : AcceptorLink (evs ++ h) v.now.toNat i lease'.acceptor)
    (hproposer : ProposerLink (evs ++ h) i lease'.proposer answered')
    (hlearner : LearnerLink (evs ++ h) i lease'.learner)
    (hbacked : ∀ msg ∈ sentMsgs es, ∀ dst, Backed (evs ++ h) ⟨i, dst, msg⟩) :
    Linked (out ++ es.map fun e => (i, e)) (evs ++ h) (Function.update answered i answered')
      (v.put i lease' es) where
  valid := hvalid
  past e he := by
    rcases List.mem_append.mp he with he | he
    · exact Nat.le_of_eq (hevs e he).2
    · exact hl.past e he
  proposed n p t ht := by
    rw [taken_append]
    apply List.mem_append_left _
    rcases List.mem_append.mp ht with ht | ht
    · exact (hproposed n p t ht).1
    · exact hl.proposed n p t ht
  acceptor a := by
    by_cases ha : a = i
    · subst ha
      rw [View.put_lease]
      exact hacceptor
    · rw [View.put_lease_ne ha]
      refine (hl.acceptor a).append (fun q accepted t ht => ?_) (fun p t ht => ?_)
      · exact ha (hevs _ ht).1
      · exact ha (hevs _ ht).1
  proposer j := by
    by_cases hj : j = i
    · subst hj
      rw [View.put_lease, Function.update_self]
      exact hproposer
    · rw [View.put_lease_ne hj, Function.update_of_ne hj]
      refine (hl.proposer j).append fun hprep n t ht => ?_
      exact (hproposed n _ t ht).2 j hj hprep rfl
  learner j := by
    by_cases hj : j = i
    · subst hj
      rw [View.put_lease]
      exact hlearner
    · rw [View.put_lease_ne hj]
      exact (hl.learner j).append
  backed d hd := by
    rcases Multiset.mem_add.mp hd with hd | hd
    · exact (hl.backed d hd).append
    · obtain ⟨rfl, hmsg⟩ := mem_posts (Multiset.mem_coe.mp hd)
      exact hbacked d.msg hmsg d.dst

/-- A move that adds nothing. -/
theorem Linked.put_nil (hl : Linked out h answered v)
    {answered' : List (Datagram numNodes.toNat)}
    (hacceptor : AcceptorLink h v.now.toNat i lease'.acceptor)
    (hproposer : ProposerLink h i lease'.proposer answered')
    (hlearner : LearnerLink h i lease'.learner)
    (hbacked : ∀ msg ∈ sentMsgs es, ∀ dst, Backed h ⟨i, dst, msg⟩) :
    Linked (out ++ es.map fun e => (i, e)) h (Function.update answered i answered')
      (v.put i lease' es) := by
  have hput : Linked _ ([] ++ h) (Function.update answered i answered') (v.put i lease' es) :=
    hl.put hl.valid (by simp) (by simp) hacceptor hproposer hlearner hbacked
  exact hput

end Put

end PL
