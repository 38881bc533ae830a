-- SUMMARY: The moves of a cluster without duplication, each with what it adds to the history.
import NetworkEtc.PL.History

/-!
# Rounds

Each move of `Micro` keeps the view, the tokens and the history together. A promise
and an acceptance are added when an acceptor sends them, and a proposal when a node has
counted a majority of promises.

Two moves of the acceptor would lose track of a lease that is not over: its timer, and
an acceptance below the one it has. `keeping` is the rule that neither happens.
-/

namespace PL

open Library Netfram LeaseEvent

variable {numNodes : UInt32}

/-- An acceptor forgets a lease only when it is over, and replaces one that is not over
only by one with a higher id. -/
def keeping : Rules where
  forget now state := state.accepted = true → state.acceptedExpireTime < now
  serve now state msg := msg.type = .proposeRequest → state.accepted = true →
    ¬ state.acceptedExpireTime < now → ¬ msg.proposalID < state.promisedProposalID →
    state.acceptedProposalID ≤ msg.proposalID

/-- Everything that is kept together. -/
structure Sound (out : Output numNodes.toNat) (h : History numNodes)
    (answered : Fin numNodes.toNat → List (Datagram numNodes.toNat)) (v : View numNodes) :
    Prop where
  clock : v.now.toNat < 2 ^ 34
  ids : IdInv out v
  flow : Tokens out answered v
  linked : Linked out h answered v

/-- The tokens after a node has broadcast a request. -/
theorem tokens_put_broadcast {φ ψ : Phase} {a i : Fin numNodes.toNat} {id : UInt64}
    {v : View numNodes} {lease' : PaxosLease} {es : List Effect} {msg : PLeaseMsg}
    (hes : es.flatMap (posts i) = posts i (.broadcastMessage msg))
    (htype : msg.type = ψ.request) :
    tokens φ a id (v.put i lease' es).inFlight =
      tokens φ a id v.inFlight + if φ = ψ ∧ id = msg.proposalID then 1 else 0 := by
  simp only [View.put, tokens_add, hes, tokens_broadcast htype]

section Own

variable {out : Output numNodes.toNat} {h : History numNodes}
  {answered : Fin numNodes.toNat → List (Datagram numNodes.toNat)} {v : View numNodes}
  {i : Fin numNodes.toNat} {lease' : PaxosLease} {es : List Effect}

theorem Sound.take (hs : Sound out h answered v) {d : Datagram numNodes.toNat}
    (hd : d ∈ v.inFlight) : Sound out h answered (v.take d) where
  clock := hs.clock
  ids := hs.ids.take d
  flow := by
    have hcalm : Tokens (out ++ []) answered (v.take d) := by
      refine hs.flow.calm (fun φ a id => ?_) fun _ _ hactive => ⟨hactive, rfl⟩
      have herase : tokens φ a id (v.inFlight.erase d) + _ = _ := tokens_erase hd
      exact herase ▸ Nat.le_add_right _ _
    rwa [List.append_nil] at hcalm
  linked := hs.linked.take d

/-- A move that begins nothing, adds nothing to the history, and sends neither a request
nor an answer. -/
theorem Sound.idle (hs : Sound out h answered v) (hcell : numNodes.toNat ≤ maxCellSize)
    (hroom : rounds (out ++ es.map fun e => (i, e)) < 2 ^ 40)
    (hes : ∀ msg ∈ sentMsgs es, msg.isRequest = false ∧ msg.isResponse = false)
    {input : Option PLeaseMsg}
    (hmove : IdMove (configOf i) input (v.lease i).proposer lease'.proposer es)
    (hinput : ∀ msg, input = some msg → msg.isRequest = true →
      roundOf msg.proposalID ≤ rounds out)
    (hphase : ∀ φ, Phase.active φ lease'.proposer = true →
      Phase.active φ (v.lease i).proposer = true ∧
      lease'.proposer.state.proposalID = (v.lease i).proposer.state.proposalID)
    (hacceptor : AcceptorLink h v.now.toNat i lease'.acceptor)
    (hproposer : ProposerLink h i lease'.proposer (answered i))
    (hlearner : LearnerLink h i lease'.learner)
    (hbacked : ∀ msg ∈ sentMsgs es, ∀ dst, Backed h ⟨i, dst, msg⟩) :
    Sound (out ++ es.map fun e => (i, e)) h answered (v.put i lease' es) where
  clock := hs.clock
  ids := (hs.ids.move hcell hmove hinput hroom).1
  flow := by
    refine hs.flow.calm (fun φ a id => ?_) fun φ j hactive => ?_
    · have hnone : tokens φ a id (es.flatMap (posts i) : List (Datagram numNodes.toNat)) = 0 := by
        refine tokens_eq_zero fun d hd => ?_
        obtain ⟨-, hmsg⟩ := mem_posts (Multiset.mem_coe.mp hd)
        exact not_carries (hes d.msg hmsg).1 (hes d.msg hmsg).2
      simp [View.put, tokens_add, hnone]
    · by_cases hj : j = i
      · subst hj
        rw [View.put_lease] at hactive ⊢
        exact hphase φ hactive
      · rw [View.put_lease_ne hj] at hactive ⊢
        exact ⟨hactive, rfl⟩
  linked := by
    have hput : Linked (out ++ es.map fun e => (i, e)) h _ (v.put i lease' es) :=
      hs.linked.put_nil hacceptor hproposer hlearner hbacked
    rwa [Function.update_eq_self] at hput

/-- The next id of a node is nobody's yet. -/
theorem IdInv.fresh (hids : IdInv out v) (hcell : numNodes.toNat ≤ maxCellSize)
    (hround : rounds out + 1 < 2 ^ 40) (i j : Fin numNodes.toNat) :
    (configOf i).nextHighest (v.lease i).proposer.highestProposalID ∉ taken j out := by
  intro htaken
  have hhighest := hids.round_highest i
  have hnext : roundOf (v.lease i).proposer.highestProposalID + 1 < 2 ^ 40 := by omega
  have hnode := hids.taken_node j _ htaken
  have hi : (i : Nat) < 2 ^ 8 := Nat.lt_of_lt_of_le i.isLt hcell
  rw [nextHighest_node hcell i hnext] at hnode
  obtain rfl : i = j := Fin.ext (by omega)
  exact UInt64.not_lt.mpr (hids.taken_le i _ htaken) ((configOf i).lt_nextHighest hnext)

/-- `StartPreparing` -/
theorem Sound.start (hs : Sound out h answered v) (hcell : numNodes.toNat ≤ maxCellSize)
    (hproposer : lease'.proposer = ((v.lease i).proposer.startPreparing (configOf i)).1)
    (hacceptor : lease'.acceptor = (v.lease i).acceptor)
    (hlearner : lease'.learner = (v.lease i).learner)
    (hes : es = ((v.lease i).proposer.startPreparing (configOf i)).2)
    (hroom : rounds (out ++ es.map fun e => (i, e)) < 2 ^ 40) :
    Sound (out ++ es.map fun e => (i, e)) h (Function.update answered i []) (v.put i lease' es) := by
  have hmove : IdMove (configOf i) none (v.lease i).proposer lease'.proposer es :=
    .takes _ rfl hproposer hes
  have hone : rounds (out ++ es.map fun e => (i, e)) = rounds out + 1 := by
    rw [rounds_append, rounds_map, hes]
    rfl
  have hfresh := hs.ids.fresh hcell (hone ▸ hroom) i
  generalize hid : (configOf i).nextHighest (v.lease i).proposer.highestProposalID = id₀ at hfresh
  have hstate : lease'.proposer.state.proposalID = id₀ := by
    rw [hproposer, PLeaseProposer.startPreparing_state, hid]
  obtain ⟨request, hes', htype, hrequest⟩ : ∃ request : PLeaseMsg,
      es = [.timerAdd .acqTimer acquireLeaseTimeout, .broadcastMessage request] ∧
      request.type = Phase.prepare.request ∧ request.proposalID = id₀ := ⟨_, hes, rfl, hid⟩
  have hclear : ∀ φ a, tokens φ a id₀ v.inFlight = 0 := by
    intro φ a
    by_contra hne
    obtain ⟨j, hj⟩ := hs.flow.carried φ a id₀ (Nat.pos_of_ne_zero hne)
    exact hfresh j hj
  refine ⟨hs.clock, (hs.ids.move hcell hmove (by simp) hroom).1, ?_, ?_⟩
  · refine hs.flow.broadcast (fun j hj => ?_) (fun φ hactive => ?_) ?_ (fun φ a id => ?_)
      (hclear .prepare) (fun _ => hclear .propose) ?_ (fun φ j _ hactive heq => ?_)
    · rw [View.put_lease_ne hj]
    · rw [View.put_lease, hproposer] at hactive
      cases φ with
      | prepare => rfl
      | propose => simp [Phase.active] at hactive
    · rw [View.put_lease, hstate]
    · rw [← hrequest]
      exact Nat.le_of_eq (tokens_put_broadcast (by simp [hes', posts]) htype)
    · rw [taken_append, taken_map_self, hes, ← hid]
      exact List.mem_append_right _ (List.mem_singleton_self _)
    · exact hfresh j (heq ▸ hs.flow.current φ j hactive)
  · have hlink : ProposerLink h i lease'.proposer [] := by
      refine ⟨fun _ => ⟨fun n t ht => ?_, ?_⟩, fun hprop => ?_, by simp⟩
      · rw [hstate] at ht
        exact hfresh n (hs.linked.proposed n id₀ t ht)
      · rw [hproposer]
        exact PLeaseProposer.startPreparing_tally _ _
      · simp [hproposer] at hprop
    refine hs.linked.put_nil (hacceptor ▸ hs.linked.acceptor i) hlink
      (hlearner ▸ hs.linked.learner i) fun msg hmsg dst => ?_
    obtain rfl : request = msg := by simpa [hes', sentMsgs, Effect.msg?, eq_comm] using hmsg
    constructor <;> simp [htype, Phase.request]

/-- A node counts an answer in the phase it is in. -/
theorem Sound.count (hs : Sound out h answered v) (hcell : numNodes.toNat ≤ maxCellSize)
    (hroom : rounds out < 2 ^ 40) {d : Datagram numNodes.toNat} (hd : d ∈ v.inFlight) {ψ : Phase}
    (hactive : Phase.active ψ (v.lease d.dst).proposer = true) (hans : ψ.answers d.msg = true)
    (hid : d.msg.proposalID = (v.lease d.dst).proposer.state.proposalID)
    (hhigh : lease'.proposer.highestProposalID = (v.lease d.dst).proposer.highestProposalID)
    (hcurrent : lease'.proposer.state.proposalID = (v.lease d.dst).proposer.state.proposalID)
    (hphase : ∀ φ, Phase.active φ lease'.proposer = Phase.active φ (v.lease d.dst).proposer)
    (hacceptor : lease'.acceptor = (v.lease d.dst).acceptor)
    (hlearner : lease'.learner = (v.lease d.dst).learner)
    (hproposer : ProposerLink h d.dst lease'.proposer (d :: answered d.dst)) :
    Sound out h (Function.update answered d.dst (d :: answered d.dst))
      ((v.take d).put d.dst lease' []) := by
  have hmove : IdMove (configOf d.dst) none ((v.take d).lease d.dst).proposer lease'.proposer [] :=
    .stays hhigh hcurrent (by simp)
  refine ⟨hs.clock, ?_, ?_, ?_⟩
  · have hids := ((hs.ids.take d).move hcell hmove (by simp) (by simpa using hroom)).1
    simpa using hids
  · have hflow : Tokens (out ++ []) (Function.update answered d.dst (d :: answered d.dst))
        ((v.take d).put d.dst lease' []) := by
      refine hs.flow.count (fun φ a id => ?_) (fun φ j hactive' => ?_) fun φ hactive' => ?_
      · have herase : tokens φ a id (v.inFlight.erase d) + _ = _ := tokens_erase hd
        simp [View.put, View.take, ← herase]
      · by_cases hj : j = d.dst
        · subst hj
          rw [View.put_lease] at hactive' ⊢
          exact ⟨hphase φ ▸ hactive', hcurrent⟩
        · rw [View.put_lease_ne hj] at hactive' ⊢
          exact ⟨hactive', rfl⟩
      · rw [View.put_lease, hphase] at hactive'
        obtain rfl := hs.flow.phase_unique hactive hactive'
        exact ⟨hans, hid⟩
    rwa [List.append_nil] at hflow
  · have hlinked : Linked (out ++ ([] : List Effect).map _) h _ ((v.take d).put d.dst lease' []) :=
      (hs.linked.take d).put_nil (hacceptor ▸ hs.linked.acceptor d.dst) hproposer
        (hlearner ▸ hs.linked.learner d.dst) (by simp)
    rwa [List.map_nil, List.append_nil] at hlinked

/-- Nothing is asked of a proposer between rounds. -/
theorem ProposerLink.inactive {p : PLeaseProposer} {ans : List (Datagram numNodes.toNat)}
    (hphase : ∀ φ, Phase.active φ p = false) : ProposerLink h i p ans where
  preparing hprep := absurd ((hphase .prepare).symm.trans hprep) Bool.false_ne_true
  proposing hprop := absurd ((hphase .propose).symm.trans hprop) Bool.false_ne_true
  answers φ hactive := absurd ((hphase φ).symm.trans hactive) Bool.false_ne_true

/-- A counted answer to a prepare request joins the tally. -/
theorem ProposerLink.countPrepare {p : PLeaseProposer} {ans : List (Datagram numNodes.toNat)}
    {d : Datagram numNodes.toNat} (hlink : ProposerLink h i p ans)
    (hresp : d.msg.isPrepareResponse = true) (hprep : p.state.preparing = true)
    (hnot : p.state.proposing = false) (hid : d.msg.proposalID = p.state.proposalID)
    (hbacked : Backed h d) :
    ProposerLink h i (PLeaseProposer.countPrepareResponse { p with msg := d.msg }) (d :: ans) where
  preparing _ := by
    obtain ⟨hnone, htally⟩ := hlink.preparing hprep
    rw [PLeaseProposer.countPrepareResponse_proposalID]
    exact ⟨hnone, htally.count hresp⟩
  proposing hprop := by
    rw [PLeaseProposer.countPrepareResponse_proposing] at hprop
    simp [hnot] at hprop
  answers φ _ d' hd' := by
    rw [PLeaseProposer.countPrepareResponse_proposalID]
    rcases List.mem_cons.mp hd' with rfl | hd'
    · exact ⟨hbacked, hid⟩
    · exact hlink.answers .prepare hprep d' hd'

/-- A counted acceptance is one of the answers. -/
theorem ProposerLink.countPropose {p : PLeaseProposer} {ans : List (Datagram numNodes.toNat)}
    {d : Datagram numNodes.toNat} (hlink : ProposerLink h i p ans)
    (hprop : p.state.proposing = true) (hnot : p.state.preparing = false)
    (hid : d.msg.proposalID = p.state.proposalID) (hbacked : Backed h d) :
    ProposerLink h i (PLeaseProposer.countProposeResponse { p with msg := d.msg }) (d :: ans) where
  preparing hprep := by
    rw [PLeaseProposer.countProposeResponse_state] at hprep
    simp [hnot] at hprep
  proposing _ := by
    obtain ⟨howner, hcount, t, ht, hexpire⟩ := hlink.proposing hprop
    rw [PLeaseProposer.countProposeResponse_state]
    refine ⟨howner, ?_, t, ht, hexpire⟩
    rw [List.countP_cons]
    unfold PLeaseProposer.countProposeResponse
    dsimp only
    split
    · rename_i htype
      simpa [htype] using hcount
    · exact hcount.trans (Nat.le_add_right _ _)
  answers φ _ d' hd' := by
    rw [PLeaseProposer.countProposeResponse_state]
    rcases List.mem_cons.mp hd' with rfl | hd'
    · exact ⟨hbacked, hid⟩
    · exact hlink.answers .propose hprop d' hd'

/-- A majority of the answers counted in a phase is a majority of the nodes. -/
theorem Sound.majority (hs : Sound out h answered v) {φ : Phase}
    (hactive : Phase.active φ (v.lease i).proposer = true) (P : Datagram numNodes.toNat → Bool)
    (hmaj : (configOf i).minMajority ≤ (answered i).countP P) :
    ∃ A : Finset (Fin numNodes.toNat), Majority A ∧
      ∀ a ∈ A, ∃ d ∈ answered i, P d = true ∧ d.src = a := by
  refine ⟨(((answered i).filter P).map Datagram.src).toFinset, ?_, fun a ha => ?_⟩
  · rw [Majority, hs.flow.card_senders hactive, Fintype.card_fin]
    simp only [ReplicatedConfig.minMajority, configOf, ReplicatedConfig.loaded] at hmaj
    omega
  · obtain ⟨d, hd, rfl⟩ := List.mem_map.mp (List.mem_toFinset.mp ha)
    exact ⟨d, (List.mem_filter.mp hd).1, (List.mem_filter.mp hd).2, rfl⟩

/-- A node that has counted a majority of promises and would propose itself may do so. -/
theorem Sound.justified_propose (hs : Sound out h answered v)
    (hprep : (v.lease i).proposer.state.preparing = true)
    (hmaj : (configOf i).minMajority ≤
      (v.lease i).proposer.numReceived - (v.lease i).proposer.numRejected)
    (howner : (v.lease i).proposer.state.leaseOwner = (configOf i).nodeID) :
    Justified leaseTime h
      (propose i (v.lease i).proposer.state.proposalID v.now.toNat) := by
  have hlink := hs.linked.proposer i
  obtain ⟨hnone, htally⟩ := hlink.preparing hprep
  refine ⟨hnone, ?_⟩
  rw [htally.promises, List.countP_map] at hmaj
  obtain ⟨A, hA, hsenders⟩ := hs.majority (show Phase.active .prepare _ = true from hprep) _ hmaj
  refine ⟨A, hA, fun a ha => ?_⟩
  obtain ⟨d, hd, hpromise, rfl⟩ := hsenders a ha
  obtain ⟨hbacked, hid⟩ := hlink.answers .prepare hprep d hd
  have htype : d.msg.type = .prepareCurrentlyOpen ∨ d.msg.type = .preparePreviouslyAccepted := by
    simpa [PLeaseMsg.isPromise] using hpromise
  rw [← hid]
  rcases htype with htype | htype
  · obtain ⟨t, ht⟩ := hbacked.currentlyOpen htype
    exact ⟨none, t, ht, by simp⟩
  · obtain ⟨⟨t, ht⟩, -⟩ := hbacked.previouslyAccepted htype
    refine ⟨some d.msg.acceptedProposalID, t, ht, ?_⟩
    rintro _ ⟨⟩
    -- The best of the reported proposals is this node's own: it kept itself as the owner.
    have hmem : d.msg ∈ (answered i).map Datagram.msg := List.mem_map_of_mem hd
    rcases PLeaseProposer.bestAccepted_cases (configOf i).nodeID ((answered i).map Datagram.msg) with
      ⟨hnever, -⟩ | ⟨b, hb, hbtype, hbest, hle⟩
    · exact absurd htype (hnever d.msg hmem)
    · obtain ⟨d', hd', rfl⟩ := List.mem_map.mp hb
      obtain ⟨-, n, t', hn, ht'⟩ := (hlink.answers .prepare hprep d' hd').1.previouslyAccepted hbtype
      have hown : d'.msg.leaseOwner = (configOf i).nodeID :=
        (congrArg Prod.snd (htally.best.trans hbest)).symm.trans howner
      obtain rfl := configOf_nodeID_inj (hn.symm.trans hown)
      exact ⟨_, t', hle d.msg hmem htype, ht'⟩

/-- Ids of different nodes differ. -/
theorem Sound.current_ne (hs : Sound out h answered v) {id : UInt64} (hid : id ∈ taken i out)
    {φ : Phase} {j : Fin numNodes.toNat} (hj : j ≠ i)
    (hactive : Phase.active φ (v.lease j).proposer = true) :
    (v.lease j).proposer.state.proposalID ≠ id := by
  rintro rfl
  refine hj (Fin.ext ?_)
  rw [← hs.ids.taken_node j _ (hs.flow.current φ j hactive), hs.ids.taken_node i _ hid]

theorem expireTime_toNat (hs : Sound out h answered v) :
    (v.now + maxLeaseTime.toUInt64).toNat = v.now.toNat + leaseTime := by
  have hclock := hs.clock
  have hlease : maxLeaseTime.toUInt64.toNat = leaseTime := rfl
  rw [UInt64.toNat_add, hlease]
  have hvalue : leaseTime = 70000 := rfl
  omega

/-- `StartProposing`, once it is decided. -/
theorem Sound.startProposing (hs : Sound out h answered v) (hcell : numNodes.toNat ≤ maxCellSize)
    (hprep : (v.lease i).proposer.state.preparing = true)
    (hmaj : (configOf i).minMajority ≤
      (v.lease i).proposer.numReceived - (v.lease i).proposer.numRejected)
    (howner : (v.lease i).proposer.state.leaseOwner = (configOf i).nodeID)
    (hhigh : lease'.proposer.highestProposalID = (v.lease i).proposer.highestProposalID)
    (hstate : lease'.proposer.state = { (v.lease i).proposer.state with
      preparing := false
      proposing := true
      duration := maxLeaseTime
      expireTime := v.now + maxLeaseTime.toUInt64 })
    (hcount : lease'.proposer.numAccepted = 0)
    (hacceptor : lease'.acceptor = (v.lease i).acceptor)
    (hlearner : lease'.learner = (v.lease i).learner) {request : PLeaseMsg}
    (htype : request.type = .proposeRequest)
    (hid : request.proposalID = (v.lease i).proposer.state.proposalID)
    (hrequest : request.leaseOwner = (configOf i).nodeID) (hduration : request.duration = maxLeaseTime)
    (hroom : rounds (out ++ [Effect.broadcastMessage request].map fun e => (i, e)) < 2 ^ 40) :
    Sound (out ++ [Effect.broadcastMessage request].map fun e => (i, e))
      (LeaseEvent.propose i (v.lease i).proposer.state.proposalID v.now.toNat :: h)
      (Function.update answered i []) (v.put i lease' [.broadcastMessage request]) := by
  have hmove : IdMove (configOf i) none (v.lease i).proposer lease'.proposer
      [.broadcastMessage request] := by
    refine .stays hhigh (by rw [hstate]) fun msg hmsg _ => ?_
    obtain rfl := List.mem_singleton.mp (show msg ∈ [request] from hmsg)
    exact ⟨htype, hid⟩
  have hown := hs.flow.current .prepare i hprep
  refine ⟨hs.clock, (hs.ids.move hcell hmove (by simp) hroom).1, ?_, ?_⟩
  · refine hs.flow.broadcast (fun j hj => ?_) (fun φ hactive => ?_) ?_ (fun φ a id => ?_)
      (hs.flow.unproposed i hprep) (by simp) (taken_append ▸ List.mem_append_left _ hown)
      (fun φ j hj hactive => hs.current_ne hown hj hactive)
    · rw [View.put_lease_ne hj]
    · rw [View.put_lease] at hactive
      cases φ with
      | prepare => simp [Phase.active, hstate] at hactive
      | propose => rfl
    · rw [View.put_lease, hstate]
    · rw [← hid]
      exact Nat.le_of_eq (tokens_put_broadcast (by simp [posts]) htype)
  · have hvalid : Valid leaseTime
        ([LeaseEvent.propose i (v.lease i).proposer.state.proposalID v.now.toNat] ++ h) :=
      ⟨hs.linked.past, hs.justified_propose hprep hmaj howner, hs.linked.valid⟩
    refine hs.linked.put hvalid ?_ ?_ ?_ ?_ (hlearner ▸ (hs.linked.learner i).append) ?_
    · simp [LeaseEvent.node, LeaseEvent.time]
    · intro n p t ht
      obtain ⟨rfl, rfl, rfl⟩ : n = i ∧ p = (v.lease i).proposer.state.proposalID ∧ t = v.now.toNat := by
        simpa using ht
      exact ⟨hown, fun j hj hactive => hs.current_ne (φ := .prepare) hown hj hactive⟩
    · rw [hacceptor]
      exact (hs.linked.acceptor i).append (by simp) (by simp)
    · refine ⟨fun hprep' => ?_, fun _ => ⟨?_, ?_, v.now.toNat, ?_, ?_⟩, by simp⟩
      · simp [hstate] at hprep'
      · rw [hstate]
        exact howner
      · simp [hcount]
      · rw [hstate]
        exact List.mem_cons_self
      · rw [hstate]
        exact expireTime_toNat hs
    · intro msg hmsg dst
      obtain rfl := List.mem_singleton.mp (show msg ∈ [request] from hmsg)
      refine ⟨by simp [htype], by simp [htype], fun _ => ⟨hduration, i, v.now.toNat, hrequest, ?_⟩,
        by simp [htype], by simp [htype]⟩
      rw [hid]
      exact List.mem_cons_self

/-- The end of a round that a majority has accepted. -/
theorem Sound.learn (hs : Sound out h answered v) (hcell : numNodes.toNat ≤ maxCellSize)
    (hprop : (v.lease i).proposer.state.proposing = true)
    (hmaj : (configOf i).minMajority ≤ (v.lease i).proposer.numAccepted)
    (hproposer : lease'.proposer = ((v.lease i).proposer.learn (configOf i) v.now).1)
    (hacceptor : lease'.acceptor = (v.lease i).acceptor)
    (hlearner : lease'.learner = (v.lease i).learner)
    (hes : es = ((v.lease i).proposer.learn (configOf i) v.now).2)
    (hroom : rounds (out ++ es.map fun e => (i, e)) < 2 ^ 40) :
    Sound (out ++ es.map fun e => (i, e)) h answered (v.put i lease' es) := by
  have hnot : (v.lease i).proposer.state.preparing = false := by
    simpa [hprop] using hs.flow.exclusive i
  have hphase : ∀ φ, Phase.active φ lease'.proposer = false := by
    intro φ
    rw [hproposer]
    cases φ with
    | prepare => exact hnot
    | propose => rfl
  have hlink := hs.linked.proposer i
  obtain ⟨howner, hcount, t, ht, hexpire⟩ := hlink.proposing hprop
  have hchosen : Chosen h i (v.lease i).proposer.state.proposalID t := by
    obtain ⟨A, hA, hsenders⟩ :=
      hs.majority (show Phase.active .propose _ = true from hprop) _ (hmaj.trans hcount)
    refine ⟨ht, A, hA, fun a ha => ?_⟩
    obtain ⟨d, hd, htype, rfl⟩ := hsenders a ha
    obtain ⟨hbacked, hid⟩ := hlink.answers .propose hprop d hd
    rw [← hid]
    exact hbacked.proposeAccepted (by simpa using htype)
  have hmsg : ∀ msg ∈ sentMsgs es, msg.type = .learnChosen ∧
      msg.leaseOwner = (configOf i).nodeID ∧ msg.localExpireTime.toNat = t + leaseTime := by
    intro msg hmsg
    rw [hes] at hmsg
    obtain rfl := List.mem_singleton.mp (show msg ∈ [_] from hmsg)
    exact ⟨rfl, howner, hexpire⟩
  have hmove : IdMove (configOf i) none (v.lease i).proposer lease'.proposer es := by
    refine .stays (by rw [hproposer]; rfl) (by rw [hproposer]; rfl) fun msg hsent hreq => ?_
    simp [PLeaseMsg.isRequest, (hmsg msg hsent).1] at hreq
  refine hs.idle hcell hroom (fun msg hsent => ?_) hmove (by simp) (fun φ hactive => ?_)
    (hacceptor ▸ hs.linked.acceptor i) (.inactive hphase) (hlearner ▸ hs.linked.learner i)
    fun msg hsent dst => ?_
  · simp [PLeaseMsg.isRequest, PLeaseMsg.isResponse, PLeaseMsg.isPrepareResponse,
      PLeaseMsg.isProposeResponse, (hmsg msg hsent).1]
  · simp [hphase] at hactive
  · obtain ⟨htype, howner', hexpire'⟩ := hmsg msg hsent
    exact ⟨by simp [htype], by simp [htype], by simp [htype], by simp [htype],
      fun _ => ⟨howner', _, t, hchosen, hexpire'⟩⟩

end Own

-- ---------------------------------------------------------------------------
-- Requests
-- ---------------------------------------------------------------------------

section Acceptor

variable {h : History numNodes} {a : Fin numNodes.toNat} {state : PLeaseAcceptorState}
  {now : UInt64}

/-- A lease that is over may be forgotten. -/
theorem AcceptorLink.forget (hlink : AcceptorLink h now.toNat a state)
    (hover : state.accepted = true → state.acceptedExpireTime < now) :
    AcceptorLink h now.toNat a (PLeaseAcceptor.onLeaseTimeout state) where
  promised := hlink.promised
  live p t ht hlive := by
    obtain ⟨hacc, -, hexpire⟩ := hlink.live p t ht hlive
    have hlt := UInt64.lt_iff_toNat_lt.mp (hover hacc)
    omega
  owner hacc := by cases hacc

theorem AcceptorLink.dropExpired (hlink : AcceptorLink h now.toNat a state) :
    AcceptorLink h now.toNat a (PLeaseAcceptor.dropExpired state now) := by
  unfold PLeaseAcceptor.dropExpired
  split
  · rename_i hexpired
    refine hlink.forget fun hacc => ?_
    simpa [PLeaseAcceptor.expired, hacc] using hexpired
  · exact hlink

/-- What is accepted and not over is found by a prepare request. -/
theorem AcceptorLink.reported (hlink : AcceptorLink h now.toNat a state) {p : UInt64} {t : Nat}
    (ht : accept a p t ∈ h) (hlive : now.toNat ≤ t + leaseTime) :
    (PLeaseAcceptor.dropExpired state now).accepted = true ∧ p ≤ state.acceptedProposalID := by
  obtain ⟨hacc, hle, hexpire⟩ := hlink.live p t ht hlive
  rw [PLeaseAcceptor.dropExpired_eq_self]
  · exact ⟨hacc, hle⟩
  · rw [UInt64.lt_iff_toNat_lt]
    omega

theorem AcceptorLink.promise (hlink : AcceptorLink h now.toNat a state) {q : UInt64}
    {accepted : Option UInt64} {t : Nat} (hge : ¬ q < state.promisedProposalID) :
    AcceptorLink ([LeaseEvent.promise a q accepted t] ++ h) now.toNat a
      { state with promisedProposalID := q } where
  promised q' accepted' t' ht' := by
    rcases List.mem_cons.mp ht' with heq | ht'
    · cases heq
      exact UInt64.le_refl _
    · exact UInt64.le_trans (hlink.promised q' accepted' t' ht') (UInt64.not_lt.mp hge)
  live p t' ht' := by
    rcases List.mem_cons.mp ht' with heq | ht'
    · cases heq
    · exact hlink.live p t' ht'
  owner hacc := by
    obtain ⟨n, t', howner, ht'⟩ := hlink.owner hacc
    exact ⟨n, t', howner, List.mem_cons_of_mem _ ht'⟩

/-- An acceptance that keeps to the rule: nothing that is not over is above it. -/
theorem AcceptorLink.accept (hlink : AcceptorLink h now.toNat a state)
    (hpast : ∀ e ∈ h, e.time ≤ now.toNat) {msg : PLeaseMsg} (htype : msg.type = .proposeRequest)
    (hserve : keeping.serve now state msg) (hge : ¬ msg.proposalID < state.promisedProposalID)
    (hexpire : (msg.duration.toUInt64 + now).toNat = now.toNat + leaseTime)
    {n : Fin numNodes.toNat} {t : Nat} (howner : msg.leaseOwner = (configOf n).nodeID)
    (hpropose : propose n msg.proposalID t ∈ h) :
    AcceptorLink ([LeaseEvent.accept a msg.proposalID now.toNat] ++ h) now.toNat a
      { promisedProposalID := state.promisedProposalID
        accepted := true
        acceptedProposalID := msg.proposalID
        acceptedLeaseOwner := msg.leaseOwner
        acceptedDuration := msg.duration
        acceptedExpireTime := msg.duration.toUInt64 + now } where
  promised q accepted t' ht' := by
    rcases List.mem_cons.mp ht' with heq | ht'
    · cases heq
    · exact hlink.promised q accepted t' ht'
  live p t' ht' hlive := by
    dsimp only
    rw [hexpire]
    rcases List.mem_cons.mp ht' with heq | ht'
    · cases heq
      exact ⟨rfl, UInt64.le_refl _, Nat.le_refl _⟩
    · obtain ⟨hacc, hle, hlive'⟩ := hlink.live p t' ht' hlive
      have hnot : ¬ state.acceptedExpireTime < now := by
        rw [UInt64.lt_iff_toNat_lt]
        omega
      exact ⟨rfl, UInt64.le_trans hle (hserve htype hacc hnot hge),
        Nat.add_le_add_right (hpast _ ht') _⟩
  owner _ := ⟨n, t, howner, List.mem_cons_of_mem _ hpropose⟩

end Acceptor

section Reply

variable {out : Output numNodes.toNat} {h evs : History numNodes}
  {answered : Fin numNodes.toNat → List (Datagram numNodes.toNat)} {v : View numNodes}
  {d : Datagram numNodes.toNat} {lease' : PaxosLease} {es : List Effect}

/-- An acceptor uses up a request and sends one answer. -/
theorem Sound.reply (hs : Sound out h answered v) (hcell : numNodes.toNat ≤ maxCellSize)
    (hd : d ∈ v.inFlight) {nodeID : UInt32} {reply : PLeaseMsg}
    (hposts : es.flatMap (posts d.dst) = posts d.dst (.sendReply nodeID reply))
    (hsent : sentMsgs es = [reply]) (hnot : reply.isRequest = false)
    (hid : reply.proposalID = d.msg.proposalID) {ψ : Phase} (hans : ψ.answers reply = true)
    (htype : d.msg.type = ψ.request) (hvalid : Valid leaseTime (evs ++ h))
    (hevs : ∀ e ∈ evs, e.node = d.dst ∧ e.time = v.now.toNat)
    (hproposed : ∀ n p t, propose n p t ∉ evs)
    (hacceptor : AcceptorLink (evs ++ h) v.now.toNat d.dst lease'.acceptor)
    (hproposer : lease'.proposer = (v.lease d.dst).proposer)
    (hlearner : lease'.learner = (v.lease d.dst).learner)
    (hbacked : ∀ dst, Backed (evs ++ h) ⟨d.dst, dst, reply⟩)
    (hroom : rounds (out ++ es.map fun e => (d.dst, e)) < 2 ^ 40) :
    Sound (out ++ es.map fun e => (d.dst, e)) (evs ++ h) answered
      ((v.take d).put d.dst lease' es) := by
  have hmove : IdMove (configOf d.dst) none ((v.take d).lease d.dst).proposer
      lease'.proposer es := by
    refine .stays (by rw [hproposer]; rfl) (by rw [hproposer]; rfl) fun msg hmsg hreq => ?_
    rw [hsent] at hmsg
    obtain rfl := List.mem_singleton.mp hmsg
    simp [hnot] at hreq
  refine ⟨hs.clock, ?_, ?_, ?_⟩
  · exact ((hs.ids.take d).move hcell hmove (by simp) hroom).1
  · refine hs.flow.calm (fun φ a id => ?_) fun φ j hactive => ?_
    · have herase : tokens φ a id (v.inFlight.erase d) + _ = _ := tokens_erase hd
      have hreply : tokens φ a id (posts d.dst (.sendReply nodeID reply) :
        List (Datagram numNodes.toNat)) ≤ _ :=
          tokens_reply hnot hid fun φ hφ => Phase.answers_unique hans hφ ▸ htype
      simp only [View.put, View.take, tokens_add, hposts]
      omega
    · by_cases hj : j = d.dst
      · subst hj
        rw [View.put_lease, hproposer] at hactive ⊢
        exact ⟨hactive, rfl⟩
      · rw [View.put_lease_ne hj] at hactive ⊢
        exact ⟨hactive, rfl⟩
  · have hput : Linked (out ++ es.map fun e => (d.dst, e)) (evs ++ h)
        (Function.update answered d.dst (answered d.dst))
        ((v.take d).put d.dst lease' es) := by
      refine (hs.linked.take d).put hvalid hevs (fun n p t ht => absurd ht (hproposed n p t))
        hacceptor ?_ (hlearner ▸ (hs.linked.learner d.dst).append) ?_
      · rw [hproposer]
        exact (hs.linked.proposer d.dst).append fun _ n t => hproposed n _ t
      · intro msg hmsg dst
        rw [hsent] at hmsg
        obtain rfl := List.mem_singleton.mp hmsg
        exact hbacked dst
    rwa [Function.update_eq_self] at hput

/-- An acceptor that keeps to the rule serves a request. -/
theorem Sound.request (hs : Sound out h answered v) (hcell : numNodes.toNat ≤ maxCellSize)
    (hd : d ∈ v.inFlight) {state' : PLeaseAcceptorState}
    (hserve : keeping.serve v.now (v.lease d.dst).acceptor d.msg)
    (hout : PLeaseAcceptor.Outcome (configOf d.dst) v.now (v.lease d.dst).acceptor d.msg state' es)
    (hroom : rounds (out ++ es.map fun e => (d.dst, e)) < 2 ^ 40) :
    ∃ h', Sound (out ++ es.map fun e => (d.dst, e)) h' answered
      ((v.take d).put d.dst { v.lease d.dst with acceptor := state' } es) := by
  have hlink := hs.linked.acceptor d.dst
  have hbacked := hs.linked.backed d hd
  -- Two of the outcomes send nothing.
  have hsilent : ∀ es : List Effect, sentMsgs es = [] →
      rounds (out ++ es.map fun e => (d.dst, e)) < 2 ^ 40 →
      Sound (out ++ es.map fun e => (d.dst, e)) h answered
        ((v.take d).put d.dst (v.lease d.dst) es) := by
    intro es hes hroom
    have hmove : IdMove (configOf d.dst) none ((v.take d).lease d.dst).proposer
        (v.lease d.dst).proposer es := .stays rfl rfl (by simp [hes])
    exact (hs.take hd).idle hcell hroom (by simp [hes]) hmove (by simp)
      (fun _ hactive => ⟨hactive, rfl⟩) hlink (hs.linked.proposer d.dst)
      (hs.linked.learner d.dst) (by simp [hes])
  cases hout with
  | ignored _ => exact ⟨h, hsilent _ rfl hroom⟩
  | unexpected _ _ => exact ⟨h, hsilent _ rfl hroom⟩
  | prepareRejected htype _ =>
    refine ⟨[] ++ h, hs.reply hcell hd (List.append_nil _) rfl rfl rfl (ψ := .prepare) rfl htype
      hs.linked.valid (by simp) (by simp) hlink.dropExpired rfl rfl (fun dst => ?_) hroom⟩
    constructor <;> simp [PLeaseMsg.prepareRejected, PLeaseMsg.init]
  | proposeRejected htype _ =>
    refine ⟨[] ++ h, hs.reply hcell hd (List.append_nil _) rfl rfl rfl (ψ := .propose) rfl htype
      hs.linked.valid (by simp) (by simp) hlink.dropExpired rfl rfl (fun dst => ?_) hroom⟩
    constructor <;> simp [PLeaseMsg.proposeRejected, PLeaseMsg.init]
  | currentlyOpen htype hge hacc =>
    have hjust : Justified leaseTime h
        (promise d.dst d.msg.proposalID none v.now.toNat) := by
      intro p t ht hlive
      have hrep := (hlink.reported ht hlive).1
      simp [hacc] at hrep
    have hvalid : Valid leaseTime ([promise d.dst d.msg.proposalID none v.now.toNat] ++ h) :=
      ⟨hs.linked.past, hjust, hs.linked.valid⟩
    refine ⟨_, hs.reply hcell hd (List.append_nil _) rfl rfl rfl (ψ := .prepare) rfl htype hvalid
      (by simp [LeaseEvent.node, LeaseEvent.time]) (by simp)
      (hlink.dropExpired.promise (by simpa using hge)) rfl rfl (fun dst => ?_) hroom⟩
    refine ⟨fun _ => ⟨v.now.toNat, List.mem_cons_self⟩, ?_, ?_, ?_, ?_⟩ <;>
      simp [PLeaseMsg.prepareCurrentlyOpen, PLeaseMsg.init]
  | previouslyAccepted htype hge hacc =>
    have hjust : Justified leaseTime h
        (promise d.dst d.msg.proposalID (some (v.lease d.dst).acceptor.acceptedProposalID)
          v.now.toNat) := by
      intro p t ht hlive
      exact ⟨_, rfl, (hlink.reported ht hlive).2⟩
    have hvalid : Valid leaseTime ([promise d.dst d.msg.proposalID
        (some (v.lease d.dst).acceptor.acceptedProposalID) v.now.toNat] ++ h) :=
      ⟨hs.linked.past, hjust, hs.linked.valid⟩
    have hself := (PLeaseAcceptor.dropExpired_accepted _ _ hacc).1
    obtain ⟨n, t, howner, hpropose⟩ := hlink.owner (hself ▸ hacc)
    refine ⟨_, hs.reply hcell hd (List.append_nil _) rfl rfl rfl (ψ := .prepare) rfl htype hvalid
      (by simp [LeaseEvent.node, LeaseEvent.time]) (by simp) (hlink.promise hge) rfl rfl
      (fun dst => ?_) hroom⟩
    refine ⟨?_, fun _ => ⟨⟨v.now.toNat, List.mem_cons_self⟩, n, t, howner,
      List.mem_cons_of_mem _ hpropose⟩, ?_, ?_, ?_⟩ <;>
      simp [PLeaseMsg.preparePreviouslyAccepted, PLeaseMsg.init]
  | accepted htype hge =>
    obtain ⟨hduration, n, t, howner, hpropose⟩ := hbacked.proposeRequest htype
    have hexpire : (d.msg.duration.toUInt64 + v.now).toNat = v.now.toNat + leaseTime := by
      rw [hduration, UInt64.add_comm]
      exact expireTime_toNat hs
    have hjust : Justified leaseTime h (accept d.dst d.msg.proposalID v.now.toNat) := by
      refine ⟨fun q accepted t' ht' => ?_, n, t, hpropose⟩
      exact UInt64.le_trans (hlink.promised q accepted t' ht') (UInt64.not_lt.mp hge)
    have hvalid : Valid leaseTime ([accept d.dst d.msg.proposalID v.now.toNat] ++ h) :=
      ⟨hs.linked.past, hjust, hs.linked.valid⟩
    refine ⟨_, hs.reply hcell hd (List.append_nil _) rfl rfl rfl (ψ := .propose) rfl htype hvalid
      (by simp [LeaseEvent.node, LeaseEvent.time]) (by simp)
      (hlink.accept hs.linked.past htype hserve hge hexpire howner hpropose) rfl rfl
      (fun dst => ?_) hroom⟩
    refine ⟨?_, ?_, ?_, fun _ => ⟨v.now.toNat, List.mem_cons_self⟩, ?_⟩ <;>
      simp [PLeaseMsg.proposeAccepted, PLeaseMsg.init]

end Reply

-- ---------------------------------------------------------------------------
-- Answers
-- ---------------------------------------------------------------------------

section Answer

variable {out : Output numNodes.toNat} {h : History numNodes}
  {answered : Fin numNodes.toNat → List (Datagram numNodes.toNat)} {v : View numNodes}
  {i : Fin numNodes.toNat} {d : Datagram numNodes.toNat}

/-- The link of a proposer reads neither its message nor its highest id. -/
theorem ProposerLink.congr {p p' : PLeaseProposer} {ans : List (Datagram numNodes.toNat)}
    (hlink : ProposerLink h i p ans) (hstate : p'.state = p.state)
    (hreceived : p'.numReceived = p.numReceived) (haccepted : p'.numAccepted = p.numAccepted)
    (hrejected : p'.numRejected = p.numRejected) : ProposerLink h i p' ans where
  preparing hprep := by
    rw [hstate] at hprep ⊢
    obtain ⟨hnone, htally⟩ := hlink.preparing hprep
    exact ⟨hnone, htally.congr hstate hreceived hrejected⟩
  proposing hprop := by
    rw [hstate] at hprop ⊢
    rw [haccepted]
    exact hlink.proposing hprop
  answers φ hactive := by
    have hactive' : Phase.active φ p = true := by
      cases φ <;> simpa [Phase.active, hstate] using hactive
    rw [hstate]
    exact hlink.answers φ hactive'

theorem Sound.countPrepare (hs : Sound out h answered v) (hcell : numNodes.toNat ≤ maxCellSize)
    (hroom : rounds out < 2 ^ 40) (hd : d ∈ v.inFlight) (hresp : d.msg.isPrepareResponse = true)
    (hprep : (v.lease d.dst).proposer.state.preparing = true)
    (hid : d.msg.proposalID = (v.lease d.dst).proposer.state.proposalID) :
    Sound out h (Function.update answered d.dst (d :: answered d.dst))
      ((v.take d).put d.dst
        { v.lease d.dst with
          proposer := ({ (v.lease d.dst).proposer with msg := d.msg }).countPrepareResponse } []) := by
  have hnot : (v.lease d.dst).proposer.state.proposing = false := by
    simpa [hprep] using hs.flow.exclusive d.dst
  refine hs.count hcell hroom hd (ψ := .prepare) hprep hresp hid (by simp) (by simp) (fun φ => ?_)
    rfl rfl ?_
  · cases φ <;> simp [Phase.active]
  · exact (hs.linked.proposer d.dst).countPrepare hresp hprep hnot hid (hs.linked.backed d hd)

theorem Sound.countPropose (hs : Sound out h answered v) (hcell : numNodes.toNat ≤ maxCellSize)
    (hroom : rounds out < 2 ^ 40) (hd : d ∈ v.inFlight) (hresp : d.msg.isProposeResponse = true)
    (hprop : (v.lease d.dst).proposer.state.proposing = true)
    (hid : d.msg.proposalID = (v.lease d.dst).proposer.state.proposalID) :
    Sound out h (Function.update answered d.dst (d :: answered d.dst))
      ((v.take d).put d.dst
        { v.lease d.dst with
          proposer := ({ (v.lease d.dst).proposer with msg := d.msg }).countProposeResponse } []) := by
  have hnot : (v.lease d.dst).proposer.state.preparing = false := by
    simpa [hprop] using hs.flow.exclusive d.dst
  refine hs.count hcell hroom hd (ψ := .propose) hprop hresp hid (by simp) (by simp) (fun φ => ?_)
    rfl rfl ?_
  · cases φ <;> simp [Phase.active]
  · exact (hs.linked.proposer d.dst).countPropose hprop hnot hid (hs.linked.backed d hd)

section Counted

variable {w : View numNodes} {lease : PaxosLease} {counted : PLeaseProposer}

/-- A count that ends in a new round. -/
theorem Sound.restart (hmid : Sound out h answered (w.put i { lease with proposer := counted } []))
    (hcell : numNodes.toNat ≤ maxCellSize)
    (hroom : rounds (out ++ (counted.startPreparing (configOf i)).2.map fun e => (i, e)) < 2 ^ 40) :
    Sound (out ++ (counted.startPreparing (configOf i)).2.map fun e => (i, e)) h
      (Function.update answered i [])
      (w.put i { lease with proposer := (counted.startPreparing (configOf i)).1 }
        (counted.startPreparing (configOf i)).2) := by
  have hend : Sound (out ++ (counted.startPreparing (configOf i)).2.map fun e => (i, e)) h
      (Function.update answered i [])
      ((w.put i { lease with proposer := counted } []).put i
        { lease with proposer := (counted.startPreparing (configOf i)).1 }
        (counted.startPreparing (configOf i)).2) := by
    refine hmid.start hcell ?_ ?_ ?_ ?_ hroom <;> rw [View.put_lease]
  rwa [View.put_put] at hend

/-- A count that ends the round with a lease. -/
theorem Sound.conclude (hmid : Sound out h answered (w.put i { lease with proposer := counted } []))
    (hcell : numNodes.toNat ≤ maxCellSize) (hprop : counted.state.proposing = true)
    (hmaj : (configOf i).minMajority ≤ counted.numAccepted)
    (hroom : rounds (out ++ (counted.learn (configOf i) w.now).2.map fun e => (i, e)) < 2 ^ 40) :
    Sound (out ++ (counted.learn (configOf i) w.now).2.map fun e => (i, e)) h answered
      (w.put i { lease with proposer := (counted.learn (configOf i) w.now).1 }
        (counted.learn (configOf i) w.now).2) := by
  have hend : Sound (out ++ (counted.learn (configOf i) w.now).2.map fun e => (i, e)) h answered
      ((w.put i { lease with proposer := counted } []).put i
        { lease with proposer := (counted.learn (configOf i) w.now).1 }
        (counted.learn (configOf i) w.now).2) := by
    refine hmid.learn hcell ?_ ?_ ?_ ?_ ?_ ?_ hroom <;> rw [View.put_lease]
    · exact hprop
    · exact hmaj
    · rfl
    · rfl
  rwa [View.put_put] at hend

/-- A move after which a proposer is between rounds. -/
theorem Sound.rest (hmid : Sound out h answered (w.put i { lease with proposer := counted } []))
    (hcell : numNodes.toNat ≤ maxCellSize) {p' : PLeaseProposer}
    (hhigh : p'.highestProposalID = counted.highestProposalID)
    (hid : p'.state.proposalID = counted.state.proposalID)
    (hphase : ∀ φ, Phase.active φ p' = false)
    (hroom : rounds (out ++ ([] : List Effect).map fun e => (i, e)) < 2 ^ 40) :
    Sound (out ++ ([] : List Effect).map fun e => (i, e)) h answered
      (w.put i { lease with proposer := p' } []) := by
  have hmove : IdMove (configOf i) none
      ((w.put i { lease with proposer := counted } []).lease i).proposer p' [] := by
    rw [View.put_lease]
    exact .stays hhigh hid (by simp)
  have hlinked := hmid.linked
  have hend : Sound (out ++ ([] : List Effect).map fun e => (i, e)) h answered
      ((w.put i { lease with proposer := counted } []).put i { lease with proposer := p' } []) := by
    refine hmid.idle hcell hroom (by simp) hmove (by simp) (fun φ hactive => ?_) ?_
      (.inactive hphase) ?_ (by simp)
    · simp [hphase] at hactive
    · simpa using hlinked.acceptor i
    · simpa using hlinked.learner i
  rwa [View.put_put] at hend

/-- A count that ends in a proposal. -/
theorem Sound.goOn (hmid : Sound out h answered (w.put i { lease with proposer := counted } []))
    (hcell : numNodes.toNat ≤ maxCellSize) (hprep : counted.state.preparing = true)
    (hmaj : (configOf i).minMajority ≤ counted.numReceived - counted.numRejected)
    (howner : counted.state.leaseOwner = (configOf i).nodeID) {p' : PLeaseProposer}
    (hhigh : p'.highestProposalID = counted.highestProposalID)
    (hstate : p'.state = { counted.state with
      preparing := false
      proposing := true
      duration := maxLeaseTime
      expireTime := w.now + maxLeaseTime.toUInt64 })
    (hcount : p'.numAccepted = 0) {request : PLeaseMsg} (htype : request.type = .proposeRequest)
    (hid : request.proposalID = counted.state.proposalID)
    (hrequest : request.leaseOwner = (configOf i).nodeID) (hduration : request.duration = maxLeaseTime)
    (hroom : rounds (out ++ [Effect.broadcastMessage request].map fun e => (i, e)) < 2 ^ 40) :
    ∃ h' answered', Sound (out ++ [Effect.broadcastMessage request].map fun e => (i, e)) h' answered'
      (w.put i { lease with proposer := p' } [.broadcastMessage request]) := by
  have hend : ∃ h' answered', Sound (out ++ [Effect.broadcastMessage request].map fun e => (i, e))
      h' answered' ((w.put i { lease with proposer := counted } []).put i
        { lease with proposer := p' } [.broadcastMessage request]) := by
    refine ⟨_, _, hmid.startProposing hcell ?_ ?_ ?_ ?_ ?_ hcount ?_ ?_ htype ?_ hrequest hduration
      hroom⟩ <;> rw [View.put_lease]
    · exact hprep
    · exact hmaj
    · exact howner
    · exact hhigh
    · exact hstate
    · exact hid
  rwa [View.put_put] at hend

end Counted

/-- A proposer reads an answer: it is passed over, or counted, and what follows from
the count starts where the count ended. -/
theorem Sound.answer (hs : Sound out h answered v) (hcell : numNodes.toNat ≤ maxCellSize)
    (hd : d ∈ v.inFlight) {p' : PLeaseProposer} {es : List Effect}
    (hout : PLeaseProposer.Outcome (configOf d.dst) v.now (v.lease d.dst).proposer d.msg p' es)
    (hroom : rounds (out ++ es.map fun e => (d.dst, e)) < 2 ^ 40) :
    ∃ h' answered', Sound (out ++ es.map fun e => (d.dst, e)) h' answered'
      ((v.take d).put d.dst { v.lease d.dst with proposer := p' } es) := by
  have hroom' : rounds out < 2 ^ 40 := by
    rw [rounds_append] at hroom
    omega
  have hsame : out ++ ([] : List Effect).map (fun e => (d.dst, e)) = out := by simp
  cases hout with
  | skipped _ hes _ =>
    have hsent : sentMsgs es = [] := by rcases hes with rfl | rfl <;> rfl
    have hmove : IdMove (configOf d.dst) none ((v.take d).lease d.dst).proposer
        { (v.lease d.dst).proposer with msg := d.msg } es := .stays rfl rfl (by simp [hsent])
    refine ⟨h, answered, (hs.take hd).idle hcell hroom (by simp [hsent]) hmove (by simp)
      (fun φ hactive => ⟨?_, rfl⟩) (hs.linked.acceptor d.dst)
      ((hs.linked.proposer d.dst).congr rfl rfl rfl rfl) (hs.linked.learner d.dst)
      (by simp [hsent])⟩
    cases φ <;> exact hactive
  | prepareCounted hresp hprep hid =>
    have hmid := hs.countPrepare hcell hroom' hd hresp hprep hid
    exact ⟨h, _, hsame.symm ▸ hmid⟩
  | prepareRestarted hresp hprep hid =>
    have hmid := hs.countPrepare hcell hroom' hd hresp hprep hid
    generalize ({ (v.lease d.dst).proposer with msg := d.msg }).countPrepareResponse = counted
      at hmid hroom ⊢
    exact ⟨h, _, hmid.restart hcell hroom⟩
  | gaveUp hresp hprep hid =>
    have hmid := hs.countPrepare hcell hroom' hd hresp hprep hid
    have hnot : (v.lease d.dst).proposer.state.proposing = false := by
      simpa [hprep] using hs.flow.exclusive d.dst
    refine ⟨h, _, hmid.rest hcell rfl rfl (fun φ => ?_) hroom⟩
    cases φ with
    | prepare => rfl
    | propose => exact (PLeaseProposer.countPrepareResponse_proposing _).trans hnot
  | proposed hresp hprep hid hmaj howner =>
    have hmid := hs.countPrepare hcell hroom' hd hresp hprep hid
    have hcurrent := PLeaseProposer.countPrepareResponse_proposalID
      { (v.lease d.dst).proposer with msg := d.msg }
    refine hmid.goOn hcell ((PLeaseProposer.countPrepareResponse_preparing _).trans hprep) hmaj
      howner ?_ ?_ ?_ rfl hcurrent.symm rfl rfl hroom
    · rfl
    · rfl
    · rfl
  | proposeCounted hresp hprop hid =>
    have hmid := hs.countPropose hcell hroom' hd hresp hprop hid
    exact ⟨h, _, hsame.symm ▸ hmid⟩
  | proposeRestarted hresp hprop hid =>
    have hmid := hs.countPropose hcell hroom' hd hresp hprop hid
    generalize ({ (v.lease d.dst).proposer with msg := d.msg }).countProposeResponse = counted
      at hmid hroom ⊢
    exact ⟨h, _, hmid.restart hcell hroom⟩
  | learned hresp hprop hid hmaj _ =>
    have hmid := hs.countPropose hcell hroom' hd hresp hprop hid
    have hstate := PLeaseProposer.countProposeResponse_state
      { (v.lease d.dst).proposer with msg := d.msg }
    generalize ({ (v.lease d.dst).proposer with msg := d.msg }).countProposeResponse = counted
      at hmid hroom hmaj hstate ⊢
    exact ⟨h, _, hmid.conclude hcell (hstate ▸ hprop) hmaj hroom⟩

end Answer

end PL
