-- SUMMARY: The proposal ids of a cluster: rising at each node, above every request seen, and different between nodes.
import NetworkEtc.PL.Network

/-!
# Proposal ids

A node takes a new id at each call of `StartPreparing`, one round above the highest
id it knows of, its own or a request's. So no id anywhere in the cluster has a round
above the number of ids taken so far, and as long as that is below `2 ^ 40` the round
does not run out of its field.
-/

namespace PL

open Library Netfram

variable {numNodes : UInt32}

/-- The id an effect asks all nodes to prepare, if it does. -/
def prepareID? : Effect → Option UInt64
  | .broadcastMessage msg => if msg.type = .prepareRequest then some msg.proposalID else none
  | _ => none

/-- The ids node `i` takes, in order. -/
def taken {n : Nat} (i : Fin n) (out : Output n) : List UInt64 :=
  out.filterMap fun (j, e) => if j = i then prepareID? e else none

/-- How many ids are taken by all nodes together. -/
def rounds {n : Nat} (out : Output n) : Nat := out.countP fun (_, e) => (prepareID? e).isSome

section Output

variable {n : Nat} {i j : Fin n} {es : List Effect} {out out' : Output n}

@[simp] theorem taken_append : taken i (out ++ out') = taken i out ++ taken i out' :=
  List.filterMap_append

@[simp] theorem rounds_append : rounds (out ++ out') = rounds out + rounds out' :=
  List.countP_append

theorem taken_map_self : taken i (es.map fun e => (i, e)) = es.filterMap prepareID? := by
  simp [taken, List.filterMap_map]

theorem taken_map_ne (h : i ≠ j) : taken j (es.map fun e => (i, e)) = [] := by
  simp [taken, List.filterMap_map, h]

theorem rounds_map : rounds (es.map fun e => (i, e)) = (es.filterMap prepareID?).length := by
  rw [rounds, List.countP_map, List.length_filterMap_eq_countP]
  rfl

/-- Who asks nobody to prepare takes no id. -/
theorem filterMap_prepareID?_eq_nil (h : ∀ msg ∈ sentMsgs es, msg.type ≠ .prepareRequest) :
    es.filterMap prepareID? = [] := by
  refine List.filterMap_eq_nil_iff.mpr fun e he => ?_
  cases e with
  | broadcastMessage msg =>
    have htype := h msg (List.mem_filterMap.mpr ⟨_, he, rfl⟩)
    simp [prepareID?, htype]
  | _ => rfl

end Output

-- ---------------------------------------------------------------------------
-- The invariant
-- ---------------------------------------------------------------------------

/-- The ids of a view after `out` has been put out. -/
structure IdInv (out : Output numNodes.toNat) (v : View numNodes) : Prop where
  round_highest : ∀ i, roundOf (v.lease i).proposer.highestProposalID ≤ rounds out
  round_request : ∀ d ∈ v.inFlight, d.msg.isRequest = true →
    roundOf d.msg.proposalID ≤ rounds out
  current_le : ∀ i, (v.lease i).proposer.state.proposalID ≤ (v.lease i).proposer.highestProposalID
  taken_le : ∀ i, ∀ id ∈ taken i out, id ≤ (v.lease i).proposer.highestProposalID
  taken_node : ∀ i, ∀ id ∈ taken i out, id.toNat % 2 ^ 24 = i
  sorted : ∀ i, (taken i out).Pairwise (· < ·)

/-- What a move does to the ids of its node: nothing, or it learns of one, or it
takes one, or it asks for the one it has. -/
inductive IdMove (rconf : ReplicatedConfig) (input : Option PLeaseMsg) (p p' : PLeaseProposer)
    (es : List Effect) : Prop
  | stays (hhigh : p'.highestProposalID = p.highestProposalID)
      (hid : p'.state.proposalID = p.state.proposalID)
      (hes : ∀ msg ∈ sentMsgs es, msg.isRequest = true → msg.type = .proposeRequest ∧
        msg.proposalID = p.state.proposalID)
  | raises {msg : PLeaseMsg} (hinput : input = some msg) (hreq : msg.isRequest = true)
      (hp : p' = p.bumpHighest msg.proposalID) (hes : es = [])
  | takes (q : PLeaseProposer) (hhigh : q.highestProposalID = p.highestProposalID)
      (hp : p' = (q.startPreparing rconf).1) (hes : es = (q.startPreparing rconf).2)

theorem micro_idMove {rules : Rules} {rconf : ReplicatedConfig} {now : UInt64}
    {input : Option PLeaseMsg} {used : Bool} {lease lease' : PaxosLease} {es : List Effect}
    (h : PaxosLease.Micro rules rconf now input used lease lease' es) :
    IdMove rconf input lease.proposer lease'.proposer es := by
  cases h with
  | silent _ hes => exact .stays rfl rfl (by simp [hes])
  | flag _ _ | rest _ | forget _ _ | expire _ => exact .stays rfl rfl (by simp)
  | learn _ _ _ _ => exact .stays rfl rfl (by simp)
  | prepare _ => exact .takes lease.proposer rfl rfl rfl
  | raise _ hinput hreq => exact .raises hinput hreq rfl rfl
  | request _ _ _ _ hout =>
    apply IdMove.stays rfl rfl
    cases hout <;> simp [sentMsgs, Effect.msg?, PLeaseMsg.isRequest, PLeaseMsg.init,
      PLeaseMsg.prepareRejected, PLeaseMsg.prepareCurrentlyOpen,
      PLeaseMsg.preparePreviouslyAccepted, PLeaseMsg.proposeRejected, PLeaseMsg.proposeAccepted]
  | answer _ _ hout =>
    cases hout with
    | skipped _ hes _ => exact .stays rfl rfl (by rcases hes with rfl | rfl <;> simp [sentMsgs, Effect.msg?])
    | prepareCounted _ _ _ => exact .stays (by simp) (by simp) (by simp)
    | prepareRestarted _ _ _ => exact .takes _ (by simp) rfl rfl
    | gaveUp _ _ _ => exact .stays (by simp) (by simp) (by simp)
    | proposed _ _ _ _ _ =>
      apply IdMove.stays (by simp) (by simp)
      simp [sentMsgs, Effect.msg?, PLeaseMsg.proposeRequest, PLeaseMsg.init]
    | proposeCounted _ _ _ => exact .stays (by simp) (by simp) (by simp)
    | proposeRestarted _ _ _ => exact .takes _ (by simp) rfl rfl
    | learned _ _ _ _ _ =>
      refine .stays (by simp [PLeaseProposer.learn, PLeaseProposer.broadcastMessage])
        (by simp [PLeaseProposer.learn, PLeaseProposer.broadcastMessage]) ?_
      simp [PLeaseProposer.learn, PLeaseProposer.broadcastMessage, sentMsgs, Effect.msg?,
        PLeaseMsg.learnChosen, PLeaseMsg.init, PLeaseMsg.isRequest]

-- ---------------------------------------------------------------------------
-- One move keeps the invariant
-- ---------------------------------------------------------------------------

/-- Nobody's highest id goes down, and what a node takes is above what it had. -/
def Rises (v v' : View numNodes) (out : Output numNodes.toNat) : Prop :=
  ∀ i, (v.lease i).proposer.highestProposalID ≤ (v'.lease i).proposer.highestProposalID ∧
    ∀ id ∈ taken i out, (v.lease i).proposer.highestProposalID < id

theorem Rises.refl (v : View numNodes) : Rises v v [] :=
  fun _ => ⟨UInt64.le_refl _, by simp [taken]⟩

theorem Rises.trans {v v' v'' : View numNodes} {out out' : Output numNodes.toNat}
    (h : Rises v v' out) (h' : Rises v' v'' out') : Rises v v'' (out ++ out') := by
  intro i
  refine ⟨UInt64.le_trans (h i).1 (h' i).1, fun id hid => ?_⟩
  rcases List.mem_append.mp (taken_append ▸ hid) with hid | hid
  · exact (h i).2 id hid
  · exact UInt64.lt_of_le_of_lt (h i).1 ((h' i).2 id hid)

section Step

variable {out : Output numNodes.toNat} {v : View numNodes} {i : Fin numNodes.toNat}
  {lease' : PaxosLease} {es : List Effect}

/-- What has to be seen when a node moves. -/
theorem IdInv.put (h : IdInv out v)
    (hhigh : (v.lease i).proposer.highestProposalID ≤ lease'.proposer.highestProposalID)
    (hround : roundOf lease'.proposer.highestProposalID ≤ rounds (out ++ es.map fun e => (i, e)))
    (hcurrent : lease'.proposer.state.proposalID ≤ lease'.proposer.highestProposalID)
    (hrequest : ∀ msg ∈ sentMsgs es, msg.isRequest = true →
      msg.proposalID ≤ lease'.proposer.highestProposalID)
    (htaken : ∀ id ∈ es.filterMap prepareID?, (v.lease i).proposer.highestProposalID < id ∧
      id ≤ lease'.proposer.highestProposalID ∧ id.toNat % 2 ^ 24 = i)
    (hsorted : (es.filterMap prepareID?).Pairwise (· < ·)) :
    IdInv (out ++ es.map fun e => (i, e)) (v.put i lease' es) ∧
      Rises v (v.put i lease' es) (es.map fun e => (i, e)) := by
  have hgrows : rounds out ≤ rounds (out ++ es.map fun e => (i, e)) := by simp
  refine ⟨⟨?_, ?_, ?_, ?_, ?_, ?_⟩, ?_⟩
  · intro j
    by_cases hj : j = i
    · subst hj
      simpa using hround
    · rw [View.put_lease_ne hj]
      exact (h.round_highest j).trans hgrows
  · intro d hd hreq
    rcases Multiset.mem_add.mp hd with hd | hd
    · exact (h.round_request d hd hreq).trans hgrows
    · obtain ⟨-, hmsg⟩ := mem_posts (Multiset.mem_coe.mp hd)
      exact (roundOf_mono (hrequest d.msg hmsg hreq)).trans hround
  · intro j
    by_cases hj : j = i
    · subst hj
      simpa using hcurrent
    · rw [View.put_lease_ne hj]
      exact h.current_le j
  · intro j id hid
    by_cases hj : j = i
    · subst hj
      rw [View.put_lease]
      rw [taken_append, taken_map_self] at hid
      rcases List.mem_append.mp hid with hid | hid
      · exact UInt64.le_trans (h.taken_le j id hid) hhigh
      · exact (htaken id hid).2.1
    · rw [View.put_lease_ne hj]
      rw [taken_append, taken_map_ne (Ne.symm hj), List.append_nil] at hid
      exact h.taken_le j id hid
  · intro j id hid
    by_cases hj : j = i
    · subst hj
      rw [taken_append, taken_map_self] at hid
      rcases List.mem_append.mp hid with hid | hid
      · exact h.taken_node j id hid
      · exact (htaken id hid).2.2
    · rw [taken_append, taken_map_ne (Ne.symm hj), List.append_nil] at hid
      exact h.taken_node j id hid
  · intro j
    by_cases hj : j = i
    · subst hj
      rw [taken_append, taken_map_self]
      refine List.pairwise_append.mpr ⟨h.sorted j, hsorted, fun id hid id' hid' => ?_⟩
      exact UInt64.lt_of_le_of_lt (h.taken_le j id hid) (htaken id' hid').1
    · rw [taken_append, taken_map_ne (Ne.symm hj), List.append_nil]
      exact h.sorted j
  · intro j
    by_cases hj : j = i
    · subst hj
      rw [View.put_lease, taken_map_self]
      exact ⟨hhigh, fun id hid => (htaken id hid).1⟩
    · rw [View.put_lease_ne hj, taken_map_ne (Ne.symm hj)]
      exact ⟨UInt64.le_refl _, by simp⟩

/-- The node id of a new id is that of its node. -/
theorem nextHighest_node (hcell : numNodes.toNat ≤ maxCellSize) (i : Fin numNodes.toNat)
    {proposalID : UInt64} (h : roundOf proposalID + 1 < 2 ^ 40) :
    ((configOf i).nextHighest proposalID).toNat = (roundOf proposalID + 1) * 2 ^ 24 + i := by
  have hi : (i : Nat) < 2 ^ 8 := Nat.lt_of_lt_of_le i.isLt hcell
  have hnode : (configOf i).nodeID.toNat = i := by
    simp only [configOf, ReplicatedConfig.loaded, UInt32.toNat_ofNat']
    omega
  have hcounter : (configOf i).restartCounter.toNat = 0 := rfl
  rw [(configOf i).nextHighest_fields h (by omega) (by omega), hnode, hcounter]
  omega

theorem IdInv.move (h : IdInv out v) (hcell : numNodes.toNat ≤ maxCellSize)
    {input : Option PLeaseMsg}
    (hmove : IdMove (configOf i) input (v.lease i).proposer lease'.proposer es)
    (hinput : ∀ msg, input = some msg → msg.isRequest = true →
      roundOf msg.proposalID ≤ rounds out)
    (hroom : rounds (out ++ es.map fun e => (i, e)) < 2 ^ 40) :
    IdInv (out ++ es.map fun e => (i, e)) (v.put i lease' es) ∧
      Rises v (v.put i lease' es) (es.map fun e => (i, e)) := by
  cases hmove with
  | stays hhigh hid hes =>
    have hnone : es.filterMap prepareID? = [] := by
      refine filterMap_prepareID?_eq_nil fun msg hmsg htype => ?_
      have hpropose := (hes msg hmsg (by simp [PLeaseMsg.isRequest, htype])).1
      simp [htype] at hpropose
    refine h.put (UInt64.le_of_eq hhigh.symm) ?_ ?_ ?_ (by simp [hnone]) (by simp [hnone])
    · rw [hhigh, rounds_append]
      exact (h.round_highest i).trans (Nat.le_add_right _ _)
    · rw [hhigh, hid]
      exact h.current_le i
    · intro msg hmsg hreq
      rw [(hes msg hmsg hreq).2, hhigh]
      exact h.current_le i
  | raises hmsg hreq hp hes =>
    subst hes
    rename_i msg
    refine h.put ?_ ?_ ?_ (by simp) (by simp) (by simp)
    · rw [hp]
      exact PLeaseProposer.highestProposalID_le_bumpHighest _ _
    · rw [hp, List.map_nil, List.append_nil, PLeaseProposer.bumpHighest]
      split
      · exact hinput msg hmsg hreq
      · exact h.round_highest i
    · rw [hp, PLeaseProposer.bumpHighest_state]
      exact UInt64.le_trans (h.current_le i) (PLeaseProposer.highestProposalID_le_bumpHighest _ _)
  | takes q hhigh hp hes =>
    have hone : es.filterMap prepareID? =
        [(configOf i).nextHighest (v.lease i).proposer.highestProposalID] := by
      rw [hes, ← hhigh]
      rfl
    have hrounds : rounds (out ++ es.map fun e => (i, e)) = rounds out + 1 := by
      rw [rounds_append, rounds_map, hone, List.length_singleton]
    have hround := h.round_highest i
    have hnext : roundOf (v.lease i).proposer.highestProposalID + 1 < 2 ^ 40 := by omega
    have hhigh' : lease'.proposer.highestProposalID =
        (configOf i).nextHighest (v.lease i).proposer.highestProposalID := by
      rw [hp, PLeaseProposer.startPreparing_highestProposalID _ _ (hhigh ▸ hnext), hhigh]
    have hvalue := nextHighest_node hcell i hnext
    have hlt := (configOf i).lt_nextHighest hnext
    have hi : (i : Nat) < 2 ^ 8 := Nat.lt_of_lt_of_le i.isLt hcell
    refine h.put ?_ ?_ ?_ ?_ ?_ (by simp [hone])
    · rw [hhigh']
      exact UInt64.le_of_lt hlt
    · rw [hhigh', hrounds, roundOf, hvalue]
      omega
    · rw [hhigh', hp, PLeaseProposer.startPreparing_state, hhigh]
      exact UInt64.le_refl _
    · intro msg hmsg _
      rw [hes, PLeaseProposer.startPreparing_effects] at hmsg
      obtain rfl := List.mem_singleton.mp (show msg ∈ [_] from hmsg)
      rw [hhigh', ← hhigh]
      exact UInt64.le_refl _
    · intro id hid
      obtain rfl : id = _ := by simpa [hone] using hid
      refine ⟨hlt, hhigh' ▸ UInt64.le_refl _, ?_⟩
      rw [hvalue]
      omega

theorem IdInv.take (h : IdInv out v) (d : Datagram numNodes.toNat) : IdInv out (v.take d) :=
  { h with round_request := fun d' hd' => h.round_request d' (Multiset.mem_of_mem_erase hd') }

theorem IdInv.step {rules : Rules} {dup : Prop} {v' : View numNodes}
    {out' : Output numNodes.toNat} (h : IdInv out v) (hcell : numNodes.toNat ≤ maxCellSize)
    (hstep : View.Step rules dup v v' out') (hroom : rounds (out ++ out') < 2 ^ 40) :
    IdInv (out ++ out') v' ∧ Rises v v' out' := by
  -- A datagram in flight is within the rounds taken so far, wherever it goes.
  have hread : ∀ d ∈ v.inFlight, ∀ msg, some d.msg = some msg → msg.isRequest = true →
      roundOf msg.proposalID ≤ rounds out := by
    rintro d hd _ ⟨⟩
    exact h.round_request d hd
  cases hstep with
  | tick _ _ =>
    rw [List.append_nil]
    exact ⟨{ h with }, Rises.refl v⟩
  | lose _ =>
    rw [List.append_nil]
    exact ⟨h.take _, Rises.refl v⟩
  | duplicate _ hd =>
    rw [List.append_nil]
    refine ⟨{ h with round_request := fun d' hd' => ?_ }, Rises.refl v⟩
    rcases Multiset.mem_cons.mp hd' with rfl | hd'
    · exact h.round_request _ hd
    · exact h.round_request d' hd'
  | own hmicro => exact h.move hcell (micro_idMove hmicro) (by simp) hroom
  | read hd hmicro => exact h.move hcell (micro_idMove hmicro) (hread _ hd) hroom
  | use hd hmicro => exact (h.take _).move hcell (micro_idMove hmicro) (hread _ hd) hroom

theorem IdInv.run {rules : Rules} {dup : Prop} {v' : View numNodes}
    {out' : Output numNodes.toNat} (h : IdInv out v) (hcell : numNodes.toNat ≤ maxCellSize)
    (hrun : View.Run rules dup v v' out') (hroom : rounds (out ++ out') < 2 ^ 40) :
    IdInv (out ++ out') v' ∧ Rises v v' out' := by
  induction hrun with
  | nil =>
    rw [List.append_nil]
    exact ⟨h, Rises.refl v⟩
  | snoc _ hstep ih =>
    rw [← List.append_assoc] at hroom ⊢
    have hroom' := rounds_append ▸ hroom
    obtain ⟨hinv, hrises⟩ := ih (by omega)
    obtain ⟨hinv', hrises'⟩ := hinv.step hcell hstep hroom
    exact ⟨hinv', hrises.trans hrises'⟩

end Step

-- ---------------------------------------------------------------------------
-- Runs of a cluster
-- ---------------------------------------------------------------------------

namespace System

/-- The request a step hands to node `i`, if it does. -/
def request? (i : Fin numNodes.toNat)
    (st : Step (System numNodes) (Label numNodes.toNat) (Output numNodes.toNat)) :
    Option PLeaseMsg :=
  match delivered? st with
  | some d => if d.dst = i ∧ d.msg.isRequest = true then some d.msg else none
  | none => none

/-- The system once the node a request goes to has noted its id. -/
def raised (s : System numNodes) (d : Datagram numNodes.toNat) : System numNodes :=
  { s with
    nodes := Function.update s.nodes d.dst
      { s.nodes d.dst with
        lease.proposer := (s.nodes d.dst).lease.proposer.bumpHighest d.msg.proposalID } }

variable {s : System numNodes} {k : Nat} {d : Datagram numNodes.toNat}

/-- A node that reads a request notes its id before anything else. -/
theorem step_deliver_raised (hd : s.inFlight[k]? = some d) (hreq : d.msg.isRequest = true) :
    s.step (.deliver k) = (s.raised d).step (.deliver k) := by
  have hbump : ∀ p : PLeaseProposer, (p.bumpHighest d.msg.proposalID).bumpHighest d.msg.proposalID =
      p.bumpHighest d.msg.proposalID := by
    intro p
    exact if_neg (UInt64.not_lt.mpr (p.le_bumpHighest _))
  have hraised : (s.raised d).inFlight[k]? = some d := hd
  simp only [step, hd, hraised]
  simp only [act, raised, Function.update_self, Function.update_idem]
  simp only [Process.step, Process.commit, PaxosLease.onRead, hreq, if_true, hbump, andThen]

theorem view_raised (s : System numNodes) (d : Datagram numNodes.toNat) :
    (s.raised d).view = s.view.put d.dst
      { (s.nodes d.dst).lease with
        proposer := (s.nodes d.dst).lease.proposer.bumpHighest d.msg.proposalID } [] := by
  simp only [view, raised, View.put, View.mk.injEq, true_and, List.flatMap_nil]
  refine ⟨?_, (Multiset.add_zero _).symm⟩
  funext j
  by_cases hj : j = d.dst
  · subst hj
    simp
  · simp [Function.update_of_ne hj]

/-- The invariant, and that a node's highest id is at least that of every request
it has received. -/
structure RunIdInv (tr : Trace numNodes) (s : System numNodes) : Prop where
  ids : IdInv (outputs tr) s.view
  received : ∀ st ∈ tr, ∀ i msg, request? i st = some msg →
    msg.proposalID ≤ (s.nodes i).lease.proposer.highestProposalID

theorem runIdInv_init (now : CTimeValue) (mem : Fin numNodes.toNat → PLeaseProposer) :
    RunIdInv [] (machine numNodes now mem).init := by
  refine ⟨⟨?_, ?_, ?_, ?_, ?_, ?_⟩, ?_⟩ <;>
    simp [machine, view, outputs, taken, rounds, Process.init, PaxosLease.init,
      PLeaseProposer.init, PLeaseProposerState.init, roundOf]

/-- A request counts from the moment it is read: what the node takes in the same step
is above it. -/
theorem deliver_above {out : Output numNodes.toNat} (h : IdInv out s.view)
    (hcell : numNodes.toNat ≤ maxCellSize) (hconfig : ∀ i, (s.nodes i).rconf = configOf i)
    (hd : s.inFlight[k]? = some d) (hreq : d.msg.isRequest = true)
    (hroom : rounds (out ++ (s.step (.deliver k)).2) < 2 ^ 40) :
    d.msg.proposalID ≤
        (((s.step (.deliver k)).1.nodes d.dst).lease.proposer.highestProposalID) ∧
      ∀ id ∈ taken d.dst (s.step (.deliver k)).2, d.msg.proposalID < id := by
  have hraise : IdInv out (s.raised d).view := by
    rw [view_raised]
    generalize hlease : ({ (s.nodes d.dst).lease with
      proposer := (s.nodes d.dst).lease.proposer.bumpHighest d.msg.proposalID } : PaxosLease) =
        lease'
    have hmove : IdMove (configOf d.dst) (some d.msg) (s.view.lease d.dst).proposer
        lease'.proposer [] := .raises rfl hreq (hlease ▸ rfl) rfl
    have hput := (h.move hcell hmove ?_ ?_).1
    · simpa using hput
    · rintro _ ⟨⟩
      exact h.round_request d (mem_inFlight_of_getElem? hd)
    · have hrounds := rounds_append ▸ hroom
      rw [List.map_nil, List.append_nil]
      omega
  have hconfig' : ∀ i, ((s.raised d).nodes i).rconf = configOf i := by
    intro i
    rw [← hconfig i]
    by_cases hi : i = d.dst
    · subst hi
      simp [raised]
    · simp [raised, Function.update_of_ne hi]
  rw [step_deliver_raised hd hreq] at hroom ⊢
  obtain ⟨-, hrises⟩ :=
    hraise.run hcell (step_run hconfig' (.deliver k) (allowed_any _ _)) hroom
  have hle : d.msg.proposalID ≤ ((s.raised d).view.lease d.dst).proposer.highestProposalID := by
    rw [view_raised, View.put_lease]
    exact PLeaseProposer.le_bumpHighest _ _
  obtain ⟨hmono, hnew⟩ := hrises d.dst
  exact ⟨UInt64.le_trans hle hmono, fun id hid => UInt64.lt_of_le_of_lt hle (hnew id hid)⟩

theorem request?_eq_some {i : Fin numNodes.toNat} {msg : PLeaseMsg}
    {st : Step (System numNodes) (Label numNodes.toNat) (Output numNodes.toNat)}
    (h : request? i st = some msg) :
    ∃ k d, st.input = .deliver k ∧ st.pre.inFlight[k]? = some d ∧ d.dst = i ∧ d.msg = msg ∧
      d.msg.isRequest = true := by
  unfold request? at h
  split at h
  · rename_i d hdelivered
    obtain ⟨k, hinput, hd⟩ := delivered?_eq_some.mp hdelivered
    split at h
    · rename_i hdst
      exact ⟨k, d, hinput, hd, hdst.1, Option.some.inj h, hdst.2⟩
    · cases h
  · cases h

/-- One step keeps the invariant, and what a node takes in it is above every request
it has received by then, the one it is reading included. -/
theorem RunIdInv.step {tr : Trace numNodes} (h : RunIdInv tr s)
    (hcell : numNodes.toNat ≤ maxCellSize) (hconfig : ∀ i, (s.nodes i).rconf = configOf i)
    {st : Step (System numNodes) (Label numNodes.toNat) (Output numNodes.toNat)}
    (hpre : st.pre = s) (hstep : s.step st.input = (st.post, st.output))
    (hroom : rounds (outputs (st :: tr)) < 2 ^ 40) :
    RunIdInv (st :: tr) st.post ∧
    ∀ i, ∀ id ∈ taken i st.output, ∀ st' ∈ st :: tr, ∀ msg, request? i st' = some msg →
      msg.proposalID < id := by
  have hrun := step_run hconfig st.input (allowed_any s st.input)
  rw [hstep] at hrun
  obtain ⟨hinv, hrises⟩ := h.ids.run hcell hrun hroom
  have hnow : ∀ i msg, request? i st = some msg →
      msg.proposalID ≤ (st.post.nodes i).lease.proposer.highestProposalID ∧
      ∀ id ∈ taken i st.output, msg.proposalID < id := by
    intro i msg hmsg
    obtain ⟨k, d, hinput, hd, rfl, rfl, hreq⟩ := request?_eq_some hmsg
    rw [hinput] at hstep
    rw [hpre] at hd
    have hdeliver := deliver_above h.ids hcell hconfig hd hreq (by rw [hstep]; exact hroom)
    rwa [hstep] at hdeliver
  refine ⟨⟨hinv, fun st' hst' i msg hmsg => ?_⟩, fun i id hid st' hst' msg hmsg => ?_⟩
  · rcases List.mem_cons.mp hst' with rfl | hst'
    · exact (hnow i msg hmsg).1
    · exact UInt64.le_trans (h.received st' hst' i msg hmsg) (hrises i).1
  · rcases List.mem_cons.mp hst' with rfl | hst'
    · exact (hnow i msg hmsg).2 id hid
    · exact UInt64.lt_of_le_of_lt (h.received st' hst' i msg hmsg) ((hrises i).2 id hid)

/-- The ids a node takes go up and are above every request it has received, and no
two nodes take the same one. -/
def IdsUnique (tr : Trace numNodes) : Prop :=
  (∀ i, (taken i (outputs tr)).Pairwise (· < ·)) ∧
  (∀ later st earlier, tr = later ++ st :: earlier →
    ∀ i, ∀ id ∈ taken i st.output, ∀ st' ∈ st :: earlier, ∀ msg, request? i st' = some msg →
      msg.proposalID < id) ∧
  ∀ i j, i ≠ j → ∀ id ∈ taken i (outputs tr), id ∉ taken j (outputs tr)

theorem runIdInv_run (now : CTimeValue) (mem : Fin numNodes.toNat → PLeaseProposer)
    (labels : List (Label numNodes.toNat)) (hcell : numNodes.toNat ≤ maxCellSize)
    (hrounds : rounds (outputs ((machine numNodes now mem).trace labels)) < 2 ^ 40) :
    RunIdInv ((machine numNodes now mem).trace labels) ((machine numNodes now mem).run labels) ∧
    ∀ later st earlier, (machine numNodes now mem).trace labels = later ++ st :: earlier →
      ∀ i, ∀ id ∈ taken i st.output, ∀ st' ∈ st :: earlier, ∀ msg, request? i st' = some msg →
        msg.proposalID < id := by
  refine (machine numNodes now mem).invariant (C := fun tr => rounds (outputs tr) < 2 ^ 40)
    (P := fun tr s => RunIdInv tr s ∧ ∀ later st earlier, tr = later ++ st :: earlier →
      ∀ i, ∀ id ∈ taken i st.output, ∀ st' ∈ st :: earlier, ∀ msg, request? i st' = some msg →
        msg.proposalID < id)
    (fun st tr hlt => ?_) ⟨runIdInv_init now mem, by simp⟩ ?_ labels hrounds
  · rw [outputs, rounds_append] at hlt
    omega
  · rintro labels label hrounds ⟨hinv, hreceived⟩
    obtain ⟨hinv', hnew⟩ := hinv.step hcell (run_rconf now mem labels) rfl rfl hrounds
    refine ⟨hinv', fun later st earlier heq => ?_⟩
    cases later with
    | nil =>
      obtain ⟨rfl, rfl⟩ := List.cons.inj heq
      exact hnew
    | cons _ later =>
      obtain ⟨-, heq⟩ := List.cons.inj heq
      exact hreceived later st earlier heq

/-- In every run of a cluster of at most 256 nodes in which fewer than `2 ^ 40` rounds
are started, the ids are unique and increasing. -/
theorem idsUnique (now : CTimeValue) (mem : Fin numNodes.toNat → PLeaseProposer)
    (labels : List (Label numNodes.toNat)) (hcell : numNodes.toNat ≤ maxCellSize)
    (hrounds : rounds (outputs ((machine numNodes now mem).trace labels)) < 2 ^ 40) :
    IdsUnique ((machine numNodes now mem).trace labels) := by
  obtain ⟨hinv, hreceived⟩ := runIdInv_run now mem labels hcell hrounds
  refine ⟨hinv.ids.sorted, hreceived, fun i j hne id hi hj => hne (Fin.ext ?_)⟩
  rw [← hinv.ids.taken_node i id hi, ← hinv.ids.taken_node j id hj]

/-- Nodes 0 and 1 of three start a round each, and node 1 a second one after the
request of node 0 has reached it. -/
def threeRounds : List (Label 3) :=
  [.call node1 .startAcquireLease, .call node1 .stopAcquireLease, .deliver 1,
    .call node1 .startAcquireLease, .call node0 .startAcquireLease]

theorem idsUnique_threeRounds :
    taken node1 (outputs ((machine 3 (.ofSec 1000) fun _ => .zeroed).trace threeRounds)) =
      [16777217, 33554433] ∧
    IdsUnique ((machine 3 (.ofSec 1000) fun _ => .zeroed).trace threeRounds) :=
  ⟨by decide, idsUnique _ _ _ (by decide) (by decide)⟩

end System

end PL
