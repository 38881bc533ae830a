-- SUMMARY: Without duplication, each node answers a request at most once and each answer is counted at most once.
import Mathlib.Data.Multiset.Count
import NetworkEtc.PL.ProposalIDs

/-!
# Tokens

In a round a proposer sends one request of each phase to each node. The request, and
then the answer to it, is a token: it is in flight, or lost, or counted, and nobody
can make a second one. So a proposer that counts answers counts nodes, as long as the
network duplicates nothing.
-/

namespace PL

open Library Netfram

variable {numNodes : UInt32}

/-- The two phases of a round. -/
inductive Phase where
  | prepare
  | propose
  deriving DecidableEq

namespace Phase

def request : Phase → PLeaseMsgType
  | prepare => .prepareRequest
  | propose => .proposeRequest

def answers : Phase → PLeaseMsg → Bool
  | prepare => PLeaseMsg.isPrepareResponse
  | propose => PLeaseMsg.isProposeResponse

def active : Phase → PLeaseProposer → Bool
  | prepare => fun p => p.state.preparing
  | propose => fun p => p.state.proposing

theorem request_injective {φ ψ : Phase} (h : φ.request = ψ.request) : φ = ψ := by
  cases φ <;> cases ψ <;> simp_all [request]

/-- No message answers both phases. -/
theorem answers_unique {φ ψ : Phase} {msg : PLeaseMsg} (hφ : φ.answers msg = true)
    (hψ : ψ.answers msg = true) : φ = ψ := by
  have hnot := msg.not_isPrepareResponse
  cases φ <;> cases ψ <;> simp_all [answers]

/-- A request is no answer. -/
theorem answers_eq_false {φ : Phase} {msg : PLeaseMsg} (ψ : Phase) (h : msg.type = φ.request) :
    ψ.answers msg = false := by
  cases φ <;> cases ψ <;>
    simp_all [request, answers, PLeaseMsg.isPrepareResponse, PLeaseMsg.isProposeResponse]

end Phase

section Carries

variable {n : Nat} {φ : Phase} {a i : Fin n} {id : UInt64} {d : Datagram n}

/-- The datagram is the request for `id` to node `a`, or the answer of `a` to it. -/
def carries (φ : Phase) (a : Fin n) (id : UInt64) (d : Datagram n) : Prop :=
  d.msg.proposalID = id ∧
    (d.msg.type = φ.request ∧ d.dst = a ∨ φ.answers d.msg = true ∧ d.src = a)

instance decidableCarries : DecidablePred (carries φ a id) := fun _ => inferInstanceAs (Decidable (_ ∧ (_ ∨ _)))

/-- How many such datagrams there are. -/
def tokens (φ : Phase) (a : Fin n) (id : UInt64) (flight : Multiset (Datagram n)) : Nat :=
  flight.countP (carries φ a id)

theorem tokens_add (flight flight' : Multiset (Datagram n)) :
    tokens φ a id (flight + flight') = tokens φ a id flight + tokens φ a id flight' :=
  Multiset.countP_add _ _ _

/-- Taking a datagram takes its token. -/
theorem tokens_erase {flight : Multiset (Datagram n)} (hd : d ∈ flight) :
    tokens φ a id (flight.erase d) + (if carries φ a id d then 1 else 0) = tokens φ a id flight := by
  conv_rhs => rw [← Multiset.cons_erase hd]
  simp only [tokens, Multiset.countP_cons]

theorem tokens_eq_zero {flight : Multiset (Datagram n)} (h : ∀ d ∈ flight, ¬ carries φ a id d) :
    tokens φ a id flight = 0 :=
  Multiset.countP_eq_zero.mpr h

/-- A message that is neither request nor answer carries nothing. -/
theorem not_carries (h : d.msg.isRequest = false) (h' : d.msg.isResponse = false) :
    ¬ carries φ a id d := by
  rintro ⟨-, ⟨htype, -⟩ | ⟨hans, -⟩⟩
  · cases φ <;> simp_all [Phase.request, PLeaseMsg.isRequest]
  · cases φ <;> simp_all [Phase.answers, PLeaseMsg.isResponse]

/-- A broadcast of a request makes one token for each node. -/
theorem tokens_broadcast {ψ : Phase} {msg : PLeaseMsg} (htype : msg.type = ψ.request) :
    tokens φ a id (posts i (.broadcastMessage msg) : List (Datagram n)) =
      if φ = ψ ∧ id = msg.proposalID then 1 else 0 := by
  have hcarries : ∀ j : Fin n, carries φ a id ⟨i, j, msg⟩ ↔ (φ = ψ ∧ id = msg.proposalID) ∧ j = a := by
    intro j
    have hans := Phase.answers_eq_false φ htype
    simp only [carries, htype, hans]
    constructor
    · rintro ⟨rfl, ⟨hφ, rfl⟩ | ⟨hfalse, -⟩⟩
      · exact ⟨⟨(Phase.request_injective hφ).symm, rfl⟩, rfl⟩
      · cases hfalse
    · rintro ⟨⟨rfl, rfl⟩, rfl⟩
      exact ⟨rfl, .inl ⟨rfl, rfl⟩⟩
  simp only [tokens, posts, Multiset.coe_countP, List.countP_map]
  split
  · rename_i h
    have hone : (List.finRange n).countP (· == a) = 1 :=
      List.count_eq_one_of_mem (List.nodup_finRange n) (List.mem_finRange a)
    obtain ⟨rfl, rfl⟩ := h
    rw [← hone]
    refine List.countP_congr fun j _ => ?_
    simp [hcarries]
  · rename_i h
    refine List.countP_eq_zero.mpr fun j _ => ?_
    simp [hcarries, h]

/-- A reply to `d` takes over the token of `d`, at most. -/
theorem tokens_reply {nodeID : UInt32} {msg : PLeaseMsg} (hnot : msg.isRequest = false)
    (hid : msg.proposalID = d.msg.proposalID)
    (hans : ∀ ψ : Phase, ψ.answers msg = true → d.msg.type = ψ.request) :
    tokens φ a id (posts d.dst (.sendReply nodeID msg) : List (Datagram n)) ≤
      if carries φ a id d then 1 else 0 := by
  simp only [posts]
  split
  · rename_i hlt
    have hcarries : carries φ a id ⟨d.dst, ⟨nodeID.toNat, hlt⟩, msg⟩ → carries φ a id d := by
      rintro ⟨rfl, ⟨htype, -⟩ | ⟨hanswer, rfl⟩⟩
      · cases φ <;> simp_all [Phase.request, PLeaseMsg.isRequest]
      · exact ⟨hid.symm, .inl ⟨hans φ hanswer, rfl⟩⟩
    simp only [tokens, Multiset.coe_countP, List.countP_singleton]
    split
    · rename_i h
      rw [if_pos (hcarries (by simpa using h))]
    · exact Nat.zero_le _
  · simp [tokens]

end Carries

-- ---------------------------------------------------------------------------
-- The invariant
-- ---------------------------------------------------------------------------

/-- The tokens of a view. For each node, `answered` are the answers it has counted in
the phase it is in. -/
structure Tokens (out : Output numNodes.toNat)
    (answered : Fin numNodes.toNat → List (Datagram numNodes.toNat)) (v : View numNodes) :
    Prop where
  /-- A token of a phase under way is in flight or counted, not both, and once. -/
  spent : ∀ φ i, Phase.active φ (v.lease i).proposer = true → ∀ a,
    tokens φ a (v.lease i).proposer.state.proposalID v.inFlight +
      (answered i).countP (fun d => d.src == a) ≤ 1
  unproposed : ∀ i, (v.lease i).proposer.state.preparing = true → ∀ a,
    tokens .propose a (v.lease i).proposer.state.proposalID v.inFlight = 0
  carried : ∀ φ a id, 0 < tokens φ a id v.inFlight → ∃ i, id ∈ taken i out
  current : ∀ φ i, Phase.active φ (v.lease i).proposer = true →
    (v.lease i).proposer.state.proposalID ∈ taken i out
  exclusive : ∀ i, ¬ ((v.lease i).proposer.state.preparing = true ∧
    (v.lease i).proposer.state.proposing = true)

section Step

variable {out : Output numNodes.toNat}
  {answered : Fin numNodes.toNat → List (Datagram numNodes.toNat)} {v v' : View numNodes}
  {i : Fin numNodes.toNat}

theorem Tokens.phase_unique (h : Tokens out answered v) {φ ψ : Phase}
    (hφ : Phase.active φ (v.lease i).proposer = true)
    (hψ : Phase.active ψ (v.lease i).proposer = true) : φ = ψ := by
  have hexcl := h.exclusive i
  cases φ <;> cases ψ <;> simp_all [Phase.active]

/-- A move after which no token is new and no phase has begun. -/
theorem Tokens.calm (h : Tokens out answered v) {out' : Output numNodes.toNat}
    (htokens : ∀ φ a id, tokens φ a id v'.inFlight ≤ tokens φ a id v.inFlight)
    (hphase : ∀ φ i, Phase.active φ (v'.lease i).proposer = true →
      Phase.active φ (v.lease i).proposer = true ∧
      (v'.lease i).proposer.state.proposalID = (v.lease i).proposer.state.proposalID) :
    Tokens (out ++ out') answered v' where
  spent := by
    intro φ i hactive a
    obtain ⟨hactive', hid⟩ := hphase φ i hactive
    rw [hid]
    exact (Nat.add_le_add_right (htokens _ _ _) _).trans (h.spent φ i hactive' a)
  unproposed := by
    intro i hprep a
    obtain ⟨hprep', hid⟩ := hphase .prepare i hprep
    have hle := htokens .propose a (v.lease i).proposer.state.proposalID
    rw [h.unproposed i hprep' a] at hle
    rw [hid]
    exact Nat.le_zero.mp hle
  carried := by
    intro φ a id hpos
    obtain ⟨j, hj⟩ := h.carried φ a id (hpos.trans_le (htokens φ a id))
    exact ⟨j, taken_append ▸ List.mem_append_left _ hj⟩
  current := by
    intro φ i hactive
    obtain ⟨hactive', hid⟩ := hphase φ i hactive
    rw [hid, taken_append]
    exact List.mem_append_left _ (h.current φ i hactive')
  exclusive := by
    rintro i ⟨hprep, hprop⟩
    exact h.exclusive i ⟨(hphase .prepare i hprep).1, (hphase .propose i hprop).1⟩

/-- A node counts an answer in the phase it is in. -/
theorem Tokens.count (h : Tokens out answered v) {out' : Output numNodes.toNat}
    {d : Datagram numNodes.toNat}
    (htokens : ∀ φ a id, tokens φ a id v'.inFlight + (if carries φ a id d then 1 else 0) ≤
      tokens φ a id v.inFlight)
    (hphase : ∀ φ i, Phase.active φ (v'.lease i).proposer = true →
      Phase.active φ (v.lease i).proposer = true ∧
      (v'.lease i).proposer.state.proposalID = (v.lease i).proposer.state.proposalID)
    (hcounts : ∀ φ, Phase.active φ (v'.lease i).proposer = true →
      Phase.answers φ d.msg = true ∧ d.msg.proposalID = (v.lease i).proposer.state.proposalID) :
    Tokens (out ++ out') (Function.update answered i (d :: answered i)) v' := by
  have hcalm : Tokens (out ++ out') answered v' :=
    h.calm (fun φ a id => (Nat.le_add_right _ _).trans (htokens φ a id)) hphase
  refine { hcalm with spent := fun φ j hactive a => ?_ }
  by_cases hj : j = i
  · subst hj
    obtain ⟨hactive', hid⟩ := hphase φ j hactive
    obtain ⟨hans, hid'⟩ := hcounts φ hactive
    have hspent := h.spent φ j hactive' a
    have htoken := htokens φ a (v.lease j).proposer.state.proposalID
    rw [Function.update_self, List.countP_cons, hid]
    by_cases hsrc : d.src = a
    · rw [if_pos ⟨hid', .inr ⟨hans, hsrc⟩⟩] at htoken
      simp only [hsrc, beq_self_eq_true, if_true]
      omega
    · simp only [beq_eq_false_iff_ne.mpr hsrc, Bool.false_eq_true, if_false]
      omega
  · rw [Function.update_of_ne hj]
    exact hcalm.spent φ j hactive a

/-- A node broadcasts the request of the phase it begins. -/
theorem Tokens.broadcast (h : Tokens out answered v) {out' : Output numNodes.toNat} {ψ : Phase}
    {id₀ : UInt64} (hother : ∀ j, j ≠ i → (v'.lease j).proposer = (v.lease j).proposer)
    (hphase : ∀ φ, Phase.active φ (v'.lease i).proposer = true → φ = ψ)
    (hid : (v'.lease i).proposer.state.proposalID = id₀)
    (htokens : ∀ φ a id, tokens φ a id v'.inFlight ≤
      tokens φ a id v.inFlight + if φ = ψ ∧ id = id₀ then 1 else 0)
    (hclear : ∀ a, tokens ψ a id₀ v.inFlight = 0)
    (hunproposed : ψ = .prepare → ∀ a, tokens .propose a id₀ v.inFlight = 0)
    (hown : id₀ ∈ taken i (out ++ out'))
    (hdistinct : ∀ φ j, j ≠ i → Phase.active φ (v.lease j).proposer = true →
      (v.lease j).proposer.state.proposalID ≠ id₀) :
    Tokens (out ++ out') (Function.update answered i []) v' := by
  have hkept : ∀ φ j, j ≠ i → Phase.active φ (v.lease j).proposer = true → ∀ ψ a,
      tokens ψ a (v.lease j).proposer.state.proposalID v'.inFlight ≤
        tokens ψ a (v.lease j).proposer.state.proposalID v.inFlight := by
    intro φ j hj hactive φ' a
    have hle := htokens φ' a (v.lease j).proposer.state.proposalID
    rwa [if_neg fun heq => hdistinct φ j hj hactive heq.2] at hle
  refine ⟨fun φ j hactive a => ?_, fun j hprep a => ?_, fun φ a id hpos => ?_,
    fun φ j hactive => ?_, fun j => ?_⟩
  · by_cases hj : j = i
    · subst hj
      obtain rfl := hphase φ hactive
      have hle := htokens φ a id₀
      rw [hclear a, if_pos ⟨rfl, rfl⟩] at hle
      rw [hid, Function.update_self, List.countP_nil]
      exact hle
    · rw [hother j hj] at hactive ⊢
      rw [Function.update_of_ne hj]
      exact (Nat.add_le_add_right (hkept φ j hj hactive φ a) _).trans (h.spent φ j hactive a)
  · by_cases hj : j = i
    · subst hj
      obtain rfl := (hphase .prepare hprep).symm
      have hle := htokens .propose a id₀
      rw [hunproposed rfl a, if_neg (by simp)] at hle
      rw [hid]
      exact Nat.le_zero.mp hle
    · rw [hother j hj] at hprep ⊢
      have hle := hkept .prepare j hj hprep .propose a
      rw [h.unproposed j hprep a] at hle
      exact Nat.le_zero.mp hle
  · by_cases hnew : φ = ψ ∧ id = id₀
    · exact ⟨i, hnew.2 ▸ hown⟩
    · have hle := htokens φ a id
      rw [if_neg hnew] at hle
      obtain ⟨j, hj⟩ := h.carried φ a id (hpos.trans_le hle)
      exact ⟨j, taken_append ▸ List.mem_append_left _ hj⟩
  · by_cases hj : j = i
    · subst hj
      rw [hid]
      exact hown
    · rw [hother j hj] at hactive ⊢
      rw [taken_append]
      exact List.mem_append_left _ (h.current φ j hactive)
  · by_cases hj : j = i
    · subst hj
      rintro ⟨hprep, hprop⟩
      have hψ := (hphase .prepare hprep).trans (hphase .propose hprop).symm
      cases hψ
    · rw [hother j hj]
      exact h.exclusive j

/-- The nodes whose answers were counted are as many as the answers: no node has been
counted twice. -/
theorem Tokens.card_senders (h : Tokens out answered v) {φ : Phase}
    (hactive : Phase.active φ (v.lease i).proposer = true) (P : Datagram numNodes.toNat → Bool) :
    (((answered i).filter P).map Datagram.src).toFinset.card = (answered i).countP P := by
  have hnodup : (((answered i).filter P).map Datagram.src).Nodup := by
    refine List.nodup_iff_count_le_one.mpr fun a => ?_
    rw [List.count, List.countP_map]
    have hall := h.spent φ i hactive a
    have hle : ((answered i).filter P).countP (fun d => d.src == a) ≤
        (answered i).countP (fun d => d.src == a) :=
      List.Sublist.countP_le List.filter_sublist
    exact hle.trans (by omega)
  rw [List.toFinset_card_of_nodup hnodup, List.length_map, List.countP_eq_length_filter]

end Step

end PL
