-- SUMMARY: The handlers of the lease object cut into moves that touch one role each.
import NetworkEtc.PL.PaxosLease

/-!
# Moves of a lease object

A call of a handler is a sequence of moves, and each move touches one role: the
proposer starts a round, the acceptor serves a request, and so on. What holds of
the protocol is shown move by move; that the handlers are made of moves is shown
here, once.
-/

namespace PL

/-- When an acceptor may forget its accepted lease on a timeout, and when it may
serve a request. The two are left open here. -/
structure Rules where
  forget : UInt64 → PLeaseAcceptorState → Prop
  serve : UInt64 → PLeaseAcceptorState → PLeaseMsg → Prop

/-- No restriction. -/
def Rules.any : Rules := ⟨fun _ _ => True, fun _ _ _ => True⟩

namespace PaxosLease

/-- One move at time `now` while `input` is being read, if anything is. The flag
says whether the move uses the message up. -/
inductive Micro (rules : Rules) (rconf : ReplicatedConfig) (now : UInt64)
    (input : Option PLeaseMsg) : Bool → PaxosLease → PaxosLease → List Effect → Prop
  /-- Calls on the timers, and assertions. -/
  | silent (lease : PaxosLease) {es : List Effect} (hes : sentMsgs es = []) :
      Micro rules rconf now input false lease lease es
  | flag (lease : PaxosLease) (b : Bool) :
      Micro rules rconf now input false lease { lease with acquireLease := b } []
  /-- `StartPreparing` -/
  | prepare (lease : PaxosLease) :
      Micro rules rconf now input false lease
        { lease with proposer := (lease.proposer.startPreparing rconf).1 }
        (lease.proposer.startPreparing rconf).2
  /-- The proposer gives up its round. -/
  | rest (lease : PaxosLease) :
      Micro rules rconf now input false lease
        { lease with
          proposer := { lease.proposer with state.preparing := false, state.proposing := false } } []
  /-- The id of a request raises the highest id known. -/
  | raise (lease : PaxosLease) {msg : PLeaseMsg} (hinput : input = some msg)
      (hreq : msg.isRequest = true) :
      Micro rules rconf now input false lease
        { lease with proposer := lease.proposer.bumpHighest msg.proposalID } []
  | request (lease : PaxosLease) {msg : PLeaseMsg} (hinput : input = some msg)
      (hreq : msg.isRequest = true) (hserve : rules.serve now lease.acceptor msg)
      {state' : PLeaseAcceptorState} {es : List Effect}
      (hout : PLeaseAcceptor.Outcome rconf now lease.acceptor msg state' es) :
      Micro rules rconf now input true lease { lease with acceptor := state' } es
  | answer (lease : PaxosLease) {msg : PLeaseMsg} (hinput : input = some msg)
      {p' : PLeaseProposer} {es : List Effect}
      (hout : PLeaseProposer.Outcome rconf now lease.proposer msg p' es) :
      Micro rules rconf now input true lease { lease with proposer := p' } es
  /-- The timeout of the acceptor's lease timer. -/
  | forget (lease : PaxosLease) (hforget : rules.forget now lease.acceptor) :
      Micro rules rconf now input false lease
        { lease with acceptor := PLeaseAcceptor.onLeaseTimeout lease.acceptor } []
  /-- The learner's lease is over. -/
  | expire (lease : PaxosLease) :
      Micro rules rconf now input false lease
        { lease with learner := lease.learner.onLeaseTimeout } []
  | learn (lease : PaxosLease) {msg : PLeaseMsg} (hinput : input = some msg)
      (htype : msg.type = .learnChosen) {expireTime : UInt64}
      (hexpire : msg.leaseOwner = rconf.nodeID → expireTime = msg.localExpireTime) :
      Micro rules rconf now input true lease
        { lease with
          learner :=
            { lease.learner with
              learned := true, leaseOwner := msg.leaseOwner, expireTime := expireTime } } []

/-- Moves in a row: the message is used up at most once, and not looked at after
that. -/
inductive Moves (rules : Rules) (rconf : ReplicatedConfig) (now : UInt64)
    (input : Option PLeaseMsg) : Bool → PaxosLease → PaxosLease → List Effect → Prop
  | nil (lease : PaxosLease) : Moves rules rconf now input false lease lease []
  | quiet {lease lease' lease'' : PaxosLease} {es es' : List Effect}
      (h : Moves rules rconf now input false lease lease' es)
      (hmicro : Micro rules rconf now input false lease' lease'' es') :
      Moves rules rconf now input false lease lease'' (es ++ es')
  | use {lease lease' lease'' : PaxosLease} {es es' : List Effect}
      (h : Moves rules rconf now input false lease lease' es)
      (hmicro : Micro rules rconf now input true lease' lease'' es') :
      Moves rules rconf now input true lease lease'' (es ++ es')
  | after {lease lease' lease'' : PaxosLease} {es es' : List Effect}
      (h : Moves rules rconf now input true lease lease' es)
      (hmicro : Micro rules rconf now none false lease' lease'' es') :
      Moves rules rconf now input true lease lease'' (es ++ es')

section Moves

variable {rules : Rules} {rconf : ReplicatedConfig} {now : UInt64} {input : Option PLeaseMsg}
  {used : Bool} {lease lease' : PaxosLease} {es : List Effect}

theorem Micro.moves (h : Micro rules rconf now input used lease lease' es) :
    Moves rules rconf now input used lease lease' es := by
  cases used with
  | false => exact (Moves.nil lease).quiet h
  | true => exact (Moves.nil lease).use h

/-- A move that looks at no message is a move whatever is being read. -/
theorem Micro.of_none (h : Micro rules rconf now none false lease lease' es) :
    Micro rules rconf now input false lease lease' es := by
  cases h with
  | silent _ hes => exact .silent lease hes
  | flag _ b => exact .flag lease b
  | prepare _ => exact .prepare lease
  | rest _ => exact .rest lease
  | raise _ hinput _ => cases hinput
  | forget _ hforget => exact .forget lease hforget
  | expire _ => exact .expire lease

/-- A row of moves that uses nothing up goes on with any other. -/
theorem Moves.trans {used' : Bool} {lease'' : PaxosLease} {es' : List Effect}
    (h : Moves rules rconf now input false lease lease' es)
    (h' : Moves rules rconf now input used' lease' lease'' es') :
    Moves rules rconf now input used' lease lease'' (es ++ es') := by
  induction h' with
  | nil => simpa using h
  | quiet _ hmicro ih =>
    rw [← List.append_assoc]
    exact (ih h).quiet hmicro
  | use _ hmicro ih =>
    rw [← List.append_assoc]
    exact (ih h).use hmicro
  | after _ hmicro ih =>
    rw [← List.append_assoc]
    exact (ih h).after hmicro

/-- A row of moves goes on with one that looks at no message. -/
theorem Moves.then_quiet {lease'' : PaxosLease} {es' : List Effect}
    (h : Moves rules rconf now input used lease lease' es)
    (h' : Moves rules rconf now none false lease' lease'' es') :
    Moves rules rconf now input used lease lease'' (es ++ es') := by
  generalize hfalse : false = b at h'
  induction h' with
  | nil => simpa using h
  | quiet _ hmicro ih =>
    rw [← List.append_assoc]
    cases used with
    | false => exact (ih h hfalse).quiet hmicro.of_none
    | true => exact (ih h hfalse).after hmicro
  | use => cases hfalse
  | after => cases hfalse

theorem Moves.andThen {r : PaxosLease × List Effect} {f : PaxosLease → PaxosLease × List Effect}
    {used' : Bool} (h : Moves rules rconf now input false lease r.1 r.2)
    (h' : Moves rules rconf now input used' r.1 (f r.1).1 (f r.1).2) :
    Moves rules rconf now input used' lease (andThen r f).1 (andThen r f).2 :=
  h.trans h'

theorem silent_moves (lease : PaxosLease) {es : List Effect} (hes : sentMsgs es = []) :
    Moves rules rconf now input false lease lease es :=
  (Micro.silent lease hes).moves

theorem startAcquireLease_moves (lease : PaxosLease) :
    Moves rules rconf now input false lease
      (lease.withProposer (lease.proposer.startAcquireLease rconf)).1
      (lease.withProposer (lease.proposer.startAcquireLease rconf)).2 := by
  simp only [withProposer, PLeaseProposer.startAcquireLease, andThen_fst, andThen_snd]
  apply (silent_moves lease rfl).trans
  split
  · exact (Micro.prepare lease).moves
  · exact .nil lease

theorem stopAcquireLease_moves (lease : PaxosLease) :
    Moves rules rconf now input false lease
      (lease.withProposer lease.proposer.stopAcquireLease).1
      (lease.withProposer lease.proposer.stopAcquireLease).2 :=
  (Micro.rest lease).moves.trans (silent_moves _ rfl)

theorem onLeaseTimeout_moves (lease : PaxosLease) :
    Moves rules rconf now input false lease (PLeaseLearner.onLeaseTimeout rconf lease).1
      (PLeaseLearner.onLeaseTimeout rconf lease).2 := by
  apply Moves.andThen
  · exact (Micro.expire lease).moves.trans (silent_moves _ rfl)
  · unfold PaxosLease.onLeaseTimeout
    split
    · exact startAcquireLease_moves _
    · exact .nil _

theorem checkLease_moves (lease : PaxosLease) :
    Moves rules rconf now input false lease (PLeaseLearner.checkLease rconf now lease).1
      (PLeaseLearner.checkLease rconf now lease).2 := by
  unfold PLeaseLearner.checkLease
  split
  · exact onLeaseTimeout_moves lease
  · exact .nil lease

theorem onLearnLease_moves (lease : PaxosLease) :
    Moves rules rconf now input false lease (PLeaseLearner.onLearnLease rconf now lease).1
      (PLeaseLearner.onLearnLease rconf now lease).2 := by
  apply Moves.andThen (checkLease_moves lease)
  apply Moves.andThen (checkLease_moves _)
  split
  · exact stopAcquireLease_moves _
  · exact .nil _

theorem onLearnChosen_moves (lease : PaxosLease) {msg : PLeaseMsg} (hinput : input = some msg)
    (htype : msg.type = .learnChosen) :
    ∃ used, Moves rules rconf now input used lease
      (PLeaseLearner.onLearnChosen rconf now lease msg).1
      (PLeaseLearner.onLearnChosen rconf now lease msg).2 := by
  unfold PLeaseLearner.onLearnChosen
  simp only [andThen_fst, andThen_snd]
  split
  · exact ⟨false, (checkLease_moves lease).trans (.nil _)⟩
  · refine ⟨true, (checkLease_moves lease).trans ?_⟩
    refine Moves.then_quiet ?_ (onLearnLease_moves _)
    refine (Micro.learn _ hinput htype ?_).moves.then_quiet (silent_moves _ rfl)
    intro howner
    exact if_pos howner

/-- The learner does not look into the acceptor. -/
theorem acceptor_checkLease (lease : PaxosLease) :
    (PLeaseLearner.checkLease rconf now lease).1.acceptor = lease.acceptor := by
  unfold PLeaseLearner.checkLease
  split
  · simp only [PLeaseLearner.onLeaseTimeout, andThen_fst, PaxosLease.onLeaseTimeout]
    split <;> rfl
  · rfl

theorem acceptorProcessMsg_moves (lease : PaxosLease) {msg : PLeaseMsg}
    (hinput : input = some msg) (hreq : msg.isRequest = true)
    (hserve : rules.serve now lease.acceptor msg) :
    Moves rules rconf now input true lease (acceptorProcessMsg rconf now lease msg).1
      (acceptorProcessMsg rconf now lease msg).2 := by
  unfold acceptorProcessMsg
  dsimp only
  split
  · apply Moves.andThen (checkLease_moves lease)
    have hserve' : rules.serve now (PLeaseLearner.checkLease rconf now lease).1.acceptor msg := by
      rwa [acceptor_checkLease]
    exact (Micro.request _ hinput hreq hserve'
      (PLeaseAcceptor.processMsg_outcome rconf now _ _ msg)).moves
  · exact Moves.andThen (.nil lease) (Micro.request _ hinput hreq hserve
      (PLeaseAcceptor.processMsg_outcome rconf now _ _ msg)).moves

/-- Reading a message is a row of moves. -/
theorem onRead_moves (rconf : ReplicatedConfig) (lease : PaxosLease) (msg : PLeaseMsg)
    (hserve : msg.isRequest = true → rules.serve now lease.acceptor msg) :
    ∃ used, Moves rules rconf now (some msg) used lease (onRead rconf now lease msg).1
      (onRead rconf now lease msg).2 := by
  unfold onRead
  dsimp only
  by_cases hreq : msg.isRequest = true
  · have hresp : ¬ msg.isResponse = true := by
      cases htype : msg.type <;> simp_all [PLeaseMsg.isRequest, PLeaseMsg.isResponse,
        PLeaseMsg.isPrepareResponse, PLeaseMsg.isProposeResponse]
    rw [if_pos hreq, if_neg hresp, if_pos hreq]
    refine ⟨true, ?_⟩
    exact (Micro.raise lease rfl hreq).moves.trans
      (acceptorProcessMsg_moves _ rfl hreq (hserve hreq))
  · rw [if_neg hreq]
    split
    · exact ⟨true, (Micro.answer lease rfl
        (PLeaseProposer.processMsg_outcome rconf now _ msg)).moves⟩
    · rename_i hresp
      apply onLearnChosen_moves lease rfl
      cases htype : msg.type <;> simp_all [PLeaseMsg.isRequest, PLeaseMsg.isResponse,
        PLeaseMsg.isPrepareResponse, PLeaseMsg.isProposeResponse]

/-- The handler of a timer event is a row of moves. -/
theorem handleTimeout_moves (lease : PaxosLease) (event : TimerEvent)
    (hforget : event = .acceptorLeaseTimer → rules.forget now lease.acceptor) :
    Moves rules rconf now input false lease (handleTimeout rconf lease event).1
      (handleTimeout rconf lease event).2 := by
  cases event with
  | acqTimer => exact (Micro.prepare lease).moves
  | extTimer => exact (silent_moves lease rfl).trans (Micro.prepare lease).moves
  | acceptorLeaseTimer => exact (Micro.forget lease (hforget rfl)).moves
  | learnerLeaseTimer => exact onLeaseTimeout_moves lease
  | sessionRead | sessionWrite => exact .nil lease

/-- A call from outside is a row of moves. -/
theorem call_moves (lease : PaxosLease) (c : Call) :
    Moves rules rconf now input false lease (call rconf now lease c).1
      (call rconf now lease c).2 := by
  cases c with
  | acquireLease => exact (Micro.flag lease true).moves.trans (startAcquireLease_moves _)
  | startAcquireLease => exact startAcquireLease_moves lease
  | stopAcquireLease => exact stopAcquireLease_moves lease
  | isLeaseOwner => exact checkLease_moves lease

end Moves

end PaxosLease

end PL
