-- SUMMARY: A cluster of node processes and the datagrams between them, and the view of it in which every step is a row of small moves.
import Mathlib.Data.Multiset.AddSub
import Mathlib.Data.List.FinRange
import NetworkEtc.PL.Micro
import NetworkEtc.PL.Process

/-!
# A cluster

The nodes of a cluster have the ids `0` to `numNodes - 1`, read one clock, and send
datagrams that may be delivered in any order, late, never, or more than once.

The invariants of the protocol are about the lease objects, the clock and what is in
flight. That is the view of a system; `System.step_run` says that a step of the
system is, in the view, a row of the moves of `Micro`.
-/

namespace PL

open Library Netfram

structure Datagram (n : Nat) where
  src : Fin n
  dst : Fin n
  msg : PLeaseMsg
  deriving DecidableEq

/-- The datagrams an effect of node `i` puts on the wire. `BroadcastMessage` writes
to every node, the sender included; in multicast mode one write does the same. -/
def posts {n : Nat} (i : Fin n) : Effect → List (Datagram n)
  | .broadcastMessage msg => (List.finRange n).map fun j => ⟨i, j, msg⟩
  | .sendReply nodeID msg => if h : nodeID.toNat < n then [⟨i, ⟨nodeID.toNat, h⟩, msg⟩] else []
  | _ => []

/-- What is on the wire was sent. -/
theorem mem_posts {n : Nat} {i : Fin n} {es : List Effect} {d : Datagram n} (h : d ∈ es.flatMap (posts i)) :
    d.src = i ∧ d.msg ∈ sentMsgs es := by
  obtain ⟨e, he, hd⟩ := List.mem_flatMap.mp h
  cases e with
  | broadcastMessage msg =>
    obtain ⟨j, -, rfl⟩ := List.mem_map.mp hd
    exact ⟨rfl, List.mem_filterMap.mpr ⟨_, he, rfl⟩⟩
  | sendReply nodeID msg =>
    simp only [posts] at hd
    split at hd
    · obtain rfl := List.mem_singleton.mp hd
      exact ⟨rfl, List.mem_filterMap.mpr ⟨_, he, rfl⟩⟩
    · simp at hd
  | _ => simp [posts] at hd

structure System (numNodes : UInt32) where
  clock : CTimeValue
  nodes : Fin numNodes.toNat → Process
  inFlight : List (Datagram numNodes.toNat)

/-- The configuration of node `i`. -/
def configOf {numNodes : UInt32} (i : Fin numNodes.toNat) : ReplicatedConfig :=
  .loaded (UInt32.ofNat i) numNodes

/-- Who did what, in order. -/
abbrev Output (n : Nat) := List (Fin n × Effect)

namespace System

variable {numNodes : UInt32}

inductive Label (n : Nat) where
  | call (i : Fin n) (c : PaxosLease.Call)
  | expire (i : Fin n) (event : TimerEvent)
  | handleTimeout (i : Fin n) (event : TimerEvent)
  /-- Deliver, drop or duplicate the `k`-th datagram in flight. -/
  | deliver (k : Nat)
  | drop (k : Nat)
  | duplicate (k : Nat)
  | tick (now : CTimeValue)

/-- The nodes of a cluster of three. -/
def node0 : Fin 3 := 0
def node1 : Fin 3 := 1
def node2 : Fin 3 := 2

/-- Let one process take a step. -/
def act (s : System numNodes) (i : Fin numNodes.toNat) (op : Process.Op) :
    System numNodes × Output numNodes.toNat :=
  let r := (s.nodes i).step s.clock op
  ({ s with
      nodes := Function.update s.nodes i r.1
      inFlight := s.inFlight ++ r.2.flatMap (posts i) },
    r.2.map fun e => (i, e))

/-- A label that is not possible does nothing. The clock does not go back. -/
def step (s : System numNodes) : Label numNodes.toNat →
    System numNodes × Output numNodes.toNat
  | .call i c => s.act i (.call c)
  | .expire i event => s.act i (.expire event)
  | .handleTimeout i event => s.act i (.handleTimeout event)
  | .deliver k =>
    match s.inFlight[k]? with
    | some d => { s with inFlight := s.inFlight.eraseIdx k }.act d.dst (.onRead d.msg)
    | none => (s, [])
  | .drop k => ({ s with inFlight := s.inFlight.eraseIdx k }, [])
  | .duplicate k =>
    match s.inFlight[k]? with
    | some d => ({ s with inFlight := d :: s.inFlight }, [])
    | none => (s, [])
  | .tick now =>
    if s.clock.mi64NanoSec ≤ now.mi64NanoSec then ({ s with clock := now }, []) else (s, [])

/-- A cluster whose processes have just opened their sessions, on memory that holds
`mem`. -/
def machine (numNodes : UInt32) (now : CTimeValue) (mem : Fin numNodes.toNat → PLeaseProposer) :
    Machine (System numNodes) (Label numNodes.toNat) (Output numNodes.toNat) where
  init := ⟨now, fun i => Process.init (configOf i) now (mem i), []⟩
  step := step

/-- The steps of a run, newest first. -/
abbrev Trace (numNodes : UInt32) :=
  List (Step (System numNodes) (Label numNodes.toNat) (Output numNodes.toNat))

/-- All that was put out in a run, oldest first. -/
def outputs : Trace numNodes → Output numNodes.toNat
  | [] => []
  | st :: earlier => outputs earlier ++ st.output

/-- The datagram a step delivers, if it delivers one. -/
def delivered? (st : Step (System numNodes) (Label numNodes.toNat) (Output numNodes.toNat)) :
    Option (Datagram numNodes.toNat) :=
  match st.input with
  | .deliver k => st.pre.inFlight[k]?
  | _ => none

theorem delivered?_eq_some
    {st : Step (System numNodes) (Label numNodes.toNat) (Output numNodes.toNat)}
    {d : Datagram numNodes.toNat} :
    delivered? st = some d ↔ ∃ k, st.input = .deliver k ∧ st.pre.inFlight[k]? = some d := by
  unfold delivered?
  cases st.input <;> simp

end System

-- ---------------------------------------------------------------------------
-- The view
-- ---------------------------------------------------------------------------

/-- What the protocol is about. -/
structure View (numNodes : UInt32) where
  now : UInt64
  lease : Fin numNodes.toNat → PaxosLease
  inFlight : Multiset (Datagram numNodes.toNat)

namespace View

variable {numNodes : UInt32}

/-- Node `i` moves on to `lease'`, with these effects. -/
def put (v : View numNodes) (i : Fin numNodes.toNat) (lease' : PaxosLease) (es : List Effect) :
    View numNodes :=
  { v with
    lease := Function.update v.lease i lease'
    inFlight := v.inFlight + (es.flatMap (posts i) : List (Datagram numNodes.toNat)) }

def take (v : View numNodes) (d : Datagram numNodes.toNat) : View numNodes :=
  { v with inFlight := v.inFlight.erase d }

/-- One move of the view. `dup` says whether datagrams may be duplicated. -/
inductive Step (rules : Rules) (dup : Prop) :
    View numNodes → View numNodes → Output numNodes.toNat → Prop
  | tick (v : View numNodes) {now' : UInt64} (h : v.now ≤ now') (hnow : now'.toNat < 2 ^ 34) :
      Step rules dup v { v with now := now' } []
  | lose (v : View numNodes) {d : Datagram numNodes.toNat} (hd : d ∈ v.inFlight) :
      Step rules dup v (v.take d) []
  | duplicate (v : View numNodes) {d : Datagram numNodes.toNat} (hdup : dup)
      (hd : d ∈ v.inFlight) :
      Step rules dup v { v with inFlight := d ::ₘ v.inFlight } []
  | own (v : View numNodes) {i : Fin numNodes.toNat} {lease' : PaxosLease} {es : List Effect}
      (hmicro : PaxosLease.Micro rules (configOf i) v.now none false (v.lease i) lease' es) :
      Step rules dup v (v.put i lease' es) (es.map fun e => (i, e))
  | read (v : View numNodes) {d : Datagram numNodes.toNat} (hd : d ∈ v.inFlight)
      {lease' : PaxosLease} {es : List Effect}
      (hmicro : PaxosLease.Micro rules (configOf d.dst) v.now (some d.msg) false (v.lease d.dst)
        lease' es) :
      Step rules dup v (v.put d.dst lease' es) (es.map fun e => (d.dst, e))
  | use (v : View numNodes) {d : Datagram numNodes.toNat} (hd : d ∈ v.inFlight)
      {lease' : PaxosLease} {es : List Effect}
      (hmicro : PaxosLease.Micro rules (configOf d.dst) v.now (some d.msg) true (v.lease d.dst)
        lease' es) :
      Step rules dup v ((v.take d).put d.dst lease' es) (es.map fun e => (d.dst, e))

/-- Moves in a row, with all they put out. -/
inductive Run (rules : Rules) (dup : Prop) :
    View numNodes → View numNodes → Output numNodes.toNat → Prop
  | nil (v : View numNodes) : Run rules dup v v []
  | snoc {v v' v'' : View numNodes} {out out' : Output numNodes.toNat}
      (h : Run rules dup v v' out) (hstep : Step rules dup v' v'' out') :
      Run rules dup v v'' (out ++ out')

section Run

variable {rules : Rules} {dup : Prop} {v v' : View numNodes} {out : Output numNodes.toNat}
  {i : Fin numNodes.toNat} {d : Datagram numNodes.toNat} {lease' lease'' : PaxosLease}
  {es es' : List Effect}

theorem Step.run (h : Step rules dup v v' out) : Run rules dup v v' out := (Run.nil v).snoc h

theorem Run.trans {v'' : View numNodes} {out' : Output numNodes.toNat}
    (h : Run rules dup v v' out) (h' : Run rules dup v' v'' out') :
    Run rules dup v v'' (out ++ out') := by
  induction h' with
  | nil => simpa using h
  | snoc _ hstep ih =>
    rw [← List.append_assoc]
    exact ih.snoc hstep

@[simp] theorem put_now : (v.put i lease' es).now = v.now := rfl

@[simp] theorem put_lease : (v.put i lease' es).lease i = lease' := Function.update_self ..

@[simp] theorem take_now : (v.take d).now = v.now := rfl

@[simp] theorem take_lease : (v.take d).lease = v.lease := rfl

theorem put_lease_ne {j : Fin numNodes.toNat} (h : j ≠ i) :
    (v.put i lease' es).lease j = v.lease j := Function.update_of_ne h ..

theorem put_put : (v.put i lease' es).put i lease'' es' = v.put i lease'' (es ++ es') := by
  simp only [put, Function.update_idem, List.flatMap_append, ← Multiset.coe_add,
    Multiset.add_assoc]

theorem put_self (v : View numNodes) (i : Fin numNodes.toNat) : v.put i (v.lease i) [] = v := by
  simp [put]

theorem put_take (hd : d ∈ v.inFlight) :
    (v.put i lease' es).take d = (v.take d).put i lease' es := by
  simp only [put, take, Multiset.erase_add_left_pos _ hd]

/-- The moves of a node on its own. -/
theorem own_run (h : PaxosLease.Moves rules (configOf i) v.now none false (v.lease i) lease' es) :
    Run rules dup v (v.put i lease' es) (es.map fun e => (i, e)) := by
  generalize hfalse : false = used at h
  generalize hstart : v.lease i = start at h
  induction h with
  | nil =>
    rw [← hstart, put_self]
    exact .nil v
  | quiet _ hmicro ih =>
    rw [← put_put, List.map_append]
    exact (ih hfalse hstart).snoc (.own _ (by simpa using hmicro))
  | use => cases hfalse
  | after => cases hfalse

/-- The moves of a node that reads a datagram: whether they use it or not, it is no
longer in flight. -/
theorem read_run {used : Bool} (hd : d ∈ v.inFlight)
    (h : PaxosLease.Moves rules (configOf d.dst) v.now (some d.msg) used (v.lease d.dst)
      lease' es) :
    Run rules dup v ((v.take d).put d.dst lease' es) (es.map fun e => (d.dst, e)) := by
  have hkept : ∀ {used : Bool} {lease' : PaxosLease} {es : List Effect},
      PaxosLease.Moves rules (configOf d.dst) v.now (some d.msg) used (v.lease d.dst) lease' es →
      Run rules dup v ((if used then v.take d else v).put d.dst lease' es)
        (es.map fun e => (d.dst, e)) := by
    intro used lease' es h
    generalize hstart : v.lease d.dst = start at h
    induction h with
    | nil =>
      simp only [Bool.false_eq_true, if_false]
      rw [← hstart, put_self]
      exact .nil v
    | quiet _ hmicro ih =>
      simp only [Bool.false_eq_true, if_false] at ih ⊢
      rw [← put_put, List.map_append]
      refine (ih hstart).snoc (.read _ ?_ (by simpa using hmicro))
      exact Multiset.mem_add.mpr (.inl hd)
    | use _ hmicro ih =>
      simp only [Bool.false_eq_true, if_false, if_true] at ih ⊢
      rw [← put_put, ← put_take hd, List.map_append]
      refine (ih hstart).snoc (.use _ ?_ (by simpa using hmicro))
      exact Multiset.mem_add.mpr (.inl hd)
    | after _ hmicro ih =>
      simp only [if_true] at ih ⊢
      rw [← put_put, List.map_append]
      exact (ih hstart).snoc (.own _ (by simpa using hmicro))
  cases used with
  | true => exact hkept h
  | false =>
    have hrun := (hkept h).snoc (.lose _ (d := d) (Multiset.mem_add.mpr (.inl hd)))
    rwa [List.append_nil, if_neg (by simp), put_take hd] at hrun

end Run

end View

namespace System

variable {numNodes : UInt32}

def view (s : System numNodes) : View numNodes :=
  ⟨s.clock.sec, fun i => (s.nodes i).lease, s.inFlight⟩

/-- The rules allow what the label does. -/
def Allowed (rules : Rules) (dup : Prop) (s : System numNodes) : Label numNodes.toNat → Prop
  | .duplicate _ => dup
  | .handleTimeout i .acceptorLeaseTimer =>
    TimerEvent.acceptorLeaseTimer ∈ (s.nodes i).posted →
      rules.forget s.clock.sec (s.nodes i).lease.acceptor
  | .deliver k =>
    ∀ d, s.inFlight[k]? = some d → d.msg.isRequest = true →
      rules.serve s.clock.sec (s.nodes d.dst).lease.acceptor d.msg
  | _ => True

theorem allowed_any (s : System numNodes) (label : Label numNodes.toNat) :
    Allowed .any True s label := by
  cases label with
  | handleTimeout i event =>
    cases event with
    | acceptorLeaseTimer => exact fun _ => trivial
    | _ => exact trivial
  | deliver k => exact fun _ _ _ => trivial
  | _ => exact trivial

section Step

variable {rules : Rules} {dup : Prop} {s : System numNodes} {i : Fin numNodes.toNat}

/-- What a process does on its own is a row of moves of its lease object. -/
theorem step_moves (proc : Process) (now : CTimeValue) {op : Process.Op}
    (hop : ∀ msg, op ≠ .onRead msg)
    (hforget : op = .handleTimeout .acceptorLeaseTimer →
      TimerEvent.acceptorLeaseTimer ∈ proc.posted → rules.forget now.sec proc.lease.acceptor) :
    PaxosLease.Moves rules proc.rconf now.sec none false proc.lease (proc.step now op).1.lease
      (proc.step now op).2 := by
  cases op with
  | onRead msg => exact absurd rfl (hop msg)
  | call c => exact PaxosLease.call_moves proc.lease c
  | handleTimeout event =>
    simp only [Process.step]
    split
    · rename_i hposted
      refine PaxosLease.handleTimeout_moves proc.lease event fun heq => ?_
      subst heq
      exact hforget rfl hposted
    · exact .nil _
  | expire event =>
    simp only [Process.step]
    split
    · split
      · exact PaxosLease.silent_moves proc.lease rfl
      · exact .nil _
    · exact .nil _

/-- Reading a message is one too. -/
theorem onRead_step_moves (proc : Process) (now : CTimeValue) (msg : PLeaseMsg)
    (hserve : msg.isRequest = true → rules.serve now.sec proc.lease.acceptor msg) :
    ∃ used, PaxosLease.Moves rules proc.rconf now.sec (some msg) used proc.lease
      (proc.step now (.onRead msg)).1.lease (proc.step now (.onRead msg)).2 := by
  obtain ⟨used, hmoves⟩ := PaxosLease.onRead_moves proc.rconf proc.lease msg hserve
  exact ⟨used, (PaxosLease.silent_moves proc.lease rfl).trans hmoves⟩

theorem view_act (s : System numNodes) (i : Fin numNodes.toNat) (op : Process.Op) :
    (s.act i op).1.view =
      s.view.put i ((s.nodes i).step s.clock op).1.lease ((s.nodes i).step s.clock op).2 := by
  simp only [view, act, View.put, View.mk.injEq, true_and, Multiset.coe_add, and_true]
  funext j
  by_cases hj : j = i
  · subst hj
    simp
  · simp [Function.update_of_ne hj]

theorem act_run (hconfig : (s.nodes i).rconf = configOf i) {op : Process.Op}
    (hop : ∀ msg, op ≠ .onRead msg)
    (hforget : op = .handleTimeout .acceptorLeaseTimer →
      TimerEvent.acceptorLeaseTimer ∈ (s.nodes i).posted →
      rules.forget s.clock.sec (s.nodes i).lease.acceptor) :
    View.Run rules dup s.view (s.act i op).1.view (s.act i op).2 := by
  rw [view_act]
  apply View.own_run
  rw [← hconfig]
  exact step_moves (s.nodes i) s.clock hop hforget

theorem mem_inFlight_of_getElem? {k : Nat} {d : Datagram numNodes.toNat}
    (hd : s.inFlight[k]? = some d) : d ∈ s.view.inFlight :=
  Multiset.mem_coe.mpr (List.mem_of_getElem? hd)

theorem view_eraseIdx {k : Nat} {d : Datagram numNodes.toNat} (hd : s.inFlight[k]? = some d) :
    ({ s with inFlight := s.inFlight.eraseIdx k } : System numNodes).view = s.view.take d := by
  obtain ⟨hk, rfl⟩ := List.getElem?_eq_some_iff.mp hd
  have hcoe := Multiset.coe_eq_coe.mpr (List.getElem_cons_eraseIdx_perm hk)
  simp only [view, View.take, View.mk.injEq, true_and]
  rw [← hcoe, ← Multiset.cons_coe, Multiset.erase_cons_head]

/-- A step of the system is a row of moves of its view. -/
theorem step_run (hconfig : ∀ i, (s.nodes i).rconf = configOf i) (label : Label numNodes.toNat)
    (hallowed : Allowed rules dup s label) :
    View.Run rules dup s.view (s.step label).1.view (s.step label).2 := by
  cases label with
  | call i c => exact act_run (hconfig i) (by simp) (by simp)
  | expire i event => exact act_run (hconfig i) (by simp) (by simp)
  | handleTimeout i event =>
    apply act_run (hconfig i) (by simp)
    rintro ⟨⟩
    exact hallowed
  | deliver k =>
    cases hd : s.inFlight[k]? with
    | none =>
      simp only [step, hd]
      exact .nil _
    | some d =>
      simp only [step, hd]
      rw [view_act, view_eraseIdx hd]
      obtain ⟨used, hmoves⟩ := onRead_step_moves (s.nodes d.dst) s.clock d.msg (hallowed d hd)
      rw [hconfig] at hmoves
      exact View.read_run (mem_inFlight_of_getElem? hd) hmoves
  | drop k =>
    cases hd : s.inFlight[k]? with
    | none =>
      have hlen : s.inFlight.length ≤ k := List.getElem?_eq_none_iff.mp hd
      simp only [step, List.eraseIdx_of_length_le hlen]
      exact .nil _
    | some d =>
      simp only [step]
      rw [view_eraseIdx hd]
      exact (View.Step.lose _ (mem_inFlight_of_getElem? hd)).run
  | duplicate k =>
    cases hd : s.inFlight[k]? with
    | none =>
      simp only [step, hd]
      exact .nil _
    | some d =>
      simp only [step, hd]
      exact (View.Step.duplicate _ hallowed (mem_inFlight_of_getElem? hd)).run
  | tick now =>
    simp only [step]
    split
    · rename_i hle
      refine (View.Step.tick _ ?_ now.sec_lt).run
      exact UInt64.le_iff_toNat_le.mpr (CTimeValue.sec_mono hle)
    · exact .nil _

end Step

-- ---------------------------------------------------------------------------
-- Runs
-- ---------------------------------------------------------------------------

theorem step_rconf (s : System numNodes) (label : Label numNodes.toNat) (i : Fin numNodes.toNat) :
    ((s.step label).1.nodes i).rconf = (s.nodes i).rconf := by
  have hproc : ∀ (proc : Process) (now : CTimeValue) (op : Process.Op),
      (proc.step now op).1.rconf = proc.rconf := by
    intro proc now op
    cases op with
    | onRead msg => rfl
    | call c => rfl
    | handleTimeout event => simp only [Process.step]; split <;> rfl
    | expire event =>
      simp only [Process.step]
      split
      · split <;> rfl
      · rfl
  have hact : ∀ (s : System numNodes) (j : Fin numNodes.toNat) (op : Process.Op),
      ((s.act j op).1.nodes i).rconf = (s.nodes i).rconf := by
    intro s j op
    by_cases hij : i = j
    · subst hij
      simp [act, hproc]
    · simp [act, Function.update_of_ne hij]
  cases label with
  | call j c => exact hact s j _
  | expire j event => exact hact s j _
  | handleTimeout j event => exact hact s j _
  | deliver k =>
    simp only [step]
    split
    · exact hact _ _ _
    · rfl
  | drop k => rfl
  | duplicate k => simp only [step]; split <;> rfl
  | tick now => simp only [step]; split <;> rfl

/-- Nobody changes its configuration. -/
theorem run_rconf (now : CTimeValue) (mem : Fin numNodes.toNat → PLeaseProposer)
    (labels : List (Label numNodes.toNat)) (i : Fin numNodes.toNat) :
    (((machine numNodes now mem).run labels).nodes i).rconf = configOf i := by
  induction labels with
  | nil => rfl
  | cons label labels ih => exact (step_rconf _ label i).trans ih

end System

end PL
