-- SUMMARY: The timer with its tree: arming events, and the loop that posts those that are due.
import NetworkEtc.Netfram.RBTreeRun
import NetworkEtc.Netfram.Timer
import Mathlib.Data.List.Chain

/-!
# `CTimer` over `CRBTree`

An event is a node of the tree. The tree compares keys by their difference cut to 32
bits, which is no order: what a history keeps is only that every two neighbours in the
tree were compared when the later one came. Within a window of `2 ^ 31` milliseconds
that is the order of the keys.
-/

namespace Netfram

open Library (Side RBTree Frame)

/-- `CTimer`, with the events' `TimerOn` flags. -/
structure TreeTimer (ε : Type) where
  moTimerHolder : CRBTree ε UInt64
  timerOn : ε → Bool
  moTime : CTimeValue

namespace TreeTimer

variable {ε : Type} [DecidableEq ε]

def mtKey (t : TreeTimer ε) : ε → UInt64 := t.moTimerHolder.mtKey

/-- `CTimer::Delete` -/
def delete (fuel : Nat) (t : TreeTimer ε) (apoEvent : ε) : Option (TreeTimer ε) :=
  if t.moTimerHolder.empty then none
  else do
    let holder ← t.moTimerHolder.delete fuel apoEvent
    return { t with moTimerHolder := holder, timerOn := Function.update t.timerOn apoEvent false }

/-- The end of `CTimer::Add`. -/
def arm (fuel : Nat) (t : TreeTimer ε) (apoEvent : ε) (luKey : UInt64) :
    Option (TreeTimer ε) := do
  let holder ← (t.moTimerHolder.setKey apoEvent luKey).insert CRBTree.keyLess fuel apoEvent
  return { t with moTimerHolder := holder, timerOn := Function.update t.timerOn apoEvent true }

/-- `CTimer::Add` -/
def add (fuel : Nat) (t : TreeTimer ε) (apoEvent : ε) (auTime : UInt64) : Option (TreeTimer ε) :=
  if auTime = 0 then some t
  else
    let luKey := t.moTime.msec + auTime
    if t.timerOn apoEvent then
      let liDiff := (luKey - t.mtKey apoEvent).toUInt32.toInt32
      if liDiff.abs < CTimer.lazyDelay then some t
      else do
        let t ← t.delete fuel apoEvent
        t.arm fuel apoEvent luKey
    else t.arm fuel apoEvent luKey

/-- The loop of `CTimer::Expire`: the events `PostTimeout` is called on, in order. -/
def expireLoop (fuel : Nat) : Nat → TreeTimer ε → Option (TreeTimer ε × List ε)
  | 0, _ => none
  | rounds + 1, t =>
    if t.moTimerHolder.empty then some (t, [])
    else do
      let lpoEvent ← t.moTimerHolder.seekToFirst fuel
      -- `assert(loIter.Valid())`
      if lpoEvent = t.moTimerHolder.moSentinel then none
      else if CTimer.due t.moTime (t.mtKey lpoEvent) then
        let t ← t.delete fuel lpoEvent
        let (t, posted) ← expireLoop fuel rounds t
        return (t, lpoEvent :: posted)
      else return (t, [])

def expire (fuel : Nat) (t : TreeTimer ε) : Option (TreeTimer ε × List ε) :=
  expireLoop fuel fuel t

/-- `CTimer::Update`, as far as `moTime` goes. -/
def update (t : TreeTimer ε) (now : CTimeValue) : TreeTimer ε := { t with moTime := now }

/-! ## Keys cut to 32 bits -/

/-- A 32-bit value as an `int`. -/
theorem toInt_toInt32 (u : UInt32) :
    u.toInt32.toInt = if u.toNat < 2 ^ 31 then (u.toNat : Int) else (u.toNat : Int) - 2 ^ 32 := by
  have hcast : u.toInt32.toInt = u.toBitVec.toInt := rfl
  rw [hcast, BitVec.toInt_eq_toNat_cond, UInt32.toNat_toBitVec]
  split
  · rw [if_pos (by omega)]
  · rw [if_neg (by omega)]
    rfl

/-- A difference of less than `2 ^ 31` survives the cut. -/
theorem toInt_sub {a b : UInt64} (h : a.toNat < b.toNat + 2 ^ 31) (h' : b.toNat < a.toNat + 2 ^ 31) :
    (a - b).toUInt32.toInt32.toInt = (a.toNat : Int) - b.toNat := by
  have ha := a.toNat_lt
  have hb := b.toNat_lt
  rw [toInt_toInt32, UInt64.toNat_toUInt32, UInt64.toNat_sub]
  split <;> omega

theorem keyLess_iff {a b : UInt64} (h : a.toNat < b.toNat + 2 ^ 31)
    (h' : b.toNat < a.toNat + 2 ^ 31) : CRBTree.keyLess a b = true ↔ a.toNat < b.toNat := by
  rw [CRBTree.keyLess, decide_eq_true_iff, Int32.lt_iff_toInt_lt, toInt_sub h h']
  simp

theorem due_iff {now : CTimeValue} {k : UInt64} (h : now.msec.toNat < k.toNat + 2 ^ 31)
    (h' : k.toNat < now.msec.toNat + 2 ^ 31) :
    CTimer.due now k = true ↔ k.toNat ≤ now.msec.toNat := by
  rw [CTimer.due, decide_eq_true_iff, Int32.le_iff_toInt_le, toInt_sub h h']
  simp

/-! ## What a history keeps -/

/-- The events in the tree, as they stand in it, are those with the flag. -/
structure Holds (t : TreeTimer ε) (L : List ε) : Prop where
  stands : t.moTimerHolder.Stands L
  on : ∀ e, t.timerOn e = true ↔ e ∈ L

/-- The comparison that put the later of two neighbours where it is. -/
def Precedes (key : ε → UInt64) (a b : ε) : Prop :=
  CRBTree.keyLess (key a) (key b) = true ∨ CRBTree.keyLess (key b) (key a) = false

omit [DecidableEq ε] in
/-- A node between two that its key belongs between is compared with both. -/
theorem isChain_precedes_insert {key key' : ε → UInt64} {p q : List ε} {e : ε} (he : e ∉ p ++ q)
    (hsame : ∀ x, x ≠ e → key' x = key x)
    (hp : ∀ y ∈ p.getLast?, CRBTree.keyLess (key' e) (key' y) = false)
    (hq : ∀ y ∈ q.head?, CRBTree.keyLess (key' e) (key' y) = true)
    (hchain : (p ++ q).IsChain (Precedes key)) : (p ++ e :: q).IsChain (Precedes key') := by
  have hother : ∀ l : List ε, e ∉ l → l.IsChain (Precedes key) → l.IsChain (Precedes key') := by
    intro l hl hlchain
    refine hlchain.imp_of_mem_imp fun a b ha hb hab => ?_
    have hae : a ≠ e := fun heq => hl (heq ▸ ha)
    have hbe : b ≠ e := fun heq => hl (heq ▸ hb)
    rw [Precedes, hsame a hae, hsame b hbe]
    exact hab
  rw [List.mem_append, not_or] at he
  obtain ⟨hchainp, hchainq, -⟩ := List.isChain_append.mp hchain
  refine List.isChain_append.mpr ⟨hother p he.1 hchainp, ?_, ?_⟩
  · exact List.isChain_cons.mpr ⟨fun y hy => .inl (hq y hy), hother q he.2 hchainq⟩
  · intro y hy z hz
    rw [List.head?_cons, Option.mem_some_iff] at hz
    subst hz
    exact .inr (hp y hy)

omit [DecidableEq ε] in
/-- Within a window, neighbours that were compared are in order, and so are all. -/
theorem pairwise_of_window {key : ε → UInt64} {L : List ε} {w : Nat}
    (hchain : L.IsChain (Precedes key))
    (hwithin : ∀ e ∈ L, w ≤ (key e).toNat ∧ (key e).toNat < w + 2 ^ 31) :
    L.Pairwise fun a b => (key a).toNat ≤ (key b).toNat := by
  have hle : L.IsChain fun a b => (key a).toNat ≤ (key b).toNat := by
    refine hchain.imp_of_mem_imp fun a b ha hb hab => ?_
    have hka := hwithin a ha
    have hkb := hwithin b hb
    cases hab with
    | inl hab =>
      rw [keyLess_iff (by omega) (by omega)] at hab
      exact Nat.le_of_lt hab
    | inr hab =>
      have hba : ¬ CRBTree.keyLess (key b) (key a) = true := by simp [hab]
      rw [keyLess_iff (by omega) (by omega)] at hba
      omega
  have : IsTrans ε fun a b => (key a).toNat ≤ (key b).toNat :=
    ⟨fun _ _ _ hab hbc => Nat.le_trans hab hbc⟩
  exact List.isChain_iff_pairwise.mp hle

variable {t t' : TreeTimer ε} {L : List ε} {e : ε} {fuel : Nat}

theorem Holds.arm (luKey : UInt64) (h : t.Holds L) (he : e ∉ L)
    (hsentinel : e ≠ t.moTimerHolder.moSentinel) (hfuel : L.length < fuel) :
    ∃ t' p q, t.arm fuel e luKey = some t' ∧ L = p ++ q ∧ t'.Holds (p ++ e :: q) ∧
      (L.IsChain (Precedes t.mtKey) → (p ++ e :: q).IsChain (Precedes t'.mtKey)) ∧
      t'.mtKey = Function.update t.mtKey e luKey ∧ t'.moTime = t.moTime ∧
      t'.moTimerHolder.moSentinel = t.moTimerHolder.moSentinel := by
  obtain ⟨holder, p, q, hinsert, rfl, hstands, hbetween, hkey, hsent⟩ :=
    (h.stands.setKey e luKey).insert CRBTree.keyLess he hsentinel hfuel
  have hkey' : holder.mtKey = Function.update t.mtKey e luKey := hkey
  have hself : (t.moTimerHolder.setKey e luKey).mtKey = Function.update t.mtKey e luKey := rfl
  rw [CRBTree.Between, hself, ← hkey'] at hbetween
  refine ⟨⟨holder, Function.update t.timerOn e true, t.moTime⟩, p, q, ?_, rfl,
    ⟨hstands, fun x => ?_⟩, fun hchain => ?_, hkey', rfl, hsent⟩
  · simp only [TreeTimer.arm, hinsert]
    rfl
  · by_cases hx : x = e
    · simp [hx]
    · simpa [hx] using h.on x
  · refine isChain_precedes_insert he (fun x hx => ?_) hbetween.1 hbetween.2 hchain
    exact (congrFun hkey' x).trans (Function.update_of_ne hx luKey t.mtKey)

theorem Holds.delete (h : t.Holds L) (he : e ∈ L) (hfuel : L.length < fuel) :
    ∃ t' L', t.delete fuel e = some t' ∧ t'.Holds L' ∧ L'.Perm (L.erase e) ∧
      (L.head? = some e → L' = L.tail) ∧ t'.mtKey = t.mtKey ∧ t'.moTime = t.moTime ∧
      t'.timerOn = Function.update t.timerOn e false ∧
      t'.moTimerHolder.moSentinel = t.moTimerHolder.moSentinel := by
  obtain ⟨holder, L', hdelete, hstands, hperm, hhead, hkey, hsent⟩ := h.stands.delete he hfuel
  have hempty : ¬ t.moTimerHolder.empty = true := by
    rw [h.stands.empty_iff]
    rintro rfl
    simp at he
  refine ⟨⟨holder, Function.update t.timerOn e false, t.moTime⟩, L', ?_, ⟨hstands, fun x => ?_⟩,
    hperm, hhead, hkey, rfl, rfl, hsent⟩
  · simp only [TreeTimer.delete, if_neg hempty, hdelete]
    rfl
  · rw [hperm.mem_iff, h.stands.nodup.mem_erase_iff]
    by_cases hx : x = e
    · simp [hx]
    · simpa [hx] using h.on x

/-- `Add`, also of an event that is armed. -/
theorem Holds.add (h : t.Holds L) (hsentinel : e ≠ t.moTimerHolder.moSentinel) (auTime : UInt64)
    (hfuel : L.length < fuel) :
    ∃ t' L', t.add fuel e auTime = some t' ∧ t'.Holds L' ∧ L'.length ≤ L.length + 1 ∧
      t'.moTimerHolder.moSentinel = t.moTimerHolder.moSentinel ∧
      (t.timerOn e = false → L.IsChain (Precedes t.mtKey) → L'.IsChain (Precedes t'.mtKey)) := by
  unfold TreeTimer.add
  by_cases hzero : auTime = 0
  · rw [if_pos hzero]
    exact ⟨t, L, rfl, h, Nat.le_succ _, rfl, fun _ hchain => hchain⟩
  · rw [if_neg hzero]
    dsimp only
    cases hon : t.timerOn e with
    | false =>
      have he : e ∉ L := by
        rw [← h.on, hon]
        simp
      obtain ⟨t', p, q, harm, rfl, hholds, hchain, -, -, hsent⟩ :=
        h.arm (t.moTime.msec + auTime) he hsentinel hfuel
      refine ⟨t', _, harm, hholds, ?_, hsent, fun _ => hchain⟩
      simp only [List.length_append, List.length_cons]
      omega
    | true =>
      rw [if_pos rfl]
      split
      · exact ⟨t, L, rfl, h, Nat.le_succ _, rfl, nofun⟩
      · have he : e ∈ L := (h.on e).mp hon
        obtain ⟨t₁, L₁, hdelete, hholds₁, hperm, -, -, -, -, hsent₁⟩ := h.delete he hfuel
        have hgone : e ∉ L₁ := by
          rw [hperm.mem_iff, h.stands.nodup.mem_erase_iff]
          simp
        have hlen : L₁.length + 1 = L.length := by
          rw [hperm.length_eq]
          exact List.length_erase_add_one he
        have hfuel₁ : L₁.length < fuel := by omega
        obtain ⟨t', p, q, harm, rfl, hholds, -, -, -, hsent⟩ :=
          hholds₁.arm (t.moTime.msec + auTime) hgone (hsent₁ ▸ hsentinel) hfuel₁
        refine ⟨t', _, by simp [hdelete, harm], hholds, ?_, hsent.trans hsent₁, nofun⟩
        simp only [List.length_append, List.length_cons] at hlen ⊢
        omega

/-! ## The set of armed events

`CTimer` sees the holder as the armed events with their keys. The tree does the same
operations on that set. -/

/-- The armed events of the tree, with their keys, are those of `timer`. -/
def Refines (t : TreeTimer ε) (timer : CTimer ε) : Prop :=
  ∀ e, timer.key e = if t.timerOn e then some (t.mtKey e) else none

theorem key_cons (holder : List (ε × UInt64)) (e x : ε) (k : UInt64) :
    (⟨(e, k) :: holder⟩ : CTimer ε).key x = if x = e then some k else (⟨holder⟩ : CTimer ε).key x := by
  by_cases hx : x = e
  · simp [CTimer.key, hx]
  · have hb : (x == e) = false := by simpa using hx
    simp [CTimer.key, List.lookup_cons, hb, hx]

theorem key_remove (timer : CTimer ε) (e x : ε) :
    (timer.remove e).key x = if x = e then none else timer.key x := by
  obtain ⟨holder⟩ := timer
  induction holder with
  | nil => simp [CTimer.key, CTimer.remove]
  | cons entry holder ih =>
    obtain ⟨a, k⟩ := entry
    have hrest : CTimer.remove ⟨holder⟩ e = ⟨holder.filter fun entry => entry.1 ≠ e⟩ := rfl
    rw [hrest] at ih
    rw [key_cons]
    by_cases ha : a = e
    · subst ha
      have hrem : CTimer.remove ⟨(a, k) :: holder⟩ a = ⟨holder.filter fun entry => entry.1 ≠ a⟩ := by
        simp [CTimer.remove]
      rw [hrem, ih]
      by_cases hx : x = a <;> simp [hx]
    · have hrem : CTimer.remove ⟨(a, k) :: holder⟩ e =
          ⟨(a, k) :: holder.filter fun entry => entry.1 ≠ e⟩ := by
        simp [CTimer.remove, ha]
      rw [hrem, key_cons, ih]
      by_cases hxa : x = a
      · have hxe : x ≠ e := fun heq => ha (hxa ▸ heq)
        simp [hxa, ha]
      · simp [hxa]

theorem Refines.arm {timer : CTimer ε} {luKey : UInt64} (h : t.Refines timer) (hL : t.Holds L)
    (he : e ∉ L) (hsentinel : e ≠ t.moTimerHolder.moSentinel) (hfuel : L.length < fuel) :
    ∃ t' L', t.arm fuel e luKey = some t' ∧ t'.Holds L' ∧
      t'.Refines ⟨(e, luKey) :: timer.moTimerHolder⟩ := by
  obtain ⟨t', p, q, harm, rfl, hholds, -, hkey, -, -⟩ := hL.arm luKey he hsentinel hfuel
  refine ⟨t', _, harm, hholds, fun x => ?_⟩
  rw [key_cons, hkey]
  by_cases hx : x = e
  · subst hx
    simp [(hholds.on x).mpr (by simp)]
  · have hon : t'.timerOn x = t.timerOn x := by
      rw [Bool.eq_iff_iff, hholds.on, hL.on]
      simp [hx]
    have hself : (⟨timer.moTimerHolder⟩ : CTimer ε) = timer := rfl
    rw [if_neg hx, hself, h x, hon, Function.update_of_ne hx]

theorem Refines.delete {timer : CTimer ε} (h : t.Refines timer) (hL : t.Holds L) (he : e ∈ L)
    (hfuel : L.length < fuel) :
    ∃ t' L', t.delete fuel e = some t' ∧ t'.Holds L' ∧ L'.Perm (L.erase e) ∧
      t'.Refines (timer.remove e) ∧ t'.moTimerHolder.moSentinel = t.moTimerHolder.moSentinel := by
  obtain ⟨t', L', hdelete, hholds, hperm, -, hkey, -, hon, hsent⟩ := hL.delete he hfuel
  refine ⟨t', L', hdelete, hholds, hperm, fun x => ?_, hsent⟩
  rw [key_remove, h x, hkey, hon]
  by_cases hx : x = e <;> simp [hx]

/-- `Add` on the tree is `Add` on the set, also for an event that is armed. -/
theorem Refines.add {timer : CTimer ε} (h : t.Refines timer) (hL : t.Holds L)
    (hsentinel : e ≠ t.moTimerHolder.moSentinel) (auTime : UInt64) (hfuel : L.length < fuel) :
    ∃ t' L', t.add fuel e auTime = some t' ∧ t'.Holds L' ∧
      t'.Refines (timer.add t.moTime e auTime) := by
  unfold TreeTimer.add CTimer.add
  by_cases hzero : auTime = 0
  · rw [if_pos hzero, if_pos hzero]
    exact ⟨t, L, rfl, hL, h⟩
  · rw [if_neg hzero, if_neg hzero]
    dsimp only
    cases hon : t.timerOn e with
    | false =>
      have hkey : timer.key e = none := by rw [h e, hon]; rfl
      have he : e ∉ L := by
        rw [← hL.on, hon]
        simp
      rw [hkey]
      exact h.arm hL he hsentinel hfuel
    | true =>
      have hkey : timer.key e = some (t.mtKey e) := by rw [h e, hon]; rfl
      rw [hkey, if_pos rfl]
      dsimp only
      split
      · exact ⟨t, L, rfl, hL, h⟩
      · obtain ⟨t₁, L₁, hdelete, hholds, hperm, href, hsent⟩ := h.delete hL ((hL.on e).mp hon) hfuel
        have he : e ∉ L₁ := by
          rw [hperm.mem_iff, hL.stands.nodup.mem_erase_iff]
          simp
        have hlen : L₁.length < fuel := by
          rw [hperm.length_eq]
          exact Nat.lt_of_le_of_lt List.length_erase_le hfuel
        obtain ⟨t', L', harm, hholds', href'⟩ := href.arm hholds he (hsent ▸ hsentinel) hlen
        exact ⟨t', L', by simp [hdelete, harm], hholds', href'⟩

/-- The loop posts events from the front as long as they are due. -/
theorem Holds.expireLoop {rounds : Nat} (h : t.Holds L) (hfuel : L.length < fuel)
    (hrounds : L.length < rounds) :
    ∃ t' posted rest, TreeTimer.expireLoop fuel rounds t = some (t', posted) ∧ L = posted ++ rest ∧
      t'.Holds rest ∧ (∀ e ∈ posted, CTimer.due t.moTime (t.mtKey e) = true) ∧
      (∀ e ∈ rest.head?, CTimer.due t.moTime (t.mtKey e) = false) ∧ t'.mtKey = t.mtKey ∧
      t'.moTimerHolder.moSentinel = t.moTimerHolder.moSentinel := by
  induction L generalizing t rounds with
  | nil =>
    obtain ⟨rounds, rfl⟩ : ∃ k, rounds = k + 1 := ⟨rounds - 1, by omega⟩
    rw [TreeTimer.expireLoop, if_pos (h.stands.empty_iff.mpr rfl)]
    exact ⟨t, [], [], rfl, rfl, h, by simp, by simp, rfl, rfl⟩
  | cons e L ih =>
    obtain ⟨rounds, rfl⟩ : ∃ k, rounds = k + 1 := ⟨rounds - 1, by omega⟩
    have hrounds' : L.length < rounds := by
      simp only [List.length_cons] at hrounds
      omega
    have hempty : ¬ t.moTimerHolder.empty = true := by
      rw [h.stands.empty_iff]
      simp
    have hvalid : e ≠ t.moTimerHolder.moSentinel := by
      have hnot := h.stands.sentinel_notMem
      rintro rfl
      simp at hnot
    have hseek : L.length < fuel := by
      simp only [List.length_cons] at hfuel
      omega
    rw [TreeTimer.expireLoop, if_neg hempty, h.stands.seekToFirst hseek]
    simp only [Option.bind_eq_bind, Option.bind_some, if_neg hvalid]
    cases hdue : CTimer.due t.moTime (t.mtKey e) with
    | false =>
      refine ⟨t, [], e :: L, by simp, rfl, h, by simp, ?_, rfl, rfl⟩
      simpa using hdue
    | true =>
      obtain ⟨t₁, L₁, hdelete, hholds, -, hhead, hkey, htime, -, hsent⟩ :=
        h.delete (e := e) (by simp) hfuel
      have hL : L₁ = L := hhead rfl
      rw [hL] at hholds
      obtain ⟨t', posted, rest, hloop, hsplit, hholds', hposted, hrest, hkey', hsent'⟩ :=
        ih hholds hseek hrounds'
      rw [hkey, htime] at hposted hrest
      refine ⟨t', e :: posted, rest, ?_, by rw [hsplit]; rfl, hholds', ?_, hrest,
        hkey'.trans hkey, hsent'.trans hsent⟩
      · simp [hdelete, hloop]
      · intro x hx
        rcases List.mem_cons.mp hx with rfl | hx
        · exact hdue
        · exact hposted x hx

/-! ## Histories -/

/-- A call on the timer. -/
inductive Op (ε : Type) where
  | add (apoEvent : ε) (auTime : UInt64)
  | expire
  | update (now : CTimeValue)

def step (fuel : Nat) (t : TreeTimer ε) : Op ε → Option (TreeTimer ε)
  | .add e auTime => t.add fuel e auTime
  | .expire => (t.expire fuel).map Prod.fst
  | .update now => some (t.update now)

/-- The calls of a history, the oldest first. -/
def run (fuel : Nat) : TreeTimer ε → List (Op ε) → Option (TreeTimer ε)
  | t, [] => some t
  | t, op :: ops => (t.step fuel op).bind fun t => run fuel t ops

/-- Events that are added are not armed at that time; the sentinel is no event. -/
def Op.Admits (t : TreeTimer ε) : Op ε → Prop
  | .add e _ => t.timerOn e = false ∧ e ≠ t.moTimerHolder.moSentinel
  | _ => True

def Admissible (fuel : Nat) : TreeTimer ε → List (Op ε) → Prop
  | _, [] => True
  | t, op :: ops => op.Admits t ∧ ∀ t', t.step fuel op = some t' → Admissible fuel t' ops

/-- The timer before the first call: no event is armed. -/
def init (mtKey : ε → UInt64) (child : Side → ε → Option ε) (mpoParent : ε → Option ε)
    (mcColor : ε → Bool) (moSentinel : ε) (now : CTimeValue) : TreeTimer ε where
  moTimerHolder := .init mtKey child mpoParent mcColor moSentinel
  timerOn := fun _ => false
  moTime := now

/-- What every call keeps: there is at most one event more. Where the event that is added is
not armed, neighbours stay compared. -/
theorem Holds.stepAny {op : Op ε} (h : t.Holds L)
    (hop : ∀ e auTime, op = .add e auTime → e ≠ t.moTimerHolder.moSentinel)
    (hfuel : L.length < fuel) :
    ∃ t' L', t.step fuel op = some t' ∧ t'.Holds L' ∧ L'.length ≤ L.length + 1 ∧
      t'.moTimerHolder.moSentinel = t.moTimerHolder.moSentinel ∧
      (op.Admits t → L.IsChain (Precedes t.mtKey) → L'.IsChain (Precedes t'.mtKey)) := by
  cases op with
  | add e auTime =>
    obtain ⟨t', L', hadd, hholds, hlen, hsent, hchain⟩ := h.add (hop e auTime rfl) auTime hfuel
    exact ⟨t', L', hadd, hholds, hlen, hsent, fun hadm => hchain hadm.1⟩
  | expire =>
    obtain ⟨t', posted, rest, hloop, rfl, hholds, -, -, hkey, hsent⟩ := h.expireLoop hfuel hfuel
    refine ⟨t', rest, ?_, hholds, ?_, hsent, fun _ hchain => ?_⟩
    · simp [TreeTimer.step, TreeTimer.expire, hloop]
    · simp only [List.length_append]
      omega
    · rw [hkey]
      exact hchain.right_of_append
  | update now =>
    exact ⟨t.update now, L, rfl, ⟨h.stands, h.on⟩, Nat.le_succ _, rfl, fun _ hchain => hchain⟩

theorem Holds.step {op : Op ε} (h : t.Holds L) (hchain : L.IsChain (Precedes t.mtKey))
    (hop : op.Admits t) (hfuel : L.length < fuel) :
    ∃ t' L', t.step fuel op = some t' ∧ t'.Holds L' ∧ L'.IsChain (Precedes t'.mtKey) ∧
      L'.length ≤ L.length + 1 := by
  have hsentinel : ∀ e auTime, op = .add e auTime → e ≠ t.moTimerHolder.moSentinel := by
    rintro e auTime rfl
    exact hop.2
  obtain ⟨t', L', hstep, hholds, hlen, -, hkept⟩ := h.stepAny hsentinel hfuel
  exact ⟨t', L', hstep, hholds, hkept hop hchain, hlen⟩

theorem Holds.run {ops : List (Op ε)} (h : t.Holds L) (hchain : L.IsChain (Precedes t.mtKey))
    (hadm : Admissible fuel t ops) (hfuel : L.length + ops.length < fuel) :
    ∃ t' L', t.run fuel ops = some t' ∧ t'.Holds L' ∧ L'.IsChain (Precedes t'.mtKey) ∧
      L'.length < fuel := by
  induction ops generalizing t L with
  | nil => exact ⟨t, L, rfl, h, hchain, by simpa using hfuel⟩
  | cons op ops ih =>
    simp only [List.length_cons] at hfuel
    have hlt : L.length < fuel := by omega
    obtain ⟨t₁, L₁, hstep, h₁, hchain₁, hlen⟩ := h.step hchain hadm.1 hlt
    obtain ⟨t', L', hrun, hrest⟩ := ih h₁ hchain₁ (hadm.2 t₁ hstep) (by omega)
    refine ⟨t', L', ?_, hrest⟩
    rw [TreeTimer.run, hstep, Option.bind_some, hrun]

/-! ## Expiry -/

/-- The event is in the tree. -/
def Armed (t : TreeTimer ε) (e : ε) : Prop := t.moTimerHolder.Reach e

/-- The time and all armed keys are in the window of `2 ^ 31` milliseconds from `w` on. -/
def Within (t : TreeTimer ε) (w : Nat) : Prop :=
  (w ≤ t.moTime.msec.toNat ∧ t.moTime.msec.toNat < w + 2 ^ 31) ∧
  ∀ e, t.Armed e → w ≤ (t.mtKey e).toNat ∧ (t.mtKey e).toNat < w + 2 ^ 31

/-- The events from left to right have their keys in order. -/
def Sorted (t : TreeTimer ε) (l : List ε) : Prop :=
  l.Pairwise fun a b => (t.mtKey a).toNat ≤ (t.mtKey b).toNat

/-- What a call of `Expire` has to do, given what was posted. -/
structure Expired (fuel : Nat) (t t' : TreeTimer ε) (posted : List ε) : Prop where
  due : ∀ e, e ∈ posted ↔ t.Armed e ∧ (t.mtKey e).toNat ≤ t.moTime.msec.toNat
  once : posted.Nodup
  sorted : t.Sorted posted
  off : ∀ e ∈ posted, t'.timerOn e = false
  armed : ∀ e, t'.Armed e ↔ t.Armed e ∧ e ∉ posted
  on : ∀ e, t'.timerOn e = true ↔ t'.Armed e
  key : t'.mtKey = t.mtKey
  order : ∃ l, t'.moTimerHolder.midTrival fuel t'.moTimerHolder.mpoRoot = some l ∧
    (∀ e, e ∈ l ↔ t'.Armed e) ∧ t'.Sorted l

omit [DecidableEq ε] in
theorem Holds.armed_iff (h : t.Holds L) : t.Armed e ↔ e ∈ L :=
  (h.stands.sound (.refl L)).reach e

omit [DecidableEq ε] in
theorem Holds.sorted {w : Nat} (h : t.Holds L) (hchain : L.IsChain (Precedes t.mtKey))
    (hwithin : t.Within w) : t.Sorted L :=
  pairwise_of_window hchain fun e he => hwithin.2 e (h.armed_iff.mpr he)

theorem Holds.expire {w : Nat} (h : t.Holds L) (hchain : L.IsChain (Precedes t.mtKey))
    (hwithin : t.Within w) (hfuel : L.length < fuel) :
    ∃ t' posted, t.expire fuel = some (t', posted) ∧ Expired fuel t t' posted := by
  have hsorted := h.sorted hchain hwithin
  have hnodup := h.stands.nodup
  obtain ⟨t', posted, rest, hloop, rfl, hholds, hposted, hrest, hkey, -⟩ := h.expireLoop hfuel hfuel
  obtain ⟨hsp, hsr, hspr⟩ := List.pairwise_append.mp hsorted
  obtain ⟨hnp, -, hdisj⟩ := List.nodup_append'.mp hnodup
  have hdue : ∀ e ∈ posted ++ rest, CTimer.due t.moTime (t.mtKey e) = true ↔
      (t.mtKey e).toNat ≤ t.moTime.msec.toNat := by
    intro e he
    have hke := hwithin.2 e (h.armed_iff.mpr he)
    have hnow := hwithin.1
    exact due_iff (by omega) (by omega)
  -- the first event that stays is not due, and the others are not before it
  have hlate : ∀ e ∈ rest, ¬ (t.mtKey e).toNat ≤ t.moTime.msec.toNat := by
    intro e he
    cases rest with
    | nil => simp at he
    | cons first rest =>
      have hfirst := hrest first (by simp)
      have hnot : ¬ (t.mtKey first).toNat ≤ t.moTime.msec.toNat := by
        rw [← hdue first (by simp), hfirst]
        simp
      rcases List.mem_cons.mp he with rfl | he
      · exact hnot
      · have := (List.pairwise_cons.mp hsr).1 e he
        omega
  refine ⟨t', posted, hloop, fun e => ?_, hnp, hsp, fun e he => ?_, fun e => ?_, fun e => ?_, hkey,
    rest, hholds.stands.midTrival ?_, fun e => hholds.armed_iff.symm, ?_⟩
  · rw [h.armed_iff]
    constructor
    · intro he
      have hmem := List.mem_append_left rest he
      exact ⟨hmem, (hdue e hmem).mp (hposted e he)⟩
    · rintro ⟨he, hle⟩
      exact (List.mem_append.mp he).resolve_right fun he => hlate e he hle
  · have hoff : ¬ t'.timerOn e = true := by
      rw [hholds.on]
      exact fun he' => hdisj he he'
    simpa using hoff
  · rw [hholds.armed_iff, h.armed_iff, List.mem_append]
    constructor
    · exact fun he => ⟨.inr he, fun he' => hdisj he' he⟩
    · rintro ⟨he, hnot⟩
      exact he.resolve_left hnot
  · rw [hholds.on, hholds.armed_iff]
  · simp only [List.length_append] at hfuel
    omega
  · rw [Sorted, hkey]
    exact hsr

/-- After every history of additions of events that are not armed, of expiries and of
updates of the clock, a call of `Expire` ends and posts exactly the events that are due,
in the order of their keys, provided the keys and the time are within a window. -/
theorem expired_run (mtKey : ε → UInt64) (child : Side → ε → Option ε) (mpoParent : ε → Option ε)
    (mcColor : ε → Bool) (moSentinel : ε) (now : CTimeValue) (ops : List (Op ε)) (fuel : Nat)
    (hadm : Admissible fuel (init mtKey child mpoParent mcColor moSentinel now) ops)
    (hfuel : ops.length < fuel) :
    ∃ t, (init mtKey child mpoParent mcColor moSentinel now).run fuel ops = some t ∧
      ∀ w, t.Within w →
        ∃ t' posted, t.expire fuel = some (t', posted) ∧ Expired fuel t t' posted := by
  have hinit : (init mtKey child mpoParent mcColor moSentinel now).Holds [] :=
    ⟨CRBTree.stands_init .., by simp [init]⟩
  obtain ⟨t, L, hrun, hholds, hchain, hlen⟩ := hinit.run .nil hadm (by simpa using hfuel)
  exact ⟨t, hrun, fun w hwithin => hholds.expire hchain hwithin hlen⟩

/-- Three events, and a second later the clock is read again. -/
def threeEvents : List (Op Nat) :=
  [.add 1 100, .add 2 50, .add 3 5000, .update (CTimeValue.ofSec 2)]

/-- A timer of events that are numbers, in the first second. -/
def fresh : TreeTimer Nat :=
  init (fun _ => 0) (fun _ _ => none) (fun _ => none) (fun _ => true) 0 (CTimeValue.ofSec 1)

theorem admissible_threeEvents : Admissible 5 fresh threeEvents := by
  refine ⟨⟨rfl, by decide⟩, fun t₁ h₁ => ?_⟩
  cases h₁
  refine ⟨⟨rfl, by decide⟩, fun t₂ h₂ => ?_⟩
  cases h₂
  refine ⟨⟨rfl, by decide⟩, fun t₃ h₃ => ?_⟩
  exact ⟨trivial, fun _ _ => trivial⟩

/-- After a history of `fresh` the flags say which events are armed. -/
theorem armed_iff_timerOn {ops : List (Op Nat)} {t : TreeTimer Nat}
    (hadm : Admissible fuel fresh ops) (hfuel : ops.length < fuel)
    (hrun : fresh.run fuel ops = some t) (e : Nat) : t.Armed e ↔ t.timerOn e = true := by
  have hinit : fresh.Holds [] := ⟨CRBTree.stands_init .., by simp [fresh, init]⟩
  obtain ⟨t', L, hrun', hholds, -⟩ := hinit.run .nil hadm (by simpa using hfuel)
  rw [hrun] at hrun'
  cases hrun'
  rw [hholds.armed_iff, hholds.on]

/-- The keys of the three events and the time are in the window from one second on. -/
theorem within_threeEvents {t : TreeTimer Nat} (hrun : fresh.run 5 threeEvents = some t) :
    t.Within 1000 := by
  have hon : (fresh.run 5 threeEvents).map TreeTimer.timerOn = some (Function.update
      (Function.update (Function.update (fun _ => false) 1 true) 2 true) 3 true) := rfl
  have hkeys : (fresh.run 5 threeEvents).map (fun t => (t.moTime.msec, t.mtKey 1, t.mtKey 2,
      t.mtKey 3)) = some (2000, 1100, 1050, 6000) := by decide
  rw [hrun, Option.map_some, Option.some_inj] at hon hkeys
  simp only [Prod.mk.injEq] at hkeys
  obtain ⟨htime, h₁, h₂, h₃⟩ := hkeys
  refine ⟨by rw [htime]; decide, fun e he => ?_⟩
  rw [armed_iff_timerOn admissible_threeEvents (by decide) hrun, hon] at he
  simp only [Function.update_apply] at he
  obtain rfl | rfl | rfl : e = 3 ∨ e = 2 ∨ e = 1 := by grind
  · rw [h₃]; decide
  · rw [h₂]; decide
  · rw [h₁]; decide

theorem expired_threeEvents : ∃ t t', fresh.run 5 threeEvents = some t ∧ t.Within 1000 ∧
    t.expire 5 = some (t', [2, 1]) ∧ Expired 5 t t' [2, 1] := by
  obtain ⟨t, hrun, hexpires⟩ :=
    expired_run _ _ _ _ 0 _ threeEvents 5 admissible_threeEvents (by decide)
  have hwithin := within_threeEvents hrun
  obtain ⟨t', posted, hexpire, hexpired⟩ := hexpires 1000 hwithin
  have hposted : (fresh.run 5 threeEvents).bind (fun t => (t.expire 5).map Prod.snd) =
      some [2, 1] := by decide
  have hrun : fresh.run 5 threeEvents = some t := hrun
  rw [hrun, Option.bind_some, hexpire, Option.map_some, Option.some_inj] at hposted
  obtain rfl : posted = [2, 1] := hposted
  exact ⟨t, t', hrun, hwithin, hexpire, hexpired⟩

end TreeTimer

end Netfram
