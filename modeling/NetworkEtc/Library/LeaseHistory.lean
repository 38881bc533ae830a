-- SUMMARY: Histories of a lease protocol with quorums: promises, acceptances, proposals, and why two leases do not overlap.
import Mathlib.Data.Finset.Card
import Mathlib.Data.Fintype.Card
import Mathlib.Order.Basic

/-!
# Histories of leases

A lease is a proposal that a majority of acceptors has accepted, and it lasts `D` from
the moment it was proposed. The history of a protocol is the list of what its parties
have done, **newest first**. `Valid` says what a party has to know of the history when
it adds an event. It says nothing of messages or of how a party knows it.

`Chosen.exclusive`: after a lease was chosen, whoever proposes a higher one while it
lasts is its owner.
-/

namespace Library

/-- Nodes `N`, proposal ids `I`. Every event carries the time it happened at. -/
inductive LeaseEvent (N I : Type) where
  /-- `a` promises to accept nothing below `q` and reports what it has accepted. -/
  | promise (a : N) (q : I) (accepted : Option I) (t : Nat)
  | accept (a : N) (p : I) (t : Nat)
  /-- `n` proposes itself as the owner under the id `p`. -/
  | propose (n : N) (p : I) (t : Nat)

namespace LeaseEvent

variable {N I : Type}

def time : LeaseEvent N I → Nat
  | promise _ _ _ t => t
  | accept _ _ t => t
  | propose _ _ t => t

def node : LeaseEvent N I → N
  | promise a _ _ _ => a
  | accept a _ _ => a
  | propose n _ _ => n

end LeaseEvent

open LeaseEvent

/-- More than half of the nodes. -/
def Majority {N : Type} [Fintype N] (A : Finset N) : Prop := Fintype.card N < 2 * A.card

/-- Two majorities share a node. -/
theorem Majority.inter {N : Type} [Fintype N] [DecidableEq N] {A B : Finset N} (hA : Majority A)
    (hB : Majority B) : ∃ a, a ∈ A ∧ a ∈ B := by
  by_contra hnone
  have hdisj : Disjoint A B := by
    refine Finset.disjoint_left.mpr fun a ha hb => hnone ⟨a, ha, hb⟩
  have hunion : A.card + B.card ≤ Fintype.card N := by
    rw [← Finset.card_union_of_disjoint hdisj]
    exact Finset.card_le_univ _
  unfold Majority at hA hB
  omega

section Chosen

variable {N I : Type} [Fintype N] {h h' : List (LeaseEvent N I)} {n : N} {p : I} {t : Nat}

/-- The proposal `p` of `n`, made at `t`, has a majority. -/
def Chosen (h : List (LeaseEvent N I)) (n : N) (p : I) (t : Nat) : Prop :=
  propose n p t ∈ h ∧ ∃ A : Finset N, Majority A ∧ ∀ a ∈ A, ∃ t', accept a p t' ∈ h

theorem Chosen.mono (hc : Chosen h n p t) (hsub : ∀ e ∈ h, e ∈ h') : Chosen h' n p t := by
  obtain ⟨hpropose, A, hmaj, hA⟩ := hc
  refine ⟨hsub _ hpropose, A, hmaj, fun a ha => ?_⟩
  obtain ⟨t', ht'⟩ := hA a ha
  exact ⟨t', hsub _ ht'⟩

end Chosen

section History

variable {N I : Type} [Fintype N] [LinearOrder I] {D : Nat} {h : List (LeaseEvent N I)}

/-- What has to hold of the history so far for an event to happen. -/
def Justified (D : Nat) (h : List (LeaseEvent N I)) : LeaseEvent N I → Prop
  | promise a _ accepted t =>
    -- A lease that is not over is still reported, under its own id or a higher one.
    ∀ p t', accept a p t' ∈ h → t ≤ t' + D → ∃ r, accepted = some r ∧ p ≤ r
  | accept a p _ =>
    (∀ q accepted t', promise a q accepted t' ∈ h → q ≤ p) ∧ ∃ n t', propose n p t' ∈ h
  | propose n p _ =>
    (∀ m t', propose m p t' ∉ h) ∧
    -- Whatever the majority reports is not above something this node has proposed itself.
    ∃ A : Finset N, Majority A ∧ ∀ a ∈ A, ∃ accepted t', promise a p accepted t' ∈ h ∧
      ∀ r, accepted = some r → ∃ r' t'', r ≤ r' ∧ propose n r' t'' ∈ h

/-- A history in which time does not go back and every event was justified. -/
def Valid (D : Nat) : List (LeaseEvent N I) → Prop
  | [] => True
  | e :: h => (∀ e' ∈ h, e'.time ≤ e.time) ∧ Justified D h e ∧ Valid D h

/-- An id is proposed once. -/
theorem Valid.propose_unique (hv : Valid D h) {n m : N} {p : I} {t t' : Nat}
    (hn : propose n p t ∈ h) (hm : propose m p t' ∈ h) : n = m ∧ t = t' := by
  induction h with
  | nil => simp at hn
  | cons e h ih =>
    obtain ⟨-, hjust, hv⟩ := hv
    rcases List.mem_cons.mp hn with rfl | hn'
    · rcases List.mem_cons.mp hm with heq | hm'
      · cases heq
        exact ⟨rfl, rfl⟩
      · exact absurd hm' (hjust.1 m t')
    · rcases List.mem_cons.mp hm with rfl | hm'
      · exact absurd hn' (hjust.1 n t)
      · exact ih hv hn' hm'

/-- What was not proposed was not accepted. -/
theorem Valid.not_accept (hv : Valid D h) {p : I} (hnone : ∀ n t, propose n p t ∉ h) {a : N}
    {t : Nat} : accept a p t ∉ h := by
  intro hacc
  induction h with
  | nil => simp at hacc
  | cons e h ih =>
    obtain ⟨-, hjust, hv⟩ := hv
    rcases List.mem_cons.mp hacc with rfl | hacc
    · obtain ⟨n, t', hn⟩ := hjust.2
      exact hnone n t' (List.mem_cons_of_mem _ hn)
    · exact ih hv (fun n t' hn => hnone n t' (List.mem_cons_of_mem _ hn)) hacc

/-- What is accepted was proposed before. -/
theorem Valid.propose_le_accept (hv : Valid D h) {a n : N} {p : I} {t t' : Nat}
    (hacc : accept a p t' ∈ h) (hprop : propose n p t ∈ h) : t ≤ t' := by
  induction h with
  | nil => simp at hacc
  | cons e h ih =>
    obtain ⟨htime, hjust, hv⟩ := hv
    rcases List.mem_cons.mp hacc with rfl | hacc'
    · rcases List.mem_cons.mp hprop with heq | hprop'
      · cases heq
      · exact htime _ hprop'
    · rcases List.mem_cons.mp hprop with rfl | hprop'
      · -- The acceptance relies on an older proposal, and this one is the first of its id.
        exact absurd hacc' (hv.not_accept hjust.1)
      · exact ih hv hacc' hprop'

/-- A promise above an acceptance by the same node that is not over reports it. -/
theorem Valid.reported (hv : Valid D h) {a : N} {p q : I} {accepted : Option I} {t t' : Nat}
    (hacc : accept a p t' ∈ h) (hprom : promise a q accepted t ∈ h) (hlt : p < q)
    (hlive : t ≤ t' + D) : ∃ r, accepted = some r ∧ p ≤ r := by
  induction h with
  | nil => simp at hacc
  | cons e h ih =>
    obtain ⟨-, hjust, hv⟩ := hv
    rcases List.mem_cons.mp hacc with rfl | hacc'
    · rcases List.mem_cons.mp hprom with heq | hprom'
      · cases heq
      · exact absurd (hjust.1 q accepted t hprom') (not_le.mpr hlt)
    · rcases List.mem_cons.mp hprom with rfl | hprom'
      · exact hjust p t' hacc' hlive
      · exact ih hv hacc' hprom'

/-- After a lease was chosen, a higher id is proposed by its owner or when it is
over. -/
theorem Chosen.exclusive [DecidableEq N] (hv : Valid D h) {n m : N} {p q : I} {t t' : Nat}
    (hchosen : Chosen h n p t) (hq : propose m q t' ∈ h) (hlt : p < q) :
    n = m ∨ t + D < t' := by
  obtain ⟨hp, A, hA, haccept⟩ := hchosen
  -- Over the part of the history before the second proposal: what that proposal relies
  -- on is a proposal of the same node that is older and still not below `p`.
  suffices hpart : ∀ h' : List (LeaseEvent N I), (∀ e ∈ h', e ∈ h) → Valid D h' →
      ∀ q t', propose m q t' ∈ h' → p < q → n = m ∨ t + D < t' from
    hpart h (fun _ he => he) hv q t' hq hlt
  intro h' hsub hv'
  induction h' with
  | nil => simp
  | cons e h' ih =>
    intro q t' hq hlt
    obtain ⟨htime, hjust, hv'⟩ := hv'
    have ih := ih (fun e he => hsub e (List.mem_cons_of_mem _ he)) hv'
    rcases List.mem_cons.mp hq with rfl | hq
    · obtain ⟨-, B, hB, hpromise⟩ := hjust
      obtain ⟨a, haA, haB⟩ := hA.inter hB
      obtain ⟨ta, hacc⟩ := haccept a haA
      obtain ⟨accepted, tb, hprom, hbelow⟩ := hpromise a haB
      have hle : tb ≤ t' := htime _ hprom
      have hge : t ≤ ta := hv.propose_le_accept hacc hp
      by_cases hlive : tb ≤ ta + D
      · obtain ⟨r, rfl, hpr⟩ :=
          hv.reported hacc (hsub _ (List.mem_cons_of_mem _ hprom)) hlt hlive
        obtain ⟨r', t'', hrr', hr'⟩ := hbelow r rfl
        rcases eq_or_lt_of_le (hpr.trans hrr') with rfl | hlt'
        · exact .inl (hv.propose_unique hp (hsub _ (List.mem_cons_of_mem _ hr'))).1
        · refine (ih r' t'' hr' hlt').imp_right fun hover => ?_
          exact hover.trans_le (htime _ hr')
      · exact .inr (by omega)
    · exact ih q t' hq hlt

/-- Two leases that are both chosen and not over at some time have one owner. -/
theorem Valid.owner_unique [DecidableEq N] (hv : Valid D h) {n m : N} {p q : I} {t t' now : Nat}
    (hn : Chosen h n p t) (hm : Chosen h m q t') (hpast : t ≤ now ∧ t' ≤ now)
    (hlive : now ≤ t + D ∧ now ≤ t' + D) : n = m := by
  rcases lt_trichotomy p q with hlt | rfl | hgt
  · rcases hn.exclusive hv hm.1 hlt with heq | hover
    · exact heq
    · omega
  · exact (hv.propose_unique hn.1 hm.1).1
  · rcases hm.exclusive hv hn.1 hgt with heq | hover
    · exact heq.symm
    · omega

end History

end Library
