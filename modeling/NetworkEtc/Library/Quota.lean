-- SUMMARY: Places that are handed out to holders with quotas, and the sweep that moves no more of them than it must.
import Mathlib.Algebra.BigOperators.Group.Finset.Basic
import Mathlib.Algebra.BigOperators.Group.Finset.Piecewise
import Mathlib.Algebra.Order.BigOperators.Group.Finset
import Mathlib.Data.Finset.Card
import Mathlib.Data.Int.Order.Basic

/-!
# Quotas

Every place has a holder, and a holder should not have more places than its quota. A sweep visits
the places one by one. It moves a place whose holder does not count, or has too many places, to a
holder that has room.
-/

namespace Library

variable {ι α : Type} [DecidableEq α]

/-- The number of places that `a` holds. -/
def held (places : Finset ι) (f : ι → α) (a : α) : Nat := (places.filter fun p => f p = a).card

/-- The number of places that change hands. -/
def moved (places : Finset ι) (f g : ι → α) : Nat := (places.filter fun p => g p ≠ f p).card

/-- The number of places that are in the wrong hands. -/
def excess (places : Finset ι) (holders : Finset α) (quota : α → Nat) (f : ι → α) : Nat :=
  (places.filter fun p => f p ∉ holders).card + ∑ a ∈ holders, (held places f a - quota a)

variable {places : Finset ι} {holders : Finset α} {quota : α → Nat} {f g : ι → α} {p : ι} {a b : α}

-- ---------------------------------------------------------------------------
-- Holding
-- ---------------------------------------------------------------------------

theorem held_congr (h : ∀ p ∈ places, g p = f p) : held places g a = held places f a := by
  unfold held
  congr 1
  apply Finset.filter_congr
  intro p hp
  rw [h p hp]

/-- Holders are counted along a list of the places. -/
theorem count_map_eq_held [DecidableEq ι] {ps : List ι} (hps : ps.Nodup) (f : ι → α) (a : α) :
    (ps.map f).count a = held ps.toFinset f a := by
  rw [held, List.count, List.countP_map, List.countP_eq_length_filter,
    ← List.toFinset_card_of_nodup (hps.filter _), List.toFinset_filter]
  congr 1
  apply Finset.filter_congr
  intro p _
  rw [Function.comp_apply, beq_iff_eq]

theorem held_pos (hp : p ∈ places) : 0 < held places f (f p) :=
  Finset.card_pos.mpr ⟨p, Finset.mem_filter.mpr ⟨hp, rfl⟩⟩

theorem exists_of_held_pos (h : 0 < held places f a) : ∃ p ∈ places, f p = a := by
  obtain ⟨p, hp⟩ := Finset.card_pos.mp h
  exact ⟨p, (Finset.mem_filter.mp hp).1, (Finset.mem_filter.mp hp).2⟩

theorem sum_held (places : Finset ι) (holders : Finset α) (f : ι → α) :
    ∑ a ∈ holders, held places f a = (places.filter fun p => f p ∈ holders).card := by
  have hfibres := Finset.card_eq_sum_card_fiberwise (f := f) (t := holders)
    (s := places.filter fun p => f p ∈ holders) fun p hp => (Finset.mem_filter.mp hp).2
  rw [hfibres]
  refine Finset.sum_congr rfl fun a ha => congrArg Finset.card ?_
  ext p
  simp only [Finset.mem_filter]
  constructor
  · rintro ⟨hp, rfl⟩
    exact ⟨⟨hp, ha⟩, rfl⟩
  · rintro ⟨⟨hp, -⟩, hpa⟩
    exact ⟨hp, hpa⟩

-- ---------------------------------------------------------------------------
-- Quotas
-- ---------------------------------------------------------------------------

/-- If a place is in no holder's hands, some holder has room. -/
theorem exists_room (hquota : places.card ≤ ∑ a ∈ holders, quota a) (hp : p ∈ places)
    (hout : f p ∉ holders) : ∃ a ∈ holders, held places f a < quota a := by
  by_contra hfull
  have hle : ∑ a ∈ holders, quota a ≤ ∑ a ∈ holders, held places f a :=
    Finset.sum_le_sum fun a ha => Nat.le_of_not_lt fun hlt => hfull ⟨a, ha, hlt⟩
  have hlt : (places.filter fun p => f p ∈ holders).card < places.card :=
    Finset.card_lt_card (Finset.filter_ssubset.mpr ⟨p, hp, hout⟩)
  rw [sum_held] at hle
  omega

/-- If the quotas are just enough, they are used up. -/
theorem held_eq_quota (hquota : ∑ a ∈ holders, quota a = places.card)
    (hin : ∀ p ∈ places, f p ∈ holders) (hle : ∀ a ∈ holders, held places f a ≤ quota a)
    (ha : a ∈ holders) : held places f a = quota a := by
  have hsum : ∑ a ∈ holders, held places f a = ∑ a ∈ holders, quota a := by
    rw [sum_held, Finset.filter_true_of_mem hin, hquota]
  exact (Finset.sum_eq_sum_iff_of_le hle).mp hsum a ha

-- ---------------------------------------------------------------------------
-- Changing hands
-- ---------------------------------------------------------------------------

variable [DecidableEq ι]

/-- The other places, and this one. -/
theorem held_eq (hp : p ∈ places) :
    held places f a = (if f p = a then 1 else 0) + held (places.erase p) f a := by
  unfold held
  rw [Finset.card_filter, Finset.card_filter,
    Finset.add_sum_erase places (fun p => if f p = a then 1 else 0) hp]

theorem held_erase_update : held (places.erase p) (Function.update f p b) a =
    held (places.erase p) f a := by
  apply held_congr
  intro q hq
  rw [Function.update_of_ne (Finset.ne_of_mem_erase hq)]

/-- When a place changes hands, one holder loses it and another one gets it. -/
theorem held_update (hp : p ∈ places) : (held places (Function.update f p b) a : Int) =
    held places f a - (if f p = a then 1 else 0) + if b = a then 1 else 0 := by
  rw [held_eq hp, held_eq (f := f) hp, held_erase_update, Function.update_self]
  split
  · split
    · push_cast
      omega
    · push_cast
      omega
  · split
    · push_cast
      omega
    · push_cast
      omega

/-- However the places are handed out within the quotas, what is in the wrong hands moves. -/
theorem excess_le_moved (hin : ∀ p ∈ places, g p ∈ holders)
    (hle : ∀ a ∈ holders, held places g a ≤ quota a) :
    excess places holders quota f ≤ moved places f g := by
  have hsplit : moved places f g = (places.filter fun p => g p ≠ f p ∧ f p ∉ holders).card +
      ∑ a ∈ holders, held (places.filter fun p => g p ≠ f p) f a := by
    rw [sum_held, Finset.filter_filter, Nat.add_comm, moved,
      ← Finset.card_filter_add_card_filter_not (s := places.filter fun p => g p ≠ f p)
        fun p => f p ∈ holders, Finset.filter_filter, Finset.filter_filter]
  have hout : (places.filter fun p => f p ∉ holders).card ≤
      (places.filter fun p => g p ≠ f p ∧ f p ∉ holders).card := by
    apply Finset.card_le_card
    intro p hp
    obtain ⟨hp, hnot⟩ := Finset.mem_filter.mp hp
    exact Finset.mem_filter.mpr ⟨hp, fun heq => hnot (heq ▸ hin p hp), hnot⟩
  have hover : ∀ a ∈ holders, held places f a - quota a ≤
      held (places.filter fun p => g p ≠ f p) f a := by
    intro a ha
    have hboth : held places f a ≤ held places g a + held (places.filter fun p => g p ≠ f p) f a := by
      unfold held
      refine (Finset.card_le_card ?_).trans (Finset.card_union_le _ _)
      intro p hp
      obtain ⟨hp, hpa⟩ := Finset.mem_filter.mp hp
      rw [Finset.mem_union, Finset.mem_filter, Finset.mem_filter, Finset.mem_filter]
      by_cases heq : g p = f p
      · exact Or.inl ⟨hp, heq.trans hpa⟩
      · exact Or.inr ⟨⟨hp, heq⟩, hpa⟩
    have hquota := hle a ha
    omega
  rw [hsplit, excess]
  exact Nat.add_le_add hout (Finset.sum_le_sum hover)

/-- A place in the wrong hands that is moved to a holder with room is no longer in the wrong hands. -/
theorem excess_update (hp : p ∈ places) (hbad : f p ∉ holders ∨ quota (f p) < held places f (f p))
    (ha : a ∈ holders) (hroom : held places f a < quota a) :
    excess places holders quota (Function.update f p a) + 1 = excess places holders quota f := by
  have hne : f p ≠ a := by
    rintro rfl
    exact hbad.elim (fun h => h ha) fun h => by omega
  have hheld : ∀ b, (held places (Function.update f p a) b : Int) =
      held places f b - (if f p = b then 1 else 0) + if a = b then 1 else 0 := fun b => held_update hp
  have hgets := hheld a
  rw [if_neg hne, if_pos rfl] at hgets
  have hloses := hheld (f p)
  rw [if_pos rfl, if_neg hne.symm] at hloses
  -- how many are in the hands of others
  have hout : ((places.filter fun q => Function.update f p a q ∉ holders).card : Int) +
      (if f p ∉ holders then 1 else 0) = (places.filter fun q => f q ∉ holders).card := by
    have hrest : ((places.erase p).filter fun q => Function.update f p a q ∉ holders) =
        (places.erase p).filter fun q => f q ∉ holders := by
      apply Finset.filter_congr
      intro q hq
      rw [Function.update_of_ne (Finset.ne_of_mem_erase hq)]
    rw [← Finset.insert_erase hp, Finset.filter_insert, Finset.filter_insert, hrest,
      Function.update_self, if_neg (not_not.mpr ha)]
    split
    · rw [Finset.card_insert_of_notMem fun h => Finset.notMem_erase p places (Finset.mem_filter.mp h).1]
      push_cast
      rfl
    · simp
  by_cases hin : f p ∈ holders
  · have hover := hbad.resolve_left (not_not.mpr hin)
    have hsum : ∑ b ∈ holders, (held places (Function.update f p a) b - quota b) + 1 =
        ∑ b ∈ holders, (held places f b - quota b) := by
      rw [← Finset.add_sum_erase holders _ hin, ← Finset.add_sum_erase holders _ hin]
      have hrest : ∑ b ∈ holders.erase (f p), (held places (Function.update f p a) b - quota b) =
          ∑ b ∈ holders.erase (f p), (held places f b - quota b) := by
        refine Finset.sum_congr rfl fun b hb => ?_
        have hb' := hheld b
        rw [if_neg (Finset.ne_of_mem_erase hb).symm] at hb'
        by_cases hab : a = b
        · subst hab
          omega
        · rw [if_neg hab] at hb'
          omega
      rw [hrest]
      omega
    rw [if_neg (not_not.mpr hin)] at hout
    unfold excess
    omega
  · have hsum : ∑ b ∈ holders, (held places (Function.update f p a) b - quota b) =
        ∑ b ∈ holders, (held places f b - quota b) := by
      refine Finset.sum_congr rfl fun b hb => ?_
      have hb' := hheld b
      rw [if_neg fun h => hin (by rwa [h])] at hb'
      by_cases hab : a = b
      · subst hab
        omega
      · rw [if_neg hab] at hb'
        omega
    rw [if_pos hin] at hout
    unfold excess
    omega

-- ---------------------------------------------------------------------------
-- Sweeps
-- ---------------------------------------------------------------------------

/-- A sweep over some places. A place stays where it is when its holder counts and has not too
many, and else goes to a holder with room. -/
inductive Sweep (places : Finset ι) (holders : Finset α) (quota : α → Nat) :
    List ι → (ι → α) → (ι → α) → Prop where
  | nil (f : ι → α) : Sweep places holders quota [] f f
  | keep {p : ι} {ps : List ι} {f g : ι → α} (hin : f p ∈ holders)
      (hle : held places f (f p) ≤ quota (f p)) (h : Sweep places holders quota ps f g) :
      Sweep places holders quota (p :: ps) f g
  | move {p : ι} {ps : List ι} {f g : ι → α} {a : α}
      (hbad : f p ∉ holders ∨ quota (f p) < held places f (f p)) (ha : a ∈ holders)
      (hroom : held places f a < quota a)
      (h : Sweep places holders quota ps (Function.update f p a) g) :
      Sweep places holders quota (p :: ps) f g

namespace Sweep

variable {ps : List ι}

/-- One sweep after the other. -/
theorem append {qs : List ι} {k : ι → α} (h : Sweep places holders quota ps f g)
    (h' : Sweep places holders quota qs g k) : Sweep places holders quota (ps ++ qs) f k := by
  induction h with
  | nil => exact h'
  | keep hin hle h ih => exact .keep hin hle (ih h')
  | move hbad ha hroom h ih => exact .move hbad ha hroom (ih h')

/-- What is not visited stays. -/
theorem unvisited (h : Sweep places holders quota ps f g) (hp : p ∉ ps) : g p = f p := by
  induction h with
  | nil => rfl
  | keep hin hle h ih => exact ih (List.not_mem_of_not_mem_cons hp)
  | move hbad ha hroom h ih =>
    rw [ih (List.not_mem_of_not_mem_cons hp), Function.update_of_ne (List.ne_of_not_mem_cons hp)]

/-- A quota that is kept stays kept. -/
theorem kept (h : Sweep places holders quota ps f g) (hps : ∀ p ∈ ps, p ∈ places)
    (hle : held places f a ≤ quota a) : held places g a ≤ quota a := by
  induction h with
  | nil => exact hle
  | keep hin hle' h ih => exact ih (fun p hp => hps p (List.mem_cons_of_mem _ hp)) hle
  | @move p ps f g b hbad hb hroom h ih =>
    refine ih (fun p hp => hps p (List.mem_cons_of_mem _ hp)) ?_
    have hupdate := held_update (f := f) (a := a) (b := b) (hps p List.mem_cons_self)
    by_cases hba : b = a
    · subst hba
      rw [if_pos rfl] at hupdate
      split at hupdate
      · omega
      · omega
    · rw [if_neg hba] at hupdate
      split at hupdate
      · omega
      · omega

/-- What is visited is in good hands. -/
theorem visited (h : Sweep places holders quota ps f g) (hps : ∀ p ∈ ps, p ∈ places)
    (hnodup : ps.Nodup) : ∀ p ∈ ps, g p ∈ holders ∧ held places g (g p) ≤ quota (g p) := by
  induction h with
  | nil => exact fun p hp => absurd hp List.not_mem_nil
  | @keep p ps f g hin hle h ih =>
    obtain ⟨hnot, hnodup⟩ := List.nodup_cons.mp hnodup
    have hps' : ∀ q ∈ ps, q ∈ places := fun q hq => hps q (List.mem_cons_of_mem _ hq)
    intro q hq
    rcases List.mem_cons.mp hq with rfl | hq
    · rw [h.unvisited hnot]
      exact ⟨hin, h.kept hps' hle⟩
    · exact ih hps' hnodup q hq
  | @move p ps f g a hbad ha hroom h ih =>
    obtain ⟨hnot, hnodup⟩ := List.nodup_cons.mp hnodup
    have hps' : ∀ q ∈ ps, q ∈ places := fun q hq => hps q (List.mem_cons_of_mem _ hq)
    intro q hq
    rcases List.mem_cons.mp hq with rfl | hq
    · rw [h.unvisited hnot, Function.update_self]
      refine ⟨ha, h.kept hps' ?_⟩
      have hupdate := held_update (f := f) (a := a) (b := a) (hps q List.mem_cons_self)
      rw [if_pos rfl] at hupdate
      split at hupdate
      · omega
      · omega
    · exact ih hps' hnodup q hq

/-- What has moved was in the wrong hands. -/
theorem moved_add_excess (h : Sweep places holders quota ps f g) (hps : ∀ p ∈ ps, p ∈ places)
    (hnodup : ps.Nodup) :
    moved places f g + excess places holders quota g = excess places holders quota f := by
  induction h with
  | nil => simp [moved]
  | keep hin hle h ih =>
    exact ih (fun q hq => hps q (List.mem_cons_of_mem _ hq)) (List.nodup_cons.mp hnodup).2
  | @move p ps f g a hbad ha hroom h ih =>
    obtain ⟨hnot, hnodup⟩ := List.nodup_cons.mp hnodup
    have hp := hps p List.mem_cons_self
    have hrest := ih (fun q hq => hps q (List.mem_cons_of_mem _ hq)) hnodup
    have hupdate := excess_update hp hbad ha hroom
    have hgp := h.unvisited hnot
    rw [Function.update_self] at hgp
    have hne : a ≠ f p := by
      rintro rfl
      exact hbad.elim (fun hout => hout ha) fun hover => by omega
    have hmoved : moved places f g = moved places (Function.update f p a) g + 1 := by
      have hother : ((places.erase p).filter fun q => g q ≠ Function.update f p a q) =
          (places.erase p).filter fun q => g q ≠ f q := by
        apply Finset.filter_congr
        intro q hq
        rw [Function.update_of_ne (Finset.ne_of_mem_erase hq)]
      unfold moved
      rw [← Finset.insert_erase hp, Finset.filter_insert, Finset.filter_insert, hother,
        Function.update_self, hgp, if_pos hne, if_neg (not_not.mpr rfl),
        Finset.card_insert_of_notMem fun h => Finset.notMem_erase p places (Finset.mem_filter.mp h).1]
    omega

variable (h : Sweep places holders quota ps f g) (hps : ∀ p, p ∈ ps ↔ p ∈ places)
  (hnodup : ps.Nodup)

include h hps hnodup

/-- After a sweep over all places every quota is kept. -/
theorem within (a : α) : held places g a ≤ quota a := by
  rcases Nat.eq_zero_or_pos (held places g a) with hzero | hpos
  · omega
  · obtain ⟨p, hp, rfl⟩ := exists_of_held_pos hpos
    exact (h.visited (fun p => (hps p).mp) hnodup p ((hps p).mpr hp)).2

/-- It has moved no more places than any other way to keep the quotas does. -/
theorem moved_le {g' : ι → α} (hin : ∀ p ∈ places, g' p ∈ holders)
    (hle : ∀ a ∈ holders, held places g' a ≤ quota a) : moved places f g ≤ moved places f g' := by
  have hsum := h.moved_add_excess (fun p => (hps p).mp) hnodup
  have hleast := excess_le_moved (f := f) hin hle
  omega

end Sweep

end Library
