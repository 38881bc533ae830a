-- SUMMARY: Runs of a step function that may fail, and their induction rules.
import Mathlib.Data.List.Induction

/-!
# Runs

A step takes a state and an input to the next state, or fails. A run is a list of inputs,
the first one first; it ends where a step fails.
-/

namespace Library

variable {σ ι : Type} (step : σ → ι → Option σ)

/-- The state after the inputs. -/
def runFrom : σ → List ι → Option σ
  | s, [] => some s
  | s, i :: is => (step s i).bind fun t => runFrom t is

variable {step} {s t u : σ} {i : ι} {is js : List ι}

@[simp] theorem runFrom_nil : runFrom step s [] = some s := rfl

@[simp] theorem runFrom_cons :
    runFrom step s (i :: is) = (step s i).bind fun t => runFrom step t is := rfl

theorem runFrom_append :
    runFrom step s (is ++ js) = (runFrom step s is).bind fun t => runFrom step t js := by
  induction is generalizing s with
  | nil => rfl
  | cons i is ih =>
    rw [List.cons_append, runFrom_cons, runFrom_cons, Option.bind_assoc]
    apply Option.bind_congr
    intro t _
    exact ih

theorem runFrom_concat :
    runFrom step s (is ++ [i]) = (runFrom step s is).bind fun t => step t i := by
  rw [runFrom_append]
  apply Option.bind_congr
  intro t _
  simp

/-- A run is cut in two. -/
theorem runFrom_append_eq_some : runFrom step s (is ++ js) = some u ↔
    ∃ t, runFrom step s is = some t ∧ runFrom step t js = some u := by
  rw [runFrom_append, Option.bind_eq_some_iff]

/-- The invariant rule: what every step keeps, every run keeps. -/
theorem runFrom_invariant {P : σ → Prop} {C : ι → Prop}
    (hstep : ∀ s i t, C i → P s → step s i = some t → P t) (hs : P s) (hC : ∀ i ∈ is, C i)
    (hrun : runFrom step s is = some t) : P t := by
  induction is generalizing s with
  | nil =>
    rw [← Option.some.inj hrun]
    exact hs
  | cons i is ih =>
    obtain ⟨u, hu, hrest⟩ := Option.bind_eq_some_iff.mp hrun
    apply ih _ (fun j hj => hC j (List.mem_cons_of_mem _ hj)) hrest
    exact hstep s i u (hC i (List.mem_cons_self ..)) hs hu

/-- The induction rule, the inputs so far being known. `C` is a condition on runs that
every first part of a run inherits. -/
theorem runFrom_induction {C : List ι → Prop} {P : List ι → σ → Prop}
    (hpart : ∀ is i, C (is ++ [i]) → C is) (hinit : P [] s)
    (hstep : ∀ is i t u, C (is ++ [i]) → P is t → step t i = some u → P (is ++ [i]) u)
    (hC : C is) (hrun : runFrom step s is = some t) : P is t := by
  induction is using List.reverseRecOn generalizing t with
  | nil =>
    rw [← Option.some.inj hrun]
    exact hinit
  | append_singleton is i ih =>
    rw [runFrom_concat, Option.bind_eq_some_iff] at hrun
    obtain ⟨u, hu, hlast⟩ := hrun
    exact hstep is i u t hC (ih (hpart is i hC) hu) hlast

/-- A property that a step keeps if and only if it meets a condition holds all along a run if
and only if all steps meet the condition. -/
theorem runFrom_forall_iff {P : List ι → σ → Prop} {C : σ → ι → Prop}
    (hrun : runFrom step s is = some t) (hinit : P [] s)
    (hstep : ∀ js i ks u v, is = js ++ i :: ks → runFrom step s js = some u → P js u →
      step u i = some v → (P (js ++ [i]) v ↔ C u i)) :
    (∀ js ks u, is = js ++ ks → runFrom step s js = some u → P js u) ↔
      ∀ js i ks u, is = js ++ i :: ks → runFrom step s js = some u → C u i := by
  constructor
  · intro hall js i ks u heq hu
    have hcut : is = (js ++ [i]) ++ ks := by simp [heq]
    rw [hcut] at hrun
    obtain ⟨v, hv, -⟩ := runFrom_append_eq_some.mp hrun
    have hlast : step u i = some v := by
      rwa [runFrom_concat, hu, Option.bind_some] at hv
    exact (hstep js i ks u v heq hu (hall js _ u heq hu) hlast).mp (hall _ ks v hcut hv)
  · intro hall js ks u heq hu
    have hkept : runFrom step s js = some u ∧ P js u := by
      apply runFrom_induction (C := fun js => ∃ ks, is = js ++ ks)
        (P := fun js u => runFrom step s js = some u ∧ P js u) _ ⟨rfl, hinit⟩ _ ⟨ks, heq⟩ hu
      · rintro js i ⟨ks, rfl⟩
        exact ⟨i :: ks, by simp⟩
      · rintro js i u v ⟨ks, heq⟩ ⟨hu, hP⟩ hv
        have heq : is = js ++ i :: ks := by simp [heq]
        refine ⟨?_, (hstep js i ks u v heq hu hP hv).mpr (hall js i ks u heq hu)⟩
        rw [runFrom_concat, hu, Option.bind_some, hv]
    exact hkept.2

/-! # Conditions on the steps -/

/-- Each step of a run meets the condition, as far as the run gets. -/
def EachStep (step : σ → ι → Option σ) (C : σ → ι → Prop) : σ → List ι → Prop
  | _, [] => True
  | s, i :: is => C s i ∧ ∀ t ∈ step s i, EachStep step C t is

instance decidableEachStep {C : σ → ι → Prop} [∀ s i, Decidable (C s i)] :
    ∀ (s : σ) (is : List ι), Decidable (EachStep step C s is)
  | _, [] => instDecidableTrue
  | s, i :: is =>
    have := fun t => decidableEachStep (C := C) t is
    inferInstanceAs (Decidable (C s i ∧ ∀ t ∈ step s i, EachStep step C t is))

theorem eachStep_iff {C : σ → ι → Prop} : EachStep step C s is ↔
    ∀ js i ks t, is = js ++ i :: ks → runFrom step s js = some t → C t i := by
  induction is generalizing s with
  | nil => simp [EachStep]
  | cons i is ih =>
    rw [EachStep]
    constructor
    · rintro ⟨hfirst, hrest⟩ js j ks t heq hrun
      cases js with
      | nil =>
        obtain ⟨rfl, -⟩ := List.cons.inj heq
        obtain rfl := Option.some.inj hrun
        exact hfirst
      | cons j' js =>
        obtain ⟨rfl, hsplit⟩ := List.cons.inj heq
        obtain ⟨u, hu, hrun⟩ := Option.bind_eq_some_iff.mp hrun
        exact ih.mp (hrest u hu) js j ks t hsplit hrun
    · intro hall
      refine ⟨hall [] i is s rfl rfl, fun t ht => ih.mpr fun js j ks u heq hrun => ?_⟩
      refine hall (i :: js) j ks u (by rw [heq, List.cons_append]) ?_
      rw [runFrom_cons, Option.mem_def.mp ht, Option.bind_some, hrun]

/-! # Gathering -/

/-- What is gathered along a run; `f` sees the state before an input. -/
def gather {β : Type} (step : σ → ι → Option σ) (f : σ → ι → β → β) : β → σ → List ι → β
  | b, _, [] => b
  | b, s, i :: is =>
    match step s i with
    | none => b
    | some t => gather step f (f s i b) t is

variable {β : Type} {f : σ → ι → β → β} {b : β}

@[simp] theorem gather_nil : gather step f b s [] = b := rfl

theorem gather_cons (hstep : step s i = some t) :
    gather step f b s (i :: is) = gather step f (f s i b) t is := by
  rw [gather, hstep]

theorem gather_append (hrun : runFrom step s is = some t) :
    gather step f b s (is ++ js) = gather step f (gather step f b s is) t js := by
  induction is generalizing s b with
  | nil =>
    rw [← Option.some.inj hrun]
    rfl
  | cons i is ih =>
    obtain ⟨u, hu, hrest⟩ := Option.bind_eq_some_iff.mp hrun
    rw [List.cons_append, gather_cons hu, gather_cons hu]
    exact ih hrest

theorem gather_concat (hrun : runFrom step s is = some t) (hstep : step t i = some u) :
    gather step f b s (is ++ [i]) = f t i (gather step f b s is) := by
  rw [gather_append hrun, gather_cons hstep, gather_nil]

end Library
