-- SUMMARY: Deterministic machines with outputs, their runs, and the traces of their runs.
import Mathlib.Data.List.Basic

/-!
# Machines and traces

A component that reacts to calls is a machine: a state, and for each input the
next state and what the component puts out. A run is a list of inputs. All lists
here are **newest first**, so that a run is extended by `cons` and an induction
over a run has the last step in its hand.
-/

namespace Library

/-- One step of a run: the state before it, the input, what was put out, and the
state after it. -/
structure Step (σ ι ο : Type) where
  pre : σ
  input : ι
  output : ο
  post : σ

/-- A deterministic machine. -/
structure Machine (σ ι ο : Type) where
  init : σ
  step : σ → ι → σ × ο

namespace Machine

variable {σ ι ο : Type} (M : Machine σ ι ο)

/-- The state after the inputs `is`, newest first. -/
def run : List ι → σ
  | [] => M.init
  | i :: is => (M.step (run is) i).1

/-- The step the machine makes on `i` after `is`. -/
def stepAfter (is : List ι) (i : ι) : Step σ ι ο :=
  ⟨M.run is, i, (M.step (M.run is) i).2, (M.step (M.run is) i).1⟩

/-- The steps of a run, newest first. -/
def trace : List ι → List (Step σ ι ο)
  | [] => []
  | i :: is => M.stepAfter is i :: trace is

@[simp] theorem run_nil : M.run [] = M.init := rfl
@[simp] theorem run_cons (i : ι) (is : List ι) : M.run (i :: is) = (M.step (M.run is) i).1 := rfl
@[simp] theorem trace_nil : M.trace [] = [] := rfl
@[simp] theorem trace_cons (i : ι) (is : List ι) :
    M.trace (i :: is) = M.stepAfter is i :: M.trace is := rfl
@[simp] theorem stepAfter_pre (is : List ι) (i : ι) : (M.stepAfter is i).pre = M.run is := rfl
@[simp] theorem stepAfter_input (is : List ι) (i : ι) : (M.stepAfter is i).input = i := rfl
@[simp] theorem stepAfter_output (is : List ι) (i : ι) :
    (M.stepAfter is i).output = (M.step (M.run is) i).2 := rfl
@[simp] theorem stepAfter_post (is : List ι) (i : ι) :
    (M.stepAfter is i).post = (M.step (M.run is) i).1 := rfl

/-- The invariant rule. `C` is a condition on runs that every part of a run inherits;
what holds at the start and is kept by every step of such a run, the history so far
being known, holds of every such run. -/
theorem invariant {C : List (Step σ ι ο) → Prop} {P : List (Step σ ι ο) → σ → Prop}
    (hpart : ∀ st tr, C (st :: tr) → C tr) (hinit : P [] M.init)
    (hstep : ∀ is i, C (M.stepAfter is i :: M.trace is) → P (M.trace is) (M.run is) →
      P (M.stepAfter is i :: M.trace is) (M.step (M.run is) i).1)
    (is : List ι) (h : C (M.trace is)) : P (M.trace is) (M.run is) := by
  induction is with
  | nil => exact hinit
  | cons i is ih => exact hstep is i h (ih (hpart _ _ h))

/-- A step of a run is the step the machine makes after some earlier part of it. -/
theorem mem_trace {is : List ι} {st : Step σ ι ο} (h : st ∈ M.trace is) :
    ∃ later i earlier, is = later ++ i :: earlier ∧ st = M.stepAfter earlier i := by
  induction is with
  | nil => simp at h
  | cons i is ih =>
    rcases List.mem_cons.mp h with rfl | h
    · exact ⟨[], i, is, rfl, rfl⟩
    · obtain ⟨later, j, earlier, rfl, rfl⟩ := ih h
      exact ⟨i :: later, j, earlier, rfl, rfl⟩

end Machine

end Library
