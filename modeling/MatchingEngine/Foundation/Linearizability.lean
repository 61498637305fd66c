import MatchingEngine.Foundation.Machine
import Mathlib.Logic.Function.Basic

/-!
# Linearizability

An atomic object serves calls of any number of threads. Each operation takes effect at once, at
some moment between its call and its return, with the result that the sequential object gives
at this moment.

An implementation is linearizable if it implements the atomic object along a view that leaves
the history of calls and returns as it is.
-/

namespace MatchingEngine

/-- An object for one thread: what an operation makes of the object, and its result. -/
structure SequentialObject (σ Op R : Type*) where
  start : σ
  apply : Op → σ → σ × R

/-- What is seen of an operation from outside. -/
inductive Event (ι Op R : Type*)
  | call (thread : ι) (operation : Op)
  | returned (thread : ι) (result : R)
deriving DecidableEq

/-- An object shared by threads: the operation each of them has called, with its result once it took effect. -/
structure AtomicObject (ι σ Op R : Type*) where
  object : σ
  calls : ι → Option (Op × Option R)
  history : List (Event ι Op R)

namespace AtomicObject

/-- A thread calls an operation; the operation takes effect; its call returns. -/
inductive Label (ι Op : Type*)
  | call (thread : ι) (operation : Op)
  | effect (thread : ι)
  | return (thread : ι)

variable {ι σ Op R : Type*} [DecidableEq ι]

/-- The steps of the threads. -/
def next (spec : SequentialObject σ Op R) : Label ι Op → AtomicObject ι σ Op R → Option (AtomicObject ι σ Op R)
  | .call thread operation, s =>
    match s.calls thread with
    | none => some { s with
        calls := Function.update s.calls thread (some (operation, none))
        history := s.history ++ [.call thread operation] }
    | some _ => none
  | .effect thread, s =>
    match s.calls thread with
    | some (operation, none) => some { s with
        object := (spec.apply operation s.object).1
        calls := Function.update s.calls thread (some (operation, some (spec.apply operation s.object).2)) }
    | _ => none
  | .return thread, s =>
    match s.calls thread with
    | some (_, some result) => some { s with
        calls := Function.update s.calls thread none
        history := s.history ++ [.returned thread result] }
    | _ => none

end AtomicObject

/-- The threads on one atomic object. -/
def atomicObject (ι : Type*) {σ Op R : Type*} [DecidableEq ι] (spec : SequentialObject σ Op R) :
    Machine (AtomicObject ι σ Op R) (AtomicObject.Label ι Op) where
  start := ⟨spec.start, fun _ => none, []⟩
  next := AtomicObject.next spec

namespace AtomicObject

variable {ι σ Op R : Type*} [DecidableEq ι] {spec : SequentialObject σ Op R} {s : AtomicObject ι σ Op R} {thread : ι}
  {operation : Op}

/-- An idle thread calls. -/
theorem next_call (h : s.calls thread = none) (operation : Op) :
    (atomicObject ι spec).next (.call thread operation) s = some { s with
      calls := Function.update s.calls thread (some (operation, none))
      history := s.history ++ [.call thread operation] } := by
  simp only [atomicObject, next, h]

/-- A called operation takes effect. -/
theorem next_effect (h : s.calls thread = some (operation, none)) {after : σ} {result : R}
    (happly : spec.apply operation s.object = (after, result)) :
    (atomicObject ι spec).next (.effect thread) s = some { s with
      object := after
      calls := Function.update s.calls thread (some (operation, some result)) } := by
  simp only [atomicObject, next, h, happly]

/-- An operation that took effect returns. -/
theorem next_return {result : R} (h : s.calls thread = some (operation, some result)) :
    (atomicObject ι spec).next (.return thread) s = some { s with
      calls := Function.update s.calls thread none
      history := s.history ++ [.returned thread result] } := by
  simp only [atomicObject, next, h]

end AtomicObject

/-- The histories of a machine are histories of an atomic object. -/
def Machine.Linearizable {τ ℓ ι σ Op R : Type*} [DecidableEq ι] (M : Machine τ ℓ) (history : τ → List (Event ι Op R))
    (spec : SequentialObject σ Op R) : Prop :=
  ∃ view commit, M.Implements (atomicObject ι spec) view commit ∧ ∀ s, (view s).history = history s

end MatchingEngine
