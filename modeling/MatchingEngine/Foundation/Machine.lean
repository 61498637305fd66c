import Mathlib.Logic.Relation
import Mathlib.Order.WellFounded

/-!
# Labelled state machines

A machine has one start state and, for each label, a partial step function. A label
names everything the environment decides (which thread moves, which request arrives),
so that a list of labels determines a run and runs can be replayed.

Runs are studied under a side condition on every step: an invariant proved for the runs
that obey the condition says nothing about the others. Termination means that no run
from the state can be continued forever, whatever labels are chosen.
-/

namespace MatchingEngine

/-- A deterministic labelled machine; `none` means that the label is not enabled. -/
structure Machine (σ ℓ : Type*) where
  start : σ
  next : ℓ → σ → Option σ

namespace Machine

variable {σ ℓ : Type*} (M : Machine σ ℓ)

/-- The states reached by runs each of whose steps meets `allowed` in the state before it. -/
inductive ReachableBy (allowed : ℓ → σ → Prop) : σ → Prop
  | start : ReachableBy allowed M.start
  | step {label : ℓ} {s t : σ} : ReachableBy allowed s → allowed label s →
      M.next label s = some t → ReachableBy allowed t

/-- The states reached by arbitrary runs. -/
abbrev Reachable : σ → Prop := M.ReachableBy fun _ _ => True

/-- Replay a list of labels. -/
def run : List ℓ → σ → Option σ
  | [], s => some s
  | label :: labels, s => (M.next label s).bind (run labels)

/-- Replay a list of labels as long as each passes a test in the state before it. -/
def runIf (test : ℓ → σ → Bool) : List ℓ → σ → Option σ
  | [], s => some s
  | label :: labels, s => if test label s then (M.next label s).bind (runIf test labels) else none

@[simp] theorem run_nil (s : σ) : M.run [] s = some s := rfl

@[simp] theorem run_singleton (label : ℓ) (s : σ) : M.run [label] s = M.next label s := by
  rw [run]
  cases M.next label s with
  | none => rfl
  | some t => rfl

/-- No run from the state can be continued forever. -/
def Terminates (s : σ) : Prop := Acc (fun t s => ∃ label, M.next label s = some t) s

variable {M} {allowed : ℓ → σ → Prop}

/-- An invariant of the start state and of every allowed step holds in every state reached. -/
theorem ReachableBy.invariant {I : σ → Prop} (hstart : I M.start)
    (hstep : ∀ label s t, M.ReachableBy allowed s → I s → allowed label s →
      M.next label s = some t → I t)
    {s : σ} (h : M.ReachableBy allowed s) : I s := by
  induction h with
  | start => exact hstart
  | step hs hallowed hnext ih => exact hstep _ _ _ hs ih hallowed hnext

/-- Weakening the side condition admits more runs. -/
theorem ReachableBy.mono {allowed' : ℓ → σ → Prop} (himp : ∀ label s, allowed label s → allowed' label s)
    {s : σ} (h : M.ReachableBy allowed s) : M.ReachableBy allowed' s := by
  induction h with
  | start => exact .start
  | step _ hallowed hnext ih => exact .step ih (himp _ _ hallowed) hnext

/-- A conditional run is a run. -/
theorem ReachableBy.reachable {s : σ} (h : M.ReachableBy allowed s) : M.Reachable s :=
  h.mono fun _ _ _ => trivial

/-- Extend a reached state by replaying labels all of which are allowed everywhere. -/
theorem ReachableBy.run {labels : List ℓ} {s t : σ} (hs : M.ReachableBy allowed s)
    (hallowed : ∀ label ∈ labels, ∀ u, allowed label u) (h : M.run labels s = some t) :
    M.ReachableBy allowed t := by
  induction labels generalizing s with
  | nil =>
    simp only [Machine.run, Option.some.injEq] at h
    exact h ▸ hs
  | cons label labels ih =>
    obtain ⟨u, hu, h⟩ := Option.bind_eq_some_iff.mp h
    have hlabel := hallowed label (List.mem_cons_self ..) s
    exact ih (hs.step hlabel hu) (fun l hl => hallowed l (List.mem_cons_of_mem _ hl)) h

/-- A tested replay is a replay. -/
theorem run_of_runIf {test : ℓ → σ → Bool} {labels : List ℓ} {s t : σ} (h : M.runIf test labels s = some t) :
    M.run labels s = some t := by
  induction labels generalizing s with
  | nil => exact h
  | cons label labels ih =>
    rw [Machine.runIf] at h
    split at h
    · obtain ⟨u, hu, h⟩ := Option.bind_eq_some_iff.mp h
      exact Option.bind_eq_some_iff.mpr ⟨u, hu, ih h⟩
    · cases h

/-- A tested replay is a run that meets what the test ensures in the states that such runs reach. -/
theorem ReachableBy.runIf {test : ℓ → σ → Bool}
    (htest : ∀ label u, M.ReachableBy allowed u → test label u = true → allowed label u) {labels : List ℓ} {s t : σ}
    (hs : M.ReachableBy allowed s) (h : M.runIf test labels s = some t) : M.ReachableBy allowed t := by
  induction labels generalizing s with
  | nil =>
    simp only [Machine.runIf, Option.some.injEq] at h
    exact h ▸ hs
  | cons label labels ih =>
    rw [Machine.runIf] at h
    split at h
    · rename_i hlabel
      obtain ⟨u, hu, h⟩ := Option.bind_eq_some_iff.mp h
      exact ih (hs.step (htest label s hs hlabel) hu) h
    · cases h

/-- An invariant of every step holds after a replay if it holds before. -/
theorem run_invariant {I : σ → Prop} (hstep : ∀ label s t, I s → M.next label s = some t → I t) {labels : List ℓ}
    {s t : σ} (hs : I s) (hrun : M.run labels s = some t) : I t := by
  induction labels generalizing s with
  | nil => exact Option.some.inj hrun ▸ hs
  | cons label labels ih =>
    obtain ⟨u, hu, hrun⟩ := Option.bind_eq_some_iff.mp hrun
    exact ih (hstep label s u hs hu) hrun

/-- Every replay from the start is a run. -/
theorem reachable_of_run {labels : List ℓ} {s : σ} (h : M.run labels M.start = some s) :
    M.Reachable s :=
  ReachableBy.run .start (fun _ _ _ => trivial) h

/-- A test that a replay ends in a state passes only at a reachable state. -/
theorem exists_reachable_of_run {labels : List ℓ} {test : σ → Bool}
    (h : (M.run labels M.start).any test = true) : ∃ s, M.Reachable s ∧ test s = true := by
  cases hrun : M.run labels M.start with
  | none => simp [hrun] at h
  | some s => exact ⟨s, reachable_of_run hrun, by simpa [hrun] using h⟩

/-- A test that a tested replay ends in a state passes only at a state that such runs reach. -/
theorem exists_reachableBy_of_runIf {test : ℓ → σ → Bool}
    (htest : ∀ label u, M.ReachableBy allowed u → test label u = true → allowed label u) {labels : List ℓ}
    {final : σ → Bool} (h : (M.runIf test labels M.start).any final = true) :
    ∃ s, M.ReachableBy allowed s ∧ final s = true := by
  obtain ⟨s, hrun, hfinal⟩ := (Option.any_eq_true _ _).mp h
  exact ⟨s, ReachableBy.runIf htest .start hrun, hfinal⟩

/-- A machine that keeps an invariant, and whose steps leave the view of its state or are steps of another
machine, refines this machine. -/
theorem ReachableBy.refines {τ κ : Type*} {N : Machine τ κ} {I : σ → Prop} (view : σ → τ)
    (hstart : I M.start ∧ view M.start = N.start)
    (hstep : ∀ label s t, I s → N.Reachable (view s) → allowed label s → M.next label s = some t →
      I t ∧ (view t = view s ∨ ∃ label', N.next label' (view s) = some (view t)))
    {s : σ} (h : M.ReachableBy allowed s) : I s ∧ N.Reachable (view s) := by
  induction h with
  | start => exact ⟨hstart.1, hstart.2 ▸ .start⟩
  | step hs hallowed hnext ih =>
    obtain ⟨hinvariant, heq | ⟨label', hlabel'⟩⟩ := hstep _ _ _ ih.1 ih.2 hallowed hnext
    · exact ⟨hinvariant, heq ▸ ih.2⟩
    · exact ⟨hinvariant, ih.2.step trivial hlabel'⟩

/-- Refinement where the other machine has a side condition of its own. -/
theorem ReachableBy.refinesBy {τ κ : Type*} {N : Machine τ κ} {permitted : κ → τ → Prop} {I : σ → Prop} (view : σ → τ)
    (hstart : I M.start ∧ view M.start = N.start)
    (hstep : ∀ label s t, I s → allowed label s → M.next label s = some t →
      I t ∧ (view t = view s ∨ ∃ label', permitted label' (view s) ∧ N.next label' (view s) = some (view t)))
    {s : σ} (h : M.ReachableBy allowed s) : I s ∧ N.ReachableBy permitted (view s) := by
  induction h with
  | start => exact ⟨hstart.1, hstart.2 ▸ .start⟩
  | step hs hallowed hnext ih =>
    obtain ⟨hinvariant, heq | ⟨label', hpermitted, hlabel'⟩⟩ := hstep _ _ _ ih.1 hallowed hnext
    · exact ⟨hinvariant, heq ▸ ih.2⟩
    · exact ⟨hinvariant, ih.2.step hpermitted hlabel'⟩

/-- Along a view of its states, each step of a machine stands for the steps of another machine that `commit`
names. -/
structure Implements {τ κ : Type*} (M : Machine σ ℓ) (N : Machine τ κ) (view : σ → τ) (commit : ℓ → σ → List κ) :
    Prop where
  start : view M.start = N.start
  step : ∀ label s t, M.Reachable s → M.next label s = some t → N.run (commit label s) (view s) = some (view t)

/-- A machine that implements another one stays within its states. -/
theorem Implements.reachable {τ κ : Type*} {N : Machine τ κ} {view : σ → τ} {commit : ℓ → σ → List κ}
    (h : M.Implements N view commit) {s : σ} (hs : M.Reachable s) : N.Reachable (view s) := by
  induction hs with
  | start => exact h.start ▸ .start
  | step hs _ hnext ih => exact ReachableBy.run ih (fun _ _ _ => trivial) (h.step _ _ _ hs hnext)

/-- A measure that every step decreases, while an invariant holds, bounds all runs. -/
theorem terminates_of_measure {I : σ → Prop} (measure : σ → ℕ)
    (hstep : ∀ label s t, I s → M.next label s = some t → I t ∧ measure t < measure s)
    {s : σ} (hs : I s) : M.Terminates s := by
  generalize hn : measure s = n
  induction n using Nat.strong_induction_on generalizing s with
  | h n ih =>
    refine Acc.intro s fun t ⟨label, hnext⟩ => ?_
    obtain ⟨ht, hlt⟩ := hstep label s t hs hnext
    exact ih (measure t) (hn ▸ hlt) ht rfl

/-- Where no step leaves a goal, and each step before the goal keeps a measure, which the selected ones decrease, a replay
reaches the goal or makes at most as many selected steps as the measure says. -/
theorem run_selected_le {I goal : σ → Prop} {admitted selected : ℓ → Bool} {measure : σ → ℕ}
    (hstep : ∀ label s t, I s → admitted label = true → M.next label s = some t →
      I t ∧ (goal s → goal t) ∧ (goal t ∨ measure t + (selected label).toNat ≤ measure s))
    {labels : List ℓ} (hlabels : ∀ label ∈ labels, admitted label = true) {s t : σ} (hs : I s)
    (hrun : M.run labels s = some t) :
    I t ∧ (goal s → goal t) ∧ (goal t ∨ measure t + labels.countP selected ≤ measure s) := by
  induction labels generalizing s with
  | nil =>
    obtain rfl := Option.some.inj hrun
    exact ⟨hs, id, Or.inr (Nat.le_refl _)⟩
  | cons label labels ih =>
    obtain ⟨u, hu, hrun⟩ := Option.bind_eq_some_iff.mp hrun
    obtain ⟨hinvariant, hkeeps, hmeasure⟩ := hstep label s u hs (hlabels label (List.mem_cons_self ..)) hu
    obtain ⟨ht, hkept, hbound⟩ := ih (fun l hl => hlabels l (List.mem_cons_of_mem _ hl)) hinvariant hrun
    refine ⟨ht, hkept ∘ hkeeps, ?_⟩
    obtain hgoal | hmeasure := hmeasure
    · exact Or.inl (hkept hgoal)
    · refine hbound.imp_right fun hbound => ?_
      have hcount : (label :: labels).countP selected = labels.countP selected + (selected label).toNat := by
        rw [List.countP_cons]
        cases selected label with
        | false => rfl
        | true => rfl
      omega

/-- Where some step always preserves an invariant, a run can be continued forever. -/
theorem not_terminates_of_invariant {I : σ → Prop}
    (hstep : ∀ s, I s → ∃ label t, M.next label s = some t ∧ I t) {s : σ} (hs : I s) :
    ¬ M.Terminates s := by
  intro hacc
  induction hacc with
  | intro s _ ih =>
    obtain ⟨label, t, hnext, ht⟩ := hstep s hs
    exact ih t ⟨label, hnext⟩ ht

/-- Termination passes to the states reached by a step. -/
theorem Terminates.step {label : ℓ} {s t : σ} (h : M.Terminates s) (hnext : M.next label s = some t) :
    M.Terminates t :=
  Acc.inv h ⟨label, hnext⟩

end Machine

end MatchingEngine
