import MatchingEngine.Foundation.Machine

/-!
# Progress under fairness

A thread comes closer to a goal when there is a measure that its steps decrease and no other step
increases. A replay then reaches the goal before the thread has taken as many steps as the measure
says.

An execution of a machine goes on forever. It is fair to a thread when the thread, as long as it can
take a step, takes one at some time. A fair execution reaches the goal.
-/

namespace MatchingEngine

namespace Machine

variable {σ ℓ : Type*} {M : Machine σ ℓ} {I goal : σ → Prop} {selected : ℓ → Bool} {measure : σ → ℕ}

/-- Under an invariant, no step leaves the goal, and before the goal no step increases the measure, which the selected
steps decrease. -/
def Approaches (M : Machine σ ℓ) (I goal : σ → Prop) (selected : ℓ → Bool) (measure : σ → ℕ) : Prop :=
  ∀ label s t, I s → M.next label s = some t →
    I t ∧ (goal s → goal t) ∧ (goal t ∨ measure t + (selected label).toNat ≤ measure s)

/-- A replay reaches the goal or makes at most as many selected steps as the measure says. -/
theorem Approaches.run (h : M.Approaches I goal selected measure) {labels : List ℓ} {s t : σ} (hs : I s)
    (hrun : M.run labels s = some t) : I t ∧ (goal t ∨ measure t + labels.countP selected ≤ measure s) := by
  obtain ⟨ht, _, hbound⟩ := run_selected_le (fun label s t hs (_ : true = true) hnext => h label s t hs hnext)
    (fun _ _ => rfl) hs hrun
  exact ⟨ht, hbound⟩

/-- Infinitely many steps. -/
structure Execution (M : Machine σ ℓ) where
  state : ℕ → σ
  label : ℕ → ℓ
  step : ∀ n, M.next (label n) (state n) = some (state (n + 1))

namespace Execution

variable (e : M.Execution)

/-- If from some time on a selected step is always possible, then one is taken. -/
def FairTo (selected : ℓ → Bool) : Prop :=
  ∀ n, (∀ m, n ≤ m → ∃ label, selected label = true ∧ (M.next label (e.state m)).isSome = true) →
    ∃ m, n ≤ m ∧ selected (e.label m) = true

variable {e}

/-- What every step preserves holds from then on. -/
theorem invariant (hstep : ∀ label s t, I s → M.next label s = some t → I t) {n m : ℕ} (hn : I (e.state n)) (hm : n ≤ m) :
    I (e.state m) := by
  induction m, hm using Nat.le_induction with
  | base => exact hn
  | succ m _ ih => exact hstep _ _ _ ih (e.step m)

/-- A rule that names a possible step wherever an invariant holds makes an execution from every such state. -/
def ofPolicy (choose : σ → ℓ) (henabled : ∀ s, I s → (M.next (choose s) s).isSome = true)
    (hstep : ∀ s t, I s → M.next (choose s) s = some t → I t) (s : σ) (hs : I s) : M.Execution :=
  let advance (s : {s // I s}) : {s // I s} :=
    ⟨(M.next (choose s) s).get (henabled s s.2), hstep s _ s.2 (Option.some_get _).symm⟩
  { state n := (advance^[n] ⟨s, hs⟩).1
    label n := choose (advance^[n] ⟨s, hs⟩).1
    step n := by rw [Function.iterate_succ_apply', Option.some_get] }

/-- The states of such an execution meet the invariant, and its steps are those that the rule names. -/
theorem ofPolicy_spec {choose : σ → ℓ} {henabled : ∀ s, I s → (M.next (choose s) s).isSome = true}
    {hstep : ∀ s t, I s → M.next (choose s) s = some t → I t} {s : σ} {hs : I s} (n : ℕ) :
    I ((ofPolicy choose henabled hstep s hs).state n) ∧
      (ofPolicy choose henabled hstep s hs).label n = choose ((ofPolicy choose henabled hstep s hs).state n) :=
  ⟨Subtype.prop _, rfl⟩

/-- A step to where an execution starts. -/
def cons (label : ℓ) (s : σ) (e : M.Execution) (h : M.next label s = some (e.state 0)) : M.Execution where
  state
    | 0 => s
    | n + 1 => e.state n
  label
    | 0 => label
    | n + 1 => e.label n
  step
    | 0 => h
    | n + 1 => e.step n

/-- One step before it does not make an execution unfair. -/
theorem FairTo.cons {label : ℓ} {s : σ} {h : M.next label s = some (e.state 0)} (hfair : e.FairTo selected) :
    (Execution.cons label s e h).FairTo selected := by
  intro n henabled
  obtain ⟨m, hm, hselected⟩ := hfair n fun m hm => henabled (m + 1) (Nat.le_succ_of_le hm)
  exact ⟨m + 1, Nat.le_succ_of_le hm, hselected⟩

/-- An execution that starts in a state that runs reach stays in such states. -/
theorem reachable (e : M.Execution) (h : M.Reachable (e.state 0)) (n : ℕ) : M.Reachable (e.state n) := by
  induction n with
  | zero => exact h
  | succ n ih => exact ih.step trivial (e.step n)

/-- What only a selected step ends, with one always possible, is ended by one. -/
theorem exists_end (hfair : e.FairTo selected) {n : ℕ} (hn : I (e.state n))
    (hstays : ∀ m, n ≤ m → I (e.state m) → selected (e.label m) = false → I (e.state (m + 1)))
    (henabled : ∀ m, n ≤ m → I (e.state m) → ∃ label, selected label = true ∧ (M.next label (e.state m)).isSome = true) :
    ∃ m, n ≤ m ∧ I (e.state m) ∧ selected (e.label m) = true := by
  by_contra hnever
  have hI : ∀ m, n ≤ m → I (e.state m) := by
    intro m hm
    induction m, hm using Nat.le_induction with
    | base => exact hn
    | succ m hm ih =>
      have hlabel : ¬selected (e.label m) = true := fun hselected => hnever ⟨m, hm, ih, hselected⟩
      exact hstays m hm ih (by simpa using hlabel)
  obtain ⟨m, hm, hselected⟩ := hfair n fun m hm => henabled m hm (hI m hm)
  exact hnever ⟨m, hm, hI m hm, hselected⟩

/-- A goal is reached if, before it, a selected step is always possible and comes closer to it. -/
theorem eventually (hfair : e.FairTo selected) (happroaches : M.Approaches I goal selected measure)
    (henabled : ∀ s, I s → ¬goal s → ∃ label, selected label = true ∧ (M.next label s).isSome = true)
    {n : ℕ} (hn : I (e.state n)) : ∃ m, n ≤ m ∧ goal (e.state m) := by
  generalize hk : measure (e.state n) = k
  induction k using Nat.strong_induction_on generalizing n with
  | h k ih =>
    by_contra hnever
    have hnot : ∀ m, n ≤ m → ¬goal (e.state m) := fun m hm hgoal => hnever ⟨m, hm, hgoal⟩
    have hI : ∀ m, n ≤ m → I (e.state m) := fun m hm => invariant (fun l s t hs h => (happroaches l s t hs h).1) hn hm
    have hdecreases : ∀ m, n ≤ m →
        measure (e.state (m + 1)) + (selected (e.label m)).toNat ≤ measure (e.state m) := fun m hm =>
      (happroaches _ _ _ (hI m hm) (e.step m)).2.2.resolve_left (hnot (m + 1) (Nat.le_succ_of_le hm))
    have hle : ∀ m, n ≤ m → measure (e.state m) ≤ k := by
      intro m hm
      induction m, hm using Nat.le_induction with
      | base => exact hk.le
      | succ m hm ih => exact ((Nat.le_add_right ..).trans (hdecreases m hm)).trans ih
    obtain ⟨m, hm, hselected⟩ := hfair n fun m hm => henabled _ (hI m hm) (hnot m hm)
    have hlt : measure (e.state (m + 1)) < k := by
      have hstep := hdecreases m hm
      rw [hselected] at hstep
      exact hstep.trans (hle m hm)
    obtain ⟨p, hp, hgoal⟩ := ih _ hlt (hI (m + 1) (Nat.le_succ_of_le hm)) rfl
    exact hnot p (by omega) hgoal

end Execution

end Machine

end MatchingEngine
