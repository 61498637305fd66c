import MatchingEngine.Logger

/-!
# Progress of the logger

Two measures say how far the logger is from its aims. Before the finish signal, and while the
ring buffer holds an entry, each of its steps brings it closer to the next pop. After the finish
signal, and while nothing more is logged, each of its steps brings it closer to its exit. No step
of another thread takes it away from either aim.

This needs an enabled sink. With none, the logger stays at the head of its loop forever, so that
a full ring buffer stays full, and a shutdown never returns.
-/

namespace MatchingEngine

namespace Logger

open RingBufferMPMC

variable {ι : Type*} {s t : Logger ι} {sinks : LogSinks} {capacity : ℕ}

/-- How many steps the logger takes until it exits, after the finish signal and with nothing to pop. -/
def rank (s : Logger ι) : ℕ :=
  match s.run with
  | .head => 4
  | .count last => if last then 1 else 3
  | .pop last => (if last then 0 else 2) + if s.buffer.calls none = some .pop then 0 else 3
  | .write last _ => if last then 2 else 4
  | .isFinishing => 2
  | .exited => 0

/-- How many steps the logger takes until it exits, after the finish signal. -/
def remaining [Fintype ι] (s : Logger ι) : ℕ := 4 * s.outstanding + s.rank

/-- How many steps the logger takes until it has popped, before the finish signal and with an entry to pop. -/
def distance (s : Logger ι) : ℕ :=
  match s.run with
  | .head => 3
  | .count _ => 2
  | .pop _ => if s.buffer.calls none = some .pop then 1 else 4
  | .write _ _ => 3
  | .isFinishing => 4
  | .exited => 0

/-- The other threads do not take the logger away from its exit. -/
theorem Interferes.rank (h : s.Interferes t) : t.rank = s.rank := by
  rw [Logger.rank, Logger.rank, h.run, h.own]

/-- The other threads do not take the logger away from its next pop. -/
theorem Interferes.distance (h : s.Interferes t) : t.distance = s.distance := by
  rw [Logger.distance, Logger.distance, h.run, h.own]

section Steps

variable [Fintype ι] [DecidableEq ι]

/-- The logger can take a step until it has left its loop. -/
theorem Consistent.exists_runStep (h : s.Consistent capacity) (sinks : LogSinks) :
    s.run = .exited ∨ ∃ woken, s.runStep sinks woken ≠ none := by
  have hpops := h.pops
  unfold Pops at hpops
  cases hrun : s.run with
  | head => exact Or.inr ⟨none, by simp [runStep, hrun]⟩
  | count last =>
    simp only [hrun] at hpops
    by_cases hcount : 0 < s.buffer.ring.count
    · exact Or.inr ⟨none, by simp [runStep, hrun, hcount, SharedBuffer.call, hpops]⟩
    · exact Or.inr ⟨none, by simp [runStep, hrun, hcount]⟩
  | pop last =>
    simp only [hrun] at hpops
    obtain ⟨hown, _⟩ | ⟨log, hown⟩ := hpops
    · exact Or.inr ⟨none, by simp [runStep, hrun, hown, SharedBuffer.lock]⟩
    · obtain ⟨woken, buffer, hbuffer⟩ := s.buffer.exists_notifyOne CallState.waitsNotFull fun waiting hwaiting =>
        SharedBuffer.wake_ne_none (by rw [hwaiting, Bool.or_true])
      exact Or.inr ⟨woken, by simp [runStep, hrun, hown, SharedBuffer.notify, hbuffer]⟩
  | write last log => exact Or.inr ⟨none, by simp [runStep, hrun]⟩
  | isFinishing => exact Or.inr ⟨none, by simp [runStep, hrun]⟩
  | exited => exact Or.inl rfl

/-- Before the finish signal the logger can take a step. -/
theorem Consistent.runStep_ne_none (h : s.Consistent capacity) (hfinishing : s.finishing = false) (sinks : LogSinks) :
    ∃ woken, s.runStep sinks woken ≠ none := by
  refine (h.exists_runStep sinks).resolve_left fun hrun => ?_
  have hlast := h.finishing (by rw [hrun]; rfl)
  rw [hfinishing] at hlast
  cases hlast

/-- The logger leaves the finish signal as it is, and what it has popped stays popped. -/
theorem Consistent.runStep_records (h : s.Consistent capacity) {woken : Option (Option ι)}
    (hnext : s.runStep sinks woken = some t) :
    t.finishing = s.finishing ∧ s.buffer.pops.length ≤ t.buffer.pops.length := by
  obtain ⟨_, rfl⟩ | ⟨_, _, _, rfl⟩ | ⟨_, _, _, rfl⟩ | ⟨_, _, _, _, _, _, hpops, _, rfl⟩ |
    ⟨_, _, _, _, hown, hnotify, rfl⟩ | ⟨_, _, _, rfl⟩ | ⟨_, rfl⟩ := h.run_cases hnext
  · split
    · exact ⟨rfl, Nat.le_refl _⟩
    · exact ⟨rfl, Nat.le_refl _⟩
  · exact ⟨rfl, Nat.le_refl _⟩
  · exact ⟨rfl, Nat.le_refl _⟩
  · refine ⟨rfl, ?_⟩
    rw [hpops, List.length_append]
    exact Nat.le_add_right ..
  · obtain ⟨_, hsame, _⟩ := h.notifyOwn hown hnotify
    exact ⟨rfl, (congrArg List.length hsame).ge⟩
  · exact ⟨rfl, Nat.le_refl _⟩
  · exact ⟨rfl, Nat.le_refl _⟩

/-- After the finish signal each step brings the logger closer to its exit. -/
theorem Consistent.remaining_lt (h : s.Consistent capacity) (henabled : sinks.enabled = true)
    (hfinishing : s.finishing = true) {woken : Option (Option ι)} (hnext : s.runStep sinks woken = some t) :
    t.remaining < s.remaining := by
  have hpops := h.pops
  unfold Pops at hpops
  obtain ⟨hrun, rfl⟩ | ⟨last, hrun, hcount, rfl⟩ | ⟨last, hrun, _, rfl⟩ |
    ⟨last, log, buffer, hrun, hown, hcount, _, hcalls, rfl⟩ | ⟨last, log, buffer, hrun, hown, hnotify, rfl⟩ |
    ⟨last, log, hrun, rfl⟩ | ⟨hrun, rfl⟩ := h.run_cases hnext
  · simp only [henabled, if_true, remaining, outstanding, rank, hrun, Bool.false_eq_true, if_false]
    omega
  · simp only [hrun] at hpops
    have hsame : ({ s with buffer := s.buffer.setCall none (some .pop) } : Logger ι).outstanding = s.outstanding :=
      outstanding_setCall rfl (by rw [hpops]; rfl)
    simp only [remaining, rank, hrun, SharedBuffer.setCall_calls, Function.update_self, if_true]
    simp only [outstanding] at hsame ⊢
    rw [hsame]
    cases last <;> simp
  · simp only [remaining, outstanding, rank, hrun]
    cases last <;> simp
  · have htally := tally_update pushing s.buffer.calls none (some (.popNotify log))
    rw [← hcalls, hown] at htally
    simp only [pushing] at htally
    simp only [remaining, outstanding, rank, hrun, hown, hcalls, Function.update_self, if_true]
    rw [← hcalls]
    simp only [Option.some.injEq, reduceCtorEq, if_false]
    omega
  · obtain ⟨_, _, _, _, hsame⟩ := h.notifyOwn hown hnotify
    simp only [remaining, rank, hrun, hown, Option.some.injEq, reduceCtorEq, if_false]
    simp only [outstanding] at hsame ⊢
    rw [hsame]
    cases last <;> simp
  · simp only [remaining, outstanding, rank, hrun]
    cases last <;> simp
  · simp only [hfinishing, if_true, remaining, outstanding, rank, hrun]
    omega

/-- Before the finish signal and with an entry to pop, each step of the logger pops, or brings it closer to that. -/
theorem Consistent.distance_lt (h : s.Consistent capacity) (henabled : sinks.enabled = true)
    (hfinishing : s.finishing = false) (hcount : 0 < s.buffer.ring.count) {woken : Option (Option ι)}
    (hnext : s.runStep sinks woken = some t) :
    t.buffer.pops.length = s.buffer.pops.length + 1 ∨
      t.buffer.pops = s.buffer.pops ∧ t.buffer.ring.count = s.buffer.ring.count ∧ t.distance < s.distance := by
  obtain ⟨hrun, rfl⟩ | ⟨last, hrun, _, rfl⟩ | ⟨last, hrun, hempty, rfl⟩ |
    ⟨last, log, buffer, hrun, hown, _, hpops, _, rfl⟩ | ⟨last, log, buffer, hrun, hown, hnotify, rfl⟩ |
    ⟨last, log, hrun, rfl⟩ | ⟨hrun, rfl⟩ := h.run_cases hnext
  · refine Or.inr ?_
    simp only [henabled, if_true, distance, hrun, true_and]
    decide
  · refine Or.inr ⟨rfl, rfl, ?_⟩
    simp only [distance, hrun, SharedBuffer.setCall_calls, Function.update_self, if_true]
    decide
  · exact absurd hempty hcount.ne'
  · refine Or.inl ?_
    rw [hpops, List.length_append, List.length_singleton]
  · obtain ⟨hring, hsame, _, _, _⟩ := h.notifyOwn hown hnotify
    refine Or.inr ⟨hsame, by rw [hring], ?_⟩
    simp only [distance, hrun, hown, Option.some.injEq, reduceCtorEq, if_false]
    decide
  · refine Or.inr ⟨rfl, rfl, ?_⟩
    simp only [distance, hrun]
    decide
  · refine Or.inr ⟨rfl, rfl, ?_⟩
    simp only [hfinishing, distance, hrun, Bool.false_eq_true, if_false]
    decide

/-- After the finish signal, and while nothing more is logged, no step takes the logger away from its exit. -/
theorem Consistent.remaining_next (h : s.Consistent capacity) (henabled : sinks.enabled = true)
    (hfinishing : s.finishing = true) {label : Label ι} (hlog : label.isLog = false)
    (hnext : Logger.next sinks label s = some t) :
    t.finishing = true ∧ t.remaining + label.isRun.toNat ≤ s.remaining := by
  cases hlabel : label.isRun with
  | false =>
    obtain ⟨hinterferes, houtstanding⟩ := h.interferes hlabel hnext
    refine ⟨hinterferes.finishing hfinishing, ?_⟩
    rw [remaining, remaining, hinterferes.rank, houtstanding hlog]
    exact Nat.le_refl _
  | true =>
    cases label with
    | run woken => exact ⟨(h.runStep_records hnext).1.trans hfinishing, h.remaining_lt henabled hfinishing hnext⟩
    | _ => cases hlabel

/-- The finish signal is set, or the logger has popped more than `n` entries. -/
def PoppedMore (n : ℕ) (s : Logger ι) : Prop := s.finishing = true ∨ n < s.buffer.pops.length

/-- The logger has popped `n` entries and has another one to pop, if nothing has happened since. -/
def Awaits (n : ℕ) (s : Logger ι) : Prop := s.PoppedMore n ∨ s.buffer.pops.length = n ∧ 0 < s.buffer.ring.count

/-- No step takes back a pop or the finish signal. -/
theorem Consistent.poppedMore_next (h : s.Consistent capacity) {n : ℕ} (hpopped : s.PoppedMore n) {label : Label ι}
    (hnext : Logger.next sinks label s = some t) : t.PoppedMore n := by
  cases hlabel : label.isRun with
  | false =>
    obtain ⟨hinterferes, _⟩ := h.interferes hlabel hnext
    exact hpopped.imp hinterferes.finishing fun hlt => hinterferes.pops ▸ hlt
  | true =>
    cases label with
    | run woken =>
      obtain ⟨hfinishing, hpops⟩ := h.runStep_records hnext
      exact hpopped.imp hfinishing.trans hpops.trans_lt'
    | _ => cases hlabel

/-- Before the next pop and the finish signal, no step takes the logger away from the pop. -/
theorem Consistent.distance_next (h : s.Consistent capacity) (henabled : sinks.enabled = true) {n : ℕ}
    (hawaits : s.Awaits n) {label : Label ι} (hnext : Logger.next sinks label s = some t) :
    t.Awaits n ∧ (t.PoppedMore n ∨ t.distance + label.isRun.toNat ≤ s.distance) := by
  obtain hpopped | ⟨hpops, hcount⟩ := hawaits
  · have hkept := h.poppedMore_next hpopped hnext
    exact ⟨Or.inl hkept, Or.inl hkept⟩
  · cases hlabel : label.isRun with
    | false =>
      obtain ⟨hinterferes, _⟩ := h.interferes hlabel hnext
      refine ⟨Or.inr ⟨by rw [hinterferes.pops, hpops], hcount.trans_le hinterferes.count⟩, Or.inr ?_⟩
      rw [hinterferes.distance]
      exact Nat.le_refl _
    | true =>
      cases label with
      | run woken =>
        cases hfinishing : s.finishing with
        | true =>
          have hkept : t.PoppedMore n := Or.inl ((h.runStep_records hnext).1.trans hfinishing)
          exact ⟨Or.inl hkept, Or.inl hkept⟩
        | false =>
          obtain hlength | ⟨hsame, hring, hlt⟩ := h.distance_lt henabled hfinishing hcount hnext
          · have hkept : t.PoppedMore n := Or.inr (by omega)
            exact ⟨Or.inl hkept, Or.inl hkept⟩
          · exact ⟨Or.inr ⟨by rw [hsame, hpops], hring ▸ hcount⟩, Or.inr hlt⟩
      | _ => cases hlabel

/-- Before the finish signal the logger can take any number of steps. -/
theorem Consistent.exists_run (h : s.Consistent capacity) (hfinishing : s.finishing = false) (sinks : LogSinks) (n : ℕ) :
    ∃ labels t, (logger ι sinks capacity).run labels s = some t ∧ t.finishing = false ∧
      labels.countP Label.isRun = n := by
  induction n generalizing s with
  | zero => exact ⟨[], s, rfl, hfinishing, rfl⟩
  | succ n ih =>
    obtain ⟨woken, hwoken⟩ := h.runStep_ne_none hfinishing sinks
    obtain ⟨u, hu⟩ := Option.ne_none_iff_exists'.mp hwoken
    have hnext : Logger.next sinks (.run woken) s = some u := hu
    obtain ⟨labels, t, hrun, ht, hcount⟩ := ih (h.next hnext) ((h.runStep_records hu).1.trans hfinishing)
    refine ⟨.run woken :: labels, t, ?_, ht, ?_⟩
    · rw [Machine.run]
      exact Option.bind_eq_some_iff.mpr ⟨u, hnext, hrun⟩
    · rw [List.countP_cons_of_pos rfl, hcount]

/-- A caller of `log` waits for a slot of the full ring buffer. -/
def Blocked (s : Logger ι) : Prop :=
  s.buffer.ring.count = s.buffer.ring.capacity ∧
    ∃ thread, (s.buffer.calls (some thread)).any CallState.waitsNotFull = true

/-- Whatever the threads do before the finish signal, the logger does not pop any more. -/
def Stuck (sinks : LogSinks) (capacity : ℕ) (s : Logger ι) : Prop :=
  ∀ labels t, (logger ι sinks capacity).run labels s = some t → t.finishing = false → t.buffer.pops = s.buffer.pops

/-- Whatever the threads do before the finish signal, the logger can take its next step, and it pops within a bounded
number of its steps. -/
def PopsSoon (sinks : LogSinks) (capacity : ℕ) (s : Logger ι) : Prop :=
  ∃ bound, ∀ labels t, (logger ι sinks capacity).run labels s = some t → t.finishing = false →
    (∃ woken, t.runStep sinks woken ≠ none) ∧
      (s.buffer.pops.length < t.buffer.pops.length ∨ labels.countP Label.isRun ≤ bound)

/-- If nothing more is logged, whatever the threads do, the logger can take its next step or has left its loop, and it
takes no more than a bounded number of steps. -/
def Exits (sinks : LogSinks) (capacity : ℕ) (s : Logger ι) : Prop :=
  ∃ bound, ∀ labels t, (∀ label ∈ labels, label.isLog = false) → (logger ι sinks capacity).run labels s = some t →
    labels.countP Label.isRun ≤ bound ∧ (t.run = .exited ∨ ∃ woken, t.runStep sinks woken ≠ none)

/-- With a sink enabled the logger pops soon from a ring buffer that is not empty. -/
theorem Consistent.popsSoon (h : s.Consistent capacity) (henabled : sinks.enabled = true)
    (hcount : 0 < s.buffer.ring.count) : s.PopsSoon sinks capacity := by
  refine ⟨s.distance, fun labels t hrun hfinishing => ?_⟩
  have hstep : ∀ (label : Label ι) (u v : Logger ι), u.Consistent capacity ∧ u.Awaits s.buffer.pops.length → true = true →
      Logger.next sinks label u = some v → (v.Consistent capacity ∧ v.Awaits s.buffer.pops.length) ∧
        (u.PoppedMore s.buffer.pops.length → v.PoppedMore s.buffer.pops.length) ∧
        (v.PoppedMore s.buffer.pops.length ∨ v.distance + label.isRun.toNat ≤ u.distance) := by
    intro label u v hu _ hnext
    obtain ⟨hawaits, hdistance⟩ := hu.1.distance_next henabled hu.2 hnext
    exact ⟨⟨hu.1.next hnext, hawaits⟩, fun hpopped => hu.1.poppedMore_next hpopped hnext, hdistance⟩
  obtain ⟨⟨ht, _⟩, _, hbound⟩ := Machine.run_selected_le (M := logger ι sinks capacity) hstep
    (fun _ _ => rfl) ⟨h, Or.inr ⟨rfl, hcount⟩⟩ hrun
  refine ⟨ht.runStep_ne_none hfinishing sinks, hbound.imp (fun hpopped => ?_) fun hle => ?_⟩
  · refine hpopped.resolve_left fun heq => ?_
    rw [hfinishing] at heq
    cases heq
  · exact (Nat.le_add_left ..).trans hle

/-- A logger that pops soon is not stuck. -/
theorem Consistent.not_stuck (h : s.Consistent capacity) (hfinishing : s.finishing = false)
    (hsoon : s.PopsSoon sinks capacity) : ¬ s.Stuck sinks capacity := by
  intro hstuck
  obtain ⟨bound, hbound⟩ := hsoon
  obtain ⟨labels, t, hrun, ht, hcount⟩ := h.exists_run hfinishing sinks (bound + 1)
  obtain ⟨_, hlt | hle⟩ := hbound labels t hrun ht
  · rw [hstuck labels t hrun ht] at hlt
    exact Nat.lt_irrefl _ hlt
  · omega

/-- With a sink enabled the logger exits after the finish signal. -/
theorem Consistent.exits (h : s.Consistent capacity) (henabled : sinks.enabled = true) (hfinishing : s.finishing = true) :
    s.Exits sinks capacity := by
  refine ⟨s.remaining, fun labels t hlabels hrun => ?_⟩
  have hstep : ∀ (label : Label ι) (u v : Logger ι), u.Consistent capacity ∧ u.finishing = true → (!Label.isLog label) = true →
      Logger.next sinks label u = some v → (v.Consistent capacity ∧ v.finishing = true) ∧
        (False → False) ∧ (False ∨ v.remaining + label.isRun.toNat ≤ u.remaining) := by
    intro label u v hu hlog hnext
    obtain ⟨hv, hremaining⟩ := hu.1.remaining_next henabled hu.2 (by simpa using hlog) hnext
    exact ⟨⟨hu.1.next hnext, hv⟩, id, Or.inr hremaining⟩
  obtain ⟨⟨ht, _⟩, _, hbound⟩ := Machine.run_selected_le (M := logger ι sinks capacity) hstep
    (fun label hlabel => by rw [hlabels label hlabel]; rfl) ⟨h, hfinishing⟩ hrun
  exact ⟨(Nat.le_add_left ..).trans (hbound.resolve_left id), ht.exists_runStep sinks⟩

/-- With no sink enabled the logger stays at the head of its loop. -/
theorem idle_of_reachable (hdisabled : sinks.enabled = false) (h : (logger ι sinks capacity).Reachable s) :
    s.run = .head ∧ s.buffer.pops = [] := by
  refine (h.invariant (I := fun s : Logger ι => s.Consistent capacity ∧ s.run = .head ∧ s.buffer.pops = [])
    ⟨.initial, rfl, rfl⟩ fun label s t _ hs _ hnext => ⟨hs.1.next hnext, ?_⟩).2
  obtain ⟨hconsistent, hrun, hpops⟩ := hs
  cases hlabel : label.isRun with
  | false =>
    obtain ⟨hinterferes, _⟩ := hconsistent.interferes hlabel hnext
    exact ⟨hinterferes.run.trans hrun, hinterferes.pops.trans hpops⟩
  | true =>
    cases label with
    | run woken =>
      have hstay : s.runStep sinks woken = some s := by simp [runStep, hrun, hdisabled]
      obtain rfl := Option.some.inj (hstay.symm.trans hnext)
      exact ⟨hrun, hpops⟩
    | _ => cases hlabel

/-- With no sink enabled the logger is stuck from the start. -/
theorem stuck_of_disabled (hdisabled : sinks.enabled = false) (h : (logger ι sinks capacity).Reachable s) :
    s.Stuck sinks capacity := by
  intro labels t hrun _
  rw [(idle_of_reachable hdisabled h).2, (idle_of_reachable hdisabled (h.run (fun _ _ _ => trivial) hrun)).2]

/-- With no sink enabled the logger never exits. -/
theorem not_exits_of_disabled (hdisabled : sinks.enabled = false) (h : (logger ι sinks capacity).Reachable s) :
    ¬ s.Exits sinks capacity := by
  rintro ⟨bound, hbound⟩
  have hstay : Logger.next sinks (.run none) s = some s := by
    simp [Logger.next, runStep, (idle_of_reachable hdisabled h).1, hdisabled]
  have hrun : ∀ n, (logger ι sinks capacity).run (List.replicate n (.run none)) s = some s := by
    intro n
    induction n with
    | zero => rfl
    | succ n ih =>
      rw [List.replicate_succ, Machine.run]
      exact Option.bind_eq_some_iff.mpr ⟨s, hstay, ih⟩
  obtain ⟨hle, _⟩ := hbound (List.replicate (bound + 1) (.run none)) s
    (fun label hlabel => List.eq_of_mem_replicate hlabel ▸ rfl) (hrun _)
  rw [List.countP_replicate] at hle
  simp only [Label.isRun, if_true] at hle
  omega

/-- One thread can fill the ring buffer with its entries, one call after the other. -/
theorem exists_filled (sinks : LogSinks) (thread : ι) (entry : LogEntry) {n : ℕ} (hle : n ≤ capacity) :
    ∃ s, (logger ι sinks capacity).Reachable s ∧ s.finishing = false ∧ s.buffer.calls = (fun _ => none) ∧
      s.buffer.ring.count = n := by
  induction n with
  | zero => exact ⟨_, .start, rfl, rfl, rfl⟩
  | succ n ih =>
    obtain ⟨s, hs, hfinishing, hcalls, hcount⟩ := ih (Nat.le_of_succ_le hle)
    have hspace : s.buffer.ring.count ≠ s.buffer.ring.capacity := by
      rw [(consistent_of_reachable hs).fifo.sized, hcount]
      omega
    obtain ⟨called, locked, returned, hcall, hlock, hnotify, hidle, hmore⟩ :=
      SharedBuffer.exists_push hcalls hspace (some thread) entry
    have hlogs : (logger ι sinks capacity).run [.log thread entry, .lock thread, .notify thread none] s =
        some { s with buffer := returned } := by
      simp only [Machine.run, logger, Logger.next, hcall, hlock, hnotify, Option.map_some, Option.bind_some]
    exact ⟨_, hs.run (fun _ _ _ => trivial) hlogs, hfinishing, hidle, hmore.trans (congrArg Nat.succ hcount)⟩

/-- A caller of `log` can come to wait for a slot, as every ring buffer gets full. -/
theorem exists_blocked (sinks : LogSinks) (capacity : ℕ) (thread : ι) (entry : LogEntry) :
    ∃ s, (logger ι sinks capacity).Reachable s ∧ s.finishing = false ∧ s.Blocked := by
  obtain ⟨s, hs, hfinishing, hcalls, hcount⟩ := exists_filled sinks thread entry (Nat.le_refl capacity)
  have hfull : s.buffer.ring.count = s.buffer.ring.capacity := by rw [(consistent_of_reachable hs).fifo.sized, hcount]
  obtain ⟨called, locked, hcall, hlock, hwaits, hring⟩ := SharedBuffer.exists_wait hcalls hfull (some thread) entry
  have hlogs : (logger ι sinks capacity).run [.log thread entry, .lock thread] s = some { s with buffer := locked } := by
    simp only [Machine.run, logger, Logger.next, hcall, hlock, Option.map_some, Option.bind_some]
  refine ⟨_, hs.run (fun _ _ _ => trivial) hlogs, hfinishing, ?_, thread, ?_⟩
  · rw [hring]
    exact hfull
  · rw [hwaits]
    rfl

/-- For any number of threads and every buffer size, the logger cannot get stuck while a caller of `log` waits for a slot of
the full ring buffer, and exits after the finish signal, if and only if one of the sinks is enabled. Then the logger pops
within a bounded number of its steps while a caller waits. -/
theorem never_stops_iff [Nonempty ι] (hcapacity : 0 < capacity) :
    ((∀ s, (logger ι sinks capacity).Reachable s → s.finishing = false → s.Blocked → ¬ s.Stuck sinks capacity) ↔
      sinks.enabled = true) ∧
    ((∀ s, (logger ι sinks capacity).Reachable s → s.finishing = true → s.Exits sinks capacity) ↔
      sinks.enabled = true) ∧
    (sinks.enabled = true → ∀ s, (logger ι sinks capacity).Reachable s → s.finishing = false → s.Blocked →
      s.PopsSoon sinks capacity) := by
  have hsoon : sinks.enabled = true → ∀ s, (logger ι sinks capacity).Reachable s → s.Blocked →
      s.PopsSoon sinks capacity := by
    intro henabled s hs hblocked
    have hconsistent := consistent_of_reachable hs
    refine hconsistent.popsSoon henabled ?_
    rw [hblocked.1, hconsistent.fifo.sized]
    exact hcapacity
  refine ⟨⟨fun hnever => ?_, fun henabled s hs hfinishing hblocked => ?_⟩,
    ⟨fun hexits => ?_, fun henabled s hs hfinishing => ?_⟩, fun henabled s hs _ hblocked => hsoon henabled s hs hblocked⟩
  · by_contra hdisabled
    rw [Bool.not_eq_true] at hdisabled
    obtain ⟨s, hs, hfinishing, hblocked⟩ := exists_blocked sinks capacity (Classical.arbitrary ι) ⟨.info, "", "", false⟩
    exact hnever s hs hfinishing hblocked (stuck_of_disabled hdisabled hs)
  · exact (consistent_of_reachable hs).not_stuck hfinishing (hsoon henabled s hs hblocked)
  · by_contra hdisabled
    rw [Bool.not_eq_true] at hdisabled
    have hfinish : (logger ι sinks capacity).run [.finish] (logger ι sinks capacity).start =
        some { Logger.initial ι capacity with finishing := true } := rfl
    have hreachable := Machine.reachable_of_run hfinish
    exact not_exits_of_disabled hdisabled hreachable (hexits _ hreachable rfl)
  · exact (consistent_of_reachable hs).exits henabled hfinishing

end Steps

/-- With only the console enabled, a thread waits for a slot, and the logger pops soon. -/
theorem never_stops_iff_console : ∃ s : Logger Unit, (logger Unit ⟨false, true⟩ 1).Reachable s ∧ s.finishing = false ∧
    s.Blocked ∧ s.PopsSoon ⟨false, true⟩ 1 := by
  obtain ⟨s, hs, hfinishing, hblocked⟩ := exists_blocked ⟨false, true⟩ 1 () ⟨.info, "", "", false⟩
  exact ⟨s, hs, hfinishing, hblocked, (never_stops_iff (by decide)).2.2 rfl s hs hfinishing hblocked⟩

/-- With neither sink enabled, the second call of `log` waits for the only slot, and the logger is stuck; and a shutdown does
not end. -/
theorem disabled_stops :
    (∃ s : Logger Unit, (logger Unit ⟨false, false⟩ 1).Reachable s ∧ s.finishing = false ∧ s.Blocked ∧
      s.Stuck ⟨false, false⟩ 1) ∧
    ∃ s : Logger Unit, (logger Unit ⟨false, false⟩ 1).Reachable s ∧ s.finishing = true ∧ ¬ s.Exits ⟨false, false⟩ 1 := by
  have hrun : ((logger Unit ⟨false, false⟩ 1).run
      [.log () ⟨.info, "", "", false⟩, .lock (), .notify () none, .log () ⟨.info, "", "", false⟩, .lock ()]
      (logger Unit ⟨false, false⟩ 1).start).any (fun s => s.finishing == false &&
        (s.buffer.ring.count == s.buffer.ring.capacity && (s.buffer.calls (some ())).any CallState.waitsNotFull)) =
      true := by
    decide
  have hfinish : ((logger Unit ⟨false, false⟩ 1).run [.finish] (logger Unit ⟨false, false⟩ 1).start).any
      (·.finishing == true) = true := by
    decide
  obtain ⟨s, hs, htest⟩ := Machine.exists_reachable_of_run hrun
  obtain ⟨hfinishing, hfull, hwaits⟩ := (Bool.and_eq_true_iff.mp htest).imp_right Bool.and_eq_true_iff.mp
  obtain ⟨t, ht, hfinished⟩ := Machine.exists_reachable_of_run hfinish
  exact ⟨⟨s, hs, eq_of_beq hfinishing, ⟨eq_of_beq hfull, (), hwaits⟩, stuck_of_disabled rfl hs⟩,
    t, ht, eq_of_beq hfinished, not_exits_of_disabled rfl ht⟩

end Logger

end MatchingEngine
