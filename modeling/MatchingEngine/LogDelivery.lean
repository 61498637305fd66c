import MatchingEngine.LoggerProgress

/-!
# Delivery of the log

What the logger has popped it has written, apart from the entry that it has in hand. The console and
the file therefore show the entries in the order of their pushes, and none of them twice.

The logger counts the entries once more after it has seen the finish signal, and leaves its loop when
it finds none: an entry pushed before the signal has been written by then. Here the flags of the sinks
may be switched at any time, as long as one of them is set.
-/

namespace MatchingEngine

namespace SharedBuffer

open RingBufferMPMC

variable {ι T : Type*} [DecidableEq T] {s t : SharedBuffer ι T} {thread : ι}

/-- The value is the one of a call of `push` that has not stored it yet. -/
def unpushed (value : T) : Option (CallState T) → ℕ
  | some (.push data) | some (.pushWaiting data) => if data = value then 1 else 0
  | none | some .pushNotify | some .pop | some .popWaiting | some (.popNotify _) => 0

variable [Fintype ι]

/-- How often `push` was called with the value: the stored ones and those still to be stored. -/
def called (value : T) (s : SharedBuffer ι T) : ℕ := s.pushes.count value + tally (unpushed value) s.calls

variable [DecidableEq ι] (value : T)

/-- A call goes on. -/
theorem called_setCall (s : SharedBuffer ι T) (thread : ι) (call : Option (CallState T)) :
    (s.setCall thread call).called value + unpushed value (s.calls thread) = s.called value + unpushed value call := by
  have htally := tally_update (unpushed value) s.calls thread call
  simp only [called, setCall_calls]
  simp only [setCall]
  omega

/-- Waking up does not change what a thread is to push. -/
theorem called_wake (hwake : s.wake thread = some t) : t.called value = s.called value := by
  obtain ⟨state', hbind, rfl⟩ := Option.map_eq_some_iff.mp hwake
  obtain ⟨state, hcall, hstate⟩ := Option.bind_eq_some_iff.mp hbind
  have hset := called_setCall value s thread (some state')
  rw [hcall] at hset
  cases state with
  | pushWaiting data =>
    obtain rfl := Option.some.inj hstate
    exact Nat.add_right_cancel hset
  | popWaiting =>
    obtain rfl := Option.some.inj hstate
    exact hset
  | push => cases hstate
  | pushNotify => cases hstate
  | pop => cases hstate
  | popNotify => cases hstate

/-- An idle thread calls. -/
theorem called_call {state : CallState T} (hcall : s.call thread state = some t) :
    t.called value = s.called value + unpushed value (some state) := by
  unfold SharedBuffer.call at hcall
  split at hcall
  · rename_i hidle
    obtain rfl := Option.some.inj hcall
    have hset := called_setCall value s thread (some state)
    rwa [hidle] at hset
  · cases hcall

/-- A critical section stores what its call is to push. -/
theorem called_lock (hlock : s.lock thread = some t) : t.called value = s.called value := by
  obtain ⟨data, hcall, ⟨_, rfl⟩ | ⟨_, rfl⟩⟩ | ⟨hcall, ⟨_, rfl⟩ | ⟨_, rfl⟩⟩ := lock_cases hlock
  · have htally := tally_update (unpushed value) s.calls thread (some .pushNotify)
    rw [hcall] at htally
    simp only [called, setCall_calls]
    simp only [setCall, List.count_append, List.count_singleton, beq_iff_eq]
    simp only [unpushed] at htally
    omega
  · have hset := called_setCall value s thread (some (.pushWaiting data))
    rw [hcall] at hset
    exact Nat.add_right_cancel hset
  · have hset := called_setCall value s thread (some (.popNotify (s.ring.buffer s.ring.front)))
    rw [hcall] at hset
    exact hset
  · have hset := called_setCall value s thread (some .popWaiting)
    rw [hcall] at hset
    exact hset

omit [DecidableEq T] in
/-- A notification does not concern a thread that does not wait. -/
theorem notifyOne_own {waits : CallState T → Bool} {woken : Option ι} (hone : s.notifyOne waits woken = some t)
    {state : CallState T} (hcall : s.calls thread = some state) (hstate : state.wake = none) :
    t.calls thread = some state := by
  obtain ⟨other, _, _, _, hwake⟩ | ⟨rfl, _⟩ := notifyOne_cases hone
  · obtain ⟨state', hbind, rfl⟩ := Option.map_eq_some_iff.mp hwake
    by_cases heq : thread = other
    · subst heq
      rw [hcall, Option.bind_some, hstate] at hbind
      cases hbind
    · rw [setCall_calls, Function.update_of_ne heq, hcall]
  · exact hcall

/-- A value is counted from its call on. -/
theorem called_next {label : Label ι T} (hnext : SharedBuffer.next label s = some t) :
    t.called value = s.called value + label.pushed.count value := by
  cases label with
  | push thread data =>
    rw [called_call value hnext, Label.pushed, List.count_singleton]
    simp [unpushed]
  | pop thread => exact called_call value hnext
  | lock thread => exact called_lock value hnext
  | notify thread woken =>
    obtain ⟨notifying, waits, u, hcall, hnotified, hone, rfl⟩ := notify_cases hnext
    have hsame : u.called value = s.called value := by
      obtain ⟨_, _, _, _, hwake⟩ | ⟨rfl, _⟩ := notifyOne_cases hone
      · exact called_wake value hwake
      · rfl
    have hset := called_setCall value u thread none
    cases notifying with
    | pushNotify =>
      rw [notifyOne_own hone hcall rfl, hsame] at hset
      exact hset
    | popNotify result =>
      rw [notifyOne_own hone hcall rfl, hsame] at hset
      exact hset
    | push => cases hnotified
    | pushWaiting => cases hnotified
    | pop => cases hnotified
    | popWaiting => cases hnotified
  | wake thread => exact called_wake value hnext

omit [DecidableEq T] in
/-- What was pushed stays pushed. -/
theorem next_pushes {label : Label ι T} (hnext : SharedBuffer.next label s = some t) : s.pushes <+: t.pushes := by
  by_cases hlabel : ∃ thread, label = .lock thread
  · obtain ⟨thread, rfl⟩ := hlabel
    obtain ⟨data, _, ⟨_, rfl⟩ | ⟨_, rfl⟩⟩ | ⟨_, ⟨_, rfl⟩ | ⟨_, rfl⟩⟩ := lock_cases hnext
    · exact List.prefix_append ..
    · exact List.prefix_refl _
    · exact List.prefix_refl _
    · exact List.prefix_refl _
  · rw [(next_records (fun thread heq => hlabel ⟨thread, heq⟩) hnext).2.1]

end SharedBuffer

namespace Logger

open RingBufferMPMC

variable {ι : Type*} {s t : Logger ι} {sinks : LogSinks} {capacity : ℕ} {console file : Bool} {entries : List (Option LogEntry)}

/-- The entry that was popped and is not written yet. -/
def inFlight (s : Logger ι) : List (Option LogEntry) :=
  match s.run, s.buffer.calls none with
  | .pop _, some (.popNotify log) => [log]
  | .write _ log, _ => [log]
  | _, _ => []

/-- How many entries were written. -/
def written (s : Logger ι) : ℕ := s.buffer.pops.length - s.inFlight.length

/-- The entry is for the file as well. -/
def toFile (log : Option LogEntry) : Bool := log.any (·.consoleOnly == false)

/-- The entries popped, apart from the one in flight, are on each sink that was always enabled, and no others are on any
sink. -/
structure Outputs (console file : Bool) (s : Logger ι) (entries : List (Option LogEntry)) : Prop where
  pops : s.buffer.pops = entries ++ s.inFlight
  console : console = true → s.console = entries
  file : file = true → s.file = entries.filter toFile
  onlyConsole : s.console.Sublist entries
  onlyFile : s.file.Sublist (entries.filter toFile)

/-- How many steps the logger takes until it has written the next entry, if there is one. -/
def toWrite (s : Logger ι) : ℕ :=
  match s.run with
  | .head => 5
  | .count _ => 4
  | .pop _ => if s.buffer.calls none = some .pop then 3 else 2
  | .write _ _ => 1
  | .isFinishing => 6
  | .exited => 0

/-- How many steps the logger takes, at most, until it has written a number of entries. -/
def away (n : ℕ) (s : Logger ι) : ℕ := 6 * (n - s.written) + s.toWrite

/-- As many entries were written as there are. -/
theorem Outputs.written_eq (h : s.Outputs console file entries) : s.written = entries.length := by
  rw [written, h.pops, List.length_append, Nat.add_sub_cancel]

/-- A popped entry is in flight before it is written. -/
theorem Outputs.keep (h : s.Outputs console file entries) (hconsole : t.console = s.console) (hfile : t.file = s.file)
    (popped : List (Option LogEntry)) (hpops : t.buffer.pops = s.buffer.pops ++ popped)
    (hflight : t.inFlight = s.inFlight ++ popped) : t.Outputs console file entries where
  pops := by rw [hpops, h.pops, hflight, List.append_assoc]
  console hall := hconsole.trans (h.console hall)
  file hall := hfile.trans (h.file hall)
  onlyConsole := hconsole ▸ h.onlyConsole
  onlyFile := hfile ▸ h.onlyFile

/-- Nothing changes for the sinks that stay enabled. -/
theorem Outputs.mono (h : s.Outputs console file entries) (more many : Bool) :
    s.Outputs (console && more) (file && many) entries where
  pops := h.pops
  console hall := h.console (Bool.and_eq_true_iff.mp hall).1
  file hall := h.file (Bool.and_eq_true_iff.mp hall).1
  onlyConsole := h.onlyConsole
  onlyFile := h.onlyFile

/-- Write the entry in flight. -/
theorem Outputs.write (h : s.Outputs console file entries) {last : Bool} {log : Option LogEntry} (hrun : s.run = .write last log)
    (sinks : LogSinks) :
    ({ s with
      run := .count last
      console := if sinks.consoleOutputEnabled then s.console ++ [log] else s.console
      file := if sinks.fileLoggingEnabled && toFile log then s.file ++ [log] else s.file } : Logger ι).Outputs
        (console && sinks.consoleOutputEnabled) (file && sinks.fileLoggingEnabled) (entries ++ [log]) where
  pops := by
    have hflight : s.inFlight = [log] := by simp only [inFlight, hrun]
    have hpops := h.pops
    rw [hflight] at hpops
    exact hpops.trans (List.append_nil _).symm
  console hall := by
    obtain ⟨hbefore, hnow⟩ := Bool.and_eq_true_iff.mp hall
    rw [if_pos hnow, h.console hbefore]
  file hall := by
    obtain ⟨hbefore, hnow⟩ := Bool.and_eq_true_iff.mp hall
    rw [hnow, Bool.true_and, List.filter_append, List.filter_singleton, h.file hbefore]
    cases toFile log with
    | true => rfl
    | false => exact (List.append_nil _).symm
  onlyConsole := by
    change (if sinks.consoleOutputEnabled then s.console ++ [log] else s.console).Sublist _
    split
    · exact h.onlyConsole.append (List.Sublist.refl _)
    · exact h.onlyConsole.trans (List.sublist_append_left ..)
  onlyFile := by
    change (if sinks.fileLoggingEnabled && toFile log then s.file ++ [log] else s.file).Sublist _
    rw [List.filter_append]
    split
    · rename_i hwrites
      have hfile := (Bool.and_eq_true_iff.mp hwrites).2
      rw [List.filter_cons_of_pos hfile]
      exact h.onlyFile.append (List.Sublist.refl _)
    · exact h.onlyFile.trans (List.sublist_append_left ..)

/-- Where the logger finds no entry, it has written all that were pushed. -/
theorem Consistent.written_of_empty (h : s.Consistent capacity) (hcount : s.buffer.ring.count = 0) (hflight : s.inFlight = []) :
    s.written = s.buffer.pushes.length := by
  have hfifo := h.fifo.count
  rw [written, hflight, List.length_nil]
  omega

section Steps

variable [Fintype ι] [DecidableEq ι]

/-- Other threads write nothing. -/
theorem next_outputs {label : Label ι} (hlabel : label.isRun = false) (hnext : Logger.next sinks label s = some t) :
    t.console = s.console ∧ t.file = s.file := by
  cases label with
  | log =>
    obtain ⟨_, _, rfl⟩ := Option.map_eq_some_iff.mp hnext
    exact ⟨rfl, rfl⟩
  | lock =>
    obtain ⟨_, _, rfl⟩ := Option.map_eq_some_iff.mp hnext
    exact ⟨rfl, rfl⟩
  | notify =>
    obtain ⟨_, _, rfl⟩ := Option.map_eq_some_iff.mp hnext
    exact ⟨rfl, rfl⟩
  | wake =>
    obtain ⟨_, _, rfl⟩ := Option.map_eq_some_iff.mp hnext
    exact ⟨rfl, rfl⟩
  | finish =>
    obtain rfl := Option.some.inj hnext
    exact ⟨rfl, rfl⟩
  | run => cases hlabel

/-- Each step keeps what was written, and writes at most the entry in flight. -/
theorem Consistent.outputs_next (h : s.Consistent capacity) (houtputs : s.Outputs console file entries) {label : Label ι}
    (hnext : Logger.next sinks label s = some t) :
    ∃ later, t.Outputs (console && sinks.consoleOutputEnabled) (file && sinks.fileLoggingEnabled) (entries ++ later) := by
  suffices hsteps : t.Outputs console file entries ∨
      ∃ log, t.Outputs (console && sinks.consoleOutputEnabled) (file && sinks.fileLoggingEnabled) (entries ++ [log]) by
    obtain hkept | ⟨log, hwritten⟩ := hsteps
    · exact ⟨[], by rw [List.append_nil]; exact hkept.mono ..⟩
    · exact ⟨[log], hwritten⟩
  cases hlabel : label.isRun with
  | false =>
    obtain ⟨hinterferes, _⟩ := h.interferes hlabel hnext
    obtain ⟨hconsole, hfile⟩ := next_outputs hlabel hnext
    refine Or.inl (houtputs.keep hconsole hfile [] ?_ ?_)
    · rw [hinterferes.pops, List.append_nil]
    · rw [inFlight, inFlight, hinterferes.run, hinterferes.own, List.append_nil]
  | true =>
    cases label with
    | run woken =>
      have hpops := h.pops
      unfold Pops at hpops
      obtain ⟨hrun, rfl⟩ | ⟨last, hrun, _, rfl⟩ | ⟨last, hrun, _, rfl⟩ | ⟨last, log, buffer, hrun, hown, _, hmore, hcalls, rfl⟩ |
        ⟨last, log, buffer, hrun, hown, hnotify, rfl⟩ | ⟨last, log, hrun, rfl⟩ | ⟨hrun, rfl⟩ := h.run_cases hnext
      · split
        · exact Or.inl (houtputs.keep rfl rfl [] (List.append_nil _).symm (by simp [inFlight, hrun]))
        · exact Or.inl houtputs
      · exact Or.inl (houtputs.keep rfl rfl [] (List.append_nil _).symm (by simp [inFlight, hrun]))
      · refine Or.inl (houtputs.keep rfl rfl [] (List.append_nil _).symm ?_)
        cases last <;> simp [inFlight, hrun]
      · exact Or.inl (houtputs.keep rfl rfl [log] hmore (by simp [inFlight, hrun, hown, hcalls]))
      · obtain ⟨_, hsame, _⟩ := h.notifyOwn hown hnotify
        refine Or.inl (houtputs.keep rfl rfl [] ?_ (by simp [inFlight, hrun, hown]))
        rw [List.append_nil]
        exact hsame
      · exact Or.inr ⟨log, houtputs.write hrun sinks⟩
      · refine Or.inl (houtputs.keep rfl rfl [] (List.append_nil _).symm ?_)
        cases s.finishing <;> simp [inFlight, hrun]
    | _ => cases hlabel

/-- Of a number of entries that were pushed, each step of the logger writes one, or brings it closer to that. -/
theorem Consistent.away_lt (h : s.Consistent capacity) (houtputs : s.Outputs console file entries)
    (henabled : sinks.enabled = true) {n : ℕ} (hn : n ≤ s.buffer.pushes.length) {woken : Option (Option ι)}
    (hnext : s.runStep sinks woken = some t) :
    (t.run = .exited → n ≤ t.written) ∧ (n ≤ t.written ∨ t.away n < s.away n) := by
  have hlength := congrArg List.length houtputs.pops
  rw [List.length_append] at hlength
  obtain ⟨hrun, rfl⟩ | ⟨last, hrun, _, rfl⟩ | ⟨last, hrun, hcount, rfl⟩ |
    ⟨last, log, buffer, hrun, hown, _, hmore, hcalls, rfl⟩ | ⟨last, log, buffer, hrun, hown, hnotify, rfl⟩ |
    ⟨last, log, hrun, rfl⟩ | ⟨hrun, rfl⟩ := h.run_cases hnext
  · simp [henabled, away, toWrite, written, inFlight, hrun]
  · simp [away, toWrite, written, inFlight, hrun, SharedBuffer.setCall]
  · -- No entry is left, so all that were pushed are written.
    have hflight : s.inFlight = [] := by simp [inFlight, hrun]
    have hwritten : n ≤ ({ s with run := if last then .exited else .isFinishing } : Logger ι).written := by
      have hall := h.written_of_empty hcount hflight
      rw [written, hflight] at hall
      cases last <;> simp [written, inFlight] at hall ⊢ <;> omega
    exact ⟨fun _ => hwritten, Or.inl hwritten⟩
  · have hpops := congrArg List.length hmore
    simp only [List.length_append, List.length_singleton] at hpops
    simp [away, toWrite, written, inFlight, hrun, hown, hcalls, hpops]
  · obtain ⟨_, hsame, _⟩ := h.notifyOwn hown hnotify
    simp [away, toWrite, written, inFlight, hrun, hown, hsame]
  · simp only [inFlight, hrun, List.length_singleton] at hlength
    simp [away, toWrite, written, inFlight, hrun]
    omega
  · cases s.finishing <;> simp [away, toWrite, written, inFlight, hrun]

/-- The first entries are pushed, and written when the logger has left its loop. -/
structure Delivering (n capacity : ℕ) (s : Logger ι) : Prop where
  consistent : s.Consistent capacity
  pushed : n ≤ s.buffer.pushes.length
  outputs : ∃ entries, s.Outputs false false entries
  exited : s.run = .exited → n ≤ s.written

/-- No step takes the logger away from having written the first entries. -/
theorem Delivering.next {n : ℕ} (h : s.Delivering n capacity) (henabled : sinks.enabled = true) {label : Label ι}
    (hnext : Logger.next sinks label s = some t) :
    t.Delivering n capacity ∧ (n ≤ s.written → n ≤ t.written) ∧
      (n ≤ t.written ∨ t.away n + label.isRun.toNat ≤ s.away n) := by
  obtain ⟨entries, houtputs⟩ := h.outputs
  obtain ⟨later, hlater⟩ := h.consistent.outputs_next houtputs hnext
  have hgrows : n ≤ s.written → n ≤ t.written := by
    rw [houtputs.written_eq, hlater.written_eq, List.length_append]
    omega
  have hpushed : n ≤ t.buffer.pushes.length := by
    refine h.pushed.trans ?_
    obtain ⟨heq, _⟩ | ⟨step, hstep, _⟩ := next_buffer hnext
    · rw [heq]
    · exact (SharedBuffer.next_pushes hstep).length_le
  suffices hstep : (t.run = .exited → n ≤ t.written) ∧ (n ≤ t.written ∨ t.away n + label.isRun.toNat ≤ s.away n) from
    ⟨⟨h.consistent.next hnext, hpushed, ⟨_, hlater⟩, hstep.1⟩, hgrows, hstep.2⟩
  cases hlabel : label.isRun with
  | false =>
    obtain ⟨hinterferes, _⟩ := h.consistent.interferes hlabel hnext
    have hwritten : t.written = s.written := by
      rw [written, written, inFlight, inFlight, hinterferes.run, hinterferes.own, hinterferes.pops]
    refine ⟨fun hexited => hgrows (h.exited (hinterferes.run ▸ hexited)), Or.inr ?_⟩
    rw [away, away, hwritten, toWrite, toWrite, hinterferes.run, hinterferes.own]
    exact Nat.le_refl _
  | true =>
    cases label with
    | run woken => exact h.consistent.away_lt houtputs henabled h.pushed hnext
    | _ => cases hlabel

end Steps

end Logger

/-- The logger and the threads that log, where each step goes with the flags of the sinks at its time. -/
def switchedLogger (ι : Type*) [Fintype ι] [DecidableEq ι] (capacity : ℕ) :
    Machine (Logger ι) (LogSinks × Logger.Label ι) where
  start := .initial ι capacity
  next label := Logger.next label.1 label.2

namespace Logger

variable {ι : Type*} [Fintype ι] [DecidableEq ι] {s t : Logger ι} {capacity : ℕ} {console file : Bool}
  {entries : List (Option LogEntry)} {labels : List (LogSinks × Label ι)}

/-- The console was enabled in every step. -/
def consoleAlways (labels : List (LogSinks × Label ι)) : Bool := labels.all fun label => label.1.consoleOutputEnabled

/-- Logging to the file was enabled in every step. -/
def fileAlways (labels : List (LogSinks × Label ι)) : Bool := labels.all fun label => label.1.fileLoggingEnabled

/-- The entries that `log` was called with. -/
def logged (labels : List (LogSinks × Label ι)) : List LogEntry := labels.flatMap fun label => label.2.logged

/-- The steps of a logger with fixed sinks are some of these. -/
theorem run_of_fixed (sinks : LogSinks) {steps : List (Label ι)} (hrun : (logger ι sinks capacity).run steps s = some t) :
    (switchedLogger ι capacity).run (steps.map fun label => (sinks, label)) s = some t := by
  induction steps generalizing s with
  | nil => exact hrun
  | cons label steps ih =>
    obtain ⟨u, hu, hrest⟩ := Option.bind_eq_some_iff.mp hrun
    exact Option.bind_eq_some_iff.mpr ⟨u, hu, ih hrest⟩

/-- What a run writes and pushes. -/
theorem Consistent.run_outputs (h : s.Consistent capacity) (houtputs : s.Outputs console file entries)
    (hrun : (switchedLogger ι capacity).run labels s = some t) :
    t.Consistent capacity ∧ s.buffer.pushes <+: t.buffer.pushes ∧
      (∀ entry, t.buffer.called entry = s.buffer.called entry + (logged labels).count entry) ∧
      ∃ later, t.Outputs (console && consoleAlways labels) (file && fileAlways labels) (entries ++ later) := by
  induction labels generalizing s console file entries with
  | nil =>
    obtain rfl := Option.some.inj hrun
    exact ⟨h, List.prefix_refl _, fun _ => rfl, [], by simpa [consoleAlways, fileAlways] using houtputs⟩
  | cons label labels ih =>
    obtain ⟨u, hu, hrest⟩ := Option.bind_eq_some_iff.mp hrun
    have hnext : Logger.next label.1 label.2 s = some u := hu
    obtain ⟨later, hlater⟩ := h.outputs_next houtputs hnext
    have hbuffer : s.buffer.pushes <+: u.buffer.pushes ∧
        ∀ entry, u.buffer.called entry = s.buffer.called entry + label.2.logged.count entry := by
      obtain ⟨heq, hnothing⟩ | ⟨step, hstep, hpushed⟩ := next_buffer hnext
      · rw [heq, hnothing]
        exact ⟨List.prefix_refl _, fun _ => rfl⟩
      · exact ⟨SharedBuffer.next_pushes hstep, fun entry => hpushed ▸ SharedBuffer.called_next entry hstep⟩
    obtain ⟨ht, hpushes, hcalled, more, hmore⟩ := ih (h.next hnext) hlater hrest
    refine ⟨ht, hbuffer.1.trans hpushes, fun entry => ?_, later ++ more, ?_⟩
    · have hlogged : logged (label :: labels) = label.2.logged ++ logged labels := List.flatMap_cons
      rw [hcalled, hbuffer.2, hlogged, List.count_append, Nat.add_assoc]
    · simpa [consoleAlways, fileAlways, Bool.and_assoc] using hmore

omit [Fintype ι] [DecidableEq ι] in
/-- What was written are the entries pushed first. -/
theorem Outputs.exists_prefix (h : s.Outputs console file entries) (hfifo : s.buffer.Fifo capacity) :
    ∃ front, front <+: s.buffer.pushes ∧ entries = front.map some ∧ front.length = s.written := by
  have hprefix : entries <+: (s.buffer.pushes.take s.buffer.pops.length).map some :=
    hfifo.popped ▸ ⟨s.inFlight, h.pops.symm⟩
  have hentries := List.prefix_iff_eq_take.mp hprefix
  rw [← List.map_take] at hentries
  refine ⟨_, (List.take_prefix ..).trans (List.take_prefix ..), hentries, ?_⟩
  rw [h.written_eq, ← List.length_map (f := some), ← hentries]

/-- For every buffer size, any number of threads and every interleaving, also with changes of the flags: each call of `log`
pushes its entry once, or is still to push it; the logger never waits in `pop`; and what was written are the entries pushed
first, in the order of the pushes, on the console if it was always enabled, and in the file if that was always enabled and
the entry is not for the console only. While a sink is enabled, the logger can take a step or has left its loop; and after a
number of its own steps, or when it has left its loop, the entries pushed before the finish signal are among those
written. -/
theorem log_delivery (hrun : (switchedLogger ι capacity).run labels (switchedLogger ι capacity).start = some s) :
    (∀ entry, (logged labels).count entry =
        s.buffer.pushes.count entry + tally (SharedBuffer.unpushed entry) s.buffer.calls) ∧
      s.buffer.calls none ≠ some .popWaiting ∧
      (∃ entries, entries <+: s.buffer.pushes ∧
        s.Outputs (consoleAlways labels) (fileAlways labels) (entries.map some)) ∧
      (s.finishing = false → ∃ bound, ∀ more t, (∀ label ∈ more, label.1.enabled = true) →
        (switchedLogger ι capacity).run more s = some t →
        (t.run = .exited ∨ ∀ sinks, ∃ woken, t.runStep sinks woken ≠ none) ∧
          (t.run = .exited ∨ bound < more.countP (fun label => label.2.isRun) →
            ∃ entries, s.buffer.pushes <+: entries ∧ entries <+: t.buffer.pushes ∧
              t.Outputs (consoleAlways (labels ++ more)) (fileAlways (labels ++ more)) (entries.map some))) := by
  have hstart : (Logger.initial ι capacity).Outputs true true [] :=
    ⟨rfl, fun _ => rfl, fun _ => rfl, List.Sublist.refl _, List.Sublist.refl _⟩
  obtain ⟨hconsistent, _, hcalled, written, houtputs⟩ := Consistent.initial.run_outputs hstart hrun
  rw [Bool.true_and, Bool.true_and, List.nil_append] at houtputs
  obtain ⟨front, hfront, hwritten, _⟩ := houtputs.exists_prefix hconsistent.fifo
  refine ⟨fun entry => ?_, fun hwaits => ?_, ⟨front, hfront, hwritten ▸ houtputs⟩, fun hfinishing => ?_⟩
  · have hcount := hcalled entry
    have hidle : tally (SharedBuffer.unpushed entry) (Logger.initial ι capacity).buffer.calls = 0 := tally_eq_zero fun _ => rfl
    have hzero : (Logger.initial ι capacity).buffer.called entry = 0 := by
      rw [SharedBuffer.called, hidle]
      rfl
    rw [hzero, Nat.zero_add] at hcount
    exact hcount.symm
  · cases (hconsistent.own_not_waiting hwaits).2
  · have hdelivering : s.Delivering s.buffer.pushes.length capacity := by
      refine ⟨hconsistent, Nat.le_refl _, ⟨written, ?_⟩, fun hexited => ?_⟩
      · simpa using houtputs.mono false false
      · have hlast := hconsistent.finishing (by rw [hexited]; rfl)
        rw [hfinishing] at hlast
        cases hlast
    refine ⟨s.away s.buffer.pushes.length, fun more t hmore hrunMore => ?_⟩
    obtain ⟨ht, _, hbound⟩ := Machine.run_selected_le (M := switchedLogger ι capacity)
      (fun label u v (hu : u.Delivering s.buffer.pushes.length capacity) (henabled : label.1.enabled = true) hnext =>
        hu.next henabled hnext) hmore hdelivering hrunMore
    refine ⟨?_, fun hreached => ?_⟩
    · by_cases hexited : t.run = .exited
      · exact Or.inl hexited
      · exact Or.inr fun sinks => (ht.consistent.exists_runStep sinks).resolve_left hexited
    · have hall : s.buffer.pushes.length ≤ t.written := by
        rcases hreached with hexited | hmany
        · exact ht.exited hexited
        · refine hbound.resolve_right fun hle => ?_
          omega
      obtain ⟨_, hpushes, _, later, hlater⟩ := hconsistent.run_outputs houtputs hrunMore
      obtain ⟨entries, hentries, hmap, hlength⟩ := hlater.exists_prefix ht.consistent.fifo
      refine ⟨entries, List.prefix_of_prefix_length_le hpushes hentries (hlength ▸ hall), hentries, ?_⟩
      rw [← hmap]
      simpa [consoleAlways, fileAlways] using hlater

/-- A thread waits for the only slot until the entry of the other thread was popped; both entries are written before the
logger sees the finish signal and exits. -/
theorem log_delivery_two_threads :
    ∃ s : Logger Bool, (switchedLogger Bool 1).Reachable s ∧ s.run = .exited ∧
      s.console = [some ⟨.info, "A", "first", false⟩, some ⟨.error, "B", "second", true⟩] ∧
      s.file = [some ⟨.info, "A", "first", false⟩] ∧ s.buffer.calls none ≠ some .popWaiting := by
  have hrun : ∃ s : Logger Bool, (logger Bool ⟨true, true⟩ 1).run
      [.log true ⟨.info, "A", "first", false⟩, .log false ⟨.error, "B", "second", true⟩, .lock true, .lock false,
        .notify true none, .run none, .run none, .run none, .run (some (some false)), .lock false, .notify false none,
        .run none, .run none, .finish, .run none, .run none, .run none, .run none, .run none, .run none]
      (logger Bool ⟨true, true⟩ 1).start = some s ∧ s.run = .exited ∧
      s.console = [some ⟨.info, "A", "first", false⟩, some ⟨.error, "B", "second", true⟩] ∧
      s.file = [some ⟨.info, "A", "first", false⟩] := ⟨_, rfl, rfl, rfl, rfl⟩
  obtain ⟨s, hrun, hexited, hconsole, hfile⟩ := hrun
  have hswitched := run_of_fixed ⟨true, true⟩ hrun
  exact ⟨s, Machine.reachable_of_run hswitched, hexited, hconsole, hfile, (log_delivery hswitched).2.1⟩

end Logger

end MatchingEngine
