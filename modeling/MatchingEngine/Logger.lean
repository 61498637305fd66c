import MatchingEngine.RingBufferMPMC

/-!
# The logger

Any thread logs by pushing an entry to the blocking ring buffer, and the thread of the logger
pops the entries and writes them, as long as one of the two sinks is enabled. The flags of the
sinks are fixed before the start.

With a sink enabled the logger always gets to the next entry, and after the finish signal it
leaves its loop within a number of own steps that the state bounds. With none enabled it never
pops and never looks for the finish signal.
-/

namespace MatchingEngine

/-- The level of an entry. -/
inductive LogLevel
  | info
  | warning
  | error
deriving DecidableEq

/-- An entry of the log. -/
structure LogEntry where
  logLevel : LogLevel
  sender : String
  message : String
  consoleOnly : Bool
deriving DecidableEq

/-- The configuration of the sinks. -/
structure LogSinks where
  fileLoggingEnabled : Bool
  consoleOutputEnabled : Bool

/-- The condition under which an iteration of `run` processes entries. -/
def LogSinks.enabled (sinks : LogSinks) : Bool := sinks.fileLoggingEnabled || sinks.consoleOutputEnabled

/-- The next step of `run`: at the head of its loop; in `processLogs`, which it calls again before it leaves the loop
(`last`); after `processLogs`; or it has left the loop. -/
inductive RunState
  | head
  | count (last : Bool)
  | pop (last : Bool)
  | write (last : Bool) (log : Option LogEntry)
  | isFinishing
  | exited

/-- The logger has seen the finish signal. -/
def RunState.last : RunState → Bool
  | head | isFinishing => false
  | count last | pop last | write last _ => last
  | exited => true

/-- The logger with the buffer, the thread of the logger being `none`; the finish signal; and what it has written. -/
structure Logger (ι : Type*) where
  buffer : SharedBuffer (Option ι) LogEntry
  run : RunState
  finishing : Bool
  console : List (Option LogEntry)
  file : List (Option LogEntry)

namespace Logger

open RingBufferMPMC

variable {ι : Type*} [Fintype ι] [DecidableEq ι]

/-- A thread calls `log` or takes a step of its call; a thread wakes up without a notification; the finish signal is set;
the logger takes a step, where a notification chooses a waiting thread. -/
inductive Label (ι : Type*)
  | log (thread : ι) (entry : LogEntry)
  | lock (thread : ι)
  | notify (thread : ι) (woken : Option (Option ι))
  | wake (thread : Option ι)
  | finish
  | run (woken : Option (Option ι))

/-- The step is one of the logger. -/
def Label.isRun {ι : Type*} : Label ι → Bool
  | run _ => true
  | log _ _ | lock _ | notify _ _ | wake _ | finish => false

/-- The step is a new call of `log`. -/
def Label.isLog {ι : Type*} : Label ι → Bool
  | log _ _ => true
  | lock _ | notify _ _ | wake _ | finish | run _ => false

/-- The entry that a step calls `log` with. -/
def Label.logged {ι : Type*} : Label ι → List LogEntry
  | log _ entry => [entry]
  | lock _ | notify _ _ | wake _ | finish | run _ => []

/-- Nothing was logged, and the logger starts. -/
def initial (ι : Type*) (capacity : ℕ) : Logger ι := ⟨.initial (Option ι) LogEntry capacity, .head, false, [], []⟩

/-- A step of `run`; it has none where its pop waits. -/
def runStep (sinks : LogSinks) (s : Logger ι) (woken : Option (Option ι)) : Option (Logger ι) :=
  match s.run with
  | .head => some (if sinks.enabled then { s with run := .count false } else s)
  | .count last =>
    if 0 < s.buffer.ring.count then
      (s.buffer.call none .pop).map fun buffer => { s with buffer := buffer, run := .pop last }
    else some { s with run := if last then .exited else .isFinishing }
  | .pop last =>
    match s.buffer.calls none with
    | some .pop => (s.buffer.lock none).map fun buffer => { s with buffer := buffer }
    | some (.popNotify log) => (s.buffer.notify none woken).map fun buffer =>
      { s with buffer := buffer, run := .write last log }
    | _ => none
  | .write last log => some { s with
      run := .count last
      console := if sinks.consoleOutputEnabled then s.console ++ [log] else s.console
      file := if sinks.fileLoggingEnabled && log.any (·.consoleOnly == false) then s.file ++ [log] else s.file }
  | .isFinishing => some { s with run := if s.finishing then .count true else .head }
  | .exited => none

/-- The steps of the threads. -/
def next (sinks : LogSinks) : Label ι → Logger ι → Option (Logger ι)
  | .log thread entry, s => (s.buffer.call (some thread) (.push entry)).map fun buffer => { s with buffer := buffer }
  | .lock thread, s => (s.buffer.lock (some thread)).map fun buffer => { s with buffer := buffer }
  | .notify thread woken, s => (s.buffer.notify (some thread) woken).map fun buffer => { s with buffer := buffer }
  | .wake thread, s => (s.buffer.wake thread).map fun buffer => { s with buffer := buffer }
  | .finish, s => some { s with finishing := true }
  | .run woken, s => s.runStep sinks woken

end Logger

/-- The logger and the threads that log. -/
def logger (ι : Type*) [Fintype ι] [DecidableEq ι] (sinks : LogSinks) (capacity : ℕ) :
    Machine (Logger ι) (Logger.Label ι) where
  start := .initial ι capacity
  next := Logger.next sinks

namespace Logger

open RingBufferMPMC

variable {ι : Type*} {s t : Logger ι} {sinks : LogSinks} {capacity : ℕ}

/-- A call of `push`. -/
def pushes : CallState LogEntry → Bool
  | .push _ | .pushWaiting _ | .pushNotify => true
  | .pop | .popWaiting | .popNotify _ => false

/-- What the step of the logger says about its call of `pop`, which never waits. -/
def Pops (s : Logger ι) : Prop :=
  match s.run with
  | .pop _ => s.buffer.calls none = some .pop ∧ 0 < s.buffer.ring.count ∨
      ∃ log, s.buffer.calls none = some (.popNotify log)
  | .head | .count _ | .write _ _ | .isFinishing | .exited => s.buffer.calls none = none

/-- The invariant of the logger: all other threads only push. -/
structure Consistent (s : Logger ι) (capacity : ℕ) : Prop where
  fifo : s.buffer.Fifo capacity
  callers : ∀ thread state, s.buffer.calls (some thread) = some state → pushes state = true
  pops : s.Pops
  finishing : s.run.last = true → s.finishing = true

/-- The calls of `log` whose entries are not in the buffer yet. -/
def pushing : Option (CallState LogEntry) → ℕ
  | some (.push _) | some (.pushWaiting _) => 1
  | none | some .pushNotify | some .pop | some .popWaiting | some (.popNotify _) => 0

/-- The entries that the logger has still to pop if nothing more is logged. -/
def outstanding [Fintype ι] (s : Logger ι) : ℕ := s.buffer.ring.count + tally pushing s.buffer.calls

/-- What a step of the other threads does to the logger. -/
structure Interferes (s t : Logger ι) : Prop where
  run : t.run = s.run
  finishing : s.finishing = true → t.finishing = true
  pops : t.buffer.pops = s.buffer.pops
  count : s.buffer.ring.count ≤ t.buffer.ring.count
  own : t.buffer.calls none = s.buffer.calls none
  callers : ∀ thread state, t.buffer.calls (some thread) = some state → pushes state = true

/-- Nothing is logged at the start. -/
theorem Consistent.initial : (initial ι capacity).Consistent capacity := by
  refine ⟨.initial, fun _ _ hcall => ?_, rfl, fun hlast => ?_⟩
  · cases hcall
  · cases hlast

/-- The logger never waits. -/
theorem Consistent.own_not_waiting (h : s.Consistent capacity) {state : CallState LogEntry}
    (hcall : s.buffer.calls none = some state) : state.waitsNotFull = false ∧ state.waitsNotEmpty = false := by
  have hpops := h.pops
  unfold Pops at hpops
  cases hrun : s.run with
  | pop last =>
    simp only [hrun] at hpops
    obtain ⟨hpop, _⟩ | ⟨log, hnotify⟩ := hpops
    · obtain rfl := Option.some.inj (hcall.symm.trans hpop)
      exact ⟨rfl, rfl⟩
    · obtain rfl := Option.some.inj (hcall.symm.trans hnotify)
      exact ⟨rfl, rfl⟩
  | head => simp [hrun, hcall] at hpops
  | count last => simp [hrun, hcall] at hpops
  | write last log => simp [hrun, hcall] at hpops
  | isFinishing => simp [hrun, hcall] at hpops
  | exited => simp [hrun, hcall] at hpops

/-- No thread waits for an element, and only callers of `log` wait for a slot. -/
theorem Consistent.waits (h : s.Consistent capacity) {thread : Option ι} {state : CallState LogEntry}
    (hcall : s.buffer.calls thread = some state) :
    state.waitsNotEmpty = false ∧ (state.waitsNotFull = true → ∃ caller entry, thread = some caller ∧
      state = .pushWaiting entry) := by
  cases thread with
  | none =>
    obtain ⟨hfull, hempty⟩ := h.own_not_waiting hcall
    refine ⟨hempty, fun hwaits => ?_⟩
    rw [hfull] at hwaits
    cases hwaits
  | some caller =>
    have hpushes := h.callers caller state hcall
    cases state with
    | pushWaiting entry => exact ⟨rfl, fun _ => ⟨caller, entry, rfl, rfl⟩⟩
    | push => exact ⟨rfl, fun hwaits => by cases hwaits⟩
    | pushNotify => exact ⟨rfl, fun hwaits => by cases hwaits⟩
    | pop => cases hpushes
    | popWaiting => cases hpushes
    | popNotify => cases hpushes

/-- What a step of the other threads leaves as it is suffices for the invariant. -/
theorem Interferes.consistent (hinterferes : s.Interferes t) (h : s.Consistent capacity)
    (hfifo : t.buffer.Fifo capacity) : t.Consistent capacity := by
  refine ⟨hfifo, hinterferes.callers, ?_, fun hlast => hinterferes.finishing (h.finishing ?_)⟩
  · have hpops := h.pops
    unfold Pops at hpops ⊢
    rw [hinterferes.run, hinterferes.own]
    cases hrun : s.run with
    | pop last =>
      simp only [hrun] at hpops ⊢
      exact hpops.imp_left fun hpop => ⟨hpop.1, hpop.2.trans_le hinterferes.count⟩
    | _ =>
      simp only [hrun] at hpops ⊢
      exact hpops
  · rwa [← hinterferes.run]

section Steps

variable [DecidableEq ι]

/-- The call of one of the other threads goes on or returns. -/
theorem Consistent.setCall (h : s.Consistent capacity) {thread : ι} {call : Option (CallState LogEntry)}
    {buffer : SharedBuffer (Option ι) LogEntry} (hpops : buffer.pops = s.buffer.pops)
    (hcount : s.buffer.ring.count ≤ buffer.ring.count)
    (hcalls : buffer.calls = Function.update s.buffer.calls (some thread) call)
    (hcall : ∀ state, call = some state → pushes state = true) : s.Interferes { s with buffer := buffer } := by
  refine ⟨rfl, id, hpops, hcount, ?_, fun other state hother => ?_⟩
  · simp only [hcalls]
    exact Function.update_of_ne (Option.some_ne_none thread).symm ..
  · simp only [hcalls] at hother
    by_cases heq : some other = some thread
    · rw [heq, Function.update_self] at hother
      exact hcall state hother
    · rw [Function.update_of_ne heq] at hother
      exact h.callers other state hother

variable [Fintype ι]

/-- A change of one call, and of the count by what this call has pushed, keeps the outstanding entries. -/
theorem outstanding_setCall {thread : Option ι} {call : Option (CallState LogEntry)}
    {buffer : SharedBuffer (Option ι) LogEntry}
    (hcalls : buffer.calls = Function.update s.buffer.calls thread call)
    (hcount : buffer.ring.count + pushing call = s.buffer.ring.count + pushing (s.buffer.calls thread)) :
    ({ s with buffer := buffer } : Logger ι).outstanding = s.outstanding := by
  have htally := tally_update pushing s.buffer.calls thread call
  rw [← hcalls] at htally
  simp only [outstanding]
  omega

/-- A caller of `log` wakes up. -/
theorem Consistent.wake (h : s.Consistent capacity) {thread : Option ι} {buffer : SharedBuffer (Option ι) LogEntry}
    (hwake : s.buffer.wake thread = some buffer) :
    s.Interferes { s with buffer := buffer } ∧ ({ s with buffer := buffer } : Logger ι).outstanding = s.outstanding := by
  obtain ⟨state', hbind, rfl⟩ := Option.map_eq_some_iff.mp hwake
  obtain ⟨state, hcall, hstate⟩ := Option.bind_eq_some_iff.mp hbind
  have hwaits := h.waits hcall
  cases state with
  | pushWaiting entry =>
    obtain ⟨caller, _, rfl, _⟩ := hwaits.2 rfl
    obtain rfl := Option.some.inj hstate
    refine ⟨h.setCall rfl (Nat.le_refl _) rfl fun _ hpush => ?_, outstanding_setCall rfl (by rw [hcall]; rfl)⟩
    exact Option.some.inj hpush ▸ rfl
  | popWaiting => cases hwaits.1
  | push => cases hstate
  | pushNotify => cases hstate
  | pop => cases hstate
  | popNotify => cases hstate

/-- A thread that has pushed finds no thread to notify. -/
theorem Consistent.notify (h : s.Consistent capacity) {thread : ι} {woken : Option (Option ι)}
    {buffer : SharedBuffer (Option ι) LogEntry} (hnotify : s.buffer.notify (some thread) woken = some buffer) :
    s.buffer.calls (some thread) = some .pushNotify ∧ buffer = s.buffer.setCall (some thread) none := by
  obtain ⟨notifying, waits, u, hcall, hnotified, hone, rfl⟩ := SharedBuffer.notify_cases hnotify
  have hpushes := h.callers thread notifying hcall
  cases notifying with
  | pushNotify =>
    cases hnotified
    obtain ⟨other, waiting, hother, hwaits, _⟩ | ⟨rfl, _⟩ := SharedBuffer.notifyOne_cases hone
    · rw [(h.waits hother).1] at hwaits
      cases hwaits
    · exact ⟨hcall, rfl⟩
  | popNotify => cases hpushes
  | _ => cases hnotified

/-- What the steps of the other threads do to the logger; only new calls of `log` add outstanding entries. -/
theorem Consistent.interferes (h : s.Consistent capacity) {label : Label ι} (hlabel : label.isRun = false)
    (hnext : next sinks label s = some t) :
    s.Interferes t ∧ (label.isLog = false → t.outstanding = s.outstanding) := by
  cases label with
  | log thread entry =>
    obtain ⟨buffer, hcall, rfl⟩ := Option.map_eq_some_iff.mp hnext
    unfold SharedBuffer.call at hcall
    split at hcall
    · obtain rfl := Option.some.inj hcall
      refine ⟨h.setCall rfl (Nat.le_refl _) rfl fun _ hpush => ?_, fun hlog => by cases hlog⟩
      exact Option.some.inj hpush ▸ rfl
    · cases hcall
  | lock thread =>
    obtain ⟨buffer, hlock, rfl⟩ := Option.map_eq_some_iff.mp hnext
    obtain ⟨entry, hcall, ⟨_, rfl⟩ | ⟨_, rfl⟩⟩ | ⟨hcall, _⟩ := SharedBuffer.lock_cases hlock
    · refine ⟨h.setCall rfl (Nat.le_succ _) rfl fun _ hpush => ?_, fun _ => outstanding_setCall rfl ?_⟩
      · exact Option.some.inj hpush ▸ rfl
      · rw [hcall]
        rfl
    · refine ⟨h.setCall rfl (Nat.le_refl _) rfl fun _ hpush => ?_, fun _ => outstanding_setCall rfl ?_⟩
      · exact Option.some.inj hpush ▸ rfl
      · rw [hcall]
        rfl
    · cases h.callers thread _ hcall
  | notify thread woken =>
    obtain ⟨buffer, hnotify, rfl⟩ := Option.map_eq_some_iff.mp hnext
    obtain ⟨hcall, rfl⟩ := h.notify hnotify
    refine ⟨h.setCall rfl (Nat.le_refl _) rfl fun _ hpush => (by cases hpush), fun _ => outstanding_setCall rfl ?_⟩
    rw [hcall]
    rfl
  | wake thread =>
    obtain ⟨buffer, hwake, rfl⟩ := Option.map_eq_some_iff.mp hnext
    obtain ⟨hinterferes, houtstanding⟩ := h.wake hwake
    exact ⟨hinterferes, fun _ => houtstanding⟩
  | finish =>
    obtain rfl := Option.some.inj hnext
    exact ⟨⟨rfl, fun _ => rfl, rfl, Nat.le_refl _, rfl, h.callers⟩, fun _ => rfl⟩
  | run => cases hlabel

/-- A notification by the logger at most lets callers of `log` go on. -/
theorem Consistent.notifyOwn (h : s.Consistent capacity) {log : Option LogEntry}
    (hown : s.buffer.calls none = some (.popNotify log)) {woken : Option (Option ι)}
    {buffer : SharedBuffer (Option ι) LogEntry} (hnotify : s.buffer.notify none woken = some buffer) :
    buffer.ring = s.buffer.ring ∧ buffer.pops = s.buffer.pops ∧ buffer.calls none = none ∧
      (∀ thread state, buffer.calls (some thread) = some state → pushes state = true) ∧
      ({ s with buffer := buffer } : Logger ι).outstanding = s.outstanding := by
  simp only [SharedBuffer.notify, hown, Option.map_eq_some_iff] at hnotify
  obtain ⟨woken', hone, rfl⟩ := hnotify
  have hreturned : ∀ between : Logger ι, between.buffer.calls none = some (.popNotify log) →
      ({ between with buffer := between.buffer.setCall none none } : Logger ι).outstanding = between.outstanding := by
    intro between hcall
    exact outstanding_setCall rfl (by rw [hcall]; rfl)
  have hcalled : ∀ between : SharedBuffer (Option ι) LogEntry, (between.setCall none none).calls none = none := by
    intro between
    rw [SharedBuffer.setCall_calls, Function.update_self]
  obtain ⟨other, waiting, hother, hwaits, hwake⟩ | ⟨rfl, _⟩ := SharedBuffer.notifyOne_cases hone
  · obtain ⟨hinterferes, houtstanding⟩ := h.wake hwake
    have hring : woken'.ring = s.buffer.ring := by
      obtain ⟨state, _, rfl⟩ := Option.map_eq_some_iff.mp hwake
      rfl
    refine ⟨hring, hinterferes.pops, hcalled woken', fun thread state hcall => ?_, ?_⟩
    · rw [SharedBuffer.setCall_calls, Function.update_of_ne (Option.some_ne_none thread)] at hcall
      exact hinterferes.callers thread state hcall
    · exact (hreturned { s with buffer := woken' } (hinterferes.own.trans hown)).trans houtstanding
  · refine ⟨rfl, rfl, hcalled s.buffer, fun thread state hcall => ?_, hreturned s hown⟩
    rw [SharedBuffer.setCall_calls, Function.update_of_ne (Option.some_ne_none thread)] at hcall
    exact h.callers thread state hcall

/-- Everything that a step of the logger can do. -/
theorem Consistent.run_cases (h : s.Consistent capacity) {woken : Option (Option ι)}
    (hnext : s.runStep sinks woken = some t) :
    (s.run = .head ∧ t = if sinks.enabled then { s with run := .count false } else s) ∨
    (∃ last, s.run = .count last ∧ 0 < s.buffer.ring.count ∧
      t = { s with buffer := s.buffer.setCall none (some .pop), run := .pop last }) ∨
    (∃ last, s.run = .count last ∧ s.buffer.ring.count = 0 ∧
      t = { s with run := if last then .exited else .isFinishing }) ∨
    (∃ last log buffer, s.run = .pop last ∧ s.buffer.calls none = some .pop ∧
      s.buffer.ring.count = buffer.ring.count + 1 ∧ buffer.pops = s.buffer.pops ++ [log] ∧
      buffer.calls = Function.update s.buffer.calls none (some (.popNotify log)) ∧ t = { s with buffer := buffer }) ∨
    (∃ last log buffer, s.run = .pop last ∧ s.buffer.calls none = some (.popNotify log) ∧
      s.buffer.notify none woken = some buffer ∧ t = { s with buffer := buffer, run := .write last log }) ∨
    (∃ last log, s.run = .write last log ∧ t = { s with
      run := .count last
      console := if sinks.consoleOutputEnabled then s.console ++ [log] else s.console
      file := if sinks.fileLoggingEnabled && log.any (·.consoleOnly == false) then s.file ++ [log] else s.file }) ∨
    s.run = .isFinishing ∧ t = { s with run := if s.finishing then .count true else .head } := by
  have hpops := h.pops
  unfold Pops at hpops
  unfold runStep at hnext
  cases hrun : s.run with
  | head =>
    simp only [hrun, Option.some.injEq] at hnext
    exact Or.inl ⟨rfl, hnext.symm⟩
  | count last =>
    simp only [hrun] at hpops hnext
    refine Or.inr ?_
    by_cases hcount : 0 < s.buffer.ring.count
    · simp only [hcount, if_true, SharedBuffer.call, hpops, Option.map_some, Option.some.injEq] at hnext
      exact Or.inl ⟨last, rfl, hcount, hnext.symm⟩
    · simp only [hcount, if_false, Option.some.injEq] at hnext
      exact Or.inr (Or.inl ⟨last, rfl, Nat.eq_zero_of_not_pos hcount, hnext.symm⟩)
  | pop last =>
    simp only [hrun] at hpops hnext
    refine Or.inr (Or.inr (Or.inr ?_))
    obtain ⟨hown, hcount⟩ | ⟨log, hown⟩ := hpops
    · simp only [hown, Option.map_eq_some_iff] at hnext
      obtain ⟨buffer, hlock, rfl⟩ := hnext
      obtain ⟨entry, hcall, _⟩ | ⟨_, ⟨_, rfl⟩ | ⟨hempty, _⟩⟩ := SharedBuffer.lock_cases hlock
      · rw [hown] at hcall
        cases hcall
      · exact Or.inl ⟨last, _, _, rfl, hown, (Nat.sub_add_cancel hcount).symm, rfl, rfl, rfl⟩
      · exact absurd hempty hcount.ne'
    · simp only [hown, Option.map_eq_some_iff] at hnext
      obtain ⟨buffer, hnotify, rfl⟩ := hnext
      exact Or.inr (Or.inl ⟨last, log, buffer, rfl, hown, hnotify, rfl⟩)
  | write last log =>
    simp only [hrun, Option.some.injEq] at hnext
    exact Or.inr (Or.inr (Or.inr (Or.inr (Or.inr (Or.inl ⟨last, log, rfl, hnext.symm⟩)))))
  | isFinishing =>
    simp only [hrun, Option.some.injEq] at hnext
    exact Or.inr (Or.inr (Or.inr (Or.inr (Or.inr (Or.inr ⟨rfl, hnext.symm⟩)))))
  | exited => simp [hrun] at hnext

/-- Each step makes at most one step of the buffer, which pushes what the step logs. -/
theorem next_buffer {label : Label ι} (hnext : next sinks label s = some t) :
    t.buffer = s.buffer ∧ label.logged = [] ∨
      ∃ step, SharedBuffer.next step s.buffer = some t.buffer ∧ step.pushed = label.logged := by
  cases label with
  | log thread entry =>
    obtain ⟨buffer, hbuffer, rfl⟩ := Option.map_eq_some_iff.mp hnext
    exact Or.inr ⟨.push (some thread) entry, hbuffer, rfl⟩
  | lock thread =>
    obtain ⟨buffer, hbuffer, rfl⟩ := Option.map_eq_some_iff.mp hnext
    exact Or.inr ⟨.lock (some thread), hbuffer, rfl⟩
  | notify thread woken =>
    obtain ⟨buffer, hbuffer, rfl⟩ := Option.map_eq_some_iff.mp hnext
    exact Or.inr ⟨.notify (some thread) woken, hbuffer, rfl⟩
  | wake thread =>
    obtain ⟨buffer, hbuffer, rfl⟩ := Option.map_eq_some_iff.mp hnext
    exact Or.inr ⟨.wake thread, hbuffer, rfl⟩
  | finish => exact Or.inl ⟨Option.some.inj hnext ▸ rfl, rfl⟩
  | run woken =>
    simp only [next, runStep] at hnext
    cases hrun : s.run with
    | head =>
      simp only [hrun, Option.some.injEq] at hnext
      split at hnext
      · exact Or.inl ⟨hnext ▸ rfl, rfl⟩
      · exact Or.inl ⟨hnext ▸ rfl, rfl⟩
    | count last =>
      simp only [hrun] at hnext
      split at hnext
      · obtain ⟨buffer, hbuffer, rfl⟩ := Option.map_eq_some_iff.mp hnext
        exact Or.inr ⟨.pop none, hbuffer, rfl⟩
      · exact Or.inl ⟨Option.some.inj hnext ▸ rfl, rfl⟩
    | pop last =>
      simp only [hrun] at hnext
      split at hnext
      · obtain ⟨buffer, hbuffer, rfl⟩ := Option.map_eq_some_iff.mp hnext
        exact Or.inr ⟨.lock none, hbuffer, rfl⟩
      · obtain ⟨buffer, hbuffer, rfl⟩ := Option.map_eq_some_iff.mp hnext
        exact Or.inr ⟨.notify none woken, hbuffer, rfl⟩
      · cases hnext
    | write last log =>
      simp only [hrun, Option.some.injEq] at hnext
      exact Or.inl ⟨hnext ▸ rfl, rfl⟩
    | isFinishing =>
      simp only [hrun, Option.some.injEq] at hnext
      exact Or.inl ⟨hnext ▸ rfl, rfl⟩
    | exited => simp [hrun] at hnext

/-- A step of the logger keeps the invariant. -/
theorem Consistent.run (h : s.Consistent capacity) {woken : Option (Option ι)} (hfifo : t.buffer.Fifo capacity)
    (hnext : s.runStep sinks woken = some t) : t.Consistent capacity := by
  have hpops := h.pops
  unfold Pops at hpops
  have hcallers : ∀ call thread state, Function.update s.buffer.calls none call (some thread) = some state →
      pushes state = true := by
    intro call thread state hcall
    rw [Function.update_of_ne (Option.some_ne_none thread)] at hcall
    exact h.callers thread state hcall
  obtain ⟨hrun, rfl⟩ | ⟨last, hrun, hcount, rfl⟩ | ⟨last, hrun, _, rfl⟩ | ⟨last, log, buffer, hrun, _, _, _, hcalls, rfl⟩ |
    ⟨last, log, buffer, hrun, hown, hnotify, rfl⟩ | ⟨last, log, hrun, rfl⟩ | ⟨hrun, rfl⟩ :=
    h.run_cases hnext
  · split
    · simp only [hrun] at hpops
      exact ⟨h.fifo, h.callers, hpops, fun hlast => by cases hlast⟩
    · exact h
  · refine ⟨hfifo, hcallers (some .pop), Or.inl ⟨?_, hcount⟩, fun hlast => h.finishing (by rw [hrun]; exact hlast)⟩
    rw [SharedBuffer.setCall_calls, Function.update_self]
  · simp only [hrun] at hpops
    cases last with
    | false => exact ⟨h.fifo, h.callers, hpops, fun hlast => by cases hlast⟩
    | true => exact ⟨h.fifo, h.callers, hpops, fun _ => h.finishing (by rw [hrun]; rfl)⟩
  · refine ⟨hfifo, fun thread state hcall => hcallers _ thread state (hcalls ▸ hcall), ?_, h.finishing⟩
    unfold Pops
    simp only [hrun, hcalls, Function.update_self]
    exact Or.inr ⟨log, rfl⟩
  · obtain ⟨_, _, hnone, hothers, _⟩ := h.notifyOwn hown hnotify
    exact ⟨hfifo, hothers, hnone, fun hlast => h.finishing (by rw [hrun]; exact hlast)⟩
  · simp only [hrun] at hpops
    exact ⟨h.fifo, h.callers, hpops, fun hlast => h.finishing (by rw [hrun]; exact hlast)⟩
  · simp only [hrun] at hpops
    by_cases hfinishing : s.finishing = true
    · simp only [hfinishing, if_true] at hfifo ⊢
      exact ⟨h.fifo, h.callers, hpops, fun _ => rfl⟩
    · simp only [hfinishing] at hfifo ⊢
      exact ⟨h.fifo, h.callers, hpops, fun hlast => by cases hlast⟩

/-- Every step keeps the invariant. -/
theorem Consistent.next (h : s.Consistent capacity) {label : Label ι} (hnext : Logger.next sinks label s = some t) :
    t.Consistent capacity := by
  have hfifo : t.buffer.Fifo capacity := by
    obtain ⟨heq, _⟩ | ⟨step, hstep, _⟩ := next_buffer hnext
    · rw [heq]
      exact h.fifo
    · exact (h.fifo.next hstep).1
  cases hlabel : label.isRun with
  | false => exact (h.interferes hlabel hnext).1.consistent h hfifo
  | true =>
    cases label with
    | run woken => exact h.run hfifo hnext
    | _ => cases hlabel

/-- The invariant holds in every state reached. -/
theorem consistent_of_reachable (h : (logger ι sinks capacity).Reachable s) : s.Consistent capacity :=
  h.invariant (I := fun s : Logger ι => s.Consistent capacity) .initial fun _ _ _ _ hs _ hnext => hs.next hnext

end Steps

end Logger

end MatchingEngine
