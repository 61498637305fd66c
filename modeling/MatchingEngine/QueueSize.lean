import MatchingEngine.CorePinning
import MatchingEngine.LockFreeRing
import MatchingEngine.ServerMain

/-!
# The size of the work queues

The size of the work queues is read from the configuration file as an `int`. The server takes it
as an unsigned integer, the thread pool as an `int` again, and the ring buffer as its capacity.

A ring buffer keeps one slot free, so that one of capacity one never takes a value. The indices
of the ring buffer are exact for all capacities that come from an `int`.
-/

namespace MatchingEngine

/-- The conversion of an `int` to an unsigned integer wraps. -/
def toUnsigned (i : ℤ) : ℕ := (i % 2 ^ 32).toNat

/-- The conversions undo each other. -/
theorem toInt_toUnsigned {i : ℤ} (hmin : -2 ^ 31 ≤ i) (hmax : i < 2 ^ 31) : toInt (toUnsigned i) = i := by
  have hcast : (toUnsigned i : ℤ) = i % 2 ^ 32 := Int.toNat_of_nonneg (Int.emod_nonneg i (by norm_num))
  calc toInt (toUnsigned i)
      = Int.bmod (i % 2 ^ 32) (2 ^ 32) := congrArg (fun n => Int.bmod n (2 ^ 32)) hcast
    _ = Int.bmod i (2 ^ 32) := Int.emod_bmod i (2 ^ 32)
    _ = i := Int.bmod_eq_of_le (by omega) (by omega)

/-- Create a ring buffer, whose capacity must be positive. -/
def RingBufferSPSCLockFree.create {T : Type*} (capacity : ℕ) : Except Failure (RingBufferSPSCLockFree T) :=
  if capacity = 0 then .error .assertion else (newArray capacity).map fun _ => .ofCapacity capacity

/-- The queue of a worker, with the size that the server was given. -/
def ThreadPool.workQueue (queueSizePerThread : ℤ) : Except Failure (RingBufferSPSCLockFree Task) :=
  RingBufferSPSCLockFree.create (toSizeT (toInt (toUnsigned queueSizePerThread)))

/-- What a work queue must be able to do, in all runs of one producer and one consumer: the indices are computed without a
division by zero, exactly and within the capacity, and a push to an empty queue returns after the steps of one call. -/
structure QueueUsable (capacity : ℕ) : Prop where
  divides : capacity ≠ 0
  exact : ∀ n < capacity, (Circular.nextInt (.ofNat 64 capacity) (.ofNat 32 n)).toInt = ((n + 1) % capacity : ℕ)
  indices : ∀ s, (sharedRing Unit Task capacity).Reachable s → s.ring.write < capacity ∧ s.ring.read < capacity
  accepts : ∀ s, (sharedRing Unit Task capacity).Reachable s → s.producers () = none → s.ring.contents = [] →
    ∀ (task : Task) (schedule : List Bool), schedule.count true = SharedRing.remaining .loadWrite →
      ∃ t, (sharedRing Unit Task capacity).run (.tryPush () task :: schedule.map SharedRing.turn) s = some t ∧
        t.pushes = s.pushes ++ [task]

namespace QueueUsable

variable {capacity : ℕ}

/-- A capacity that fits an `int` and leaves room for a value is usable. -/
theorem of_le (hroom : 2 ≤ capacity) (hfits : capacity < 2 ^ 31) : QueueUsable capacity where
  divides := by omega
  exact n hn := by
    have hexact := Circular.nextInt_toNat hn hfits
    have hlt : (n + 1) % capacity < capacity := Nat.mod_lt _ (by omega)
    rw [BitVec.toInt_eq_toNat_of_lt (by omega), hexact]
  indices s hs := by
    obtain ⟨hfifo, hring, _⟩ := SharedRing.fifo_of_reachable (by omega) hs
    rw [hfifo.write, hfifo.read, hring]
    exact ⟨Nat.mod_lt _ (by omega), Nat.mod_lt _ (by omega)⟩
  accepts s hs hidle hempty task schedule hschedule := by
    have hlength := (SharedRing.fifo_of_reachable (by omega) hs).1.contents_length
    rw [hempty, List.length_nil] at hlength
    have hcall : (sharedRing Unit Task capacity).next (.tryPush () task) s = some (s.tryPush () task) := by
      simp [sharedRing, SharedRing.next, hidle]
    have hproducer : (s.tryPush () task).producers () = some (task, .loadWrite) := by simp [SharedRing.tryPush]
    obtain ⟨t, hrun, hpushes⟩ := SharedRing.run_tryPush_of_empty hroom (hs.step trivial hcall) hproducer
      (by simpa using hlength.symm) hschedule
    exact ⟨t, by rw [Machine.run, hcall, Option.bind_some, hrun], hpushes⟩

/-- A capacity of one is not usable, since no value is ever taken. -/
theorem ne_one (h : QueueUsable capacity) : capacity ≠ 1 := by
  rintro rfl
  obtain ⟨t, hrun, _⟩ := h.accepts _ .start rfl rfl
    (.newOrder (.ofTerms ⟨"1", "MSFT", "CLIENT", "EXCHANGE", .buy, .limit, 10, 5⟩ 0)) [true, true, true, true] rfl
  cases hrun

end QueueUsable

/-- A work queue of a size that fits an `int` is usable if and only if the size is two at least. -/
theorem workQueue_usable_iff {size : ℤ} (hmin : -2 ^ 31 ≤ size) (hmax : size < 2 ^ 31) :
    (∃ capacity, ThreadPool.workQueue size = .ok (.ofCapacity capacity) ∧ QueueUsable capacity) ↔ 2 ≤ size := by
  rw [ThreadPool.workQueue, toInt_toUnsigned hmin hmax, RingBufferSPSCLockFree.create, newArray]
  constructor
  · rintro ⟨capacity, hqueue, husable⟩
    split at hqueue
    · cases hqueue
    rename_i hpositive
    split at hqueue
    · rename_i hfits
      have hcapacity : toSizeT size = capacity := congrArg RingBufferSPSCLockFree.capacity (Except.ok.inj hqueue)
      have hone := husable.ne_one
      unfold toSizeT at hcapacity hpositive hfits
      omega
    · cases hqueue
  · intro hroom
    have hcapacity : toSizeT size = size.toNat := by
      rw [toSizeT, Int.emod_eq_of_lt (by omega) (by omega)]
    rw [hcapacity, if_neg (by omega), if_pos (by omega)]
    exact ⟨size.toNat, rfl, .of_le (by omega) (by omega)⟩

/-- A reading throws an exception that the configuration phase handles. -/
def Refused {α : Type*} (reading : Except Failure α) : Prop :=
  ∃ what, reading = .error (.invalidArgument what) ∨ reading = .error (.runtimeError what)

/-- Two readings one after the other are refused if the first one is, or if the second one is after the first one. -/
theorem refused_bind {α β : Type} {reading : Except Failure α} {next : α → Except Failure β} :
    Refused (reading >>= next) ↔ Refused reading ∨ ∃ result, reading = .ok result ∧ Refused (next result) := by
  cases reading with
  | error failure => simp [Refused, bind, Except.bind]
  | ok result => simp [Refused, bind, Except.bind]

section Reading

variable {text : Text} {size : ℤ}

/-- An integer that is read fits an `int`. -/
theorem stoi_range (h : stoi text = .ok size) : -2 ^ 31 ≤ size ∧ size < 2 ^ 31 := by
  unfold stoi at h
  split at h
  · cases h
  · split at h
    · rename_i hrange
      obtain rfl := Except.ok.inj h
      exact hrange
    · cases h

/-- The numeral of an integer that fits an `int` is read as this integer. -/
theorem stoi_numeral (hmin : -2 ^ 31 ≤ size) (hmax : size < 2 ^ 31) : stoi (numeral size) = .ok size := by
  rw [stoi, leadingInt_numeral]
  exact if_pos ⟨hmin, hmax⟩

/-- Reading an integer is refused if and only if the text does not start with a numeral. -/
theorem refused_stoi : Refused (throwsInvalidArgument (stoi text)) ↔ ¬StartsWithNumeral text := by
  rw [← leadingInt_eq_none, stoi]
  cases leadingInt text with
  | none => simp [Refused, throwsInvalidArgument]
  | some value =>
    by_cases hrange : -2 ^ 31 ≤ value ∧ value < 2 ^ 31
    · simp only [if_pos hrange]
      simp [Refused, throwsInvalidArgument]
    · simp only [if_neg hrange]
      simp [Refused, throwsInvalidArgument]

/-- The exception specification does not change what is read. -/
theorem throwsInvalidArgument_eq_ok {α : Type*} {reading : Except Failure α} {result : α} :
    throwsInvalidArgument reading = .ok result ↔ reading = .ok result := by
  unfold throwsInvalidArgument
  split <;> simp

/-- An attribute whose value is the numeral of an integer that fits an `int` is read as this integer. -/
theorem Finder.getIntVaue_numeral {configuration : ConfigFile} (finder : Finder configuration) {attributeName : Text}
    (htext : finder.find attributeName = some (numeral size)) (hmin : -2 ^ 31 ≤ size) (hmax : size < 2 ^ 31) :
    finder.getIntVaue attributeName = .ok size := by
  rw [finder.getIntVaue_eq htext, throwsInvalidArgument_eq_ok, stoi_numeral hmin hmax]

end Reading

namespace Settings

variable {file : Option Text} {finder : Finder (ConfigFile.loadFromFile ⟨0⟩ "ome.ini" file).1} {logFileOpens : Bool}
  {text : Text}

/-- The size of the work queues is read from its text. -/
theorem readQueueSize_eq (htext : finder.find "CENTRAL_ORDER_BOOK_WORK_QUEUE_SIZE_PER_THREAD".toList = some text) :
    readQueueSize file finder = throwsInvalidArgument (stoi text) :=
  finder.getIntVaue_eq htext

/-- The configuration phase ends with the error code of an invalid configuration file if and only if a reading is
refused. -/
theorem configurationPhase_onError :
    (∃ message, configurationPhase file finder logFileOpens = .onError message .invalidConfigFile) ↔
      Refused (read file finder logFileOpens) := by
  unfold configurationPhase Refused
  split <;> simp_all

/-- Which readings may be refused. -/
theorem refused_read :
    Refused (read file finder logFileOpens) ↔ Refused (readUntilQueueSize file finder logFileOpens) ∨
      (∃ settings, readUntilQueueSize file finder logFileOpens = .ok settings) ∧
        (Refused (readQueueSize file finder) ∨
          (∃ size, readQueueSize file finder = .ok size) ∧ Refused (readThreadStackSize file finder)) := by
  have hlast : ∀ settings : Settings, ∀ size : ℤ, (Refused (do
      let centralOrderBookThreadStackSize ← readThreadStackSize file finder
      return { settings with centralOrderBookQueueSizePerThread := size, centralOrderBookThreadStackSize } :
        Except Failure Settings)) ↔ Refused (readThreadStackSize file finder) := by
    intro settings size
    rw [refused_bind]
    simp [Refused, pure, Except.pure]
  simp only [read, refused_bind, hlast, exists_and_right]

/-- What a text for the size of the work queues may lead to: the configuration phase ends with the error code of an invalid
configuration file, or the text is the numeral of the size that is read, and a work queue of this size is usable. -/
def QueueSizeHandled (file : Option Text) (finder : Finder (ConfigFile.loadFromFile ⟨0⟩ "ome.ini" file).1)
    (logFileOpens : Bool) (text : Text) : Prop :=
  (∃ message, configurationPhase file finder logFileOpens = .onError message .invalidConfigFile) ∨
    ∃ size, readQueueSize file finder = .ok size ∧ text = numeral size ∧
      ∃ capacity, ThreadPool.workQueue size = .ok (.ofCapacity capacity) ∧ QueueUsable capacity

/-- A size is read and a work queue of this size is usable if and only if the text is the numeral of a size in range. -/
theorem usable_read_iff (htext : finder.find "CENTRAL_ORDER_BOOK_WORK_QUEUE_SIZE_PER_THREAD".toList = some text) :
    (∃ size, readQueueSize file finder = .ok size ∧ text = numeral size ∧
      ∃ capacity, ThreadPool.workQueue size = .ok (.ofCapacity capacity) ∧ QueueUsable capacity) ↔
      ∃ size : ℤ, 2 ≤ size ∧ size < 2 ^ 31 ∧ text = numeral size := by
  rw [readQueueSize_eq htext]
  simp only [throwsInvalidArgument_eq_ok]
  constructor
  · rintro ⟨size, hread, hnumeral, husable⟩
    obtain ⟨hmin, hmax⟩ := stoi_range hread
    exact ⟨size, (workQueue_usable_iff hmin hmax).mp husable, hmax, hnumeral⟩
  · rintro ⟨size, hroom, hmax, rfl⟩
    exact ⟨size, stoi_numeral (by omega) hmax, rfl, (workQueue_usable_iff (by omega) hmax).mpr hroom⟩

/-- A text for the size of the work queues is handled if and only if it is the numeral of a size from two to the largest
`int`, or it does not start with a numeral, unless other attributes are refused. Where all others are read, it is if and only
if the text is such a numeral or does not start with a numeral. -/
theorem queue_size_handled_iff (htext : finder.find "CENTRAL_ORDER_BOOK_WORK_QUEUE_SIZE_PER_THREAD".toList = some text) :
    (QueueSizeHandled file finder logFileOpens text ↔
      Refused (readUntilQueueSize file finder logFileOpens) ∨
      (∃ settings, readUntilQueueSize file finder logFileOpens = .ok settings) ∧
        (¬StartsWithNumeral text ∨ (∃ size, stoi text = .ok size) ∧ Refused (readThreadStackSize file finder)) ∨
      ∃ size : ℤ, 2 ≤ size ∧ size < 2 ^ 31 ∧ text = numeral size) ∧
    ((∃ settings, readUntilQueueSize file finder logFileOpens = .ok settings) →
      (∃ size, readThreadStackSize file finder = .ok size) →
      (QueueSizeHandled file finder logFileOpens text ↔
        ¬StartsWithNumeral text ∨ ∃ size : ℤ, 2 ≤ size ∧ size < 2 ^ 31 ∧ text = numeral size)) := by
  have hgeneral : QueueSizeHandled file finder logFileOpens text ↔
      Refused (readUntilQueueSize file finder logFileOpens) ∨
      (∃ settings, readUntilQueueSize file finder logFileOpens = .ok settings) ∧
        (¬StartsWithNumeral text ∨ (∃ size, stoi text = .ok size) ∧ Refused (readThreadStackSize file finder)) ∨
      ∃ size : ℤ, 2 ≤ size ∧ size < 2 ^ 31 ∧ text = numeral size := by
    rw [QueueSizeHandled, configurationPhase_onError, refused_read, usable_read_iff htext, readQueueSize_eq htext,
      refused_stoi, or_assoc]
    simp only [throwsInvalidArgument_eq_ok]
  refine ⟨hgeneral, fun hbefore hafter => ?_⟩
  obtain ⟨settings, hsettings⟩ := hbefore
  obtain ⟨size, hsize⟩ := hafter
  rw [hgeneral, hsettings, hsize]
  simp [Refused]

section OmeIni

open ConfigFile (Entry contentOf)

/-- The entries of a configuration file other than the size of the work queues. -/
def otherEntries : List Entry :=
  [⟨"FILE_LOGGING_ENABLED".toList, "true".toList, by decide, by decide, by decide, by decide⟩,
    ⟨"CONSOLE_OUTPUT_ENABLED".toList, "true".toList, by decide, by decide, by decide, by decide⟩,
    ⟨"HYPER_THREADING".toList, "true".toList, by decide, by decide, by decide, by decide⟩,
    ⟨"LOG_BUFFER_SIZE".toList, "8192".toList, by decide, by decide, by decide, by decide⟩,
    ⟨"SINGLE_INSTANCE_TCP_PORT".toList, "666".toList, by decide, by decide, by decide, by decide⟩,
    ⟨"CENTRAL_ORDER_BOOK_PIN_THREADS_TO_CORES".toList, "false".toList, by decide, by decide, by decide, by decide⟩,
    ⟨"CENTRAL_ORDER_BOOK_THREAD_STACK_SIZE".toList, "0".toList, by decide, by decide, by decide, by decide⟩,
    ⟨"SYMBOL[]".toList, "MSFT".toList, by decide, by decide, by decide, by decide⟩]

/-- An entry for the size of the work queues. -/
def queueSizeEntry (value : Text) (hvalue : value ≠ []) (hequals : '=' ∉ value) : Entry :=
  ⟨"CENTRAL_ORDER_BOOK_WORK_QUEUE_SIZE_PER_THREAD".toList, value, by decide, hvalue, by decide, hequals⟩

/-- The entries with the size that the file of the repository gives. -/
def repositoryEntries : List Entry := queueSizeEntry "8192".toList (by decide) (by decide) :: otherEntries

/-- The entries with a size that leaves no room for a value. -/
def sizeOneEntries : List Entry := queueSizeEntry "1".toList (by decide) (by decide) :: otherEntries

/-- A file with an entry for the size of the work queues and the other entries is read. -/
theorem load_otherEntries {entry : Entry} (hline : '\n' ∉ entry.line) (hskipped : ¬ConfigFile.Skipped entry.line) :
    ConfigFile.loadFromFile ⟨0⟩ "ome.ini" (some (contentOf (entry :: otherEntries))) =
      (⟨(entry :: otherEntries).map Entry.pair⟩, .ok ()) :=
  ConfigFile.loadFromFile_contentOf _ _ (List.forall_mem_cons.mpr ⟨hline, by decide⟩)
    (List.forall_mem_cons.mpr ⟨hskipped, by decide⟩)

/-- The file with the size of the repository is read. -/
theorem load_repositoryEntries :
    ConfigFile.loadFromFile ⟨0⟩ "ome.ini" (some (contentOf repositoryEntries)) =
      (⟨repositoryEntries.map Entry.pair⟩, .ok ()) :=
  load_otherEntries (by decide) (by decide)

/-- The file with a size of one is read. -/
theorem load_sizeOneEntries :
    ConfigFile.loadFromFile ⟨0⟩ "ome.ini" (some (contentOf sizeOneEntries)) =
      (⟨sizeOneEntries.map Entry.pair⟩, .ok ()) :=
  load_otherEntries (by decide) (by decide)

/-- The size of the work queues that the file of the repository gives is handled. -/
theorem queue_size_handled_repository :
    QueueSizeHandled (some (contentOf repositoryEntries))
      (.ofList (repositoryEntries.map Entry.pair) (by rw [load_repositoryEntries])) true "8192".toList :=
  (queue_size_handled_iff (by rfl)).1.mpr (Or.inr (Or.inr ⟨8192, by decide, by decide, by decide⟩))

/-- A size of one is read, and the server goes on with work queues that never take a task. -/
theorem queue_size_one :
    ¬QueueSizeHandled (some (contentOf sizeOneEntries))
      (.ofList (sizeOneEntries.map Entry.pair) (by rw [load_sizeOneEntries])) true "1".toList := by
  have hloaded : (ConfigFile.loadFromFile ⟨0⟩ "ome.ini" (some (contentOf sizeOneEntries))).2 = .ok () := by
    rw [load_sizeOneEntries]
  have hsymbols : (ConfigFile.loadFromFile ⟨0⟩ "ome.ini" (some (contentOf sizeOneEntries))).1.getArray "SYMBOL".toList =
      {"MSFT".toList} := by
    rw [load_sizeOneEntries]
    rfl
  let finder : Finder (ConfigFile.loadFromFile ⟨0⟩ "ome.ini" (some (contentOf sizeOneEntries))).1 :=
    .ofList (sizeOneEntries.map Entry.pair) (by rw [load_sizeOneEntries])
  have hbefore : readUntilQueueSize _ finder true =
      .ok ⟨666, 8192, true, true, {"MSFT".toList}, false, true, 0, 0⟩ := by
    rw [readUntilQueueSize, hloaded, hsymbols]
    rfl
  have hsizeText : finder.find "CENTRAL_ORDER_BOOK_WORK_QUEUE_SIZE_PER_THREAD".toList = some (numeral 1) := by rfl
  have hstackText : finder.find "CENTRAL_ORDER_BOOK_THREAD_STACK_SIZE".toList = some (numeral 0) := by rfl
  have hsize : readQueueSize _ finder = .ok 1 := finder.getIntVaue_numeral hsizeText (by decide) (by decide)
  have hafter : readThreadStackSize _ finder = .ok 0 := finder.getIntVaue_numeral hstackText (by decide) (by decide)
  rintro (hphase | ⟨size, hread, _, husable⟩)
  · rw [configurationPhase_onError, refused_read, hbefore, hsize, hafter] at hphase
    simp [Refused] at hphase
  · obtain rfl := Except.ok.inj (hsize.symm.trans hread)
    exact absurd ((workQueue_usable_iff (by decide) (by decide)).mp husable) (by decide)

end OmeIni

end Settings

end MatchingEngine
