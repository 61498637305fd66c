import MatchingEngine.ConfigFile
import MatchingEngine.Foundation.Numeral
import Mathlib.Algebra.Ring.Int.Defs
import Mathlib.Algebra.Ring.Nat

/-!
# The configuration phase of the server

The server reads its configuration file before it does anything else. An argument or a file that
is not valid ends it with an error code. Other exceptions are not caught in this phase, and end
the program without one.

Integers are read from the start of their text and must fit an `int`. Reading one may throw an
exception that the reading function does not declare.
-/

namespace MatchingEngine

/-- The integer at the start of a text, if it fits an `int`. -/
def stoi (text : Text) : Except Failure ℤ :=
  match leadingInt text with
  | none => .error (.invalidArgument "stoi")
  | some value => if -2 ^ 31 ≤ value ∧ value < 2 ^ 31 then .ok value else .error (.outOfRange "stoi")

/-- A function that may only throw invalid arguments ends the program when it throws anything else. -/
def throwsInvalidArgument {α : Type*} (result : Except Failure α) : Except Failure α :=
  match result with
  | .error (.outOfRange _) | .error (.runtimeError _) | .error .badAlloc => .error .unexpected
  | result => result

/-- The conversion of an `int` to `size_t` wraps. -/
def toSizeT (i : ℤ) : ℕ := (i % 2 ^ 64).toNat

/-- A new array must not be larger than the address space allows. -/
def newArray (size : ℕ) : Except Failure Unit := if size < 2 ^ 63 then .ok () else .error .badAlloc

/-- A value that is found for an attribute. Which of several values it is is not determined. -/
structure Finder (configuration : ConfigFile) where
  find : Text → Option Text
  mem_of_find : ∀ attributeName value, find attributeName = some value →
    (attributeName, value) ∈ configuration.dictionary
  not_mem_of_find : ∀ attributeName value, find attributeName = none →
    (attributeName, value) ∉ configuration.dictionary

namespace Finder

variable {configuration : ConfigFile} (finder : Finder configuration)

/-- Find the first value in a list of the attributes and values. -/
def ofList (entries : List (Text × Text)) (hentries : configuration.dictionary = entries) : Finder configuration where
  find attributeName := entries.lookup attributeName
  mem_of_find attributeName value hfind := by
    obtain ⟨before, after, hlist, _⟩ := List.lookup_eq_some_iff.mp hfind
    simp [hentries, hlist]
  not_mem_of_find attributeName value hfind hmem := by
    rw [hentries] at hmem
    have hne := List.lookup_eq_none_iff.mp hfind _ (Multiset.mem_coe.mp hmem)
    simp at hne

/-- The value of an attribute. -/
def getStringValue (attributeName : Text) : Except Failure Text :=
  match finder.find attributeName with
  | none => .error (.invalidArgument s!"Attribute {String.ofList attributeName} could not be found")
  | some value => .ok value

/-- The value of an attribute that is on if it reads `true`. -/
def getBoolValue (attributeName : Text) : Except Failure Bool := do
  let stringVal ← finder.getStringValue attributeName
  return stringVal.map Char.toLower == "true".toList

/-- The value of an attribute as an integer. -/
def getIntVaue (attributeName : Text) : Except Failure ℤ :=
  throwsInvalidArgument do stoi (← finder.getStringValue attributeName)

/-- An integer is read from the text that is found. -/
theorem getIntVaue_eq {attributeName text : Text} (htext : finder.find attributeName = some text) :
    finder.getIntVaue attributeName = throwsInvalidArgument (stoi text) := by
  rw [getIntVaue, getStringValue, htext]
  rfl

end Finder

/-- The error codes of the server. -/
inductive ProgramErrorType
  | invalidConfigFile
  | alreadyRunning
  | runtimeError
  | insufficientMemory
  | unknownProblem
deriving DecidableEq

/-- What the server reads from its configuration file. -/
structure Settings where
  singleInstanceTCPPortNumber : ℤ
  logBufferSize : ℕ
  fileLoggingEnabled : Bool
  consoleOutputEnabled : Bool
  symbols : Multiset Text
  centralOrderPinThreadsToCores : Bool
  hyperThreading : Bool
  centralOrderBookQueueSizePerThread : ℤ
  centralOrderBookThreadStackSize : ℤ
deriving DecidableEq

/-- How the configuration phase ends: the server goes on, exits with an error code, or is ended. -/
inductive ConfigurationPhase
  | configured (settings : Settings)
  | onError (message : String) (errorType : ProgramErrorType)
  | ended (failure : Failure)

namespace Settings

/-- Create the buffer of the logger. -/
def initialiseLogger (bufferSize : ℕ) : Except Failure ℕ := do
  if bufferSize = 0 then throw .assertion
  newArray bufferSize
  return bufferSize

/-- Open the log file. -/
def setLogFile (fileName : String) (isOpen : Bool) : Except Failure Unit :=
  if isOpen then .ok () else .error (.runtimeError s!"Log file {fileName} can`t be opened")

section Read

variable (file : Option Text) (finder : Finder (ConfigFile.loadFromFile ⟨0⟩ "ome.ini" file).1) (logFileOpens : Bool)

/-- The configuration phase up to the size of the work queues. -/
def readUntilQueueSize : Except Failure Settings := do
  (ConfigFile.loadFromFile ⟨0⟩ "ome.ini" file).2
  let singleInstanceTCPPortNumber ← finder.getIntVaue "SINGLE_INSTANCE_TCP_PORT".toList
  let logBufferSize ← initialiseLogger (toSizeT (← finder.getIntVaue "LOG_BUFFER_SIZE".toList))
  setLogFile "oms_log.txt" logFileOpens
  let fileLoggingEnabled ← finder.getBoolValue "FILE_LOGGING_ENABLED".toList
  let consoleOutputEnabled ← finder.getBoolValue "CONSOLE_OUTPUT_ENABLED".toList
  let symbols := (ConfigFile.loadFromFile ⟨0⟩ "ome.ini" file).1.getArray "SYMBOL".toList
  if symbols.card = 0 then throw (.runtimeError "No symbol found in the ini file")
  let centralOrderPinThreadsToCores ← finder.getBoolValue "CENTRAL_ORDER_BOOK_PIN_THREADS_TO_CORES".toList
  let hyperThreading ← finder.getBoolValue "HYPER_THREADING".toList
  return ⟨singleInstanceTCPPortNumber, logBufferSize, fileLoggingEnabled, consoleOutputEnabled, symbols,
    centralOrderPinThreadsToCores, hyperThreading, 0, 0⟩

/-- Read the size of the work queues. -/
def readQueueSize : Except Failure ℤ := finder.getIntVaue "CENTRAL_ORDER_BOOK_WORK_QUEUE_SIZE_PER_THREAD".toList

/-- Read the stack size of the threads. -/
def readThreadStackSize : Except Failure ℤ := finder.getIntVaue "CENTRAL_ORDER_BOOK_THREAD_STACK_SIZE".toList

/-- Read the configuration file. -/
def read : Except Failure Settings := do
  let settings ← readUntilQueueSize file finder logFileOpens
  let centralOrderBookQueueSizePerThread ← readQueueSize file finder
  let centralOrderBookThreadStackSize ← readThreadStackSize file finder
  return { settings with centralOrderBookQueueSizePerThread, centralOrderBookThreadStackSize }

/-- The configuration phase with its exception handlers. -/
def configurationPhase : ConfigurationPhase :=
  match read file finder logFileOpens with
  | .ok settings => .configured settings
  | .error (.invalidArgument what) => .onError what .invalidConfigFile
  | .error (.runtimeError what) => .onError what .invalidConfigFile
  | .error failure => .ended failure

end Read

end Settings

end MatchingEngine
