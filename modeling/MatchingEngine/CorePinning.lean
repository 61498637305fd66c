import MatchingEngine.SingleWriter
import MatchingEngine.Foundation.RoundRobin

/-!
# Pinning threads to cores

The thread pool pins its threads to the cores in rotation. To avoid hyper-threading it halves the
number of cores and doubles the core IDs, so that it only uses every second core.

The number of cores is an unsigned integer and a core ID a signed one. The conversion wraps, and the
doubling may overflow, which is undefined.
-/

namespace MatchingEngine

/-- The arguments of a thread pool. -/
structure ThreadPoolArguments where
  pinThreadsToCores : Bool
  hyperThreading : Bool
  workQueueSizePerThread : ℤ
  threadStackSize : ℤ
  threadNames : List String

/-- What the system says about its processor. -/
structure Processor where
  getNumberOfCores : ℕ
  isHyperThreading : Bool

/-- Why the creation loop does not go on. -/
inductive InitialiseFailure
  | assertion
  | divisionByZero
  | signedOverflow
deriving DecidableEq

/-- A thread pool, the core IDs that its threads were pinned to, in order, and what stopped the creation loop. -/
structure PinnedThreadPool extends ThreadPool where
  bound : List ℤ
  failure : Option InitialiseFailure
deriving DecidableEq

/-- The conversion of an unsigned number to `int` wraps. -/
def toInt (n : ℕ) : ℤ := Int.bmod n (2 ^ 32)

/-- A number that fits wraps to itself. -/
theorem toInt_of_lt {n : ℕ} (h : n < 2 ^ 31) : toInt n = n :=
  Int.bmod_eq_of_le (by omega) (by omega)

namespace ThreadPool

/-- Hyper-threading is avoided if the arguments say so and the processor has it. -/
def useProcessorsWithEvenIndex (args : ThreadPoolArguments) (processor : Processor) : Bool :=
  processor.isHyperThreading && args.hyperThreading == false

/-- The number of cores to use. -/
def numCores (args : ThreadPoolArguments) (processor : Processor) : ℕ :=
  if useProcessorsWithEvenIndex args processor then processor.getNumberOfCores / 2 else processor.getNumberOfCores

/-- The core ID for a thread. -/
def coreID (numCores : ℕ) (useProcessorsWithEvenIndex : Bool) (i : ℕ) : Except InitialiseFailure ℤ :=
  if numCores = 0 then .error .divisionByZero
  else
    let coreID := toInt (i % numCores)
    if useProcessorsWithEvenIndex then
      if -2 ^ 31 ≤ coreID * 2 ∧ coreID * 2 < 2 ^ 31 then .ok (coreID * 2) else .error .signedOverflow
    else .ok coreID

/-- Bind the last thread to a core, whose ID must not be negative. -/
def bindThreadToCPUCore (pool : PinnedThreadPool) (coreID : ℤ) : PinnedThreadPool :=
  { pool with bound := pool.bound ++ [coreID], failure := if 0 ≤ coreID then none else some .assertion }

/-- An iteration of the creation loop, unless it was stopped. -/
def addPinnedThread (args : ThreadPoolArguments) (numCores : ℕ) (useProcessorsWithEvenIndex : Bool)
    (pool : PinnedThreadPool) (i : ℕ) : PinnedThreadPool :=
  match pool.failure with
  | some _ => pool
  | none =>
    let pool := { pool with toThreadPool := addThread args.threadNames pool.toThreadPool i }
    if args.pinThreadsToCores then
      match coreID numCores useProcessorsWithEvenIndex i with
      | .ok coreID => bindThreadToCPUCore pool coreID
      | .error failure => { pool with failure := some failure }
    else pool

/-- The creation loop, with a number of iterations. -/
def addPinnedThreads (args : ThreadPoolArguments) (processor : Processor) (iterations : ℕ) : PinnedThreadPool :=
  (List.range iterations).foldl
    (addPinnedThread args (numCores args processor) (useProcessorsWithEvenIndex args processor)) ⟨⟨[], 0⟩, [], none⟩

/-- Create a queue and a thread for every name, and pin the threads. -/
def initialisePinned (args : ThreadPoolArguments) (processor : Processor) : PinnedThreadPool :=
  if args.threadNames.isEmpty then ⟨⟨[], 0⟩, [], some .assertion⟩
  else addPinnedThreads args processor args.threadNames.length

/-- The distance between the core IDs that are used. -/
def stride (useProcessorsWithEvenIndex : Bool) : ℕ := if useProcessorsWithEvenIndex then 2 else 1

/-- The core IDs that are used are apart. -/
theorem stride_pos (useProcessorsWithEvenIndex : Bool) : 0 < stride useProcessorsWithEvenIndex := by
  cases useProcessorsWithEvenIndex <;> decide

section Loop

variable {args : ThreadPoolArguments} {processor : Processor} {iterations : ℕ}

/-- One iteration more. -/
theorem addPinnedThreads_succ (args : ThreadPoolArguments) (processor : Processor) (iterations : ℕ) :
    addPinnedThreads args processor (iterations + 1) = addPinnedThread args (numCores args processor)
      (useProcessorsWithEvenIndex args processor) (addPinnedThreads args processor iterations) iterations := by
  rw [addPinnedThreads, List.range_succ, List.foldl_append]
  rfl

/-- A creation loop that was stopped does nothing more. -/
theorem addPinnedThreads_of_failure {failure : InitialiseFailure}
    (hfailure : (addPinnedThreads args processor iterations).failure = some failure) {more : ℕ} (hle : iterations ≤ more) :
    addPinnedThreads args processor more = addPinnedThreads args processor iterations := by
  induction more, hle using Nat.le_induction with
  | base => rfl
  | succ more _ ih => rw [addPinnedThreads_succ, ih, addPinnedThread, hfailure]

/-- A core ID that fits an `int` is computed exactly. -/
theorem coreID_of_fits {numCores i : ℕ} {useProcessorsWithEvenIndex : Bool} (hcores : 0 < numCores)
    (hfits : i % numCores * stride useProcessorsWithEvenIndex < 2 ^ 31) :
    coreID numCores useProcessorsWithEvenIndex i = .ok (i % numCores * stride useProcessorsWithEvenIndex : ℕ) := by
  rw [coreID, if_neg hcores.ne']
  cases useProcessorsWithEvenIndex with
  | false =>
    have hplace : i % numCores < 2 ^ 31 := by simpa [stride] using hfits
    simp [stride, toInt_of_lt hplace]
  | true =>
    have hplace : i % numCores * 2 < 2 ^ 31 := by simpa [stride] using hfits
    have hexact := toInt_of_lt (n := i % numCores) (by omega)
    simp only [stride, if_true, hexact]
    rw [if_pos (by omega)]
    simp

/-- As long as the core IDs fit an `int`, the cores are used in rotation. -/
theorem addPinnedThreads_of_fits (hpin : args.pinThreadsToCores = true) (hcores : 0 < numCores args processor)
    (hfits : stride (useProcessorsWithEvenIndex args processor) * min iterations (numCores args processor) ≤ 2 ^ 31) :
    addPinnedThreads args processor iterations =
      ⟨(List.range iterations).foldl (addThread args.threadNames) ⟨[], 0⟩,
        (roundRobin (numCores args processor) iterations).map fun place =>
          ((place * stride (useProcessorsWithEvenIndex args processor) : ℕ) : ℤ), none⟩ := by
  induction iterations with
  | zero => rfl
  | succ iterations ih =>
    have hless : min iterations (numCores args processor) ≤ min (iterations + 1) (numCores args processor) := by omega
    have hplace : iterations % numCores args processor < min (iterations + 1) (numCores args processor) :=
      lt_min (Nat.lt_succ_of_le (Nat.mod_le ..)) (Nat.mod_lt _ hcores)
    have hcoreFits : iterations % numCores args processor * stride (useProcessorsWithEvenIndex args processor) < 2 ^ 31 := by
      refine lt_of_lt_of_le ?_ hfits
      rw [Nat.mul_comm]
      exact Nat.mul_lt_mul_of_pos_left hplace (stride_pos _)
    have hcore := coreID_of_fits hcores hcoreFits
    rw [addPinnedThreads_succ, ih ((Nat.mul_le_mul_left _ hless).trans hfits)]
    simp only [addPinnedThread, hpin, if_true, hcore, bindThreadToCPUCore, Int.natCast_nonneg, RoundRobin.succ,
      List.map_append, List.range_succ, List.foldl_append, List.map_cons, List.map_nil, List.foldl_cons, List.foldl_nil]

/-- The core IDs of some threads do not fit an `int`. -/
def Overflows (args : ThreadPoolArguments) (processor : Processor) (iterations : ℕ) : Prop :=
  2 ^ 31 < stride (useProcessorsWithEvenIndex args processor) * min iterations (numCores args processor)

/-- Without a core, the first iteration divides by zero. -/
theorem addPinnedThreads_of_no_cores (hpin : args.pinThreadsToCores = true) (hcores : numCores args processor = 0)
    (hiterations : 0 < iterations) :
    (addPinnedThreads args processor iterations).failure = some .divisionByZero := by
  have hfirst : (addPinnedThreads args processor 1).failure = some .divisionByZero := by
    rw [addPinnedThreads_succ]
    simp [addPinnedThreads, addPinnedThread, hpin, hcores, coreID]
  rw [addPinnedThreads_of_failure hfirst hiterations, hfirst]

/-- The first iteration whose core ID does not fit an `int`. -/
theorem Overflows.exists_first (h : Overflows args processor iterations) :
    ∃ first, first < min iterations (numCores args processor) ∧
      stride (useProcessorsWithEvenIndex args processor) * first = 2 ^ 31 := by
  unfold Overflows at h
  cases huse : useProcessorsWithEvenIndex args processor with
  | false =>
    rw [huse] at h
    exact ⟨2 ^ 31, by simpa [stride] using h, rfl⟩
  | true =>
    rw [huse] at h
    change 2 ^ 31 < 2 * _ at h
    exact ⟨2 ^ 30, by omega, rfl⟩

/-- The first core ID that does not fit an `int` overflows, or is negative. -/
theorem coreID_of_overflows {numCores first : ℕ} {useProcessorsWithEvenIndex : Bool} (hcores : first < numCores)
    (hfirst : stride useProcessorsWithEvenIndex * first = 2 ^ 31) :
    coreID numCores useProcessorsWithEvenIndex first = .error .signedOverflow ∨
      coreID numCores useProcessorsWithEvenIndex first = .ok (-2 ^ 31) := by
  rw [coreID, if_neg (Nat.zero_lt_of_lt hcores).ne', Nat.mod_eq_of_lt hcores]
  cases useProcessorsWithEvenIndex with
  | false =>
    have hvalue : first = 2 ^ 31 := by simpa [stride] using hfirst
    have hint : toInt first = -2 ^ 31 := by rw [hvalue]; rfl
    exact Or.inr (by simp [hint])
  | true =>
    have hvalue : first = 2 ^ 30 := by
      simp only [stride, if_true] at hfirst
      omega
    have hint : toInt first = 2 ^ 30 := by rw [hvalue]; rfl
    exact Or.inl (by simp [hint])

/-- If the core IDs do not all fit an `int`, the creation loop is stopped by an overflow, or a thread is bound to a negative
core ID. -/
theorem addPinnedThreads_of_overflows (hpin : args.pinThreadsToCores = true) (hoverflows : Overflows args processor iterations) :
    (addPinnedThreads args processor iterations).failure = some .signedOverflow ∨
      -2 ^ 31 ∈ (addPinnedThreads args processor iterations).bound := by
  obtain ⟨first, hlt, hfirst⟩ := hoverflows.exists_first
  obtain ⟨hiterations, hcores⟩ := lt_min_iff.mp hlt
  have hfits : stride (useProcessorsWithEvenIndex args processor) * min first (numCores args processor) ≤ 2 ^ 31 := by
    rw [min_eq_left hcores.le]
    exact hfirst.le
  have hbefore := addPinnedThreads_of_fits hpin (Nat.zero_lt_of_lt hcores) hfits
  have hstep := addPinnedThreads_succ args processor first
  rw [hbefore] at hstep
  obtain hcore | hcore := coreID_of_overflows hcores hfirst
  · have hfailure : (addPinnedThreads args processor (first + 1)).failure = some .signedOverflow := by
      simp [hstep, addPinnedThread, hpin, hcore]
    exact Or.inl (by rw [addPinnedThreads_of_failure hfailure hiterations, hfailure])
  · have hfailure : (addPinnedThreads args processor (first + 1)).failure = some .assertion := by
      simp [hstep, addPinnedThread, hpin, hcore, bindThreadToCPUCore]
    refine Or.inr ?_
    rw [addPinnedThreads_of_failure hfailure hiterations, hstep]
    simp [addPinnedThread, hpin, hcore, bindThreadToCPUCore]

/-- A core that threads may be pinned to: one of the online cores, and with an even ID if hyper-threading is avoided. -/
def Usable (args : ThreadPoolArguments) (processor : Processor) (coreID : ℤ) : Prop :=
  0 ≤ coreID ∧ coreID < processor.getNumberOfCores ∧ (useProcessorsWithEvenIndex args processor = true → Even coreID)

/-- A core that the rotation comes to. -/
def InRotation (args : ThreadPoolArguments) (processor : Processor) (coreID : ℤ) : Prop :=
  ∃ place < numCores args processor, coreID = (place * stride (useProcessorsWithEvenIndex args processor) : ℕ)

/-- The pinning is defined and only uses usable cores, and the threads are evenly distributed over some cores. -/
structure PinsValidly (args : ThreadPoolArguments) (processor : Processor) (cores : ℤ → Prop) : Prop where
  divides : (initialisePinned args processor).failure ≠ some .divisionByZero
  defined : (initialisePinned args processor).failure ≠ some .signedOverflow
  usable : ∀ coreID ∈ (initialisePinned args processor).bound, Usable args processor coreID
  balanced : ∀ first second, cores first → cores second →
    (initialisePinned args processor).bound.count first ≤ (initialisePinned args processor).bound.count second + 1

/-- There is a core to use, and no core ID is out of the range of `int`. -/
structure CoresFit (args : ThreadPoolArguments) (processor : Processor) : Prop where
  available : 0 < numCores args processor
  fits : stride (useProcessorsWithEvenIndex args processor) * min args.threadNames.length (numCores args processor) ≤ 2 ^ 31

/-- The cores in the rotation are usable. -/
theorem InRotation.usable {coreID : ℤ} (h : InRotation args processor coreID) : Usable args processor coreID := by
  obtain ⟨place, hplace, rfl⟩ := h
  unfold numCores at hplace
  refine ⟨Int.natCast_nonneg _, ?_, fun hevenIndex => ?_⟩
  · cases huse : useProcessorsWithEvenIndex args processor with
    | false =>
      rw [huse] at hplace
      simpa [stride] using hplace
    | true =>
      rw [huse, if_pos rfl] at hplace
      simp only [stride, if_true]
      omega
  · rw [hevenIndex]
    exact ⟨place, by simp only [stride, if_true]; omega⟩

/-- The rotation comes to every usable core, unless hyper-threading is avoided on an odd number of cores. -/
theorem Usable.inRotation {coreID : ℤ} (h : Usable args processor coreID)
    (hevenCores : useProcessorsWithEvenIndex args processor = true → Even processor.getNumberOfCores) :
    InRotation args processor coreID := by
  obtain ⟨hnonneg, hlt, heven⟩ := h
  unfold InRotation numCores
  cases huse : useProcessorsWithEvenIndex args processor with
  | false => exact ⟨coreID.toNat, by rw [if_neg Bool.false_ne_true]; omega, by simp only [stride]; simp; omega⟩
  | true =>
    obtain ⟨half, hhalf⟩ := heven huse
    obtain ⟨halfCores, hhalfCores⟩ := hevenCores huse
    refine ⟨half.toNat, by rw [if_pos rfl]; omega, ?_⟩
    simp only [stride, if_true]
    omega

/-- What the creation loop binds where all core IDs fit. -/
theorem initialisePinned_of_fits (hpin : args.pinThreadsToCores = true) (hnames : args.threadNames ≠ [])
    (hfit : CoresFit args processor) :
    initialisePinned args processor = ⟨ThreadPool.initialise args.threadNames,
      (roundRobin (numCores args processor) args.threadNames.length).map fun place =>
        ((place * stride (useProcessorsWithEvenIndex args processor) : ℕ) : ℤ), none⟩ := by
  rw [initialisePinned, if_neg (by simpa using hnames)]
  exact addPinnedThreads_of_fits hpin hfit.available hfit.fits

/-- How many threads a core gets where all core IDs fit. -/
theorem count_bound (hpin : args.pinThreadsToCores = true) (hnames : args.threadNames ≠ []) (hfit : CoresFit args processor)
    (place : ℕ) :
    (initialisePinned args processor).bound.count ((place * stride (useProcessorsWithEvenIndex args processor) : ℕ) : ℤ) =
      (roundRobin (numCores args processor) args.threadNames.length).count place := by
  have hinjective : Function.Injective fun place : ℕ => ((place * stride (useProcessorsWithEvenIndex args processor) : ℕ) : ℤ) := by
    intro first second heq
    have heq : first * stride (useProcessorsWithEvenIndex args processor) =
        second * stride (useProcessorsWithEvenIndex args processor) := Int.ofNat_inj.mp heq
    exact Nat.eq_of_mul_eq_mul_right (stride_pos _) heq
  rw [initialisePinned_of_fits hpin hnames hfit]
  exact List.count_map_of_injective (roundRobin (numCores args processor) args.threadNames.length) _ hinjective place

/-- Only cores in the rotation get threads. -/
theorem inRotation_of_mem (hpin : args.pinThreadsToCores = true) (hnames : args.threadNames ≠ [])
    (hfit : CoresFit args processor) {coreID : ℤ} (hmem : coreID ∈ (initialisePinned args processor).bound) :
    InRotation args processor coreID := by
  rw [initialisePinned_of_fits hpin hnames hfit] at hmem
  obtain ⟨place, hplace, rfl⟩ := List.mem_map.mp hmem
  exact ⟨place, (RoundRobin.lt_of_mem hfit.available hplace).1, rfl⟩

/-- Without a thread, or where all core IDs fit, the pinning is valid for the cores in the rotation. -/
theorem pinsValidly_of_fits (hpin : args.pinThreadsToCores = true) (hfit : args.threadNames = [] ∨ CoresFit args processor)
    {cores : ℤ → Prop}
    (hbalanced : args.threadNames ≠ [] → CoresFit args processor → ∀ first second, cores first → cores second →
      (initialisePinned args processor).bound.count first ≤ (initialisePinned args processor).bound.count second + 1) :
    PinsValidly args processor cores := by
  by_cases hnames : args.threadNames = []
  · have hnothing : initialisePinned args processor = ⟨⟨[], 0⟩, [], some .assertion⟩ := by
      rw [initialisePinned, hnames]
      rfl
    constructor <;> simp [hnothing]
  · have hfit := hfit.resolve_left hnames
    have hinitialise := initialisePinned_of_fits hpin hnames hfit
    refine ⟨by rw [hinitialise]; simp, by rw [hinitialise]; simp, fun coreID hmem => ?_, hbalanced hnames hfit⟩
    exact (inRotation_of_mem hpin hnames hfit hmem).usable

/-- Where the pinning is valid, all core IDs fit. -/
theorem PinsValidly.fits (hpin : args.pinThreadsToCores = true) {cores : ℤ → Prop} (h : PinsValidly args processor cores) :
    args.threadNames = [] ∨ CoresFit args processor := by
  by_cases hnames : args.threadNames = []
  · exact Or.inl hnames
  · have hinitialise : initialisePinned args processor = addPinnedThreads args processor args.threadNames.length := by
      rw [initialisePinned, if_neg (by simpa using hnames)]
    have havailable : 0 < numCores args processor := by
      refine Nat.pos_of_ne_zero fun hcores => h.divides ?_
      rw [hinitialise]
      exact addPinnedThreads_of_no_cores hpin hcores (List.length_pos_iff.mpr hnames)
    refine Or.inr ⟨havailable, ?_⟩
    by_contra hoverflows
    obtain hfailure | hnegative := addPinnedThreads_of_overflows hpin (not_le.mp hoverflows)
    · exact h.defined (hinitialise ▸ hfailure)
    · have hnonneg := (h.usable _ (hinitialise ▸ hnegative)).1
      omega

end Loop

section Valid

variable {args : ThreadPoolArguments} {processor : Processor}

/-- Where all core IDs fit, the threads are evenly distributed over the cores in the rotation. -/
theorem count_le_of_inRotation (hpin : args.pinThreadsToCores = true) (hnames : args.threadNames ≠ [])
    (hfit : CoresFit args processor) {first second : ℤ} (hfirst : InRotation args processor first)
    (hsecond : InRotation args processor second) :
    (initialisePinned args processor).bound.count first ≤ (initialisePinned args processor).bound.count second + 1 := by
  obtain ⟨place, hplace, rfl⟩ := hfirst
  obtain ⟨other, hother, rfl⟩ := hsecond
  rw [count_bound hpin hnames hfit, count_bound hpin hnames hfit]
  exact RoundRobin.count_le_succ hplace hother

/-- With no more threads than cores in the rotation, no core gets two threads. -/
theorem count_le_one_of_length_le (hpin : args.pinThreadsToCores = true) (hnames : args.threadNames ≠ [])
    (hfit : CoresFit args processor) (hlength : args.threadNames.length ≤ numCores args processor) (coreID : ℤ) :
    (initialisePinned args processor).bound.count coreID ≤ 1 := by
  by_cases hmem : coreID ∈ (initialisePinned args processor).bound
  · obtain ⟨place, hplace, rfl⟩ := inRotation_of_mem hpin hnames hfit hmem
    rw [count_bound hpin hnames hfit]
    exact RoundRobin.count_le_one hlength hplace
  · rw [List.count_eq_zero_of_not_mem hmem]
    exact Nat.zero_le 1

/-- If hyper-threading is avoided on an odd number of cores, the last core is usable and gets no thread. -/
theorem last_core_unused (hpin : args.pinThreadsToCores = true) (hnames : args.threadNames ≠ [])
    (hfit : CoresFit args processor) (huse : useProcessorsWithEvenIndex args processor = true)
    (hodd : ¬Even processor.getNumberOfCores) :
    Usable args processor (processor.getNumberOfCores - 1 : ℤ) ∧
      (initialisePinned args processor).bound.count (processor.getNumberOfCores - 1 : ℤ) = 0 := by
  obtain ⟨half, hhalf⟩ := Nat.not_even_iff_odd.mp hodd
  have hnumCores : numCores args processor = half := by
    rw [numCores, if_pos huse]
    omega
  refine ⟨⟨by omega, by omega, fun _ => ⟨half, by omega⟩⟩, List.count_eq_zero_of_not_mem fun hmem => ?_⟩
  obtain ⟨place, hplace, heq⟩ := inRotation_of_mem hpin hnames hfit hmem
  simp only [huse, stride, if_true] at heq
  omega

/-- For the cores in the rotation the pinning is valid if and only if there is no thread, or a core to use and no core ID out
of the range of `int`. For all usable cores it is if and only if moreover, where hyper-threading is avoided, the number of
cores is even or there are not more threads than cores in the rotation. -/
theorem pinning_valid_iff (hpin : args.pinThreadsToCores = true) :
    (PinsValidly args processor (Usable args processor) ↔ args.threadNames = [] ∨ CoresFit args processor ∧
      (useProcessorsWithEvenIndex args processor = true →
        Even processor.getNumberOfCores ∨ args.threadNames.length ≤ numCores args processor)) ∧
      (PinsValidly args processor (InRotation args processor) ↔ args.threadNames = [] ∨ CoresFit args processor) := by
  refine ⟨⟨fun hvalid => ?_, fun hcondition => ?_⟩, fun hvalid => hvalid.fits hpin, fun hfit => ?_⟩
  · by_cases hnames : args.threadNames = []
    · exact Or.inl hnames
    have hfit := (hvalid.fits hpin).resolve_left hnames
    refine Or.inr ⟨hfit, fun huse => ?_⟩
    by_contra! hbad
    -- The first core gets a second thread before the last one gets any.
    obtain ⟨hlast, hunused⟩ := last_core_unused hpin hnames hfit huse hbad.1
    have hfirst : InRotation args processor 0 := ⟨0, hfit.available, by simp⟩
    have htwice := RoundRobin.one_lt_count hfit.available hbad.2
    rw [← count_bound hpin hnames hfit, Nat.zero_mul, Nat.cast_zero] at htwice
    have hbalanced := hvalid.balanced _ _ hfirst.usable hlast
    omega
  · refine pinsValidly_of_fits hpin (hcondition.imp_right And.left) fun hnames hfit first second hfirst hsecond => ?_
    have hcovered := (hcondition.resolve_left hnames).2
    by_cases hlength : args.threadNames.length ≤ numCores args processor
    · have hone := count_le_one_of_length_le hpin hnames hfit hlength first
      omega
    · have hevenCores := fun huse => (hcovered huse).resolve_right hlength
      exact count_le_of_inRotation hpin hnames hfit (hfirst.inRotation hevenCores) (hsecond.inRotation hevenCores)
  · exact pinsValidly_of_fits hpin hfit fun hnames hfit _ _ => count_le_of_inRotation hpin hnames hfit

/-- Three threads on four cores, with hyper-threading avoided. -/
theorem pinning_valid_four_cores :
    PinsValidly ⟨true, false, 1024, 0, ["A", "B", "C"]⟩ ⟨4, true⟩ (Usable ⟨true, false, 1024, 0, ["A", "B", "C"]⟩ ⟨4, true⟩) :=
  (pinning_valid_iff rfl).1.mpr (Or.inr ⟨⟨by decide, by decide⟩, fun _ => Or.inl (by decide)⟩)

/-- On a single core with hyper-threading, a thread pool that is to avoid it divides by zero. -/
theorem pinning_single_core :
    (initialisePinned ⟨true, false, 1024, 0, ["A"]⟩ ⟨1, true⟩).failure = some .divisionByZero ∧
      ¬PinsValidly ⟨true, false, 1024, 0, ["A"]⟩ ⟨1, true⟩ (Usable ⟨true, false, 1024, 0, ["A"]⟩ ⟨1, true⟩) ∧
      ¬PinsValidly ⟨true, false, 1024, 0, ["A"]⟩ ⟨1, true⟩ (InRotation ⟨true, false, 1024, 0, ["A"]⟩ ⟨1, true⟩) :=
  ⟨rfl, fun hvalid => hvalid.divides rfl, fun hvalid => hvalid.divides rfl⟩

end Valid

end ThreadPool

end MatchingEngine
