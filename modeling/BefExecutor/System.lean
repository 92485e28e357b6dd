/-
# Runs of `Execute`

Source: `lib/bef_executor/bef_executor.cc`, The constructor (:523-565), `InitializeArgumentRegisters` (:570-582), `Execute` (:584-639).

The step relation of all threads and the environment, reachable states, and the example functions `copyFn`, `asyncFn` and `splitFn` with runs of them.
-/
import BefExecutor.Executor

namespace BefExecutor

namespace Sys

variable (fn : BEFFunction) (s : Sys)

/-- `InitializeArgumentRegisters`: argument `i` goes into register `i` with `user_count`
more references, for the registers the function has. -/
def initializeArgumentRegisters : List Nat → Nat → Sys → Sys
  | [], _, s => s
  | v :: rest, i, s =>
    if i < fn.numRegs then
      initializeArgumentRegisters rest (i + 1)
        { s.addRef v (fn.userCount i) with regs := Function.update s.regs i (some v) }
    else s

end Sys

/-- The constructor's first activation: every kernel id, visited from `0` up; with arguments,
kernel `0` is popped for `ProcessArgumentsPseudoKernel`. -/
def bootstrap (fn : BEFFunction) (hasArgs : Bool) : Activation :=
  if hasArgs then
    ⟨(List.range fn.numKernels).tail,
      if 0 < (fn.kernel 0).numResults then .result 0 true [] 0 (fn.kernel 0).numResults .begin
      else .idle⟩
  else ⟨List.range fn.numKernels, .idle⟩

/-- `Execute` up to the constructor's firing loop: an empty function returns at once;
otherwise the argument registers are filled and the executor starts with one reference,
holding the location handler's first one. -/
def startExecute (fn : BEFFunction) (args : List Nat) (s : Sys) : Sys :=
  if fn.numKernels = 0 then s.spawn (.main (.done []))
  else
    let s := Sys.initializeArgumentRegisters fn args 0 s
    { s with execRefs := 1, handlerRefs := 1 }.spawn (.main (.ctor (bootstrap fn (args ≠ []))))

/-- One step of `Execute` on the caller's thread. -/
def mainStep (fn : BEFFunction) (c : List ResultSpec) : MainPhase → Sys → Option Sys
  | .start args, s => some (startExecute fn args s)
  | .ctor a, s => (a.step fn c s).map fun
      | (some a', s') => s'.spawn (.main (.ctor a'))
      | (none, s') => s'.spawn (.main (.exportLoad 0 []))
  | .exportLoad i results, s =>
    if i < fn.resultRegs.length then
      let r := fn.resultRegs.getD i 0
      match s.regs r with
      | some v => some ((s.takeRef r v).spawn (.main (.exportLoad (i + 1) (results ++ [v]))))
      | none => some (s.spawn (.main (.exportCas i results)))
    else some (s.spawn (.main (.release results)))
  | .exportCas i results, s =>
    let r := fn.resultRegs.getD i 0
    let (v, s) := s.getOrCreateRegisterValue fn r
    some ((s.takeRef r v).spawn (.main (.exportLoad (i + 1) (results ++ [v]))))
  | .release results, s => some (s.dropExec.spawn (.main (.done results)))
  | .done _, _ => none

/-- One step of a thread. -/
def taskStep (fn : BEFFunction) (c : List ResultSpec) : Task → Sys → Option Sys
  | .main ph, s => mainStep fn c ph s
  | .cont a, s => (a.step fn c s).map fun
      | (some a', s') => s'.spawn (.cont a')
      | (none, s') => s'.dropExec
  | .keep, s => some { s with handlerRefs := s.handlerRefs - 1 }
  | .follow i t, s => some ((s.resolve i (s.heap t).state).dropRef i 1)
  | .release t, s => some (s.dropRef t 1)

/-- What the world around the executor does. -/
inductive Env where
  /-- An asynchronous producer makes `v` available in state `st`. -/
  | complete (v : Nat) (st : AVState)
  /-- An outside holder (the caller, the host, a producer that is done) drops its reference. -/
  | extRelease (v : Nat)
  /-- The host is cancelled: its cancel value is a new error value it holds. -/
  | cancelExecution (diag : Nat)

/-- One step of the world. -/
def envStep : Env → Sys → Option Sys
  | .complete v st, s =>
    if (s.heap v).owed ∧ st.isAvailable then
      some ((s.modify v fun a => { a with owed := false }).resolve v st)
    else none
  | .extRelease v, s =>
    if 0 < (s.heap v).ext ∧ (s.heap v).owed = false then
      some ((s.modify v fun a => { a with ext := a.ext - 1 }).dropRef v 1)
    else none
  | .cancelExecution d, s =>
    if s.cancel = none then
      some { s.alloc { state := .error d, refs := 1, ext := 1 } with cancel := some s.next }
    else none

/-- One step of a run: a thread's or the world's. -/
inductive Step (fn : BEFFunction) : Sys → Sys → Prop where
  | task {s s' : Sys} {t : Task} {rest : Multiset Task} (c : List ResultSpec)
      (ht : s.tasks = t ::ₘ rest) (h : taskStep fn c t { s with tasks := rest } = some s') :
      Step fn s s'
  | env {s s' : Sys} (e : Env) (h : envStep e s = some s') : Step fn s s'

/-- The state before `Execute` is called with `args`: no register set, every count at its
loader value `#arguments + 1`, no executor yet, and every value held only from outside, a
pending one by the producer that will complete it. -/
structure Initial (fn : BEFFunction) (args : List Nat) (s : Sys) : Prop where
  tasks : s.tasks = {.main (.start args)}
  numArguments : args.length = fn.numArguments
  regs : ∀ r, s.regs r = none
  notReady : ∀ k, s.notReady k = (fn.kernel k).numArguments + 1
  waiting : s.waiting = 0
  execRefs : s.execRefs = 0
  execDestroyed : s.execDestroyed = 0
  handlerRefs : s.handlerRefs = 0
  fires : ∀ k, s.fires k = 0
  setCalls : ∀ r, s.setCalls r = 0
  consumed : ∀ r, s.consumed r = 0
  assertFailed : s.assertFailed = false
  memFault : s.memFault = false
  outside : ∀ v, (s.heap v).refs = (s.heap v).ext ∧ (s.heap v).debt = false ∧
    (s.heap v).indirect = false ∧ (s.heap v).target = none ∧ (s.heap v).madeFor = none
  pending : ∀ v, (s.heap v).owed = true ↔ (0 < (s.heap v).refs ∧ (s.heap v).state = .unavailable)
  unallocated : ∀ v, s.next ≤ v → s.heap v = AsyncValue.none
  args : ∀ v ∈ args, v < s.next ∧ 0 < (s.heap v).refs
  cancel : ∀ c, s.cancel = some c → c < s.next ∧ 0 < (s.heap c).refs ∧ (s.heap c).state.isError

/-! ## What each kind of step can do -/

/-- `InitializeArgumentRegisters` changes only values' counts, registers and the fault flag. -/
theorem Sys.initializeArgumentRegisters_eq (fn : BEFFunction) (args : List Nat) (i : Nat)
    (s : Sys) : ∃ heap regs memFault, Sys.initializeArgumentRegisters fn args i s =
      { s with heap := heap, regs := regs, memFault := memFault } := by
  induction args generalizing i s with
  | nil => exact ⟨s.heap, s.regs, s.memFault, rfl⟩
  | cons v args ih =>
    simp only [Sys.initializeArgumentRegisters]
    split
    · obtain ⟨h, r, m, e⟩ := ih (i + 1) _
      exact ⟨h, r, m, e⟩
    · exact ⟨s.heap, s.regs, s.memFault, rfl⟩

/-- The three things the world can do, with their guards. -/
theorem envStep_cases {e : Env} {s s' : Sys} (h : envStep e s = some s') :
    (∃ v st, (s.heap v).owed ∧ st.isAvailable ∧
      s' = (s.modify v fun a => { a with owed := false }).resolve v st) ∨
    (∃ v, 0 < (s.heap v).ext ∧ (s.heap v).owed = false ∧
      s' = (s.modify v fun a => { a with ext := a.ext - 1 }).dropRef v 1) ∨
    (∃ d, s.cancel = none ∧
      s' = { s.alloc { state := .error d, refs := 1, ext := 1 } with cancel := some s.next }) := by
  cases e with
  | complete v st =>
    simp only [envStep] at h; split at h
    · cases h; exact .inl ⟨v, st, by simp_all⟩
    · cases h
  | extRelease v =>
    simp only [envStep] at h; split at h
    · cases h; exact .inr (.inl ⟨v, by simp_all⟩)
    · cases h
  | cancelExecution d =>
    simp only [envStep] at h; split at h
    · cases h; exact .inr (.inr ⟨d, by simp_all⟩)
    · cases h

/-- The states a run of `Execute fn args` reaches. -/
inductive Reachable (fn : BEFFunction) (args : List Nat) : Sys → Prop where
  | init {s : Sys} : Initial fn args s → Reachable fn args s
  | step {s s' : Sys} : Reachable fn args s → Step fn s s' → Reachable fn args s'

/-! ## Runs chosen step by step -/

/-- A step named by its thread and the kernel's choice of results, or by what the world does. -/
inductive Sched where
  | task (t : Task) (c : List ResultSpec)
  | env (e : Env)

/-- Take the named step, when that thread exists and the step is possible. -/
def schedStep (fn : BEFFunction) : Sched → Sys → Option Sys
  | .task t c, s => if t ∈ s.tasks then taskStep fn c t { s with tasks := s.tasks.erase t } else none
  | .env e, s => envStep e s

/-- Take the named steps in order. -/
def runSched (fn : BEFFunction) : List Sched → Sys → Option Sys
  | [], s => some s
  | x :: xs, s => (schedStep fn x s).bind (runSched fn xs)

/-- A named step is a step of the system. -/
theorem schedStep_step {fn : BEFFunction} {x : Sched} {s s' : Sys} (h : schedStep fn x s = some s') :
    Step fn s s' := by
  cases x with
  | task t c =>
    simp only [schedStep] at h
    split at h
    · exact .task c (Multiset.cons_erase ‹_›).symm h
    · cases h
  | env e => exact .env e h

/-- Named steps from a reachable state reach a reachable state. -/
theorem Reachable.runSched {fn : BEFFunction} {args : List Nat} {xs : List Sched} {s s' : Sys}
    (h : Reachable fn args s) (hx : BefExecutor.runSched fn xs s = some s') :
    Reachable fn args s' := by
  induction xs generalizing s with
  | nil => cases hx; exact h
  | cons x xs ih =>
    simp only [BefExecutor.runSched, Option.bind_eq_some] at hx
    obtain ⟨s₁, h₁, h₂⟩ := hx
    exact ih (h.step (schedStep_step h₁)) h₂

/-- **What a thread running an activation does**: it takes the activation's step and runs the
activation it moves to; at the end of the worklist `Execute` goes on to export its results and a
continuation drops its executor reference. -/
theorem taskStep_act_cases {fn : BEFFunction} {c : List ResultSpec} {t : Task} {a : Activation}
    {s s' : Sys} (hta : t.act = some a) (h : taskStep fn c t s = some s') :
    ∃ oa s'', a.step fn c s = some (oa, s'') ∧
      ((∃ a', oa = some a' ∧ (s' = s''.spawn (.main (.ctor a')) ∨ s' = s''.spawn (.cont a'))) ∨
        oa = none ∧ (s' = s''.spawn (.main (.exportLoad 0 [])) ∨ s' = s''.dropExec)) := by
  cases t with
  | main ph =>
    cases ph with
    | ctor a' =>
      obtain rfl : a' = a := Option.some.inj hta
      simp only [taskStep, mainStep, Option.map_eq_some'] at h
      obtain ⟨⟨oa, s''⟩, ha, rfl⟩ := h
      cases oa
      · exact ⟨_, _, ha, .inr ⟨rfl, .inl rfl⟩⟩
      · exact ⟨_, _, ha, .inl ⟨_, rfl, .inl rfl⟩⟩
    | _ => cases hta
  | cont a' =>
    obtain rfl : a' = a := Option.some.inj hta
    simp only [taskStep, Option.map_eq_some'] at h
    obtain ⟨⟨oa, s''⟩, ha, rfl⟩ := h
    cases oa
    · exact ⟨_, _, ha, .inr ⟨rfl, .inr rfl⟩⟩
    · exact ⟨_, _, ha, .inl ⟨_, rfl, .inr rfl⟩⟩
  | _ => cases hta

/-! ## An example: one argument copied by one strict kernel into the result -/

/-- The argument pseudo-kernel of `copyFn`: its one result, register `0`, is used by kernel `1`. -/
def copyArgs : BEFKernel where
  kernelCode := 0
  kernelLocation := 0
  specialMetadata := 0
  numArguments := 0
  numAttributes := 0
  numFunctions := 0
  numResults := 1
  usedByCounts := [1]
  body := [0, 1]

/-- Kernel `1` of `copyFn`: strict, argument register `0`, result register `1`, no used-bys. -/
def copyKernel : BEFKernel where
  kernelCode := 1
  kernelLocation := 0
  specialMetadata := 0
  numArguments := 1
  numAttributes := 0
  numFunctions := 0
  numResults := 1
  usedByCounts := [0]
  body := [0, 1]

/-- `r1 = copy(a0); return r1`. -/
def copyFn : BEFFunction where
  numKernels := 2
  kernel k := if k = 0 then copyArgs else copyKernel
  numRegs := 2
  userCount _ := 1
  resultRegs := [1]
  numArguments := 1

/-- Before `Execute`: the caller holds value `0`, concrete `7`. -/
def copyInit : Sys where
  regs _ := none
  notReady k := (copyFn.kernel k).numArguments + 1
  heap v := if v = 0 then { state := .concrete 7, refs := 1, ext := 1 } else AsyncValue.none
  next := 1
  waiting := 0
  tasks := {.main (.start [0])}
  execRefs := 0
  handlerRefs := 0
  cancel := none
  execDestroyed := 0
  fires _ := 0
  setCalls _ := 0
  consumed _ := 0
  assertFailed := false
  memFault := false

/-- `copyInit` is an initial state of `copyFn` called with value `0`. -/
theorem copyInit_initial : Initial copyFn [0] copyInit where
  tasks := rfl
  numArguments := rfl
  regs _ := rfl
  notReady _ := rfl
  waiting := rfl
  execRefs := rfl
  execDestroyed := rfl
  handlerRefs := rfl
  fires _ := rfl
  setCalls _ := rfl
  consumed _ := rfl
  assertFailed := rfl
  memFault := rfl
  outside v := by by_cases h : v = 0 <;> simp [copyInit, h, AsyncValue.none]
  pending v := by by_cases h : v = 0 <;> simp [copyInit, h, AsyncValue.none]
  unallocated v hv := by simp [copyInit, show v ≠ 0 by simp [copyInit] at hv; omega]
  args v hv := by simp at hv; subst hv; simp [copyInit]
  cancel _ h := by cases h

/-- The first part of a run of `copyFn`: the pseudo-kernel dispatches the argument, kernel `1`
passes its gate and reads the cancel value, which is still null; then the host is cancelled,
and kernel `1` binds its argument. -/
def copyToReady : List Sched :=
  [.task (.main (.start [0])) [],
   .task (.main (.ctor ⟨[1], .result 0 true [] 0 1 .begin⟩)) [],
   .task (.main (.ctor ⟨[1], .result 0 true [] 0 1 (.dispatch 0 false)⟩)) [],
   .task (.main (.ctor ⟨[1, 1], .idle⟩)) [],
   .task (.main (.ctor ⟨[1], .idle⟩)) [],
   .task (.main (.ctor ⟨[], .gated 1⟩)) [],
   .env (.cancelExecution 0),
   .task (.main (.ctor ⟨[], .bindLoad 1 [] none⟩)) [],
   .task (.main (.ctor ⟨[], .bindCheck 1 [0] none⟩)) []]

/-- The rest: kernel `1` runs and returns a concrete `9`, and `Execute` returns it. -/
def copyFinish : List Sched :=
  [.task (.main (.ctor ⟨[], .ready 1 [0] none⟩)) [.fresh (.concrete 9)],
   .task (.main (.ctor ⟨[], .dropArg 1 [0] 0 [2]⟩)) [],
   .task (.main (.ctor ⟨[], .result 1 false [2] 0 2 .begin⟩)) [],
   .task (.main (.ctor ⟨[], .result 1 false [2] 0 2 .setCas⟩)) [],
   .task (.main (.ctor ⟨[], .result 1 false [2] 0 2 (.dispatch 2 false)⟩)) [],
   .task (.main (.ctor ⟨[], .idle⟩)) [],
   .task (.main (.exportLoad 0 [])) [],
   .task (.main (.exportLoad 1 [2])) [],
   .task (.main (.release [2])) []]

/-- The run `copyToReady` can be taken. -/
theorem copyToReady_isSome : (runSched copyFn copyToReady copyInit).isSome := by decide

/-- Kernel `1` is about to run, and the host is cancelled. -/
def copyReady : Sys := (runSched copyFn copyToReady copyInit).get copyToReady_isSome

/-- `copyReady` is reachable. -/
theorem copyReady_reachable : Reachable copyFn [0] copyReady :=
  (Reachable.init copyInit_initial).runSched (Option.some_get _).symm

/-- The run `copyFinish` can be taken. -/
theorem copyFinish_isSome : (runSched copyFn copyFinish copyReady).isSome := by decide

/-- `Execute` has returned. -/
def copyDone : Sys := (runSched copyFn copyFinish copyReady).get copyFinish_isSome

/-- `copyDone` is reachable. -/
theorem copyDone_reachable : Reachable copyFn [0] copyDone :=
  copyReady_reachable.runSched (Option.some_get _).symm

/-! ## An example: a pending result that `Execute` exports before it is published -/

/-- Kernel `0` of `asyncFn`: no arguments, result register `0`, used by kernel `1`. -/
def asyncProducer : BEFKernel where
  kernelCode := 0
  kernelLocation := 0
  specialMetadata := 0
  numArguments := 0
  numAttributes := 0
  numFunctions := 0
  numResults := 1
  usedByCounts := [1]
  body := [0, 1]

/-- Kernel `1` of `asyncFn`: strict, argument register `0`, result register `1`, no used-bys. -/
def asyncConsumer : BEFKernel where
  kernelCode := 1
  kernelLocation := 0
  specialMetadata := 0
  numArguments := 1
  numAttributes := 0
  numFunctions := 0
  numResults := 1
  usedByCounts := [0]
  body := [0, 1]

/-- `r0 = produce(); r1 = consume(r0); return r1`, without arguments. -/
def asyncFn : BEFFunction where
  numKernels := 2
  kernel k := if k = 0 then asyncProducer else asyncConsumer
  numRegs := 2
  userCount _ := 1
  resultRegs := [1]
  numArguments := 0

/-- Before `Execute`: nothing allocated. -/
def asyncInit : Sys where
  regs _ := none
  notReady k := (asyncFn.kernel k).numArguments + 1
  heap _ := AsyncValue.none
  next := 0
  waiting := 0
  tasks := {.main (.start [])}
  execRefs := 0
  handlerRefs := 0
  cancel := none
  execDestroyed := 0
  fires _ := 0
  setCalls _ := 0
  consumed _ := 0
  assertFailed := false
  memFault := false

/-- `asyncInit` is an initial state of `asyncFn`. -/
theorem asyncInit_initial : Initial asyncFn [] asyncInit where
  tasks := rfl
  numArguments := rfl
  regs _ := rfl
  notReady _ := rfl
  waiting := rfl
  execRefs := rfl
  execDestroyed := rfl
  handlerRefs := rfl
  fires _ := rfl
  setCalls _ := rfl
  consumed _ := rfl
  assertFailed := rfl
  memFault := rfl
  outside _ := ⟨rfl, rfl, rfl, rfl, rfl⟩
  pending _ := by simp [asyncInit, AsyncValue.none]
  unallocated _ _ := rfl
  args _ h := by cases h
  cancel _ h := by cases h

/-- The constructor fires kernel `0`, whose result `0` is pending; it publishes it and is about
to hand its users to `ProcessUsedBys`. -/
def asyncToDispatch : List Sched :=
  [.task (.main (.start [])) [],
   .task (.main (.ctor ⟨[0, 1], .idle⟩)) [],
   .task (.main (.ctor ⟨[1], .gated 0⟩)) [],
   .task (.main (.ctor ⟨[1], .ready 0 [] none⟩)) [.fresh .unavailable],
   .task (.main (.ctor ⟨[1], .result 0 false [0] 0 1 .begin⟩)) [],
   .task (.main (.ctor ⟨[1], .result 0 false [0] 0 1 .setCas⟩)) []]

/-- Kernel `1` waits on value `0` through an `AndThen`; `Execute` exports register `1` as a
placeholder and returns. Value `0` becomes available, the continuation fires kernel `1`, and
its `SetRegisterValue` loses its swap to the placeholder. -/
def asyncToRevert : List Sched :=
  [.task (.main (.ctor ⟨[1], .result 0 false [0] 0 1 (.dispatch 0 false)⟩)) [],
   .task (.main (.ctor ⟨[1], .result 0 false [0] 0 2 (.andThen 0 false [1])⟩)) [],
   .task (.main (.ctor ⟨[1], .idle⟩)) [],
   .task (.main (.ctor ⟨[], .idle⟩)) [],
   .task (.main (.exportLoad 0 [])) [],
   .task (.main (.exportCas 0 [])) [],
   .task (.main (.exportLoad 1 [1])) [],
   .task (.main (.release [1])) [],
   .env (.complete 0 (.concrete 5)),
   .task (.cont ⟨[1], .idle⟩) [],
   .task (.cont ⟨[], .gated 1⟩) [],
   .task (.cont ⟨[], .bindLoad 1 [] none⟩) [],
   .task (.cont ⟨[], .bindCheck 1 [0] none⟩) [],
   .task (.cont ⟨[], .ready 1 [0] none⟩) [.fresh (.concrete 6)],
   .task (.cont ⟨[], .dropArg 1 [0] 0 [2]⟩) [],
   .task (.cont ⟨[], .result 1 false [2] 0 2 .begin⟩) [],
   .task (.cont ⟨[], .result 1 false [2] 0 2 .setCas⟩) []]

/-- The placeholder is forwarded to the result, and the continuation finishes. -/
def asyncFinish : List Sched :=
  [.task (.cont ⟨[], .result 1 false [2] 0 2 (.setRevert 1)⟩) [],
   .task (.cont ⟨[], .result 1 false [2] 0 2 (.setForward 1)⟩) [],
   .task (.cont ⟨[], .result 1 false [2] 0 2 (.dispatch 1 true)⟩) [],
   .task (.cont ⟨[], .result 1 false [2] 0 2 (.dropPlaceholder 1)⟩) [],
   .task (.cont ⟨[], .idle⟩) []]

/-- The run `asyncToDispatch` can be taken. -/
theorem asyncToDispatch_isSome : (runSched asyncFn asyncToDispatch asyncInit).isSome := by decide

/-- Kernel `0` is about to dispatch its pending result. -/
def asyncDispatch : Sys := (runSched asyncFn asyncToDispatch asyncInit).get asyncToDispatch_isSome

/-- `asyncDispatch` is reachable. -/
theorem asyncDispatch_reachable : Reachable asyncFn [] asyncDispatch :=
  (Reachable.init asyncInit_initial).runSched (Option.some_get _).symm

/-- The run `asyncToRevert` can be taken. -/
theorem asyncToRevert_isSome : (runSched asyncFn asyncToRevert asyncDispatch).isSome := by decide

/-- Kernel `1`'s swap has lost to the placeholder `Execute` exported. -/
def asyncRevert : Sys := (runSched asyncFn asyncToRevert asyncDispatch).get asyncToRevert_isSome

/-- `asyncRevert` is reachable. -/
theorem asyncRevert_reachable : Reachable asyncFn [] asyncRevert :=
  asyncDispatch_reachable.runSched (Option.some_get _).symm

/-- The run `asyncFinish` can be taken. -/
theorem asyncFinish_isSome : (runSched asyncFn asyncFinish asyncRevert).isSome := by decide

/-- The run is over: the executor is gone. -/
def asyncDone : Sys := (runSched asyncFn asyncFinish asyncRevert).get asyncFinish_isSome

/-- `asyncDone` is reachable. -/
theorem asyncDone_reachable : Reachable asyncFn [] asyncDone :=
  asyncRevert_reachable.runSched (Option.some_get _).symm

/-! ## An example: a kernel with an unused result -/

/-- Kernel `1` of `splitFn`: strict, argument register `0`, result registers `1` (unused) and
`2`; only result `1` has a used-by entry, kernel `2`. -/
def splitKernel : BEFKernel where
  kernelCode := 1
  kernelLocation := 0
  specialMetadata := 0
  numArguments := 1
  numAttributes := 0
  numFunctions := 0
  numResults := 2
  usedByCounts := [0, 1]
  body := [0, 1, 2, 2]

/-- Kernel `2` of `splitFn`: strict, argument register `2`, result register `3`. -/
def splitCopy : BEFKernel where
  kernelCode := 2
  kernelLocation := 0
  specialMetadata := 0
  numArguments := 1
  numAttributes := 0
  numFunctions := 0
  numResults := 1
  usedByCounts := [0]
  body := [2, 3]

/-- `(r1, r2) = split(a0); r3 = copy(r2); return r3`, where nobody uses `r1`. -/
def splitFn : BEFFunction where
  numKernels := 3
  kernel k := if k = 0 then copyArgs else if k = 1 then splitKernel else splitCopy
  numRegs := 4
  userCount r := if r = 1 then 0 else 1
  resultRegs := [3]
  numArguments := 1

/-- Before `Execute` of `splitFn`: the caller holds value `0`. -/
def splitInit : Sys := { copyInit with notReady := fun k => (splitFn.kernel k).numArguments + 1 }

/-- `splitInit` is an initial state of `splitFn` called with value `0`. -/
theorem splitInit_initial : Initial splitFn [0] splitInit :=
  { copyInit_initial with notReady := fun _ => rfl }

/-- Kernel `1` drops its unused result without moving `entry_offset`, and wins the swap of the
other. -/
def splitToDispatch : List Sched :=
  [.task (.main (.start [0])) [],
   .task (.main (.ctor ⟨[1, 2], .result 0 true [] 0 1 .begin⟩)) [],
   .task (.main (.ctor ⟨[1, 2], .result 0 true [] 0 1 (.dispatch 0 false)⟩)) [],
   .task (.main (.ctor ⟨[1, 1, 2], .idle⟩)) [],
   .task (.main (.ctor ⟨[1, 2], .idle⟩)) [],
   .task (.main (.ctor ⟨[2], .gated 1⟩)) [],
   .task (.main (.ctor ⟨[2], .bindLoad 1 [] none⟩)) [],
   .task (.main (.ctor ⟨[2], .bindCheck 1 [0] none⟩)) [],
   .task (.main (.ctor ⟨[2], .ready 1 [0] none⟩)) [.fresh (.concrete 5), .fresh (.concrete 6)],
   .task (.main (.ctor ⟨[2], .dropArg 1 [0] 0 [1, 2]⟩)) [],
   .task (.main (.ctor ⟨[2], .result 1 false [1, 2] 0 3 .begin⟩)) [],
   .task (.main (.ctor ⟨[2], .result 1 false [1, 2] 0 3 .unusedDrop⟩)) [],
   .task (.main (.ctor ⟨[2], .result 1 false [1, 2] 1 3 .begin⟩)) [],
   .task (.main (.ctor ⟨[2], .result 1 false [1, 2] 1 3 .setCas⟩)) []]

/-- The rest: kernel `2` copies `r2`, and `Execute` returns its result. -/
def splitFinish : List Sched :=
  [.task (.main (.ctor ⟨[2], .result 1 false [1, 2] 1 3 (.dispatch 2 false)⟩)) [],
   .task (.main (.ctor ⟨[2, 2], .idle⟩)) [],
   .task (.main (.ctor ⟨[2], .idle⟩)) [],
   .task (.main (.ctor ⟨[], .gated 2⟩)) [],
   .task (.main (.ctor ⟨[], .bindLoad 2 [] none⟩)) [],
   .task (.main (.ctor ⟨[], .bindCheck 2 [2] none⟩)) [],
   .task (.main (.ctor ⟨[], .ready 2 [2] none⟩)) [.fresh (.concrete 9)],
   .task (.main (.ctor ⟨[], .dropArg 2 [2] 0 [3]⟩)) [],
   .task (.main (.ctor ⟨[], .result 2 false [3] 0 2 .begin⟩)) [],
   .task (.main (.ctor ⟨[], .result 2 false [3] 0 2 .setCas⟩)) [],
   .task (.main (.ctor ⟨[], .result 2 false [3] 0 2 (.dispatch 3 false)⟩)) [],
   .task (.main (.ctor ⟨[], .idle⟩)) [],
   .task (.main (.exportLoad 0 [])) [],
   .task (.main (.exportLoad 1 [3])) [],
   .task (.main (.release [3])) []]

/-- The run `splitToDispatch` can be taken. -/
theorem splitToDispatch_isSome : (runSched splitFn splitToDispatch splitInit).isSome := by decide

/-- Kernel `1` is about to dispatch its used result, from the offset its unused one left. -/
def splitDispatch : Sys := (runSched splitFn splitToDispatch splitInit).get splitToDispatch_isSome

/-- `splitDispatch` is reachable. -/
theorem splitDispatch_reachable : Reachable splitFn [0] splitDispatch :=
  (Reachable.init splitInit_initial).runSched (Option.some_get _).symm

/-- The run `splitFinish` can be taken. -/
theorem splitFinish_isSome : (runSched splitFn splitFinish splitDispatch).isSome := by decide

/-- `Execute` of `splitFn` has returned. -/
def splitDone : Sys := (runSched splitFn splitFinish splitDispatch).get splitFinish_isSome

/-- `splitDone` is reachable. -/
theorem splitDone_reachable : Reachable splitFn [0] splitDone :=
  splitDispatch_reachable.runSched (Option.some_get _).symm

end BefExecutor
