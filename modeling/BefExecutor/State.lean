/-
# The executor's shared state

Source: `lib/bef_executor/bef_executor.cc`, `RegisterInfo`, `KernelInfo`, the `AsyncValue`s and the threads of `BEFExecutor` (:150-228).

The state record `Sys`, the activations of `DecrementArgumentsNotReadyCounts` and their positions.
-/
import Mathlib.Algebra.BigOperators.Group.Multiset
import BefExecutor.Kernel

namespace BefExecutor

/-! ## Asynchronous values -/

/-- The state of an `AsyncValue`. -/
inductive AVState where
  | unavailable
  | concrete (payload : Nat)
  | error (diag : Nat)
  deriving Repr, DecidableEq

namespace AVState

/-- `IsAvailable()`: `Concrete` or `Error`. -/
def isAvailable : AVState → Bool
  | unavailable => false
  | _ => true

/-- `IsError()`. -/
def isError : AVState → Bool
  | error _ => true
  | _ => false

@[simp] theorem isAvailable_unavailable : unavailable.isAvailable = false := rfl
@[simp] theorem isAvailable_concrete (p : Nat) : (concrete p).isAvailable = true := rfl
@[simp] theorem isAvailable_error (d : Nat) : (error d).isAvailable = true := rfl
@[simp] theorem isError_unavailable : unavailable.isError = false := rfl
@[simp] theorem isError_concrete (p : Nat) : (concrete p).isError = false := rfl
@[simp] theorem isError_error (d : Nat) : (error d).isError = true := rfl

/-- An error is available. -/
theorem isAvailable_of_isError {st : AVState} (h : st.isError) : st.isAvailable := by
  cases st <;> simp_all

end AVState

/-- An `AsyncValue` of the run. -/
structure AsyncValue where
  state : AVState
  refs : Nat
  /-- An `IndirectAsyncValue`. -/
  indirect : Bool := false
  /-- The value an indirect one was forwarded to; it holds one reference on it. -/
  target : Option Nat := none
  /-- *ghost*: references held outside the executor (caller, host, an asynchronous producer). -/
  ext : Nat := 0
  /-- *ghost*: an outside producer still has to make this value available. -/
  owed : Bool := false
  /-- *ghost*: an executor placeholder still holds the `+1` owed to its forwarding. -/
  debt : Bool := false
  /-- *ghost*: the register an executor placeholder was made for. -/
  madeFor : Option Nat := none
  deriving Repr, DecidableEq

/-- `IsUnresolvedIndirect()`. -/
def AsyncValue.isUnresolvedIndirect (a : AsyncValue) : Bool :=
  a.indirect && !a.state.isAvailable

/-- The heap slot no allocation has reached. -/
def AsyncValue.none : AsyncValue := { state := .unavailable, refs := 0 }

/-- A callback registered with `AndThen` on a value that is still unavailable. -/
inductive Waiter where
  /-- `ProcessUsedBys`' closure: decrement the readiness of these used-by kernels, then
  `DropRef` the executor. -/
  | usedBys (ids : List Nat)
  /-- `MaybeAddRefForResult`'s empty closure, holding a location-handler reference. -/
  | keepHandler
  /-- `ForwardTo`'s closure on a pending target, holding the indirect value `indirect`. -/
  | forward (indirect : Nat)
  deriving Repr, DecidableEq

/-! ## The loaded function -/

/-- What `ReadFunction` yields for the function, and the caller's argument count. -/
structure BEFFunction where
  numKernels : Nat
  /-- The kernel record at `kernel_infos[k].offset`. -/
  kernel : Nat → BEFKernel
  /-- The number of registers, `register_infos.size()`. -/
  numRegs : Nat
  /-- `RegisterInfo::user_count`. -/
  userCount : Nat → Nat
  /-- `result_regs`: the register exported as each function result. -/
  resultRegs : List Nat
  /-- `arguments.size()`; a function with arguments has the argument pseudo-kernel `0`. -/
  numArguments : Nat

/-- `!arguments.empty()`: kernel `0` is the argument pseudo-kernel. -/
def BEFFunction.hasPseudo (fn : BEFFunction) : Bool := fn.numArguments != 0

/-! ## Threads -/

/-- Where `DecrementArgumentsNotReadyCounts` is in publishing result `i` of a kernel. -/
inductive ResultPhase where
  /-- The `user_count` check, then `MaybeAddRefForResult` or `SetRegisterValue`'s
  speculative `AddRef(user_count - 1)`. -/
  | begin
  /-- An unused result: its `DropRef`. -/
  | unusedDrop
  /-- `SetRegisterValue`'s compare-and-swap. -/
  | setCas
  /-- The swap lost to `existing`: revert the speculative `AddRef`. -/
  | setRevert (existing : Nat)
  /-- `existing->ForwardTo(result)`. -/
  | setForward (existing : Nat)
  /-- `ProcessUsedBys` on the register's value. -/
  | dispatch (regValue : Nat) (alreadySet : Bool)
  /-- `SetKernelsWithErrorInputReady` over `pending`, then append `usedBys` to the worklist. -/
  | accelerate (regValue : Nat) (alreadySet : Bool) (pending usedBys : List Nat)
  /-- `AddRef()` on the executor and `AndThen` on the pending register value. -/
  | andThen (regValue : Nat) (alreadySet : Bool) (usedBys : List Nat)
  /-- `register_already_set`: `DropRef` of the placeholder. -/
  | dropPlaceholder (regValue : Nat)
  deriving Repr, DecidableEq

/-- The position of an activation of `DecrementArgumentsNotReadyCounts`. -/
inductive Cursor where
  /-- At the head of the worklist loop. -/
  | idle
  /-- Kernel `k` passed the readiness gate; the cancel value is read next. -/
  | gated (k : Nat)
  /-- Loading the register of argument `bound.length`. -/
  | bindLoad (k : Nat) (bound : List Nat) (anyErr : Option Nat)
  /-- `GetOrCreateRegisterValue` found the register null: its placeholder's compare-and-swap. -/
  | bindCas (k : Nat) (bound : List Nat) (anyErr : Option Nat)
  /-- `IsError()` on the argument just bound. -/
  | bindCheck (k : Nat) (bound : List Nat) (anyErr : Option Nat)
  /-- All arguments bound: run the kernel or propagate the error. -/
  | ready (k : Nat) (bound : List Nat) (anyErr : Option Nat)
  /-- `DropRef` of argument `j`; `frame` holds the results. -/
  | dropArg (k : Nat) (bound : List Nat) (j : Nat) (frame : List Nat)
  /-- Publishing result `i` at `entry_offset = off`; `pseudo` for the argument pseudo-kernel. -/
  | result (k : Nat) (pseudo : Bool) (frame : List Nat) (i off : Nat) (ph : ResultPhase)
  deriving Repr, DecidableEq

/-- An activation of `DecrementArgumentsNotReadyCounts`: its worklist, whose head is the back
of the `SmallVector`, and its position. -/
structure Activation where
  ids : List Nat
  cur : Cursor
  deriving Repr, DecidableEq

/-- Where `Execute` is on the caller's thread. -/
inductive MainPhase where
  /-- Before `ReadFunction`, with the caller's arguments. -/
  | start (args : List Nat)
  /-- The constructor: the pseudo-kernel and the bootstrap worklist. -/
  | ctor (a : Activation)
  /-- Exporting result `i`: loading its register. -/
  | exportLoad (i : Nat) (results : List Nat)
  /-- Exporting result `i`: the compare-and-swap of a placeholder. -/
  | exportCas (i : Nat) (results : List Nat)
  /-- The final `DropRef` of the executor. -/
  | release (results : List Nat)
  /-- `Execute` has returned these `results`. -/
  | done (results : List Nat)
  deriving Repr, DecidableEq

/-- A thread running code of the run. -/
inductive Task where
  /-- `Execute` on the caller's thread. -/
  | main (ph : MainPhase)
  /-- A `ProcessUsedBys` continuation running `DecrementArgumentsNotReadyCounts`. -/
  | cont (a : Activation)
  /-- `MaybeAddRefForResult`'s closure, run: it releases its handler reference. -/
  | keep
  /-- `ForwardTo`'s closure, run: `indirect` adopts the state of `target`. -/
  | follow (indirect target : Nat)
  /-- The destructor of an indirect value releasing its target. -/
  | release (target : Nat)
  deriving Repr, DecidableEq

/-- The activation a thread runs: the constructor's, or a continuation's. -/
def Task.act : Task → Option Activation
  | .main (.ctor a) | .cont a => some a
  | _ => none

/-- The thread that runs an `AndThen` callback registered on `v`. -/
def Waiter.task (v : Nat) : Waiter → Task
  | .usedBys ids => .cont ⟨ids.reverse, .idle⟩
  | .keepHandler => .keep
  | .forward i => .follow i v

/-! ## The system -/

/-- Everything a run shares between its threads. -/
structure Sys where
  /-- `RegisterInfo::value`. -/
  regs : Nat → Option Nat
  /-- `KernelInfo::arguments_not_ready`. -/
  notReady : Nat → Int
  heap : Nat → AsyncValue
  /-- The next fresh value. -/
  next : Nat
  /-- Callbacks registered with `AndThen` on an unavailable value, with that value. -/
  waiting : Multiset (Nat × Waiter)
  tasks : Multiset Task
  execRefs : Nat
  handlerRefs : Nat
  /-- The host's cancel value. -/
  cancel : Option Nat
  /-- *ghost*: how often the executor was destroyed. -/
  execDestroyed : Nat
  /-- *ghost*: how often the readiness gate opened for each kernel. -/
  fires : Nat → Nat
  /-- *ghost*: how often `SetRegisterValue` was called on each register. -/
  setCalls : Nat → Nat
  /-- *ghost*: the spent uses of each register (argument drops and result exports). -/
  consumed : Nat → Nat
  /-- *ghost*: an assertion of the executor failed. -/
  assertFailed : Bool
  /-- *ghost*: a destroyed value was used, a count went below zero, or a value was destroyed
  with callbacks still registered. -/
  memFault : Bool

namespace Sys

variable (s : Sys)

/-- The thread a destroyed value's destructor starts: an indirect value releases its target. -/
def releaseOf : Option Nat → Multiset Task
  | some t => {.release t}
  | none => 0

/-- The callbacks registered on `v`. -/
def waitersOn (v : Nat) : Multiset (Nat × Waiter) := s.waiting.filter (fun p => p.1 = v)

/-- The callbacks registered on other values. -/
def waitersOff (v : Nat) : Multiset (Nat × Waiter) := s.waiting.filter (fun p => p.1 ≠ v)

/-- Replace value `v`. -/
def modify (v : Nat) (f : AsyncValue → AsyncValue) : Sys :=
  { s with heap := Function.update s.heap v (f (s.heap v)) }

/-- Allocate `a` as a fresh value. -/
def alloc (a : AsyncValue) : Sys :=
  { s with heap := Function.update s.heap s.next a, next := s.next + 1 }

/-- Record a use of `v`: touching a destroyed value is a memory fault. -/
def touch (v : Nat) : Sys := { s with memFault := s.memFault || (s.heap v).refs == 0 }

/-- `AddRef(n)`. -/
def addRef (v n : Nat) : Sys :=
  { s with
    heap := Function.update s.heap v { s.heap v with refs := (s.heap v).refs + n }
    memFault := s.memFault || (s.heap v).refs == 0 }

/-- `DropRef(n)`. A value reaching zero is destroyed and an indirect value's destructor
releases its target. Callbacks still registered on a destroyed value never run. Dropping
below zero, dropping a destroyed value and destroying a value with callbacks are memory
faults. -/
def dropRef (v n : Nat) : Sys :=
  let a := s.heap v
  let dies := 0 < n && a.refs ≤ n
  { s with
    heap := Function.update s.heap v { a with refs := a.refs - n }
    tasks := if dies then s.tasks + releaseOf a.target else s.tasks
    memFault := s.memFault || a.refs < n || a.refs == 0 || (dies && s.waitersOn v != 0) }

/-- `AndThen(w)`: the callback runs at once if `v` is available, otherwise it is registered. -/
def andThen (v : Nat) (w : Waiter) : Sys :=
  let avail := (s.heap v).state.isAvailable
  { s with
    tasks := if avail then s.tasks + {w.task v} else s.tasks
    waiting := if avail then s.waiting else s.waiting + {(v, w)}
    memFault := s.memFault || (s.heap v).refs == 0 }

/-- `v` becomes available in state `st`, and the callbacks registered on it run. -/
def resolve (v : Nat) (st : AVState) : Sys :=
  { s with
    heap := Function.update s.heap v { s.heap v with state := st }
    waiting := s.waitersOff v
    tasks := s.tasks + (s.waitersOn v).map (fun p => p.2.task p.1) }

/-- `ForwardTo(t)` on the indirect value `i`. If `t` is available, `i` adopts its state and
its callbacks run; otherwise an `AndThen` closure on `t`, which holds a reference to `i`,
will do so. Either way `i` keeps the reference on `t` it was given. Forwarding a value that is
not an unforwarded indirect one is an assertion failure. -/
def forwardTo (i t : Nat) : Sys :=
  let a := s.heap i
  let st := (s.heap t).state
  let avail := st.isAvailable
  { s with
    heap := Function.update s.heap i
      { a with target := some t, state := if avail then st else a.state,
               refs := if avail then a.refs else a.refs + 1 }
    waiting := if avail then s.waitersOff i else s.waiting + {(t, .forward i)}
    tasks := if avail then s.tasks + (s.waitersOn i).map (fun p => p.2.task p.1) else s.tasks
    assertFailed := s.assertFailed || !(a.isUnresolvedIndirect && a.target.isNone)
    memFault := s.memFault || (s.heap t).refs == 0 || a.refs == 0 }

/-- The executor's `DropRef()`: reaching zero destroys it, and with it its reference to the
location handler. -/
def dropExec : Sys :=
  { s with
    execRefs := s.execRefs - 1
    handlerRefs := if s.execRefs = 1 then s.handlerRefs - 1 else s.handlerRefs
    execDestroyed := if s.execRefs = 1 then s.execDestroyed + 1 else s.execDestroyed }

/-- Add a thread. -/
def spawn (t : Task) : Sys := { s with tasks := s.tasks + {t} }

@[simp] theorem spawn_fires (t : Task) : (s.spawn t).fires = s.fires := rfl
@[simp] theorem dropExec_fires : s.dropExec.fires = s.fires := rfl

end Sys

end BefExecutor
