/-
# The firing loop, one atomic step at a time

Source: `lib/bef_executor/bef_executor.cc`, `GetOrCreateRegisterValue` (:55-84), `SetKernelsWithErrorInputReady` (:94-107), `SetRegisterValue` (:109-148), `ProcessUsedBys` (:238-321), `MaybeAddRefForResult` (:360-364), `DecrementArgumentsNotReadyCounts` (:369-517).

One step of an activation per atomic operation of the code, so that other threads can interleave between any two.
-/
import BefExecutor.State

namespace BefExecutor

/-- What a kernel implementation puts in one result slot. -/
inductive ResultSpec where
  /-- A new value: available now, or made available later by the kernel's asynchronous work,
  which holds its own reference until then. -/
  | fresh (st : AVState)
  /-- Its argument `j`, with one more reference. -/
  | arg (j : Nat)
  deriving Repr, DecidableEq

/-- A slot the kernel can fill when it has `n` arguments. -/
def ResultSpec.valid (n : Nat) : ResultSpec → Bool
  | .fresh _ => true
  | .arg j => j < n

namespace Sys

variable (fn : BEFFunction) (s : Sys)

/-! ## The helper functions -/

/-- The placeholder `GetOrCreateRegisterValue` allocates for register `r`: an unavailable
`IndirectAsyncValue` with one reference raised by `user_count`. -/
def placeholder (r : Nat) : AsyncValue :=
  { state := .unavailable, refs := 1 + fn.userCount r, indirect := true, debt := true,
    madeFor := some r }

/-- `GetOrCreateRegisterValue` past its load: `MakeIndirectAsyncValue`, `AddRef(user_count)`
and the compare-and-swap into register `r`; the value the register ends up holding. A
placeholder that lost drops its `user_count + 1` references. -/
def getOrCreateRegisterValue (r : Nat) : Nat × Sys :=
  let spec := s.next
  let s := s.alloc (placeholder fn r)
  match s.regs r with
  | none => (spec, { s with regs := Function.update s.regs r (some spec) })
  | some e => (e, s.dropRef spec (fn.userCount r + 1))

/-- `SetKernelsWithErrorInputReady` for one used-by kernel: the compare-exchange loop lowers
a count above one to one and leaves any other count alone. -/
def setKernelWithErrorInputReady (k : Nat) : Sys :=
  let c := if 1 < s.notReady k then 1 else s.notReady k
  { s with notReady := Function.update s.notReady k c }

/-- `MaybeAddRefForResult`: an unavailable result gets an empty `AndThen` closure holding a
location-handler reference. -/
def maybeAddRefForResult (v : Nat) : Sys :=
  let avail := (s.heap v).state.isAvailable
  { s with
    handlerRefs := if avail then s.handlerRefs else s.handlerRefs + 1
    waiting := if avail then s.waiting else s.waiting + {(v, .keepHandler)}
    memFault := s.memFault || (s.heap v).refs == 0 }

/-- `TakeRef` into a caller's result: one use of register `r` passes to the caller. -/
def takeRef (r v : Nat) : Sys :=
  { s.modify v (fun a => { a with ext := a.ext + 1 }) with
    consumed := Function.update s.consumed r (s.consumed r + 1) }

/-- One use of register `r` is spent by dropping argument value `v`. -/
def dropArgRef (r v : Nat) : Sys :=
  { s.dropRef v 1 with consumed := Function.update s.consumed r (s.consumed r + 1) }

/-- The kernel implementation fills its result slots: each new value is allocated, each
passed-through argument gets one more reference. -/
def invoke (bound : List Nat) : List ResultSpec → Sys → List Nat × Sys
  | [], s => ([], s)
  | .fresh st :: rest, s =>
    let a : AsyncValue := if st.isAvailable then { state := st, refs := 1 }
      else { state := st, refs := 2, ext := 1, owed := true }
    let r := invoke bound rest (s.alloc a)
    (s.next :: r.1, r.2)
  | .arg j :: rest, s =>
    let r := invoke bound rest (s.addRef (bound.getD j 0) 1)
    (bound.getD j 0 :: r.1, r.2)

end Sys

/-! ## Positions -/

/-- After result `i`: the next result, or back to the head of the loop. -/
def nextResult (fn : BEFFunction) (k : Nat) (pseudo : Bool) (frame : List Nat) (i off : Nat) :
    Cursor :=
  if i + 1 < (fn.kernel k).numResults then .result k pseudo frame (i + 1) off .begin else .idle

/-- After `ProcessUsedBys`: the placeholder's `DropRef` when the register was already set. -/
def afterDispatch (fn : BEFFunction) (k : Nat) (pseudo : Bool) (frame : List Nat) (i off : Nat)
    (regValue : Nat) (alreadySet : Bool) : Cursor :=
  if alreadySet then .result k pseudo frame i off (.dropPlaceholder regValue)
  else nextResult fn k pseudo frame i off

/-- After the argument drops: the results loop, starting past the kernel's results. -/
def publishFrom (fn : BEFFunction) (k : Nat) (frame : List Nat) : Cursor :=
  if 0 < (fn.kernel k).numResults then .result k false frame 0 (fn.kernel k).usedByStart .begin
  else .idle

/-- After binding: the next argument, or the kernel itself. -/
def afterBind (fn : BEFFunction) (k : Nat) (bound : List Nat) (anyErr : Option Nat) : Cursor :=
  if bound.length < (fn.kernel k).numArguments then .bindLoad k bound anyErr
  else .ready k bound anyErr

/-! ## The steps of `DecrementArgumentsNotReadyCounts` -/

namespace Activation

variable (fn : BEFFunction) (ids : List Nat) (s : Sys)

/-- Pop `k` and `fetch_sub(1)` its count: the gate opens when the count was `1`. -/
def stepPop (k : Nat) : Activation × Sys :=
  if k < fn.numKernels then
    let old := s.notReady k
    let s := { s with notReady := Function.update s.notReady k (old - 1) }
    if old = 1 then (⟨ids, .gated k⟩, { s with fires := Function.update s.fires k (s.fires k + 1) })
    else (⟨ids, .idle⟩, s)
  else (⟨ids, .idle⟩, { s with assertFailed := true })

/-- `any_error_argument = GetCancelAsyncValue()`. -/
def stepGated (k : Nat) : Activation × Sys :=
  (⟨ids, afterBind fn k [] s.cancel⟩, s)

/-- Load the next argument register; if it is null, make a placeholder for it next. -/
def stepBindLoad (k : Nat) (bound : List Nat) (anyErr : Option Nat) : Activation × Sys :=
  let r := (fn.kernel k).arguments.getD bound.length 0
  match s.regs r with
  | some v => (⟨ids, .bindCheck k (bound ++ [v]) anyErr⟩, s)
  | none => (⟨ids, .bindCas k bound anyErr⟩, s)

/-- The placeholder, made and swapped in. -/
def stepBindCas (k : Nat) (bound : List Nat) (anyErr : Option Nat) : Activation × Sys :=
  let r := (fn.kernel k).arguments.getD bound.length 0
  let (v, s) := s.getOrCreateRegisterValue fn r
  (⟨ids, .bindCheck k (bound ++ [v]) anyErr⟩, s)

/-- `if (value->IsError()) any_error_argument = value`. -/
def stepBindCheck (k : Nat) (bound : List Nat) (anyErr : Option Nat) : Activation × Sys :=
  let v := bound.getLastD 0
  let s := s.touch v
  let anyErr := if (s.heap v).state.isError then some v else anyErr
  (⟨ids, afterBind fn k bound anyErr⟩, s)

/-- Run the kernel, when no argument is an error or it is non-strict; otherwise give every
result slot a reference to the error. `none` when the kernel's choice of results does not fit
its frame. -/
def stepReady (c : List ResultSpec) (k : Nat) (bound : List Nat) (anyErr : Option Nat) :
    Option (Activation × Sys) :=
  let n := (fn.kernel k).numResults
  let next (frame : List Nat) : Cursor :=
    if bound = [] then publishFrom fn k frame else .dropArg k bound 0 frame
  if anyErr.isNone || (fn.kernel k).isNonStrict then
    if c.length = n ∧ c.all (ResultSpec.valid bound.length) then
      let r := Sys.invoke bound c s
      some (⟨ids, next r.1⟩, r.2)
    else none
  else some (⟨ids, next (List.replicate n (anyErr.getD 0))⟩, s.addRef (anyErr.getD 0) n)

/-- `DropRef` of argument `j`. -/
def stepDropArg (k : Nat) (bound : List Nat) (j : Nat) (frame : List Nat) : Activation × Sys :=
  let s := s.dropArgRef ((fn.kernel k).arguments.getD j 0) (bound.getD j 0)
  (⟨ids, if j + 1 < bound.length then .dropArg k bound (j + 1) frame else publishFrom fn k frame⟩, s)

/-- The start of one result. For the pseudo-kernel: skip an unused argument, or dispatch the
value the caller installed. Otherwise: the publish assertion, then `MaybeAddRefForResult` for
an unused result or `SetRegisterValue`'s speculative `AddRef(user_count - 1)`. -/
def stepBegin (k : Nat) (pseudo : Bool) (frame : List Nat) (i off : Nat) : Activation × Sys :=
  if pseudo then
    let r := (fn.kernel k).pseudoResults.getD i 0
    if fn.userCount r = 0 then (⟨ids, nextResult fn k true frame i off⟩, s)
    else match s.regs r with
      | some v => (⟨ids, .result k true frame i off (.dispatch v false)⟩, s)
      | none => (⟨ids, nextResult fn k true frame i off⟩, { s with assertFailed := true })
  else
    let r := (fn.kernel k).results.getD i 0
    let v := frame.getD i 0
    let s := match s.regs r with
      | none => s
      | some e => if (s.heap e).isUnresolvedIndirect then s else { s with assertFailed := true }
    if fn.userCount r = 0 then (⟨ids, .result k false frame i off .unusedDrop⟩, s.maybeAddRefForResult v)
    else (⟨ids, .result k false frame i off .setCas⟩, s.addRef v (fn.userCount r - 1))

/-- An unused result: drop the kernel's reference and go on without moving the offset. -/
def stepUnusedDrop (k : Nat) (frame : List Nat) (i off : Nat) : Activation × Sys :=
  (⟨ids, nextResult fn k false frame i off⟩, s.dropRef (frame.getD i 0) 1)

/-- `SetRegisterValue`'s compare-and-swap: install the result, or find the placeholder. A
value other than an indirect one fails the `cast<IndirectAsyncValue>`. -/
def stepSetCas (k : Nat) (frame : List Nat) (i off : Nat) : Activation × Sys :=
  let r := (fn.kernel k).results.getD i 0
  let v := frame.getD i 0
  let s := { s with setCalls := Function.update s.setCalls r (s.setCalls r + 1) }
  match s.regs r with
  | none => (⟨ids, .result k false frame i off (.dispatch v false)⟩,
      { s with regs := Function.update s.regs r (some v) })
  | some e => (⟨ids, .result k false frame i off (.setRevert e)⟩,
      if (s.heap e).indirect then s else { s with assertFailed := true })

/-- The lost swap reverts the speculative `AddRef(user_count - 1)`. -/
def stepSetRevert (k : Nat) (frame : List Nat) (i off e : Nat) : Activation × Sys :=
  let r := (fn.kernel k).results.getD i 0
  (⟨ids, .result k false frame i off (.setForward e)⟩, s.dropRef (frame.getD i 0) (fn.userCount r - 1))

/-- `indirect_value->ForwardTo(TakeRef(new_value))`: the kernel's `+1` goes to the placeholder. -/
def stepSetForward (k : Nat) (frame : List Nat) (i off e : Nat) : Activation × Sys :=
  (⟨ids, .result k false frame i off (.dispatch e true)⟩, s.forwardTo e (frame.getD i 0))

/-- `ProcessUsedBys`: a result without used-by entries only extends the handler's lifetime;
otherwise take its used-by slice, advance `entry_offset` and read the value's state once. -/
def stepDispatch (k : Nat) (pseudo : Bool) (frame : List Nat) (i off rv : Nat)
    (alreadySet : Bool) : Activation × Sys :=
  let n := (fn.kernel k).numUsedBys i
  if n = 0 then (⟨ids, afterDispatch fn k pseudo frame i off rv alreadySet⟩, s.maybeAddRefForResult rv)
  else
    let usedBys := (fn.kernel k).getKernelEntries off n
    let s := s.touch rv
    let st := (s.heap rv).state
    if st.isError then
      (⟨ids, .result k pseudo frame i (off + n) (.accelerate rv alreadySet usedBys usedBys)⟩, s)
    else if st.isAvailable then
      (⟨usedBys.reverse ++ ids, afterDispatch fn k pseudo frame i (off + n) rv alreadySet⟩, s)
    else (⟨ids, .result k pseudo frame i (off + n) (.andThen rv alreadySet usedBys)⟩, s)

/-- `SetKernelsWithErrorInputReady`, one used-by kernel a step; then the append. -/
def stepAccelerate (k : Nat) (pseudo : Bool) (frame : List Nat) (i off rv : Nat)
    (alreadySet : Bool) (pending usedBys : List Nat) : Activation × Sys :=
  match pending with
  | [] => (⟨usedBys.reverse ++ ids, afterDispatch fn k pseudo frame i off rv alreadySet⟩, s)
  | u :: rest => (⟨ids, .result k pseudo frame i off (.accelerate rv alreadySet rest usedBys)⟩,
      s.setKernelWithErrorInputReady u)

/-- `AddRef()` on the executor and `AndThen` of the continuation on the pending value. -/
def stepAndThen (k : Nat) (pseudo : Bool) (frame : List Nat) (i off rv : Nat)
    (alreadySet : Bool) (usedBys : List Nat) : Activation × Sys :=
  (⟨ids, afterDispatch fn k pseudo frame i off rv alreadySet⟩,
    ({ s with execRefs := s.execRefs + 1 }).andThen rv (.usedBys usedBys))

/-- `if (register_already_set) register_value->DropRef()`: the placeholder's forwarding `+1`. -/
def stepDropPlaceholder (k : Nat) (pseudo : Bool) (frame : List Nat) (i off rv : Nat) :
    Activation × Sys :=
  (⟨ids, nextResult fn k pseudo frame i off⟩,
    (s.modify rv fun a => { a with debt := false }).dropRef rv 1)

/-- One step of an activation that has work left. -/
def stepResult (k : Nat) (pseudo : Bool) (frame : List Nat) (i off : Nat) :
    ResultPhase → Activation × Sys
  | .begin => stepBegin fn ids s k pseudo frame i off
  | .unusedDrop => stepUnusedDrop fn ids s k frame i off
  | .setCas => stepSetCas fn ids s k frame i off
  | .setRevert e => stepSetRevert fn ids s k frame i off e
  | .setForward e => stepSetForward ids s k frame i off e
  | .dispatch rv set => stepDispatch fn ids s k pseudo frame i off rv set
  | .accelerate rv set pending usedBys =>
    stepAccelerate fn ids s k pseudo frame i off rv set pending usedBys
  | .andThen rv set usedBys => stepAndThen fn ids s k pseudo frame i off rv set usedBys
  | .dropPlaceholder rv => stepDropPlaceholder fn ids s k pseudo frame i off rv

end Activation

/-- One step of an activation: `none` when its kernel's choice of results is not possible,
`some (none, s)` when the worklist is empty and the call returns. -/
def Activation.step (fn : BEFFunction) (c : List ResultSpec) :
    Activation → Sys → Option (Option Activation × Sys)
  | ⟨[], .idle⟩, s => some (none, s)
  | ⟨k :: ids, .idle⟩, s => some (Prod.map some id (Activation.stepPop fn ids s k))
  | ⟨ids, .gated k⟩, s => some (Prod.map some id (Activation.stepGated fn ids s k))
  | ⟨ids, .bindLoad k bound anyErr⟩, s =>
    some (Prod.map some id (Activation.stepBindLoad fn ids s k bound anyErr))
  | ⟨ids, .bindCas k bound anyErr⟩, s =>
    some (Prod.map some id (Activation.stepBindCas fn ids s k bound anyErr))
  | ⟨ids, .bindCheck k bound anyErr⟩, s =>
    some (Prod.map some id (Activation.stepBindCheck fn ids s k bound anyErr))
  | ⟨ids, .ready k bound anyErr⟩, s =>
    (Activation.stepReady fn ids s c k bound anyErr).map (Prod.map some id)
  | ⟨ids, .dropArg k bound j frame⟩, s =>
    some (Prod.map some id (Activation.stepDropArg fn ids s k bound j frame))
  | ⟨ids, .result k pseudo frame i off ph⟩, s =>
    some (Prod.map some id (Activation.stepResult fn ids s k pseudo frame i off ph))

end BefExecutor
