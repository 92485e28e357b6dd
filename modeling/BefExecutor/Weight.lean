/-
# Weights on threads and callbacks

Source: `lib/bef_executor/bef_executor.cc`, Ghost counting over the threads and `AndThen` callbacks of a run.

How each primitive of the model moves a weight, one lemma each.
-/
import Mathlib.Algebra.Order.BigOperators.Group.Multiset
import Mathlib.Algebra.Order.Group.Nat
import BefExecutor.System

namespace BefExecutor

/-- A count over threads and registered callbacks that a callback keeps when it runs. -/
structure Weight where
  task : Task → Nat
  waiter : Nat × Waiter → Nat
  run : ∀ p : Nat × Waiter, task (p.2.task p.1) = waiter p

namespace Weight

/-- A weight that counts only `Execute` and the `ProcessUsedBys` continuations: the handler's
closures, the forwarding closures and the destructors weigh nothing. -/
structure ExecutorOnly (W : Weight) : Prop where
  keep : W.task .keep = 0
  follow : ∀ i t, W.task (.follow i t) = 0
  release : ∀ t, W.task (.release t) = 0

/-- Two counts at once. -/
instance : Add Weight where
  add W V := ⟨fun t => W.task t + V.task t, fun p => W.waiter p + V.waiter p,
    fun p => by simp only [W.run, V.run]⟩

variable {W : Weight}

@[simp] theorem add_task (V : Weight) (t : Task) : (W + V).task t = W.task t + V.task t := rfl
@[simp] theorem add_waiter (V : Weight) (p : Nat × Waiter) :
    (W + V).waiter p = W.waiter p + V.waiter p := rfl

/-- An executor-only weight does not count handler closures. -/
theorem ExecutorOnly.keepHandler (hW : W.ExecutorOnly) (v : Nat) : W.waiter (v, .keepHandler) = 0 :=
  (W.run (v, .keepHandler)).symm.trans hW.keep

/-- An executor-only weight does not count `ForwardTo` closures. -/
theorem ExecutorOnly.forward (hW : W.ExecutorOnly) (v i : Nat) : W.waiter (v, .forward i) = 0 :=
  (W.run (v, .forward i)).symm.trans (hW.follow i v)

/-- An executor-only weight does not count target releases. -/
theorem ExecutorOnly.releaseOf (hW : W.ExecutorOnly) (o : Option Nat) :
    ((Sys.releaseOf o).map W.task).sum = 0 := by
  cases o <;> simp [Sys.releaseOf, hW.release]

end Weight

namespace Sys

variable (W : Weight) (s : Sys)

/-- The total weight of the threads and the registered callbacks. -/
def weigh : Nat := (s.tasks.map W.task).sum + (s.waiting.map W.waiter).sum

variable {W s}

/-- Weighing is additive in the weight. -/
theorem weigh_add (V : Weight) : s.weigh (W + V) = s.weigh W + s.weigh V := by
  simp only [weigh, Weight.add_task, Weight.add_waiter, Multiset.sum_map_add]; omega

/-- A smaller weight weighs less. -/
theorem weigh_le {V : Weight} (h1 : ∀ t, W.task t ≤ V.task t) (h2 : ∀ p, W.waiter p ≤ V.waiter p) :
    s.weigh W ≤ s.weigh V :=
  Nat.add_le_add (Multiset.sum_map_le_sum_map _ _ fun t _ => h1 t)
    (Multiset.sum_map_le_sum_map _ _ fun p _ => h2 p)

/-- The weight of a state depends only on its threads and callbacks. -/
theorem weigh_of_eq {s' : Sys} (h1 : s'.tasks = s.tasks) (h2 : s'.waiting = s.waiting) :
    s'.weigh W = s.weigh W := by
  simp only [weigh, h1, h2]

/-- The weight of a state splits over one thread and the rest. -/
theorem weigh_cons {t : Task} {rest : Multiset Task} (h : s.tasks = t ::ₘ rest) :
    s.weigh W = W.task t + ({ s with tasks := rest } : Sys).weigh W := by
  simp [weigh, h, Nat.add_assoc]

/-- A thread's weight is at most the state's. -/
theorem task_le_weigh {t : Task} (h : t ∈ s.tasks) : W.task t ≤ s.weigh W := by
  obtain ⟨rest, hr⟩ := Multiset.exists_cons_of_mem h
  rw [weigh_cons hr]; exact Nat.le_add_right _ _

/-- Spawning a thread adds its weight. -/
theorem weigh_spawn (t : Task) : (s.spawn t).weigh W = s.weigh W + W.task t := by
  simp [weigh, spawn, Nat.add_right_comm]

/-- The callbacks of a value that becomes available run with their weight. -/
theorem weigh_run (v : Nat) :
    ((s.waitersOn v).map (fun p => p.2.task p.1)).map W.task = (s.waitersOn v).map W.waiter := by
  rw [Multiset.map_map]; exact Multiset.map_congr rfl fun p _ => W.run p

/-- The callbacks split into those on `v` and the others. -/
theorem waiting_split (v : Nat) (g : Nat × Waiter → Nat) :
    ((s.waitersOn v).map g).sum + ((s.waitersOff v).map g).sum = (s.waiting.map g).sum := by
  rw [← Multiset.sum_add, ← Multiset.map_add, waitersOn, waitersOff, Multiset.filter_add_not]

/-- Resolving a value moves its callbacks to the threads that run them, keeping the weight. -/
theorem weigh_resolve (v : Nat) (st : AVState) : (s.resolve v st).weigh W = s.weigh W := by
  simp only [weigh, resolve, Multiset.map_add, Multiset.sum_add, weigh_run]
  rw [← waiting_split v W.waiter]; omega

/-- `AndThen` adds the callback's weight. -/
theorem weigh_andThen (v : Nat) (w : Waiter) :
    (s.andThen v w).weigh W = s.weigh W + W.waiter (v, w) := by
  by_cases h : (s.heap v).state.isAvailable
  · simp [weigh, andThen, h, ← W.run (v, w), Nat.add_right_comm]
  · simp [weigh, andThen, h, Nat.add_assoc]

/-- `DropRef` adds the release of a forwarded target, when it frees the value. -/
theorem weigh_dropRef (v n : Nat) :
    (s.dropRef v n).weigh W = s.weigh W +
      if 0 < n ∧ (s.heap v).refs ≤ n then ((releaseOf (s.heap v).target).map W.task).sum
      else 0 := by
  by_cases h : 0 < n ∧ (s.heap v).refs ≤ n
  · simp [weigh, dropRef, h, Nat.add_right_comm]
  · simp [weigh, dropRef, h]

/-- `ForwardTo` adds its closure's weight when the target is not available. -/
theorem weigh_forwardTo (i t : Nat) :
    (s.forwardTo i t).weigh W = s.weigh W +
      if (s.heap t).state.isAvailable then 0 else W.waiter (t, .forward i) := by
  by_cases h : (s.heap t).state.isAvailable
  · simp only [weigh, forwardTo, h, if_true, Multiset.map_add, Multiset.sum_add, weigh_run]
    have := waiting_split (s := s) i W.waiter
    simp only [show (fun x => W.task x) = W.task from rfl,
      show (fun x => W.waiter x) = W.waiter from rfl]
    omega
  · simp [weigh, forwardTo, h, Nat.add_assoc]

/-! ### Steps that register no callback and start no thread -/

@[simp] theorem weigh_modify (v : Nat) (f : AsyncValue → AsyncValue) :
    (s.modify v f).weigh W = s.weigh W := rfl
@[simp] theorem weigh_alloc (a : AsyncValue) : (s.alloc a).weigh W = s.weigh W := rfl
@[simp] theorem weigh_touch (v : Nat) : (s.touch v).weigh W = s.weigh W := rfl
@[simp] theorem weigh_addRef (v n : Nat) : (s.addRef v n).weigh W = s.weigh W := rfl
@[simp] theorem weigh_takeRef (r v : Nat) : (s.takeRef r v).weigh W = s.weigh W := rfl
@[simp] theorem weigh_dropExec : s.dropExec.weigh W = s.weigh W := rfl
@[simp] theorem weigh_setKernelWithErrorInputReady (k : Nat) :
    (s.setKernelWithErrorInputReady k).weigh W = s.weigh W := rfl

@[simp] theorem weigh_invoke (bound : List Nat) (c : List ResultSpec) :
    (s.invoke bound c).2.weigh W = s.weigh W := by
  induction c generalizing s with
  | nil => rfl
  | cons r c ih => cases r <;> exact ih

/-- `MaybeAddRefForResult` adds a handler closure when the value is not available. -/
theorem weigh_maybeAddRefForResult (v : Nat) :
    (s.maybeAddRefForResult v).weigh W = s.weigh W +
      if (s.heap v).state.isAvailable then 0 else W.waiter (v, .keepHandler) := by
  by_cases h : (s.heap v).state.isAvailable <;> simp [weigh, maybeAddRefForResult, h, Nat.add_assoc]

/-! ### Executor-only weights -/

/-- `DropRef` keeps an executor-only weight. -/
theorem weigh_dropRef_of (hW : W.ExecutorOnly) (v n : Nat) :
    (s.dropRef v n).weigh W = s.weigh W := by
  simp [weigh_dropRef, hW.releaseOf]

/-- An argument's `DropRef` keeps an executor-only weight. -/
theorem weigh_dropArgRef_of (hW : W.ExecutorOnly) (r v : Nat) :
    (s.dropArgRef r v).weigh W = s.weigh W :=
  weigh_dropRef_of hW v 1

/-- `MaybeAddRefForResult` keeps an executor-only weight. -/
theorem weigh_maybeAddRefForResult_of (hW : W.ExecutorOnly) (v : Nat) :
    (s.maybeAddRefForResult v).weigh W = s.weigh W := by
  simp [weigh_maybeAddRefForResult, hW.keepHandler]

/-- `ForwardTo` keeps an executor-only weight. -/
theorem weigh_forwardTo_of (hW : W.ExecutorOnly) (i t : Nat) :
    (s.forwardTo i t).weigh W = s.weigh W := by
  simp [weigh_forwardTo, hW.forward]

/-- `GetOrCreateRegisterValue` keeps an executor-only weight. -/
theorem weigh_getOrCreateRegisterValue_of (hW : W.ExecutorOnly) (fn : BEFFunction) (r : Nat) :
    (s.getOrCreateRegisterValue fn r).2.weigh W = s.weigh W := by
  simp only [getOrCreateRegisterValue]; split
  · rfl
  · exact weigh_dropRef_of hW _ _

end Sys

/-- What the world does weighs nothing on executor threads. -/
theorem envStep_weigh {W : Weight} (hW : W.ExecutorOnly) {e : Env} {s s' : Sys}
    (h : envStep e s = some s') : s'.weigh W = s.weigh W := by
  rcases envStep_cases h with ⟨v, st, -, -, rfl⟩ | ⟨v, -, -, rfl⟩ | ⟨d, -, rfl⟩
  · exact Sys.weigh_resolve _ _
  · exact Sys.weigh_dropRef_of hW _ _
  · rfl

/-- The threads that run a callback's body or a destructor, not executor code. -/
def Task.isCallback : Task → Bool
  | .keep | .follow _ _ | .release _ => true
  | _ => false

/-- An executor-only weight gives a callback thread nothing. -/
theorem Weight.ExecutorOnly.callback {W : Weight} (hW : W.ExecutorOnly) {t : Task}
    (ht : t.isCallback) : W.task t = 0 := by
  cases t with
  | keep => exact hW.keep
  | follow i t => exact hW.follow i t
  | release t => exact hW.release t
  | _ => simp [Task.isCallback] at ht

/-- A callback thread leaves the executor-only weights of the others alone. -/
theorem taskStep_callback_weigh {W : Weight} (hW : W.ExecutorOnly) {fn : BEFFunction}
    {c : List ResultSpec} {t : Task} (ht : t.isCallback) {s s' : Sys}
    (h : taskStep fn c t s = some s') : s'.weigh W = s.weigh W := by
  cases t with
  | keep => simp only [taskStep, Option.some.injEq] at h; subst h; rfl
  | follow i t =>
    simp only [taskStep, Option.some.injEq] at h; subst h
    rw [Sys.weigh_dropRef_of hW, Sys.weigh_resolve]
  | release t => simp only [taskStep, Option.some.injEq] at h; subst h; exact Sys.weigh_dropRef_of hW _ _
  | _ => simp [Task.isCallback] at ht

/-- The continuation a step at this position hands to `AndThen`: `ProcessUsedBys`' closure
on a pending register value, with its used-by kernels. -/
def Cursor.handoff : Cursor → Option (Nat × List Nat)
  | .result _ _ _ _ _ (.andThen rv _ usedBys) => some (rv, usedBys)
  | _ => none

/-- The weight of that continuation. -/
def Cursor.handoffWeight (W : Weight) (cur : Cursor) : Nat :=
  (cur.handoff.map fun p => W.waiter (p.1, .usedBys p.2)).getD 0

/-- The number of continuations a step at this position hands off: one or none. -/
def Cursor.handoffCount (cur : Cursor) : Nat := (cur.handoff.map fun _ => 1).getD 0

/-- Running a kernel leaves the executor's count alone. -/
theorem invoke_executor (bound : List Nat) (c : List ResultSpec) (s : Sys) :
    (s.invoke bound c).2.execRefs = s.execRefs ∧
      (s.invoke bound c).2.execDestroyed = s.execDestroyed := by
  induction c generalizing s with
  | nil => exact ⟨rfl, rfl⟩
  | cons r c ih => cases r <;> exact ih _

/-- **What an activation step does to the executor's holders**: nothing, except that handing
a continuation to `AndThen` adds its weight and one executor reference. -/
theorem Activation.step_executors {fn : BEFFunction} {c : List ResultSpec} {a : Activation}
    {s s' : Sys} {oa : Option Activation} (h : a.step fn c s = some (oa, s')) :
    (∀ W : Weight, W.ExecutorOnly → s'.weigh W = s.weigh W + a.cur.handoffWeight W) ∧
      s'.execRefs = s.execRefs + a.cur.handoffCount ∧ s'.execDestroyed = s.execDestroyed := by
  rcases a with ⟨ids, cur⟩
  cases cur with
  | idle =>
    cases ids with
    | nil =>
      simp only [Activation.step, Option.some.injEq, Prod.mk.injEq] at h
      rw [← h.2]; exact ⟨fun _ _ => rfl, rfl, rfl⟩
    | cons k ids =>
      simp only [Activation.step, Option.some.injEq, Prod.map, Activation.stepPop,
        Prod.mk.injEq] at h
      obtain ⟨-, rfl⟩ := h
      (repeat' split) <;> exact ⟨fun _ _ => rfl, rfl, rfl⟩
  | ready k bound anyErr =>
    simp only [Activation.step, Activation.stepReady, Option.map_eq_some'] at h
    obtain ⟨p, hp, hq⟩ := h
    cases hq
    split at hp
    · split at hp
      · cases hp; exact ⟨fun _ _ => Sys.weigh_invoke _ _, invoke_executor _ _ _⟩
      · cases hp
    · cases hp; exact ⟨fun _ _ => rfl, rfl, rfl⟩
  | result k pseudo frame i off ph =>
    cases ph with
    | andThen rv set usedBys =>
      simp only [Activation.step, Option.some.injEq, Prod.map, Activation.stepResult,
        Activation.stepAndThen, Prod.mk.injEq] at h
      obtain ⟨-, rfl⟩ := h
      exact ⟨fun _ _ => Sys.weigh_andThen _ _, rfl, rfl⟩
    | _ =>
      simp only [Activation.step, Option.some.injEq, Prod.map, Activation.stepResult,
        Activation.stepBegin, Activation.stepUnusedDrop, Activation.stepSetCas,
        Activation.stepSetRevert, Activation.stepSetForward, Activation.stepDispatch,
        Activation.stepAccelerate, Activation.stepDropPlaceholder, Prod.mk.injEq] at h
      obtain ⟨-, rfl⟩ := h
      all_goals (repeat' split) <;> refine ⟨fun W hW => ?_, rfl, rfl⟩ <;>
        simp only [id_eq, Sys.weigh_maybeAddRefForResult_of hW, Sys.weigh_dropRef_of hW,
          Sys.weigh_forwardTo_of hW, Sys.weigh_addRef, Sys.weigh_modify, Sys.weigh_touch,
          Sys.weigh_setKernelWithErrorInputReady] <;> rfl
  | _ =>
    simp only [Activation.step, Option.some.injEq, Prod.map, Activation.stepGated,
      Activation.stepBindLoad, Activation.stepBindCas, Activation.stepBindCheck,
      Activation.stepDropArg, Prod.mk.injEq, Sys.getOrCreateRegisterValue] at h
    obtain ⟨-, rfl⟩ := h
    all_goals (repeat' split) <;> refine ⟨fun W hW => ?_, rfl, rfl⟩ <;>
      simp only [id_eq, Sys.weigh_dropRef_of hW, Sys.weigh_dropArgRef_of hW,
        Sys.weigh_alloc, Sys.weigh_touch] <;> rfl

end BefExecutor
