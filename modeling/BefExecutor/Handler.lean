/-
# The location handler's lifetime

Source: `lib/bef_executor/bef_executor.cc`, `BEFLocationHandler` (:152-168) and `MaybeAddRefForResult` (:360-364).

`handler_refs_count_holders`: the handler's count is the number of its holders, in every reachable state.
-/
import BefExecutor.Lifetime

namespace BefExecutor

/-- The weight of `MaybeAddRefForResult`'s closures: registered, or running. -/
def handlerWeight : Weight where
  task | .keep => 1 | _ => 0
  waiter | (_, .keepHandler) => 1 | _ => 0
  run := by rintro ⟨v, w⟩; cases w <;> rfl

namespace Sys

variable (s : Sys)

/-- The `MaybeAddRefForResult` closures registered and not yet run, and those running. -/
def handlerClosures : Nat := s.weigh handlerWeight

/-! ### What the primitives do to the handler's holders -/

@[simp] theorem handlerRefs_touch (v : Nat) : (s.touch v).handlerRefs = s.handlerRefs := rfl
@[simp] theorem handlerRefs_addRef (v n : Nat) : (s.addRef v n).handlerRefs = s.handlerRefs := rfl
@[simp] theorem handlerRefs_dropRef (v n : Nat) : (s.dropRef v n).handlerRefs = s.handlerRefs :=
  rfl
@[simp] theorem handlerRefs_modify (v : Nat) (f : AsyncValue → AsyncValue) :
    (s.modify v f).handlerRefs = s.handlerRefs := rfl
@[simp] theorem handlerRefs_andThen (v : Nat) (w : Waiter) :
    (s.andThen v w).handlerRefs = s.handlerRefs := rfl
@[simp] theorem handlerRefs_forwardTo (i t : Nat) : (s.forwardTo i t).handlerRefs = s.handlerRefs :=
  rfl
@[simp] theorem handlerRefs_dropArgRef (r v : Nat) :
    (s.dropArgRef r v).handlerRefs = s.handlerRefs := rfl
@[simp] theorem handlerRefs_setKernelWithErrorInputReady (k : Nat) :
    (s.setKernelWithErrorInputReady k).handlerRefs = s.handlerRefs := rfl

/-- `MaybeAddRefForResult` copies the handler reference for a value that is not available. -/
theorem handlerRefs_maybeAddRefForResult (v : Nat) : (s.maybeAddRefForResult v).handlerRefs =
    s.handlerRefs + if (s.heap v).state.isAvailable then 0 else 1 := by
  simp only [maybeAddRefForResult]; split <;> simp [*]

/-- `GetOrCreateRegisterValue` leaves the handler's count alone. -/
theorem handlerRefs_getOrCreateRegisterValue (fn : BEFFunction) (r : Nat) :
    (s.getOrCreateRegisterValue fn r).2.handlerRefs = s.handlerRefs := by
  simp only [getOrCreateRegisterValue]; split <;> rfl

/-- Running a kernel leaves the handler's count alone. -/
theorem handlerRefs_invoke (bound : List Nat) (c : List ResultSpec) :
    (s.invoke bound c).2.handlerRefs = s.handlerRefs := by
  induction c generalizing s with
  | nil => rfl
  | cons r c ih => cases r <;> exact ih _

@[simp] theorem handlerClosures_assertFailed (b : Bool) :
    ({ s with assertFailed := b } : Sys).handlerClosures = s.handlerClosures := rfl

@[simp] theorem handlerClosures_dropRef (v n : Nat) :
    (s.dropRef v n).handlerClosures = s.handlerClosures := by
  rw [handlerClosures, weigh_dropRef]
  cases (s.heap v).target <;> simp [releaseOf, handlerWeight, handlerClosures]

@[simp] theorem handlerClosures_dropArgRef (r v : Nat) :
    (s.dropArgRef r v).handlerClosures = s.handlerClosures := handlerClosures_dropRef s v 1

@[simp] theorem handlerClosures_forwardTo (i t : Nat) :
    (s.forwardTo i t).handlerClosures = s.handlerClosures := by
  rw [handlerClosures, weigh_forwardTo]; simp [handlerWeight, handlerClosures]

@[simp] theorem handlerClosures_andThen_usedBys (v : Nat) (ids : List Nat) :
    (s.andThen v (.usedBys ids)).handlerClosures = s.handlerClosures := by
  rw [handlerClosures, weigh_andThen]; rfl

/-- `MaybeAddRefForResult` registers one handler closure on a value that is not available. -/
theorem handlerClosures_maybeAddRefForResult (v : Nat) :
    (s.maybeAddRefForResult v).handlerClosures =
      s.handlerClosures + if (s.heap v).state.isAvailable then 0 else 1 := by
  rw [handlerClosures, weigh_maybeAddRefForResult]; rfl

@[simp] theorem handlerClosures_resolve (v : Nat) (st : AVState) :
    (s.resolve v st).handlerClosures = s.handlerClosures := weigh_resolve v st

/-- `GetOrCreateRegisterValue` registers no handler closure. -/
theorem handlerClosures_getOrCreateRegisterValue (fn : BEFFunction) (r : Nat) :
    (s.getOrCreateRegisterValue fn r).2.handlerClosures = s.handlerClosures := by
  simp only [getOrCreateRegisterValue]; split
  · rfl
  · exact handlerClosures_dropRef ..

end Sys

/-! ## An activation moves no holder -/

/-- **An activation step keeps the handler's count level with its closures**: the only step
that changes either is `MaybeAddRefForResult` on a pending result, which adds one to both. -/
theorem Activation.step_handler {fn : BEFFunction} {c : List ResultSpec} {a : Activation}
    {s s' : Sys} {oa : Option Activation} (h : a.step fn c s = some (oa, s')) :
    s'.handlerRefs + s.handlerClosures = s.handlerRefs + s'.handlerClosures := by
  rcases a with ⟨ids, cur⟩
  cases cur with
  | idle =>
    cases ids with
    | nil => simp only [Activation.step, Option.some.injEq, Prod.mk.injEq] at h; rw [← h.2]
    | cons k ids =>
      simp only [Activation.step, Option.some.injEq, Prod.map, Activation.stepPop,
        Prod.mk.injEq] at h
      obtain ⟨-, rfl⟩ := h
      (repeat' split) <;> rfl
  | ready k bound anyErr =>
    simp only [Activation.step, Activation.stepReady, Option.map_eq_some'] at h
    obtain ⟨p, hp, hq⟩ := h
    cases hq
    split at hp
    · split at hp
      · cases hp
        simp only [id_eq, Sys.handlerRefs_invoke, Sys.handlerClosures, Sys.weigh_invoke]
      · cases hp
    · cases hp; rfl
  | bindCas k bound anyErr =>
    simp only [Activation.step, Option.some.injEq, Prod.map, Activation.stepBindCas,
      Prod.mk.injEq] at h
    obtain ⟨-, rfl⟩ := h
    simp only [id_eq, Sys.handlerRefs_getOrCreateRegisterValue, Sys.handlerClosures_getOrCreateRegisterValue]
  | result k pseudo frame i off ph =>
    simp only [Activation.step, Option.some.injEq, Prod.map, Prod.mk.injEq] at h
    obtain ⟨-, rfl⟩ := h
    cases ph with
    | andThen rv set usedBys =>
      simp only [id_eq, Activation.stepResult, Activation.stepAndThen, Sys.handlerRefs_andThen,
        Sys.handlerClosures_andThen_usedBys]; rfl
    | _ =>
      simp only [Activation.stepResult, Activation.stepBegin, Activation.stepUnusedDrop,
        Activation.stepSetCas, Activation.stepSetRevert, Activation.stepSetForward,
        Activation.stepDispatch, Activation.stepAccelerate, Activation.stepDropPlaceholder]
      all_goals (repeat' split) <;>
        simp only [id_eq, Sys.handlerRefs_maybeAddRefForResult,
          Sys.handlerClosures_maybeAddRefForResult, Sys.handlerClosures_assertFailed,
          Sys.handlerRefs_dropRef, Sys.handlerClosures_dropRef, Sys.handlerRefs_forwardTo,
          Sys.handlerClosures_forwardTo, Sys.handlerRefs_addRef, Sys.handlerRefs_modify,
          Sys.handlerRefs_touch, Sys.handlerRefs_setKernelWithErrorInputReady] <;>
        first | omega | rfl
  | dropArg k bound j frame =>
    simp only [Activation.step, Option.some.injEq, Prod.map, Activation.stepDropArg,
      Prod.mk.injEq] at h
    obtain ⟨-, rfl⟩ := h
    simp only [id_eq, Sys.handlerRefs_dropArgRef, Sys.handlerClosures_dropArgRef]
  | _ =>
    simp only [Activation.step, Option.some.injEq, Prod.map, Activation.stepGated,
      Activation.stepBindLoad, Activation.stepBindCheck, Prod.mk.injEq] at h
    obtain ⟨-, rfl⟩ := h
    all_goals (repeat' split) <;> rfl

/-! ## The ledger -/

namespace Sys

variable {s : Sys}

/-- The handler's count is one while the executor lives, plus one for each closure. -/
def HandlerLedger (s : Sys) : Prop :=
  s.handlerRefs = (if 0 < s.execRefs then 1 else 0) + s.handlerClosures

namespace HandlerLedger

variable (h : s.HandlerLedger)
include h

/-- Spawning a thread that holds no handler reference keeps the ledger. -/
theorem spawn {t : Task} (ht : handlerWeight.task t = 0) : (s.spawn t).HandlerLedger := by
  unfold HandlerLedger handlerClosures at *
  rw [weigh_spawn, ht, Nat.add_zero]; exact h

/-- A write to a value keeps the ledger. -/
theorem modify (v : Nat) (f : AsyncValue → AsyncValue) : (s.modify v f).HandlerLedger := h

/-- `DropRef` keeps the ledger. -/
theorem dropRef (v n : Nat) : (s.dropRef v n).HandlerLedger := by
  unfold HandlerLedger at *; rw [handlerClosures_dropRef]; exact h

/-- Resolving a value keeps the ledger: its closures move to the threads that run them. -/
theorem resolve (v : Nat) (st : AVState) : (s.resolve v st).HandlerLedger := by
  unfold HandlerLedger at *; rw [handlerClosures_resolve]; exact h

/-- `GetOrCreateRegisterValue` keeps the ledger. -/
theorem getOrCreateRegisterValue (fn : BEFFunction) (r : Nat) : (s.getOrCreateRegisterValue fn r).2.HandlerLedger := by
  have hx : (s.getOrCreateRegisterValue fn r).2.execRefs = s.execRefs := by
    simp only [Sys.getOrCreateRegisterValue]; split <;> rfl
  unfold HandlerLedger at *
  rw [handlerRefs_getOrCreateRegisterValue, handlerClosures_getOrCreateRegisterValue, hx]; exact h

/-- The executor's `DropRef()`: its last one releases its handler reference. -/
theorem dropExec : s.dropExec.HandlerLedger := by
  have e1 : s.dropExec.handlerClosures = s.handlerClosures := weigh_dropExec
  have e2 : s.dropExec.execRefs = s.execRefs - 1 := rfl
  have e3 : s.dropExec.handlerRefs = if s.execRefs = 1 then s.handlerRefs - 1 else s.handlerRefs :=
    rfl
  unfold HandlerLedger at *
  rw [e1, e2, e3]
  split <;> split <;> split at h <;> omega

/-- An activation step of a live executor. -/
theorem step (hpos : 0 < s.execRefs) {fn : BEFFunction} {c : List ResultSpec} {a : Activation}
    {s' : Sys} {oa : Option Activation} (hs : a.step fn c s = some (oa, s')) :
    s'.HandlerLedger := by
  have e := Activation.step_handler hs
  have hr := (Activation.step_executors hs).2.1
  unfold HandlerLedger at *
  rw [if_pos (by omega)] at h ⊢; omega

/-- The same counts without a thread that holds no handler reference. -/
theorem rest {t : Task} {rest : Multiset Task} (ht : s.tasks = t ::ₘ rest)
    (h0 : handlerWeight.task t = 0) : ({ s with tasks := rest } : Sys).HandlerLedger := by
  show s.handlerRefs = (if 0 < s.execRefs then 1 else 0) + _
  rw [h, handlerClosures, weigh_cons ht, h0, Nat.zero_add]; rfl

end HandlerLedger

end Sys

/-- The handler's holders are counted, and none is a closure before `Execute` starts. -/
structure HandlerInv (s : Sys) : Prop where
  ledger : s.HandlerLedger
  unstarted : s.executeStarted = 0 → s.handlerClosures = 0

namespace HandlerInv

variable {fn : BEFFunction} {s s' : Sys} {rest : Multiset Task} {c : List ResultSpec}

/-- The handler closures of a state split over one thread and the rest. -/
theorem handlerClosures_cons {t : Task} (ht : s.tasks = t ::ₘ rest) :
    s.handlerClosures = handlerWeight.task t + ({ s with tasks := rest } : Sys).handlerClosures :=
  Sys.weigh_cons ht

/-- `Execute` starts: the executor and its handler reference are created together. -/
theorem start_step {args : List Nat} (he : ExecInv fn s) (hs : HandlerInv s)
    (ht : s.tasks = .main (.start args) ::ₘ rest)
    (h : startExecute fn args { s with tasks := rest } = s') : HandlerInv s' := by
  have c1 : s.executes = 1 + ({ s with tasks := rest } : Sys).executes := Sys.weigh_cons ht
  have c2 : s.executeStarted = 0 + ({ s with tasks := rest } : Sys).executeStarted :=
    Sys.weigh_cons ht
  have c3 : s.executeHolds = 0 + ({ s with tasks := rest } : Sys).executeHolds := Sys.weigh_cons ht
  have l1 := ({ s with tasks := rest } : Sys).executeStarted_le_executes
  have l2 := ({ s with tasks := rest } : Sys).executeHolds_le_executes
  have hex := he.execute
  have h0 : s.executeStarted = 0 := by omega
  have hc : ({ s with tasks := rest } : Sys).handlerClosures = 0 := by
    have := hs.unstarted h0; rw [handlerClosures_cons ht] at this; omega
  have hx : s.execRefs = 0 := by rw [he.refs, he.unstarted h0]; omega
  have hh : s.handlerRefs = 0 := by rw [hs.ledger, hx, hs.unstarted h0]; rfl
  refine ⟨?_, fun h1 => absurd h1 (by rw [(startExecute_counts h).2.1]; omega)⟩
  subst h; unfold startExecute; split
  · refine Sys.HandlerLedger.spawn ?_ rfl
    show s.handlerRefs = (if 0 < s.execRefs then 1 else 0) + _
    rw [hc, hh, hx]; rfl
  · obtain ⟨heap, regs, mf, hi⟩ :=
      Sys.initializeArgumentRegisters_eq fn args 0 { s with tasks := rest }
    rw [hi]
    refine Sys.HandlerLedger.spawn ?_ rfl
    show 1 = (if 0 < 1 then 1 else 0) + ({ s with tasks := rest } : Sys).handlerClosures
    rw [hc]; rfl

/-- `Execute` past its start. -/
theorem execute_step {ph : MainPhase} (he : ExecInv fn s) (hs : HandlerInv s)
    (ht : s.tasks = .main ph ::ₘ rest) (hph : ph.started = 1)
    (h : mainStep fn c ph { s with tasks := rest } = some s') : HandlerInv s' := by
  obtain ⟨-, f2, f3, -⟩ := mainStep_counts h hph
  have c1 : s.executeHolds = ph.holdsExecutor + ({ s with tasks := rest } : Sys).executeHolds :=
    Sys.weigh_cons ht
  have hpos : 0 < s.execRefs := by rw [he.refs]; omega
  have hr := hs.ledger.rest ht rfl
  refine ⟨?_, fun h0 => absurd h0 (by rw [f2]; omega)⟩
  cases ph with
  | ctor a =>
    simp only [mainStep, Option.map_eq_some'] at h
    obtain ⟨⟨oa, s''⟩, ha, rfl⟩ := h
    cases oa <;> exact (hr.step hpos ha).spawn rfl
  | exportLoad i results =>
    simp only [mainStep] at h
    (repeat' split at h) <;> cases h <;> exact Sys.HandlerLedger.spawn hr rfl
  | exportCas i results =>
    simp only [mainStep] at h; cases h
    exact Sys.HandlerLedger.spawn (hr.getOrCreateRegisterValue fn _) rfl
  | release results =>
    simp only [mainStep, Option.some.injEq] at h; subst h
    exact hr.dropExec.spawn rfl
  | start => cases hph
  | done => cases h

/-- A `ProcessUsedBys` continuation: the executor lives while it runs. -/
theorem cont_step {a : Activation} (he : ExecInv fn s) (hs : HandlerInv s)
    (ht : s.tasks = .cont a ::ₘ rest)
    (h : taskStep fn c (.cont a) { s with tasks := rest } = some s') : HandlerInv s' := by
  have c2 : s.pendingContinuations = 1 + ({ s with tasks := rest } : Sys).pendingContinuations :=
    Sys.weigh_cons ht
  have c3 : s.executeStarted = 0 + ({ s with tasks := rest } : Sys).executeStarted :=
    Sys.weigh_cons ht
  have hpos : 0 < s.execRefs := by rw [he.refs]; omega
  have hst : s'.executeStarted = s.executeStarted := by rw [(contStep_counts h).2.1]; omega
  have hr := hs.ledger.rest ht rfl
  refine ⟨?_, fun h0 => absurd (he.unstarted (hst ▸ h0)) (by omega)⟩
  simp only [taskStep, Option.map_eq_some'] at h
  obtain ⟨⟨oa, s''⟩, ha, rfl⟩ := h
  cases oa
  · exact (hr.step hpos ha).dropExec
  · exact (hr.step hpos ha).spawn rfl

/-- A callback's body or a destructor: only the handler's closure releases a reference. -/
theorem callback_step {t : Task} (hs : HandlerInv s) (ht : s.tasks = t ::ₘ rest)
    (hcb : t.isCallback) (h : taskStep fn c t { s with tasks := rest } = some s') :
    HandlerInv s' := by
  have hst : s'.executeStarted = s.executeStarted := by
    rw [Sys.executeStarted, taskStep_callback_weigh startedWeight_executorOnly hcb h,
      Sys.executeStarted, Sys.weigh_cons ht, startedWeight_executorOnly.callback hcb, Nat.zero_add]
  have cw := handlerClosures_cons ht
  cases t with
  | keep =>
    simp only [taskStep, Option.some.injEq] at h; subst h
    have hl := hs.ledger
    refine ⟨?_, fun h0 => ?_⟩
    · show s.handlerRefs - 1 =
        (if 0 < s.execRefs then 1 else 0) + ({ s with tasks := rest } : Sys).handlerClosures
      rw [Sys.HandlerLedger, cw, show handlerWeight.task .keep = 1 from rfl] at hl; omega
    · have := hs.unstarted (hst ▸ h0); rw [cw] at this; exact absurd this (by simp [handlerWeight])
  | follow i t' =>
    simp only [taskStep, Option.some.injEq] at h; subst h
    refine ⟨((hs.ledger.rest ht rfl).resolve _ _).dropRef _ _, fun h0 => ?_⟩
    rw [Sys.handlerClosures_dropRef, Sys.handlerClosures_resolve]
    have := hs.unstarted (hst ▸ h0); simp only [cw, handlerWeight] at this; omega
  | release t' =>
    simp only [taskStep, Option.some.injEq] at h; subst h
    refine ⟨(hs.ledger.rest ht rfl).dropRef _ _, fun h0 => ?_⟩
    rw [Sys.handlerClosures_dropRef]
    have := hs.unstarted (hst ▸ h0); simp only [cw, handlerWeight] at this; omega
  | _ => simp [Task.isCallback] at hcb

end HandlerInv

end BefExecutor
