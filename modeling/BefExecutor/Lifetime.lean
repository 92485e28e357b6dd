/-
# The executor's lifetime

Source: `lib/bef_executor/bef_executor.cc`, The `AddRef`/`DropRef` of the `BEFExecutor` in `ProcessUsedBys` (:279-319) and `Execute` (:635).

`exec_refs_count_holders`: the executor's count is the number of its holders, in every reachable state.
-/
import BefExecutor.Weight

namespace BefExecutor

/-! ## The holders -/

/-- `Execute` holds the executor from the constructor up to its final `DropRef`. -/
def MainPhase.holdsExecutor : MainPhase → Nat
  | .start _ | .done _ => 0
  | _ => 1

/-- `Execute` is past `ReadFunction`. -/
def MainPhase.started : MainPhase → Nat
  | .start _ => 0
  | _ => 1

/-- The weight of `Execute`'s own reference. -/
def executeHoldWeight : Weight where
  task | .main ph => ph.holdsExecutor | _ => 0
  waiter _ := 0
  run := by rintro ⟨v, w⟩; cases w <;> rfl

/-- The weight of the `ProcessUsedBys` continuations, registered or running. -/
def continuationWeight : Weight where
  task | .cont _ => 1 | _ => 0
  waiter | (_, .usedBys _) => 1 | _ => 0
  run := by rintro ⟨v, w⟩; cases w <;> rfl

/-- The weight of an `Execute` past `ReadFunction`. -/
def startedWeight : Weight where
  task | .main ph => ph.started | _ => 0
  waiter _ := 0
  run := by rintro ⟨v, w⟩; cases w <;> rfl

/-- The weight of the `Execute` thread. -/
def executeWeight : Weight where
  task | .main _ => 1 | _ => 0
  waiter _ := 0
  run := by rintro ⟨v, w⟩; cases w <;> rfl

/-- Counting `Execute`'s hold is an executor-only weight. -/
theorem executeHoldWeight_executorOnly : executeHoldWeight.ExecutorOnly := ⟨rfl, fun _ _ => rfl, fun _ => rfl⟩
/-- Counting continuations is an executor-only weight. -/
theorem continuationWeight_executorOnly : continuationWeight.ExecutorOnly := ⟨rfl, fun _ _ => rfl, fun _ => rfl⟩
/-- Counting a started `Execute` is an executor-only weight. -/
theorem startedWeight_executorOnly : startedWeight.ExecutorOnly := ⟨rfl, fun _ _ => rfl, fun _ => rfl⟩
/-- Counting `Execute` threads is an executor-only weight. -/
theorem executeWeight_executorOnly : executeWeight.ExecutorOnly := ⟨rfl, fun _ _ => rfl, fun _ => rfl⟩

namespace Sys

variable (s : Sys)

/-- `1` while `Execute` holds its reference to the executor, else `0`. -/
def executeHolds : Nat := s.weigh executeHoldWeight

/-- The `ProcessUsedBys` continuations registered with `AndThen` and not finished: those still
registered on a pending value and those running, inline or on another thread. -/
def pendingContinuations : Nat := s.weigh continuationWeight

/-- `1` once `Execute` is past `ReadFunction`, else `0`. -/
def executeStarted : Nat := s.weigh startedWeight

/-- The number of `Execute` threads. -/
def executes : Nat := s.weigh executeWeight

/-- A started `Execute` is an `Execute`. -/
theorem executeStarted_le_executes : s.executeStarted ≤ s.executes := by
  refine weigh_le (fun t => ?_) fun _ => le_rfl
  cases t with
  | main ph => cases ph <;> simp [startedWeight, executeWeight, MainPhase.started]
  | _ => exact le_rfl

/-- An `Execute` that holds the executor is an `Execute`. -/
theorem executeHolds_le_executes : s.executeHolds ≤ s.executes := by
  refine weigh_le (fun t => ?_) fun _ => le_rfl
  cases t with
  | main ph => cases ph <;> simp [executeHoldWeight, executeWeight, MainPhase.holdsExecutor]
  | _ => exact le_rfl

end Sys

/-! ## The invariant -/

/-- The executor's count is its holders; it is destroyed at most once, exactly when it was
created and its count is zero; only a created executor has holders; there is one `Execute`. -/
structure ExecInv (fn : BEFFunction) (s : Sys) : Prop where
  refs : s.execRefs = s.executeHolds + s.pendingContinuations
  once : s.execDestroyed ≤ 1
  destroyed : s.execDestroyed = 1 ↔ fn.numKernels ≠ 0 ∧ s.executeStarted = 1 ∧ s.execRefs = 0
  holders : 0 < s.execRefs → fn.numKernels ≠ 0 ∧ s.executeStarted = 1
  unstarted : s.executeStarted = 0 → s.pendingContinuations = 0
  execute : s.executes = 1

namespace ExecInv

variable {fn : BEFFunction} {s s' : Sys}

/-- A step that leaves the counts and the executor-only weights alone. -/
theorem of_eq (hs : ExecInv fn s) (h1 : s'.execRefs = s.execRefs)
    (h2 : s'.execDestroyed = s.execDestroyed)
    (hw : ∀ W : Weight, W.ExecutorOnly → s'.weigh W = s.weigh W) : ExecInv fn s' := by
  have h3 : s'.executeHolds = s.executeHolds := hw _ executeHoldWeight_executorOnly
  have h4 : s'.pendingContinuations = s.pendingContinuations := hw _ continuationWeight_executorOnly
  have h5 : s'.executeStarted = s.executeStarted := hw _ startedWeight_executorOnly
  have h6 : s'.executes = s.executes := hw _ executeWeight_executorOnly
  exact ⟨by rw [h1, h3, h4]; exact hs.refs, by rw [h2]; exact hs.once,
    by rw [h1, h2, h5]; exact hs.destroyed, by rw [h1, h5]; exact hs.holders,
    by rw [h4, h5]; exact hs.unstarted, by rw [h6]; exact hs.execute⟩

end ExecInv

/-! ## What the steps do to the counts -/

namespace Sys

variable {s : Sys}

/-- The executor's `DropRef()`. -/
theorem dropExec_counts :
    s.dropExec.execRefs = s.execRefs - 1 ∧
    (s.execRefs = 1 → s.dropExec.execDestroyed = s.execDestroyed + 1) ∧
    (s.execRefs ≠ 1 → s.dropExec.execDestroyed = s.execDestroyed) := by
  exact ⟨rfl, fun h => if_pos h, fun h => if_neg h⟩

end Sys

/-- An activation step: the continuation it hands off is one more holder and one more
reference. -/
theorem Activation.step_counts {fn : BEFFunction} {c : List ResultSpec} {a : Activation}
    {s s' : Sys} {oa : Option Activation} (h : a.step fn c s = some (oa, s')) :
    s'.executeHolds = s.executeHolds ∧
    s'.pendingContinuations = s.pendingContinuations + a.cur.handoffCount ∧
    s'.executeStarted = s.executeStarted ∧ s'.executes = s.executes ∧
    s'.execRefs = s.execRefs + a.cur.handoffCount ∧ s'.execDestroyed = s.execDestroyed := by
  obtain ⟨hw, hr, hd⟩ := Activation.step_executors h
  have hz : ∀ W : Weight, (∀ p, W.waiter p = 0) → a.cur.handoffWeight W = 0 := fun W hW => by
    unfold Cursor.handoffWeight; cases a.cur.handoff <;> simp [hW]
  have hc : a.cur.handoffWeight continuationWeight = a.cur.handoffCount := by
    unfold Cursor.handoffWeight Cursor.handoffCount; cases a.cur.handoff <;> rfl
  refine ⟨?_, ?_, ?_, ?_, hr, hd⟩
  · rw [Sys.executeHolds, hw _ executeHoldWeight_executorOnly, hz _ fun _ => rfl]; rfl
  · rw [Sys.pendingContinuations, hw _ continuationWeight_executorOnly, hc]; rfl
  · rw [Sys.executeStarted, hw _ startedWeight_executorOnly, hz _ fun _ => rfl]; rfl
  · rw [Sys.executes, hw _ executeWeight_executorOnly, hz _ fun _ => rfl]; rfl

/-- `Execute`'s first step: an empty function only returns; otherwise `Execute` now holds the
executor, which has one reference. -/
theorem startExecute_counts {fn : BEFFunction} {args : List Nat} {s s' : Sys}
    (h : startExecute fn args s = s') :
    s'.pendingContinuations = s.pendingContinuations ∧ s'.executeStarted = s.executeStarted + 1 ∧
    s'.executes = s.executes + 1 ∧ s'.execDestroyed = s.execDestroyed ∧
    ((fn.numKernels = 0 ∧ s'.executeHolds = s.executeHolds ∧ s'.execRefs = s.execRefs) ∨
      (fn.numKernels ≠ 0 ∧ s'.executeHolds = s.executeHolds + 1 ∧ s'.execRefs = 1)) := by
  subst h; unfold startExecute
  split
  · exact ⟨Sys.weigh_spawn _, Sys.weigh_spawn _, Sys.weigh_spawn _, rfl,
      .inl ⟨‹_›, Sys.weigh_spawn _, rfl⟩⟩
  · obtain ⟨heap, regs, mf, hi⟩ := Sys.initializeArgumentRegisters_eq fn args 0 s
    rw [hi]
    exact ⟨Sys.weigh_spawn _, Sys.weigh_spawn _, Sys.weigh_spawn _, rfl,
      .inr ⟨‹_›, Sys.weigh_spawn _, rfl⟩⟩

/-- Any other step of `Execute`: it keeps holding the executor, or makes its final `DropRef`. -/
theorem mainStep_counts {fn : BEFFunction} {c : List ResultSpec} {ph : MainPhase} {s s' : Sys}
    (h : mainStep fn c ph s = some s') (hph : ph.started = 1) :
    s'.executes = s.executes + 1 ∧ s'.executeStarted = s.executeStarted + 1 ∧
    ph.holdsExecutor = 1 ∧ ∃ n,
    ((s'.executeHolds = s.executeHolds + 1 ∧
        s'.pendingContinuations = s.pendingContinuations + n ∧ s'.execRefs = s.execRefs + n ∧
        s'.execDestroyed = s.execDestroyed) ∨
      (s'.executeHolds = s.executeHolds ∧ s'.pendingContinuations = s.pendingContinuations ∧
        s'.execRefs = s.execRefs - 1 ∧
        (s.execRefs = 1 → s'.execDestroyed = s.execDestroyed + 1) ∧
        (s.execRefs ≠ 1 → s'.execDestroyed = s.execDestroyed))) := by
  cases ph with
  | start => cases hph
  | ctor a =>
    simp only [mainStep, Option.map_eq_some'] at h
    obtain ⟨⟨oa, s''⟩, ha, rfl⟩ := h
    obtain ⟨e1, e2, e3, e4, e5, e6⟩ := Activation.step_counts ha
    cases oa <;> exact ⟨(Sys.weigh_spawn _).trans (congrArg (· + 1) e4),
      (Sys.weigh_spawn _).trans (congrArg (· + 1) e3), rfl,
      _, .inl ⟨(Sys.weigh_spawn _).trans (congrArg (· + 1) e1), (Sys.weigh_spawn _).trans e2, e5, e6⟩⟩
  | exportLoad i results =>
    simp only [mainStep] at h
    (repeat' split at h) <;> cases h <;>
      exact ⟨Sys.weigh_spawn _, Sys.weigh_spawn _, rfl, 0, .inl ⟨Sys.weigh_spawn _, Sys.weigh_spawn _, rfl, rfl⟩⟩
  | exportCas i results =>
    simp only [mainStep, Sys.getOrCreateRegisterValue] at h
    split at h <;> cases h
    · exact ⟨Sys.weigh_spawn _, Sys.weigh_spawn _, rfl, 0, .inl ⟨Sys.weigh_spawn _, Sys.weigh_spawn _, rfl, rfl⟩⟩
    · have hw := fun W (hW : Weight.ExecutorOnly W) =>
        Sys.weigh_dropRef_of (s := s.alloc (Sys.placeholder fn (fn.resultRegs.getD i 0))) hW s.next
          (fn.userCount (fn.resultRegs.getD i 0) + 1)
      exact ⟨(Sys.weigh_spawn _).trans (congrArg (· + 1) (hw _ executeWeight_executorOnly)),
        (Sys.weigh_spawn _).trans (congrArg (· + 1) (hw _ startedWeight_executorOnly)), rfl,
        0, .inl ⟨(Sys.weigh_spawn _).trans (congrArg (· + 1) (hw _ executeHoldWeight_executorOnly)),
          (Sys.weigh_spawn _).trans (hw _ continuationWeight_executorOnly), rfl, rfl⟩⟩
  | release results =>
    simp only [mainStep, Option.some.injEq] at h; subst h
    obtain ⟨d1, d2, d3⟩ := Sys.dropExec_counts (s := s)
    exact ⟨Sys.weigh_spawn _, Sys.weigh_spawn _, rfl, 0,
      .inr ⟨Sys.weigh_spawn _, Sys.weigh_spawn _, d1, d2, d3⟩⟩
  | done => cases h

/-- A step of a `ProcessUsedBys` continuation: it hands off continuations, then finishes with
the executor's `DropRef()`. -/
theorem contStep_counts {fn : BEFFunction} {c : List ResultSpec} {a : Activation} {s s' : Sys}
    (h : taskStep fn c (.cont a) s = some s') :
    s'.executes = s.executes ∧ s'.executeStarted = s.executeStarted ∧
    s'.executeHolds = s.executeHolds ∧ ∃ n,
    ((s'.pendingContinuations = s.pendingContinuations + n + 1 ∧ s'.execRefs = s.execRefs + n ∧
        s'.execDestroyed = s.execDestroyed) ∨
      (s'.pendingContinuations = s.pendingContinuations + n ∧ s'.execRefs = s.execRefs + n - 1 ∧
        (s.execRefs + n = 1 → s'.execDestroyed = s.execDestroyed + 1) ∧
        (s.execRefs + n ≠ 1 → s'.execDestroyed = s.execDestroyed))) := by
  simp only [taskStep, Option.map_eq_some'] at h
  obtain ⟨⟨oa, s''⟩, ha, rfl⟩ := h
  obtain ⟨e1, e2, e3, e4, e5, e6⟩ := Activation.step_counts ha
  cases oa with
  | some a' =>
    exact ⟨(Sys.weigh_spawn _).trans e4, (Sys.weigh_spawn _).trans e3,
      (Sys.weigh_spawn _).trans e1, _, .inl ⟨(Sys.weigh_spawn _).trans (congrArg (· + 1) e2), e5, e6⟩⟩
  | none =>
    obtain ⟨d1, d2, d3⟩ := Sys.dropExec_counts (s := s'')
    exact ⟨e4, e3, e1, _, .inr ⟨e2, by rw [d1, e5], fun h => by rw [d2 (e5.trans h), e6],
      fun h => by rw [d3 (e5 ▸ h), e6]⟩⟩

/-- A callback thread does not touch the executor. -/
theorem taskStep_callback_exec {fn : BEFFunction} {c : List ResultSpec} {t : Task}
    (ht : t.isCallback) {s s' : Sys} (h : taskStep fn c t s = some s') :
    s'.execRefs = s.execRefs ∧ s'.execDestroyed = s.execDestroyed := by
  cases t <;> simp [Task.isCallback] at ht <;> simp only [taskStep, Option.some.injEq] at h <;>
    subst h <;> exact ⟨rfl, rfl⟩

/-- Nor does the world. -/
theorem envStep_exec {e : Env} {s s' : Sys} (h : envStep e s = some s') :
    s'.execRefs = s.execRefs ∧ s'.execDestroyed = s.execDestroyed := by
  rcases envStep_cases h with ⟨v, st, -, -, rfl⟩ | ⟨v, -, -, rfl⟩ | ⟨d, -, rfl⟩ <;> exact ⟨rfl, rfl⟩

namespace ExecInv

variable {fn : BEFFunction} {s s' : Sys}

variable {rest : Multiset Task} {c : List ResultSpec}

/-- `Execute` starts. -/
theorem start_step {args : List Nat} (hs : ExecInv fn s) (ht : s.tasks = .main (.start args) ::ₘ rest)
    (h : startExecute fn args { s with tasks := rest } = s') : ExecInv fn s' := by
  have c1 : s.executeHolds = 0 + ({ s with tasks := rest } : Sys).executeHolds := Sys.weigh_cons ht
  have c2 : s.pendingContinuations = 0 + ({ s with tasks := rest } : Sys).pendingContinuations :=
    Sys.weigh_cons ht
  have c3 : s.executeStarted = 0 + ({ s with tasks := rest } : Sys).executeStarted := Sys.weigh_cons ht
  have c4 : s.executes = 1 + ({ s with tasks := rest } : Sys).executes := Sys.weigh_cons ht
  have l1 := ({ s with tasks := rest } : Sys).executeStarted_le_executes
  have l2 := ({ s with tasks := rest } : Sys).executeHolds_le_executes
  obtain ⟨f1, f2, f3, f4, f5⟩ := startExecute_counts h
  obtain ⟨r, o, d, -, u, e⟩ := hs
  simp only at f4 f5
  refine ⟨?_, ?_, ?_, ?_, ?_, ?_⟩ <;> omega

/-- `Execute` past its start. -/
theorem execute_step {ph : MainPhase} (hs : ExecInv fn s) (ht : s.tasks = .main ph ::ₘ rest)
    (hph : ph.started = 1) (h : mainStep fn c ph { s with tasks := rest } = some s') :
    ExecInv fn s' := by
  obtain ⟨f1, f2, f3, n, f4⟩ := mainStep_counts h hph
  have c1 : s.executeHolds = ph.holdsExecutor + ({ s with tasks := rest } : Sys).executeHolds :=
    Sys.weigh_cons ht
  have c2 : s.pendingContinuations = 0 + ({ s with tasks := rest } : Sys).pendingContinuations :=
    Sys.weigh_cons ht
  have c3 : s.executeStarted = ph.started + ({ s with tasks := rest } : Sys).executeStarted :=
    Sys.weigh_cons ht
  have c4 : s.executes = 1 + ({ s with tasks := rest } : Sys).executes := Sys.weigh_cons ht
  have l1 := ({ s with tasks := rest } : Sys).executeStarted_le_executes
  have l2 := ({ s with tasks := rest } : Sys).executeHolds_le_executes
  obtain ⟨r, o, d, hh, -, e⟩ := hs
  simp only at f4
  refine ⟨?_, ?_, ?_, ?_, ?_, ?_⟩ <;> omega

/-- A `ProcessUsedBys` continuation. -/
theorem cont_step {a : Activation} (hs : ExecInv fn s) (ht : s.tasks = .cont a ::ₘ rest)
    (h : taskStep fn c (.cont a) { s with tasks := rest } = some s') : ExecInv fn s' := by
  obtain ⟨f1, f2, f3, n, f4⟩ := contStep_counts h
  have c1 : s.executeHolds = 0 + ({ s with tasks := rest } : Sys).executeHolds := Sys.weigh_cons ht
  have c2 : s.pendingContinuations = 1 + ({ s with tasks := rest } : Sys).pendingContinuations :=
    Sys.weigh_cons ht
  have c3 : s.executeStarted = 0 + ({ s with tasks := rest } : Sys).executeStarted :=
    Sys.weigh_cons ht
  have c4 : s.executes = 0 + ({ s with tasks := rest } : Sys).executes := Sys.weigh_cons ht
  obtain ⟨r, o, d, hh, u, e⟩ := hs
  simp only at f4
  refine ⟨?_, ?_, ?_, ?_, ?_, ?_⟩ <;> omega

/-- A callback's body or a destructor. -/
theorem callback_step {t : Task} (hs : ExecInv fn s) (ht : s.tasks = t ::ₘ rest) (hcb : t.isCallback)
    (h : taskStep fn c t { s with tasks := rest } = some s') : ExecInv fn s' :=
  hs.of_eq (taskStep_callback_exec hcb h).1 (taskStep_callback_exec hcb h).2 fun _ hW =>
    (taskStep_callback_weigh hW hcb h).trans
      (by rw [Sys.weigh_cons ht, hW.callback hcb, Nat.zero_add])

end ExecInv

/-- Every step of a run keeps the invariant. -/
theorem Step.exec {fn : BEFFunction} {s s' : Sys} (h : Step fn s s') (hs : ExecInv fn s) :
    ExecInv fn s' := by
  cases h with
  | env e h =>
    exact hs.of_eq (envStep_exec h).1 (envStep_exec h).2 fun _ hW => envStep_weigh hW h
  | @task t rest c ht h =>
    cases t with
    | main ph =>
      simp only [taskStep] at h
      cases ph with
      | start args =>
        simp only [mainStep, Option.some.injEq] at h
        exact hs.start_step ht h
      | done => cases h
      | _ => exact hs.execute_step ht rfl h
    | cont a => exact hs.cont_step ht h
    | _ => exact hs.callback_step ht rfl h

/-- The executor invariant holds before `Execute`. -/
theorem Initial.exec {fn : BEFFunction} {args : List Nat} {s : Sys} (h : Initial fn args s) :
    ExecInv fn s := by
  have e : ∀ W : Weight, s.weigh W = W.task (.main (.start args)) := fun W => by
    simp [Sys.weigh, h.tasks, h.waiting]
  have e1 : s.executeHolds = 0 := e _
  have e2 : s.pendingContinuations = 0 := e _
  have e3 : s.executeStarted = 0 := e _
  have e4 : s.executes = 1 := e _
  have := h.execRefs
  have := h.execDestroyed
  refine ⟨?_, ?_, ?_, ?_, ?_, ?_⟩ <;> omega

/-- The executor invariant holds in every reachable state. -/
theorem Reachable.exec {fn : BEFFunction} {args : List Nat} {s : Sys}
    (h : Reachable fn args s) : ExecInv fn s := by
  induction h with
  | init h => exact h.exec
  | step _ hst ih => exact hst.exec ih

end BefExecutor
