/-
# One activation per kernel

Source: `lib/bef_executor/bef_executor.cc`, The activation that opens a gate in `DecrementArgumentsNotReadyCounts` (:383-517).

`kernel_frame_exclusive`: no two threads work on one kernel.
-/
import BefExecutor.WellFormed
import BefExecutor.Gate

namespace BefExecutor

/-! ## Counting the activations on a kernel -/

/-- `1` when activation `a` works on kernel `k`. -/
def Activation.occupies (k : Nat) (a : Activation) : Nat := if a.cur.kernel = some k then 1 else 0

/-- The threads whose activation works on kernel `k`; a registered closure will start at the
head of the loop. -/
def occupancyWeight (k : Nat) : Weight where
  task t := (t.act.map (Activation.occupies k)).getD 0
  waiter _ := 0
  run := by rintro ⟨v, w⟩; cases w <;> rfl

/-- Counting the activations on a kernel is an executor-only weight. -/
theorem occupancyWeight_executorOnly (k : Nat) : (occupancyWeight k).ExecutorOnly :=
  ⟨rfl, fun _ _ => rfl, fun _ => rfl⟩

/-- A thread running `a` counts once for the kernel `a` works on. -/
theorem occupancyWeight_act {k : Nat} {t : Task} {a : Activation} (h : t.act = some a) :
    (occupancyWeight k).task t = a.occupies k := by
  simp only [occupancyWeight, h, Option.map_some', Option.getD_some]

@[simp] theorem occupancyWeight_ctor (k : Nat) (a : Activation) :
    (occupancyWeight k).task (.main (.ctor a)) = a.occupies k := rfl

@[simp] theorem occupancyWeight_cont (k : Nat) (a : Activation) :
    (occupancyWeight k).task (.cont a) = a.occupies k := rfl

@[simp] theorem occupancyWeight_of_act {k : Nat} {t : Task} (h : t.act = none) :
    (occupancyWeight k).task t = 0 := by
  simp only [occupancyWeight, h, Option.map_none', Option.getD_none]

/-- **What an activation step does to its kernel**: only the pop that opens a gate moves it
onto a kernel, with one more opening of that gate. -/
theorem Activation.step_occupancy {fn : BEFFunction} {c : List ResultSpec} {a : Activation}
    {oa : Option Activation} {s s' : Sys} (h : a.step fn c s = some (oa, s'))
    (ha : a.cur.Valid fn) (k : Nat) :
    (oa.map (Activation.occupies k)).getD 0 + s.fires k ≤ a.occupies k + s'.fires k := by
  by_cases hb : a.cur = .idle
  · rcases a with ⟨ids, cur⟩
    simp only at hb; subst hb
    cases ids with
    | nil =>
      simp only [Activation.step, Option.some.injEq, Prod.mk.injEq] at h
      obtain ⟨rfl, rfl⟩ := h
      exact Nat.le_refl _
    | cons j ids =>
      simp only [Activation.step, Option.some.injEq, Prod.map, Activation.stepPop,
        Prod.mk.injEq] at h
      obtain ⟨rfl, rfl⟩ := h
      (repeat' split) <;> simp only [Option.map_some', Option.getD_some, id_eq]
      · by_cases hj : j = k
        · subst hj; simp [Activation.occupies, Cursor.kernel]; omega
        · simp [Activation.occupies, Cursor.kernel, hj, Ne.symm hj]
      all_goals simp [Activation.occupies, Cursor.kernel]
  · cases oa with
    | none =>
      rcases a with ⟨ids, cur⟩
      cases cur <;> simp [Activation.step, Prod.map] at h hb
    | some a' =>
      obtain ⟨hs, hf⟩ := Activation.step_stays h hb ha
      simp only [Option.map_some', Option.getD_some, hf, Activation.occupies]
      rcases hs with hs | hs <;> rw [hs]
      simp

/-- A thread step that runs no activation moves no activation onto a kernel. -/
theorem taskStep_occupancy {fn : BEFFunction} {c : List ResultSpec} {t : Task} {s s' : Sys}
    (ht : t.act = none) (h : taskStep fn c t s = some s') (k : Nat) :
    s'.weigh (occupancyWeight k) ≤ s.weigh (occupancyWeight k) := by
  have hW := occupancyWeight_executorOnly k
  cases t with
  | main ph =>
    cases ph with
    | start args =>
      simp only [taskStep, mainStep, Option.some.injEq] at h; subst h
      rw [startExecute_weigh]
      split <;> simp [occupancyWeight, Task.act, Activation.occupies, bootstrap_kernel]
    | ctor a => cases ht
    | done => cases h
    | _ =>
      simp only [taskStep] at h
      obtain ⟨ph', hl, e⟩ := mainStep_weigh_later hW h rfl
      rw [e]
      cases ph' <;> first | exact Nat.le_of_eq (Nat.add_zero _) | cases hl
  | cont a => cases ht
  | _ => exact Nat.le_of_eq (taskStep_callback_weigh hW (by rfl) h)

/-- A thread step that runs activation `a`. -/
theorem taskStep_act_occupancy {fn : BEFFunction} {c : List ResultSpec} {t : Task}
    {a : Activation} {s s' : Sys} (ha : a.cur.Valid fn) (hta : t.act = some a)
    (h : taskStep fn c t s = some s') (k : Nat) :
    s'.weigh (occupancyWeight k) + s.fires k ≤
      a.occupies k + s.weigh (occupancyWeight k) + s'.fires k := by
  have hW := occupancyWeight_executorOnly k
  have hw : ∀ {oa : Option Activation} {s'' : Sys}, a.step fn c s = some (oa, s'') →
      s''.weigh (occupancyWeight k) = s.weigh (occupancyWeight k) := fun h' => by
    rw [(Activation.step_executors h').1 _ hW]
    unfold Cursor.handoffWeight; cases a.cur.handoff <;> rfl
  cases t with
  | main ph =>
    cases ph <;> cases hta
    simp only [taskStep, mainStep, Option.map_eq_some'] at h
    obtain ⟨⟨oa, s''⟩, ha', rfl⟩ := h
    have := Activation.step_occupancy ha' ha k
    cases oa <;>
      simp only [Sys.weigh_spawn, hw ha', Sys.spawn_fires, Option.map_none', Option.map_some',
        Option.getD_none, Option.getD_some, occupancyWeight_ctor, occupancyWeight_of_act, Task.act]
        at this ⊢ <;>
      omega
  | cont b =>
    cases hta
    simp only [taskStep, Option.map_eq_some'] at h
    obtain ⟨⟨oa, s''⟩, ha', rfl⟩ := h
    have := Activation.step_occupancy ha' ha k
    cases oa <;>
      simp only [Sys.weigh_spawn, Sys.weigh_dropExec, hw ha', Sys.spawn_fires, Sys.dropExec_fires,
        Option.map_none', Option.map_some', Option.getD_none, Option.getD_some, occupancyWeight_cont]
        at this ⊢ <;>
      omega
  | _ => cases hta

/-- **What a step does to the activations on a kernel**: the only new one is the one whose
pop opened the kernel's gate. -/
theorem Step.occupancy {fn : BEFFunction} {args : List Nat} {s s' : Sys} (hwf : fn.WellFormed)
    (hr : Reachable fn args s) (h : Step fn s s') (k : Nat) :
    s'.weigh (occupancyWeight k) + s.fires k ≤ s.weigh (occupancyWeight k) + s'.fires k := by
  cases h with
  | env e h =>
    rw [envStep_weigh (occupancyWeight_executorOnly k) h, (envStep_frame h).2]
  | @task t rest c ht h =>
    rw [Sys.weigh_cons ht]
    cases hta : t.act with
    | none =>
      have := taskStep_occupancy hta h k
      have hf : s'.fires = s.fires := (taskStep_frame hta h).2
      rw [hf, occupancyWeight_of_act hta]
      omega
    | some a =>
      have := taskStep_act_occupancy (hr.valid hwf a (Sys.runs_of_tasks ht hta)) hta h k
      rw [occupancyWeight_act hta]
      exact this

/-- **One activation per kernel.** In every reachable state of a well-formed function, the
activations working on kernel `k` are no more than the openings of its gate: at most one,
and none before the gate opened. -/
theorem Reachable.occupancy {fn : BEFFunction} {args : List Nat} {s : Sys} (hwf : fn.WellFormed)
    (h : Reachable fn args s) (k : Nat) : s.weigh (occupancyWeight k) ≤ s.fires k := by
  induction h with
  | init h =>
    simp [Sys.weigh, h.tasks, h.waiting, occupancyWeight, Task.act]
  | step hr hst ih =>
    have := hst.occupancy hwf hr k
    omega

/-- The occupancy weight counts the threads whose activation works on kernel `k`. -/
theorem weigh_occupancyWeight (s : Sys) (k : Nat) :
    s.weigh (occupancyWeight k) =
      s.tasks.countP fun t => (t.act.bind fun a => a.cur.kernel) = some k := by
  have hw : (s.waiting.map (occupancyWeight k).waiter).sum = 0 := by simp [occupancyWeight]
  rw [Sys.weigh, hw, Nat.add_zero]
  induction s.tasks using Multiset.induction_on with
  | empty => rfl
  | cons t ts ih =>
    rw [Multiset.map_cons, Multiset.sum_cons, ih, Multiset.countP_cons, Nat.add_comm]
    cases ht : t.act <;> simp [occupancyWeight, Activation.occupies, ht]

/-- **One thread per kernel.** In every reachable state of a well-formed function, at most one
thread works on kernel `k` (binds its arguments, runs it, drops its arguments or publishes its
results), and none before `k`'s gate has opened: no two threads ever share a kernel's frame. -/
theorem kernel_frame_exclusive {fn : BEFFunction} {args : List Nat} {s : Sys}
    (hwf : fn.WellFormed) (h : Reachable fn args s) (k : Nat) :
    (s.tasks.countP fun t => (t.act.bind fun a => a.cur.kernel) = some k) ≤ 1 ∧
      (s.fires k = 0 → (s.tasks.countP fun t => (t.act.bind fun a => a.cur.kernel) = some k) = 0) := by
  rw [← weigh_occupancyWeight]
  have := h.occupancy hwf k
  have := gate_opens_at_most_once h k
  omega

/-- Kernel `1` of `copyFn`, about to run. -/
theorem kernel_frame_exclusive_copyReady :
    (copyReady.tasks.countP fun t => (t.act.bind fun a => a.cur.kernel) = some 1) ≤ 1 ∧
      (copyReady.fires 1 = 0 →
        (copyReady.tasks.countP fun t => (t.act.bind fun a => a.cur.kernel) = some 1) = 0) :=
  kernel_frame_exclusive copyFn_wellFormed copyReady_reachable 1

end BefExecutor
