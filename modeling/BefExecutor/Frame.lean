/-
# Which activations a step makes

Source: `lib/bef_executor/bef_executor.cc`, The threads `DecrementArgumentsNotReadyCounts` runs on: the constructor's and the `AndThen` continuations' (:293-318).

Which steps start an activation and which keep or end one.
-/
import BefExecutor.Weight

namespace BefExecutor

/-- The number of threads running activation `b`; a registered `ProcessUsedBys` closure
weighs what its continuation will. -/
def actWeight (b : Activation) : Weight where
  task t := if t.act = some b then 1 else 0
  waiter p := if (p.2.task p.1).act = some b then 1 else 0
  run _ := rfl

@[simp] theorem actWeight_task (b : Activation) (t : Task) :
    (actWeight b).task t = if t.act = some b then 1 else 0 := rfl

/-- Counting an activation is an executor-only weight. -/
theorem actWeight_executorOnly (b : Activation) : (actWeight b).ExecutorOnly :=
  ⟨rfl, fun _ _ => rfl, fun _ => rfl⟩

/-- A closure starts its continuation at the head of the loop. -/
theorem actWeight_waiter {b : Activation} (hb : b.cur ≠ .idle) (p : Nat × Waiter) :
    (actWeight b).waiter p = 0 := by
  rcases p with ⟨v, w⟩
  cases w with
  | usedBys ids =>
    show (if some _ = some b then 1 else 0) = 0
    rw [if_neg fun h => hb (by rw [← Option.some.inj h])]
  | _ => rfl

/-- `b` is the activation of some thread of `s`. -/
def Sys.Runs (s : Sys) (b : Activation) : Prop := ∃ t ∈ s.tasks, t.act = some b

/-- The activation of a thread of the state runs. -/
theorem Sys.runs_of_tasks {s : Sys} {t : Task} {rest : Multiset Task} {b : Activation}
    (ht : s.tasks = t ::ₘ rest) (hb : t.act = some b) : s.Runs b :=
  ⟨t, ht ▸ Multiset.mem_cons_self _ _, hb⟩

/-- An activation past the loop head runs exactly when its count is positive. -/
theorem Sys.runs_iff {s : Sys} {b : Activation} (hb : b.cur ≠ .idle) :
    s.Runs b ↔ 0 < s.weigh (actWeight b) := by
  have hw : (s.waiting.map (actWeight b).waiter).sum = 0 :=
    Multiset.sum_eq_zero fun x hx => by
      obtain ⟨p, -, rfl⟩ := Multiset.mem_map.1 hx
      exact actWeight_waiter hb p
  rw [Sys.weigh, hw, Nat.add_zero, Nat.pos_iff_ne_zero, Ne, Multiset.sum_eq_zero_iff]
  simp [Sys.Runs, actWeight]

/-- The activation a step starts or moves to. -/
inductive NewAct (fn : BEFFunction) (s s' : Sys) : Activation → Prop where
  /-- `Execute` reaches the constructor's firing loop. -/
  | start {args : List Nat} {rest : Multiset Task} (ht : s.tasks = .main (.start args) ::ₘ rest)
      (hk : fn.numKernels ≠ 0) (h : startExecute fn args { s with tasks := rest } = s') :
      NewAct fn s s' (bootstrap fn (args ≠ []))
  /-- The constructor's activation takes a step. -/
  | ctor {a a' : Activation} {rest : Multiset Task} {c : List ResultSpec} {s'' : Sys}
      (ht : s.tasks = .main (.ctor a) ::ₘ rest)
      (h : a.step fn c { s with tasks := rest } = some (some a', s''))
      (hs : s' = s''.spawn (.main (.ctor a'))) : NewAct fn s s' a'
  /-- A continuation's activation takes a step. -/
  | cont {a a' : Activation} {rest : Multiset Task} {c : List ResultSpec} {s'' : Sys}
      (ht : s.tasks = .cont a ::ₘ rest)
      (h : a.step fn c { s with tasks := rest } = some (some a', s''))
      (hs : s' = s''.spawn (.cont a')) : NewAct fn s s' a'

section Frame

variable {fn : BEFFunction} {s s' : Sys} {b : Activation}

/-- `Execute` up to the firing loop adds only its own next phase. -/
theorem startExecute_weigh (W : Weight) (args : List Nat) (s : Sys) :
    (startExecute fn args s).weigh W = s.weigh W +
      W.task (if fn.numKernels = 0 then .main (.done []) else .main (.ctor (bootstrap fn (args ≠ [])))) := by
  unfold startExecute; split
  · exact Sys.weigh_spawn _
  · obtain ⟨heap, regs, mf, hi⟩ := Sys.initializeArgumentRegisters_eq fn args 0 s
    rw [hi]; exact Sys.weigh_spawn _

/-- `Execute` past the constructor's loop: exporting the results and the final `DropRef`. -/
def MainPhase.later : MainPhase → Bool
  | .start _ | .ctor _ => false
  | _ => true

/-- `Execute` past the constructor's loop adds only its next phase, which is a later one. -/
theorem mainStep_weigh_later {W : Weight} (hW : W.ExecutorOnly) {c : List ResultSpec}
    {ph : MainPhase} (h : mainStep fn c ph s = some s') (hph : ph.later) :
    ∃ ph', ph'.later ∧ s'.weigh W = s.weigh W + W.task (.main ph') := by
  cases ph with
  | start args | ctor a => cases hph
  | exportLoad i results =>
    simp only [mainStep] at h
    (repeat' split at h) <;> cases h <;> exact ⟨_, by rfl, Sys.weigh_spawn _⟩
  | exportCas i results =>
    simp only [mainStep] at h; cases h
    refine ⟨_, ?_, by rw [Sys.weigh_spawn, Sys.weigh_takeRef, Sys.weigh_getOrCreateRegisterValue_of hW]⟩
    rfl
  | release results => cases h; exact ⟨_, by rfl, Sys.weigh_spawn _⟩
  | done => cases h

/-- `Execute`'s steps past the constructor start no activation. -/
theorem mainStep_actWeight {c : List ResultSpec} {ph : MainPhase}
    (h : mainStep fn c ph s = some s') (hph : ph.later) :
    s'.weigh (actWeight b) = s.weigh (actWeight b) := by
  obtain ⟨ph', hl, e⟩ := mainStep_weigh_later (actWeight_executorOnly b) h hph
  rw [e]
  cases ph' with
  | start | ctor => cases hl
  | _ => rfl

/-- A thread's step adds to the threads running a busy activation only by starting or moving
to it: otherwise the activation runs on the other threads. -/
theorem taskStep_actWeight_le {t : Task} {rest : Multiset Task} {c : List ResultSpec}
    (ht : s.tasks = t ::ₘ rest) (h : taskStep fn c t { s with tasks := rest } = some s')
    (hb : b.cur ≠ .idle) :
    s'.weigh (actWeight b) ≤ ({ s with tasks := rest } : Sys).weigh (actWeight b) ∨
      NewAct fn s s' b := by
  have hW := actWeight_executorOnly b
  have hz : ∀ cur : Cursor, cur.handoffWeight (actWeight b) = 0 := fun cur => by
    unfold Cursor.handoffWeight; cases cur.handoff <;> simp [actWeight_waiter hb]
  cases t with
  | main ph =>
    simp only [taskStep] at h
    cases ph with
    | start args =>
      simp only [mainStep, Option.some.injEq] at h
      by_cases hbs : bootstrap fn (args ≠ []) = b
      · by_cases hn : fn.numKernels = 0
        · subst h; rw [startExecute_weigh, if_pos hn]; exact .inl (by simp [Task.act])
        · exact .inr (hbs ▸ .start ht hn h)
      · subst h; rw [startExecute_weigh]
        simp only [ne_eq, decide_not] at hbs
        exact .inl (by split <;> simp [Task.act, hbs])
    | ctor a =>
      simp only [mainStep, Option.map_eq_some'] at h
      obtain ⟨⟨oa, s''⟩, ha, rfl⟩ := h
      have e := (Activation.step_executors ha).1 _ hW
      rw [hz, Nat.add_zero] at e
      cases oa with
      | none => exact .inl (by simp [Sys.weigh_spawn, e, Task.act])
      | some a' =>
        by_cases ha' : a' = b
        · exact .inr (ha' ▸ .ctor ht ha rfl)
        · exact .inl (by simp [Sys.weigh_spawn, e, Task.act, ha'])
    | _ => exact .inl (mainStep_actWeight h rfl).le
  | cont a =>
    simp only [taskStep, Option.map_eq_some'] at h
    obtain ⟨⟨oa, s''⟩, ha, rfl⟩ := h
    have e := (Activation.step_executors ha).1 _ hW
    rw [hz, Nat.add_zero] at e
    cases oa with
    | none => exact .inl (by simp [e])
    | some a' =>
      by_cases ha' : a' = b
      · exact .inr (ha' ▸ .cont ht ha rfl)
      · exact .inl (by simp [Sys.weigh_spawn, e, Task.act, ha'])
  | _ => exact .inl (taskStep_callback_weigh hW (by rfl) h).le

/-- A step adds to the threads running a busy activation only by starting or moving to it. -/
theorem Step.actWeight_le (h : Step fn s s') (hb : b.cur ≠ .idle) :
    s'.weigh (actWeight b) ≤ s.weigh (actWeight b) ∨ NewAct fn s s' b := by
  cases h with
  | env e h => exact .inl (envStep_weigh (actWeight_executorOnly b) h).le
  | @task t rest c ht h =>
    rw [Sys.weigh_cons ht]
    exact (taskStep_actWeight_le ht h hb).imp_left fun h' => h'.trans (Nat.le_add_left _ _)

/-- In a thread's step, each busy activation of the new state ran on another thread, or is the
one the step started or moved to. -/
theorem taskStep_runs_cases {t : Task} {rest : Multiset Task} {c : List ResultSpec}
    (ht : s.tasks = t ::ₘ rest) (h : taskStep fn c t { s with tasks := rest } = some s')
    (hb : b.cur ≠ .idle) (hr : s'.Runs b) :
    ({ s with tasks := rest } : Sys).Runs b ∨ NewAct fn s s' b := by
  rcases taskStep_actWeight_le ht h hb with hle | hn
  · exact .inl ((Sys.runs_iff hb).2 (lt_of_lt_of_le ((Sys.runs_iff hb).1 hr) hle))
  · exact .inr hn

/-- **A step's busy activations**: each one either ran before the step, or is the one the
step started or moved to. -/
theorem Step.runs_cases (h : Step fn s s') (hb : b.cur ≠ .idle) (hr : s'.Runs b) :
    s.Runs b ∨ NewAct fn s s' b := by
  rcases h.actWeight_le hb with hle | hn
  · exact .inl ((Sys.runs_iff hb).2 (lt_of_lt_of_le ((Sys.runs_iff hb).1 hr) hle))
  · exact .inr hn

/-- A weight that only `Execute`'s first phase carries never grows: no step starts that phase. -/
theorem Step.weigh_le_of_start {W : Weight} (hW : W.ExecutorOnly)
    (h0 : ∀ t, (∀ args, t ≠ .main (.start args)) → W.task t = 0) (h : Step fn s s') :
    s'.weigh W ≤ s.weigh W := by
  have hz : ∀ cur : Cursor, cur.handoffWeight W = 0 := fun cur => by
    unfold Cursor.handoffWeight
    cases cur.handoff with
    | none => rfl
    | some p => exact (W.run (p.1, .usedBys p.2)).symm.trans (h0 _ fun _ h => by cases h)
  cases h with
  | env e h => exact (envStep_weigh hW h).le
  | @task t rest c ht h =>
    rw [Sys.weigh_cons ht]
    refine le_trans (le_of_eq ?_) (Nat.le_add_left _ _)
    cases t with
    | main ph =>
      simp only [taskStep] at h
      cases ph with
      | start args =>
        simp only [mainStep, Option.some.injEq] at h; subst h
        rw [startExecute_weigh, h0 _ (by split <;> exact fun _ h => by cases h), Nat.add_zero]
      | ctor a =>
        simp only [mainStep, Option.map_eq_some'] at h
        obtain ⟨⟨oa, s''⟩, ha, rfl⟩ := h
        have e := (Activation.step_executors ha).1 _ hW
        rw [hz, Nat.add_zero] at e
        cases oa <;> rw [Sys.weigh_spawn, e, h0 _ (fun _ h => by cases h), Nat.add_zero]
      | done => cases h
      | _ =>
        obtain ⟨ph', hl, e⟩ := mainStep_weigh_later hW h rfl
        rw [e, h0 _ (fun _ h => by cases h; cases hl), Nat.add_zero]
    | cont a =>
      simp only [taskStep, Option.map_eq_some'] at h
      obtain ⟨⟨oa, s''⟩, ha, rfl⟩ := h
      have e := (Activation.step_executors ha).1 _ hW
      rw [hz, Nat.add_zero] at e
      cases oa
      · exact e
      · rw [Sys.weigh_spawn, e, h0 _ (fun _ h => by cases h), Nat.add_zero]
    | _ => exact taskStep_callback_weigh hW (by rfl) h

end Frame

end BefExecutor
