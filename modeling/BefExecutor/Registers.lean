/-
# Each register is assigned once

Source: `lib/bef_executor/bef_executor.cc`, `GetOrCreateRegisterValue` (:55-84), `SetRegisterValue` (:109-148), `InitializeArgumentRegisters` (:570-582).

`Reachable.regsGrow_star`: a register once set keeps its value along every run.
-/
import Mathlib.Data.List.GetD
import BefExecutor.Lifetime
import BefExecutor.Cursor

namespace BefExecutor

/-- No register that holds a value loses it or changes it. -/
def RegsGrow (s s' : Sys) : Prop := ∀ r v, s.regs r = some v → s'.regs r = some v

namespace RegsGrow

variable {s s' s'' : Sys}

/-- Every state keeps its own registers. -/
theorem refl (s : Sys) : RegsGrow s s := fun _ _ => id

/-- Keeping the registers composes along a run. -/
theorem trans (h : RegsGrow s s') (h' : RegsGrow s' s'') : RegsGrow s s'' :=
  fun r v hv => h' r v (h r v hv)

/-- A step that writes no register keeps them. -/
theorem of_eq (h : s'.regs = s.regs) : RegsGrow s s' := fun _ _ hv => h ▸ hv

/-- A compare-and-swap from null. -/
theorem set {r v : Nat} (h : s.regs r = none) (h' : s'.regs = Function.update s.regs r (some v)) :
    RegsGrow s s' := by
  intro r' v' hv; rw [h']
  by_cases hr : r' = r
  · subst hr; rw [h] at hv; cases hv
  · rw [Function.update_noteq hr]; exact hv

end RegsGrow

/-! ## The writes -/

/-- **`GetOrCreateRegisterValue` returns the register's value**: its swap only fills a null
register, and what it returns is what the register holds afterwards. -/
theorem Sys.getOrCreateRegisterValue_spec (fn : BEFFunction) (r : Nat) (s : Sys) :
    RegsGrow s (s.getOrCreateRegisterValue fn r).2 ∧
      (s.getOrCreateRegisterValue fn r).2.regs r = some (s.getOrCreateRegisterValue fn r).1 := by
  simp only [Sys.getOrCreateRegisterValue]; split
  · exact ⟨.set ‹_› rfl, by simp⟩
  · exact ⟨.of_eq rfl, ‹_›⟩

/-- Running a kernel writes no register. -/
theorem invoke_regs (bound : List Nat) (c : List ResultSpec) (s : Sys) :
    (Sys.invoke bound c s).2.regs = s.regs := by
  induction c generalizing s with
  | nil => rfl
  | cons r c ih => cases r <;> exact ih _

/-- An activation only fills null registers. -/
theorem Activation.step_regsGrow {fn : BEFFunction} {c : List ResultSpec} {a : Activation}
    {s s' : Sys} {oa : Option Activation} (h : a.step fn c s = some (oa, s')) : RegsGrow s s' := by
  rcases a with ⟨ids, cur⟩
  cases cur with
  | idle =>
    cases ids with
    | nil => simp only [Activation.step, Option.some.injEq, Prod.mk.injEq] at h; exact .of_eq (h.2 ▸ rfl)
    | cons k ids =>
      simp only [Activation.step, Option.some.injEq, Prod.map, Activation.stepPop,
        Prod.mk.injEq] at h
      obtain ⟨-, rfl⟩ := h
      (repeat' split) <;> exact .of_eq rfl
  | bindCas k bound anyErr =>
    simp only [Activation.step, Option.some.injEq, Prod.map, Activation.stepBindCas,
      Prod.mk.injEq] at h
    obtain ⟨-, rfl⟩ := h
    exact (Sys.getOrCreateRegisterValue_spec _ _ _).1
  | ready k bound anyErr =>
    simp only [Activation.step, Activation.stepReady, Option.map_eq_some'] at h
    obtain ⟨p, hp, hq⟩ := h
    cases hq
    split at hp
    · split at hp
      · cases hp; exact .of_eq (invoke_regs _ _ _)
      · cases hp
    · cases hp; exact .of_eq rfl
  | result k pseudo frame i off ph =>
    cases ph with
    | setCas =>
      simp only [Activation.step, Option.some.injEq, Prod.map, Activation.stepResult,
        Activation.stepSetCas, Prod.mk.injEq] at h
      obtain ⟨-, rfl⟩ := h
      split
      · exact .set ‹_› rfl
      · split <;> exact .of_eq rfl
    | _ =>
      simp only [Activation.step, Option.some.injEq, Prod.map, Activation.stepResult,
        Activation.stepBegin, Activation.stepUnusedDrop, Activation.stepSetRevert,
        Activation.stepSetForward, Activation.stepDispatch, Activation.stepAccelerate,
        Activation.stepAndThen, Activation.stepDropPlaceholder, Prod.mk.injEq] at h
      obtain ⟨-, rfl⟩ := h
      all_goals (repeat' split) <;> exact .of_eq rfl
  | _ =>
    simp only [Activation.step, Option.some.injEq, Prod.map, Activation.stepGated,
      Activation.stepBindLoad, Activation.stepBindCheck, Activation.stepDropArg,
      Prod.mk.injEq] at h
    obtain ⟨-, rfl⟩ := h
    all_goals (repeat' split) <;> exact .of_eq rfl

/-- `Execute` past `ReadFunction` only fills null registers. -/
theorem mainStep_regsGrow {fn : BEFFunction} {c : List ResultSpec} {ph : MainPhase} {s s' : Sys}
    (h : mainStep fn c ph s = some s') (hph : ph.started = 1) : RegsGrow s s' := by
  cases ph with
  | start => cases hph
  | ctor a =>
    simp only [mainStep, Option.map_eq_some'] at h
    obtain ⟨⟨oa, s''⟩, ha, rfl⟩ := h
    cases oa <;> exact (Activation.step_regsGrow ha).trans (.of_eq rfl)
  | exportLoad i results =>
    simp only [mainStep] at h
    (repeat' split at h) <;> cases h <;> exact .of_eq rfl
  | exportCas i results =>
    simp only [mainStep] at h; cases h
    exact (Sys.getOrCreateRegisterValue_spec _ _ _).1
  | release results => cases h; exact .of_eq rfl
  | done => cases h

/-- Callbacks and the world never write a register. -/
theorem taskStep_callback_regs {fn : BEFFunction} {c : List ResultSpec} {t : Task}
    (ht : t.isCallback) {s s' : Sys} (h : taskStep fn c t s = some s') : s'.regs = s.regs := by
  cases t <;> simp [Task.isCallback] at ht <;> simp only [taskStep, Option.some.injEq] at h <;>
    subst h <;> rfl

/-- The environment writes no register. -/
theorem envStep_regs {e : Env} {s s' : Sys} (h : envStep e s = some s') : s'.regs = s.regs := by
  rcases envStep_cases h with ⟨v, st, -, -, rfl⟩ | ⟨v, -, -, rfl⟩ | ⟨d, -, rfl⟩ <;> rfl

/-! ## Along a run -/

/-- Before `Execute` reaches `ReadFunction`, no register is set. -/
theorem Reachable.regs_of_unstarted {fn : BEFFunction} {args : List Nat} {s : Sys}
    (h : Reachable fn args s) (h0 : s.executeStarted = 0) (r : Nat) : s.regs r = none := by
  induction h with
  | init h => exact h.regs r
  | @step s s' hr hst ih =>
    have inv := hr.exec
    cases hst with
    | env e h =>
      rw [envStep_regs h]
      exact ih ((envStep_weigh startedWeight_executorOnly h).symm.trans h0)
    | @task t rest c ht h =>
      cases t with
      | main ph =>
        have hs : s.executeStarted = ph.started + ({ s with tasks := rest } : Sys).executeStarted :=
          Sys.weigh_cons ht
        simp only [taskStep] at h
        cases ph with
        | start args =>
          have := (startExecute_counts (Option.some.inj h)).2.1; omega
        | done => cases h
        | _ => have := (mainStep_counts h rfl).2.1; omega
      | cont a =>
        have hs : s.executeStarted = 0 + ({ s with tasks := rest } : Sys).executeStarted :=
          Sys.weigh_cons ht
        have hp : s.pendingContinuations = 1 + ({ s with tasks := rest } : Sys).pendingContinuations :=
          Sys.weigh_cons ht
        have := (contStep_counts h).2.1
        have := inv.unstarted; omega
      | _ =>
        have hs : s.executeStarted = 0 + ({ s with tasks := rest } : Sys).executeStarted :=
          Sys.weigh_cons ht
        have e : s'.executeStarted = ({ s with tasks := rest } : Sys).executeStarted :=
          taskStep_callback_weigh startedWeight_executorOnly (by rfl) h
        rw [taskStep_callback_regs (by rfl) h]
        exact ih (by omega)

/-- **Registers are assigned once.** From every reachable state, a step keeps every register
that holds a value at that value. -/
theorem Reachable.regsGrow {fn : BEFFunction} {args : List Nat} {s s' : Sys}
    (hr : Reachable fn args s) (h : Step fn s s') : RegsGrow s s' := by
  cases h with
  | env e h => exact .of_eq (envStep_regs h)
  | @task t rest c ht h =>
    cases t with
    | main ph =>
      simp only [taskStep] at h
      cases ph with
      | start args' =>
        have inv := hr.exec
        have c1 : s.executes = 1 + ({ s with tasks := rest } : Sys).executes := Sys.weigh_cons ht
        have c2 : s.executeStarted = 0 + ({ s with tasks := rest } : Sys).executeStarted :=
          Sys.weigh_cons ht
        have := ({ s with tasks := rest } : Sys).executeStarted_le_executes
        have h0 : s.executeStarted = 0 := by have := inv.execute; omega
        intro r v hv; rw [hr.regs_of_unstarted h0 r] at hv; cases hv
      | done => cases h
      | _ => exact (mainStep_regsGrow h (by rfl) : RegsGrow { s with tasks := rest } s')
    | cont a =>
      simp only [taskStep, Option.map_eq_some'] at h
      obtain ⟨⟨oa, s''⟩, ha, rfl⟩ := h
      cases oa <;> exact ((Activation.step_regsGrow ha).trans (.of_eq rfl) :
        RegsGrow { s with tasks := rest } _)
    | _ => have := taskStep_callback_regs (by rfl) h; exact .of_eq this

/-- A state reached by steps from a reachable state is reachable. -/
theorem Reachable.star {fn : BEFFunction} {args : List Nat} {s s' : Sys}
    (hr : Reachable fn args s) (h : Relation.ReflTransGen (Step fn) s s') : Reachable fn args s' := by
  induction h with
  | refl => exact hr
  | tail _ hst ih => exact ih.step hst

/-- Named steps make a stretch of a run. -/
theorem runSched_star {fn : BEFFunction} {xs : List Sched} {s s' : Sys}
    (hx : runSched fn xs s = some s') : Relation.ReflTransGen (Step fn) s s' := by
  induction xs generalizing s with
  | nil => cases hx; exact .refl
  | cons x xs ih =>
    simp only [runSched, Option.bind_eq_some] at hx
    obtain ⟨s₁, h₁, h₂⟩ := hx
    exact .head (schedStep_step h₁) (ih h₂)

/-- Along any stretch of a run, a set register keeps its value. -/
theorem Reachable.regsGrow_star {fn : BEFFunction} {args : List Nat} {s s' : Sys}
    (hr : Reachable fn args s) (h : Relation.ReflTransGen (Step fn) s s') : RegsGrow s s' := by
  induction h with
  | refl => exact .refl _
  | tail hss' hst ih => exact ih.trans ((hr.star hss').regsGrow hst)

/-- From kernel `1` of `copyFn` about to run to the end of the run. -/
theorem regsGrow_star_copyRun : RegsGrow copyReady copyDone :=
  copyReady_reachable.regsGrow_star (runSched_star (Option.some_get _).symm)

/-! ## What the threads see -/

/-- The value a result phase publishes through: the one `SetRegisterValue` installed or found. -/
def ResultPhase.regValue : ResultPhase → Option Nat
  | .dispatch rv _ | .accelerate rv _ _ _ | .andThen rv _ _ | .dropPlaceholder rv => some rv
  | _ => none

/-- The value `SetRegisterValue`'s lost swap found in the register. -/
def ResultPhase.found : ResultPhase → Option Nat
  | .setRevert e | .setForward e => some e
  | _ => none

/-- An activation sees the registers: its bound arguments are its argument registers' values,
and the value it publishes a result through is the result register's value. -/
def Cursor.Agrees (fn : BEFFunction) (s : Sys) : Cursor → Prop
  | .bindLoad k bound _ | .bindCas k bound _ | .bindCheck k bound _ | .ready k bound _
  | .dropArg k bound _ _ =>
    ∀ j < bound.length, s.regs ((fn.kernel k).arguments.getD j 0) = some (bound.getD j 0)
  | .result k pseudo _ i _ ph =>
    (∀ v ∈ ph.regValue, s.regs (((fn.kernel k).resultRegs pseudo).getD i 0) = some v) ∧
      ∀ e ∈ ph.found, s.regs ((fn.kernel k).results.getD i 0) = some e
  | .idle | .gated _ => True

/-- What an activation has read from the registers stays there. -/
theorem Cursor.Agrees.mono {fn : BEFFunction} {s s' : Sys} {cur : Cursor} (h : RegsGrow s s')
    (ha : cur.Agrees fn s) : cur.Agrees fn s' := by
  cases cur with
  | result k pseudo frame i off ph => exact ⟨fun v hv => h _ _ (ha.1 v hv), fun e he => h _ _ (ha.2 e he)⟩
  | idle | gated => trivial
  | _ => exact fun j hj => h _ _ (ha j hj)

/-- Binding one more argument keeps the bound ones. -/
theorem agrees_append {fn : BEFFunction} {s : Sys} {k : Nat} {bound : List Nat} {v : Nat}
    (ha : ∀ j < bound.length, s.regs ((fn.kernel k).arguments.getD j 0) = some (bound.getD j 0))
    (hv : s.regs ((fn.kernel k).arguments.getD bound.length 0) = some v) :
    ∀ j < (bound ++ [v]).length,
      s.regs ((fn.kernel k).arguments.getD j 0) = some ((bound ++ [v]).getD j 0) := by
  intro j hj
  simp only [List.length_append, List.length_singleton] at hj
  rcases Nat.lt_succ_iff_lt_or_eq.1 hj with hj | rfl
  · rw [List.getD_append _ _ _ _ hj]; exact ha j hj
  · rw [List.getD_append_right _ _ _ _ le_rfl, Nat.sub_self]; exact hv


section Agrees

variable {fn : BEFFunction} {s : Sys} {k : Nat} {pseudo : Bool} {frame : List Nat} {i off : Nat}

/-- Binding leads to a position whose arguments are in their registers. -/
theorem afterBind_agrees {bound : List Nat} (anyErr : Option Nat)
    (ha : ∀ j < bound.length, s.regs ((fn.kernel k).arguments.getD j 0) = some (bound.getD j 0)) :
    (afterBind fn k bound anyErr).Agrees fn s := by
  unfold afterBind; split <;> exact ha

/-- Moving on to the next result asks nothing of the registers. -/
theorem nextResult_agrees : (nextResult fn k pseudo frame i off).Agrees fn s := by
  unfold nextResult; split
  · exact ⟨(fun _ h => nomatch h), (fun _ h => nomatch h)⟩
  · trivial

/-- Past `ProcessUsedBys` the position agrees with the registers once the result's register holds its value. -/
theorem afterDispatch_agrees {rv : Nat} {set : Bool}
    (hv : s.regs (((fn.kernel k).resultRegs pseudo).getD i 0) = some rv) :
    (afterDispatch fn k pseudo frame i off rv set).Agrees fn s := by
  unfold afterDispatch; split
  · exact ⟨fun v h => Option.some.inj h ▸ hv, (fun _ h => nomatch h)⟩
  · exact nextResult_agrees

/-- Publishing starts at a position that asks nothing of the registers. -/
theorem publishFrom_agrees : (publishFrom fn k frame).Agrees fn s := by
  unfold publishFrom; split
  · exact ⟨(fun _ h => nomatch h), (fun _ h => nomatch h)⟩
  · trivial

end Agrees

/-- **Each step keeps an activation's view of the registers.** -/
theorem Activation.step_agrees {fn : BEFFunction} {c : List ResultSpec} {a a' : Activation}
    {s s' : Sys} (ha : a.cur.Agrees fn s) (h : a.step fn c s = some (some a', s')) :
    a'.cur.Agrees fn s' := by
  rcases a with ⟨ids, cur⟩
  cases cur with
  | idle =>
    cases ids with
    | nil => simp [Activation.step] at h
    | cons k ids =>
      simp only [Activation.step, Option.some.injEq, Prod.map, Activation.stepPop,
        Prod.mk.injEq] at h
      obtain ⟨rfl, rfl⟩ := h
      (repeat' split) <;> trivial
  | gated k =>
    simp only [Activation.step, Option.some.injEq, Prod.map, Activation.stepGated,
      Prod.mk.injEq] at h
    obtain ⟨rfl, rfl⟩ := h
    exact afterBind_agrees _ fun j hj => absurd hj (Nat.not_lt_zero j)
  | bindLoad k bound anyErr =>
    simp only [Activation.step, Option.some.injEq, Prod.map, Activation.stepBindLoad,
      Prod.mk.injEq] at h
    obtain ⟨rfl, rfl⟩ := h
    split
    · exact agrees_append ha ‹_›
    · exact ha
  | bindCas k bound anyErr =>
    simp only [Activation.step, Option.some.injEq, Prod.map, Activation.stepBindCas,
      Prod.mk.injEq] at h
    obtain ⟨rfl, rfl⟩ := h
    obtain ⟨hg, hv⟩ := Sys.getOrCreateRegisterValue_spec fn ((fn.kernel k).arguments.getD bound.length 0) s
    exact agrees_append (fun j hj => hg _ _ (ha j hj)) hv
  | bindCheck k bound anyErr =>
    simp only [Activation.step, Option.some.injEq, Prod.map, Activation.stepBindCheck,
      Prod.mk.injEq] at h
    obtain ⟨rfl, rfl⟩ := h
    exact afterBind_agrees _ ha
  | ready k bound anyErr =>
    simp only [Activation.step, Activation.stepReady, Option.map_eq_some'] at h
    obtain ⟨p, hp, hq⟩ := h
    simp only [Prod.map, Prod.mk.injEq, Option.some.injEq] at hq
    obtain ⟨rfl, rfl⟩ := hq
    have next : ∀ (frame : List Nat) (s' : Sys), s'.regs = s.regs →
        (if bound = [] then publishFrom fn k frame else Cursor.dropArg k bound 0 frame).Agrees fn s' := by
      intro frame s' e; split
      · exact publishFrom_agrees
      · exact fun j hj => e ▸ ha j hj
    split at hp
    · split at hp
      · cases hp; exact next _ _ (invoke_regs _ _ _)
      · cases hp
    · cases hp; exact next _ _ rfl
  | dropArg k bound j frame =>
    simp only [Activation.step, Option.some.injEq, Prod.map, Activation.stepDropArg,
      Prod.mk.injEq] at h
    obtain ⟨rfl, rfl⟩ := h
    split
    · exact ha
    · exact publishFrom_agrees
  | result k pseudo frame i off ph =>
    simp only [Activation.step, Option.some.injEq, Prod.map, Prod.mk.injEq] at h
    obtain ⟨rfl, rfl⟩ := h
    cases ph with
    | begin =>
      dsimp only [Activation.stepResult, Activation.stepBegin]
      split
      · split
        · exact nextResult_agrees
        · split
          · exact ⟨fun v hv => Option.some.inj hv ▸ ‹_›, (fun _ h => nomatch h)⟩
          · exact nextResult_agrees
      · split <;> exact ⟨(fun _ h => nomatch h), (fun _ h => nomatch h)⟩
    | unusedDrop => exact nextResult_agrees
    | setCas =>
      dsimp only [Activation.stepResult, Activation.stepSetCas]
      split
      · exact ⟨fun v hv => Option.some.inj hv ▸ Function.update_same _ _ _, (fun _ h => nomatch h)⟩
      · split <;> exact ⟨(fun _ h => nomatch h), fun e he => Option.some.inj he ▸ ‹_›⟩
    | setRevert e => exact ⟨(fun _ h => nomatch h), ha.2⟩
    | setForward e => exact ⟨fun v hv => Option.some.inj hv ▸ ha.2 e rfl, (fun _ h => nomatch h)⟩
    | dispatch rv set =>
      have hv := ha.1 rv rfl
      dsimp only [Activation.stepResult, Activation.stepDispatch]
      split
      · exact afterDispatch_agrees hv
      · split
        · exact ha
        · split
          · exact afterDispatch_agrees hv
          · exact ha
    | accelerate rv set pending usedBys =>
      cases pending with
      | nil => exact afterDispatch_agrees (ha.1 rv rfl)
      | cons u rest => exact ha
    | andThen rv set usedBys => exact afterDispatch_agrees (ha.1 rv rfl)
    | dropPlaceholder rv => exact nextResult_agrees

/-- The constructor's first activation sees the registers. -/
theorem bootstrap_agrees (fn : BEFFunction) (hasArgs : Bool) (s : Sys) :
    (bootstrap fn hasArgs).cur.Agrees fn s := by
  unfold bootstrap; split
  · split
    · exact ⟨(fun _ h => nomatch h), (fun _ h => nomatch h)⟩
    · trivial
  · trivial

/-- **Every thread sees the registers' values.** In every reachable state of every run, each
activation's bound arguments are the values of its argument registers, and the value it
publishes a result through is the value of that result's register. -/
theorem Reachable.agrees {fn : BEFFunction} {args : List Nat} {s : Sys}
    (h : Reachable fn args s) (b : Activation) (hb : s.Runs b) : b.cur.Agrees fn s := by
  induction h generalizing b with
  | init h =>
    obtain ⟨t, ht, hb⟩ := hb
    rw [h.tasks, Multiset.mem_singleton] at ht
    subst ht; cases hb
  | @step s s' hr hst ih =>
    by_cases hi : b.cur = .idle
    · rw [hi]; trivial
    rcases hst.runs_cases hi hb with hold | hnew
    · exact (ih b hold).mono (hr.regsGrow hst)
    · cases hnew with
      | start _ _ h => exact bootstrap_agrees _ _ _
      | @ctor a _ rest _ _ ht ha hs =>
        subst hs
        have := Activation.step_agrees
          (show a.cur.Agrees fn { s with tasks := rest } from ih a (Sys.runs_of_tasks ht rfl)) ha
        exact this
      | @cont a _ rest _ _ ht ha hs =>
        subst hs
        have := Activation.step_agrees
          (show a.cur.Agrees fn { s with tasks := rest } from ih a (Sys.runs_of_tasks ht rfl)) ha
        exact this

end BefExecutor
