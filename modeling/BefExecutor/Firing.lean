/-
# A kernel passes its gate only once its arguments have arrived

Source: `lib/bef_executor/bef_executor.cc`, `DecrementArgumentsNotReadyCounts` (:383-476) and `SetKernelsWithErrorInputReady` (:94-107).

`gate_waits_for_arguments`, `strict_kernel_sees_concrete`, `skipped_kernel_gets_error`.
-/
import BefExecutor.Arrival

namespace BefExecutor

/-! ## Threads that stay -/

/-- A thread no callback starts: `Execute`, or an activation past the head of its loop. -/
def Task.Lasting (τ : Task) : Prop := τ.isCallback = false ∧ ∀ p : Nat × Waiter, p.2.task p.1 ≠ τ

/-- `Execute` before its start is a lasting thread. -/
theorem Task.lasting_start (args : List Nat) : (Task.main (.start args)).Lasting := by
  refine ⟨rfl, fun ⟨v, w⟩ h => ?_⟩
  cases w <;> cases h

/-- A thread whose activation is past the loop head is a lasting thread. -/
theorem Task.lasting_of_act {τ : Task} {b : Activation} (hτ : τ.act = some b) (hb : b.cur ≠ .idle) :
    τ.Lasting := by
  refine ⟨(by cases τ <;> first | rfl | cases hτ), fun ⟨v, w⟩ h => ?_⟩
  cases w with
  | usedBys ids => subst h; exact hb (Option.some.inj hτ ▸ rfl)
  | _ => subst h; cases hτ

/-- The threads running `τ`, and the callbacks that will start it. -/
def taskWeight (τ : Task) : Weight where
  task t := if t = τ then 1 else 0
  waiter p := if p.2.task p.1 = τ then 1 else 0
  run _ := rfl

/-- Counting a lasting thread is an executor-only weight. -/
theorem taskWeight_executorOnly {τ : Task} (hτ : τ.Lasting) : (taskWeight τ).ExecutorOnly where
  keep := if_neg fun h => by subst h; cases hτ.1
  follow _ _ := if_neg fun h => by subst h; cases hτ.1
  release _ := if_neg fun h => by subst h; cases hτ.1

/-- A lasting thread is in the state exactly when its count is positive. -/
theorem Sys.mem_iff_taskWeight {τ : Task} (hτ : τ.Lasting) (s : Sys) :
    τ ∈ s.tasks ↔ 0 < s.weigh (taskWeight τ) := by
  have hw : (s.waiting.map (taskWeight τ).waiter).sum = 0 :=
    Multiset.sum_eq_zero fun x hx => by
      obtain ⟨p, -, rfl⟩ := Multiset.mem_map.1 hx
      exact if_neg (hτ.2 p)
  rw [Sys.weigh, hw, Nat.add_zero, Nat.pos_iff_ne_zero, Ne, Multiset.sum_eq_zero_iff]
  simp [taskWeight]

/-- A thread's step takes nothing from the executor-only weights of the others, unless it hands
a continuation that weighs something to `AndThen`. -/
theorem taskStep_weigh_ge {fn : BEFFunction} {W : Weight} (hW : W.ExecutorOnly)
    (hz : ∀ cur : Cursor, cur.handoffWeight W = 0) {c : List ResultSpec} {t : Task} {s s' : Sys}
    (h : taskStep fn c t s = some s') : s.weigh W ≤ s'.weigh W := by
  cases hta : t.act with
  | some a =>
    obtain ⟨oa, s'', ha, hs⟩ := taskStep_act_cases hta h
    have e := (Activation.step_executors ha).1 _ hW
    rw [hz, Nat.add_zero] at e
    rcases hs with ⟨_, _, rfl | rfl⟩ | ⟨_, rfl | rfl⟩
    iterate 3 rw [Sys.weigh_spawn, e]; exact Nat.le_add_right _ _
    exact e.ge
  | none =>
    cases t with
    | main ph =>
      cases ph with
      | start args =>
        simp only [taskStep, mainStep, Option.some.injEq] at h; subst h
        rw [startExecute_weigh]; exact Nat.le_add_right _ _
      | ctor => cases hta
      | done => cases h
      | _ =>
        simp only [taskStep] at h
        obtain ⟨_, -, e⟩ := mainStep_weigh_later hW h rfl
        rw [e]; exact Nat.le_add_right _ _
    | cont => cases hta
    | _ => exact (taskStep_callback_weigh hW (by rfl) h).ge

/-- **A lasting thread stays**, unless it is the one that steps. -/
theorem Step.lasting {fn : BEFFunction} {s s' : Sys} (h : Step fn s s') {τ : Task} (hτ : τ.Lasting)
    (hm : τ ∈ s.tasks) : τ ∈ s'.tasks ∨
      ∃ rest c, s.tasks = τ ::ₘ rest ∧ taskStep fn c τ { s with tasks := rest } = some s' := by
  cases h with
  | env e h =>
    rw [Sys.mem_iff_taskWeight hτ] at hm ⊢
    exact .inl (envStep_weigh (taskWeight_executorOnly hτ) h ▸ hm)
  | @task t rest c ht h =>
    rw [ht, Multiset.mem_cons] at hm
    rcases hm with rfl | hm
    · exact .inr ⟨rest, c, ht, h⟩
    · have hz : ∀ cur : Cursor, cur.handoffWeight (taskWeight τ) = 0 := fun cur => by
        unfold Cursor.handoffWeight
        cases cur.handoff with
        | none => rfl
        | some p => exact if_neg (hτ.2 (p.1, .usedBys p.2))
      have hm' : τ ∈ ({ s with tasks := rest } : Sys).tasks := hm
      rw [Sys.mem_iff_taskWeight hτ] at hm' ⊢
      exact .inl (lt_of_lt_of_le hm' (taskStep_weigh_ge (taskWeight_executorOnly hτ) hz h))

/-! ## The host's cancel value -/

/-- Running a kernel leaves the cancel value alone. -/
theorem invoke_cancel (bound : List Nat) (c : List ResultSpec) (s : Sys) :
    (Sys.invoke bound c s).2.cancel = s.cancel := by
  induction c generalizing s with
  | nil => rfl
  | cons r c ih => cases r <;> exact ih _

/-- An activation step leaves the cancel value alone. -/
theorem Activation.step_cancel {fn : BEFFunction} {c : List ResultSpec} {a : Activation}
    {s s' : Sys} {oa : Option Activation} (h : a.step fn c s = some (oa, s')) :
    s'.cancel = s.cancel := by
  rcases a with ⟨ids, cur⟩
  cases cur with
  | idle =>
    cases ids with
    | nil => simp only [Activation.step, Option.some.injEq, Prod.mk.injEq] at h; rw [← h.2]
    | cons k ids =>
      simp only [Activation.step, Option.some.injEq, Prod.map, Activation.stepPop,
        Prod.mk.injEq] at h
      obtain ⟨-, rfl⟩ := h
      (repeat' split) <;> rfl
  | ready k bound anyErr =>
    simp only [Activation.step, Activation.stepReady, Option.map_eq_some'] at h
    obtain ⟨p, hp, hq⟩ := h
    cases hq
    split at hp
    · split at hp
      · cases hp; exact invoke_cancel _ _ _
      · cases hp
    · cases hp; rfl
  | result k pseudo frame i off ph =>
    simp only [Activation.step, Option.some.injEq, Prod.map, Prod.mk.injEq] at h
    obtain ⟨-, rfl⟩ := h
    exact (Activation.stepResult_gates fn ids s k pseudo frame i off ph).2.1
  | _ =>
    simp only [Activation.step, Option.some.injEq, Prod.map, Activation.stepGated,
      Activation.stepBindLoad, Activation.stepBindCas, Activation.stepBindCheck,
      Activation.stepDropArg, Prod.mk.injEq, Sys.getOrCreateRegisterValue] at h
    obtain ⟨-, rfl⟩ := h
    all_goals (repeat' split) <;> rfl

/-- No thread touches the cancel value. -/
theorem taskStep_cancel {fn : BEFFunction} {c : List ResultSpec} {t : Task} {s s' : Sys}
    (h : taskStep fn c t s = some s') : s'.cancel = s.cancel := by
  cases hta : t.act with
  | some a =>
    obtain ⟨oa, s'', ha, ⟨_, _, rfl | rfl⟩ | ⟨_, rfl | rfl⟩⟩ := taskStep_act_cases hta h <;>
      exact (Activation.step_cancel ha :)
  | none =>
    cases t with
    | main ph =>
      cases ph with
      | start args =>
        simp only [taskStep, mainStep, startExecute, Option.some.injEq] at h; subst h
        split
        · rfl
        · obtain ⟨heap, regs, mf, hi⟩ := Sys.initializeArgumentRegisters_eq fn args 0 s
          rw [hi]; rfl
      | ctor => cases hta
      | done => cases h
      | _ =>
        simp only [taskStep, mainStep, Sys.getOrCreateRegisterValue] at h
        (repeat' split at h) <;> cases h <;> rfl
    | cont => cases hta
    | _ => cases h; rfl

/-- The cancel value is set once, by the host, to a new error. -/
theorem Step.cancel_cases {fn : BEFFunction} {s s' : Sys} (h : Step fn s s') :
    s'.cancel = s.cancel ∨ s.cancel = none ∧ ∃ e, s'.cancel = some e ∧ (s'.heap e).state.isError := by
  cases h with
  | env e h =>
    rcases envStep_cases h with ⟨v, st, -, -, rfl⟩ | ⟨v, -, -, rfl⟩ | ⟨d, hc, rfl⟩
    · exact .inl rfl
    · exact .inl rfl
    · exact .inr ⟨hc, _, rfl, by simp [Sys.alloc]⟩
  | task c ht h => exact .inl (taskStep_cancel h :)

/-- A cancel value once set stays set. -/
theorem Step.cancel_kept {fn : BEFFunction} {s s' : Sys} (h : Step fn s s') {e : Nat}
    (he : s.cancel = some e) : s'.cancel = some e := by
  rcases h.cancel_cases with hc | ⟨hc, -⟩
  · rw [hc, he]
  · rw [he] at hc; cases hc

/-! ## Which step opens a gate -/

/-- **Only a pop opens a gate**: the activation was at the head of its loop with `k` next, `k`
is a kernel of the function whose count was one, and the activation moves onto `k`'s gate. -/
theorem Activation.step_opens {fn : BEFFunction} {c : List ResultSpec} {a : Activation}
    {s s' : Sys} {oa : Option Activation} (h : a.step fn c s = some (oa, s')) {k : Nat}
    (hne : s'.fires k ≠ s.fires k) :
    ∃ ids, a = ⟨k :: ids, .idle⟩ ∧ oa = some ⟨ids, .gated k⟩ ∧ s.notReady k = 1 ∧
      k < fn.numKernels ∧ s'.regs = s.regs ∧ s'.heap = s.heap := by
  by_cases hb : a.cur = .idle
  · rcases a with ⟨ids, cur⟩
    simp only at hb; subst hb
    cases ids with
    | nil =>
      simp only [Activation.step, Option.some.injEq, Prod.mk.injEq] at h
      rw [← h.2] at hne; exact absurd rfl hne
    | cons k' ids =>
      simp only [Activation.step, Option.some.injEq, Prod.map, Activation.stepPop,
        Prod.mk.injEq, id] at h
      split at h
      · split at h
        · obtain ⟨rfl, rfl⟩ := h
          obtain rfl : k = k' := by
            by_contra hk; exact hne (Function.update_noteq hk _ _)
          exact ⟨ids, rfl, rfl, ‹_›, ‹_›, rfl, rfl⟩
        · obtain ⟨-, rfl⟩ := h; exact absurd rfl hne
      · obtain ⟨-, rfl⟩ := h; exact absurd rfl hne
  · exact absurd (congrFun (Activation.step_busy h hb).1 k) hne

/-- An activation leaves the head of its loop only through a gate it opens. -/
theorem Activation.step_idle {fn : BEFFunction} {c : List ResultSpec} {a a' : Activation}
    {s s' : Sys} (h : a.step fn c s = some (some a', s')) (ha : a.cur = .idle)
    (ha' : a'.cur ≠ .idle) : ∃ k, a'.cur = .gated k ∧ s'.fires k ≠ s.fires k := by
  rcases a with ⟨ids, cur⟩
  simp only at ha; subst ha
  cases ids with
  | nil => simp [Activation.step] at h
  | cons k ids =>
    simp only [Activation.step, Option.some.injEq, Prod.map, Activation.stepPop,
      Prod.mk.injEq, id] at h
    split at h
    · split at h
      · obtain ⟨rfl, rfl⟩ := h
        exact ⟨k, rfl, by simp⟩
      · obtain ⟨rfl, -⟩ := h; exact absurd rfl ha'
    · obtain ⟨rfl, -⟩ := h; exact absurd rfl ha'

/-- **A step that opens a gate is a pop** by a thread whose activation moves onto the gate, of a
kernel of the function whose count was one; registers and values stay as they are. -/
theorem Step.opens {fn : BEFFunction} {s s' : Sys} (h : Step fn s s') {k : Nat}
    (hne : s'.fires k ≠ s.fires k) :
    ∃ t rest ids, s.tasks = t ::ₘ rest ∧ t.act = some ⟨k :: ids, .idle⟩ ∧ s.notReady k = 1 ∧
      k < fn.numKernels ∧ s'.Runs ⟨ids, .gated k⟩ ∧ s'.regs = s.regs ∧ s'.heap = s.heap := by
  cases h with
  | env e h => exact absurd (congrFun (envStep_frame h).2 k) hne
  | @task t rest c ht h =>
    cases hta : t.act with
    | none => exact absurd (congrFun (taskStep_frame hta h).2 k) hne
    | some a =>
      obtain ⟨oa, s'', ha, hs⟩ := taskStep_act_cases hta h
      have e : s'.fires = s''.fires ∧ s'.regs = s''.regs ∧ s'.heap = s''.heap := by
        rcases hs with ⟨_, _, rfl | rfl⟩ | ⟨_, rfl | rfl⟩ <;> exact ⟨rfl, rfl, rfl⟩
      rw [e.1] at hne
      obtain ⟨ids, rfl, rfl, h1, h2, h3, h4⟩ := Activation.step_opens ha hne
      exact ⟨t, rest, ids, ht, hta, h1, h2, taskStep_runs_next hs rfl, e.2.1.trans h3,
        e.2.2.trans h4⟩

/-! ## A used-by list is handed on only once its value is available -/

/-- An activation at the start of result `j` still owes every result from `j` on. -/
theorem Cursor.owes_begin {k : Nat} {pseudo : Bool} {frame : List Nat} {j off i : Nat}
    (h : j ≤ i) : (Cursor.result k pseudo frame j off .begin).Owes k i :=
  ⟨rfl, (Nat.lt_or_eq_of_le h).imp id fun h => ⟨h, rfl⟩⟩

section Owes

variable {fn : BEFFunction} {k : Nat} {pseudo : Bool} {frame : List Nat} {i j off : Nat}

/-- While binding, an activation owes every result of its kernel. -/
theorem afterBind_owes (bound : List Nat) (anyErr : Option Nat) :
    (afterBind fn k bound anyErr).Owes k i := by
  unfold afterBind; split <;> rfl

/-- At the start of publishing, an activation owes every result. -/
theorem publishFrom_owes (hi : i < (fn.kernel k).numResults) :
    (publishFrom fn k frame).Owes k i := by
  unfold publishFrom; rw [if_pos (by omega)]; exact Cursor.owes_begin (Nat.zero_le i)

/-- Moving past result `j` still owes the later results. -/
theorem nextResult_owes (hj : j < i) (hi : i < (fn.kernel k).numResults) :
    (nextResult fn k pseudo frame j off).Owes k i := by
  unfold nextResult; rw [if_pos (by omega)]; exact Cursor.owes_begin hj

/-- Past `ProcessUsedBys` of result `j`, the later results are still owed. -/
theorem afterDispatch_owes {rv : Nat} {set : Bool} (hj : j < i)
    (hi : i < (fn.kernel k).numResults) :
    (afterDispatch fn k pseudo frame j off rv set).Owes k i := by
  unfold afterDispatch; split
  · exact ⟨rfl, .inl hj⟩
  · exact nextResult_owes hj hi

end Owes

/-- **Result `i` hands its used-by list on only once its value is available.** A step on a
result before it, or on it before `ProcessUsedBys` has handed the list on, still owes the list,
unless the register's value is available or the list now waits on it with `AndThen`. -/
theorem Activation.stepResult_owes {fn : BEFFunction} {ids : List Nat} {s : Sys} {k : Nat}
    {pseudo : Bool} {frame : List Nat} {i j off : Nat} {ph : ResultPhase}
    (hv : (Cursor.result k pseudo frame j off ph).Valid fn)
    (hag : (Cursor.result k pseudo frame j off ph).Agrees fn s) (hpk : fn.isPseudo k = pseudo)
    (hu : (Cursor.result k pseudo frame j off ph).Skips fn) (hp : fn.hasPseudo → s.ArgsSet fn)
    (ho : (Cursor.result k pseudo frame j off ph).Owes k i) (hi : i < (fn.kernel k).numResults)
    (hne : fn.usedBys k i ≠ []) :
    (Activation.stepResult fn ids s k pseudo frame j off ph).1.cur.Owes k i ∨
      (Activation.stepResult fn ids s k pseudo frame j off ph).2.Ready (fn.resultReg k i) ∨
      ∃ v, (Activation.stepResult fn ids s k pseudo frame j off ph).2.regs (fn.resultReg k i) =
        some v ∧ (v, .usedBys (fn.usedBys k i)) ∈
          (Activation.stepResult fn ids s k pseudo frame j off ph).2.waiting := by
  obtain ⟨-, hj | ⟨rfl, hh⟩⟩ := ho
  · left
    cases ph with
    | begin =>
      dsimp only [Activation.stepResult, Activation.stepBegin]
      (repeat' split) <;> first | exact ⟨rfl, .inl hj⟩ | exact nextResult_owes hj hi
    | setCas =>
      dsimp only [Activation.stepResult, Activation.stepSetCas]
      split <;> exact ⟨rfl, .inl hj⟩
    | setRevert | setForward => exact ⟨rfl, .inl hj⟩
    | dispatch rv set =>
      dsimp only [Activation.stepResult, Activation.stepDispatch]
      (repeat' split) <;> first | exact ⟨rfl, .inl hj⟩ | exact afterDispatch_owes hj hi
    | accelerate rv set pending usedBys =>
      cases pending
      · exact afterDispatch_owes hj hi
      · exact ⟨rfl, .inl hj⟩
    | andThen => exact afterDispatch_owes hj hi
    | unusedDrop | dropPlaceholder => exact nextResult_owes hj hi
  · have hreg : fn.resultReg k j = ((fn.kernel k).resultRegs pseudo).getD j 0 := by
      rw [BEFFunction.resultReg, hpk]
    have hsl : fn.usedBys k j = (fn.kernel k).usedBysOf pseudo j := by rw [BEFFunction.usedBys, hpk]
    have hn0 : (fn.kernel k).numUsedBys j ≠ 0 := fun h0 =>
      hne (by rw [hsl]; exact BEFKernel.usedBysOf_of_zero h0)
    cases ph with
    | begin =>
      cases pseudo
      · left
        simp only [Activation.stepResult, Activation.stepBegin, Bool.false_eq_true, ↓reduceIte]
        (repeat' split) <;> exact ⟨rfl, .inr ⟨rfl, rfl⟩⟩
      · obtain ⟨rfl, hps⟩ := hv.2.1
        simp only [Activation.stepResult, Activation.stepBegin, ↓reduceIte]
        split
        · exact absurd (hu j hi ‹_›) hn0
        · split
          · exact .inl ⟨rfl, .inr ⟨rfl, rfl⟩⟩
          · exact absurd ‹_› (hp hps j hi ‹_›)
    | unusedDrop => exact absurd hv.2.2.2.2 hn0
    | setCas =>
      left
      dsimp only [Activation.stepResult, Activation.stepSetCas]
      split <;> exact ⟨rfl, .inr ⟨rfl, rfl⟩⟩
    | setRevert e | setForward e => exact .inl ⟨rfl, .inr ⟨rfl, rfl⟩⟩
    | dispatch rv set =>
      have hrv : s.regs (fn.resultReg k j) = some rv := hreg ▸ hag.1 rv rfl
      dsimp only [Activation.stepResult, Activation.stepDispatch]
      rw [if_neg hn0]
      split
      · exact .inr (.inl ⟨rv, hrv, AVState.isAvailable_of_isError ‹_›⟩)
      · split
        · exact .inr (.inl ⟨rv, hrv, ‹_›⟩)
        · exact .inl ⟨rfl, .inr ⟨rfl, rfl⟩⟩
    | andThen rv set usedBys =>
      have hrv : s.regs (fn.resultReg k j) = some rv := hreg ▸ hag.1 rv rfl
      right
      dsimp only [Activation.stepResult, Activation.stepAndThen, Sys.andThen]
      by_cases ha : (s.heap rv).state.isAvailable
      · exact .inl ⟨rv, hrv, ha⟩
      · refine .inr ⟨rv, hrv, ?_⟩
        rw [if_neg ha, hsl, ← hv.2.2.2]
        exact Multiset.mem_add.2 (.inr (Multiset.mem_singleton_self _))
    | accelerate | dropPlaceholder => cases hh

/-- **An activation that owes a used-by list keeps owing it**, until the result's value is
available or the list waits on it with `AndThen`. -/
theorem Activation.step_owes {fn : BEFFunction} {c : List ResultSpec} {a : Activation}
    {s s' : Sys} {oa : Option Activation} (h : a.step fn c s = some (oa, s')) {k i : Nat}
    (hv : a.cur.Valid fn) (hag : a.cur.Agrees fn s)
    (hk : a.cur.kernel = some k → fn.isPseudo k = false) (hu : a.cur.Skips fn)
    (hp : fn.hasPseudo → s.ArgsSet fn) (ho : a.cur.Owes k i) (hi : i < (fn.kernel k).numResults)
    (hne : fn.usedBys k i ≠ []) :
    (∃ a', oa = some a' ∧ a'.cur.Owes k i) ∨ s'.Ready (fn.resultReg k i) ∨
      ∃ v, s'.regs (fn.resultReg k i) = some v ∧ (v, .usedBys (fn.usedBys k i)) ∈ s'.waiting := by
  rcases a with ⟨ids, cur⟩
  cases cur with
  | idle => cases ho
  | result k' pseudo frame j off ph =>
    obtain rfl : k' = k := ho.1
    simp only [Activation.step, Option.some.injEq, Prod.map, Prod.mk.injEq] at h
    obtain ⟨rfl, rfl⟩ := h
    rcases Activation.stepResult_owes hv hag (hv.isPseudo_eq hk) hu hp ho hi hne with h | h | h
    · exact .inl ⟨_, rfl, h⟩
    · exact .inr (.inl h)
    · exact .inr (.inr h)
  | ready k' bound anyErr =>
    cases ho
    simp only [Activation.step, Activation.stepReady, Option.map_eq_some'] at h
    obtain ⟨p, hp', hq⟩ := h
    cases hq
    refine .inl ⟨_, rfl, ?_⟩
    split at hp'
    · split at hp'
      · cases hp'; dsimp only; split
        · exact publishFrom_owes hi
        · rfl
      · cases hp'
    · cases hp'; dsimp only; split
      · exact publishFrom_owes hi
      · rfl
  | _ =>
    cases ho
    simp only [Activation.step, Option.some.injEq, Prod.map, Activation.stepGated,
      Activation.stepBindLoad, Activation.stepBindCas, Activation.stepBindCheck,
      Activation.stepDropArg, Prod.mk.injEq, Sys.getOrCreateRegisterValue] at h
    obtain ⟨rfl, rfl⟩ := h
    refine .inl ⟨_, rfl, ?_⟩
    (repeat' split) <;> first | rfl | exact afterBind_owes _ _ | exact publishFrom_owes hi

/-! ## What an activation sees of its arguments -/

/-- An available value that is no error is concrete. -/
theorem AVState.concrete_of {st : AVState} (ha : st.isAvailable) (he : st.isError = false) :
    ∃ p, st = .concrete p := by
  cases st with
  | concrete p => exact ⟨p, rfl⟩
  | unavailable => cases ha
  | error => cases he

namespace Sys

/-- What the binding loop of kernel `k` knows with `bound` bound and `any_error_argument` at
`anyErr`: the gate let the kernel through with every argument available, and each value bound
with no error caught yet is concrete; or with an error argument, caught once it is bound. And
`any_error_argument` is an error: the host's cancel value, or a value bound. -/
structure Binds (fn : BEFFunction) (s : Sys) (k : Nat) (bound : List Nat) (anyErr : Option Nat) :
    Prop where
  arrived : ((∀ j < (fn.kernel k).numArguments, s.Ready (fn.argReg k j)) ∧
      (anyErr = none → ∀ v ∈ bound, ∃ p, (s.heap v).state = .concrete p)) ∨
    ∃ j < (fn.kernel k).numArguments, s.Failed (fn.argReg k j) ∧ (j < bound.length → anyErr ≠ none)
  error : ∀ e, anyErr = some e → (s.heap e).state.isError ∧ (s.cancel = some e ∨ e ∈ bound)

variable {fn : BEFFunction} {s s' : Sys} {k : Nat} {bound : List Nat} {anyErr : Option Nat}

/-- What a binding activation has seen stays true as the run goes on. -/
theorem Binds.mono (h : s.Binds fn k bound anyErr) (hg : RegsGrow s s') (hs : s.Settles s')
    (hc : ∀ e, s.cancel = some e → s'.cancel = some e) : s'.Binds fn k bound anyErr where
  arrived := h.arrived.imp
    (fun ⟨hr, hv⟩ => ⟨fun j hj => (hr j hj).mono hg hs, fun hn v hb => by
      obtain ⟨p, hp⟩ := hv hn v hb
      exact ⟨p, (hs.state v (by rw [hp]; rfl)).trans hp⟩⟩)
    fun ⟨j, hj, hf, he⟩ => ⟨j, hj, hf.mono hg hs, he⟩
  error e he := (h.error e he).imp hs.isError (Or.imp_left (hc e))

/-- Past the gate, `any_error_argument` starts as the cancel value. -/
theorem Binds.gate (h : s.ArgsArrived fn k) (hc : ∀ e, s.cancel = some e → (s.heap e).state.isError) :
    s.Binds fn k [] s.cancel where
  arrived := h.imp (fun h => ⟨h, fun _ _ hv => nomatch hv⟩)
    fun ⟨j, hj, hf⟩ => ⟨j, hj, hf, fun h => absurd h (Nat.not_lt_zero _)⟩
  error e he := ⟨hc e he, .inl he⟩

/-- `if (value->IsError()) any_error_argument = value`, for the value just bound from the
register of argument `bound.length`. -/
theorem Binds.check {v : Nat} (h : s.Binds fn k bound anyErr)
    (hlen : bound.length < (fn.kernel k).numArguments)
    (hv : s.regs (fn.argReg k bound.length) = some v) :
    s.Binds fn k (bound ++ [v]) (if (s.heap v).state.isError then some v else anyErr) where
  arrived := by
    rcases h.arrived with ⟨hr, hc⟩ | ⟨j, hj, hf, he⟩
    · refine .inl ⟨hr, fun hn w hw => ?_⟩
      split at hn
      · cases hn
      · rename_i hnerr
        rcases List.mem_append.1 hw with hw | hw
        · exact hc hn w hw
        · obtain rfl := List.eq_of_mem_singleton hw
          obtain ⟨w', hw', ha⟩ := hr _ hlen
          obtain rfl := Option.some.inj (hv.symm.trans hw')
          exact AVState.concrete_of ha (Bool.eq_false_iff.2 hnerr)
    · refine .inr ⟨j, hj, hf, fun hjl => ?_⟩
      split
      · exact Option.some_ne_none _
      · rw [List.length_append, List.length_singleton] at hjl
        rcases Nat.lt_succ_iff_lt_or_eq.1 hjl with hjl | rfl
        · exact he hjl
        · obtain ⟨w, hw, herr⟩ := hf
          obtain rfl := Option.some.inj (hv.symm.trans hw)
          contradiction
  error e he := by
    split at he
    · cases he; exact ⟨‹_›, .inr (List.mem_append_right _ (List.mem_singleton_self _))⟩
    · exact (h.error e he).imp_right (Or.imp_right (List.mem_append_left _))

end Sys

/-- What an activation has seen of its kernel's arguments: past the gate, that they have
arrived; while binding, `Sys.Binds` of the values checked so far; and a result whose users it
accelerates is an error. -/
def Cursor.Sees (fn : BEFFunction) (s : Sys) : Cursor → Prop
  | .gated k => s.ArgsArrived fn k
  | .bindLoad k bound anyErr | .bindCas k bound anyErr | .ready k bound anyErr =>
    s.Binds fn k bound anyErr
  | .bindCheck k bound anyErr => ∃ init v, bound = init ++ [v] ∧ s.Binds fn k init anyErr
  | .result _ _ _ _ _ (.accelerate rv _ _ _) => (s.heap rv).state.isError
  | _ => True

/-- What an activation has seen stays true as the run goes on. -/
theorem Cursor.Sees.mono {fn : BEFFunction} {s s' : Sys} {cur : Cursor} (h : cur.Sees fn s)
    (hg : RegsGrow s s') (hs : s.Settles s') (hc : ∀ e, s.cancel = some e → s'.cancel = some e) :
    cur.Sees fn s' := by
  cases cur with
  | gated k => exact Sys.ArgsArrived.mono h hg hs
  | bindLoad | bindCas | ready => exact Sys.Binds.mono h hg hs hc
  | bindCheck k bound anyErr =>
    obtain ⟨init, v, rfl, hb⟩ := h
    exact ⟨init, v, rfl, hb.mono hg hs hc⟩
  | result k pseudo frame i off ph =>
    cases ph with
    | accelerate rv => exact hs.isError h
    | _ => trivial
  | idle | dropArg => trivial

/-- An activation that has bound its arguments sees them at its next position. -/
theorem afterBind_sees {fn : BEFFunction} {s : Sys} {k : Nat} {bound : List Nat}
    {anyErr : Option Nat} (h : s.Binds fn k bound anyErr) : (afterBind fn k bound anyErr).Sees fn s := by
  unfold afterBind; split <;> exact h

/-- Publishing positions see nothing. -/
theorem nextResult_sees {fn : BEFFunction} {s : Sys} {k : Nat} {pseudo : Bool}
    {frame : List Nat} {i off : Nat} : (nextResult fn k pseudo frame i off).Sees fn s := by
  unfold nextResult; split <;> trivial

/-- Publishing positions see nothing. -/
theorem publishFrom_sees {fn : BEFFunction} {s : Sys} {k : Nat} {frame : List Nat} :
    (publishFrom fn k frame).Sees fn s := by
  unfold publishFrom; split <;> trivial

/-- Publishing positions see nothing. -/
theorem afterDispatch_sees {fn : BEFFunction} {s : Sys} {k : Nat} {pseudo : Bool}
    {frame : List Nat} {i off rv : Nat} {set : Bool} :
    (afterDispatch fn k pseudo frame i off rv set).Sees fn s := by
  unfold afterDispatch; split
  · trivial
  · exact nextResult_sees

/-- **Each step keeps what a busy activation sees**: the checked prefix of its arguments grows
by the value just bound, and a result it accelerates is the error it read. -/
theorem Activation.step_sees {fn : BEFFunction} {c : List ResultSpec} {a a' : Activation}
    {s s' s'' : Sys} {rest : Multiset Task}
    (h : a.step fn c { s with tasks := rest } = some (some a', s'')) (hb : a.cur ≠ .idle)
    (hv : a.cur.Valid fn) (hs : a.cur.Sees fn s) (hag : a.cur.Agrees fn s)
    (hc : ∀ e, s.cancel = some e → (s.heap e).state.isError) (hg : RegsGrow s s')
    (hse : s.Settles s') (hcs : ∀ e, s.cancel = some e → s'.cancel = some e) :
    a'.cur.Sees fn s' := by
  rcases a with ⟨ids, cur⟩
  cases cur with
  | idle => exact absurd rfl hb
  | gated k =>
    simp only [Activation.step, Option.some.injEq, Prod.map, Activation.stepGated,
      Prod.mk.injEq] at h
    obtain ⟨rfl, -⟩ := h
    exact afterBind_sees ((Sys.Binds.gate hs hc).mono hg hse hcs)
  | bindLoad k bound anyErr =>
    simp only [Activation.step, Option.some.injEq, Prod.map, Activation.stepBindLoad,
      Prod.mk.injEq] at h
    obtain ⟨rfl, -⟩ := h
    split
    · exact ⟨bound, _, rfl, Sys.Binds.mono hs hg hse hcs⟩
    · exact Sys.Binds.mono hs hg hse hcs
  | bindCas k bound anyErr =>
    simp only [Activation.step, Option.some.injEq, Prod.map, Activation.stepBindCas,
      Sys.getOrCreateRegisterValue, Prod.mk.injEq] at h
    obtain ⟨rfl, -⟩ := h
    split <;> exact ⟨bound, _, rfl, Sys.Binds.mono hs hg hse hcs⟩
  | bindCheck k bound anyErr =>
    obtain ⟨init, v, rfl, hbd⟩ := hs
    simp only [Activation.step, Option.some.injEq, Prod.map, Activation.stepBindCheck,
      Prod.mk.injEq, List.getLastD_concat] at h
    obtain ⟨rfl, -⟩ := h
    have hlen : init.length < (fn.kernel k).numArguments := by
      have := hv; simp only [Cursor.Valid, List.length_append, List.length_singleton] at this
      omega
    have hreg : s.regs (fn.argReg k init.length) = some v := by
      have := hag init.length (by simp)
      rwa [List.getD_append_right _ _ _ _ le_rfl, Nat.sub_self] at this
    exact afterBind_sees ((hbd.check hlen hreg).mono hg hse hcs)
  | ready k bound anyErr =>
    simp only [Activation.step, Activation.stepReady, Option.map_eq_some'] at h
    obtain ⟨p, hp, hq⟩ := h
    simp only [Prod.map, Prod.mk.injEq, Option.some.injEq] at hq
    obtain ⟨rfl, -⟩ := hq
    split at hp
    · split at hp
      · cases hp; dsimp only; split
        · exact publishFrom_sees
        · trivial
      · cases hp
    · cases hp; dsimp only; split
      · exact publishFrom_sees
      · trivial
  | dropArg k bound j frame =>
    simp only [Activation.step, Option.some.injEq, Prod.map, Activation.stepDropArg,
      Prod.mk.injEq] at h
    obtain ⟨rfl, -⟩ := h
    split
    · trivial
    · exact publishFrom_sees
  | result k pseudo frame i off ph =>
    simp only [Activation.step, Option.some.injEq, Prod.map, Prod.mk.injEq] at h
    obtain ⟨rfl, -⟩ := h
    cases ph with
    | begin =>
      dsimp only [Activation.stepResult, Activation.stepBegin]
      (repeat' split) <;> first | trivial | exact nextResult_sees
    | setCas => dsimp only [Activation.stepResult, Activation.stepSetCas]; split <;> trivial
    | setRevert | setForward => trivial
    | dispatch rv set =>
      dsimp only [Activation.stepResult, Activation.stepDispatch]
      split
      · exact afterDispatch_sees
      · split
        · exact hse.isError ‹_›
        · split
          · exact afterDispatch_sees
          · trivial
    | accelerate rv set pending usedBys =>
      cases pending
      · exact afterDispatch_sees
      · exact hse.isError hs
    | andThen => exact afterDispatch_sees
    | unusedDrop | dropPlaceholder => exact nextResult_sees

/-! ## The readiness invariant -/

/-- What every reachable state knows about readiness: a used-by list that names a kernel is
handed on only once its value is available; the count of a kernel whose gate is closed is its
tokens, until an error argument lowers it; every activation sees its arguments; and the cancel
value is an error. -/
structure FireInv (fn : BEFFunction) (s : Sys) : Prop where
  slices : ∀ k < fn.numKernels, ∀ i < (fn.kernel k).numResults, fn.usedBys k i ≠ [] →
    s.Ready (fn.resultReg k i) ∨ s.UsedBysOwed fn k i
  exact : ∀ u, fn.Real u → s.fires u = 0 → s.notReady u = s.tokens fn u ∨ s.ArgFailed fn u
  sees : ∀ a, s.Runs a → a.cur.Sees fn s
  cancel : ∀ e, s.cancel = some e → (s.heap e).state.isError

/-- A registered callback's weight is at most the state's. -/
theorem Sys.waiter_le_weigh {W : Weight} {s : Sys} {p : Nat × Waiter} (h : p ∈ s.waiting) :
    W.waiter p ≤ s.weigh W :=
  (Multiset.le_sum_of_mem (Multiset.mem_map_of_mem _ h)).trans (Nat.le_add_left _ _)

/-- With arguments, the constructor's first activation owes every result of the pseudo-kernel. -/
theorem bootstrap_owes {fn : BEFFunction} {args : List Nat} (hl : args.length = fn.numArguments)
    (hp : fn.hasPseudo) {i : Nat} (hi : i < (fn.kernel 0).numResults) :
    (bootstrap fn (args ≠ [])).cur.Owes 0 i := by
  rw [hasArgs_eq hl, hp]
  unfold bootstrap
  rw [if_pos rfl]
  dsimp only
  rw [if_pos (by omega)]
  exact Cursor.owes_begin (Nat.zero_le i)

section Run

variable {fn : BEFFunction} {args : List Nat} (hwf : fn.WellFormed) (hl : fn.ArgumentsListed)
include hwf hl

/-- A gate a step opens is a kernel of the function's, opening for the first time. -/
theorem Step.opened_real {s s' : Sys} (hr : Reachable fn args s) (h : Step fn s s') {k : Nat}
    (hk : s'.fires k ≠ s.fires k) : fn.Real k ∧ s.fires k = 0 := by
  have hr' := hr.step h
  have h0 : s.fires k = 0 := by
    have := gate_opens_at_most_once hr' k; have := h.fires_le k; omega
  refine ⟨⟨Nat.lt_of_not_le fun hn => hk (by rw [hr'.fires_of_le hwf hn, h0]), ?_⟩, h0⟩
  cases hk0 : fn.isPseudo k
  · rfl
  · obtain ⟨hp, rfl⟩ : fn.hasPseudo ∧ k = 0 := by simpa [BEFFunction.isPseudo] using hk0
    exact absurd (by rw [hr'.pseudo_closed hwf hl hp, h0]) hk

/-- **A count and its tokens move together.** For a kernel of the function whose gate stays as
it is, a step keeps both, spends one of each by a pop, or accelerates the kernel. -/
theorem Step.count_cases {s s' : Sys} (hr : Reachable fn args s) (h : Step fn s s') {u : Nat}
    (hu : fn.Real u) (hf : s'.fires u = s.fires u) :
    (s'.notReady u = s.notReady u ∧ s'.tokens fn u = s.tokens fn u) ∨
      (s'.notReady u + 1 = s.notReady u ∧ s'.tokens fn u + 1 = s.tokens fn u) ∨
      ∃ a, s.Runs a ∧ ∃ k pseudo frame i off rv set rest usedBys,
        a.cur = .result k pseudo frame i off (.accelerate rv set (u :: rest) usedBys) := by
  by_cases hne : s'.notReady u = s.notReady u
  · refine .inl ⟨hne, ?_⟩
    rcases h.tokenEffect hwf hr with ⟨ht, -, -⟩ | ⟨k, ht, -, hn⟩ | ⟨k, -, -, -, ht, hf', -⟩ |
      ⟨hk, -, -, -⟩
    · exact ht u
    · have h1 := ht u; have h2 := hn u
      by_cases huk : u = k
      · subst huk; simp only [if_true, hu.1, and_self] at h2; omega
      · simp only [huk, if_false] at h1; omega
    · have huk : u ≠ k := fun huk => by subst huk; rw [hf', Function.update_same] at hf; omega
      have hk : s'.fires k ≠ s.fires k := by rw [hf', Function.update_same]; omega
      obtain ⟨hreal, h0⟩ := h.opened_real hwf hl hr hk
      have h1 := ht u
      rw [if_neg huk, if_pos ⟨h0, hreal.2⟩] at h1; omega
    · exact absurd hu.1 (by omega)
  · rcases h.notReady_cases hne with h1 | h1 | h1
    · exact absurd hf h1
    · exact .inr (.inl h1)
    · exact .inr (.inr h1)

omit hwf in
/-- The firing invariant holds before `Execute`. -/
theorem Initial.fireInv {s : Sys} (h : Initial fn args s) : FireInv fn s where
  slices k hk _ _ _ := .inr <| by
    cases hp : fn.isPseudo k
    · exact .inl ⟨⟨hk, hp⟩, h.fires k⟩
    · exact .inr (.inl ⟨hp, args, by rw [h.tasks]; exact Multiset.mem_singleton_self _⟩)
  exact u hu _ := .inl (by rw [h.notReady, h.tokens, if_pos hu, hl u hu.1]; omega)
  sees a ha := by
    obtain ⟨t, ht, hta⟩ := ha
    rw [h.tasks, Multiset.mem_singleton] at ht
    subst ht; cases hta
  cancel e he := (h.cancel e he).2.2

/-- **A used-by list still owed holds a token of its own** for each kernel it names, besides the
one a popping activation holds. -/
theorem Sys.UsedBysOwed.two_le_tokens {s : Sys} (hr : Reachable fn args s) {k i u : Nat}
    (ho : s.UsedBysOwed fn k i) (hk : k < fn.numKernels) (hi : i < (fn.kernel k).numResults)
    (hu : u ∈ fn.usedBys k i) {t : Task} {rest : Multiset Task} {ids : List Nat}
    (ht : s.tasks = t ::ₘ rest) (hta : t.act = some ⟨u :: ids, .idle⟩) : 2 ≤ s.tokens fn u := by
  have e := Sys.weigh_cons ht (W := tokenWeight fn u)
  rw [tokenWeight_act fn u hta] at e
  have h1 : 1 ≤ (⟨u :: ids, .idle⟩ : Activation).tokens fn u := by
    simp [Activation.tokens, Cursor.tokens]
  have hc : 1 ≤ (fn.usedBys k i).count u := List.count_pos_iff.2 hu
  suffices 1 ≤ ({ s with tasks := rest } : Sys).weigh (tokenWeight fn u) +
      unfiredTokens fn s.fires u fn.numKernels by
    unfold Sys.tokens; omega
  have inRest : ∀ τ ∈ s.tasks, τ.act ≠ some ⟨u :: ids, .idle⟩ → τ ∈ rest := fun τ hτ hne => by
    rw [ht, Multiset.mem_cons] at hτ; exact hτ.resolve_left fun h => hne (h ▸ hta)
  rcases ho with ⟨hreal, hf⟩ | ⟨hps, args', hm⟩ | ⟨b, ⟨tb, htb, htab⟩, hob⟩ | ⟨v, -, hw⟩
  · have := pendingFrom_le_unfiredTokens (u := u) hk hf hreal.2
    have := (fn.kernel k).count_le_pendingFrom false u (Nat.zero_le i) hi
    rw [BEFFunction.usedBys, hreal.2] at hc
    omega
  · obtain ⟨rest', ht'⟩ := Multiset.exists_cons_of_mem hm
    have hlen := hr.startArgs_length ht'
    obtain ⟨hp, rfl⟩ : fn.hasPseudo ∧ k = 0 := by simpa [BEFFunction.isPseudo] using hps
    have h2 := Sys.task_le_weigh (W := tokenWeight fn u) (s := { s with tasks := rest })
      (inRest _ hm (by simp [Task.act]))
    have h3 := Cursor.owes_tokens (bootstrap_valid hlen)
      (fun hk' => by rw [bootstrap_kernel] at hk'; cases hk') (bootstrap_owes hlen hp hi) hi hu
    have h4 : (bootstrap fn (args' ≠ [])).cur.tokens fn u ≤
        (tokenWeight fn u).task (.main (.start args')) := Nat.le_add_left _ _
    omega
  · have hb : b.cur ≠ .idle := fun h0 => by rw [h0] at hob; exact hob
    have h2 := Sys.task_le_weigh (W := tokenWeight fn u) (s := { s with tasks := rest })
      (inRest tb htb fun h => hb (by rw [htab] at h; cases h; rfl))
    rw [tokenWeight_act fn u htab] at h2
    have h3 := Cursor.owes_tokens (hr.valid hwf b ⟨tb, htb, htab⟩)
      (fun hk' => (hr.real_of_kernel hwf hl htb htab hk').1.2) hob hi hu
    have h4 : b.cur.tokens fn u ≤ b.tokens fn u := Nat.le_add_left _ _
    omega
  · have := Sys.waiter_le_weigh (W := tokenWeight fn u) (s := { s with tasks := rest }) hw
    have h3 : (tokenWeight fn u).waiter (v, .usedBys (fn.usedBys k i)) = (fn.usedBys k i).count u :=
      rfl
    omega

variable (hsp : fn.SingleProducers)
include hsp

/-- **A used-by list stays owed until its value is available.** -/
theorem Step.usedBysOwed {s s' : Sys} (hr : Reachable fn args s) (h : Step fn s s') {k i : Nat}
    (hk : k < fn.numKernels) (hi : i < (fn.kernel k).numResults) (hne : fn.usedBys k i ≠ [])
    (ho : s.UsedBysOwed fn k i) : s'.Ready (fn.resultReg k i) ∨ s'.UsedBysOwed fn k i := by
  have hg := hr.regsGrow h
  have hse := hr.settles hwf hl hsp h
  rcases ho with ⟨hreal, hf⟩ | ⟨hps, args', hm⟩ | ⟨b, ⟨tb, htb, htab⟩, hob⟩ | ⟨v, hv, hw⟩
  · by_cases hf' : s'.fires k = s.fires k
    · exact .inr (.inl ⟨hreal, hf' ▸ hf⟩)
    · obtain ⟨-, -, ids, -, -, -, -, hrun, -, -⟩ := h.opens hf'
      exact .inr (.inr (.inr (.inl ⟨_, hrun, rfl⟩)))
  · rcases h.lasting (Task.lasting_start args') hm with hm' | ⟨rest, c, ht, hst⟩
    · exact .inr (.inr (.inl ⟨hps, args', hm'⟩))
    · obtain ⟨hp, rfl⟩ : fn.hasPseudo ∧ k = 0 := by simpa [BEFFunction.isPseudo] using hps
      simp only [taskStep, mainStep, Option.some.injEq] at hst
      have hrun : s'.Runs (bootstrap fn (args' ≠ [])) := by
        rw [← hst, startExecute, if_neg (by omega)]; exact Sys.runs_spawn _ rfl
      exact .inr (.inr (.inr (.inl ⟨_, hrun, bootstrap_owes (hr.startArgs_length ht) hp hi⟩)))
  · have hrb : s.Runs b := ⟨tb, htb, htab⟩
    have hbi : b.cur ≠ .idle := fun h0 => by rw [h0] at hob; exact hob
    rcases h.lasting (Task.lasting_of_act htab hbi) htb with htb' | ⟨rest, c, ht, hst⟩
    · exact .inr (.inr (.inr (.inl ⟨b, ⟨tb, htb', htab⟩, hob⟩)))
    · obtain ⟨oa, s'', ha, hs⟩ := taskStep_act_cases htab hst
      have hp : fn.hasPseudo → s.ArgsSet fn := hr.argsSet_of_runs hwf hrb
      have e : s'.regs = s''.regs ∧ s'.heap = s''.heap ∧ s'.waiting = s''.waiting := by
        rcases hs with ⟨_, _, rfl | rfl⟩ | ⟨_, rfl | rfl⟩ <;> exact ⟨rfl, rfl, rfl⟩
      rcases Activation.step_owes ha (hr.valid hwf b hrb)
          (show b.cur.Agrees fn { s with tasks := rest } from hr.agrees b hrb)
          (fun hk' => (hr.real_of_kernel hwf hl htb htab hk').1.2) (hr.skips hwf b hrb)
          hp hob hi hne with ⟨a', rfl, ho'⟩ | ⟨v, hv, ha⟩ | ⟨v, hv, hw⟩
      · exact .inr (.inr (.inr (.inl ⟨a', taskStep_runs_next hs rfl, ho'⟩)))
      · exact .inl ⟨v, e.1 ▸ hv, e.2.1 ▸ ha⟩
      · exact .inr (.inr (.inr (.inr ⟨v, e.1 ▸ hv, e.2.2 ▸ hw⟩)))
  · rcases hse.waiting _ hw with hw' | ha
    · exact .inr (.inr (.inr (.inr ⟨v, hg _ _ hv, hw'⟩)))
    · exact .inl ⟨v, hg _ _ hv, ha⟩

variable (hlk : fn.UsedBysLinked)
include hlk

omit hsp in
/-- **The gate opens only on arrived arguments.** When a pop's `fetch_sub` returns `1`, every
argument register of the kernel holds an available value, or one holds an error. -/
theorem Step.gate_arrived {s s' : Sys} (hr : Reachable fn args s) (hs : FireInv fn s)
    (h : Step fn s s') {u : Nat} (hne : s'.fires u ≠ s.fires u) : s.ArgsArrived fn u := by
  obtain ⟨t, rest, ids, ht, hta, h1, -, -, -, -⟩ := h.opens hne
  obtain ⟨hreal, h0⟩ := h.opened_real hwf hl hr hne
  by_contra hna
  obtain ⟨j, hj, hnr⟩ : ∃ j < (fn.kernel u).numArguments, ¬ s.Ready (fn.argReg u j) := by
    by_contra hall; push_neg at hall; exact hna (.inl hall)
  have htok := (hs.exact u hreal h0).resolve_right fun hf => hna (.inr hf)
  obtain ⟨k, hk, i, hi, hreg, hmem⟩ := hlk.2 u hreal.1 hreal.2 j hj
  rcases hs.slices k hk i hi (List.ne_nil_of_mem hmem) with hrd | how
  · exact hnr (hreg ▸ hrd)
  · have := how.two_le_tokens hwf hl hr hk hi hmem ht hta
    omega

omit hsp in
/-- An activation accelerating `u` has read an error from a register `u` takes as argument. -/
theorem Reachable.argFailed_of_accelerate {s : Sys} (hr : Reachable fn args s) (hs : FireInv fn s)
    {b : Activation} (hb : s.Runs b) {u k : Nat} {pseudo : Bool} {frame : List Nat}
    {i off rv : Nat} {set : Bool} {rest usedBys : List Nat}
    (hcur : b.cur = .result k pseudo frame i off (.accelerate rv set (u :: rest) usedBys))
    (hu : fn.Real u) : s.ArgFailed fn u := by
  obtain ⟨tb, htb, htab⟩ := hb
  have hv := hr.valid hwf b ⟨tb, htb, htab⟩
  have hag := hr.agrees b ⟨tb, htb, htab⟩
  have herr := hs.sees b ⟨tb, htb, htab⟩
  have hreal := fun hk' => hr.real_of_kernel hwf hl htb htab (k := k) hk'
  rw [hcur] at hv hag herr hreal
  have hpk := hv.isPseudo_eq fun hk' => (hreal hk').1.2
  have hk : k < fn.numKernels := by
    cases pseudo
    · exact (hreal rfl).1.1
    · obtain ⟨rfl, hps⟩ := hv.2.1; exact (hwf.pseudoKernel hps).1
  obtain ⟨hi, -, -, hub, hsuf⟩ := hv
  have hmem : u ∈ fn.usedBys k i := by
    rw [BEFFunction.usedBys, hpk, ← hub]; exact hsuf.subset (List.mem_cons_self _ _)
  obtain ⟨j, hj, hreg⟩ := hlk.1 k hk i hi u hmem hu
  exact ⟨j, hj, rv, by rw [hreg, BEFFunction.resultReg, hpk]; exact hag.1 rv rfl, herr⟩

/-- **Every step keeps the readiness invariant.** -/
theorem Step.fireInv {s s' : Sys} (hr : Reachable fn args s) (hs : FireInv fn s)
    (h : Step fn s s') : FireInv fn s' := by
  have hg := hr.regsGrow h
  have hse := hr.settles hwf hl hsp h
  have hcs : ∀ e, s.cancel = some e → s'.cancel = some e := fun _ he => h.cancel_kept he
  refine ⟨fun k hk i hi hne => ?_, fun u hu hf' => ?_, fun a ha => ?_, fun e he => ?_⟩
  · rcases hs.slices k hk i hi hne with hrd | ho
    · exact .inl (hrd.mono hg hse)
    · exact h.usedBysOwed hwf hl hsp hr hk hi hne ho
  · have hf : s'.fires u = s.fires u := by have := h.fires_le u; omega
    rcases h.count_cases hwf hl hr hu hf with ⟨e1, e2⟩ | ⟨e1, e2⟩ | ⟨b, hb, _, _, _, _, _, _, _, _, _, hcur⟩
    · exact (hs.exact u hu (hf ▸ hf')).imp (fun e => by rw [e1, e2, e]) (·.mono hg hse)
    · exact (hs.exact u hu (hf ▸ hf')).imp (fun e => by omega) (·.mono hg hse)
    · exact .inr ((hr.argFailed_of_accelerate hwf hl hlk hs hb hcur hu).mono hg hse)
  · by_cases hidle : a.cur = .idle
    · rw [hidle]; trivial
    have moved : ∀ {b b' : Activation} {t : Task} {rest : Multiset Task} {c : List ResultSpec}
        {s'' : Sys}, s.tasks = t ::ₘ rest → t.act = some b →
        b.step fn c { s with tasks := rest } = some (some b', s'') → s'.fires = s''.fires →
        b'.cur ≠ .idle → b'.cur.Sees fn s' := by
      intro b b' t rest c s'' ht htb hb he hb'
      have hrb := Sys.runs_of_tasks ht htb
      by_cases hbi : b.cur = .idle
      · obtain ⟨k, hk, hne⟩ := Activation.step_idle hb hbi hb'
        rw [hk]
        exact (h.gate_arrived hwf hl hlk hr hs (by rw [he]; exact hne)).mono hg hse
      · exact Activation.step_sees hb hbi (hr.valid hwf b hrb) (hs.sees b hrb) (hr.agrees b hrb)
          hs.cancel hg hse hcs
    rcases h.runs_cases hidle ha with hold | hnew
    · exact (hs.sees a hold).mono hg hse hcs
    · cases hnew with
      | start => unfold bootstrap; (repeat' split) <;> trivial
      | ctor ht hb hs' => subst hs'; exact moved ht rfl hb rfl hidle
      | cont ht hb hs' => subst hs'; exact moved ht rfl hb rfl hidle
  · rcases h.cancel_cases with hc | ⟨-, e', he', herr⟩
    · rw [hc] at he; exact hse.isError (hs.cancel e he)
    · rw [he'] at he; cases he; exact herr

/-- The firing invariant holds in every reachable state. -/
theorem Reachable.fireInv {s : Sys} (h : Reachable fn args s) : FireInv fn s := by
  induction h with
  | init h => exact h.fireInv hl
  | step hr hst ih => exact hst.fireInv hwf hl hsp hlk hr ih

end Run

/-! ## What a kernel is handed -/

/-- **A kernel passes its gate only once its arguments have arrived.** In every reachable state
of a function whose used-by lists link each argument register to its producer, an activation
past the gate of kernel `u` finds every argument register of `u` holding an available value, or
one holding an error. -/
theorem gate_waits_for_arguments {fn : BEFFunction} {args : List Nat} (hwf : fn.WellFormed)
    (hl : fn.ArgumentsListed) (hsp : fn.SingleProducers) (hlk : fn.UsedBysLinked) {s : Sys}
    (h : Reachable fn args s) {a : Activation} (ha : s.Runs a) {u : Nat} (hu : a.cur = .gated u) :
    s.ArgsArrived fn u := by
  have := (h.fireInv hwf hl hsp hlk).sees a ha
  rw [hu] at this
  exact this

/-- `copyFn` up to kernel `1` passing its gate. -/
def copyToGate : List Sched := copyToReady.take 5

/-- The run `copyToGate` can be taken. -/
theorem copyToGate_isSome : (runSched copyFn copyToGate copyInit).isSome := by decide

/-- Kernel `1` of `copyFn` has just passed its gate. -/
def copyGated : Sys := (runSched copyFn copyToGate copyInit).get copyToGate_isSome

/-- `copyGated` is reachable. -/
theorem copyGated_reachable : Reachable copyFn [0] copyGated :=
  (Reachable.init copyInit_initial).runSched (Option.some_get _).symm

/-- Kernel `1` of `copyFn` passes its gate with its argument available. -/
theorem gate_waits_for_arguments_copyGated :
    copyGated.Runs ⟨[], .gated 1⟩ ∧ copyGated.ArgsArrived copyFn 1 :=
  have hr : copyGated.Runs ⟨[], .gated 1⟩ := ⟨.main (.ctor ⟨[], .gated 1⟩), by decide, rfl⟩
  ⟨hr, gate_waits_for_arguments copyFn_wellFormed (by decide) (by decide) (by decide)
    copyGated_reachable hr rfl⟩

/-- **A kernel invoked with no error argument is handed its registers' concrete values.** In
every reachable state of such a function, an activation about to run kernel `k` with
`any_error_argument` null has bound, for each argument of `k`, the value its argument register
holds, and that value is concrete: `BEFExecutor` never hands a kernel it runs for its arguments
an unavailable value or an error. -/
theorem strict_kernel_sees_concrete {fn : BEFFunction} {args : List Nat} (hwf : fn.WellFormed)
    (hl : fn.ArgumentsListed) (hsp : fn.SingleProducers) (hlk : fn.UsedBysLinked) {s : Sys}
    (h : Reachable fn args s) {a : Activation} (ha : s.Runs a) {k : Nat} {bound : List Nat}
    (hc : a.cur = .ready k bound none) : bound.length = (fn.kernel k).numArguments ∧
      ∀ j < bound.length, ∃ p, s.regs (fn.argReg k j) = some (bound.getD j 0) ∧
        (s.heap (bound.getD j 0)).state = .concrete p := by
  have hv := h.valid hwf a ha
  have hag := h.agrees a ha
  have hb := (h.fireInv hwf hl hsp hlk).sees a ha
  rw [hc] at hv hag hb
  refine ⟨hv, fun j hj => ?_⟩
  rcases hb.arrived with ⟨-, hcon⟩ | ⟨j', hj', -, he⟩
  · have hm : bound.getD j 0 ∈ bound := by
      rw [List.getD_eq_getElem?_getD, List.getElem?_eq_getElem hj, Option.getD_some]
      exact List.getElem_mem hj
    obtain ⟨p, hp⟩ := hcon rfl _ hm
    exact ⟨p, hag j hj, hp⟩
  · exact absurd rfl (he (hv ▸ hj'))

/-- Kernel `1` of `copyFn`, about to run, is handed the concrete value `0` of register `0`. -/
theorem strict_kernel_sees_concrete_copyReady :
    copyReady.Runs ⟨[], .ready 1 [0] none⟩ ∧ [0].length = (copyFn.kernel 1).numArguments ∧
      ∀ j < [0].length, ∃ p, copyReady.regs (copyFn.argReg 1 j) = some ([0].getD j 0) ∧
        (copyReady.heap ([0].getD j 0)).state = .concrete p :=
  have hr : copyReady.Runs ⟨[], .ready 1 [0] none⟩ :=
    ⟨.main (.ctor ⟨[], .ready 1 [0] none⟩), by decide, rfl⟩
  ⟨hr, strict_kernel_sees_concrete copyFn_wellFormed (by decide) (by decide) (by decide)
    copyReady_reachable hr rfl⟩

/-- **A kernel skipped for an error propagates an error.** In every reachable state of such a
function, an activation about to handle kernel `k` with `any_error_argument` set holds an error,
which is the host's cancel value or one of the kernel's arguments; unless the kernel is
non-strict, that error is what each of its result slots receives. -/
theorem skipped_kernel_gets_error {fn : BEFFunction} {args : List Nat} (hwf : fn.WellFormed)
    (hl : fn.ArgumentsListed) (hsp : fn.SingleProducers) (hlk : fn.UsedBysLinked) {s : Sys}
    (h : Reachable fn args s) {a : Activation} (ha : s.Runs a) {k e : Nat} {bound : List Nat}
    (hc : a.cur = .ready k bound (some e)) : (s.heap e).state.isError ∧ (s.cancel = some e ∨ e ∈ bound) := by
  have hb := (h.fireInv hwf hl hsp hlk).sees a ha
  rw [hc] at hb
  exact hb.error e rfl

/-- `copyFn` with the host cancelled before kernel `1` reads the cancel value. -/
def copyCancelled : List Sched :=
  [.env (.cancelExecution 0),
   .task (.main (.ctor ⟨[], .gated 1⟩)) [],
   .task (.main (.ctor ⟨[], .bindLoad 1 [] (some 1)⟩)) [],
   .task (.main (.ctor ⟨[], .bindCheck 1 [0] (some 1)⟩)) []]

/-- The run `copyCancelled` can be taken. -/
theorem copyCancelled_isSome : (runSched copyFn copyCancelled copyGated).isSome := by decide

/-- Kernel `1` of `copyFn` is about to propagate the cancel value. -/
def copySkipping : Sys := (runSched copyFn copyCancelled copyGated).get copyCancelled_isSome

/-- `copySkipping` is reachable. -/
theorem copySkipping_reachable : Reachable copyFn [0] copySkipping :=
  copyGated_reachable.runSched (Option.some_get _).symm

/-- Kernel `1` of `copyFn`, cancelled, propagates the cancel value `1`, an error. -/
theorem skipped_kernel_gets_error_copySkipping :
    copySkipping.Runs ⟨[], .ready 1 [0] (some 1)⟩ ∧
      (copySkipping.heap 1).state.isError ∧ (copySkipping.cancel = some 1 ∨ 1 ∈ [0]) :=
  have hr : copySkipping.Runs ⟨[], .ready 1 [0] (some 1)⟩ :=
    ⟨.main (.ctor ⟨[], .ready 1 [0] (some 1)⟩), by decide, rfl⟩
  ⟨hr, skipped_kernel_gets_error copyFn_wellFormed (by decide) (by decide) (by decide)
    copySkipping_reachable hr rfl⟩

end BefExecutor
