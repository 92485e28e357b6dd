/-
# No assertion of the executor fails

Source: `lib/bef_executor/bef_executor.cc`, The asserts of `ProcessArgumentsPseudoKernel` (:326-349), `SetRegisterValue` (:109-148) and `DecrementArgumentsNotReadyCounts` (:379-497).

`executor_asserts_hold`, along every run.
-/
import BefExecutor.Publish

namespace BefExecutor

/-! ## Used-by entries that name kernels of the function -/

/-- Every used-by entry of a kernel of the function names a kernel of the function. The
pseudo-kernel's lists are read past its result registers, as `ProcessArgumentsPseudoKernel`
reads them. -/
def BEFFunction.UsedBysInRange (fn : BEFFunction) : Prop :=
  ∀ k < fn.numKernels, ∀ i < (fn.kernel k).numResults,
    ∀ u ∈ (fn.kernel k).usedBysOf (fn.isPseudo k) i, u < fn.numKernels

/-- Decidable, so that a concrete function can be checked by `decide`. -/
instance (fn : BEFFunction) : Decidable fn.UsedBysInRange :=
  inferInstanceAs (Decidable (∀ k < fn.numKernels, ∀ i < (fn.kernel k).numResults,
    ∀ u ∈ (fn.kernel k).usedBysOf (fn.isPseudo k) i, u < fn.numKernels))

namespace BEFFunction.UsedBysInRange

variable {fn : BEFFunction} (hin : fn.UsedBysInRange) {u : Nat} (hu : fn.numKernels ≤ u)
include hin hu

/-- A kernel of the function lists no id outside it. -/
theorem pendingFrom {k : Nat} (hk : k < fn.numKernels) :
    (fn.kernel k).pendingFrom (fn.isPseudo k) u 0 = 0 :=
  BEFKernel.pendingFrom_eq_zero _ _ fun i hi hm => by have := hin k hk i hi u hm; omega

/-- The kernels not yet fired hold no token for an id outside the function. -/
theorem unfiredTokens (fires : Nat → Nat) {n : Nat} (hn : n ≤ fn.numKernels) :
    unfiredTokens fn fires u n = 0 := by
  induction n with
  | zero => rfl
  | succ n ih =>
    rw [BefExecutor.unfiredTokens, ih (by omega)]
    split
    · rename_i hf; rw [Nat.zero_add, ← hf.2]; exact hin.pendingFrom hu (by omega)
    · rfl

/-- The loaded function lists no id outside it. -/
theorem usedByTotal (hwf : fn.WellFormed) : fn.usedByTotal u = 0 := by
  rw [BEFFunction.usedByTotal, hin.unfiredTokens hu _ le_rfl, Nat.zero_add]
  split
  · rename_i hp
    rw [← BEFFunction.isPseudo_zero hp]; exact hin.pendingFrom hu (hwf.pseudoKernel hp).1
  · rfl

end BEFFunction.UsedBysInRange

/-- A thread running `a` holds the tokens of `a`. -/
theorem tokenWeight_act (fn : BEFFunction) (u : Nat) {t : Task} {a : Activation}
    (h : t.act = some a) : (tokenWeight fn u).task t = a.tokens fn u := by
  cases t with
  | main ph => cases ph <;> cases h; rfl
  | cont a' => cases h; rfl
  | _ => cases h

section Worklists

variable {fn : BEFFunction} (hwf : fn.WellFormed) (hl : fn.ArgumentsListed)
  (hin : fn.UsedBysInRange) {args : List Nat}
include hwf hl hin

/-- **No token for an id outside the function.** The only new tokens are the used-by lists of a
kernel whose gate opens, and the pseudo-kernel's never does. -/
theorem Reachable.strayTokens {s : Sys} (h : Reachable fn args s) {u : Nat}
    (hu : fn.numKernels ≤ u) : s.tokens fn u = 0 := by
  induction h with
  | init h =>
    rw [h.tokens, if_neg fun hr => absurd hr.1 (by omega), hin.usedByTotal hu hwf]
  | @step s s' hr hst ih =>
    rcases hst.tokenEffect hwf hr with ⟨ht, -, -⟩ | ⟨k, ht, -, -⟩ | ⟨k, hk, -, -, ht, hf, -⟩ |
      ⟨-, ht, -, -⟩
    · rw [ht, ih]
    · have := ht u; omega
    · have hp : fn.isPseudo k = false := by
        cases hk0 : fn.isPseudo k
        · rfl
        · obtain ⟨hp, rfl⟩ : fn.hasPseudo ∧ k = 0 := by simpa [BEFFunction.isPseudo] using hk0
          have := (hr.step hst).pseudo_closed hwf hl hp
          rw [hf, Function.update_same] at this; omega
      have h0 : (fn.kernel k).pendingFrom false u 0 = 0 := by
        rw [← hp]; exact hin.pendingFrom hu hk
      have e := ht u
      rw [ih, h0, ite_self, if_neg (show u ≠ k by omega)] at e
      omega
    · exact Nat.eq_zero_of_le_zero (ih ▸ ht u)

/-- **Every worklist holds kernel ids of the function.** -/
theorem Reachable.ids_lt {s : Sys} (h : Reachable fn args s) {a : Activation} (ha : s.Runs a)
    {k : Nat} (hk : k ∈ a.ids) : k < fn.numKernels := by
  by_contra hn
  obtain ⟨t, ht, hta⟩ := ha
  have h1 : (tokenWeight fn k).task t ≤ s.tokens fn k :=
    (Sys.task_le_weigh ht).trans (Nat.le_add_right _ _)
  rw [h.strayTokens hwf hl hin (by omega), tokenWeight_act fn k hta, Activation.tokens] at h1
  have := List.count_pos_iff.2 hk
  omega

end Worklists

/-! ## Which steps check an assertion -/

namespace Sys

variable (s : Sys)

@[simp] theorem modify_assertFailed (v : Nat) (f : AsyncValue → AsyncValue) :
    (s.modify v f).assertFailed = s.assertFailed := rfl
@[simp] theorem alloc_assertFailed (a : AsyncValue) : (s.alloc a).assertFailed = s.assertFailed :=
  rfl
@[simp] theorem dropRef_assertFailed (v n : Nat) : (s.dropRef v n).assertFailed = s.assertFailed :=
  rfl
@[simp] theorem resolve_assertFailed (v : Nat) (st : AVState) :
    (s.resolve v st).assertFailed = s.assertFailed := rfl
@[simp] theorem takeRef_assertFailed (r v : Nat) : (s.takeRef r v).assertFailed = s.assertFailed :=
  rfl

/-- `GetOrCreateRegisterValue` asserts nothing. -/
theorem getOrCreateRegisterValue_assertFailed (fn : BEFFunction) (r : Nat) :
    (s.getOrCreateRegisterValue fn r).2.assertFailed = s.assertFailed := by
  simp only [getOrCreateRegisterValue]; split <;> rfl

/-- Running a kernel asserts nothing. -/
theorem invoke_assertFailed (bound : List Nat) (c : List ResultSpec) :
    (s.invoke bound c).2.assertFailed = s.assertFailed := by
  induction c generalizing s with
  | nil => rfl
  | cons r c ih => cases r <;> exact ih _

/-- `InitializeArgumentRegisters` asserts nothing. -/
theorem initializeArgumentRegisters_assertFailed (fn : BEFFunction) (args : List Nat) (i : Nat) :
    (s.initializeArgumentRegisters fn args i).assertFailed = s.assertFailed := by
  obtain ⟨_, _, _, e⟩ := s.initializeArgumentRegisters_eq fn args i
  rw [e]

end Sys

section Step

variable {fn : BEFFunction} {c : List ResultSpec} {s s' : Sys}

/-- **An activation step passes its checks** when its worklist holds kernels of the function,
the pseudo-kernel's registers are set, and it knows where its kernel's registers are. -/
theorem Activation.step_assertFailed {a : Activation} {oa : Option Activation}
    (h : a.step fn c s = some (oa, s')) (hs : s.HeapInv) (hv : a.cur.Valid fn)
    (hp : a.cur.Pub fn s) (hargs : fn.hasPseudo → s.ArgsSet fn)
    (hids : ∀ k ∈ a.ids, k < fn.numKernels) : s'.assertFailed = s.assertFailed := by
  rcases a with ⟨ids, cur⟩
  cases cur with
  | idle =>
    cases ids with
    | nil =>
      simp only [Activation.step, Option.some.injEq, Prod.mk.injEq] at h
      rw [← h.2]
    | cons k ids =>
      simp only [Activation.step, Option.some.injEq, Prod.map, Activation.stepPop,
        if_pos (hids k (List.mem_cons_self _ _)), Prod.mk.injEq] at h
      obtain ⟨-, rfl⟩ := h
      split <;> rfl
  | ready k bound anyErr =>
    simp only [Activation.step, Activation.stepReady, Option.map_eq_some'] at h
    obtain ⟨p, hp, hq⟩ := h
    cases hq
    split at hp
    · split at hp
      · cases hp; exact Sys.invoke_assertFailed ..
      · cases hp
    · cases hp; rfl
  | bindCas k bound anyErr =>
    simp only [Activation.step, Option.some.injEq, Prod.map, Activation.stepBindCas,
      Prod.mk.injEq] at h
    obtain ⟨-, rfl⟩ := h
    exact Sys.getOrCreateRegisterValue_assertFailed ..
  | result k pseudo frame i off ph =>
    simp only [Activation.step, Option.some.injEq, Prod.map, Prod.mk.injEq] at h
    obtain ⟨-, rfl⟩ := h
    cases ph with
    | begin =>
      dsimp only [Activation.stepResult, Activation.stepBegin]
      cases pseudo with
      | true =>
        obtain ⟨hi, ⟨rfl, hps⟩, -⟩ := hv
        simp only [if_true]
        split
        · rfl
        · split
          · rfl
          · exact absurd ‹_› (hargs hps i hi ‹_›)
      | false =>
        simp only [Bool.false_eq_true, if_false]
        rcases (hp rfl).2.2 with hn | ⟨e, he⟩
        · simp only [hn]; split <;> rfl
        · simp only [he.1, (hs.awaits_unresolved he).1, if_true]; split <;> rfl
    | setCas =>
      obtain rfl : pseudo = false := hv.2.2.2
      dsimp only [Activation.stepResult, Activation.stepSetCas]
      rcases (hp rfl).2.2 with hn | ⟨e, he⟩
      · simp only [hn]; rfl
      · simp only [he.1, (hs.made e _ he.2.1).2.1, if_true]; rfl
    | setForward e =>
      obtain rfl : pseudo = false := hv.2.2.2
      obtain ⟨h1, h2⟩ := hs.awaits_unresolved (hp rfl).2
      simp [Activation.stepResult, Activation.stepSetForward, Sys.forwardTo, h1, h2]
    | accelerate rv set pending usedBys =>
      dsimp only [Activation.stepResult, Activation.stepAccelerate]
      split <;> rfl
    | dispatch rv set =>
      dsimp only [Activation.stepResult, Activation.stepDispatch]
      (repeat' split) <;> rfl
    | _ => rfl
  | bindLoad k bound anyErr =>
    simp only [Activation.step, Option.some.injEq, Prod.map, Activation.stepBindLoad,
      Prod.mk.injEq] at h
    obtain ⟨-, rfl⟩ := h
    split <;> rfl
  | _ =>
    simp only [Activation.step, Option.some.injEq, Prod.map, Prod.mk.injEq] at h
    obtain ⟨-, rfl⟩ := h
    rfl

/-- Threads that run no activation, and the world, check nothing. -/
theorem taskStep_assertFailed {t : Task} (hta : t.act = none)
    (h : taskStep fn c t s = some s') : s'.assertFailed = s.assertFailed := by
  cases t with
  | main ph =>
    cases ph with
    | start args =>
      simp only [taskStep, mainStep, Option.some.injEq] at h; subst h
      unfold startExecute; split
      · rfl
      · exact s.initializeArgumentRegisters_assertFailed ..
    | ctor a => cases hta
    | exportLoad i results =>
      simp only [taskStep, mainStep] at h
      (repeat' split at h) <;> (cases h; rfl)
    | exportCas i results =>
      simp only [taskStep, mainStep, Option.some.injEq] at h; subst h
      exact s.getOrCreateRegisterValue_assertFailed ..
    | release results => simp only [taskStep, mainStep, Option.some.injEq] at h; subst h; rfl
    | done results => cases h
  | cont a => cases hta
  | _ => simp only [taskStep, Option.some.injEq] at h; subst h; rfl

/-- The environment asserts nothing. -/
theorem envStep_assertFailed {e : Env} (h : envStep e s = some s') :
    s'.assertFailed = s.assertFailed := by
  rcases envStep_cases h with ⟨v, st, -, -, rfl⟩ | ⟨v, -, -, rfl⟩ | ⟨d, -, rfl⟩ <;> rfl

end Step

section Run

variable {fn : BEFFunction} (hwf : fn.WellFormed) (hl : fn.ArgumentsListed)
  (hsp : fn.SingleProducers) (hin : fn.UsedBysInRange) {args : List Nat}
include hwf hl hsp hin

/-- **No step of a run fails a check.** -/
theorem Step.assertFailed {s s' : Sys} (hr : Reachable fn args s) (h : Step fn s s') :
    s'.assertFailed = s.assertFailed := by
  cases h with
  | env e h => exact envStep_assertFailed h
  | @task t rest c ht h =>
    cases hta : t.act with
    | none => have := taskStep_assertFailed hta h; exact this
    | some a =>
      have ha := Sys.runs_of_tasks ht hta
      have hp := hr.pubInv hwf hl hsp
      obtain ⟨oa, s'', hstep, -, -, -, -, e⟩ := taskStep_act hta h
      have hargs : fn.hasPseudo → s.ArgsSet fn := hr.argsSet_of_runs hwf ha
      have := Activation.step_assertFailed hstep (hp.heap.of_cons ht) (hr.valid hwf a ha)
        (hp.acts a ha) hargs fun k hk => hr.ids_lt hwf hl hin ha hk
      rw [e]; exact this

end Run

/-- **No assertion of the executor fails.** In every reachable state of a function whose
registers have one producer each and whose used-by entries name its kernels, every kernel id
`DecrementArgumentsNotReadyCounts` pops is valid, `ProcessArgumentsPseudoKernel` finds its
used argument registers set, every result register is null or holds an unresolved
`IndirectAsyncValue` when `SetRegisterValue` starts, its `cast<IndirectAsyncValue>` holds, and
`ForwardTo` finds a value not yet forwarded. -/
theorem executor_asserts_hold {fn : BEFFunction} (hwf : fn.WellFormed) (hl : fn.ArgumentsListed)
    (hsp : fn.SingleProducers) (hin : fn.UsedBysInRange) {args : List Nat} {s : Sys}
    (h : Reachable fn args s) : s.assertFailed = false := by
  induction h with
  | init h => exact h.assertFailed
  | step hr hst ih => rw [hst.assertFailed hwf hl hsp hin hr, ih]

/-- `copyFn` run to the end. -/
theorem executor_asserts_hold_copyDone :
    copyFn.WellFormed ∧ copyFn.ArgumentsListed ∧ copyFn.SingleProducers ∧
      copyFn.UsedBysInRange ∧ copyDone.assertFailed = false :=
  ⟨copyFn_wellFormed, by decide, by decide, by decide,
    executor_asserts_hold copyFn_wellFormed (by decide) (by decide) (by decide)
      copyDone_reachable⟩

end BefExecutor
