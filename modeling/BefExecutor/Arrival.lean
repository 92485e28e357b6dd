/-
# What a readiness count waits for

Source: `lib/bef_executor/bef_executor.cc`, `DecrementArgumentsNotReadyCounts` (:369-517) and `ProcessUsedBys` (:238-321).

Each outstanding decrement of a kernel is owed by a result that has not handed its used-by list on.
-/
import BefExecutor.Availability
import BefExecutor.Asserts

namespace BefExecutor

/-! ## The layout -/

namespace BEFFunction

variable (fn : BEFFunction)

/-- The register result `i` of kernel `k` is written to; the pseudo-kernel's are argument
registers. -/
def resultReg (k i : Nat) : Nat := ((fn.kernel k).resultRegs (fn.isPseudo k)).getD i 0

/-- The register of argument `j` of kernel `u`. -/
def argReg (u j : Nat) : Nat := (fn.kernel u).arguments.getD j 0

/-- The used-by entries of result `i` of kernel `k`. -/
def usedBys (k i : Nat) : List Nat := (fn.kernel k).usedBysOf (fn.isPseudo k) i

/-- Argument `j` of kernel `u` is a result of the function whose used-by list names `u`. -/
def ArgumentProduced (u j : Nat) : Prop :=
  ∃ k < fn.numKernels, ∃ i < (fn.kernel k).numResults,
    fn.resultReg k i = fn.argReg u j ∧ u ∈ fn.usedBys k i

/-- Decidable, so that a concrete function can be checked by `decide`. -/
instance (u j : Nat) : Decidable (fn.ArgumentProduced u j) :=
  inferInstanceAs (Decidable (∃ k < fn.numKernels, _))

/-- The used-by lists link each result to the kernels that read it: a kernel named in a
result's list has that result's register among its arguments, and each argument register of a
kernel is a result whose list names the kernel. -/
def UsedBysLinked : Prop :=
  (∀ k < fn.numKernels, ∀ i < (fn.kernel k).numResults, ∀ u ∈ fn.usedBys k i, fn.Real u →
    ∃ j < (fn.kernel u).numArguments, fn.argReg u j = fn.resultReg k i) ∧
  ∀ u < fn.numKernels, fn.isPseudo u = false →
    ∀ j < (fn.kernel u).numArguments, fn.ArgumentProduced u j

/-- Decidable, so that a concrete function can be checked by `decide`. -/
instance : Decidable fn.UsedBysLinked := inferInstanceAs (Decidable (_ ∧ _))

end BEFFunction

/-! ## What a gate waits for -/

namespace Sys

variable (fn : BEFFunction) (s : Sys)

/-- Register `r` holds an available value. -/
def Ready (r : Nat) : Prop := ∃ v, s.regs r = some v ∧ (s.heap v).state.isAvailable

/-- Register `r` holds an error. -/
def Failed (r : Nat) : Prop := ∃ v, s.regs r = some v ∧ (s.heap v).state.isError

/-- An argument of kernel `u` holds an error. -/
def ArgFailed (u : Nat) : Prop := ∃ j < (fn.kernel u).numArguments, s.Failed (fn.argReg u j)

/-- What the gate of kernel `u` waits for: every argument available, or one an error, which
`SetKernelsWithErrorInputReady` lets through early. -/
def ArgsArrived (u : Nat) : Prop :=
  (∀ j < (fn.kernel u).numArguments, s.Ready (fn.argReg u j)) ∨ s.ArgFailed fn u

variable {fn s} {s' : Sys}

/-- An error stays an error. -/
theorem Settles.isError (hs : s.Settles s') {v : Nat} (hv : (s.heap v).state.isError) :
    (s'.heap v).state.isError := by
  rw [hs.state v (AVState.isAvailable_of_isError hv)]; exact hv

/-- A register that holds an available value keeps holding it. -/
theorem Ready.mono {r : Nat} (h : s.Ready r) (hg : RegsGrow s s') (hs : s.Settles s') :
    s'.Ready r := by
  obtain ⟨v, hv, ha⟩ := h
  exact ⟨v, hg r v hv, hs.available ha⟩

/-- A register that holds an error keeps holding it. -/
theorem Failed.mono {r : Nat} (h : s.Failed r) (hg : RegsGrow s s') (hs : s.Settles s') :
    s'.Failed r := by
  obtain ⟨v, hv, he⟩ := h
  exact ⟨v, hg r v hv, hs.isError he⟩

/-- An argument of `u` that holds an error keeps holding it. -/
theorem ArgFailed.mono {u : Nat} (h : s.ArgFailed fn u) (hg : RegsGrow s s') (hs : s.Settles s') :
    s'.ArgFailed fn u := by
  obtain ⟨j, hj, hf⟩ := h
  exact ⟨j, hj, hf.mono hg hs⟩

/-- Arguments that have arrived stay arrived. -/
theorem ArgsArrived.mono {u : Nat} (h : s.ArgsArrived fn u) (hg : RegsGrow s s')
    (hs : s.Settles s') : s'.ArgsArrived fn u :=
  h.imp (fun h j hj => (h j hj).mono hg hs) fun h => h.mono hg hs

end Sys

/-! ## Used-by lists still owed -/

/-- The phases of a result before its used-by list is handed on. -/
def ResultPhase.holdsUsedBys : ResultPhase → Bool
  | .accelerate .. | .dropPlaceholder _ => false
  | _ => true

/-- An activation has still to hand on the used-by list of result `i` of kernel `k`: it works on
`k` and has not passed that result's `ProcessUsedBys`. -/
def Cursor.Owes (k i : Nat) : Cursor → Prop
  | .idle => False
  | .gated k' | .bindLoad k' _ _ | .bindCas k' _ _ | .bindCheck k' _ _ | .ready k' _ _
  | .dropArg k' _ _ _ => k' = k
  | .result k' _ _ j _ ph => k' = k ∧ (j < i ∨ j = i ∧ ph.holdsUsedBys)

/-- Result `i` of kernel `k` has its used-by list still to hand on: the kernel has not fired,
`Execute` has not started the pseudo-kernel, an activation has not passed it, or its
`ProcessUsedBys` closure waits on the register's value. -/
def Sys.UsedBysOwed (fn : BEFFunction) (s : Sys) (k i : Nat) : Prop :=
  (fn.Real k ∧ s.fires k = 0) ∨
    (fn.isPseudo k = true ∧ ∃ args, Task.main (.start args) ∈ s.tasks) ∨
    (∃ a, s.Runs a ∧ a.cur.Owes k i) ∨
    ∃ v, s.regs (fn.resultReg k i) = some v ∧ (v, .usedBys (fn.usedBys k i)) ∈ s.waiting

/-- A result's used-by list counts among the tokens of the results from any earlier one on. -/
theorem BEFKernel.count_le_pendingFrom (k : BEFKernel) (pseudo : Bool) (u : Nat) {i j : Nat}
    (hji : j ≤ i) (hi : i < k.numResults) :
    (k.usedBysOf pseudo i).count u ≤ k.pendingFrom pseudo u j := by
  obtain ⟨d, rfl⟩ := Nat.exists_eq_add_of_le hji
  induction d generalizing j with
  | zero => rw [Nat.add_zero] at hi ⊢; rw [k.pendingFrom_of_lt pseudo u hi]; exact Nat.le_add_right _ _
  | succ d ih =>
    rw [k.pendingFrom_of_lt pseudo u (by omega)]
    have := ih (j := j + 1) (by omega) (by rw [Nat.add_right_comm]; omega)
    rw [show j + 1 + d = j + (d + 1) by omega] at this
    omega

/-- A result position's pseudo-kernel flag is its kernel's, when a kernel it works on is a real
one. -/
theorem Cursor.Valid.isPseudo_eq {fn : BEFFunction} {k : Nat} {pseudo : Bool} {frame : List Nat}
    {i off : Nat} {ph : ResultPhase} (hv : (Cursor.result k pseudo frame i off ph).Valid fn)
    (hk : (Cursor.result k pseudo frame i off ph).kernel = some k → fn.isPseudo k = false) :
    fn.isPseudo k = pseudo := by
  cases pseudo
  · exact hk rfl
  · obtain ⟨rfl, hps⟩ := hv.2.1; exact BEFFunction.isPseudo_zero hps

/-- **An activation that owes a used-by list holds a token for each kernel in it.** -/
theorem Cursor.owes_tokens {fn : BEFFunction} {cur : Cursor} {k i u : Nat} (hv : cur.Valid fn)
    (hk : cur.kernel = some k → fn.isPseudo k = false) (ho : cur.Owes k i)
    (hi : i < (fn.kernel k).numResults) (hu : u ∈ fn.usedBys k i) : 1 ≤ cur.tokens fn u := by
  have hc : 1 ≤ ((fn.kernel k).usedBysOf (fn.isPseudo k) i).count u := List.count_pos_iff.2 hu
  cases cur with
  | idle => cases ho
  | result k' pseudo frame j off ph =>
    obtain ⟨rfl, hj⟩ := ho
    rw [hv.isPseudo_eq hk] at hc
    simp only [Cursor.tokens]
    rcases hj with hj | ⟨rfl, hh⟩
    · have := (fn.kernel k').count_le_pendingFrom pseudo u
        (show (if ph.sliced then j + 1 else j) ≤ i by split <;> omega) hi
      omega
    · have := (fn.kernel k').count_le_pendingFrom pseudo u le_rfl hi
      cases ph with
      | andThen rv set usedBys => rw [hv.2.2.2]; simp only [ResultPhase.held]; omega
      | accelerate | dropPlaceholder => cases hh
      | _ =>
        simp only [ResultPhase.sliced, ResultPhase.held, Bool.false_eq_true, if_false,
          List.count_nil, Nat.add_zero]
        omega
  | _ =>
    cases ho
    rw [hk rfl] at hc
    have := (fn.kernel _).count_le_pendingFrom false u (Nat.zero_le i) hi
    simp only [Cursor.tokens]; omega

/-! ## How a count changes -/

/-- A result step writes neither a gate's firing count nor the cancel value, and writes a
not-ready count only to accelerate a used-by kernel. -/
theorem Activation.stepResult_gates (fn : BEFFunction) (ids : List Nat) (s : Sys) (k : Nat)
    (pseudo : Bool) (frame : List Nat) (i off : Nat) (ph : ResultPhase) :
    (Activation.stepResult fn ids s k pseudo frame i off ph).2.fires = s.fires ∧
      (Activation.stepResult fn ids s k pseudo frame i off ph).2.cancel = s.cancel ∧
      ((Activation.stepResult fn ids s k pseudo frame i off ph).2.notReady = s.notReady ∨
        ∃ rv set u rest usedBys, ph = .accelerate rv set (u :: rest) usedBys) := by
  cases ph with
  | accelerate rv set pending usedBys =>
    cases pending with
    | nil => exact ⟨rfl, rfl, .inl rfl⟩
    | cons u rest => exact ⟨rfl, rfl, .inr ⟨_, _, _, _, _, rfl⟩⟩
  | _ =>
    dsimp only [Activation.stepResult, Activation.stepBegin, Activation.stepUnusedDrop,
      Activation.stepSetCas, Activation.stepSetRevert, Activation.stepSetForward,
      Activation.stepDispatch, Activation.stepAndThen, Activation.stepDropPlaceholder]
    all_goals (repeat' split) <;> exact ⟨rfl, rfl, .inl rfl⟩

/-- **An activation away from the head of its loop opens no gate, and changes a count only by
acceleration**, of the kernel the acceleration is at. -/
theorem Activation.step_busy {fn : BEFFunction} {c : List ResultSpec} {a : Activation}
    {s s' : Sys} {oa : Option Activation} (h : a.step fn c s = some (oa, s')) (hb : a.cur ≠ .idle) :
    s'.fires = s.fires ∧ ∀ u, s'.notReady u = s.notReady u ∨
      ∃ k pseudo frame i off rv set rest usedBys,
        a.cur = .result k pseudo frame i off (.accelerate rv set (u :: rest) usedBys) := by
  rcases a with ⟨ids, cur⟩
  cases cur with
  | idle => exact absurd rfl hb
  | ready k bound anyErr =>
    simp only [Activation.step, Activation.stepReady, Option.map_eq_some'] at h
    obtain ⟨p, hp, hq⟩ := h
    cases hq
    split at hp
    · split at hp
      · cases hp
        exact ⟨(invoke_gate _ _ _).2, fun u => .inl (congrFun (invoke_gate _ _ _).1 u)⟩
      · cases hp
    · cases hp; exact ⟨rfl, fun _ => .inl rfl⟩
  | result k pseudo frame i off ph =>
    simp only [Activation.step, Option.some.injEq, Prod.map, Prod.mk.injEq] at h
    obtain ⟨-, rfl⟩ := h
    obtain ⟨hf, -, hn | ⟨rv, set, u', rest, usedBys, rfl⟩⟩ :=
      Activation.stepResult_gates fn ids s k pseudo frame i off ph
    · exact ⟨hf, fun u => .inl (congrFun hn u)⟩
    · refine ⟨hf, fun u => ?_⟩
      by_cases hu : u = u'
      · subst hu; exact .inr ⟨_, _, _, _, _, _, _, _, _, rfl⟩
      · exact .inl (Function.update_noteq hu _ _)
  | _ =>
    simp only [Activation.step, Option.some.injEq, Prod.map, Activation.stepGated,
      Activation.stepBindLoad, Activation.stepBindCas, Activation.stepBindCheck,
      Activation.stepDropArg, Prod.mk.injEq, Sys.getOrCreateRegisterValue] at h
    obtain ⟨-, rfl⟩ := h
    all_goals (repeat' split) <;> exact ⟨rfl, fun _ => .inl rfl⟩

/-- A spawned thread runs the activation it carries. -/
theorem Sys.runs_spawn (s : Sys) {t : Task} {b : Activation} (h : t.act = some b) :
    (s.spawn t).Runs b :=
  ⟨t, Multiset.mem_add.2 (.inr (Multiset.mem_singleton_self t)), h⟩

/-- The activation a thread moves to runs next. -/
theorem taskStep_runs_next {a' : Activation} {s' s'' : Sys} {oa : Option Activation}
    (hs : (∃ a', oa = some a' ∧ (s' = s''.spawn (.main (.ctor a')) ∨ s' = s''.spawn (.cont a'))) ∨
      oa = none ∧ (s' = s''.spawn (.main (.exportLoad 0 [])) ∨ s' = s''.dropExec))
    (ha : oa = some a') : s'.Runs a' := by
  rcases hs with ⟨b, rfl, rfl | rfl⟩ | ⟨rfl, -⟩
  · cases ha; exact Sys.runs_spawn _ rfl
  · cases ha; exact Sys.runs_spawn _ rfl
  · cases ha

/-- A thread that runs an activation takes that activation's step and starts its next phase,
which holds the tokens of the activation it moved to. -/
theorem taskStep_act_tokens {fn : BEFFunction} {c : List ResultSpec} {t : Task} {a : Activation}
    {s s' : Sys} (hta : t.act = some a) (h : taskStep fn c t s = some s') :
    ∃ oa s'', a.step fn c s = some (oa, s'') ∧ s'.notReady = s''.notReady ∧
      s'.fires = s''.fires ∧ ∀ u, s'.weigh (tokenWeight fn u) =
        s''.weigh (tokenWeight fn u) + (oa.map (Activation.tokens fn u)).getD 0 := by
  obtain ⟨oa, s'', ha, ⟨a', rfl, rfl | rfl⟩ | ⟨rfl, rfl | rfl⟩⟩ := taskStep_act_cases hta h
  iterate 3 exact ⟨_, _, ha, rfl, rfl, fun u => Sys.weigh_spawn _⟩
  exact ⟨_, _, ha, rfl, rfl, fun u => (Nat.add_zero _).symm⟩

/-- **A count changes by a pop or by acceleration.** A step that changes the count of a kernel
of the function opens its gate, or pops it and spends one of its tokens with the unit of the
count, or is an acceleration of it by a running activation. -/
theorem Step.notReady_cases {fn : BEFFunction} {s s' : Sys} (h : Step fn s s') {u : Nat}
    (hne : s'.notReady u ≠ s.notReady u) :
    s'.fires u ≠ s.fires u ∨ (s'.notReady u + 1 = s.notReady u ∧ s'.tokens fn u + 1 = s.tokens fn u) ∨
      ∃ a, s.Runs a ∧ ∃ k pseudo frame i off rv set rest usedBys,
        a.cur = .result k pseudo frame i off (.accelerate rv set (u :: rest) usedBys) := by
  cases h with
  | env e h => exact absurd (congrFun (envStep_frame h).1 u) hne
  | @task t rest c ht h =>
    cases hta : t.act with
    | none => exact absurd (congrFun (taskStep_frame hta h).1 u) hne
    | some a =>
      obtain ⟨oa, s'', hstep, e1, e2, e3⟩ := taskStep_act_tokens hta h
      rw [e1] at hne ⊢
      by_cases hb : a.cur = .idle
      · rcases a with ⟨ids, cur⟩
        simp only at hb; subst hb
        cases ids with
        | nil =>
          simp only [Activation.step, Option.some.injEq, Prod.mk.injEq] at hstep
          rw [← hstep.2] at hne; exact absurd rfl hne
        | cons k ids =>
          have hw0 := (Activation.step_executors hstep).1 _ (tokenWeight_executorOnly fn u)
          have hw1 := Sys.weigh_cons ht (W := tokenWeight fn u)
          rw [tokenWeight_act fn u hta] at hw1
          simp only [Activation.step, Option.some.injEq, Prod.map, Activation.stepPop,
            Prod.mk.injEq, id] at hstep
          split at hstep
          · split at hstep
            · obtain ⟨-, rfl⟩ := hstep
              obtain rfl : u = k := by
                by_contra hk; exact hne (Function.update_noteq hk _ _)
              left; rw [e2]; simp
            · obtain ⟨rfl, rfl⟩ := hstep
              obtain rfl : u = k := by
                by_contra hk; exact hne (Function.update_noteq hk _ _)
              right; left
              refine ⟨by simp, ?_⟩
              simp only [Sys.tokens, e2, e3, Option.map_some', Option.getD_some]
              rw [hw0, hw1]
              simp only [Activation.tokens, Cursor.tokens, List.count_cons_self,
                Cursor.handoffWeight, Cursor.handoff, Option.map_none', Option.getD_none]
              omega
          · obtain ⟨-, rfl⟩ := hstep
            exact absurd rfl hne
      · rcases (Activation.step_busy hstep hb).2 u with h1 | h1
        · exact absurd h1 hne
        · exact .inr (.inr ⟨a, Sys.runs_of_tasks ht hta, h1⟩)

end BefExecutor
