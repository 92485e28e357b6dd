/-
# The uses of a register

Source: `lib/bef_executor/bef_executor.cc`, The `user_count` references of `GetOrCreateRegisterValue` (:55-84), `SetRegisterValue` (:109-148), `InitializeArgumentRegisters` (:570-582), and their `DropRef`s in `DecrementArgumentsNotReadyCounts` (:470-476) and `Execute` (:607-629).

`register_uses_within_userCount`, in every reachable state.
-/
import BefExecutor.Arrival

namespace BefExecutor

/-! ## Uses in the kernel records -/

namespace BEFFunction

variable (fn : BEFFunction)

/-- The argument slots of kernel `k` from slot `j` on that name register `r`. -/
def argUsesFrom (k r j : Nat) : Nat :=
  ((List.range' j ((fn.kernel k).numArguments - j)).map (fn.argReg k)).count r

/-- The uses of register `r` by the kernels below `n` whose gate has not opened. -/
def unfiredUses (fires : Nat → Nat) (r : Nat) : Nat → Nat
  | 0 => 0
  | n + 1 => unfiredUses fires r n + if fires n = 0 then fn.argUsesFrom n r 0 else 0

/-- Every use of register `r`: the argument slots naming it and the results exported from it. -/
def uses (r : Nat) : Nat := fn.unfiredUses (fun _ => 0) r fn.numKernels + fn.resultRegs.count r

/-- What the executor needs of the loader's register table: every register a kernel or the
export names is in the table, and `user_count` covers each register's uses. -/
structure RegisterTable : Prop where
  args : ∀ k < fn.numKernels, ∀ j < (fn.kernel k).numArguments, fn.argReg k j < fn.numRegs
  results : ∀ k < fn.numKernels, ∀ i < (fn.kernel k).numResults, fn.resultReg k i < fn.numRegs
  exports : ∀ r ∈ fn.resultRegs, r < fn.numRegs
  userCounts : ∀ r < fn.numRegs, fn.uses r ≤ fn.userCount r

/-- Decidable, so that a concrete function can be checked by `decide`. -/
instance : Decidable fn.RegisterTable :=
  decidable_of_iff ((∀ k < fn.numKernels, ∀ j < (fn.kernel k).numArguments, fn.argReg k j < fn.numRegs) ∧
      (∀ k < fn.numKernels, ∀ i < (fn.kernel k).numResults, fn.resultReg k i < fn.numRegs) ∧
      (∀ r ∈ fn.resultRegs, r < fn.numRegs) ∧ ∀ r < fn.numRegs, fn.uses r ≤ fn.userCount r)
    ⟨fun ⟨a, b, c, d⟩ => ⟨a, b, c, d⟩, fun ⟨a, b, c, d⟩ => ⟨a, b, c, d⟩⟩

variable {fn}

/-- The uses of `r` from argument `j` on are argument `j`'s and the rest's. -/
theorem argUsesFrom_of_lt {k r j : Nat} (h : j < (fn.kernel k).numArguments) :
    fn.argUsesFrom k r j = (if fn.argReg k j = r then 1 else 0) + fn.argUsesFrom k r (j + 1) := by
  unfold argUsesFrom
  rw [show (fn.kernel k).numArguments - j = (fn.kernel k).numArguments - (j + 1) + 1 by omega,
    List.range'_succ, List.map_cons, List.count_cons]
  simp only [beq_iff_eq]; omega

/-- Past the last argument no uses are left. -/
theorem argUsesFrom_of_le {k r j : Nat} (h : (fn.kernel k).numArguments ≤ j) :
    fn.argUsesFrom k r j = 0 := by
  simp [argUsesFrom, Nat.sub_eq_zero_of_le h]

/-- The unfired uses below `n` do not see the kernels from `n` on. -/
theorem unfiredUses_update_of_le {fires : Nat → Nat} {r k n : Nat} (x : Nat) (hn : n ≤ k) :
    fn.unfiredUses (Function.update fires k x) r n = fn.unfiredUses fires r n := by
  induction n with
  | zero => rfl
  | succ n ih => simp only [unfiredUses, ih (by omega), Function.update_noteq (by omega : n ≠ k)]

/-- Opening the gate of a kernel that had not fired takes its uses out of the unfired ones. -/
theorem unfiredUses_fire {fires : Nat → Nat} {r k n : Nat} (hk : k < n) (hf : fires k = 0) :
    fn.unfiredUses (Function.update fires k (fires k + 1)) r n + fn.argUsesFrom k r 0 =
      fn.unfiredUses fires r n := by
  induction n with
  | zero => omega
  | succ n ih =>
    simp only [unfiredUses]
    rcases Nat.lt_succ_iff_lt_or_eq.1 hk with hk | rfl
    · rw [Function.update_noteq (by omega), ← ih hk]; omega
    · rw [Function.update_same, if_neg (by omega), if_pos hf, unfiredUses_update_of_le _ le_rfl]
      omega

/-- A register past the table has no use. -/
theorem RegisterTable.uses_le (h : fn.RegisterTable) (r : Nat) : fn.uses r ≤ fn.userCount r := by
  by_cases hr : r < fn.numRegs
  · exact h.userCounts r hr
  have hk : ∀ k < fn.numKernels, fn.argUsesFrom k r 0 = 0 := fun k hk =>
    List.count_eq_zero_of_not_mem fun hm => by
      obtain ⟨j, hj, he⟩ := List.mem_map.1 hm
      have := h.args k hk j (by simpa using hj); omega
  have hu : ∀ n ≤ fn.numKernels, fn.unfiredUses (fun _ => 0) r n = 0 := by
    intro n hn
    induction n with
    | zero => rfl
    | succ n ih => simp only [unfiredUses, ih (by omega), hk n (by omega)]; rfl
  have he : fn.resultRegs.count r = 0 :=
    List.count_eq_zero_of_not_mem fun hm => hr (h.exports r hm)
  simp [uses, hu _ le_rfl, he]

end BEFFunction

/-! ## Uses the threads have still to spend -/

/-- The argument uses the kernel at this position has still to spend. -/
def Cursor.usesLeft (fn : BEFFunction) (r : Nat) : Cursor → Nat
  | .gated k | .bindLoad k _ _ | .bindCas k _ _ | .bindCheck k _ _ | .ready k _ _ =>
    fn.argUsesFrom k r 0
  | .dropArg k _ j _ => fn.argUsesFrom k r j
  | _ => 0

/-- The uses `Execute` has still to spend: its exports, and those of the constructor's
activation. The placeholder swap of export `i` has that export and the later ones to do. -/
def MainPhase.usesLeft (fn : BEFFunction) (r : Nat) : MainPhase → Nat
  | .start _ => fn.resultRegs.count r
  | .ctor a => fn.resultRegs.count r + a.cur.usesLeft fn r
  | .exportLoad i _ => (fn.resultRegs.drop i).count r
  | .exportCas i _ =>
    (if fn.resultRegs.getD i 0 = r then 1 else 0) + (fn.resultRegs.drop (i + 1)).count r
  | .release _ | .done _ => 0

/-- The uses of register `r` each thread has still to spend. -/
def useWeight (fn : BEFFunction) (r : Nat) : Weight where
  task
    | .main ph => ph.usesLeft fn r
    | .cont a => a.cur.usesLeft fn r
    | _ => 0
  waiter _ := 0
  run := by rintro ⟨v, w⟩; cases w <;> rfl

/-- The uses still to come are an executor-only weight. -/
theorem useWeight_executorOnly (fn : BEFFunction) (r : Nat) : (useWeight fn r).ExecutorOnly :=
  ⟨rfl, fun _ _ => rfl, fun _ => rfl⟩

/-- A position hands off no uses. -/
theorem handoffWeight_useWeight (fn : BEFFunction) (r : Nat) (cur : Cursor) :
    cur.handoffWeight (useWeight fn r) = 0 := by
  unfold Cursor.handoffWeight; cases cur.handoff <;> rfl

/-- The uses of register `r` still to come. -/
def Sys.usesLeft (fn : BEFFunction) (s : Sys) (r : Nat) : Nat :=
  fn.unfiredUses s.fires r fn.numKernels + s.weigh (useWeight fn r)

section Positions

variable {fn : BEFFunction} {k : Nat} {r : Nat}

/-- While binding, an activation has all its kernel's argument uses to come. -/
theorem afterBind_usesLeft (bound : List Nat) (anyErr : Option Nat) :
    (afterBind fn k bound anyErr).usesLeft fn r = fn.argUsesFrom k r 0 := by
  unfold afterBind; split <;> rfl

/-- Publishing spends no uses. -/
theorem publishFrom_usesLeft (frame : List Nat) : (publishFrom fn k frame).usesLeft fn r = 0 := by
  unfold publishFrom; split <;> rfl

/-- Publishing spends no uses. -/
theorem nextResult_usesLeft (pseudo : Bool) (frame : List Nat) (i off : Nat) :
    (nextResult fn k pseudo frame i off).usesLeft fn r = 0 := by
  unfold nextResult; split <;> rfl

/-- Publishing spends no uses. -/
theorem afterDispatch_usesLeft (pseudo : Bool) (frame : List Nat) (i off rv : Nat) (set : Bool) :
    (afterDispatch fn k pseudo frame i off rv set).usesLeft fn r = 0 := by
  unfold afterDispatch; split
  · rfl
  · exact nextResult_usesLeft ..

end Positions

/-! ## What each step does to the uses -/

/-- Running a kernel spends no use. -/
theorem invoke_consumed (bound : List Nat) (c : List ResultSpec) (s : Sys) :
    (Sys.invoke bound c s).2.consumed = s.consumed := by
  induction c generalizing s with
  | nil => rfl
  | cons r c ih => cases r <;> exact ih _

/-- `GetOrCreateRegisterValue` spends no use. -/
theorem getOrCreateRegisterValue_consumed (fn : BEFFunction) (r : Nat) (s : Sys) :
    (s.getOrCreateRegisterValue fn r).2.consumed = s.consumed := by
  simp only [Sys.getOrCreateRegisterValue]; split <;> rfl

/-- A result step spends no use and stays in the results loop. -/
theorem Activation.stepResult_uses (fn : BEFFunction) (ids : List Nat) (s : Sys) (k : Nat)
    (pseudo : Bool) (frame : List Nat) (i off : Nat) (ph : ResultPhase) (r : Nat) :
    (Activation.stepResult fn ids s k pseudo frame i off ph).2.consumed = s.consumed ∧
      (Activation.stepResult fn ids s k pseudo frame i off ph).1.cur.usesLeft fn r = 0 := by
  cases ph <;>
    dsimp only [Activation.stepResult, Activation.stepBegin, Activation.stepUnusedDrop,
      Activation.stepSetCas, Activation.stepSetRevert, Activation.stepSetForward,
      Activation.stepDispatch, Activation.stepAccelerate, Activation.stepAndThen,
      Activation.stepDropPlaceholder] <;>
    (repeat' split) <;>
    first
      | exact ⟨rfl, rfl⟩
      | exact ⟨rfl, nextResult_usesLeft ..⟩
      | exact ⟨rfl, afterDispatch_usesLeft ..⟩

/-- **An activation step hands uses on or spends them.** Opening a gate hands the kernel's
argument uses from the unfired kernels to the activation; dropping argument `j` spends the use
of its register. -/
theorem Activation.step_uses {fn : BEFFunction} {c : List ResultSpec} {a : Activation}
    {s s' : Sys} {oa : Option Activation} (h : a.step fn c s = some (oa, s'))
    (hv : a.cur.Valid fn) (hg : GateInv s) (r : Nat) :
    s'.consumed r + fn.unfiredUses s'.fires r fn.numKernels +
        (oa.map fun a' => a'.cur.usesLeft fn r).getD 0 =
      s.consumed r + fn.unfiredUses s.fires r fn.numKernels + a.cur.usesLeft fn r := by
  rcases a with ⟨ids, cur⟩
  cases cur with
  | idle =>
    cases ids with
    | nil =>
      simp only [Activation.step, Option.some.injEq, Prod.mk.injEq] at h
      obtain ⟨rfl, rfl⟩ := h; rfl
    | cons k ids =>
      simp only [Activation.step, Option.some.injEq, Prod.map, Activation.stepPop,
        Prod.mk.injEq] at h
      obtain ⟨rfl, rfl⟩ := h
      split
      · split
        · rename_i hk h1
          have hf : s.fires k = 0 := by rcases hg k with h | h <;> omega
          have := @BEFFunction.unfiredUses_fire fn _ r k _ hk hf
          simp only [Option.map_some', Option.getD_some, Cursor.usesLeft, id_eq]; omega
        · rfl
      · rfl
  | ready k bound anyErr =>
    simp only [Activation.step, Activation.stepReady, Option.map_eq_some'] at h
    obtain ⟨p, hp, hq⟩ := h
    simp only [Prod.map, Prod.mk.injEq] at hq
    obtain ⟨rfl, rfl⟩ := hq
    have key : ∀ frame, (if bound = [] then publishFrom fn k frame
        else Cursor.dropArg k bound 0 frame).usesLeft fn r = fn.argUsesFrom k r 0 := by
      intro frame; split
      · rename_i hb
        rw [publishFrom_usesLeft, BEFFunction.argUsesFrom_of_le]
        have : bound.length = (fn.kernel k).numArguments := hv
        simp [hb] at this; omega
      · rfl
    split at hp
    · split at hp
      · cases hp
        simp only [Option.map_some', Option.getD_some, key, id_eq, invoke_consumed,
          (invoke_gate _ _ _).2]
        rfl
      · cases hp
    · cases hp
      simp only [Option.map_some', Option.getD_some, key, id_eq]; rfl
  | dropArg k bound j frame =>
    obtain ⟨hj, hb, -⟩ := hv
    simp only [Activation.step, Option.some.injEq, Prod.map, Activation.stepDropArg,
      Prod.mk.injEq] at h
    obtain ⟨rfl, rfl⟩ := h
    have hl := @BEFFunction.argUsesFrom_of_lt fn k r j (by omega)
    have hc : (s.dropArgRef (fn.argReg k j) (bound.getD j 0)).consumed r =
        s.consumed r + if fn.argReg k j = r then 1 else 0 := by
      by_cases he : fn.argReg k j = r
      · subst he; simp [Sys.dropArgRef]
      · simp [Sys.dropArgRef, he, Function.update_noteq (Ne.symm he)]
    have hn : (if j + 1 < bound.length then Cursor.dropArg k bound (j + 1) frame
        else publishFrom fn k frame).usesLeft fn r = fn.argUsesFrom k r (j + 1) := by
      split
      · rfl
      · rw [publishFrom_usesLeft, BEFFunction.argUsesFrom_of_le (by omega)]
    simp only [Option.map_some', Option.getD_some, id_eq, hn]
    change (s.dropArgRef (fn.argReg k j) (bound.getD j 0)).consumed r +
      fn.unfiredUses s.fires r fn.numKernels + _ = _
    rw [hc, show Cursor.usesLeft fn r (.dropArg k bound j frame) = fn.argUsesFrom k r j from rfl, hl]
    omega
  | result k pseudo frame i off ph =>
    simp only [Activation.step, Option.some.injEq, Prod.map, Prod.mk.injEq] at h
    obtain ⟨rfl, rfl⟩ := h
    obtain ⟨hc, hu⟩ := Activation.stepResult_uses fn ids s k pseudo frame i off ph r
    simp only [Option.map_some', Option.getD_some, id_eq, hu, hc,
      (Activation.stepResult_gates fn ids s k pseudo frame i off ph).1]
    rfl
  | _ =>
    simp only [Activation.step, Option.some.injEq, Prod.map, Activation.stepGated,
      Activation.stepBindLoad, Activation.stepBindCas, Activation.stepBindCheck,
      Sys.getOrCreateRegisterValue, Prod.mk.injEq] at h
    obtain ⟨rfl, rfl⟩ := h
    all_goals (repeat' split) <;>
      simp only [Option.map_some', Option.getD_some, id_eq, afterBind_usesLeft] <;> rfl

/-! ## Every step -/

/-- Counting in a suffix peels its first element. -/
theorem count_drop_of_lt {l : List Nat} {i : Nat} (h : i < l.length) (r : Nat) :
    (l.drop i).count r = (if l.getD i 0 = r then 1 else 0) + (l.drop (i + 1)).count r := by
  rw [List.drop_eq_getElem_cons h, List.count_cons, List.getD_eq_getElem _ _ h]
  simp only [beq_iff_eq]; omega

namespace Sys

variable {fn : BEFFunction} {s : Sys} {r : Nat}

@[simp] theorem usesLeft_spawn (t : Task) :
    (s.spawn t).usesLeft fn r = s.usesLeft fn r + (useWeight fn r).task t := by
  show fn.unfiredUses s.fires r fn.numKernels + (s.spawn t).weigh _ = _
  rw [weigh_spawn, usesLeft, Nat.add_assoc]

@[simp] theorem usesLeft_dropExec : s.dropExec.usesLeft fn r = s.usesLeft fn r := rfl
@[simp] theorem consumed_spawn (t : Task) : (s.spawn t).consumed = s.consumed := rfl
@[simp] theorem consumed_dropExec : s.dropExec.consumed = s.consumed := rfl

/-- `TakeRef` into a caller's result spends one use of its register. -/
theorem takeRef_consumed (r' v : Nat) :
    (s.takeRef r' v).consumed r = s.consumed r + if r' = r then 1 else 0 := by
  by_cases h : r' = r
  · subst h; simp [takeRef]
  · simp [takeRef, h, Function.update_noteq (Ne.symm h)]

end Sys

/-- What an activation step leaves for the ledger, the other threads included. -/
theorem Activation.step_usesLeft {fn : BEFFunction} {c : List ResultSpec} {a : Activation}
    {s s' : Sys} {oa : Option Activation} (h : a.step fn c s = some (oa, s'))
    (hv : a.cur.Valid fn) (hg : GateInv s) (r : Nat) :
    s'.consumed r + s'.usesLeft fn r + (oa.map fun a' => a'.cur.usesLeft fn r).getD 0 =
      s.consumed r + s.usesLeft fn r + a.cur.usesLeft fn r := by
  have e1 := Activation.step_uses h hv hg r
  have e2 := (Activation.step_executors h).1 _ (useWeight_executorOnly fn r)
  rw [handoffWeight_useWeight, Nat.add_zero] at e2
  simp only [Sys.usesLeft, e2]; omega

/-- **A thread's step hands uses on or spends them**, its own included. -/
theorem taskStep_uses {fn : BEFFunction} {c : List ResultSpec} {t : Task} {s s' : Sys}
    (h : taskStep fn c t s = some s') (hv : ∀ a, t.act = some a → a.cur.Valid fn)
    (hg : GateInv s) (r : Nat) :
    s'.consumed r + s'.usesLeft fn r ≤ s.consumed r + s.usesLeft fn r + (useWeight fn r).task t := by
  cases t with
  | main ph =>
    simp only [taskStep] at h
    cases ph with
    | start args =>
      simp only [mainStep, Option.some.injEq] at h; subst h
      show _ ≤ _ + fn.resultRegs.count r
      unfold startExecute; split
      · rw [Sys.consumed_spawn, Sys.usesLeft_spawn]
        show s.consumed r + (s.usesLeft fn r + 0) ≤ _; omega
      · obtain ⟨heap, regs, mf, hi⟩ := Sys.initializeArgumentRegisters_eq fn args 0 s
        have hb : (bootstrap fn (args ≠ [])).cur.usesLeft fn r = 0 := by
          unfold bootstrap; (repeat' split) <;> rfl
        rw [hi, Sys.consumed_spawn, Sys.usesLeft_spawn]
        show s.consumed r + (s.usesLeft fn r +
          (fn.resultRegs.count r + (bootstrap fn (args ≠ [])).cur.usesLeft fn r)) ≤ _
        omega
    | ctor a =>
      simp only [mainStep, Option.map_eq_some'] at h
      obtain ⟨⟨oa, s''⟩, ha, rfl⟩ := h
      have e := Activation.step_usesLeft ha (hv a rfl) hg r
      show _ ≤ _ + (fn.resultRegs.count r + a.cur.usesLeft fn r)
      cases oa with
      | none =>
        simp only [Option.map_none', Option.getD_none, Nat.add_zero] at e
        rw [Sys.consumed_spawn, Sys.usesLeft_spawn]
        show s''.consumed r + (s''.usesLeft fn r + (fn.resultRegs.drop 0).count r) ≤ _
        rw [List.drop_zero]; omega
      | some a' =>
        simp only [Option.map_some', Option.getD_some] at e
        rw [Sys.consumed_spawn, Sys.usesLeft_spawn]
        show s''.consumed r + (s''.usesLeft fn r + (fn.resultRegs.count r + a'.cur.usesLeft fn r)) ≤ _
        omega
    | exportLoad i results =>
      simp only [mainStep] at h
      show _ ≤ _ + (fn.resultRegs.drop i).count r
      split at h
      · rename_i hi
        have hd := count_drop_of_lt hi r
        split at h <;> cases h <;> rw [Sys.consumed_spawn, Sys.usesLeft_spawn]
        · rw [Sys.takeRef_consumed]
          show _ + (s.usesLeft fn r + (fn.resultRegs.drop (i + 1)).count r) ≤ _
          omega
        · show _ + (s.usesLeft fn r + ((if fn.resultRegs.getD i 0 = r then 1 else 0) +
            (fn.resultRegs.drop (i + 1)).count r)) ≤ _
          omega
      · cases h
        rw [Sys.consumed_spawn, Sys.usesLeft_spawn]
        show s.consumed r + (s.usesLeft fn r + 0) ≤ _; omega
    | exportCas i results =>
      simp only [mainStep] at h; cases h
      have hw := Sys.weigh_getOrCreateRegisterValue_of (useWeight_executorOnly fn r) fn
        (fn.resultRegs.getD i 0) (s := s)
      have hf : (s.getOrCreateRegisterValue fn (fn.resultRegs.getD i 0)).2.fires = s.fires := by
        simp only [Sys.getOrCreateRegisterValue]; split <;> rfl
      rw [Sys.consumed_spawn, Sys.usesLeft_spawn, Sys.takeRef_consumed, getOrCreateRegisterValue_consumed]
      show _ + (fn.unfiredUses (s.getOrCreateRegisterValue fn (fn.resultRegs.getD i 0)).2.fires r fn.numKernels +
        (s.getOrCreateRegisterValue fn (fn.resultRegs.getD i 0)).2.weigh (useWeight fn r) +
        (fn.resultRegs.drop (i + 1)).count r) ≤ s.consumed r + (fn.unfiredUses s.fires r fn.numKernels +
          s.weigh (useWeight fn r)) + ((if fn.resultRegs.getD i 0 = r then 1 else 0) +
            (fn.resultRegs.drop (i + 1)).count r)
      rw [hw, hf]; omega
    | release results =>
      simp only [mainStep, Option.some.injEq] at h; subst h
      rw [Sys.consumed_spawn, Sys.usesLeft_spawn]
      show s.consumed r + (s.usesLeft fn r + 0) ≤ s.consumed r + s.usesLeft fn r + 0; omega
    | done => cases h
  | cont a =>
    simp only [taskStep, Option.map_eq_some'] at h
    obtain ⟨⟨oa, s''⟩, ha, rfl⟩ := h
    have e := Activation.step_usesLeft ha (hv a rfl) hg r
    show _ ≤ _ + a.cur.usesLeft fn r
    cases oa with
    | none =>
      simp only [Option.map_none', Option.getD_none, Nat.add_zero] at e
      rw [Sys.consumed_dropExec, Sys.usesLeft_dropExec]; omega
    | some a' =>
      simp only [Option.map_some', Option.getD_some] at e
      rw [Sys.consumed_spawn, Sys.usesLeft_spawn]
      show s''.consumed r + (s''.usesLeft fn r + a'.cur.usesLeft fn r) ≤ _
      omega
  | _ =>
    have hw := taskStep_callback_weigh (useWeight_executorOnly fn r) (by rfl) h
    have hf : s'.fires = s.fires ∧ s'.consumed = s.consumed := by
      simp only [taskStep, Option.some.injEq] at h; subst h; exact ⟨rfl, rfl⟩
    simp only [Sys.usesLeft, hw, hf.1, hf.2]; omega

/-- The uses ledger: the uses spent on each register and those still to come stay within its
`user_count`. -/
def UsesInv (fn : BEFFunction) (s : Sys) : Prop :=
  ∀ r, s.consumed r + s.usesLeft fn r ≤ fn.userCount r

section Run

variable {fn : BEFFunction} {args : List Nat}

/-- The environment spends no use. -/
theorem envStep_consumed {e : Env} {s s' : Sys} (h : envStep e s = some s') :
    s'.consumed = s.consumed := by
  rcases envStep_cases h with ⟨v, st, -, -, rfl⟩ | ⟨v, -, -, rfl⟩ | ⟨d, -, rfl⟩ <;> rfl

/-- **Every step hands uses on or spends them.** -/
theorem Step.uses (hwf : fn.WellFormed) {s s' : Sys} (hr : Reachable fn args s)
    (h : Step fn s s') (r : Nat) :
    s'.consumed r + s'.usesLeft fn r ≤ s.consumed r + s.usesLeft fn r := by
  cases h with
  | env e h =>
    simp only [Sys.usesLeft, envStep_consumed h, (envStep_frame h).2,
      envStep_weigh (useWeight_executorOnly fn r) h, le_refl]
  | @task t rest c ht h =>
    have e : s.weigh (useWeight fn r) = _ := Sys.weigh_cons ht
    have := taskStep_uses h (fun a hta => hr.valid hwf a (Sys.runs_of_tasks ht hta)) (hr.gate) r
    simp only [Sys.usesLeft] at this ⊢
    omega

/-- Before `Execute` every use of a register is still to come. -/
theorem Initial.usesLeft {s : Sys} (h : Initial fn args s) (r : Nat) :
    s.usesLeft fn r = fn.uses r := by
  have hf : s.fires = fun _ => 0 := funext h.fires
  simp [Sys.usesLeft, BEFFunction.uses, hf, Sys.weigh, h.tasks, h.waiting, useWeight,
    MainPhase.usesLeft]

/-- **The uses ledger holds along every run.** -/
theorem Reachable.usesInv (hwf : fn.WellFormed) (htab : fn.RegisterTable) {s : Sys}
    (h : Reachable fn args s) : UsesInv fn s := by
  induction h with
  | init h => intro r; rw [h.consumed, h.usesLeft]; exact (Nat.zero_add _).trans_le (htab.uses_le r)
  | step hr hst ih => exact fun r => (hst.uses hwf hr r).trans (ih r)

/-- **The uses ledger**: along every run of a function whose register table covers its uses, the
uses of a register spent so far (argument drops and `TakeRef`s into results) and those still to
come never exceed its `user_count`, the references the register's value was given. -/
theorem register_uses_within_userCount (hwf : fn.WellFormed) (htab : fn.RegisterTable) {s : Sys}
    (h : Reachable fn args s) (r : Nat) : s.consumed r + s.usesLeft fn r ≤ fn.userCount r :=
  h.usesInv hwf htab r

/-- The register `r2` of `splitFn` after `Execute` has returned. -/
theorem register_uses_within_userCount_splitDone :
    splitFn.RegisterTable ∧ splitDone.consumed 2 + splitDone.usesLeft splitFn 2 ≤ splitFn.userCount 2 :=
  ⟨by decide, register_uses_within_userCount splitFn_wellFormed (by decide) splitDone_reachable 2⟩

end Run

end BefExecutor
