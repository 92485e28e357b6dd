/-
# Well-formed functions, and where every activation can be

Source: `lib/bef_executor/bef_executor.cc`, What the loader guarantees and the code asserts (:333-335, :591).

`Reachable.valid`: every activation of every run of a well-formed function is at a valid position.
-/
import BefExecutor.Registers

namespace BefExecutor

/-- What the executor needs of a loaded function for its activations to stay in step with
the kernel records. -/
structure BEFFunction.WellFormed (fn : BEFFunction) : Prop where
  /-- A result whose register nobody uses has no used-by entries. -/
  unusedSkipped : fn.UnusedSkipped
  /-- There is a register for every argument. -/
  argRegs : fn.numArguments ≤ fn.numRegs
  /-- The pseudo-kernel's results are the argument registers `0, 1, …`, in order. -/
  pseudoResults : fn.hasPseudo →
    (fn.kernel 0).numResults = fn.numArguments ∧
      ∀ i < fn.numArguments, (fn.kernel 0).pseudoResults.getD i 0 = i
  /-- A function with arguments has its pseudo-kernel, which takes no arguments. -/
  pseudoKernel : fn.hasPseudo → 0 < fn.numKernels ∧ (fn.kernel 0).numArguments = 0
  /-- `ProcessArgumentsPseudoKernel`'s asserts (:333-335): nor attributes, nor functions. -/
  pseudoLayout : fn.hasPseudo → (fn.kernel 0).numAttributes = 0 ∧ (fn.kernel 0).numFunctions = 0

/-- `copyFn` is well formed. -/
theorem copyFn_wellFormed : copyFn.WellFormed where
  unusedSkipped _ _ _ _ h := absurd h Nat.one_ne_zero
  argRegs := by decide
  pseudoResults _ := ⟨rfl, by decide⟩
  pseudoKernel _ := ⟨by decide, rfl⟩
  pseudoLayout _ := ⟨rfl, rfl⟩

/-- `asyncFn` is well formed. -/
theorem asyncFn_wellFormed : asyncFn.WellFormed where
  unusedSkipped _ _ _ _ h := absurd h Nat.one_ne_zero
  argRegs := by decide
  pseudoResults h := absurd h (by decide)
  pseudoKernel h := absurd h (by decide)
  pseudoLayout h := absurd h (by decide)

/-- `splitFn` is well formed: its unused result `r1` has no used-by entries in the ordinary
reading, the one the code gives kernel `1`. -/
theorem splitFn_wellFormed : splitFn.WellFormed where
  unusedSkipped := by decide
  argRegs := by decide
  pseudoResults _ := ⟨rfl, by decide⟩
  pseudoKernel _ := ⟨by decide, rfl⟩
  pseudoLayout _ := ⟨rfl, rfl⟩

/-! ## `Execute` gets its arguments -/

/-- An `Execute` about to start with the wrong number of arguments. -/
def startArgsWeight (fn : BEFFunction) : Weight where
  task
    | .main (.start args) => if args.length = fn.numArguments then 0 else 1
    | _ => 0
  waiter _ := 0
  run := by rintro ⟨v, w⟩; cases w <;> rfl

/-- Counting a wrong `Execute` is an executor-only weight. -/
theorem startArgsWeight_executorOnly (fn : BEFFunction) : (startArgsWeight fn).ExecutorOnly :=
  ⟨rfl, fun _ _ => rfl, fun _ => rfl⟩

/-- **`Execute` starts with the function's arguments.** -/
theorem Reachable.startArgs {fn : BEFFunction} {args : List Nat} {s : Sys}
    (h : Reachable fn args s) : s.weigh (startArgsWeight fn) = 0 := by
  induction h with
  | init h => simp [Sys.weigh, h.tasks, h.waiting, startArgsWeight, h.numArguments]
  | step _ hst ih =>
    refine Nat.eq_zero_of_le_zero (ih ▸ hst.weigh_le_of_start (startArgsWeight_executorOnly fn) ?_)
    intro t ht
    cases t with
    | main ph => cases ph with
      | start args => exact absurd rfl (ht args)
      | _ => rfl
    | _ => rfl

/-- `Execute` starts with as many arguments as the function has. -/
theorem Reachable.startArgs_length {fn : BEFFunction} {args args' : List Nat} {s : Sys}
    {rest : Multiset Task} (h : Reachable fn args s) (ht : s.tasks = .main (.start args') ::ₘ rest) :
    args'.length = fn.numArguments := by
  have e : s.weigh (startArgsWeight fn) =
      (startArgsWeight fn).task (.main (.start args')) + ({ s with tasks := rest } : Sys).weigh _ :=
    Sys.weigh_cons ht
  rw [h.startArgs] at e
  by_contra hn
  have e2 : (startArgsWeight fn).task (.main (.start args')) = 1 := if_neg hn
  omega

/-! ## The argument registers stay set -/

/-- Registers below the first one `InitializeArgumentRegisters` writes keep their values. -/
theorem Sys.initializeArgumentRegisters_regs_lt (fn : BEFFunction) (args : List Nat) (i : Nat)
    (s : Sys) {j : Nat} (hj : j < i) :
    (Sys.initializeArgumentRegisters fn args i s).regs j = s.regs j := by
  induction args generalizing i s with
  | nil => rfl
  | cons v rest ih =>
    simp only [Sys.initializeArgumentRegisters]
    split
    · rw [ih (i + 1) _ (by omega)]
      exact Function.update_noteq (by omega) _ _
    · rfl

/-- Registers past the arguments keep their values too. -/
theorem Sys.initializeArgumentRegisters_regs_ge (fn : BEFFunction) (args : List Nat) (i : Nat)
    (s : Sys) {j : Nat} (hj : i + args.length ≤ j) :
    (Sys.initializeArgumentRegisters fn args i s).regs j = s.regs j := by
  induction args generalizing i s with
  | nil => rfl
  | cons v rest ih =>
    simp only [List.length_cons] at hj
    simp only [Sys.initializeArgumentRegisters]
    split
    · rw [ih (i + 1) _ (by omega)]
      exact Function.update_noteq (by omega) _ _
    · rfl

/-- `InitializeArgumentRegisters` puts argument `j` into register `i + j`. -/
theorem Sys.initializeArgumentRegisters_regs (fn : BEFFunction) (args : List Nat) (i : Nat)
    (s : Sys) (j : Nat) (hj : j < args.length) (hr : i + j < fn.numRegs) :
    (Sys.initializeArgumentRegisters fn args i s).regs (i + j) = some (args.getD j 0) := by
  induction args generalizing i j s with
  | nil => cases hj
  | cons v rest ih =>
    simp only [Sys.initializeArgumentRegisters]
    rw [if_pos (by omega)]
    cases j with
    | zero =>
      rw [Sys.initializeArgumentRegisters_regs_lt fn rest (i + 1) _ (by omega)]
      simp
    | succ j =>
      rw [show i + (j + 1) = i + 1 + j by omega, ih (i + 1) _ _ (by simpa using hj) (by omega)]
      rfl

/-- **The argument registers stay set.** Once `Execute` is past `ReadFunction` of a function
with kernels, register `i` holds a value for every argument `i`. -/
theorem Reachable.argsSet {fn : BEFFunction} {args : List Nat} {s : Sys} (hwf : fn.WellFormed)
    (hk : fn.numKernels ≠ 0) (h : Reachable fn args s) (hs : s.executeStarted = 1) :
    ∀ i < fn.numArguments, s.regs i ≠ none := by
  induction h with
  | @init s h =>
    have e : s.executeStarted = startedWeight.task (.main (.start args)) := by
      simp [Sys.executeStarted, Sys.weigh, h.tasks, h.waiting]
    exact absurd (e.symm.trans hs) Nat.zero_ne_one
  | @step s s' hr hst ih =>
    by_cases h1 : s.executeStarted = 1
    · exact fun i hi hn => ih h1 i hi (Option.eq_none_iff_forall_not_mem.2 fun v hv =>
        by rw [hr.regsGrow hst i v hv] at hn; cases hn)
    have inv := hr.exec
    cases hst with
    | env e h =>
      exact absurd ((envStep_weigh startedWeight_executorOnly h).symm.trans hs) h1
    | @task t rest c ht h =>
      cases t with
      | main ph =>
        simp only [taskStep] at h
        cases ph with
        | start args' =>
          simp only [mainStep, Option.some.injEq] at h
          subst h
          have hl := hr.startArgs_length ht
          intro i hi
          unfold startExecute; rw [if_neg hk]
          have := Sys.initializeArgumentRegisters_regs fn args' 0 { s with tasks := rest } i
            (by omega) (by have := hwf.argRegs; omega)
          simp only [Nat.zero_add] at this
          simp [Sys.spawn, this]
        | done => cases h
        | _ =>
          have c1 : s.executeStarted = 1 + ({ s with tasks := rest } : Sys).executeStarted :=
            Sys.weigh_cons ht
          have c2 : s.executes = 1 + ({ s with tasks := rest } : Sys).executes := Sys.weigh_cons ht
          have := inv.execute
          have := ({ s with tasks := rest } : Sys).executeStarted_le_executes
          omega
      | cont a =>
        have c1 : s.executeStarted = 0 + ({ s with tasks := rest } : Sys).executeStarted :=
          Sys.weigh_cons ht
        have hp : s.pendingContinuations = 1 + ({ s with tasks := rest } : Sys).pendingContinuations :=
          Sys.weigh_cons ht
        have := (contStep_counts h).2.1
        have := inv.unstarted
        omega
      | _ =>
        have c1 : s.executeStarted = 0 + ({ s with tasks := rest } : Sys).executeStarted :=
          Sys.weigh_cons ht
        have : s'.executeStarted = ({ s with tasks := rest } : Sys).executeStarted :=
          taskStep_callback_weigh startedWeight_executorOnly (by rfl) h
        omega


/-! ## Every activation is valid -/

/-- An activation runs only once `Execute` has started a function with kernels. -/
theorem Reachable.started_of_runs {fn : BEFFunction} {args : List Nat} {s : Sys} {a : Activation}
    (h : Reachable fn args s) (ha : s.Runs a) : fn.numKernels ≠ 0 ∧ s.executeStarted = 1 := by
  obtain ⟨r, -, -, hh, -, -⟩ := h.exec
  obtain ⟨t, ht, hta⟩ := ha
  have : 0 < s.executeHolds + s.pendingContinuations := by
    cases t with
    | main ph =>
      cases ph <;> cases hta
      exact Nat.lt_add_right _ (Sys.task_le_weigh (W := executeHoldWeight) ht)
    | cont a => exact Nat.lt_add_left _ (Sys.task_le_weigh (W := continuationWeight) ht)
    | _ => cases hta
  exact hh (r ▸ this)

/-- While an activation runs, the pseudo-kernel's argument registers are set. -/
theorem Reachable.argsSet_of_runs {fn : BEFFunction} {args : List Nat} {s : Sys} {a : Activation}
    (hwf : fn.WellFormed) (h : Reachable fn args s) (ha : s.Runs a) : fn.hasPseudo → s.ArgsSet fn :=
  fun hp i hi _ => by
    obtain ⟨hk, hs⟩ := h.started_of_runs ha
    obtain ⟨hn, hr0⟩ := hwf.pseudoResults hp
    rw [hr0 i (hn ▸ hi)]
    exact h.argsSet hwf hk hs i (hn ▸ hi)

namespace BEFFunction.WellFormed

variable {fn : BEFFunction} (hwf : fn.WellFormed)
include hwf

/-- The pseudo-kernel's results come first, so its two readings name the same registers. -/
theorem results_zero (hp : fn.hasPseudo) : (fn.kernel 0).results = (fn.kernel 0).pseudoResults := by
  obtain ⟨-, h1⟩ := hwf.pseudoKernel hp
  obtain ⟨h2, h3⟩ := hwf.pseudoLayout hp
  simp only [BEFKernel.results, BEFKernel.pseudoResults, BEFKernel.resultStart, h1, h2, h3]

/-- A kernel of the function meets the side condition in the ordinary reading too. -/
theorem skips_ordinary {k : Nat} (hk : k < fn.numKernels) :
    (fn.kernel k).UnusedHaveNoUsedBys fn.userCount ((fn.kernel k).resultRegs false) := by
  have h := hwf.unusedSkipped k hk
  cases hp : fn.isPseudo k
  · rwa [hp] at h
  · obtain ⟨hps, rfl⟩ : fn.hasPseudo ∧ k = 0 := by simpa [BEFFunction.isPseudo] using hp
    rw [hp] at h
    show (fn.kernel 0).UnusedHaveNoUsedBys fn.userCount (fn.kernel 0).results
    rwa [hwf.results_zero hps]

/-- A valid cursor on one of the function's kernels walks a record that meets the side
condition in the reading it takes. -/
theorem skips {c : Cursor} (hv : c.Valid fn) (hk : ∀ k, c.kernel = some k → k < fn.numKernels) :
    c.Skips fn := by
  cases c with
  | result k pseudo frame i off ph =>
    cases pseudo with
    | false => exact hwf.skips_ordinary (hk k rfl)
    | true =>
      obtain ⟨rfl, hps⟩ := hv.2.1
      have h := hwf.unusedSkipped 0 (hwf.pseudoKernel hps).1
      rwa [BEFFunction.isPseudo_zero hps] at h
  | _ => trivial

end BEFFunction.WellFormed

/-- A step keeps an activation on the function's kernels: the only step that moves it onto
one is the pop that opens a gate, and the pop checks the kernel id. -/
theorem Activation.step_kernel_lt {fn : BEFFunction} {c : List ResultSpec} {a a' : Activation}
    {s s' : Sys} (hv : a.cur.Valid fn) (hk : ∀ k, a.cur.kernel = some k → k < fn.numKernels)
    (h : a.step fn c s = some (some a', s')) : ∀ k, a'.cur.kernel = some k → k < fn.numKernels := by
  by_cases hi : a.cur = .idle
  · rcases a with ⟨ids, cur⟩
    cases hi
    cases ids with
    | nil => simp [Activation.step] at h
    | cons j ids =>
      simp only [Activation.step, Option.some.injEq, Prod.map, Activation.stepPop,
        Prod.mk.injEq] at h
      obtain ⟨rfl, rfl⟩ := h
      (repeat' split) <;> intro k hk' <;> simp [Cursor.kernel] at hk'
      omega
  · intro k hk'
    rcases (Activation.step_stays h hi hv).1 with e | e <;> rw [e] at hk'
    · exact hk k hk'
    · cases hk'

/-- The constructor's first activation is valid. -/
theorem bootstrap_valid {fn : BEFFunction} {args : List Nat} (hl : args.length = fn.numArguments) :
    (bootstrap fn (args ≠ [])).cur.Valid fn := by
  unfold bootstrap; split
  · have hp : fn.hasPseudo := by
      simp only [BEFFunction.hasPseudo, bne_iff_ne, ne_eq]
      intro h0; simp_all
    split
    · exact ⟨‹_›, ⟨rfl, hp⟩, rfl, trivial⟩
    · trivial
  · trivial

/-- Every activation is valid and on one of the function's kernels; the two are proved together,
since a step keeps the first only on a record that meets the side condition. -/
theorem Reachable.placed {fn : BEFFunction} {args : List Nat} {s : Sys} (hwf : fn.WellFormed)
    (h : Reachable fn args s) (b : Activation) (hb : s.Runs b) :
    b.cur.Valid fn ∧ ∀ k, b.cur.kernel = some k → k < fn.numKernels := by
  induction h generalizing b with
  | init h =>
    obtain ⟨t, ht, hb⟩ := hb
    rw [h.tasks, Multiset.mem_singleton] at ht
    subst ht; cases hb
  | @step s s' hr hst ih =>
    by_cases hi : b.cur = .idle
    · rw [hi]; exact ⟨trivial, fun _ h => by cases h⟩
    rcases hst.runs_cases hi hb with hold | hnew
    · exact ih b hold
    · cases hnew with
      | start ht _ _ =>
        exact ⟨bootstrap_valid (hr.startArgs_length ht), fun k e => by
          rw [bootstrap_kernel] at e; cases e⟩
      | ctor ht ha _ | cont ht ha _ =>
        have hra := Sys.runs_of_tasks ht rfl
        obtain ⟨hv, hk⟩ := ih _ hra
        have hp : fn.hasPseudo → s.ArgsSet fn := hr.argsSet_of_runs hwf hra
        exact ⟨Activation.step_valid (hwf.skips hv hk) hv ha hp, Activation.step_kernel_lt hv hk ha⟩

/-- **Every activation is valid.** In every reachable state of a well-formed function, each
activation's `entry_offset` sits at the used-by entries of the result it is on, its slices
are used-by lists and its frames have the kernel's sizes. -/
theorem Reachable.valid {fn : BEFFunction} {args : List Nat} {s : Sys} (hwf : fn.WellFormed)
    (h : Reachable fn args s) (b : Activation) (hb : s.Runs b) : b.cur.Valid fn :=
  (h.placed hwf b hb).1

/-- Every activation walks a record that meets the side condition in the reading it takes. -/
theorem Reachable.skips {fn : BEFFunction} {args : List Nat} {s : Sys} (hwf : fn.WellFormed)
    (h : Reachable fn args s) (b : Activation) (hb : s.Runs b) : b.cur.Skips fn :=
  hwf.skips (h.placed hwf b hb).1 (h.placed hwf b hb).2

/-- **`ProcessUsedBys` takes its own result's used-by list.** In every reachable state of a
well-formed function, an activation about to dispatch result `i` of kernel `k` (the argument
pseudo-kernel's included) has `entry_offset` at the start of that result's used-by entries, so
the slice it takes is exactly the result's used-by list, whichever results before it were
skipped. -/
theorem dispatch_reads_own_usedBys {fn : BEFFunction} {args : List Nat} {s : Sys}
    (hwf : fn.WellFormed) (h : Reachable fn args s) {a : Activation} (ha : s.Runs a) {k : Nat}
    {pseudo : Bool} {frame : List Nat} {i off rv : Nat} {set : Bool}
    (hc : a.cur = .result k pseudo frame i off (.dispatch rv set)) :
    (fn.kernel k).getKernelEntries off ((fn.kernel k).numUsedBys i) =
      (fn.kernel k).usedBysOf pseudo i := by
  have hv := h.valid hwf a ha
  rw [hc] at hv
  rw [hv.2.2.1]; rfl

/-- Kernel `1` of `splitFn` dispatching its second result from offset `3`, where it stood
before the first, unused, result was dropped. -/
theorem dispatch_reads_own_usedBys_splitDispatch :
    splitDispatch.Runs ⟨[2], .result 1 false [1, 2] 1 3 (.dispatch 2 false)⟩ ∧
      (splitFn.kernel 1).getKernelEntries 3 ((splitFn.kernel 1).numUsedBys 1) =
        (splitFn.kernel 1).usedBysOf false 1 :=
  have hr : splitDispatch.Runs ⟨[2], .result 1 false [1, 2] 1 3 (.dispatch 2 false)⟩ :=
    ⟨.main (.ctor ⟨[2], .result 1 false [1, 2] 1 3 (.dispatch 2 false)⟩), by decide, rfl⟩
  ⟨hr, dispatch_reads_own_usedBys splitFn_wellFormed splitDispatch_reachable hr rfl⟩

end BefExecutor
