/-
# Every call of `DecrementArgumentsNotReadyCounts` returns

Source: `lib/bef_executor/bef_executor.cc`, `DecrementArgumentsNotReadyCounts` (:369-517), `ProcessUsedBys` (:238-321), the constructor (:546-564).

`decrementArgumentsNotReadyCounts_returns`: the thread of a call takes at most `cost + potential + 1` steps, however the run interleaves.
-/
import BefExecutor.Gate

namespace BefExecutor

/-! ## What a kernel costs -/

namespace BEFKernel

variable (k : BEFKernel)

/-- Publishing result `i`: at most eight steps, and two per used-by entry (its acceleration
and the later pop of the appended entry). -/
def resultCost (i : Nat) : Nat := 8 + 2 * k.numUsedBys i

/-- Publishing `r` results from result `i` on. -/
def resultsCost : Nat → Nat → Nat
  | _, 0 => 0
  | i, r + 1 => k.resultCost i + resultsCost (i + 1) r

/-- Publishing the results from `i` on. -/
def resultsCostFrom (i : Nat) : Nat := k.resultsCost i (k.numResults - i)

/-- From `len` bound arguments on: three steps per argument still to bind, the call, one drop
per argument, and the results. -/
def bindCost (len : Nat) : Nat :=
  3 * (k.numArguments - len) + k.numArguments + (len - k.numArguments) + 2 + k.resultsCostFrom 0

/-- Everything a kernel costs once its gate opens. -/
def fireCost : Nat := 1 + k.bindCost 0

/-- The cost from result `i` is its own cost and the cost of the rest. -/
theorem resultsCostFrom_of_lt {i : Nat} (h : i < k.numResults) :
    k.resultsCostFrom i = k.resultCost i + k.resultsCostFrom (i + 1) := by
  unfold resultsCostFrom
  rw [show k.numResults - i = (k.numResults - (i + 1)) + 1 by omega]; rfl

/-- Past the last result nothing is left to publish. -/
theorem resultsCostFrom_of_le {i : Nat} (h : k.numResults ≤ i) : k.resultsCostFrom i = 0 := by
  unfold resultsCostFrom; rw [show k.numResults - i = 0 by omega]; rfl

end BEFKernel

/-- What is left of result `i` at this phase. -/
def phaseCost (k : BEFKernel) (i : Nat) : ResultPhase → Nat
  | .begin => k.resultCost i
  | .unusedDrop => 1
  | .setCas => 6 + 2 * k.numUsedBys i
  | .setRevert _ => 5 + 2 * k.numUsedBys i
  | .setForward _ => 4 + 2 * k.numUsedBys i
  | .dispatch _ _ => 3 + 2 * k.numUsedBys i
  | .accelerate _ set pending usedBys => pending.length + usedBys.length + 1 + set.toNat
  | .andThen _ set _ => 1 + set.toNat
  | .dropPlaceholder _ => 1

/-- What is left of the kernel an activation is running. -/
def Cursor.cost (fn : BEFFunction) : Cursor → Nat
  | .idle => 0
  | .gated k => (fn.kernel k).fireCost
  | .bindLoad k bound _ => 3 + (fn.kernel k).bindCost (bound.length + 1)
  | .bindCas k bound _ => 2 + (fn.kernel k).bindCost (bound.length + 1)
  | .bindCheck k bound _ => 1 + (fn.kernel k).bindCost bound.length
  | .ready k bound _ => 2 + bound.length + (fn.kernel k).resultsCostFrom 0
  | .dropArg k bound j _ => bound.length - j + 1 + (fn.kernel k).resultsCostFrom 0
  | .result k _ _ i _ ph => phaseCost (fn.kernel k) i ph + (fn.kernel k).resultsCostFrom (i + 1)

/-- What is left of an activation: its worklist and its current kernel. -/
def Activation.cost (fn : BEFFunction) (a : Activation) : Nat := a.ids.length + a.cur.cost fn

/-- The kernels below `n` that have not fired, each at its `fireCost`. -/
def potentialUpTo (fn : BEFFunction) (fires : Nat → Nat) : Nat → Nat
  | 0 => 0
  | n + 1 => potentialUpTo fn fires n + if fires n = 0 then (fn.kernel n).fireCost else 0

/-- The work the kernels that have not fired may still cause. -/
def potential (fn : BEFFunction) (fires : Nat → Nat) : Nat := potentialUpTo fn fires fn.numKernels

/-! ## The positions' costs -/

section Positions

variable (fn : BEFFunction) (k : Nat) (pseudo : Bool) (frame : List Nat) (i off : Nat)

/-- While binding, the cost is what binding the rest and running the kernel take. -/
theorem afterBind_cost (bound : List Nat) (anyErr : Option Nat) :
    (afterBind fn k bound anyErr).cost fn = (fn.kernel k).bindCost bound.length := by
  unfold afterBind BEFKernel.bindCost; split <;> simp only [Cursor.cost, BEFKernel.bindCost] <;> omega

/-- Past result `i` the cost is publishing the later results. -/
theorem nextResult_cost :
    (nextResult fn k pseudo frame i off).cost fn = (fn.kernel k).resultsCostFrom (i + 1) := by
  unfold nextResult; split
  · exact (BEFKernel.resultsCostFrom_of_lt _ ‹_›).symm
  · rw [BEFKernel.resultsCostFrom_of_le _ (by omega)]; rfl

/-- Past `ProcessUsedBys` the cost is the placeholder drop, if any, and the later results. -/
theorem afterDispatch_cost (rv : Nat) (set : Bool) :
    (afterDispatch fn k pseudo frame i off rv set).cost fn =
      set.toNat + (fn.kernel k).resultsCostFrom (i + 1) := by
  unfold afterDispatch; cases set
  · simp [nextResult_cost]
  · simp [Cursor.cost, phaseCost, Nat.add_comm]

/-- Publishing starts with the cost of every result. -/
theorem publishFrom_cost : (publishFrom fn k frame).cost fn = (fn.kernel k).resultsCostFrom 0 := by
  unfold publishFrom; split
  · exact (BEFKernel.resultsCostFrom_of_lt _ ‹_›).symm
  · rw [BEFKernel.resultsCostFrom_of_le _ (by omega)]; rfl

end Positions

/-! ## The potential -/

/-- More gate openings leave less potential. -/
theorem potentialUpTo_anti (fn : BEFFunction) {f g : Nat → Nat} (h : ∀ k, f k ≤ g k) (n : Nat) :
    potentialUpTo fn g n ≤ potentialUpTo fn f n := by
  induction n with
  | zero => exact le_rfl
  | succ n ih =>
    simp only [potentialUpTo]
    have := h n
    split <;> split <;> omega

/-- Opening the gate of a kernel that had not fired spends its share. -/
theorem potentialUpTo_fire (fn : BEFFunction) (fires : Nat → Nat) {k : Nat} (hk : fires k = 0)
    (n : Nat) :
    potentialUpTo fn (Function.update fires k (fires k + 1)) n +
      (if k < n then (fn.kernel k).fireCost else 0) = potentialUpTo fn fires n := by
  induction n with
  | zero => simp [potentialUpTo]
  | succ n ih =>
    simp only [potentialUpTo]
    by_cases hn : n = k
    · subst hn
      have : ¬ n < n := Nat.lt_irrefl n
      simp only [Function.update_same, hk, this, if_false, Nat.add_zero] at ih ⊢
      simp [ih]
    · simp only [Function.update_noteq hn]
      by_cases hkn : k < n
      · simp only [hkn, show k < n + 1 by omega, if_true] at ih ⊢; omega
      · simp only [hkn, show ¬ k < n + 1 by omega, if_false] at ih ⊢; omega

/-! ## Each step of an activation lowers its measure -/

/-- `GetKernelEntries` returns at most the entries asked for. -/
theorem getKernelEntries_length_le (k : BEFKernel) (off n : Nat) :
    (k.getKernelEntries off n).length ≤ n := by
  simp [BEFKernel.getKernelEntries]

/-- An activation step that does not open a gate lowers the activation's cost; one that does
trades one worklist entry for the kernel's `fireCost`. -/
theorem Activation.step_cost {fn : BEFFunction} {c : List ResultSpec} {a a' : Activation}
    {s s' : Sys} (h : a.step fn c s = some (some a', s')) :
    (a'.cost fn < a.cost fn ∧ s'.fires = s.fires) ∨
    ∃ k, k < fn.numKernels ∧ s.notReady k = 1 ∧
      s'.fires = Function.update s.fires k (s.fires k + 1) ∧
      a'.cost fn + 1 = a.cost fn + (fn.kernel k).fireCost := by
  rcases a with ⟨ids, cur⟩
  cases cur with
  | idle =>
    cases ids with
    | nil => simp [Activation.step] at h
    | cons k ids =>
      simp only [Activation.step, Option.some.injEq, Prod.map, Activation.stepPop,
        Prod.mk.injEq] at h
      obtain ⟨rfl, rfl⟩ := h
      split
      · split
        · exact .inr ⟨k, ‹_›, ‹_›, rfl, by simp [Activation.cost, Cursor.cost]; omega⟩
        · exact .inl ⟨by simp [Activation.cost, Cursor.cost], rfl⟩
      · exact .inl ⟨by simp [Activation.cost, Cursor.cost], rfl⟩
  | ready k bound anyErr =>
    simp only [Activation.step, Activation.stepReady, Option.map_eq_some'] at h
    obtain ⟨p, hp, hq⟩ := h
    simp only [Prod.map, Prod.mk.injEq, Option.some.injEq] at hq
    obtain ⟨rfl, rfl⟩ := hq
    have key : ∀ frame, (if bound = [] then publishFrom fn k frame
        else Cursor.dropArg k bound 0 frame).cost fn < (Cursor.ready k bound anyErr).cost fn := by
      intro frame; split
      · rw [publishFrom_cost]; simp only [Cursor.cost]; omega
      · simp only [Cursor.cost]; omega
    split at hp
    · split at hp
      · cases hp; exact .inl ⟨Nat.add_lt_add_left (key _) _, (invoke_gate _ _ _).2⟩
      · cases hp
    · cases hp; exact .inl ⟨Nat.add_lt_add_left (key _) _, rfl⟩
  | result k pseudo frame i off ph =>
    refine .inl ?_
    simp only [Activation.step, Option.some.injEq, Prod.map, Activation.stepResult,
      Prod.mk.injEq] at h
    obtain ⟨rfl, rfl⟩ := h
    have := getKernelEntries_length_le (fn.kernel k) off ((fn.kernel k).numUsedBys i)
    cases ph with
    | accelerate rv set pending usedBys =>
      cases pending <;> refine ⟨?_, rfl⟩ <;>
        simp only [Activation.stepAccelerate, Activation.cost, afterDispatch_cost,
          List.length_append, List.length_reverse] <;>
        simp only [Cursor.cost, phaseCost, List.length_cons] <;> omega
    | _ =>
      simp only [Activation.stepBegin, Activation.stepUnusedDrop, Activation.stepSetCas,
        Activation.stepSetRevert, Activation.stepSetForward, Activation.stepDispatch,
        Activation.stepAndThen, Activation.stepDropPlaceholder]
      all_goals (repeat' split) <;> refine ⟨?_, rfl⟩ <;>
        simp only [Activation.cost, nextResult_cost, afterDispatch_cost, List.length_append,
          List.length_reverse] <;>
        simp only [Cursor.cost, phaseCost, BEFKernel.resultCost] <;>
        (try have := Bool.toNat_le ‹Bool›) <;> omega
  | _ =>
    refine .inl ?_
    simp only [Activation.step, Option.some.injEq, Prod.map, Activation.stepGated,
      Activation.stepBindLoad, Activation.stepBindCas, Activation.stepBindCheck,
      Activation.stepDropArg, Prod.mk.injEq, Sys.getOrCreateRegisterValue] at h
    obtain ⟨rfl, rfl⟩ := h
    all_goals (repeat' split) <;> refine ⟨?_, rfl⟩ <;>
      simp only [Activation.cost, afterBind_cost, publishFrom_cost] <;>
      simp only [Cursor.cost, BEFKernel.fireCost, List.length_append, List.length_singleton,
        List.length_nil] <;> omega

/-- **Each step of an activation lowers its measure**, in every state where the gate invariant
holds. -/
theorem Activation.step_measure {fn : BEFFunction} {c : List ResultSpec} {a a' : Activation}
    {s s' : Sys} (hs : GateInv s) (h : a.step fn c s = some (some a', s')) :
    a'.cost fn + potential fn s'.fires < a.cost fn + potential fn s.fires := by
  rcases Activation.step_cost h with ⟨hlt, hf⟩ | ⟨k, hk, h1, hf, hc⟩
  · rw [hf]; omega
  · have h0 : s.fires k = 0 := by rcases hs k with h | h <;> omega
    have := potentialUpTo_fire fn s.fires h0 fn.numKernels
    simp only [hk, if_true] at this
    rw [hf]; unfold potential; omega

/-- No step of the run raises the potential. -/
theorem Step.potential_le {fn : BEFFunction} {s s' : Sys} (h : Step fn s s') :
    potential fn s'.fires ≤ potential fn s.fires :=
  potentialUpTo_anti fn h.fires_le _

/-- A run from state `s` in which the thread `t` of a call of `DecrementArgumentsNotReadyCounts`
(the constructor's, or a continuation's) takes `n` steps, interleaved with any steps of the other
threads and of the environment. A step of `t` runs its activation and either continues the call
on the thread that runs the next activation, or returns. -/
inductive Drains (fn : BEFFunction) : Task → Sys → Nat → Prop
  | stop (t : Task) (s : Sys) : Drains fn t s 0
  | own {t t' : Task} {a a' : Activation} {s s' s'' : Sys} {rest : Multiset Task} {n : Nat}
      (c : List ResultSpec) (ht : s.tasks = t ::ₘ rest) (hta : t.act = some a)
      (h : taskStep fn c t { s with tasks := rest } = some s')
      (ha : a.step fn c { s with tasks := rest } = some (some a', s'')) (hta' : t'.act = some a')
      (next : Drains fn t' s' n) : Drains fn t s (n + 1)
  | ret {t : Task} {a : Activation} {s s' s'' : Sys} {rest : Multiset Task} (c : List ResultSpec)
      (ht : s.tasks = t ::ₘ rest) (hta : t.act = some a)
      (h : taskStep fn c t { s with tasks := rest } = some s')
      (ha : a.step fn c { s with tasks := rest } = some (none, s'')) : Drains fn t s 1
  | other {t : Task} {s s' : Sys} {n : Nat} (h : Step fn s s') (next : Drains fn t s' n) :
      Drains fn t s n

/-- A step that continues a call leaves the gate openings as its activation's step did. -/
theorem taskStep_fires {fn : BEFFunction} {c : List ResultSpec} {t : Task} {a a' : Activation}
    {s s' s'' : Sys} (hta : t.act = some a) (h : taskStep fn c t s = some s')
    (ha : a.step fn c s = some (some a', s'')) : s'.fires = s''.fires := by
  obtain ⟨oa, s₁, h₁, hs⟩ := taskStep_act_cases hta h
  obtain ⟨rfl, rfl⟩ := Prod.mk.inj (Option.some.inj (ha.symm.trans h₁))
  rcases hs with ⟨_, -, rfl | rfl⟩ | ⟨h0, -⟩
  · rfl
  · rfl
  · cases h0

/-- **Every call of `DecrementArgumentsNotReadyCounts` returns.** From any reachable state, the
thread of a call whose activation is `a` takes at most `cost + potential + 1` steps, its return
included, however the rest of the run interleaves with it: each step that continues the call
lowers the measure, and no step of any thread raises the potential. -/
theorem decrementArgumentsNotReadyCounts_returns {fn : BEFFunction} {args : List Nat} {s : Sys}
    (hs : Reachable fn args s) {t : Task} {a : Activation} (hta : t.act = some a) {n : Nat}
    (h : Drains fn t s n) : n ≤ a.cost fn + potential fn s.fires + 1 := by
  induction h generalizing a with
  | stop => omega
  | ret => omega
  | @own t t' a₁ a' s s' s'' rest n c ht hta₁ h ha hta' _ ih =>
    obtain rfl := Option.some.inj (hta.symm.trans hta₁)
    have hm : a'.cost fn + potential fn s''.fires < a.cost fn + potential fn s.fires :=
      Activation.step_measure (s := { s with tasks := rest }) hs.gate ha
    have := ih (hs.step (.task c ht h)) hta'
    rw [taskStep_fires hta₁ h ha] at this
    omega
  | other h _ ih =>
    have := Step.potential_le h
    have := ih (hs.step h) hta
    omega

/-- Kernel `1` of `copyFn`, about to run, takes one step of the constructor's thread. -/
theorem decrementArgumentsNotReadyCounts_returns_copyReady :
    Drains copyFn (.main (.ctor ⟨[], .ready 1 [0] none⟩)) copyReady 1 ∧
      1 ≤ (⟨[], .ready 1 [0] none⟩ : Activation).cost copyFn + potential copyFn copyReady.fires + 1 :=
  have hd : Drains copyFn (.main (.ctor ⟨[], .ready 1 [0] none⟩)) copyReady 1 :=
    .own [.fresh (.concrete 9)] (Multiset.cons_erase (by decide)).symm rfl
      (Option.some_get (by decide)).symm rfl
      (show (Task.main (.ctor ⟨[], .dropArg 1 [0] 0 [2]⟩)).act = some ⟨[], .dropArg 1 [0] 0 [2]⟩ from rfl)
      (.stop _ _)
  ⟨hd, decrementArgumentsNotReadyCounts_returns copyReady_reachable
    (show (Task.main (.ctor ⟨[], .ready 1 [0] none⟩)).act = some ⟨[], .ready 1 [0] none⟩ from rfl) hd⟩

end BefExecutor
