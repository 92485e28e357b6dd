/-
# The readiness gate opens at most once

Source: `lib/bef_executor/bef_executor.cc`, `DecrementArgumentsNotReadyCounts`' `fetch_sub` (:383) and `SetKernelsWithErrorInputReady` (:94-107).

`gate_opens_at_most_once`: along every run, for any kernel stream.
-/
import BefExecutor.System

namespace BefExecutor

/-! ## What a step does to the gate -/

/-- The effect of one step on `arguments_not_ready` and on the gate openings. -/
inductive GateEffect (s s' : Sys) : Prop where
  /-- Neither changes. -/
  | frame (h1 : s'.notReady = s.notReady) (h2 : s'.fires = s.fires)
  /-- A `fetch_sub` on kernel `k` that does not see `1`. -/
  | decrement (k : Nat) (hk : s.notReady k ≠ 1)
      (h1 : s'.notReady = Function.update s.notReady k (s.notReady k - 1)) (h2 : s'.fires = s.fires)
  /-- A `fetch_sub` on kernel `k` that sees `1`: its gate opens. -/
  | fire (k : Nat) (hk : s.notReady k = 1)
      (h1 : s'.notReady = Function.update s.notReady k (s.notReady k - 1))
      (h2 : s'.fires = Function.update s.fires k (s.fires k + 1))
  /-- `SetKernelsWithErrorInputReady` on kernel `u`. -/
  | accel (u : Nat) (h1 : s'.notReady = (s.setKernelWithErrorInputReady u).notReady)
      (h2 : s'.fires = s.fires)

/-- Running a kernel leaves every count and gate opening alone. -/
theorem invoke_gate (bound : List Nat) (c : List ResultSpec) (s : Sys) :
    (Sys.invoke bound c s).2.notReady = s.notReady ∧ (Sys.invoke bound c s).2.fires = s.fires := by
  induction c generalizing s with
  | nil => exact ⟨rfl, rfl⟩
  | cons r c ih => cases r <;> exact ih _

/-- The effect only reads the counts and the openings. -/
theorem GateEffect.of_eq {s₁ s₂ s s' : Sys} (e : GateEffect s₁ s₂) (h1 : s₁.notReady = s.notReady)
    (h2 : s₁.fires = s.fires) (h3 : s'.notReady = s₂.notReady) (h4 : s'.fires = s₂.fires) :
    GateEffect s s' := by
  cases e with
  | frame a b => exact .frame (by rw [h3, a, h1]) (by rw [h4, b, h2])
  | decrement k hk a b => exact .decrement k (h1 ▸ hk) (by rw [h3, a, h1]) (by rw [h4, b, h2])
  | fire k hk a b => exact .fire k (h1 ▸ hk) (by rw [h3, a, h1]) (by rw [h4, b, h2])
  | accel u a b =>
    exact .accel u (by rw [h3, a]; simp only [Sys.setKernelWithErrorInputReady, h1])
      (by rw [h4, b, h2])

/-- Every activation step has a gate effect. -/
theorem Activation.step_gateEffect {fn : BEFFunction} {c : List ResultSpec} {a : Activation}
    {s s' : Sys} {oa : Option Activation} (h : a.step fn c s = some (oa, s')) : GateEffect s s' := by
  rcases a with ⟨ids, cur⟩
  cases cur with
  | idle =>
    cases ids with
    | nil => simp only [Activation.step, Option.some.injEq, Prod.mk.injEq] at h; exact h.2 ▸ .frame rfl rfl
    | cons k ids =>
      simp only [Activation.step, Option.some.injEq, Prod.map, Activation.stepPop,
        Prod.mk.injEq] at h
      obtain ⟨-, rfl⟩ := h
      split
      · split
        · exact .fire k ‹_› rfl rfl
        · exact .decrement k ‹_› rfl rfl
      · exact .frame rfl rfl
  | ready k bound anyErr =>
    simp only [Activation.step, Activation.stepReady, Option.map_eq_some'] at h
    obtain ⟨p, hp, hq⟩ := h
    cases hq
    split at hp
    · split at hp
      · cases hp; exact .frame (invoke_gate _ _ _).1 (invoke_gate _ _ _).2
      · cases hp
    · cases hp; exact .frame rfl rfl
  | result k pseudo frame i off ph =>
    cases ph with
    | accelerate rv set pending usedBys =>
      cases pending <;> simp only [Activation.step, Option.some.injEq, Prod.map,
        Activation.stepResult, Activation.stepAccelerate, Prod.mk.injEq] at h <;>
        obtain ⟨-, rfl⟩ := h
      · exact .frame rfl rfl
      · exact .accel _ rfl rfl
    | _ =>
      simp only [Activation.step, Option.some.injEq, Prod.map, Activation.stepResult,
        Activation.stepBegin, Activation.stepUnusedDrop, Activation.stepSetCas,
        Activation.stepSetRevert, Activation.stepSetForward, Activation.stepDispatch,
        Activation.stepAndThen, Activation.stepDropPlaceholder, Prod.mk.injEq] at h
      obtain ⟨-, rfl⟩ := h
      all_goals (repeat' split) <;> exact .frame rfl rfl
  | _ =>
    simp only [Activation.step, Option.some.injEq, Prod.map, Activation.stepGated,
      Activation.stepBindLoad, Activation.stepBindCas, Activation.stepBindCheck,
      Activation.stepDropArg, Prod.mk.injEq, Sys.getOrCreateRegisterValue] at h
    obtain ⟨-, rfl⟩ := h
    all_goals (repeat' split) <;> exact .frame rfl rfl

/-- Only an activation touches the gate: `Execute`'s other phases and the callbacks keep the
counts and the openings. -/
theorem taskStep_frame {fn : BEFFunction} {c : List ResultSpec} {t : Task} {s s' : Sys}
    (ht : t.act = none) (h : taskStep fn c t s = some s') :
    s'.notReady = s.notReady ∧ s'.fires = s.fires := by
  cases t with
  | main ph =>
    cases ph with
    | start args =>
      simp only [taskStep, mainStep, startExecute, Option.some.injEq] at h; subst h
      split
      · exact ⟨rfl, rfl⟩
      · obtain ⟨heap, regs, mf, hi⟩ := Sys.initializeArgumentRegisters_eq fn args 0 s
        rw [hi]; exact ⟨rfl, rfl⟩
    | ctor a => cases ht
    | done => cases h
    | _ =>
      simp only [taskStep, mainStep, Sys.getOrCreateRegisterValue] at h
      (repeat' split at h) <;> cases h <;> exact ⟨rfl, rfl⟩
  | cont a => cases ht
  | _ => cases h; exact ⟨rfl, rfl⟩

/-- The world never touches the gate. -/
theorem envStep_frame {e : Env} {s s' : Sys} (h : envStep e s = some s') :
    s'.notReady = s.notReady ∧ s'.fires = s.fires := by
  rcases envStep_cases h with ⟨v, st, -, -, rfl⟩ | ⟨v, -, -, rfl⟩ | ⟨d, -, rfl⟩ <;> exact ⟨rfl, rfl⟩

/-- A thread or the world changes the gate only through an activation. -/
theorem Step.gateEffect {fn : BEFFunction} {s s' : Sys} (h : Step fn s s') : GateEffect s s' := by
  cases h with
  | env e h => exact .frame (envStep_frame h).1 (envStep_frame h).2
  | @task t rest c _ h =>
    have frame : t.act = none → GateEffect s s' := fun ht =>
      .frame (taskStep_frame ht h).1 (taskStep_frame ht h).2
    cases t with
    | main ph =>
      cases ph with
      | ctor a =>
        simp only [taskStep, mainStep, Option.map_eq_some'] at h
        obtain ⟨⟨oa, s''⟩, ha, rfl⟩ := h
        cases oa <;> exact (Activation.step_gateEffect ha).of_eq rfl rfl rfl rfl
      | _ => exact frame rfl
    | cont a =>
      simp only [taskStep, Option.map_eq_some'] at h
      obtain ⟨⟨oa, s''⟩, ha, rfl⟩ := h
      cases oa <;> exact (Activation.step_gateEffect ha).of_eq rfl rfl rfl rfl
    | _ => exact frame rfl

/-- **The gate openings only grow.** -/
theorem Step.fires_le {fn : BEFFunction} {s s' : Sys} (h : Step fn s s') (k : Nat) :
    s.fires k ≤ s'.fires k := by
  cases h.gateEffect with
  | fire j _ _ h2 =>
    rw [h2]; by_cases hj : k = j
    · subst hj; simp
    · simp [hj]
  | frame _ h2 | decrement _ _ _ h2 | accel _ _ h2 => rw [h2]

/-! ## The gate invariant -/

/-- A kernel that has not fired still has a count of at least one; one that has fired has a
count of at most zero, and fired once. -/
def GateInv (s : Sys) : Prop :=
  ∀ k, (s.fires k = 0 ∧ 1 ≤ s.notReady k) ∨ (s.fires k = 1 ∧ s.notReady k ≤ 0)

/-- Every step keeps the gate invariant. -/
theorem GateEffect.gateInv {s s' : Sys} (e : GateEffect s s') (hs : GateInv s) : GateInv s' := by
  intro j
  have := hs j
  cases e with
  | frame h1 h2 => rw [h1, h2]; exact this
  | decrement k hk h1 h2 =>
    rw [h1, h2]; by_cases hj : j = k
    · subst hj; simp only [Function.update_same]; omega
    · simpa [hj] using this
  | fire k hk h1 h2 =>
    rw [h1, h2]; by_cases hj : j = k
    · subst hj; simp only [Function.update_same]; omega
    · simpa [hj] using this
  | accel u h1 h2 =>
    rw [h1, h2]; by_cases hj : j = u
    · subst hj; simp only [Sys.setKernelWithErrorInputReady, Function.update_same]; split <;> omega
    · simpa [Sys.setKernelWithErrorInputReady, hj] using this

/-- The gate invariant holds before `Execute`. -/
theorem Initial.gate {fn : BEFFunction} {args : List Nat} {s : Sys} (h : Initial fn args s) :
    GateInv s := fun k => .inl ⟨h.fires k, by rw [h.notReady k]; omega⟩

/-- The gate invariant holds in every reachable state. -/
theorem Reachable.gate {fn : BEFFunction} {args : List Nat} {s : Sys}
    (h : Reachable fn args s) : GateInv s := by
  induction h with
  | init h => exact h.gate
  | step _ hst ih => exact hst.gateEffect.gateInv ih

/-- **The gate opens at most once.** In every reachable state of every run, for any kernel
stream, each kernel's `fetch_sub` has returned `1` at most once. -/
theorem gate_opens_at_most_once {fn : BEFFunction} {args : List Nat} {s : Sys}
    (h : Reachable fn args s) (k : Nat) : s.fires k ≤ 1 := by
  rcases h.gate k with h | h <;> omega

end BefExecutor
