/-
# The decrements a kernel still has coming

Source: `lib/bef_executor/bef_executor.cc`, The `fetch_sub` of `DecrementArgumentsNotReadyCounts` (:383) fed by `ProcessUsedBys` (:238-321).

A kernel's count is its unpopped used-by entries, along every run.
-/
import BefExecutor.WellFormed
import BefExecutor.Gate

namespace BefExecutor

/-! ## Tokens in the kernel records -/

namespace BEFKernel

variable (k : BEFKernel) (pseudo : Bool) (u : Nat)

/-- The occurrences of `u` in the used-by lists of `n` results from result `i` on. -/
def usedByCount : Nat → Nat → Nat
  | _, 0 => 0
  | i, n + 1 => (k.usedBysOf pseudo i).count u + usedByCount (i + 1) n

/-- The occurrences of `u` in the used-by lists of the results from `i` on. -/
def pendingFrom (i : Nat) : Nat := k.usedByCount pseudo u i (k.numResults - i)

variable {k}

/-- The tokens from result `i` on are those of result `i` and of the rest. -/
theorem pendingFrom_of_lt {i : Nat} (h : i < k.numResults) :
    k.pendingFrom pseudo u i = (k.usedBysOf pseudo i).count u + k.pendingFrom pseudo u (i + 1) := by
  unfold pendingFrom
  rw [show k.numResults - i = (k.numResults - (i + 1)) + 1 by omega]; rfl

/-- Past the last result no tokens are pending. -/
theorem pendingFrom_of_le {i : Nat} (h : k.numResults ≤ i) : k.pendingFrom pseudo u i = 0 := by
  unfold pendingFrom; rw [show k.numResults - i = 0 by omega]; rfl

variable {pseudo u}

/-- A result without used-by entries has an empty used-by list. -/
theorem usedBysOf_of_zero {i : Nat} (h : k.numUsedBys i = 0) : k.usedBysOf pseudo i = [] := by
  simp [usedBysOf, usedByList, getKernelEntries, h]

variable (pseudo u)

/-- Skipping a result without used-by entries skips no token. -/
theorem pendingFrom_skip {i : Nat} (h : k.numUsedBys i = 0) :
    k.pendingFrom pseudo u i = k.pendingFrom pseudo u (i + 1) := by
  by_cases hi : i < k.numResults
  · rw [pendingFrom_of_lt pseudo u hi, usedBysOf_of_zero h, List.count_nil, Nat.zero_add]
  · rw [pendingFrom_of_le pseudo u (by omega), pendingFrom_of_le pseudo u (by omega)]

/-- No token for `u` is left in results whose used-by lists do not name it. -/
theorem usedByCount_eq_zero {i n : Nat} (h : ∀ j, i ≤ j → j < i + n → u ∉ k.usedBysOf pseudo j) :
    k.usedByCount pseudo u i n = 0 := by
  induction n generalizing i with
  | zero => rfl
  | succ n ih =>
    rw [usedByCount, List.count_eq_zero_of_not_mem (h i le_rfl (by omega)),
      ih fun j h1 h2 => h j (by omega) (by omega)]

/-- A kernel whose used-by lists never name `u` holds no tokens for `u`. -/
theorem pendingFrom_eq_zero (h : ∀ i < k.numResults, u ∉ k.usedBysOf pseudo i) :
    k.pendingFrom pseudo u 0 = 0 :=
  usedByCount_eq_zero pseudo u fun j _ hj => h j (by omega)

end BEFKernel

/-! ## Tokens an activation holds -/

/-- The used-by slice a result phase holds: the one being accelerated, or the one about to be
handed to `AndThen`. -/
def ResultPhase.held : ResultPhase → List Nat
  | .accelerate _ _ _ usedBys | .andThen _ _ usedBys => usedBys
  | _ => []

/-- The tokens for `u` that the kernel an activation runs has still to hand out. -/
def Cursor.tokens (fn : BEFFunction) (u : Nat) : Cursor → Nat
  | .idle => 0
  | .gated k | .bindLoad k _ _ | .bindCas k _ _ | .bindCheck k _ _ | .ready k _ _
  | .dropArg k _ _ _ => (fn.kernel k).pendingFrom false u 0
  | .result k pseudo _ i _ ph =>
    (fn.kernel k).pendingFrom pseudo u (if ph.sliced then i + 1 else i) + ph.held.count u

/-- The tokens for `u` an activation holds: in its worklist and in its kernel. -/
def Activation.tokens (fn : BEFFunction) (u : Nat) (a : Activation) : Nat :=
  a.ids.count u + a.cur.tokens fn u

section Positions

variable (fn : BEFFunction) (k : Nat) (pseudo : Bool) (frame : List Nat) (i off u : Nat)

/-- While binding, an activation holds the tokens of all its kernel's used-by lists. -/
theorem afterBind_tokens (bound : List Nat) (anyErr : Option Nat) :
    (afterBind fn k bound anyErr).tokens fn u = (fn.kernel k).pendingFrom false u 0 := by
  unfold afterBind; split <;> rfl

/-- Past result `i` an activation holds the tokens of the later results. -/
theorem nextResult_tokens :
    (nextResult fn k pseudo frame i off).tokens fn u = (fn.kernel k).pendingFrom pseudo u (i + 1) := by
  unfold nextResult; split
  · simp [Cursor.tokens, ResultPhase.sliced, ResultPhase.held]
  · rw [BEFKernel.pendingFrom_of_le _ _ (by omega)]; rfl

/-- Past `ProcessUsedBys` of result `i` an activation holds the tokens of the later results. -/
theorem afterDispatch_tokens (rv : Nat) (set : Bool) :
    (afterDispatch fn k pseudo frame i off rv set).tokens fn u =
      (fn.kernel k).pendingFrom pseudo u (i + 1) := by
  unfold afterDispatch; split
  · simp [Cursor.tokens, ResultPhase.sliced, ResultPhase.held]
  · exact nextResult_tokens ..

/-- Publishing starts with the tokens of all used-by lists. -/
theorem publishFrom_tokens :
    (publishFrom fn k frame).tokens fn u = (fn.kernel k).pendingFrom false u 0 := by
  unfold publishFrom; split
  · simp [Cursor.tokens, ResultPhase.sliced, ResultPhase.held]
  · rw [BEFKernel.pendingFrom_of_le _ _ (by omega)]; rfl

end Positions

/-- The tokens handed to `AndThen` with a continuation. -/
def Cursor.handedTokens (u : Nat) (cur : Cursor) : Nat :=
  (cur.handoff.map fun p => p.2.count u).getD 0

/-- **An activation step keeps its tokens.** A step of a valid activation that is not a pop
leaves the gate openings alone, and the tokens it held are in its new position, its worklist,
or the continuation it handed to `AndThen`. -/
theorem Activation.step_tokens {fn : BEFFunction} {c : List ResultSpec} {a a' : Activation}
    {s s' : Sys} (hu : a.cur.Skips fn) (ha : a.cur.Valid fn) (hb : a.cur ≠ .idle)
    (h : a.step fn c s = some (some a', s')) (hp : fn.hasPseudo → s.ArgsSet fn) (u : Nat) :
    a'.tokens fn u + a.cur.handedTokens u = a.tokens fn u ∧ s'.fires = s.fires := by
  rcases a with ⟨ids, cur⟩
  cases cur with
  | idle => exact absurd rfl hb
  | ready k bound anyErr =>
    simp only [Activation.step, Activation.stepReady, Option.map_eq_some'] at h
    obtain ⟨p, hp, hq⟩ := h
    simp only [Prod.map, Prod.mk.injEq, Option.some.injEq] at hq
    obtain ⟨rfl, rfl⟩ := hq
    have key : ∀ frame, (if bound = [] then publishFrom fn k frame
        else Cursor.dropArg k bound 0 frame).tokens fn u = (fn.kernel k).pendingFrom false u 0 := by
      intro frame; split
      · exact publishFrom_tokens ..
      · rfl
    split at hp
    · split at hp
      · cases hp
        exact ⟨by simp only [Activation.tokens, key]; rfl, (invoke_gate _ _ _).2⟩
      · cases hp
    · cases hp
      exact ⟨by simp only [Activation.tokens, key]; rfl, rfl⟩
  | result k pseudo frame i off ph =>
    obtain ⟨hi, hfr, hoff, hph⟩ := ha
    simp only [Activation.step, Option.some.injEq, Prod.map, Prod.mk.injEq] at h
    obtain ⟨rfl, rfl⟩ := h
    have hlt := BEFKernel.pendingFrom_of_lt pseudo u hi
    cases ph with
    | begin =>
      cases pseudo
      · simp only [Activation.stepResult, Activation.stepBegin, Bool.false_eq_true, ↓reduceIte]
        refine ⟨by split <;> rfl, ?_⟩
        (repeat' split) <;> rfl
      · have hk : k = 0 ∧ fn.hasPseudo := hfr
        obtain ⟨rfl, hps⟩ := hk
        simp only [Activation.stepResult, Activation.stepBegin, ↓reduceIte]
        split
        · refine ⟨?_, rfl⟩
          have := BEFKernel.pendingFrom_skip true u (hu i hi ‹_›)
          simp only [Activation.tokens, nextResult_tokens]
          simp only [Cursor.tokens, ResultPhase.sliced, ResultPhase.held, Cursor.handedTokens,
            Cursor.handoff, ↓reduceIte, Bool.false_eq_true, Option.map_none', Option.getD_none,
            List.count_nil]
          omega
        · split
          · exact ⟨rfl, rfl⟩
          · exact absurd ‹_› (hp hps i hi ‹_›)
    | unusedDrop =>
      obtain ⟨rfl, hn⟩ := hph
      refine ⟨?_, rfl⟩
      have := BEFKernel.pendingFrom_skip false u hn
      simp only [Activation.stepResult, Activation.stepUnusedDrop, Activation.tokens,
        nextResult_tokens]
      simp only [Cursor.tokens, ResultPhase.sliced, ResultPhase.held, Cursor.handedTokens,
        Cursor.handoff, ↓reduceIte, Bool.false_eq_true, Option.map_none', Option.getD_none,
        List.count_nil]
      omega
    | setCas =>
      cases hph
      simp only [Activation.stepResult, Activation.stepSetCas]
      split <;> refine ⟨rfl, ?_⟩ <;> (try split) <;> rfl
    | setRevert e | setForward e => cases hph; exact ⟨rfl, rfl⟩
    | dispatch rv set =>
      replace hoff : off = (fn.kernel k).usedByBase pseudo + (fn.kernel k).usedByPrefix i := hoff
      have hub : (fn.kernel k).getKernelEntries off ((fn.kernel k).numUsedBys i) =
          (fn.kernel k).usedBysOf pseudo i := by rw [hoff]; rfl
      simp only [Activation.stepResult, Activation.stepDispatch]
      split
      · refine ⟨?_, rfl⟩
        have := BEFKernel.pendingFrom_skip pseudo u ‹_›
        simp only [Activation.tokens, afterDispatch_tokens]
        simp only [Cursor.tokens, ResultPhase.sliced, ResultPhase.held, Cursor.handedTokens,
          Cursor.handoff, ↓reduceIte, Bool.false_eq_true, Option.map_none', Option.getD_none,
          List.count_nil]
        omega
      · rw [hub]
        split
        · refine ⟨?_, rfl⟩
          simp only [Activation.tokens, Cursor.tokens, ResultPhase.sliced, ResultPhase.held,
            Cursor.handedTokens, Cursor.handoff, ↓reduceIte, Bool.false_eq_true]
          simp only [Option.map_none', Option.getD_none, List.count_nil]
          omega
        · split
          · refine ⟨?_, rfl⟩
            simp only [Activation.tokens, afterDispatch_tokens, List.count_append,
              List.count_reverse]
            simp only [Cursor.tokens, ResultPhase.sliced, ResultPhase.held, Cursor.handedTokens,
              Cursor.handoff, ↓reduceIte, Bool.false_eq_true, Option.map_none', Option.getD_none, List.count_nil]
            omega
          · refine ⟨?_, rfl⟩
            simp only [Activation.tokens, Cursor.tokens, ResultPhase.sliced, ResultPhase.held,
              Cursor.handedTokens, Cursor.handoff, ↓reduceIte, Bool.false_eq_true,
              Option.map_none', Option.getD_none, List.count_nil]
            omega
    | accelerate rv set pending usedBys =>
      cases pending with
      | nil =>
        refine ⟨?_, rfl⟩
        simp only [Activation.stepResult, Activation.stepAccelerate, Activation.tokens,
          afterDispatch_tokens, List.count_append, List.count_reverse]
        simp only [Cursor.tokens, ResultPhase.sliced, ResultPhase.held, Cursor.handedTokens,
          Cursor.handoff, ↓reduceIte, Option.map_none', Option.getD_none, List.count_nil]
        omega
      | cons v rest => exact ⟨rfl, rfl⟩
    | andThen rv set usedBys =>
      refine ⟨?_, rfl⟩
      simp only [Activation.stepResult, Activation.stepAndThen, Activation.tokens,
        afterDispatch_tokens]
      simp only [Cursor.tokens, ResultPhase.sliced, ResultPhase.held, Cursor.handedTokens,
        Cursor.handoff, ↓reduceIte, Option.map_some', Option.getD_some]
      omega
    | dropPlaceholder rv =>
      refine ⟨?_, rfl⟩
      simp only [Activation.stepResult, Activation.stepDropPlaceholder, Activation.tokens,
        nextResult_tokens]
      simp only [Cursor.tokens, ResultPhase.sliced, ResultPhase.held, Cursor.handedTokens,
        Cursor.handoff, ↓reduceIte, Option.map_none', Option.getD_none, List.count_nil]
      omega
  | _ =>
    simp only [Activation.step, Option.some.injEq, Prod.map, Activation.stepGated,
      Activation.stepBindLoad, Activation.stepBindCas, Activation.stepBindCheck,
      Activation.stepDropArg, Prod.mk.injEq, Sys.getOrCreateRegisterValue] at h
    obtain ⟨rfl, rfl⟩ := h
    all_goals (repeat' split) <;>
      exact ⟨by simp only [Activation.tokens, afterBind_tokens, publishFrom_tokens]; rfl, rfl⟩

/-! ## Tokens of a state -/

/-- A kernel the readiness gate is there for: a kernel of the function other than the
argument pseudo-kernel. -/
def BEFFunction.Real (fn : BEFFunction) (k : Nat) : Prop := k < fn.numKernels ∧ fn.isPseudo k = false

/-- The tokens for `u` in the used-by lists of the kernels below `n` whose gate has not
opened, the pseudo-kernel left out. -/
def unfiredTokens (fn : BEFFunction) (fires : Nat → Nat) (u : Nat) : Nat → Nat
  | 0 => 0
  | n + 1 => unfiredTokens fn fires u n +
      if fires n = 0 ∧ fn.isPseudo n = false then (fn.kernel n).pendingFrom false u 0 else 0

/-- The tokens for `u` each thread and each registered closure holds. `Execute` before its
start holds those of the constructor's first activation. -/
def tokenWeight (fn : BEFFunction) (u : Nat) : Weight where
  task
    | .main (.start args) => (bootstrap fn (args ≠ [])).tokens fn u
    | .main (.ctor a) | .cont a => a.tokens fn u
    | _ => 0
  waiter
    | (_, .usedBys ids) => ids.count u
    | _ => 0
  run := by
    rintro ⟨v, w⟩
    cases w with
    | usedBys ids => simp [Waiter.task, Activation.tokens, Cursor.tokens, List.count_reverse]
    | _ => rfl

@[simp] theorem tokenWeight_ctor (fn : BEFFunction) (u : Nat) (a : Activation) :
    (tokenWeight fn u).task (.main (.ctor a)) = a.tokens fn u := rfl

@[simp] theorem tokenWeight_cont (fn : BEFFunction) (u : Nat) (a : Activation) :
    (tokenWeight fn u).task (.cont a) = a.tokens fn u := rfl

/-- The tokens are an executor-only weight. -/
theorem tokenWeight_executorOnly (fn : BEFFunction) (u : Nat) : (tokenWeight fn u).ExecutorOnly :=
  ⟨rfl, fun _ _ => rfl, fun _ => rfl⟩

/-- The tokens a position hands off are its handed tokens. -/
theorem handoffWeight_tokenWeight (fn : BEFFunction) (u : Nat) (cur : Cursor) :
    cur.handoffWeight (tokenWeight fn u) = cur.handedTokens u := by
  unfold Cursor.handoffWeight Cursor.handedTokens; cases cur.handoff <;> rfl

/-- Decidable, so that a concrete kernel id can be checked by `decide`. -/
instance (fn : BEFFunction) (k : Nat) : Decidable (fn.Real k) :=
  inferInstanceAs (Decidable (_ ∧ _))

/-- The used-by entries naming `u` in the lists the executor reads: those of every kernel run as
a kernel, and the pseudo-kernel's when the function has arguments. -/
def BEFFunction.usedByTotal (fn : BEFFunction) (u : Nat) : Nat :=
  unfiredTokens fn (fun _ => 0) u fn.numKernels +
    if fn.hasPseudo then (fn.kernel 0).pendingFrom true u 0 else 0

/-- A kernel whose gate is closed holds part of the unfired tokens. -/
theorem pendingFrom_le_unfiredTokens {fn : BEFFunction} {fires : Nat → Nat} {u k n : Nat}
    (hk : k < n) (hf : fires k = 0) (hp : fn.isPseudo k = false) :
    (fn.kernel k).pendingFrom false u 0 ≤ unfiredTokens fn fires u n := by
  induction n with
  | zero => omega
  | succ n ih =>
    rw [unfiredTokens]
    rcases Nat.lt_succ_iff_lt_or_eq.1 hk with hk | rfl
    · exact Nat.le_add_right_of_le (ih hk)
    · rw [if_pos ⟨hf, hp⟩]; exact Nat.le_add_left _ _

/-- No unfired tokens for `u` when no closed kernel names it. -/
theorem unfiredTokens_eq_zero {fn : BEFFunction} {fires : Nat → Nat} {u n : Nat}
    (h : ∀ k < n, fires k = 0 → fn.isPseudo k = false → (fn.kernel k).pendingFrom false u 0 = 0) :
    unfiredTokens fn fires u n = 0 := by
  induction n with
  | zero => rfl
  | succ n ih =>
    rw [unfiredTokens, ih fun k hk => h k (by omega)]
    split
    · rename_i hc; rw [h n (by omega) hc.1 hc.2]
    · rfl

/-- All tokens for `u`: held by threads and closures, and in the kernels not yet fired. -/
def Sys.tokens (fn : BEFFunction) (u : Nat) (s : Sys) : Nat :=
  s.weigh (tokenWeight fn u) + unfiredTokens fn s.fires u fn.numKernels

/-- Opening the gate of kernel `k` takes its share out of the kernels not yet fired, when it
was counted there. -/
theorem unfiredTokens_fire (fn : BEFFunction) (fires : Nat → Nat) (u k : Nat) (n : Nat) :
    unfiredTokens fn (Function.update fires k (fires k + 1)) u n +
      (if k < n ∧ fires k = 0 ∧ fn.isPseudo k = false then (fn.kernel k).pendingFrom false u 0
        else 0) = unfiredTokens fn fires u n := by
  induction n with
  | zero => simp [unfiredTokens]
  | succ n ih =>
    simp only [unfiredTokens]
    by_cases hn : n = k
    · subst hn
      simp only [Function.update_same, Nat.lt_irrefl, false_and, if_false, Nat.add_zero,
        Nat.succ_ne_zero] at ih ⊢
      simp [ih]
    · simp only [Function.update_noteq hn]
      by_cases hkn : k < n
      · simp only [hkn, show k < n + 1 by omega, true_and] at ih ⊢; omega
      · simp only [hkn, show ¬ k < n + 1 by omega, false_and, if_false] at ih ⊢; omega

/-! ## What a step does to the tokens -/

/-- The effect of one step on a count of tokens `T`, on the readiness counts and on the gate
openings. -/
inductive TokenEffect (fn : BEFFunction) (T T' : Nat → Nat) (s s' : Sys) : Prop where
  /-- Tokens move; no count goes up and no gate opens. -/
  | move (ht : ∀ u, T' u = T u) (hf : s'.fires = s.fires) (hn : ∀ u, s'.notReady u ≤ s.notReady u)
  /-- The pop of `k` that does not open its gate spends one token for `k` and, for a kernel of
  the function, one unit of its count. -/
  | pop (k : Nat) (ht : ∀ u, T' u + (if u = k then 1 else 0) = T u) (hf : s'.fires = s.fires)
      (hn : ∀ u, s'.notReady u + (if u = k ∧ k < fn.numKernels then 1 else 0) = s.notReady u)
  /-- The pop of `k` that opens its gate: the activation takes over `k`'s used-by lists, new
  tokens unless `k` was counted among the kernels not yet fired. -/
  | fire (k : Nat) (hk : k < fn.numKernels) (h1 : s.notReady k = 1) (hpos : 0 < T k)
      (ht : ∀ u, T' u + (if u = k then 1 else 0) = T u +
        if s.fires k = 0 ∧ fn.isPseudo k = false then 0 else (fn.kernel k).pendingFrom false u 0)
      (hf : s'.fires = Function.update s.fires k (s.fires k + 1))
      (hn : s'.notReady = Function.update s.notReady k 0)
  /-- `Execute` of a function without kernels returns at once, dropping the constructor's. -/
  | drop (hk : fn.numKernels = 0) (ht : ∀ u, T' u ≤ T u) (hf : s'.fires = s.fires)
      (hn : s'.notReady = s.notReady)

/-- The effect only reads the counts and the openings; tokens held elsewhere add on both sides. -/
theorem TokenEffect.shift {fn : BEFFunction} {T T' U U' : Nat → Nat} {s₁ s₁' s s' : Sys}
    (e : TokenEffect fn T T' s₁ s₁') (d : Nat → Nat) (hU : ∀ u, U u = T u + d u)
    (hU' : ∀ u, U' u = T' u + d u) (h1 : s₁.notReady = s.notReady) (h2 : s₁.fires = s.fires)
    (h3 : s'.notReady = s₁'.notReady) (h4 : s'.fires = s₁'.fires) : TokenEffect fn U U' s s' := by
  cases e with
  | move ht hf hn =>
    exact .move (fun u => by rw [hU, hU', ht]) (by rw [h4, hf, h2]) (fun u => h3 ▸ h1 ▸ hn u)
  | pop k ht hf hn =>
    exact .pop k (fun u => by rw [hU, hU', ← ht u]; omega) (by rw [h4, hf, h2])
      (fun u => h3 ▸ h1 ▸ hn u)
  | fire k hk h0 hpos ht hf hn =>
    refine .fire k hk (h1 ▸ h0) (by rw [hU]; omega) (fun u => ?_) (by rw [h4, hf, h2])
      (by rw [h3, hn, h1])
    have := ht u; rw [hU, hU', ← h2]; omega
  | drop hk ht hf hn =>
    exact .drop hk (fun u => by rw [hU, hU']; exact Nat.add_le_add_right (ht u) _)
      (by rw [h4, hf, h2]) (by rw [h3, hn, h1])

/-- Every step lowers a count or leaves it. -/
theorem GateEffect.notReady_le {s s' : Sys} (e : GateEffect s s') (u : Nat) :
    s'.notReady u ≤ s.notReady u := by
  cases e with
  | frame h1 _ => rw [h1]
  | decrement k _ h1 _ | fire k _ h1 _ =>
    rw [h1]; by_cases hu : u = k
    · subst hu; simp
    · simp [hu]
  | accel v h1 _ =>
    rw [h1]; simp only [Sys.setKernelWithErrorInputReady]
    by_cases hu : u = v
    · subst hu; simp only [Function.update_same]; split <;> omega
    · simp [hu]

/-- **What an activation step does to its tokens.** -/
theorem Activation.step_tokenEffect {fn : BEFFunction} {c : List ResultSpec} {a : Activation}
    {oa : Option Activation} {s s' : Sys} (hu : a.cur.Skips fn) (ha : a.cur.Valid fn)
    (hp : fn.hasPseudo → s.ArgsSet fn) (h : a.step fn c s = some (oa, s')) :
    TokenEffect fn (fun u => a.tokens fn u + unfiredTokens fn s.fires u fn.numKernels)
      (fun u => (oa.map (Activation.tokens fn u)).getD 0 + a.cur.handedTokens u +
        unfiredTokens fn s'.fires u fn.numKernels) s s' := by
  by_cases hb : a.cur = .idle
  · rcases a with ⟨ids, cur⟩
    simp only at hb; subst hb
    cases ids with
    | nil =>
      simp only [Activation.step, Option.some.injEq, Prod.mk.injEq] at h
      obtain ⟨rfl, rfl⟩ := h
      exact .move (fun _ => rfl) rfl (fun _ => le_rfl)
    | cons k ids =>
      simp only [Activation.step, Option.some.injEq, Prod.map, Activation.stepPop,
        Prod.mk.injEq] at h
      obtain ⟨rfl, rfl⟩ := h
      have hc : ∀ u, (k :: ids).count u = ids.count u + if u = k then 1 else 0 := fun u => by
        by_cases hu : u = k
        · subst hu; simp
        · simp [List.count_cons, hu, Ne.symm hu]
      have hpop : ∀ u, (⟨ids, .idle⟩ : Activation).tokens fn u + (if u = k then 1 else 0) =
          (⟨k :: ids, .idle⟩ : Activation).tokens fn u := fun u => by
        simp only [Activation.tokens, Cursor.tokens, hc, Nat.add_zero]
      split
      · split
        · rename_i hk h1
          refine .fire k hk h1 (by have := hpop k; simp only [if_true] at this; omega)
            (fun u => ?_) rfl (by rw [h1]; rfl)
          have e := unfiredTokens_fire fn s.fires u k fn.numKernels
          rw [← hpop u]
          simp only [Option.map_some', Option.getD_some, Activation.tokens, Cursor.tokens,
            Cursor.handedTokens, Cursor.handoff, Option.map_none', Option.getD_none, hk,
            true_and, id_eq] at e ⊢
          split_ifs at e ⊢ <;> omega
        · rename_i hk h1
          refine .pop k (fun u => ?_) rfl (fun u => ?_)
          · simp only [Option.map_some', Option.getD_some, Cursor.handedTokens, Cursor.handoff,
              Option.map_none', Option.getD_none, id_eq, ← hpop u]
            omega
          · by_cases hu : u = k
            · subst hu; simp [hk]
            · simp [hu]
      · rename_i hk
        refine .pop k (fun u => ?_) rfl (fun u => ?_)
        · simp only [Option.map_some', Option.getD_some, Cursor.handedTokens, Cursor.handoff,
            Option.map_none', Option.getD_none, id_eq, ← hpop u]
          omega
        · simp [hk]
  · have hg := Activation.step_gateEffect h
    cases oa with
    | none =>
      rcases a with ⟨ids, cur⟩
      cases cur <;> simp [Activation.step, Prod.map] at h hb
    | some a' =>
      have ht := Activation.step_tokens hu ha hb h hp
      refine .move (fun u => ?_) (ht 0).2 hg.notReady_le
      simp only [Option.map_some', Option.getD_some, (ht u).1, (ht u).2]

/-! ## What a step of the system does to the tokens -/

/-- `Execute` past its constructor holds no tokens. -/
theorem tokenWeight_later (fn : BEFFunction) (u : Nat) {ph : MainPhase} (hl : ph.later) :
    (tokenWeight fn u).task (.main ph) = 0 := by
  cases ph <;> first | rfl | cases hl

/-- A thread step that runs no activation keeps the tokens; `Execute` of a function without
kernels drops those of the constructor it never runs. -/
theorem taskStep_tokenEffect {fn : BEFFunction} {c : List ResultSpec} {t : Task} {s s' : Sys}
    (ht : t.act = none) (h : taskStep fn c t s = some s') :
    TokenEffect fn (fun u => (tokenWeight fn u).task t + s.tokens fn u) (s'.tokens fn) s s' := by
  obtain ⟨hn, hf⟩ := taskStep_frame ht h
  have move : (∀ u, s'.weigh (tokenWeight fn u) = (tokenWeight fn u).task t + s.weigh (tokenWeight fn u)) →
      TokenEffect fn (fun u => (tokenWeight fn u).task t + s.tokens fn u) (s'.tokens fn) s s' :=
    fun hw => .move (fun u => by simp only [Sys.tokens, hw, hf]; omega) hf (fun u => hn ▸ le_rfl)
  cases t with
  | main ph =>
    cases ph with
    | start args =>
      simp only [taskStep, mainStep, Option.some.injEq] at h; subst h
      by_cases hk : fn.numKernels = 0
      · refine .drop hk (fun u => ?_) hf hn
        have h0 : (tokenWeight fn u).task (.main (.done [])) = 0 := rfl
        simp only [Sys.tokens, startExecute_weigh, if_pos hk, h0, hf]; omega
      · exact move fun u => by rw [startExecute_weigh, if_neg hk]; exact Nat.add_comm _ _
    | ctor a => cases ht
    | done => cases h
    | _ =>
      simp only [taskStep] at h
      exact move fun u => by
        obtain ⟨ph', hl, e⟩ := mainStep_weigh_later (tokenWeight_executorOnly fn u) h rfl
        rw [e, tokenWeight_later fn u hl, Nat.add_zero]; exact (Nat.zero_add _).symm
  | cont a => cases ht
  | _ =>
    exact move fun u => (taskStep_callback_weigh (tokenWeight_executorOnly fn u) (by rfl) h).trans
      (Nat.zero_add _).symm

/-- A thread step that runs activation `a`. -/
theorem taskStep_act_tokenEffect {fn : BEFFunction} {c : List ResultSpec} {t : Task}
    {a : Activation} {s s' : Sys} (hu : a.cur.Skips fn) (ha : a.cur.Valid fn) (hp : fn.hasPseudo → s.ArgsSet fn)
    (hta : t.act = some a) (h : taskStep fn c t s = some s') :
    TokenEffect fn (fun u => (tokenWeight fn u).task t + s.tokens fn u) (s'.tokens fn) s s' := by
  have hw : ∀ {oa : Option Activation} {s'' : Sys}, a.step fn c s = some (oa, s'') → ∀ u,
      s''.weigh (tokenWeight fn u) = s.weigh (tokenWeight fn u) + a.cur.handedTokens u := by
    intro oa s'' h u
    rw [(Activation.step_executors h).1 _ (tokenWeight_executorOnly fn u),
      handoffWeight_tokenWeight]
  have hU : ∀ u, (tokenWeight fn u).task t + s.tokens fn u =
      a.tokens fn u + unfiredTokens fn s.fires u fn.numKernels + s.weigh (tokenWeight fn u) := by
    intro u
    rw [show (tokenWeight fn u).task t = a.tokens fn u by
      cases t with
      | main ph => cases ph <;> cases hta; rfl
      | cont b => cases hta; rfl
      | _ => cases hta]
    simp only [Sys.tokens]; omega
  cases t with
  | main ph =>
    cases ph <;> cases hta
    simp only [taskStep, mainStep, Option.map_eq_some'] at h
    obtain ⟨⟨oa, s''⟩, ha', rfl⟩ := h
    refine (Activation.step_tokenEffect hu ha hp ha').shift (fun u => s.weigh (tokenWeight fn u))
      hU (fun u => ?_) rfl rfl ?_ ?_ <;> cases oa <;> first | rfl |
      (simp only [Sys.tokens, Sys.weigh_spawn, hw ha', tokenWeight_later, MainPhase.later,
        tokenWeight_ctor, Sys.spawn_fires, Option.map_none', Option.map_some', Option.getD_none,
        Option.getD_some]; omega)
  | cont b =>
    cases hta
    simp only [taskStep, Option.map_eq_some'] at h
    obtain ⟨⟨oa, s''⟩, ha', rfl⟩ := h
    refine (Activation.step_tokenEffect hu ha hp ha').shift (fun u => s.weigh (tokenWeight fn u))
      hU (fun u => ?_) rfl rfl ?_ ?_ <;> cases oa <;> first | rfl |
      (simp only [Sys.tokens, Sys.weigh_spawn, Sys.weigh_dropExec, hw ha', tokenWeight_cont,
        Sys.spawn_fires, Sys.dropExec_fires, Option.map_none', Option.map_some', Option.getD_none,
        Option.getD_some]; omega)
  | _ => cases hta

/-- **What a step does to the tokens**, along a run of a well-formed function. -/
theorem Step.tokenEffect {fn : BEFFunction} {args : List Nat} {s s' : Sys} (hwf : fn.WellFormed)
    (hr : Reachable fn args s) (h : Step fn s s') : TokenEffect fn (s.tokens fn) (s'.tokens fn) s s' := by
  cases h with
  | env e h =>
    obtain ⟨hn, hf⟩ := envStep_frame h
    exact .move (fun u => by simp only [Sys.tokens, envStep_weigh (tokenWeight_executorOnly fn u) h, hf])
      hf (fun u => hn ▸ le_rfl)
  | @task t rest c ht h =>
    have hw : ∀ u, s.tokens fn u =
        (tokenWeight fn u).task t + ({ s with tasks := rest } : Sys).tokens fn u := fun u => by
      rw [Sys.tokens, Sys.weigh_cons ht, Nat.add_assoc]; rfl
    have e : TokenEffect fn (fun u => (tokenWeight fn u).task t + ({ s with tasks := rest } : Sys).tokens fn u)
        (s'.tokens fn) { s with tasks := rest } s' := by
      cases hta : t.act with
      | none => exact taskStep_tokenEffect hta h
      | some a =>
        have hra := Sys.runs_of_tasks ht hta
        have hp : fn.hasPseudo → s.ArgsSet fn := hr.argsSet_of_runs hwf hra
        exact taskStep_act_tokenEffect (hr.skips hwf a hra) (hr.valid hwf a hra) hp hta h
    exact e.shift (fun _ => 0) (fun u => hw u) (fun _ => rfl) rfl rfl rfl rfl

/-! ## The tokens before `Execute` -/

/-- `Execute` reads the pseudo-kernel exactly when it has arguments. -/
theorem hasArgs_eq {fn : BEFFunction} {args : List Nat} (hl : args.length = fn.numArguments) :
    decide (args ≠ []) = fn.hasPseudo := by
  cases args <;> simp [BEFFunction.hasPseudo, ← hl]

/-- The constructor's worklist names every kernel of the function once, the pseudo-kernel left
out. -/
theorem bootstrap_ids_count (fn : BEFFunction) (u : Nat) :
    (bootstrap fn fn.hasPseudo).ids.count u = if fn.Real u then 1 else 0 := by
  by_cases hp : fn.hasPseudo
  · have hr : fn.Real u ↔ 1 ≤ u ∧ u < 1 + (fn.numKernels - 1) := by
      simp only [BEFFunction.Real, BEFFunction.isPseudo, hp, Bool.true_and, beq_eq_false_iff_ne]
      omega
    rw [bootstrap, if_pos hp]; dsimp only; rw [List.tail_range]
    split_ifs with h
    · exact List.count_eq_one_of_mem (List.nodup_range' _ _) (List.mem_range'_1.2 (hr.1 h))
    · exact List.count_eq_zero_of_not_mem fun hm => h (hr.2 (List.mem_range'_1.1 hm))
  · have hr : fn.Real u ↔ u < fn.numKernels := by
      simp [BEFFunction.Real, BEFFunction.isPseudo, hp]
    rw [bootstrap, if_neg hp]
    split_ifs with h
    · exact List.count_eq_one_of_mem (List.nodup_range _) (List.mem_range.2 (hr.1 h))
    · exact List.count_eq_zero_of_not_mem fun hm => h (hr.2 (List.mem_range.1 hm))

/-- The tokens of the constructor's first activation: one visit for every kernel of the
function, and the pseudo-kernel's used-by lists. -/
theorem bootstrap_tokens (fn : BEFFunction) (u : Nat) :
    (bootstrap fn fn.hasPseudo).tokens fn u =
      (if fn.Real u then 1 else 0) + if fn.hasPseudo then (fn.kernel 0).pendingFrom true u 0 else 0 := by
  rw [Activation.tokens, bootstrap_ids_count]
  congr 1
  by_cases hp : fn.hasPseudo
  · rw [bootstrap, if_pos hp, if_pos hp]
    split
    · simp [Cursor.tokens, ResultPhase.sliced, ResultPhase.held]
    · rw [BEFKernel.pendingFrom_of_le _ _ (by omega)]; rfl
  · rw [bootstrap, if_neg hp, if_neg hp]; rfl

/-- **The tokens before `Execute`**: one visit for every kernel of the function, and every
used-by entry the executor will read. -/
theorem Initial.tokens {fn : BEFFunction} {args : List Nat} {s : Sys} (h : Initial fn args s)
    (u : Nat) : s.tokens fn u = (if fn.Real u then 1 else 0) + fn.usedByTotal u := by
  have hf : s.fires = fun _ => 0 := funext h.fires
  have hw : s.weigh (tokenWeight fn u) = (bootstrap fn (args ≠ [])).tokens fn u := by
    simp only [Sys.weigh, h.tasks, h.waiting, Multiset.map_singleton, Multiset.sum_singleton,
      Multiset.map_zero, Multiset.sum_zero, Nat.add_zero]
    rfl
  rw [Sys.tokens, hw, hf, hasArgs_eq h.numArguments, bootstrap_tokens, BEFFunction.usedByTotal]
  omega

end BefExecutor
