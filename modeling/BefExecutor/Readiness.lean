/-
# Which kernels pass the readiness gate

Source: `lib/bef_executor/bef_executor.cc`, `DecrementArgumentsNotReadyCounts` (:369-517) and the constructor (:546-564).

`gate_passes_once`, and `pseudo_passes_gate_selfFn`: a malformed stream lets the pseudo-kernel through.
-/
import BefExecutor.Tokens

namespace BefExecutor

/-! ## The loader's layout -/

/-- Each kernel is named in the used-by lists once per argument: the layout the loader gives
a function whose registers each have one producer. -/
def BEFFunction.ArgumentsListed (fn : BEFFunction) : Prop :=
  ∀ u < fn.numKernels, fn.usedByTotal u = (fn.kernel u).numArguments

/-- Decidable, so that a concrete function can be checked by `decide`. -/
instance (fn : BEFFunction) : Decidable fn.ArgumentsListed :=
  inferInstanceAs (Decidable (∀ u < fn.numKernels, _))

/-- `rank` grows along every used-by entry from a kernel of the function to another. -/
def BEFFunction.RankedBy (fn : BEFFunction) (rank : Nat → Nat) : Prop :=
  ∀ k < fn.numKernels, ∀ i < (fn.kernel k).numResults, ∀ u ∈ (fn.kernel k).usedBysOf false i,
    fn.isPseudo k = false → fn.Real u → rank k < rank u

/-- Decidable, so that a concrete ranking can be checked by `decide`. -/
instance (fn : BEFFunction) (rank : Nat → Nat) : Decidable (fn.RankedBy rank) :=
  inferInstanceAs (Decidable (∀ k < fn.numKernels, ∀ i < (fn.kernel k).numResults,
    ∀ u ∈ (fn.kernel k).usedBysOf false i, fn.isPseudo k = false → fn.Real u → rank k < rank u))

/-- No kernel waits, through the used-by lists, on itself. -/
def BEFFunction.Acyclic (fn : BEFFunction) : Prop := ∃ rank, fn.RankedBy rank

/-! ## Quiescence -/

/-- A thread with kernels still to visit: `Execute` up to its constructor's loop, or a
continuation. -/
def Task.firing : Task → Bool
  | .main (.start _) | .main (.ctor _) | .cont _ => true
  | _ => false

/-- Nothing is left of the firing loops: no thread has kernels to visit, and no `ProcessUsedBys`
closure is still registered. -/
def Sys.Quiescent (s : Sys) : Prop :=
  (∀ t ∈ s.tasks, t.firing = false) ∧ ∀ p ∈ s.waiting, (p.2.task p.1).firing = false

/-- Decidable, so that a concrete state can be checked by `decide`. -/
instance (s : Sys) : Decidable s.Quiescent := inferInstanceAs (Decidable (_ ∧ _))

/-- A thread outside the firing loop holds no tokens. -/
theorem tokenWeight_of_firing (fn : BEFFunction) (u : Nat) {t : Task} (h : t.firing = false) :
    (tokenWeight fn u).task t = 0 := by
  cases t with
  | main ph => cases ph <;> first | rfl | cases h
  | cont a => cases h
  | _ => rfl

/-- A quiescent state holds no token. -/
theorem Sys.Quiescent.tokens {s : Sys} (hq : s.Quiescent) (fn : BEFFunction) (u : Nat) :
    s.weigh (tokenWeight fn u) = 0 := by
  have h1 : (s.tasks.map (tokenWeight fn u).task).sum = 0 := Multiset.sum_eq_zero fun x hx => by
    obtain ⟨t, ht, rfl⟩ := Multiset.mem_map.1 hx
    exact tokenWeight_of_firing fn u (hq.1 t ht)
  have h2 : (s.waiting.map (tokenWeight fn u).waiter).sum = 0 := Multiset.sum_eq_zero fun x hx => by
    obtain ⟨p, hp, rfl⟩ := Multiset.mem_map.1 hx
    rw [← (tokenWeight fn u).run]
    exact tokenWeight_of_firing fn u (hq.2 p hp)
  rw [Sys.weigh, h1, h2]

/-! ## The token invariant -/

/-- The tokens of a kernel whose gate is closed cover its count, and no token is left for the
pseudo-kernel. -/
structure TokenInv (fn : BEFFunction) (s : Sys) : Prop where
  bound : ∀ u, fn.Real u → s.fires u = 0 → s.notReady u ≤ s.tokens fn u
  pseudo : fn.hasPseudo → s.tokens fn 0 = 0 ∧ s.fires 0 = 0

section Invariant

variable {fn : BEFFunction} (hwf : fn.WellFormed) (hl : fn.ArgumentsListed)
include hwf hl

/-- The token invariant holds before `Execute`. -/
theorem Initial.tokenInv {args : List Nat} {s : Sys} (h : Initial fn args s) : TokenInv fn s where
  bound u hu _ := by rw [h.tokens, if_pos hu, h.notReady, hl u hu.1]; omega
  pseudo hp := by
    obtain ⟨hk, ha⟩ := hwf.pseudoKernel hp
    have hr : ¬ fn.Real 0 := fun hr => by
      have := hr.2; rw [BEFFunction.isPseudo_zero hp] at this; cases this
    exact ⟨by rw [h.tokens, if_neg hr, hl 0 hk, ha], h.fires 0⟩

/-- The used-by lists of the kernels hold no entry for the pseudo-kernel. -/
theorem pendingFrom_pseudo_eq_zero (hp : fn.hasPseudo) {k : Nat} (hk : k < fn.numKernels)
    (hpk : fn.isPseudo k = false) : (fn.kernel k).pendingFrom false 0 0 = 0 := by
  obtain ⟨h0, ha⟩ := hwf.pseudoKernel hp
  have e := hl 0 h0
  rw [ha, BEFFunction.usedByTotal] at e
  have : (fn.kernel k).pendingFrom false 0 0 ≤ unfiredTokens fn (fun _ => 0) 0 fn.numKernels :=
    pendingFrom_le_unfiredTokens hk rfl hpk
  omega

/-- **Every step keeps the token invariant.** -/
theorem TokenEffect.tokenInv {s s' : Sys} (e : TokenEffect fn (s.tokens fn) (s'.tokens fn) s s')
    (hs : TokenInv fn s) : TokenInv fn s' := by
  cases e with
  | move ht hf hn =>
    exact ⟨fun u hu h0 => ht u ▸ (hn u).trans (hs.bound u hu (hf ▸ h0)),
      fun hp => ⟨(ht 0).trans (hs.pseudo hp).1, hf ▸ (hs.pseudo hp).2⟩⟩
  | pop k ht hf hn =>
    refine ⟨fun u hu h0 => ?_, fun hp => ⟨?_, hf ▸ (hs.pseudo hp).2⟩⟩
    · have h1 := ht u; have h2 := hn u; have h3 := hs.bound u hu (hf ▸ h0); have := hu.1
      split_ifs at h1 h2 <;> omega
    · have := ht 0; have := (hs.pseudo hp).1; omega
  | fire k hk h1 hpos ht hf hn =>
    refine ⟨fun u hu h0 => ?_, fun hp => ?_⟩
    · have hku : u ≠ k := fun huk => by subst huk; simp [hf] at h0
      rw [hf, Function.update_noteq hku] at h0
      have h2 := ht u; have h3 := hs.bound u hu h0
      rw [hn, Function.update_noteq hku]; rw [if_neg hku] at h2; omega
    · obtain ⟨ht0, hf0⟩ := hs.pseudo hp
      have hk0 : k ≠ 0 := fun hk0 => by subst hk0; omega
      have h2 := ht 0
      rw [if_neg (Ne.symm hk0), pendingFrom_pseudo_eq_zero hwf hl hp hk (BEFFunction.isPseudo_of_ne hk0)] at h2
      refine ⟨by split_ifs at h2 <;> omega, ?_⟩
      rw [hf, Function.update_noteq (Ne.symm hk0), hf0]
  | drop hk ht hf hn =>
    exact ⟨fun u hu => absurd hu.1 (by omega),
      fun hp => ⟨by have := ht 0; have := (hs.pseudo hp).1; omega, hf ▸ (hs.pseudo hp).2⟩⟩

/-- The token invariant holds in every reachable state. -/
theorem Reachable.tokenInv {args : List Nat} {s : Sys} (h : Reachable fn args s) : TokenInv fn s := by
  induction h with
  | init h => exact h.tokenInv hwf hl
  | step hr hst ih => exact (hst.tokenEffect hwf hr).tokenInv hwf hl ih

/-- **The pseudo-kernel never passes its gate.** -/
theorem Reachable.pseudo_closed {args : List Nat} {s : Sys} (h : Reachable fn args s)
    (hp : fn.hasPseudo) : s.fires 0 = 0 :=
  ((h.tokenInv hwf hl).pseudo hp).2

/-- **At quiescence every kernel has passed its gate**, in a function without cycles. -/
theorem Reachable.fires_of_quiescent (hac : fn.Acyclic) {args : List Nat} {s : Sys}
    (h : Reachable fn args s) (hq : s.Quiescent) (u : Nat) (hu : fn.Real u) : s.fires u = 1 := by
  obtain ⟨rank, hrank⟩ := hac
  have inv := h.tokenInv hwf hl
  obtain ⟨r, hr⟩ : ∃ r, rank u = r := ⟨_, rfl⟩
  induction r using Nat.strong_induction_on generalizing u with
  | _ r ih =>
    rcases h.gate u with ⟨h0, h1⟩ | ⟨h1, -⟩
    · have hz : s.tokens fn u = 0 := by
        rw [Sys.tokens, hq.tokens, Nat.zero_add]
        refine unfiredTokens_eq_zero fun k hk hfk hpk =>
          BEFKernel.pendingFrom_eq_zero false u fun i hi hm => ?_
        have := ih (rank k) (hr ▸ hrank k hk i hi u hm hpk hu) k ⟨hk, hpk⟩ rfl
        omega
      have := inv.bound u hu h0
      omega
    · exact h1

end Invariant

/-! ## The gate, kernel by kernel -/

/-- **The readiness gate, kernel by kernel.** In every reachable state, for any kernel stream,
each kernel's `fetch_sub` has returned `1` at most once. For a well-formed function laid out as
the loader does, the pseudo-kernel's never does; and once nothing of the firing loops is left,
in a function without cycles, every other kernel's has, exactly once. -/
theorem gate_passes_once {fn : BEFFunction} {args : List Nat} {s : Sys} (h : Reachable fn args s) :
    (∀ k, s.fires k ≤ 1) ∧
    (fn.WellFormed → fn.ArgumentsListed → fn.hasPseudo → s.fires 0 = 0) ∧
    (fn.WellFormed → fn.ArgumentsListed → fn.Acyclic → s.Quiescent →
      ∀ u, fn.Real u → s.fires u = 1) :=
  ⟨gate_opens_at_most_once h, fun hwf hl => h.pseudo_closed hwf hl,
    fun hwf hl hac hq => h.fires_of_quiescent hwf hl hac hq⟩

/-- `copyFn` run to the end: the pseudo-kernel stayed closed and kernel `1` passed once. -/
theorem gate_passes_once_copyDone :
    copyFn.WellFormed ∧ copyFn.ArgumentsListed ∧ copyFn.Acyclic ∧ copyDone.Quiescent ∧
      copyFn.hasPseudo ∧ copyFn.Real 1 ∧ copyDone.fires 0 = 0 ∧ copyDone.fires 1 = 1 :=
  have hl : copyFn.ArgumentsListed := by decide
  have hac : copyFn.Acyclic := ⟨id, by decide⟩
  have hq : copyDone.Quiescent := by decide
  have hr : copyFn.Real 1 := by decide
  ⟨copyFn_wellFormed, hl, hac, hq, rfl, hr,
    (gate_passes_once copyDone_reachable).2.1 copyFn_wellFormed hl rfl,
    (gate_passes_once copyDone_reachable).2.2 copyFn_wellFormed hl hac hq 1 hr⟩

/-- The pseudo-kernel of `copyFn` with its one used-by entry naming kernel `0`, not `1`. -/
def selfArgs : BEFKernel := { copyArgs with body := [0, 0] }

/-- `copyFn` with the malformed pseudo-kernel `selfArgs`. -/
def selfFn : BEFFunction := { copyFn with kernel := fun k => if k = 0 then selfArgs else copyKernel }

/-- `copyInit` is also an initial state of `selfFn`. -/
theorem copyInit_initial_selfFn : Initial selfFn [0] copyInit :=
  { copyInit_initial with notReady := fun k => by by_cases hk : k = 0 <;> simp [copyInit, selfFn, copyFn, hk, selfArgs] }

/-- The constructor processes the argument, whose used-by entry pushes kernel `0`, and pops it. -/
def selfRun : List Sched :=
  [.task (.main (.start [0])) [],
   .task (.main (.ctor ⟨[1], .result 0 true [] 0 1 .begin⟩)) [],
   .task (.main (.ctor ⟨[1], .result 0 true [] 0 1 (.dispatch 0 false)⟩)) [],
   .task (.main (.ctor ⟨[0, 1], .idle⟩)) []]

/-- The run `selfRun` can be taken. -/
theorem selfRun_isSome : (runSched selfFn selfRun copyInit).isSome := by decide

/-- **A malformed stream lets the pseudo-kernel through its gate.** `selfFn` meets
`WellFormed`, but its pseudo-kernel names itself as the user of the argument. -/
theorem pseudo_passes_gate_selfFn :
    selfFn.WellFormed ∧ ¬ selfFn.ArgumentsListed ∧ selfFn.hasPseudo ∧
      ∃ s, Reachable selfFn [0] s ∧ s.fires 0 = 1 :=
  ⟨⟨fun _ _ _ _ h => absurd h Nat.one_ne_zero, by decide, fun _ => ⟨rfl, by decide⟩,
      fun _ => ⟨by decide, rfl⟩, fun _ => ⟨rfl, rfl⟩⟩, by decide, rfl, _,
    (Reachable.init copyInit_initial_selfFn).runSched (Option.some_get selfRun_isSome).symm, by decide⟩

end BefExecutor
