/-
# Where an activation can be

Source: `lib/bef_executor/bef_executor.cc`, The positions of `DecrementArgumentsNotReadyCounts` (:369-517) and `ProcessArgumentsPseudoKernel` (:324-354).

`Activation.step_valid`: a step keeps an activation at a valid position, on a record that meets the results loops' side condition.
-/
import BefExecutor.Frame
import BefExecutor.Gate

namespace BefExecutor

/-! ## The positions of a valid activation -/

/-- Where a kernel's used-by lists start: past its entries up to the results, or for the
argument pseudo-kernel past its result registers. -/
def BEFKernel.usedByBase (k : BEFKernel) (pseudo : Bool) : Nat :=
  if pseudo then k.numResults else k.usedByStart

/-- The used-by entries of result `i`. -/
def BEFKernel.usedBysOf (k : BEFKernel) (pseudo : Bool) (i : Nat) : List Nat :=
  k.usedByList (k.usedByBase pseudo) i

/-- The registers a kernel's results are written to. -/
def BEFKernel.resultRegs (k : BEFKernel) (pseudo : Bool) : List Nat :=
  if pseudo then k.pseudoResults else k.results

/-- Kernel `k` is the argument pseudo-kernel. -/
def BEFFunction.isPseudo (fn : BEFFunction) (k : Nat) : Bool := fn.hasPseudo && k == 0

/-- Kernel `0` of a function with arguments is the pseudo-kernel. -/
theorem BEFFunction.isPseudo_zero {fn : BEFFunction} (hp : fn.hasPseudo) : fn.isPseudo 0 = true := by
  simp [BEFFunction.isPseudo, hp]

/-- No kernel other than `0` is the pseudo-kernel. -/
theorem BEFFunction.isPseudo_of_ne {fn : BEFFunction} {k : Nat} (hk : k ≠ 0) :
    fn.isPseudo k = false := by
  simp [BEFFunction.isPseudo, hk]

/-- The results loops' side condition for each kernel of the function, in the reading the code
gives it: `ProcessArgumentsPseudoKernel`'s (:338-352) for the pseudo-kernel, the ordinary one of
`DecrementArgumentsNotReadyCounts` (:483-514) for the others. -/
def BEFFunction.UnusedSkipped (fn : BEFFunction) : Prop :=
  ∀ k < fn.numKernels,
    (fn.kernel k).UnusedHaveNoUsedBys fn.userCount ((fn.kernel k).resultRegs (fn.isPseudo k))

/-- Decidable, so that a concrete function can be checked by `decide`. -/
instance (fn : BEFFunction) : Decidable fn.UnusedSkipped :=
  inferInstanceAs (Decidable (∀ k < fn.numKernels, _))

/-- The side condition for the kernel record a results loop walks, in the reading it takes. -/
def Cursor.Skips (fn : BEFFunction) : Cursor → Prop
  | .result k pseudo _ _ _ _ =>
    (fn.kernel k).UnusedHaveNoUsedBys fn.userCount ((fn.kernel k).resultRegs pseudo)
  | _ => True

/-- The phases after `ProcessUsedBys` has taken result `i`'s slice and moved the offset. -/
def ResultPhase.sliced : ResultPhase → Bool
  | .accelerate .. | .andThen .. | .dropPlaceholder _ => true
  | _ => false

/-- What a phase holds: the drop of an unused result and `SetRegisterValue` belong to a real
kernel, and an unused result has no used-bys; the slice being accelerated or handed off is
the result's used-by list, and acceleration has a suffix of it left. -/
def ResultPhase.Holds (k : BEFKernel) (pseudo : Bool) (i : Nat) : ResultPhase → Prop
  | .unusedDrop => pseudo = false ∧ k.numUsedBys i = 0
  | .setCas | .setRevert _ | .setForward _ => pseudo = false
  | .accelerate _ _ pending usedBys => usedBys = k.usedBysOf pseudo i ∧ pending <:+ usedBys
  | .andThen _ _ usedBys => usedBys = k.usedBysOf pseudo i
  | _ => True

/-- Decidable, so that a concrete position can be checked by `decide`. -/
instance (k : BEFKernel) (pseudo : Bool) (i : Nat) : DecidablePred (ResultPhase.Holds k pseudo i)
  | .unusedDrop | .accelerate _ _ _ _ => inferInstanceAs (Decidable (_ ∧ _))
  | .setCas | .setRevert _ | .setForward _ | .andThen _ _ _ => inferInstanceAs (Decidable (_ = _))
  | .begin | .dispatch _ _ | .dropPlaceholder _ => inferInstanceAs (Decidable True)

/-- A valid position of an activation. -/
def Cursor.Valid (fn : BEFFunction) : Cursor → Prop
  | .idle | .gated _ => True
  | .bindLoad k bound _ | .bindCas k bound _ => bound.length < (fn.kernel k).numArguments
  | .bindCheck k bound _ => bound.length ≤ (fn.kernel k).numArguments
  | .ready k bound _ => bound.length = (fn.kernel k).numArguments
  | .dropArg k bound j frame =>
    j < bound.length ∧ bound.length = (fn.kernel k).numArguments ∧
      frame.length = (fn.kernel k).numResults
  | .result k pseudo frame i off ph =>
    i < (fn.kernel k).numResults ∧
      (if pseudo then k = 0 ∧ fn.hasPseudo else frame.length = (fn.kernel k).numResults) ∧
      off = (fn.kernel k).usedByBase pseudo +
        (fn.kernel k).usedByPrefix (if ph.sliced then i + 1 else i) ∧
      ph.Holds (fn.kernel k) pseudo i

/-- Decidable, so that a concrete position can be checked by `decide`. -/
instance (fn : BEFFunction) : DecidablePred (Cursor.Valid fn)
  | .idle | .gated _ => inferInstanceAs (Decidable True)
  | .bindLoad _ _ _ | .bindCas _ _ _ => inferInstanceAs (Decidable (_ < _))
  | .bindCheck _ _ _ => inferInstanceAs (Decidable (_ ≤ _))
  | .ready _ _ _ => inferInstanceAs (Decidable (_ = _))
  | .dropArg _ _ _ _ => inferInstanceAs (Decidable (_ ∧ _))
  | .result _ _ _ _ _ _ => inferInstanceAs (Decidable (_ ∧ _))

/-! ## Each step keeps an activation valid -/

/-- A kernel fills one frame slot per result it returns. -/
theorem invoke_length (bound : List Nat) (c : List ResultSpec) (s : Sys) :
    (s.invoke bound c).1.length = c.length := by
  induction c generalizing s with
  | nil => rfl
  | cons r c ih => cases r <;> simp [Sys.invoke, ih]

section Positions

variable {fn : BEFFunction} {k : Nat} {pseudo : Bool} {frame : List Nat} {i off : Nat}

/-- Binding an argument leads to a valid position. -/
theorem afterBind_valid {bound : List Nat} (anyErr : Option Nat)
    (h : bound.length ≤ (fn.kernel k).numArguments) : (afterBind fn k bound anyErr).Valid fn := by
  unfold afterBind; split
  · exact ‹_›
  · show _ = _; omega

/-- Moving past result `i` with the offset at result `i + 1`'s entries. -/
theorem nextResult_valid
    (hf : if pseudo then k = 0 ∧ fn.hasPseudo else frame.length = (fn.kernel k).numResults)
    (ho : off = (fn.kernel k).usedByBase pseudo + (fn.kernel k).usedByPrefix (i + 1)) :
    (nextResult fn k pseudo frame i off).Valid fn := by
  unfold nextResult; split
  · exact ⟨‹_›, hf, ho, trivial⟩
  · trivial

/-- Past `ProcessUsedBys` of a result, the position is valid. -/
theorem afterDispatch_valid {rv : Nat} {set : Bool} (hi : i < (fn.kernel k).numResults)
    (hf : if pseudo then k = 0 ∧ fn.hasPseudo else frame.length = (fn.kernel k).numResults)
    (ho : off = (fn.kernel k).usedByBase pseudo + (fn.kernel k).usedByPrefix (i + 1)) :
    (afterDispatch fn k pseudo frame i off rv set).Valid fn := by
  unfold afterDispatch; split
  · exact ⟨hi, hf, ho, trivial⟩
  · exact nextResult_valid hf ho

/-- Publishing a full frame starts at a valid position. -/
theorem publishFrom_valid (hf : frame.length = (fn.kernel k).numResults) :
    (publishFrom fn k frame).Valid fn := by
  unfold publishFrom; split
  · exact ⟨‹_›, hf, rfl, trivial⟩
  · trivial

/-- The offset at result `i`'s entries moves, by their count, to result `i + 1`'s. -/
theorem offset_succ {k : BEFKernel} (h : off = k.usedByBase pseudo + k.usedByPrefix i) :
    off + k.numUsedBys i = k.usedByBase pseudo + k.usedByPrefix (i + 1) := by
  rw [h, BEFKernel.usedByPrefix_succ, Nat.add_assoc]

end Positions

/-- The argument registers `ProcessArgumentsPseudoKernel` reads are set, for every result it
does not skip. -/
def Sys.ArgsSet (fn : BEFFunction) (s : Sys) : Prop :=
  ∀ i < (fn.kernel 0).numResults, fn.userCount ((fn.kernel 0).pseudoResults.getD i 0) ≠ 0 →
    s.regs ((fn.kernel 0).pseudoResults.getD i 0) ≠ none

/-- **Each step keeps an activation valid**, when the pseudo-kernel finds its registers set. -/
theorem Activation.step_valid {fn : BEFFunction} {c : List ResultSpec} {a a' : Activation}
    {s s' : Sys} (hu : a.cur.Skips fn) (ha : a.cur.Valid fn) (h : a.step fn c s = some (some a', s'))
    (hp : fn.hasPseudo → s.ArgsSet fn) : a'.cur.Valid fn := by
  rcases a with ⟨ids, cur⟩
  cases cur with
  | idle =>
    cases ids with
    | nil => simp [Activation.step] at h
    | cons k ids =>
      simp only [Activation.step, Option.some.injEq, Prod.map, Activation.stepPop,
        Prod.mk.injEq] at h
      obtain ⟨rfl, rfl⟩ := h
      (repeat' split) <;> trivial
  | gated k =>
    simp only [Activation.step, Option.some.injEq, Prod.map, Activation.stepGated,
      Prod.mk.injEq] at h
    obtain ⟨rfl, rfl⟩ := h
    exact afterBind_valid _ (Nat.zero_le _)
  | bindLoad k bound anyErr =>
    simp only [Activation.step, Option.some.injEq, Prod.map, Activation.stepBindLoad,
      Prod.mk.injEq] at h
    obtain ⟨rfl, rfl⟩ := h
    split
    · show (bound ++ [_]).length ≤ _; simp only [List.length_append, List.length_singleton]
      exact ha
    · exact ha
  | bindCas k bound anyErr =>
    simp only [Activation.step, Option.some.injEq, Prod.map, Activation.stepBindCas,
      Sys.getOrCreateRegisterValue, Prod.mk.injEq] at h
    obtain ⟨rfl, rfl⟩ := h
    split <;> (show (bound ++ [_]).length ≤ _; simp only [List.length_append, List.length_singleton]
               exact ha)
  | bindCheck k bound anyErr =>
    simp only [Activation.step, Option.some.injEq, Prod.map, Activation.stepBindCheck,
      Prod.mk.injEq] at h
    obtain ⟨rfl, rfl⟩ := h
    exact afterBind_valid _ ha
  | ready k bound anyErr =>
    simp only [Activation.step, Activation.stepReady, Option.map_eq_some'] at h
    obtain ⟨p, hp, hq⟩ := h
    simp only [Prod.map, Prod.mk.injEq, Option.some.injEq] at hq
    obtain ⟨rfl, rfl⟩ := hq
    have next : ∀ frame : List Nat, frame.length = (fn.kernel k).numResults →
        (if bound = [] then publishFrom fn k frame else Cursor.dropArg k bound 0 frame).Valid fn := by
      intro frame hfr; split
      · exact publishFrom_valid hfr
      · exact ⟨List.length_pos.mpr ‹_›, ha, hfr⟩
    split at hp
    · split at hp
      · cases hp; exact next _ ((invoke_length _ _ _).trans ‹_ ∧ _›.1)
      · cases hp
    · cases hp; exact next _ (List.length_replicate _ _)
  | dropArg k bound j frame =>
    simp only [Activation.step, Option.some.injEq, Prod.map, Activation.stepDropArg,
      Prod.mk.injEq] at h
    obtain ⟨rfl, rfl⟩ := h
    obtain ⟨-, hb, hfr⟩ := ha
    split
    · exact ⟨‹_›, hb, hfr⟩
    · exact publishFrom_valid hfr
  | result k pseudo frame i off ph =>
    obtain ⟨hi, hfr, hoff, hph⟩ := ha
    simp only [Activation.step, Option.some.injEq, Prod.map, Prod.mk.injEq] at h
    obtain ⟨rfl, rfl⟩ := h
    cases ph with
    | begin =>
      replace hoff : off = (fn.kernel k).usedByBase pseudo + (fn.kernel k).usedByPrefix i := hoff
      have hnext := offset_succ hoff
      cases pseudo
      · simp only [Activation.stepResult, Activation.stepBegin, Bool.false_eq_true, ↓reduceIte]
        split
        · exact ⟨hi, hfr, hoff, rfl, hu i hi ‹_›⟩
        · exact ⟨hi, hfr, hoff, rfl⟩
      · have hk : k = 0 ∧ fn.hasPseudo := hfr
        obtain ⟨rfl, hps⟩ := hk
        simp only [Activation.stepResult, Activation.stepBegin, ↓reduceIte]
        split
        · exact nextResult_valid hfr (by rw [← hnext, hu i hi ‹_›, Nat.add_zero])
        · split
          · exact ⟨hi, hfr, hoff, trivial⟩
          · exact absurd ‹_› (hp hps i hi ‹_›)
    | unusedDrop =>
      obtain ⟨rfl, hn⟩ := hph
      replace hoff : off = (fn.kernel k).usedByBase false + (fn.kernel k).usedByPrefix i := hoff
      exact nextResult_valid hfr (by rw [← offset_succ hoff, hn, Nat.add_zero])
    | setCas =>
      cases hph
      dsimp only [Activation.stepResult, Activation.stepSetCas]
      split
      exacts [⟨hi, hfr, hoff, trivial⟩, ⟨hi, hfr, hoff, rfl⟩]
    | setRevert e => cases hph; exact ⟨hi, hfr, hoff, rfl⟩
    | setForward e => cases hph; exact ⟨hi, hfr, hoff, trivial⟩
    | dispatch rv set =>
      replace hoff : off = (fn.kernel k).usedByBase pseudo + (fn.kernel k).usedByPrefix i := hoff
      have hnext := offset_succ hoff
      have hub : (fn.kernel k).getKernelEntries off ((fn.kernel k).numUsedBys i) =
          (fn.kernel k).usedBysOf pseudo i := by rw [hoff]; rfl
      dsimp only [Activation.stepResult, Activation.stepDispatch]
      split
      · rename_i hn
        exact afterDispatch_valid hi hfr (by rw [← hnext, hn, Nat.add_zero])
      · split
        · exact ⟨hi, hfr, hnext, hub, List.suffix_refl _⟩
        · split
          · exact afterDispatch_valid hi hfr hnext
          · exact ⟨hi, hfr, hnext, hub⟩
    | accelerate rv set pending usedBys =>
      obtain ⟨hub, hsuf⟩ := hph
      cases pending with
      | nil => exact afterDispatch_valid hi hfr hoff
      | cons u rest => exact ⟨hi, hfr, hoff, hub, (List.suffix_cons u rest).trans hsuf⟩
    | andThen rv set usedBys => exact afterDispatch_valid hi hfr hoff
    | dropPlaceholder rv => exact nextResult_valid hfr hoff

/-! ## The kernel an activation works on -/

/-- The kernel an activation works on past its gate; the argument pseudo-kernel is none. -/
def Cursor.kernel : Cursor → Option Nat
  | .idle => none
  | .gated k | .bindLoad k _ _ | .bindCas k _ _ | .bindCheck k _ _ | .ready k _ _
  | .dropArg k _ _ _ => some k
  | .result k pseudo _ _ _ _ => if pseudo then none else some k

/-- A step from `c` to `c'` stays on `c`'s kernel or leaves it. -/
def Cursor.Stays (c c' : Cursor) : Prop := c'.kernel = c.kernel ∨ c'.kernel = none

section Positions

variable (fn : BEFFunction) (k : Nat) (pseudo : Bool) (frame : List Nat) (i off : Nat)
  (c : Cursor)

/-- A step within one result stays on its kernel. -/
theorem Cursor.stays_result (ph : ResultPhase) (frame' : List Nat) (i' off' : Nat)
    (ph' : ResultPhase) :
    (Cursor.result k pseudo frame i off ph).Stays (.result k pseudo frame' i' off' ph') :=
  .inl rfl

/-- Moving on to the next result stays on the kernel or returns to the loop head. -/
theorem nextResult_stays (frame' : List Nat) (i' off' : Nat) (ph : ResultPhase) :
    (Cursor.result k pseudo frame' i' off' ph).Stays (nextResult fn k pseudo frame i off) := by
  unfold nextResult; split
  · exact .inl rfl
  · exact .inr rfl

/-- Past `ProcessUsedBys` the activation stays on the kernel or returns to the loop head. -/
theorem afterDispatch_stays (frame' : List Nat) (i' off' : Nat) (ph : ResultPhase) (rv : Nat)
    (set : Bool) :
    (Cursor.result k pseudo frame' i' off' ph).Stays (afterDispatch fn k pseudo frame i off rv set) := by
  unfold afterDispatch; split
  · exact .inl rfl
  · exact nextResult_stays ..

/-- Binding keeps the activation on its kernel. -/
theorem afterBind_kernel (bound : List Nat) (anyErr : Option Nat) :
    (afterBind fn k bound anyErr).kernel = some k := by
  unfold afterBind; split <;> rfl

/-- Publishing stays on the kernel, or returns to the loop head when there are no results. -/
theorem publishFrom_kernel : (publishFrom fn k frame).kernel = some k ∨
    (publishFrom fn k frame).kernel = none := by
  unfold publishFrom; split
  · exact .inl rfl
  · exact .inr rfl

end Positions

/-- **A step past the gate stays on its kernel** and leaves the gate openings alone. -/
theorem Activation.step_stays {fn : BEFFunction} {c : List ResultSpec} {a a' : Activation}
    {s s' : Sys} (h : a.step fn c s = some (some a', s')) (hb : a.cur ≠ .idle)
    (ha : a.cur.Valid fn) : a.cur.Stays a'.cur ∧ s'.fires = s.fires := by
  rcases a with ⟨ids, cur⟩
  cases cur with
  | idle => exact absurd rfl hb
  | ready k bound anyErr =>
    simp only [Activation.step, Activation.stepReady, Option.map_eq_some'] at h
    obtain ⟨p, hp, hq⟩ := h
    simp only [Prod.map, Prod.mk.injEq, Option.some.injEq] at hq
    obtain ⟨rfl, rfl⟩ := hq
    have key : ∀ frame, (Cursor.ready k bound anyErr).Stays
        (if bound = [] then publishFrom fn k frame else .dropArg k bound 0 frame) := fun frame => by
      split
      · exact (publishFrom_kernel fn k frame).imp id id
      · exact .inl rfl
    split at hp
    · split at hp
      · cases hp; exact ⟨key _, (invoke_gate _ _ _).2⟩
      · cases hp
    · cases hp; exact ⟨key _, rfl⟩
  | result k pseudo frame i off ph =>
    have hph := ha.2.2.2
    simp only [Activation.step, Option.some.injEq, Prod.map, Prod.mk.injEq] at h
    obtain ⟨rfl, rfl⟩ := h
    cases ph with
    | unusedDrop => obtain ⟨rfl, -⟩ := hph; exact ⟨nextResult_stays .., rfl⟩
    | setCas =>
      cases hph
      simp only [Activation.stepResult, Activation.stepSetCas]
      (repeat' split) <;> exact ⟨Cursor.stays_result .., rfl⟩
    | setRevert e | setForward e => cases hph; exact ⟨Cursor.stays_result .., rfl⟩
    | _ =>
      cases pseudo <;>
        simp only [Activation.stepResult, Activation.stepBegin, Activation.stepDispatch,
          Activation.stepAccelerate, Activation.stepAndThen, Activation.stepDropPlaceholder,
          Bool.false_eq_true, ↓reduceIte] <;>
        (repeat' split) <;>
        first
        | exact ⟨Cursor.stays_result .., rfl⟩
        | exact ⟨nextResult_stays .., rfl⟩
        | exact ⟨afterDispatch_stays .., rfl⟩
  | dropArg k bound j frame =>
    simp only [Activation.step, Option.some.injEq, Prod.map, Prod.mk.injEq,
      Activation.stepDropArg] at h
    obtain ⟨rfl, rfl⟩ := h
    refine ⟨?_, rfl⟩
    split
    · exact .inl rfl
    · exact (publishFrom_kernel fn k frame).imp id id
  | _ =>
    simp only [Activation.step, Option.some.injEq, Prod.map, Activation.stepGated,
      Activation.stepBindLoad, Activation.stepBindCas, Activation.stepBindCheck, Prod.mk.injEq,
      Sys.getOrCreateRegisterValue] at h
    obtain ⟨rfl, rfl⟩ := h
    all_goals (repeat' split) <;>
      first | exact ⟨.inl rfl, rfl⟩ | exact ⟨.inl (afterBind_kernel ..), rfl⟩

/-- The constructor's first activation is in the pseudo-kernel or at the head of the loop. -/
theorem bootstrap_kernel (fn : BEFFunction) (hasArgs : Bool) : (bootstrap fn hasArgs).cur.kernel = none := by
  unfold bootstrap; split
  · split <;> rfl
  · rfl

end BefExecutor
