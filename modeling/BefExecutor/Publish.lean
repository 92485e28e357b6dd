/-
# Each register is published once

Source: `lib/bef_executor/bef_executor.cc`, `SetRegisterValue` (:109-148) called from `DecrementArgumentsNotReadyCounts` (:486-515).

`register_published_once`, `lost_swap_finds_placeholder`, `forwarded_target_stays`.
-/
import BefExecutor.Placeholders
import BefExecutor.Occupancy
import BefExecutor.Readiness

namespace BefExecutor

/-! ## One producer per register -/

/-- Result `i` of kernel `k` is the only result slot of a kernel of the function that names
register `r`. -/
def BEFFunction.OnlyProducer (fn : BEFFunction) (r k i : Nat) : Prop :=
  ∀ k' < fn.numKernels, ∀ i' < (fn.kernel k').numResults, fn.isPseudo k' = false →
    (fn.kernel k').results.getD i' 0 = r → k' = k ∧ i' = i

/-- Decidable, so that a concrete function can be checked by `decide`. -/
instance (fn : BEFFunction) (r k i : Nat) : Decidable (fn.OnlyProducer r k i) :=
  inferInstanceAs (Decidable (∀ k' < fn.numKernels, ∀ i' < (fn.kernel k').numResults,
    fn.isPseudo k' = false → (fn.kernel k').results.getD i' 0 = r → k' = k ∧ i' = i))

/-- Two result slots of kernels of the function name two registers. -/
def BEFFunction.DistinctResults (fn : BEFFunction) : Prop :=
  ∀ k < fn.numKernels, ∀ i < (fn.kernel k).numResults, fn.isPseudo k = false →
    fn.OnlyProducer ((fn.kernel k).results.getD i 0) k i

/-- No kernel's result is an argument register. -/
def BEFFunction.ResultsPastArguments (fn : BEFFunction) : Prop :=
  ∀ k < fn.numKernels, ∀ i < (fn.kernel k).numResults, fn.isPseudo k = false →
    fn.numArguments ≤ (fn.kernel k).results.getD i 0

/-- Decidable, so that a concrete function can be checked by `decide`. -/
instance (fn : BEFFunction) : Decidable fn.DistinctResults :=
  inferInstanceAs (Decidable (∀ k < fn.numKernels, ∀ i < (fn.kernel k).numResults,
    fn.isPseudo k = false → fn.OnlyProducer ((fn.kernel k).results.getD i 0) k i))

/-- Decidable, so that a concrete function can be checked by `decide`. -/
instance (fn : BEFFunction) : Decidable fn.ResultsPastArguments :=
  inferInstanceAs (Decidable (∀ k < fn.numKernels, ∀ i < (fn.kernel k).numResults,
    fn.isPseudo k = false → fn.numArguments ≤ (fn.kernel k).results.getD i 0))

/-- The loader's register assignment: each register has at most one producer among the kernels,
and the argument registers have none. -/
def BEFFunction.SingleProducers (fn : BEFFunction) : Prop :=
  fn.DistinctResults ∧ fn.ResultsPastArguments

/-- Decidable, so that a concrete function can be checked by `decide`. -/
instance (fn : BEFFunction) : Decidable fn.SingleProducers := inferInstanceAs (Decidable (_ ∧ _))

namespace BEFFunction.SingleProducers

variable {fn : BEFFunction} (h : fn.SingleProducers) {k k' i i' : Nat}
include h

/-- Two results writing one register are the same result of the same kernel. -/
theorem unique (hk : fn.Real k) (hk' : fn.Real k') (hi : i < (fn.kernel k).numResults)
    (hi' : i' < (fn.kernel k').numResults)
    (he : (fn.kernel k).results.getD i 0 = (fn.kernel k').results.getD i' 0) : k = k' ∧ i = i' :=
  h.1 k' hk'.1 i' hi' hk'.2 k hk.1 i hi hk.2 he

/-- No kernel result writes an argument register. -/
theorem notArgument (hk : fn.Real k) (hi : i < (fn.kernel k).numResults) :
    fn.numArguments ≤ (fn.kernel k).results.getD i 0 :=
  h.2 k hk.1 i hi hk.2

end BEFFunction.SingleProducers

/-! ## Unpublished registers -/

namespace Sys

variable (s : Sys)

/-- Register `r` holds `e`, a placeholder made for it that is not forwarded yet. -/
def Awaits (r e : Nat) : Prop :=
  s.regs r = some e ∧ (s.heap e).madeFor = some r ∧ (s.heap e).target = none

/-- Register `r` is not published yet: `SetRegisterValue` was never called on it, and it is null
or holds a placeholder made for it that is not forwarded yet. -/
def Unpublished (r : Nat) : Prop :=
  s.setCalls r = 0 ∧ (s.regs r = none ∨ ∃ e, s.Awaits r e)

/-- A step keeps register `r` as it was: unpublished stays unpublished, and a placeholder waiting
there keeps waiting. -/
def Keeps (s' : Sys) (r : Nat) : Prop :=
  (s.Unpublished r → s'.Unpublished r) ∧ ∀ e, s.Awaits r e → s'.Awaits r e

variable {s} {s' s'' : Sys} {r : Nat}

/-- Keeping a register composes along a run. -/
theorem Keeps.trans (h : s.Keeps s' r) (h' : s'.Keeps s'' r) : s.Keeps s'' r :=
  ⟨fun hu => h'.1 (h.1 hu), fun e he => h'.2 e (h.2 e he)⟩

/-- A step that leaves register `r`, its count, and the values made for it alone keeps it. -/
theorem keeps_of (hr : s'.regs r = s.regs r) (hc : s'.setCalls r = s.setCalls r)
    (hh : ∀ e, (s.heap e).madeFor = some r →
      (s'.heap e).madeFor = some r ∧ (s'.heap e).target = (s.heap e).target) :
    s.Keeps s' r := by
  have aw : ∀ e, s.Awaits r e → s'.Awaits r e := fun e ⟨h1, h2, h3⟩ =>
    ⟨hr.trans h1, (hh e h2).1, (hh e h2).2.trans h3⟩
  refine ⟨fun ⟨h1, h2⟩ => ⟨hc.trans h1, ?_⟩, aw⟩
  rw [hr]; exact h2.imp id fun ⟨e, he⟩ => ⟨e, aw e he⟩

/-- A calm step that sets no register keeps it. -/
theorem Calm.keeps (hc : s.Calm s') (hs : s.HeapInv) (hr : s'.regs r = s.regs r) :
    s.Keeps s' r :=
  keeps_of hr (congrFun hc.setCalls r) fun e he => by
    have := hc.tags e (.inl (hs.made e r he).1)
    simp only [AsyncValue.tags, Prod.mk.injEq] at this
    exact ⟨this.2.2.2.2.trans he, this.2.2.1⟩

/-- **`GetOrCreateRegisterValue` keeps every register**: a null one gets the placeholder made
for it. -/
theorem keeps_getOrCreateRegisterValue (hs : s.HeapInv) (fn : BEFFunction) (r' r : Nat) :
    s.Keeps (s.getOrCreateRegisterValue fn r').2 r := by
  have old : ∀ e, (s.heap e).madeFor = some r → e ≠ s.next := fun e he h' => by
    have := (hs.made e r he).1; omega
  simp only [Sys.getOrCreateRegisterValue]; split
  · rename_i hn
    by_cases hrr : r = r'
    · subst hrr
      refine ⟨fun ⟨h1, _⟩ => ⟨h1, .inr ⟨s.next, by simp, by simp [Sys.alloc, placeholder],
        by simp [Sys.alloc, placeholder]⟩⟩, fun e he => ?_⟩
      have := he.1; rw [show s.regs r = none from hn] at this; cases this
    · exact keeps_of (Function.update_noteq hrr _ _) rfl fun e he => by
        simp only [Sys.alloc, Function.update_noteq (old e he)]; exact ⟨he, by trivial⟩
  · exact keeps_of rfl rfl fun e he => by
      simp only [Sys.dropRef, Sys.alloc, Function.update_noteq (old e he)]; exact ⟨he, by trivial⟩

/-- `GetOrCreateRegisterValue` calls no `SetRegisterValue`. -/
theorem getOrCreateRegisterValue_setCalls (fn : BEFFunction) (r : Nat) (s : Sys) :
    (s.getOrCreateRegisterValue fn r).2.setCalls = s.setCalls := by
  simp only [Sys.getOrCreateRegisterValue]; split <;> rfl

/-- A placeholder waiting in its register is an unresolved `IndirectAsyncValue`. -/
theorem HeapInv.awaits_unresolved (hs : s.HeapInv) {e : Nat} (ha : s.Awaits r e) :
    (s.heap e).isUnresolvedIndirect = true ∧ (s.heap e).target = none := by
  obtain ⟨-, hi, -, hst⟩ := hs.made e r ha.2.1
  simp [AsyncValue.isUnresolvedIndirect, hi, hst ha.2.2, ha.2.2, AVState.isAvailable]

end Sys

/-! ## What an activation knows of its registers -/

/-- The register `SetRegisterValue`'s swap at this position is on. -/
def Cursor.setsRegister (fn : BEFFunction) : Cursor → Option Nat
  | .result k _ _ i _ .setCas => some ((fn.kernel k).results.getD i 0)
  | _ => none

/-- A position that publishes nothing sets no register. -/
theorem Cursor.setsRegister_of_quiet {fn : BEFFunction} {c : Cursor} (hq : c.quiet) :
    c.setsRegister fn = none := by
  cases c with
  | result k p f i o ph => cases ph <;> first | rfl | cases hq
  | _ => rfl

/-- What publishing result `r`'s register needs at this phase: before the swap, the register is
unpublished; after a lost swap, it holds the placeholder made for it, not yet forwarded. -/
def ResultPhase.Pub (s : Sys) (r : Nat) : ResultPhase → Prop
  | .begin | .setCas => s.Unpublished r
  | .setRevert e | .setForward e => s.Awaits r e
  | _ => True

/-- What an activation knows of its kernel's result registers: the results it has not reached
are unpublished, and the one it is publishing is where its phase says. -/
def Cursor.Pub (fn : BEFFunction) (s : Sys) : Cursor → Prop
  | .gated k | .bindLoad k _ _ | .bindCas k _ _ | .bindCheck k _ _ | .ready k _ _
  | .dropArg k _ _ _ =>
    ∀ i < (fn.kernel k).numResults, s.Unpublished ((fn.kernel k).results.getD i 0)
  | .result k pseudo _ j _ ph => pseudo = false →
    (∀ i < (fn.kernel k).numResults, j < i → s.Unpublished ((fn.kernel k).results.getD i 0)) ∧
      ph.Pub s ((fn.kernel k).results.getD j 0)
  | .idle => True

/-- What an activation knows survives a step that keeps its kernel's registers. -/
theorem Cursor.Pub.keep {fn : BEFFunction} {s s' : Sys} {c : Cursor} (h : c.Pub fn s)
    (hv : c.Valid fn) (hk : ∀ k, c.kernel = some k → ∀ i < (fn.kernel k).numResults,
      s.Keeps s' ((fn.kernel k).results.getD i 0)) : c.Pub fn s' := by
  cases c with
  | idle => trivial
  | result k pseudo frame j off ph =>
    rintro rfl
    obtain ⟨h1, h2⟩ := h rfl
    have hk' := hk k rfl
    refine ⟨fun i hi hj => (hk' i hi).1 (h1 i hi hj), ?_⟩
    cases ph with
    | begin | setCas => exact (hk' j hv.1).1 h2
    | setRevert e | setForward e => exact (hk' j hv.1).2 e h2
    | _ => trivial
  | _ => exact fun i hi => (hk _ rfl i hi).1 (h i hi)

/-- The same for a step that keeps every register. -/
theorem Cursor.Pub.keep_all {fn : BEFFunction} {s s' : Sys} {c : Cursor} (h : c.Pub fn s)
    (hk : ∀ r, s.Keeps s' r) : c.Pub fn s' := by
  cases c with
  | idle => trivial
  | result k pseudo frame j off ph =>
    rintro rfl
    obtain ⟨h1, h2⟩ := h rfl
    refine ⟨fun i hi hj => (hk _).1 (h1 i hi hj), ?_⟩
    cases ph with
    | begin | setCas => exact (hk _).1 h2
    | setRevert e | setForward e => exact (hk _).2 e h2
    | _ => trivial
  | _ => exact fun i hi => (hk _).1 (h i hi)

/-- The register an activation's swap is on is still unpublished. -/
theorem Cursor.Pub.setsRegister {fn : BEFFunction} {s : Sys} {c : Cursor} (h : c.Pub fn s)
    (hv : c.Valid fn) {r : Nat} (hw : c.setsRegister fn = some r) : s.Unpublished r := by
  cases c with
  | result k pseudo frame j off ph =>
    cases ph with
    | setCas =>
      obtain rfl : pseudo = false := hv.2.2.2
      exact Option.some.inj hw ▸ (h rfl).2
    | _ => cases hw
  | _ => cases hw

/-- The value an activation forwards waits, not yet forwarded, in the register it was made for. -/
theorem Cursor.Pub.forwarding {fn : BEFFunction} {s : Sys} {c : Cursor} (h : c.Pub fn s)
    (hv : c.Valid fn) {e : Nat} (he : e ∈ c.forwarding) : ∃ r, s.Awaits r e := by
  cases c with
  | result k pseudo frame j off ph =>
    cases ph with
    | setForward e' =>
      obtain rfl : pseudo = false := hv.2.2.2
      obtain rfl : e' = e := Option.some.inj he
      exact ⟨_, (h rfl).2⟩
    | _ => cases he
  | _ => cases he

section Positions

variable {fn : BEFFunction} {s : Sys} {k : Nat} {frame : List Nat} {j off : Nat}

/-- Past result `j` the publishing invariant holds if the later results are unpublished. -/
theorem nextResult_pub {pseudo : Bool} (h : pseudo = false → ∀ i < (fn.kernel k).numResults,
    j < i → s.Unpublished ((fn.kernel k).results.getD i 0)) :
    (nextResult fn k pseudo frame j off).Pub fn s := by
  unfold nextResult; split
  · exact fun hp => ⟨fun i hi hj => h hp i hi (by omega), h hp _ ‹_› (by omega)⟩
  · trivial

/-- Past `ProcessUsedBys` of result `j` the publishing invariant holds if the later results are unpublished. -/
theorem afterDispatch_pub {pseudo : Bool} (h : pseudo = false → ∀ i < (fn.kernel k).numResults,
    j < i → s.Unpublished ((fn.kernel k).results.getD i 0)) (rv : Nat) (set : Bool) :
    (afterDispatch fn k pseudo frame j off rv set).Pub fn s := by
  unfold afterDispatch; split
  · exact fun hp => ⟨h hp, trivial⟩
  · exact nextResult_pub h

/-- Publishing starts under the invariant when no result is published yet. -/
theorem publishFrom_pub
    (h : ∀ i < (fn.kernel k).numResults, s.Unpublished ((fn.kernel k).results.getD i 0)) :
    (publishFrom fn k frame).Pub fn s := by
  unfold publishFrom; split
  · exact fun _ => ⟨fun i hi _ => h i hi, h 0 ‹_›⟩
  · trivial

/-- Binding is under the invariant when no result is published yet. -/
theorem afterBind_pub {bound : List Nat} (anyErr : Option Nat)
    (h : ∀ i < (fn.kernel k).numResults, s.Unpublished ((fn.kernel k).results.getD i 0)) :
    (afterBind fn k bound anyErr).Pub fn s := by
  unfold afterBind; split <;> exact h

end Positions

/-! ## What an activation step writes -/

section Step

variable {fn : BEFFunction} {c : List ResultSpec} {a : Activation} {s s' : Sys}
  {oa : Option Activation}

/-- **An activation step calls `SetRegisterValue` only at its swap.** -/
theorem Activation.step_setCalls (h : a.step fn c s = some (oa, s')) (r : Nat) :
    s'.setCalls r = s.setCalls r + if a.cur.setsRegister fn = some r then 1 else 0 := by
  cases hq : a.cur.quiet
  · rcases a with ⟨ids, cur⟩
    cases cur with
    | bindCas k bound anyErr =>
      simp only [Activation.step, Option.some.injEq, Prod.map, Activation.stepBindCas,
        Prod.mk.injEq] at h
      obtain ⟨-, rfl⟩ := h
      simp [Cursor.setsRegister, Sys.getOrCreateRegisterValue_setCalls]
    | result k pseudo frame i off ph =>
      simp only [Activation.step, Option.some.injEq, Prod.map, Prod.mk.injEq] at h
      obtain ⟨-, rfl⟩ := h
      cases ph with
      | setCas =>
        dsimp only [Activation.stepResult, Activation.stepSetCas, Cursor.setsRegister]
        by_cases hr : (fn.kernel k).results.getD i 0 = r
        · subst hr; rw [if_pos rfl]; (repeat' split) <;> simp
        · rw [if_neg fun e => hr (Option.some.inj e)]
          (repeat' split) <;> simp only [id_eq, Function.update_noteq (Ne.symm hr), Nat.add_zero]
      | setForward e => simp [Activation.stepResult, Activation.stepSetForward,
          Cursor.setsRegister, Sys.forwardTo]
      | _ => cases hq
    | _ => cases hq
  · rw [(Activation.step_calm h hq).1.setCalls, Cursor.setsRegister_of_quiet hq]; simp

/-- **An activation step keeps every register it does not publish**: a register other than the
one its swap is on, and other than the one the value it forwards was made for. -/
theorem Activation.step_keeps (h : a.step fn c s = some (oa, s')) (hs : s.HeapInv) {r : Nat}
    (hr : a.cur.setsRegister fn ≠ some r)
    (hf : ∀ e ∈ a.cur.forwarding, (s.heap e).madeFor ≠ some r) : s.Keeps s' r := by
  cases hq : a.cur.quiet
  · rcases a with ⟨ids, cur⟩
    cases cur with
    | bindCas k bound anyErr =>
      simp only [Activation.step, Option.some.injEq, Prod.map, Activation.stepBindCas,
        Prod.mk.injEq] at h
      obtain ⟨-, rfl⟩ := h
      exact Sys.keeps_getOrCreateRegisterValue hs fn _ r
    | result k pseudo frame i off ph =>
      simp only [Activation.step, Option.some.injEq, Prod.map, Prod.mk.injEq] at h
      obtain ⟨-, rfl⟩ := h
      cases ph with
      | setCas =>
        have hne : r ≠ (fn.kernel k).results.getD i 0 := fun e => hr (by rw [e]; rfl)
        dsimp only [Activation.stepResult, Activation.stepSetCas]
        (repeat' split) <;> exact Sys.keeps_of (by simp only [id_eq, Function.update_noteq hne])
          (by simp only [id_eq, Function.update_noteq hne]) fun e he => ⟨he, rfl⟩
      | setForward e =>
        have hne := hf e rfl
        exact Sys.keeps_of rfl rfl fun e' he' => by
          have : e' ≠ e := fun h' => hne (h' ▸ he')
          simp only [Activation.stepResult, Activation.stepSetForward, Sys.forwardTo, id_eq,
            Function.update_noteq this]
          exact ⟨he', trivial⟩
      | _ => cases hq
    | _ => cases hq
  · obtain ⟨hc, hreg⟩ := Activation.step_calm h hq
    exact hc.keeps hs (congrFun hreg r)

/-- **An activation's own step keeps what it knows of its registers**, when its kernel names
each register once and a kernel whose gate the step opens has its results unpublished. -/
theorem Activation.step_pub {a' : Activation} (h : a.step fn c s = some (some a', s'))
    (hs : s.HeapInv) (hv : a.cur.Valid fn) (hpub : a.cur.Pub fn s)
    (hdist : ∀ k, a.cur.kernel = some k → ∀ i < (fn.kernel k).numResults,
      ∀ i' < (fn.kernel k).numResults,
        (fn.kernel k).results.getD i 0 = (fn.kernel k).results.getD i' 0 → i = i')
    (hfire : ∀ k, s'.fires k ≠ s.fires k → ∀ i < (fn.kernel k).numResults,
      s.Unpublished ((fn.kernel k).results.getD i 0)) :
    a'.cur.Pub fn s' := by
  have keep : a.cur.setsRegister fn = none → a.cur.forwarding = none → ∀ r, s.Keeps s' r :=
    fun h1 h2 r => Activation.step_keeps h hs (by rw [h1]; nofun) (by rw [h2]; nofun)
  rcases a with ⟨ids, cur⟩
  cases cur with
  | idle =>
    cases ids with
    | nil => simp [Activation.step] at h
    | cons k ids =>
      simp only [Activation.step, Option.some.injEq, Prod.map, Activation.stepPop,
        Prod.mk.injEq] at h
      obtain ⟨rfl, rfl⟩ := h
      (repeat' split) <;> first | trivial | exact fun i hi => hfire k (by simp [*]) i hi
  | ready k bound anyErr =>
    have hk := keep rfl rfl
    simp only [Activation.step, Activation.stepReady, Option.map_eq_some'] at h
    obtain ⟨p, hp, hq⟩ := h
    simp only [Prod.map, Prod.mk.injEq, Option.some.injEq] at hq
    obtain ⟨rfl, rfl⟩ := hq
    have next : ∀ frame, (if bound = [] then publishFrom fn k frame
        else Cursor.dropArg k bound 0 frame).Pub fn p.2 := fun frame => by
      split
      · exact publishFrom_pub fun i hi => (hk _).1 (hpub i hi)
      · exact fun i hi => (hk _).1 (hpub i hi)
    split at hp
    · split at hp
      · cases hp; exact next _
      · cases hp
    · cases hp; exact next _
  | result k pseudo frame j off ph =>
    have later : pseudo = false → ∀ i < (fn.kernel k).numResults, j < i →
        s'.Unpublished ((fn.kernel k).results.getD i 0) := fun hp i hi hji => by
      subst hp
      have hne : (fn.kernel k).results.getD j 0 ≠ (fn.kernel k).results.getD i 0 := fun e =>
        absurd (hdist k rfl j hv.1 i hi e) (by omega)
      refine (Activation.step_keeps h hs ?_ ?_).1 ((hpub rfl).1 i hi hji)
      · cases ph <;> first | exact fun e => hne (Option.some.inj e) | nofun
      · intro e he
        cases ph <;> simp only [Cursor.forwarding, Option.mem_def, reduceCtorEq,
          Option.some.injEq] at he
        subst he
        rw [(hpub rfl).2.2.1]; exact fun e => hne (Option.some.inj e)
    have hp : ph.Holds (fn.kernel k) pseudo j := hv.2.2.2
    simp only [Activation.step, Option.some.injEq, Prod.map, Prod.mk.injEq] at h
    obtain ⟨rfl, hs'⟩ := h
    cases ph with
    | begin =>
      dsimp only [Activation.stepResult, Activation.stepBegin]
      split
      · (repeat' split) <;> first
          | exact fun h => Bool.noConfusion h
          | exact nextResult_pub fun h => Bool.noConfusion h
      · have hf : pseudo = false := by simpa using ‹¬pseudo = true›
        split
        · exact fun _ => ⟨later hf, trivial⟩
        · exact fun _ => ⟨later hf, (keep rfl rfl _).1 (hpub hf).2⟩
    | unusedDrop => exact nextResult_pub fun _ => later hp.1
    | setCas =>
      have hsr : ∀ e, s.regs ((fn.kernel k).results.getD j 0) = some e →
          s'.Awaits ((fn.kernel k).results.getD j 0) e := fun e he => by
        obtain ⟨-, hn | ⟨e', he'⟩⟩ := (hpub hp).2
        · rw [hn] at he; cases he
        · obtain rfl : e' = e := Option.some.inj (he'.1.symm.trans he)
          rw [← hs']; dsimp only [Activation.stepResult, Activation.stepSetCas]
          split
          · rename_i hn; rw [show s.regs _ = none from hn] at he; cases he
          · split <;> exact he'
      dsimp only [Activation.stepResult, Activation.stepSetCas]
      split
      · exact fun _ => ⟨later hp, trivial⟩
      · exact fun _ => ⟨later hp, hsr _ ‹_›⟩
    | setRevert e => exact fun _ => ⟨later hp, (keep rfl rfl _).2 e (hpub hp).2⟩
    | setForward e => exact fun _ => ⟨later hp, trivial⟩
    | dispatch rv set =>
      dsimp only [Activation.stepResult, Activation.stepDispatch]
      (repeat' split) <;> first | exact afterDispatch_pub later _ _ | exact fun hf => ⟨later hf, trivial⟩
    | accelerate rv set pending usedBys =>
      cases pending with
      | nil => exact afterDispatch_pub later _ _
      | cons u rest => exact fun hf => ⟨later hf, trivial⟩
    | andThen rv set usedBys => exact afterDispatch_pub later _ _
    | dropPlaceholder rv => exact nextResult_pub later
  | _ =>
    have hk := keep rfl rfl
    simp only [Activation.step, Option.some.injEq, Prod.map, Activation.stepGated,
      Activation.stepBindLoad, Activation.stepBindCas, Activation.stepBindCheck,
      Activation.stepDropArg, Prod.mk.injEq] at h
    obtain ⟨rfl, -⟩ := h
    all_goals (repeat' split) <;> first
      | exact afterBind_pub _ fun i hi => (hk _).1 (hpub i hi)
      | exact publishFrom_pub fun i hi => (hk _).1 (hpub i hi)
      | exact fun i hi => (hk _).1 (hpub i hi)

/-- What an activation writes is a result register of its own kernel: the one its swap is on,
or the one the placeholder it forwards was made for. -/
theorem Cursor.writes_own {c : Cursor} (hv : c.Valid fn) (hpub : c.Pub fn s) {r : Nat}
    (hw : c.setsRegister fn = some r ∨ ∃ e ∈ c.forwarding, (s.heap e).madeFor = some r) :
    ∃ k, c.kernel = some k ∧ ∃ j < (fn.kernel k).numResults, r = (fn.kernel k).results.getD j 0 := by
  cases c with
  | result k pseudo frame j off ph =>
    cases ph with
    | setCas =>
      obtain rfl : pseudo = false := hv.2.2.2
      rcases hw with hw | ⟨e, he, -⟩
      · exact ⟨k, rfl, j, hv.1, (Option.some.inj hw).symm⟩
      · cases he
    | setForward e =>
      obtain rfl : pseudo = false := hv.2.2.2
      rcases hw with hw | ⟨e', he, hm⟩
      · cases hw
      · obtain rfl : e = e' := Option.some.inj he
        exact ⟨k, rfl, j, hv.1, Option.some.inj (hm.symm.trans (hpub rfl).2.2.1)⟩
    | _ => rcases hw with hw | ⟨e, he, -⟩ <;> first | cases hw | cases he
  | _ => rcases hw with hw | ⟨e, he, -⟩ <;> first | cases hw | cases he

/-- So an activation step keeps every register that is not a result of its kernel. -/
theorem Activation.step_keeps_of_kernel (h : a.step fn c s = some (oa, s')) (hs : s.HeapInv)
    (hv : a.cur.Valid fn) (hpub : a.cur.Pub fn s) {r : Nat}
    (hr : ∀ k, a.cur.kernel = some k → ∀ j < (fn.kernel k).numResults,
      r ≠ (fn.kernel k).results.getD j 0) : s.Keeps s' r := by
  refine Activation.step_keeps h hs (fun hw => ?_) (fun e he hm => ?_)
  · obtain ⟨k, hk, j, hj, rfl⟩ := Cursor.writes_own hv hpub (.inl hw)
    exact hr k hk j hj rfl
  · obtain ⟨k, hk, j, hj, rfl⟩ := Cursor.writes_own hv hpub (.inr ⟨e, he, hm⟩)
    exact hr k hk j hj rfl

end Step

/-! ## Threads and the world -/

/-- Registers, `SetRegisterValue` counts and values equal: every register is kept. -/
theorem Sys.keeps_of_eq {s s' : Sys} (h1 : s'.regs = s.regs) (h2 : s'.setCalls = s.setCalls)
    (h3 : s'.heap = s.heap) (r : Nat) : s.Keeps s' r :=
  keeps_of (congrFun h1 r) (congrFun h2 r) fun e he => by rw [h3]; exact ⟨he, rfl⟩

/-- A thread that runs an activation takes that activation's step, then starts its next phase. -/
theorem taskStep_act {fn : BEFFunction} {c : List ResultSpec} {t : Task} {a : Activation}
    {s s' : Sys} (hta : t.act = some a) (h : taskStep fn c t s = some s') :
    ∃ oa s'', a.step fn c s = some (oa, s'') ∧ s'.regs = s''.regs ∧
      s'.setCalls = s''.setCalls ∧ s'.heap = s''.heap ∧ s'.fires = s''.fires ∧
        s'.assertFailed = s''.assertFailed := by
  cases t with
  | main ph =>
    cases ph with
    | ctor a' =>
      obtain rfl : a' = a := Option.some.inj hta
      simp only [taskStep, mainStep, Option.map_eq_some'] at h
      obtain ⟨⟨oa, s''⟩, ha, rfl⟩ := h
      cases oa <;> exact ⟨_, _, ha, rfl, rfl, rfl, rfl, rfl⟩
    | _ => cases hta
  | cont a' =>
    obtain rfl : a' = a := Option.some.inj hta
    simp only [taskStep, Option.map_eq_some'] at h
    obtain ⟨⟨oa, s''⟩, ha, rfl⟩ := h
    cases oa <;> exact ⟨_, _, ha, rfl, rfl, rfl, rfl, rfl⟩
  | _ => cases hta

/-- A thread that runs no activation calls no `SetRegisterValue`, and keeps every register
except the argument registers `Execute` fills. -/
theorem taskStep_keeps {fn : BEFFunction} {c : List ResultSpec} {t : Task} {s s' : Sys}
    (ht : t.act = none) (h : taskStep fn c t s = some s') (hs : s.HeapInv) :
    s'.setCalls = s.setCalls ∧
      ∀ r, (∀ args, t = .main (.start args) → args.length ≤ r) → s.Keeps s' r := by
  have calm : s.Calm s' → s'.regs = s.regs → s'.setCalls = s.setCalls ∧
      ∀ r, (∀ args, t = .main (.start args) → args.length ≤ r) → s.Keeps s' r :=
    fun hc hr => ⟨hc.setCalls, fun r _ => hc.keeps hs (congrFun hr r)⟩
  cases t with
  | main ph =>
    simp only [taskStep] at h
    cases ph with
    | start args =>
      simp only [mainStep, Option.some.injEq] at h; subst h
      unfold startExecute; split
      · have hc : s.Calm (s.spawn (.main (.done []))) := .spawn _ fun _ => rfl
        exact ⟨hc.setCalls, fun r _ => hc.keeps hs rfl⟩
      · have hc := Sys.Calm.initializeArgumentRegisters fn args 0 s
        refine ⟨hc.setCalls, fun r hr => hc.keeps hs ?_⟩
        exact Sys.initializeArgumentRegisters_regs_ge fn args 0 s (by simpa using hr args rfl)
    | ctor a => cases ht
    | exportLoad i results =>
      simp only [mainStep] at h
      (repeat' split at h) <;> cases h
      · exact calm ((Sys.Calm.takeRef _ _ _).trans (.spawn _ fun _ => by rfl)) rfl
      all_goals exact calm (.spawn _ fun _ => by rfl) rfl
    | exportCas i results =>
      simp only [mainStep, Option.some.injEq] at h; subst h
      refine ⟨Sys.getOrCreateRegisterValue_setCalls _ _ _, fun r _ =>
        (Sys.keeps_getOrCreateRegisterValue hs fn _ r).trans (Sys.Calm.keeps ?_ (hs.getOrCreateRegisterValue fn _) rfl)⟩
      exact (Sys.Calm.takeRef _ _ _).trans (.spawn _ fun _ => by rfl)
    | release results =>
      cases h; exact calm ((Sys.Calm.dropExec _).trans (.spawn _ fun _ => by rfl)) rfl
    | done => cases h
  | cont a => cases ht
  | keep => cases h; exact calm (.of_heap rfl rfl rfl fun _ => rfl) rfl
  | follow i u =>
    cases h
    refine ⟨rfl, fun r _ => Sys.keeps_of rfl rfl fun e he => ?_⟩
    simp only [Sys.dropRef, Sys.resolve, Function.update_apply]
    split_ifs <;> simp_all
  | release u => cases h; exact calm (.dropRef _ _ _) rfl

/-- The world calls no `SetRegisterValue` and keeps every register. -/
theorem envStep_keeps {e : Env} {s s' : Sys} (h : envStep e s = some s') (hs : s.HeapInv) :
    s'.setCalls = s.setCalls ∧ ∀ r, s.Keeps s' r := by
  rcases envStep_cases h with ⟨v, st, -, -, rfl⟩ | ⟨v, -, -, rfl⟩ | ⟨d, -, rfl⟩
  · refine ⟨rfl, fun r => Sys.keeps_of rfl rfl fun e he => ?_⟩
    simp only [Sys.resolve, Sys.modify, Function.update_apply]
    split_ifs <;> simp_all
  · exact ⟨rfl, fun r => Sys.Calm.keeps ((Sys.Calm.modify s v (by rfl)).trans (.dropRef _ v 1)) hs rfl⟩
  · have hc : s.Calm { s.alloc { state := .error d, refs := 1, ext := 1 } with cancel := some s.next } :=
      (Sys.Calm.alloc s rfl rfl).trans (.of_heap rfl rfl rfl fun _ => rfl)
    exact ⟨hc.setCalls, fun r => hc.keeps hs rfl⟩

/-! ## Along a run -/

/-- **The publication invariant.** -/
structure PubInv (fn : BEFFunction) (s : Sys) : Prop where
  heap : s.HeapInv
  /-- A kernel of the function whose gate has not opened has published nothing. -/
  closed : ∀ k, fn.Real k → s.fires k = 0 →
    ∀ i < (fn.kernel k).numResults, s.Unpublished ((fn.kernel k).results.getD i 0)
  /-- Every activation knows where its kernel's registers are. -/
  acts : ∀ a, s.Runs a → a.cur.Pub fn s
  /-- `SetRegisterValue` is called at most once on each register, -/
  once : ∀ r, s.setCalls r ≤ 1
  /-- and never on an argument register. -/
  args : ∀ r < fn.numArguments, s.setCalls r = 0

/-- The publishing invariant holds before `Execute`. -/
theorem Initial.pubInv {fn : BEFFunction} {args : List Nat} {s : Sys} (h : Initial fn args s) :
    PubInv fn s where
  heap :=
    { made := fun e r hr => by rw [(h.outside e).2.2.2.2] at hr; cases hr
      follow := fun j _ => by simp [Sys.weigh, h.tasks, h.waiting, followWeight]
      target := fun j hj => absurd (h.outside j).2.2.2.1 hj }
  closed _ _ _ _ _ := ⟨h.setCalls _, .inl (h.regs _)⟩
  acts a := by
    rintro ⟨t, ht, hta⟩
    rw [h.tasks, Multiset.mem_singleton] at ht; subst ht; cases hta
  once r := by rw [h.setCalls]; omega
  args r _ := h.setCalls r

/-- The constructor's first activation publishes no kernel result. -/
theorem bootstrap_pub (fn : BEFFunction) (hasArgs : Bool) (s : Sys) :
    (bootstrap fn hasArgs).cur.Pub fn s := by
  unfold bootstrap; split
  · split
    · exact fun h => Bool.noConfusion h
    · trivial
  · trivial

section Run

variable {fn : BEFFunction} (hwf : fn.WellFormed) {args : List Nat}
include hwf

/-- The value an activation is about to forward is allocated and has no target yet. -/
theorem PubInv.forwarding {s : Sys} (hp : PubInv fn s) (h : Reachable fn args s) :
    ∀ a, s.Runs a → ∀ e ∈ a.cur.forwarding, (s.heap e).target = none ∧ e < s.next :=
  fun a ha e he => by
    obtain ⟨r, hw⟩ := (hp.acts a ha).forwarding (h.valid hwf a ha) he
    exact ⟨hw.2.2, (hp.heap.made e r hw.2.1).1⟩

/-- A kernel outside the function never passes its gate. -/
theorem Reachable.fires_of_le {s : Sys} (h : Reachable fn args s) {k : Nat}
    (hk : fn.numKernels ≤ k) : s.fires k = 0 := by
  induction h with
  | init h => exact h.fires k
  | step hr hst ih =>
    rcases hst.tokenEffect hwf hr with ⟨-, hf, -⟩ | ⟨j, -, hf, -⟩ | ⟨j, hj, -, -, -, hf, -⟩ |
      ⟨-, -, hf, -⟩
    · rw [hf]; exact ih
    · rw [hf]; exact ih
    · rw [hf, Function.update_noteq (by omega)]; exact ih
    · rw [hf]; exact ih

/-- No two threads work on one kernel. -/
theorem Reachable.kernel_apart {s : Sys} (h : Reachable fn args s) {t : Task}
    {rest : Multiset Task} (ht : s.tasks = t ::ₘ rest) {a b : Activation} (hta : t.act = some a)
    (hb : ({ s with tasks := rest } : Sys).Runs b) {k : Nat} (hk : a.cur.kernel = some k) :
    b.cur.kernel ≠ some k := by
  intro hbk
  obtain ⟨t', ht', htb⟩ := hb
  have e : s.weigh (occupancyWeight k) = _ := Sys.weigh_cons ht
  have h1 := Sys.task_le_weigh (W := occupancyWeight k) (s := { s with tasks := rest }) ht'
  rw [occupancyWeight_act htb] at h1
  rw [occupancyWeight_act hta] at e
  have := h.occupancy hwf k; have := gate_opens_at_most_once h k
  simp only [Activation.occupies, hk, hbk, if_true] at e h1
  omega

variable (hl : fn.ArgumentsListed)
include hl

/-- A kernel an activation works on is a kernel of the function, and its gate has opened. -/
theorem Reachable.real_of_kernel {s : Sys} (h : Reachable fn args s) {t : Task}
    (ht : t ∈ s.tasks) {a : Activation} (hta : t.act = some a) {k : Nat}
    (hk : a.cur.kernel = some k) : fn.Real k ∧ s.fires k = 1 := by
  have h1 : 1 ≤ s.weigh (occupancyWeight k) := by
    have := Sys.task_le_weigh (W := occupancyWeight k) ht
    rw [occupancyWeight_act hta] at this
    simpa [Activation.occupies, hk] using this
  have hf : s.fires k = 1 := by
    have := h.occupancy hwf k; have := gate_opens_at_most_once h k; omega
  refine ⟨⟨Nat.lt_of_not_le (fun hn => by rw [h.fires_of_le hwf hn] at hf; cases hf), ?_⟩, hf⟩
  by_cases hk0 : k = 0
  · cases hp : fn.hasPseudo
    · simp [BEFFunction.isPseudo, hp]
    · subst hk0; rw [h.pseudo_closed hwf hl hp] at hf; cases hf
  · exact BEFFunction.isPseudo_of_ne hk0

/-- A gate a step opens is the gate of a kernel of the function that had published nothing. -/
theorem Step.opened_closed {s s' : Sys} (hr : Reachable fn args s) (h : Step fn s s')
    (hp : PubInv fn s) {k : Nat} (hk : s'.fires k ≠ s.fires k) :
    ∀ i < (fn.kernel k).numResults, s.Unpublished ((fn.kernel k).results.getD i 0) := by
  have hr' := hr.step h
  have h1 := gate_opens_at_most_once hr' k
  have h2 := h.fires_le k
  have h0 : s.fires k = 0 := by omega
  have hreal : fn.Real k := by
    refine ⟨Nat.lt_of_not_le (fun hn => hk (by rw [hr'.fires_of_le hwf hn, h0])), ?_⟩
    by_cases hk0 : k = 0
    · cases hp' : fn.hasPseudo
      · simp [BEFFunction.isPseudo, hp']
      · subst hk0; exact absurd (by rw [hr'.pseudo_closed hwf hl hp', h0]) hk
    · exact BEFFunction.isPseudo_of_ne hk0
  exact hp.closed k hreal h0

variable (hsp : fn.SingleProducers)
include hsp

/-- **A new activation knows where its kernel's registers are.** -/
theorem NewAct.pub {s s' : Sys} {b : Activation} (hr : Reachable fn args s) (h : Step fn s s')
    (hp : PubInv fn s) (hn : NewAct fn s s' b) : b.cur.Pub fn s' := by
  have hfire := fun k (hk : s'.fires k ≠ s.fires k) => h.opened_closed hwf hl hr hp hk
  have moved : ∀ {a a' : Activation} {t : Task} {rest : Multiset Task} {c : List ResultSpec}
      {s'' : Sys}, s.tasks = t ::ₘ rest → t.act = some a →
      a.step fn c { s with tasks := rest } = some (some a', s'') → s'.regs = s''.regs →
      s'.setCalls = s''.setCalls → s'.heap = s''.heap → s'.fires = s''.fires →
      a'.cur.Pub fn s' := @fun a a' t rest c s'' ht hta ha e1 e2 e3 e4 => by
    have hra := Sys.runs_of_tasks ht hta
    have hdist : ∀ k, a.cur.kernel = some k → ∀ i < (fn.kernel k).numResults,
        ∀ i' < (fn.kernel k).numResults,
          (fn.kernel k).results.getD i 0 = (fn.kernel k).results.getD i' 0 → i = i' :=
      fun k hk i hi i' hi' he =>
        have hk' := (hr.real_of_kernel hwf hl (ht ▸ Multiset.mem_cons_self _ _) hta hk).1
        (hsp.unique hk' hk' hi hi' he).2
    refine (Activation.step_pub ha (hp.heap.of_cons ht) (hr.valid hwf a hra) (hp.acts a hra) hdist
      fun k hk => hfire k (e4 ▸ hk)).keep_all (Sys.keeps_of_eq e1 e2 e3)
  cases hn with
  | start => exact bootstrap_pub fn _ s'
  | ctor ht ha hs => subst hs; exact moved ht rfl ha rfl rfl rfl rfl
  | cont ht ha hs => subst hs; exact moved ht rfl ha rfl rfl rfl rfl

/-- **Every step keeps the publication invariant.** -/
theorem Step.pubInv {s s' : Sys} (hr : Reachable fn args s) (h : Step fn s s') (hp : PubInv fn s) :
    PubInv fn s' := by
  have hH := (h.heapInv hp.heap (hp.forwarding hwf hr)).1
  have newAct : ∀ b, NewAct fn s s' b → b.cur.Pub fn s' := fun b hn =>
    hn.pub hwf hl hsp hr h hp
  cases h with
  | env e he =>
    obtain ⟨hsc, hk⟩ := envStep_keeps he hp.heap
    have hf := (envStep_frame he).2
    refine ⟨hH, fun k hk' h0 i hi => (hk _).1 (hp.closed k hk' (hf ▸ h0) i hi), fun b hb => ?_,
      fun r => hsc ▸ hp.once r, fun r hr => hsc ▸ hp.args r hr⟩
    by_cases hbi : b.cur = .idle
    · rw [hbi]; trivial
    · have hw := envStep_weigh (actWeight_executorOnly b) he
      exact (hp.acts b ((Sys.runs_iff hbi).2 (hw ▸ (Sys.runs_iff hbi).1 hb))).keep_all hk
  | @task t rest c ht h =>
    have hrest : ({ s with tasks := rest } : Sys).HeapInv := hp.heap.of_cons ht
    have runs : ∀ b, ({ s with tasks := rest } : Sys).Runs b → s.Runs b := fun b ⟨t', ht', hb⟩ =>
      ⟨t', by rw [ht]; exact Multiset.mem_cons_of_mem ht', hb⟩
    have real : ∀ b, s.Runs b → ∀ k, b.cur.kernel = some k → fn.Real k ∧ s.fires k = 1 :=
      fun b ⟨t', ht', htb⟩ k hk => hr.real_of_kernel hwf hl ht' htb hk
    cases hta : t.act with
    | none =>
      obtain ⟨hsc, hk⟩ := taskStep_keeps hta h hrest
      have hf := (taskStep_frame hta h).2
      have hkr : ∀ k, fn.Real k → ∀ i < (fn.kernel k).numResults,
          s.Keeps s' ((fn.kernel k).results.getD i 0) := fun k hk' i hi =>
        hk _ fun args' ht' => (hr.startArgs_length (ht' ▸ ht)).le.trans (hsp.notArgument hk' hi)
      refine ⟨hH, fun k hk' h0 i hi => (hkr k hk' i hi).1 (hp.closed k hk' (hf ▸ h0) i hi),
        fun b hb => ?_, fun r => hsc ▸ hp.once r, fun r hr => hsc ▸ hp.args r hr⟩
      by_cases hbi : b.cur = .idle
      · rw [hbi]; trivial
      rcases taskStep_runs_cases ht h hbi hb with hb' | hn
      · have hbs := runs b hb'
        exact (hp.acts b hbs).keep (hr.valid hwf b hbs) fun k hk i hi =>
          hkr k (real b hbs k hk).1 i hi
      · exact newAct b hn
    | some a =>
      have ha : s.Runs a := Sys.runs_of_tasks ht hta
      have hva := hr.valid hwf a ha
      have hpa := hp.acts a ha
      obtain ⟨oa, s'', hstep, e1, e2, e3, -⟩ := taskStep_act hta h
      /- Every register but the results of `a`'s kernel is kept. -/
      have hka : ∀ r, (∀ k, a.cur.kernel = some k → ∀ j < (fn.kernel k).numResults,
          r ≠ (fn.kernel k).results.getD j 0) → s.Keeps s' r := fun r hr' =>
        (Activation.step_keeps_of_kernel hstep hrest hva hpa hr').trans (Sys.keeps_of_eq e1 e2 e3 r)
      /- So is every result register of another kernel. -/
      have hother : ∀ k, fn.Real k → (∀ k', a.cur.kernel = some k' → k ≠ k') →
          ∀ i < (fn.kernel k).numResults, s.Keeps s' ((fn.kernel k).results.getD i 0) :=
        fun k hk hne i hi => hka _ fun k' hk' j hj he =>
          hne k' hk' (hsp.unique hk (real a ha k' hk').1 hi hj he).1
      have hsc : ∀ r, s'.setCalls r = s.setCalls r + if a.cur.setsRegister fn = some r then 1 else 0 :=
        fun r => by rw [e2]; exact Activation.step_setCalls hstep r
      refine ⟨hH, fun k hk' h0 i hi => ?_, fun b hb => ?_, fun r => ?_, fun r hr0 => ?_⟩
      · have h0' : s.fires k = 0 := Nat.eq_zero_of_le_zero (h0 ▸ (Step.task c ht h).fires_le k)
        refine (hother k hk' (fun k' hk'' he => ?_) i hi).1 (hp.closed k hk' h0' i hi)
        subst he; rw [(real a ha k hk'').2] at h0'; cases h0'
      · by_cases hbi : b.cur = .idle
        · rw [hbi]; trivial
        rcases taskStep_runs_cases ht h hbi hb with hb' | hn
        · have hbs := runs b hb'
          refine (hp.acts b hbs).keep (hr.valid hwf b hbs) fun k hk i hi => ?_
          exact hother k (real b hbs k hk).1 (fun k' hk' he =>
            hr.kernel_apart hwf ht hta hb' hk' (he ▸ hk)) i hi
        · exact newAct b hn
      · rw [hsc r]; split
        · rename_i hw
          have := (hpa.setsRegister hva hw).1; have := hp.once r; omega
        · have := hp.once r; omega
      · rw [hsc r, hp.args r hr0]; split
        · rename_i hw
          obtain ⟨k, hk, j, hj, rfl⟩ := Cursor.writes_own hva hpa (.inl hw)
          have := hsp.notArgument (real a ha k hk).1 hj; omega
        · rfl

/-- **The publication invariant holds along every run.** -/
theorem Reachable.pubInv {s : Sys} (h : Reachable fn args s) : PubInv fn s := by
  induction h with
  | init h => exact h.pubInv
  | step hr hst ih => exact hst.pubInv hwf hl hsp hr ih

end Run

section Publication

variable {fn : BEFFunction} {args : List Nat}

/-- **Each register is published once.** In every reachable state of a function whose registers
have one producer each, `SetRegisterValue` has been called at most once on each register, and
never on an argument register, which `InitializeArgumentRegisters` fills. -/
theorem register_published_once (hwf : fn.WellFormed) (hl : fn.ArgumentsListed)
    (hsp : fn.SingleProducers) {s : Sys} (h : Reachable fn args s) (r : Nat) :
    s.setCalls r ≤ 1 ∧ (r < fn.numArguments → s.setCalls r = 0) :=
  ⟨(h.pubInv hwf hl hsp).once r, (h.pubInv hwf hl hsp).args r⟩

/-- `copyFn` run to the end: its result register `1` was published once. -/
theorem register_published_once_copyDone :
    copyDone.setCalls 1 ≤ 1 ∧ (1 < copyFn.numArguments → copyDone.setCalls 1 = 0) :=
  register_published_once copyFn_wellFormed (by decide) (by decide) copyDone_reachable 1

/-- **A lost swap finds the register's own placeholder.** In every reachable state, an
activation past a compare-and-swap of `SetRegisterValue` on result `i` of kernel `k` that lost
to `e` finds `e` still in the register, and `e` is the `IndirectAsyncValue` that
`GetOrCreateRegisterValue` made for that register, unresolved and not forwarded: the
`cast<IndirectAsyncValue>` holds, and `ForwardTo` is called on a value without a target. -/
theorem lost_swap_finds_placeholder (hwf : fn.WellFormed) (hl : fn.ArgumentsListed)
    (hsp : fn.SingleProducers) {s : Sys} (h : Reachable fn args s) {a : Activation}
    (ha : s.Runs a) {k : Nat} {pseudo : Bool} {frame : List Nat} {i off : Nat} {ph : ResultPhase}
    (hc : a.cur = .result k pseudo frame i off ph) {e : Nat} (he : e ∈ ph.found) :
    s.regs ((fn.kernel k).results.getD i 0) = some e ∧
      (s.heap e).madeFor = some ((fn.kernel k).results.getD i 0) ∧
      (s.heap e).isUnresolvedIndirect = true ∧ (s.heap e).target = none := by
  have hp := h.pubInv hwf hl hsp
  have hv := h.valid hwf a ha
  have hpa := hp.acts a ha
  rw [hc] at hv hpa
  have haw : s.Awaits ((fn.kernel k).results.getD i 0) e := by
    cases ph with
    | setRevert e' | setForward e' =>
      obtain rfl : e' = e := Option.some.inj he
      exact (hpa hv.2.2.2).2
    | _ => cases he
  exact ⟨haw.1, haw.2.1, hp.heap.awaits_unresolved haw⟩

/-- In `asyncFn`'s run, kernel `1`'s swap lost to the placeholder `1` that `Execute` exported. -/
theorem lost_swap_finds_placeholder_asyncRevert :
    asyncRevert.Runs ⟨[], .result 1 false [2] 0 2 (.setRevert 1)⟩ ∧
      asyncRevert.regs ((asyncFn.kernel 1).results.getD 0 0) = some 1 ∧
      (asyncRevert.heap 1).madeFor = some ((asyncFn.kernel 1).results.getD 0 0) ∧
      (asyncRevert.heap 1).isUnresolvedIndirect = true ∧ (asyncRevert.heap 1).target = none :=
  have hr : asyncRevert.Runs ⟨[], .result 1 false [2] 0 2 (.setRevert 1)⟩ :=
    ⟨.cont ⟨[], .result 1 false [2] 0 2 (.setRevert 1)⟩, by decide, rfl⟩
  ⟨hr, lost_swap_finds_placeholder asyncFn_wellFormed (by decide) (by decide)
    asyncRevert_reachable hr rfl rfl⟩

end Publication

end BefExecutor
