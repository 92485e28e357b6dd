/-
# Placeholders

Source: `lib/bef_executor/bef_executor.cc`, The `IndirectAsyncValue` of `GetOrCreateRegisterValue` (:55-84) and its `ForwardTo` in `SetRegisterValue` (:109-148).

What the heap invariant says of placeholders along every run.
-/
import BefExecutor.Registers

namespace BefExecutor

/-- The forwarding work on the indirect value `j`: `ForwardTo`'s closure, registered on the
target or running. -/
def followWeight (j : Nat) : Weight where
  task
    | .follow i _ => if i = j then 1 else 0
    | _ => 0
  waiter
    | (_, .forward i) => if i = j then 1 else 0
    | _ => 0
  run := by rintro ⟨v, w⟩; cases w <;> rfl

/-- The release of a forwarded value's target starts no `ForwardTo` closure. -/
theorem followWeight_releaseOf (j : Nat) (o : Option Nat) :
    ((Sys.releaseOf o).map (followWeight j).task).sum = 0 := by
  cases o <;> simp [Sys.releaseOf, followWeight]

/-- What the placeholder protocol reads of a value: its state, its kind, its forwarding, its
debt to an outside producer and the register it was made for. -/
def AsyncValue.tags (a : AsyncValue) : AVState × Bool × Option Nat × Bool × Option Nat :=
  (a.state, a.indirect, a.target, a.owed, a.madeFor)

namespace Sys

/-- A step that leaves the placeholder protocol alone: no `SetRegisterValue` call, the tags of
every value it does not allocate kept, the values it allocates plain, and no forwarding work
added or taken. -/
structure Calm (s s' : Sys) : Prop where
  setCalls : s'.setCalls = s.setCalls
  next : s.next ≤ s'.next
  tags : ∀ e, e < s.next ∨ s'.next ≤ e → (s'.heap e).tags = (s.heap e).tags
  fresh : ∀ e, s.next ≤ e → e < s'.next → (s'.heap e).target = none ∧ (s'.heap e).madeFor = none
  follow : ∀ j, s'.weigh (followWeight j) = s.weigh (followWeight j)

namespace Calm

variable {s s' s'' : Sys}

/-- A step that leaves the heap, the swaps and the closures alone is calm. -/
theorem of_heap (h1 : s'.setCalls = s.setCalls) (h2 : s'.heap = s.heap) (h3 : s'.next = s.next)
    (h4 : ∀ j, s'.weigh (followWeight j) = s.weigh (followWeight j)) : s.Calm s' where
  setCalls := h1
  next := h3.ge
  tags _ _ := by rw [h2]
  fresh _ h h' := absurd h' (by omega)
  follow := h4

/-- Every state is calm towards itself. -/
theorem refl (s : Sys) : s.Calm s := .of_heap rfl rfl rfl fun _ => rfl

/-- Calm steps compose. -/
theorem trans (h : s.Calm s') (h' : s'.Calm s'') : s.Calm s'' where
  setCalls := h'.setCalls.trans h.setCalls
  next := h.next.trans h'.next
  tags e he := by
    have := h.next; have := h'.next
    rw [h'.tags e (by omega), h.tags e (by omega)]
  fresh e h1 h2 := by
    by_cases he : e < s'.next
    · have t := h'.tags e (.inl he)
      simp only [AsyncValue.tags, Prod.mk.injEq] at t
      rw [t.2.2.1, t.2.2.2.2]; exact h.fresh e h1 he
    · exact h'.fresh e (by omega) h2
  follow j := (h'.follow j).trans (h.follow j)

/-- One value replaced by one with the same tags. -/
theorem of_update {v : Nat} {a : AsyncValue} (h2 : s'.heap = Function.update s.heap v a)
    (ha : a.tags = (s.heap v).tags) (h1 : s'.setCalls = s.setCalls) (h3 : s'.next = s.next)
    (h4 : ∀ j, s'.weigh (followWeight j) = s.weigh (followWeight j)) : s.Calm s' where
  setCalls := h1
  next := h3.ge
  tags e _ := by
    rw [h2]
    by_cases he : e = v
    · subst he; rw [Function.update_same, ha]
    · rw [Function.update_noteq he]
  fresh _ h h' := absurd h' (by omega)
  follow := h4

/-- `AddRef` is calm. -/
theorem addRef (s : Sys) (v n : Nat) : s.Calm (s.addRef v n) :=
  of_update rfl rfl rfl rfl fun _ => rfl

/-- `DropRef` is calm. -/
theorem dropRef (s : Sys) (v n : Nat) : s.Calm (s.dropRef v n) :=
  of_update rfl rfl rfl rfl fun j => by rw [weigh_dropRef, followWeight_releaseOf]; simp

/-- A write that keeps a value's placeholder tags is calm. -/
theorem modify (s : Sys) (v : Nat) {f : AsyncValue → AsyncValue}
    (hf : (f (s.heap v)).tags = (s.heap v).tags) : s.Calm (s.modify v f) :=
  of_update rfl hf rfl rfl fun _ => rfl

/-- `TakeRef` into a caller's result is calm. -/
theorem takeRef (s : Sys) (r v : Nat) : s.Calm (s.takeRef r v) :=
  of_update rfl rfl rfl rfl fun _ => rfl

/-- An argument's `DropRef` is calm. -/
theorem dropArgRef (s : Sys) (r v : Nat) : s.Calm (s.dropArgRef r v) :=
  (dropRef s v 1).trans (.of_heap rfl rfl rfl fun _ => rfl)

/-- Reading a state is calm. -/
theorem touch (s : Sys) (v : Nat) : s.Calm (s.touch v) := .of_heap rfl rfl rfl fun _ => rfl

/-- The executor's `DropRef` is calm. -/
theorem dropExec (s : Sys) : s.Calm s.dropExec := .of_heap rfl rfl rfl fun _ => rfl

/-- `MaybeAddRefForResult` is calm. -/
theorem maybeAddRefForResult (s : Sys) (v : Nat) : s.Calm (s.maybeAddRefForResult v) :=
  .of_heap rfl rfl rfl fun j => by rw [weigh_maybeAddRefForResult]; split <;> rfl

/-- Registering a `ProcessUsedBys` continuation is calm. -/
theorem andThen_usedBys (s : Sys) (v : Nat) (ids : List Nat) :
    s.Calm (s.andThen v (.usedBys ids)) :=
  .of_heap rfl rfl rfl fun _ => weigh_andThen v _

/-- Spawning a thread that is no `ForwardTo` closure is calm. -/
theorem spawn (s : Sys) {t : Task} (ht : ∀ j, (followWeight j).task t = 0) : s.Calm (s.spawn t) :=
  .of_heap rfl rfl rfl fun j => by rw [weigh_spawn, ht, Nat.add_zero]

/-- A plain value, made by a kernel or by the host. -/
theorem alloc (s : Sys) {a : AsyncValue} (ht : a.target = none) (hm : a.madeFor = none) :
    s.Calm (s.alloc a) where
  setCalls := rfl
  next := Nat.le_succ _
  tags e he := by
    have : e ≠ s.next := by simp only [Sys.alloc] at he; omega
    exact congrArg AsyncValue.tags (Function.update_noteq this _ _)
  fresh e h h' := by
    obtain rfl : e = s.next := by simp only [Sys.alloc] at h'; omega
    simp [Sys.alloc, ht, hm]
  follow _ := rfl

/-- A calm step followed by `MaybeAddRefForResult` is calm. -/
theorem then_maybeAddRefForResult (h : s.Calm s') (v : Nat) : s.Calm (s'.maybeAddRefForResult v) :=
  h.trans (maybeAddRefForResult s' v)

/-- A calm step followed by `AddRef` is calm. -/
theorem then_addRef (h : s.Calm s') (v n : Nat) : s.Calm (s'.addRef v n) := h.trans (addRef s' v n)

/-- Running a kernel is calm: its new values are no placeholders. -/
theorem invoke (bound : List Nat) (c : List ResultSpec) (s : Sys) : s.Calm (s.invoke bound c).2 := by
  induction c generalizing s with
  | nil => exact refl s
  | cons r c ih =>
    cases r with
    | fresh st => exact (alloc s (by split <;> rfl) (by split <;> rfl)).trans (ih _)
    | arg j => exact (addRef s _ _).trans (ih _)

/-- `InitializeArgumentRegisters` is calm. -/
theorem initializeArgumentRegisters (fn : BEFFunction) (args : List Nat) (i : Nat) (s : Sys) :
    s.Calm (Sys.initializeArgumentRegisters fn args i s) := by
  induction args generalizing i s with
  | nil => exact refl s
  | cons v args ih =>
    simp only [Sys.initializeArgumentRegisters]
    split
    · refine Calm.trans ?_ (ih _ _)
      exact of_update rfl rfl rfl rfl fun _ => rfl
    · exact refl s

end Calm

/-! ## The placeholder invariant -/

/-- **The placeholders of a run.** -/
structure HeapInv (s : Sys) : Prop where
  /-- A placeholder is allocated, indirect and owed to no outside producer, and it is
  unavailable until it is forwarded. -/
  made : ∀ e r, (s.heap e).madeFor = some r → e < s.next ∧ (s.heap e).indirect = true ∧
    (s.heap e).owed = false ∧ ((s.heap e).target = none → (s.heap e).state = .unavailable)
  /-- Only a forwarded value has forwarding work. -/
  follow : ∀ j, (s.heap j).target = none → s.weigh (followWeight j) = 0
  /-- Only allocated values are forwarded. -/
  target : ∀ j, (s.heap j).target ≠ none → j < s.next

namespace HeapInv

variable {s s' : Sys}

/-- The heap invariant depends only on the heap, the threads and the callbacks. -/
theorem of_eq (h : s.HeapInv) (h1 : s'.heap = s.heap) (h2 : s'.next = s.next)
    (h3 : s'.tasks = s.tasks) (h4 : s'.waiting = s.waiting) : s'.HeapInv where
  made e r := by rw [h1, h2]; exact h.made e r
  follow j := by rw [h1, weigh_of_eq h3 h4]; exact h.follow j
  target j := by rw [h1, h2]; exact h.target j

/-- A value past the allocated ones is neither a placeholder nor forwarded. -/
theorem unallocated (h : s.HeapInv) {e : Nat} (he : s.next ≤ e) :
    (s.heap e).target = none ∧ (s.heap e).madeFor = none := by
  refine ⟨Classical.not_not.1 fun ht => absurd (h.target e ht) (by omega), ?_⟩
  cases hm : (s.heap e).madeFor with
  | none => rfl
  | some r => exact absurd (h.made e r hm).1 (by omega)

/-- A calm step keeps the heap invariant. -/
theorem calm (h : s.HeapInv) (hc : s.Calm s') : s'.HeapInv := by
  have hn := hc.next
  have tags : ∀ e, ¬(s.next ≤ e ∧ e < s'.next) → (s'.heap e).state = (s.heap e).state ∧
      (s'.heap e).indirect = (s.heap e).indirect ∧ (s'.heap e).target = (s.heap e).target ∧
      (s'.heap e).owed = (s.heap e).owed ∧ (s'.heap e).madeFor = (s.heap e).madeFor := fun e he => by
    have := hc.tags e (by omega)
    simpa only [AsyncValue.tags, Prod.mk.injEq] using this
  have target : ∀ j, (s'.heap j).target = none → (s.heap j).target = none := fun j hj => by
    by_cases hf : s.next ≤ j ∧ j < s'.next
    · exact (h.unallocated hf.1).1
    · rw [← (tags j hf).2.2.1, hj]
  refine ⟨fun e r hr => ?_, fun j hj => (hc.follow j).trans (h.follow j (target j hj)),
    fun j hj => ?_⟩
  · by_cases hf : s.next ≤ e ∧ e < s'.next
    · rw [(hc.fresh e hf.1 hf.2).2] at hr; cases hr
    · obtain ⟨t1, t2, t3, t4, t5⟩ := tags e hf
      obtain ⟨h1, h2, h3, h4⟩ := h.made e r (t5 ▸ hr)
      exact ⟨by omega, t2 ▸ h2, t4 ▸ h3, fun ht => t1 ▸ h4 (t3 ▸ ht)⟩
  · by_cases hf : s.next ≤ j ∧ j < s'.next
    · exact hf.2
    · have := h.target j ((tags j hf).2.2.1 ▸ hj); omega

/-- A thread that leaves the pool keeps the invariant: it takes its forwarding work with it. -/
theorem of_cons (h : s.HeapInv) {t : Task} {rest : Multiset Task} (ht : s.tasks = t ::ₘ rest) :
    ({ s with tasks := rest } : Sys).HeapInv where
  made := h.made
  follow j hj := by
    have := h.follow j hj; rw [weigh_cons ht] at this; omega
  target := h.target

/-- `MakeIndirectAsyncValue` for register `r`. -/
theorem allocPlaceholder (h : s.HeapInv) (fn : BEFFunction) (r : Nat) :
    (s.alloc (placeholder fn r)).HeapInv := by
  have hfree := h.unallocated (le_refl s.next)
  have upd : ∀ e, ((s.alloc (placeholder fn r)).heap e) =
      if e = s.next then placeholder fn r else s.heap e := fun e => Function.update_apply _ _ _ _
  refine ⟨fun e r' hr => ?_, fun j hj => ?_, fun j hj => ?_⟩
  · rw [upd] at hr ⊢; split_ifs at hr ⊢ with he
    · exact ⟨by simp [Sys.alloc, he], rfl, rfl, fun _ => rfl⟩
    · obtain ⟨h1, h2⟩ := h.made e r' hr
      exact ⟨Nat.lt_succ_of_lt h1, h2⟩
  · rw [upd] at hj; split_ifs at hj with he
    · subst he; exact h.follow _ hfree.1
    · exact h.follow j hj
  · rw [upd] at hj; split_ifs at hj with he
    · exact absurd rfl hj
    · exact Nat.lt_succ_of_lt (h.target j hj)

/-- `GetOrCreateRegisterValue`'s new placeholder, whether it wins the swap or not. -/
theorem getOrCreateRegisterValue (h : s.HeapInv) (fn : BEFFunction) (r : Nat) :
    (s.getOrCreateRegisterValue fn r).2.HeapInv := by
  have ha := h.allocPlaceholder fn r
  simp only [Sys.getOrCreateRegisterValue]; split
  · exact ha.of_eq rfl rfl rfl rfl
  · exact ha.calm (.dropRef _ _ _)

/-- `ForwardTo` on an allocated value that was not forwarded yet. -/
theorem forwardTo (h : s.HeapInv) {i : Nat} (ht : (s.heap i).target = none) (hi : i < s.next)
    (t : Nat) : (s.forwardTo i t).HeapInv := by
  have upd : ∀ e, e ≠ i → (s.forwardTo i t).heap e = s.heap e :=
    fun e he => Function.update_noteq he _ _
  have hi' : ((s.forwardTo i t).heap i).target = some t := by simp [Sys.forwardTo]
  refine ⟨fun e r hr => ?_, fun j hj => ?_, fun j hj => ?_⟩
  · by_cases he : e = i
    · subst he
      have hm : ((s.forwardTo e t).heap e).madeFor = (s.heap e).madeFor := by simp [Sys.forwardTo]
      obtain ⟨-, h2, h3, -⟩ := h.made e r (hm ▸ hr)
      exact ⟨hi, by simpa [Sys.forwardTo] using h2, by simpa [Sys.forwardTo] using h3,
        fun h' => absurd (hi'.symm.trans h') (by simp)⟩
    · rw [upd e he] at hr ⊢; exact h.made e r hr
  · have hji : j ≠ i := fun e => by subst e; rw [hi'] at hj; cases hj
    rw [upd j hji] at hj
    rw [weigh_forwardTo, h.follow j hj, Nat.zero_add]
    split
    · rfl
    · show (if i = j then 1 else 0) = 0; rw [if_neg (Ne.symm hji)]
  · by_cases he : j = i
    · exact he ▸ hi
    · rw [upd j he] at hj; exact h.target j hj

/-- A value becomes available: an outside producer's, or a forwarded one. -/
theorem resolve (h : s.HeapInv) {v : Nat} (hv : (s.heap v).madeFor ≠ none → (s.heap v).target ≠ none)
    (st : AVState) : (s.resolve v st).HeapInv := by
  have upd : ∀ e, (s.resolve v st).heap e = if e = v then { s.heap v with state := st } else s.heap e :=
    fun e => Function.update_apply _ _ _ _
  refine ⟨fun e r hr => ?_, fun j hj => ?_, fun j hj => ?_⟩
  · rw [upd] at hr ⊢; split_ifs at hr ⊢ with he
    · subst he
      obtain ⟨h1, h2, h3, -⟩ := h.made e r hr
      exact ⟨h1, h2, h3, fun ht => absurd ht (hv (by rw [hr]; simp))⟩
    · exact h.made e r hr
  · rw [weigh_resolve]; rw [upd] at hj; split_ifs at hj with he
    · exact he ▸ h.follow v hj
    · exact h.follow j hj
  · rw [upd] at hj; split_ifs at hj with he
    · exact he ▸ h.target v hj
    · exact h.target j hj

/-- An outside producer hands its value over. -/
theorem clearOwed (h : s.HeapInv) (v : Nat) :
    (s.modify v fun a => { a with owed := false }).HeapInv := by
  have upd : ∀ e, (s.modify v fun a => { a with owed := false }).heap e =
      if e = v then { s.heap v with owed := false } else s.heap e := fun e => Function.update_apply _ _ _ _
  refine ⟨fun e r hr => ?_, fun j hj => ?_, fun j hj => ?_⟩
  · rw [upd] at hr ⊢; split_ifs at hr ⊢ with he
    · obtain ⟨h1, h2, -, h4⟩ := h.made v r hr
      exact ⟨he ▸ h1, h2, rfl, h4⟩
    · exact h.made e r hr
  · rw [weigh_modify]; rw [upd] at hj; split_ifs at hj with he
    · exact he ▸ h.follow v hj
    · exact h.follow j hj
  · rw [upd] at hj; split_ifs at hj with he
    · exact he ▸ h.target v hj
    · exact h.target j hj

end HeapInv

/-- No forwarded value loses its target or gets another. -/
def KeepsTargets (s s' : Sys) : Prop :=
  ∀ e t, (s.heap e).target = some t → (s'.heap e).target = some t

/-- Every state keeps its own forwarding targets. -/
theorem KeepsTargets.refl (s : Sys) : s.KeepsTargets s := fun _ _ => id

/-- Keeping the forwarding targets composes along a run. -/
theorem KeepsTargets.trans {s s' s'' : Sys} (h : s.KeepsTargets s') (h' : s'.KeepsTargets s'') :
    s.KeepsTargets s'' := fun e t he => h' e t (h e t he)

/-- A step that writes no target keeps the targets. -/
theorem KeepsTargets.of_eq {s s' : Sys} (h : ∀ e, (s'.heap e).target = (s.heap e).target) :
    s.KeepsTargets s' := fun e _ he => (h e).trans he

/-- A calm step keeps the forwarding targets. -/
theorem Calm.keepsTargets {s s' : Sys} (hc : s.Calm s') (hs : s.HeapInv) : s.KeepsTargets s' :=
  fun e t he => by
    have := hc.tags e (.inl (hs.target e (by simp [he])))
    simp only [AsyncValue.tags, Prod.mk.injEq] at this
    rw [this.2.2.1, he]

/-- A calm stretch after a step that kept the placeholders. -/
theorem HeapInv.then_calm {s₀ s s' : Sys} (hs : s.HeapInv) (hk : s₀.KeepsTargets s)
    (hc : s.Calm s') : s'.HeapInv ∧ s₀.KeepsTargets s' :=
  ⟨hs.calm hc, hk.trans (hc.keepsTargets hs)⟩

/-- `GetOrCreateRegisterValue` keeps the forwarding targets: its placeholder is new. -/
theorem keepsTargets_getOrCreateRegisterValue {s : Sys} (hs : s.HeapInv) (fn : BEFFunction) (r : Nat) :
    s.KeepsTargets (s.getOrCreateRegisterValue fn r).2 := by
  have ha : s.KeepsTargets (s.alloc (placeholder fn r)) := fun e t he => by
    have hne : e ≠ s.next := fun h' => by rw [h', (hs.unallocated le_rfl).1] at he; cases he
    simpa only [Sys.alloc, Function.update_noteq hne] using he
  simp only [Sys.getOrCreateRegisterValue]; split
  · exact ha
  · exact ha.trans ((Calm.dropRef _ _ _).keepsTargets (hs.allocPlaceholder fn r))

/-- `ForwardTo` on a value without a target keeps the targets already set. -/
theorem keepsTargets_forwardTo {s : Sys} {i : Nat} (hi : (s.heap i).target = none) (t : Nat) :
    s.KeepsTargets (s.forwardTo i t) := fun e t' he => by
  have hne : e ≠ i := fun h' => by rw [h', hi] at he; cases he
  simpa only [Sys.forwardTo, Function.update_noteq hne] using he

end Sys

/-! ## What each step does to placeholders -/

/-- The positions whose step writes the placeholder protocol: a placeholder's swap,
`SetRegisterValue`'s swap and `ForwardTo`. -/
def Cursor.quiet : Cursor → Bool
  | .bindCas _ _ _ | .result _ _ _ _ _ .setCas | .result _ _ _ _ _ (.setForward _) => false
  | _ => true

/-- The value a step at this position forwards. -/
def Cursor.forwarding : Cursor → Option Nat
  | .result _ _ _ _ _ (.setForward e) => some e
  | _ => none

/-- **Every other activation step is calm**, and it writes no register. -/
theorem Activation.step_calm {fn : BEFFunction} {c : List ResultSpec} {a : Activation}
    {s s' : Sys} {oa : Option Activation} (h : a.step fn c s = some (oa, s')) (hq : a.cur.quiet) :
    s.Calm s' ∧ s'.regs = s.regs := by
  rcases a with ⟨ids, cur⟩
  cases cur with
  | idle =>
    cases ids with
    | nil =>
      simp only [Activation.step, Option.some.injEq, Prod.mk.injEq] at h
      rw [← h.2]; exact ⟨.refl _, rfl⟩
    | cons k ids =>
      simp only [Activation.step, Option.some.injEq, Prod.map, Activation.stepPop,
        Prod.mk.injEq] at h
      obtain ⟨-, rfl⟩ := h
      (repeat' split) <;> exact ⟨.of_heap rfl rfl rfl fun _ => rfl, rfl⟩
  | bindCas => cases hq
  | ready k bound anyErr =>
    simp only [Activation.step, Activation.stepReady, Option.map_eq_some'] at h
    obtain ⟨p, hp, hq'⟩ := h
    cases hq'
    split at hp
    · split at hp
      · cases hp; exact ⟨.invoke _ _ _, invoke_regs _ _ _⟩
      · cases hp
    · cases hp; exact ⟨.addRef _ _ _, rfl⟩
  | result k pseudo frame i off ph =>
    simp only [Activation.step, Option.some.injEq, Prod.map, Prod.mk.injEq] at h
    obtain ⟨-, rfl⟩ := h
    cases ph with
    | setCas | setForward => cases hq
    | dropPlaceholder rv => exact ⟨(Sys.Calm.modify s rv rfl).trans (.dropRef _ rv 1), rfl⟩
    | andThen rv set usedBys =>
      exact ⟨Sys.Calm.trans (.of_heap (by rfl) (by rfl) (by rfl) fun _ => by rfl)
        (.andThen_usedBys _ rv usedBys), rfl⟩
    | _ =>
      dsimp only [Activation.stepResult, Activation.stepBegin, Activation.stepUnusedDrop,
        Activation.stepSetRevert, Activation.stepDispatch, Activation.stepAccelerate]
      (repeat' split) <;> refine ⟨?_, rfl⟩
      all_goals first
        | exact .of_heap rfl rfl rfl fun _ => rfl
        | exact .dropRef _ _ _
        | exact .maybeAddRefForResult _ _
        | exact .then_maybeAddRefForResult (.of_heap (by rfl) (by rfl) (by rfl) fun _ => by rfl) _
        | exact .then_addRef (.of_heap (by rfl) (by rfl) (by rfl) fun _ => by rfl) _ _
  | _ =>
    simp only [Activation.step, Option.some.injEq, Prod.map, Activation.stepGated,
      Activation.stepBindLoad, Activation.stepBindCheck, Activation.stepDropArg,
      Prod.mk.injEq] at h
    obtain ⟨-, rfl⟩ := h
    all_goals (repeat' split) <;> first
      | exact ⟨.of_heap rfl rfl rfl fun _ => rfl, rfl⟩
      | exact ⟨.dropArgRef _ _ _, rfl⟩


/-- **An activation step keeps the placeholders**, provided what it forwards is an allocated
value not forwarded yet; and no forwarded value changes its target. -/
theorem Activation.step_heapInv {fn : BEFFunction} {c : List ResultSpec} {a : Activation}
    {s s' : Sys} {oa : Option Activation} (h : a.step fn c s = some (oa, s')) (hs : s.HeapInv)
    (hfw : ∀ e ∈ a.cur.forwarding, (s.heap e).target = none ∧ e < s.next) :
    s'.HeapInv ∧ s.KeepsTargets s' := by
  cases hq : a.cur.quiet
  · rcases a with ⟨ids, cur⟩
    cases cur with
    | bindCas k bound anyErr =>
      simp only [Activation.step, Option.some.injEq, Prod.map, Activation.stepBindCas,
        Prod.mk.injEq] at h
      obtain ⟨-, rfl⟩ := h
      exact ⟨hs.getOrCreateRegisterValue fn _, Sys.keepsTargets_getOrCreateRegisterValue hs fn _⟩
    | result k pseudo frame i off ph =>
      simp only [Activation.step, Option.some.injEq, Prod.map, Prod.mk.injEq] at h
      obtain ⟨-, rfl⟩ := h
      cases ph with
      | setCas =>
        dsimp only [Activation.stepResult, Activation.stepSetCas]
        (repeat' split) <;> exact ⟨hs.of_eq rfl rfl rfl rfl, .of_eq fun _ => rfl⟩
      | setForward e =>
        obtain ⟨h1, h2⟩ := hfw e rfl
        exact ⟨hs.forwardTo h1 h2 _, Sys.keepsTargets_forwardTo h1 _⟩
      | _ => cases hq
    | _ => cases hq
  · exact hs.then_calm (.refl s) (Activation.step_calm h hq).1

/-- The same for a thread: the activation it runs forwards only what the condition allows, and a
forwarding closure it runs is on a forwarded value. -/
theorem taskStep_heapInv {fn : BEFFunction} {c : List ResultSpec} {t : Task} {s s' : Sys}
    (h : taskStep fn c t s = some s') (hs : s.HeapInv)
    (hfw : ∀ a, t.act = some a → ∀ e ∈ a.cur.forwarding, (s.heap e).target = none ∧ e < s.next)
    (hfo : ∀ i u, t = .follow i u → (s.heap i).target ≠ none) :
    s'.HeapInv ∧ s.KeepsTargets s' := by
  cases t with
  | main ph =>
    simp only [taskStep] at h
    cases ph with
    | start args =>
      simp only [mainStep, Option.some.injEq] at h; subst h
      unfold startExecute; split
      · exact hs.then_calm (.refl s) (.spawn _ fun _ => by rfl)
      · exact hs.then_calm (.refl s) ((Sys.Calm.initializeArgumentRegisters fn args 0 s).trans
          (Sys.Calm.trans (.of_heap (by rfl) (by rfl) (by rfl) fun _ => by rfl)
            (.spawn _ fun _ => by rfl)))
    | ctor a =>
      simp only [mainStep, Option.map_eq_some'] at h
      obtain ⟨⟨oa, s''⟩, ha, rfl⟩ := h
      obtain ⟨h1, h2⟩ := Activation.step_heapInv ha hs (hfw a rfl)
      cases oa <;> exact h1.then_calm h2 (.spawn _ fun _ => by rfl)
    | exportLoad i results =>
      simp only [mainStep] at h
      (repeat' split at h) <;> cases h
      · exact hs.then_calm (.refl s) ((Sys.Calm.takeRef _ _ _).trans (.spawn _ fun _ => by rfl))
      all_goals exact hs.then_calm (.refl s) (.spawn _ fun _ => by rfl)
    | exportCas i results =>
      simp only [mainStep, Option.some.injEq] at h; subst h
      exact (hs.getOrCreateRegisterValue fn _).then_calm (Sys.keepsTargets_getOrCreateRegisterValue hs fn _)
        ((Sys.Calm.takeRef _ _ _).trans (.spawn _ fun _ => by rfl))
    | release results =>
      cases h; exact hs.then_calm (.refl s) ((Sys.Calm.dropExec _).trans (.spawn _ fun _ => by rfl))
    | done => cases h
  | cont a =>
    simp only [taskStep, Option.map_eq_some'] at h
    obtain ⟨⟨oa, s''⟩, ha, rfl⟩ := h
    obtain ⟨h1, h2⟩ := Activation.step_heapInv ha hs (hfw a rfl)
    cases oa with
    | none => exact h1.then_calm h2 (.dropExec _)
    | some a' => exact h1.then_calm h2 (.spawn _ fun _ => by rfl)
  | keep => cases h; exact hs.then_calm (.refl s) (.of_heap rfl rfl rfl fun _ => rfl)
  | follow i u =>
    cases h
    have h1 := hs.resolve (fun _ => hfo i u rfl) (s.heap u).state
    refine h1.then_calm (.of_eq fun e => ?_) (.dropRef _ _ _)
    simp only [Sys.resolve, Function.update_apply]; split_ifs with he <;> simp [he]
  | release u => cases h; exact hs.then_calm (.refl s) (.dropRef _ _ _)

/-- **Every step keeps the placeholders**, provided every activation forwards only allocated
values not forwarded yet; and no forwarded value changes its target. -/
theorem Step.heapInv {fn : BEFFunction} {s s' : Sys} (h : Step fn s s') (hs : s.HeapInv)
    (hfw : ∀ a, s.Runs a → ∀ e ∈ a.cur.forwarding, (s.heap e).target = none ∧ e < s.next) :
    s'.HeapInv ∧ s.KeepsTargets s' := by
  cases h with
  | env e h =>
    rcases envStep_cases h with ⟨v, st, ho, -, rfl⟩ | ⟨v, -, -, rfl⟩ | ⟨d, -, rfl⟩
    · have hm : (s.heap v).madeFor = none := by
        cases hm : (s.heap v).madeFor with
        | none => rfl
        | some r => have := (hs.made v r hm).2.2.1; simp_all
      have hm' : ((s.modify v fun a => { a with owed := false }).heap v).madeFor = none := by
        simpa [Sys.modify] using hm
      have h1 := (hs.clearOwed v).resolve (fun h' => absurd hm' h') st
      exact ⟨h1, .of_eq fun e => by
        simp only [Sys.resolve, Sys.modify, Function.update_apply]; split_ifs with he <;> simp [he]⟩
    · exact hs.then_calm (.refl s) ((Sys.Calm.modify s v (by rfl)).trans (.dropRef _ v 1))
    · exact hs.then_calm (.refl s)
        ((Sys.Calm.alloc s (by rfl) (by rfl)).trans (.of_heap rfl rfl rfl fun _ => rfl))
  | @task t rest c ht h =>
    have hfo : ∀ i u, t = .follow i u → (s.heap i).target ≠ none := by
      rintro i u rfl hi
      have h0 := hs.follow i hi
      have h1 : 1 ≤ s.weigh (followWeight i) := by
        rw [Sys.weigh_cons ht]; simp [followWeight]
      omega
    obtain ⟨h1, h2⟩ := taskStep_heapInv h (hs.of_cons ht)
      (fun a hta => hfw a (Sys.runs_of_tasks ht hta)) hfo
    exact ⟨h1, h2⟩

end BefExecutor
