/-
# Available values stay as they are

Source: `lib/bef_executor/bef_executor.cc`, `AsyncValue` states as `ProcessUsedBys` (:238-321) and `ForwardTo` see them.

`values_settle`: a value once available keeps its state along every run.
-/
import BefExecutor.Publish

namespace BefExecutor

namespace Sys

/-! ## The relation -/

/-- From `s` to `s'` the values move as an `AsyncValue` allows: an available value keeps its
state, a registered callback stays registered until its value is available, and a forwarding
closure that has started is on an available target. -/
structure Settles (s s' : Sys) : Prop where
  state : ∀ v, (s.heap v).state.isAvailable → (s'.heap v).state = (s.heap v).state
  waiting : ∀ p ∈ s.waiting, p ∈ s'.waiting ∨ (s'.heap p.1).state.isAvailable
  follow : ∀ i t, Task.follow i t ∈ s'.tasks →
    Task.follow i t ∈ s.tasks ∨ (s'.heap t).state.isAvailable

namespace Settles

variable {s s' s'' : Sys}

/-- Every state settles into itself. -/
theorem refl (s : Sys) : s.Settles s := ⟨fun _ _ => rfl, fun _ h => .inl h, fun _ _ h => .inl h⟩

/-- An available value stays available. -/
theorem available (h : s.Settles s') {v : Nat} (hv : (s.heap v).state.isAvailable) :
    (s'.heap v).state.isAvailable := by
  rw [h.state v hv]; exact hv

/-- Settling composes along a run. -/
theorem trans (h : s.Settles s') (h' : s'.Settles s'') : s.Settles s'' where
  state v hv := (h'.state v (h.available hv)).trans (h.state v hv)
  waiting p hp := (h.waiting p hp).elim (h'.waiting p) fun ha => .inr (h'.available ha)
  follow i t ht := (h'.follow i t ht).elim
    (fun h1 => (h.follow i t h1).imp_right h'.available) .inr

/-- No state changes, and only callbacks and threads other than forwarding closures are added. -/
theorem of_pool (hs : ∀ v, (s'.heap v).state = (s.heap v).state) (hw : s.waiting ≤ s'.waiting)
    (ht : ∀ i t, Task.follow i t ∈ s'.tasks → Task.follow i t ∈ s.tasks) : s.Settles s' :=
  ⟨fun v _ => hs v, fun _ hp => .inl (Multiset.subset_of_le hw hp), fun i t h => .inl (ht i t h)⟩

end Settles

/-! ## The invariant -/

/-- What a run knows of its values. -/
structure AvailInv (s : Sys) : Prop where
  /-- A value an outside producer still owes, or one with forwarding work, is unavailable,
  and has only one of the two. -/
  pending : ∀ v, s.weigh (followWeight v) + (if (s.heap v).owed then 1 else 0) ≤
    if (s.heap v).state.isAvailable then 0 else 1
  /-- Past the allocated values nothing is available, owed or forwarded. -/
  unallocated : ∀ v, s.next ≤ v →
    (s.heap v).state = .unavailable ∧ (s.heap v).owed = false ∧ s.weigh (followWeight v) = 0
  /-- A forwarding closure that has started is on an available target. -/
  ready : ∀ i t, Task.follow i t ∈ s.tasks → (s.heap t).state.isAvailable

/-- A step that keeps what a run knows of its values, and settles them. -/
def Evolves (s s' : Sys) : Prop := s.AvailInv → s'.AvailInv ∧ s.Settles s'

namespace Evolves

variable {s s' s'' : Sys}

/-- Every state evolves into itself. -/
theorem refl (s : Sys) : s.Evolves s := fun h => ⟨h, .refl s⟩

/-- Evolving composes along a run. -/
theorem trans (h : s.Evolves s') (h' : s'.Evolves s'') : s.Evolves s'' := fun hs =>
  ⟨(h' (h hs).1).1, (h hs).2.trans (h' (h hs).1).2⟩

/-- A step that changes no value's state or debt, allocates nothing, moves no forwarding work
and adds only callbacks, and threads other than forwarding closures. -/
theorem of_values
    (hs : ∀ v, (s'.heap v).state = (s.heap v).state ∧ (s'.heap v).owed = (s.heap v).owed)
    (hn : s'.next = s.next) (hw : s.waiting ≤ s'.waiting)
    (ht : ∀ i t, Task.follow i t ∈ s'.tasks → Task.follow i t ∈ s.tasks)
    (hf : ∀ j, s'.weigh (followWeight j) = s.weigh (followWeight j)) : s.Evolves s' := fun h =>
  ⟨⟨fun v => by rw [hf, (hs v).1, (hs v).2]; exact h.pending v,
    fun v hv => by rw [hf, (hs v).1, (hs v).2]; exact h.unallocated v (hn ▸ hv),
    fun i t hi => by rw [(hs t).1]; exact h.ready i t (ht i t hi)⟩,
   .of_pool (fun v => (hs v).1) hw ht⟩

/-- A step that touches neither the values nor the threads and callbacks. -/
theorem of_eq (h1 : s'.heap = s.heap) (h2 : s'.next = s.next) (h3 : s'.tasks = s.tasks)
    (h4 : s'.waiting = s.waiting) : s.Evolves s' :=
  of_values (fun _ => by rw [h1]; exact ⟨rfl, rfl⟩) h2 h4.ge (fun _ _ h => h3 ▸ h)
    fun _ => weigh_of_eq h3 h4

/-- One value replaced by one in the same state and with the same debt. -/
theorem of_update {v : Nat} {a : AsyncValue} (h1 : s'.heap = Function.update s.heap v a)
    (ha : a.state = (s.heap v).state ∧ a.owed = (s.heap v).owed) (h2 : s'.next = s.next)
    (h3 : s'.tasks = s.tasks) (h4 : s'.waiting = s.waiting) : s.Evolves s' := by
  refine of_values (fun e => ?_) h2 h4.ge (fun _ _ h => h3 ▸ h) fun _ => weigh_of_eq h3 h4
  rw [h1]
  by_cases he : e = v
  · subst he; rw [Function.update_same]; exact ha
  · rw [Function.update_noteq he]; exact ⟨rfl, rfl⟩

end Evolves

/-! ## What each primitive does -/

variable (s : Sys)

/-- `DropRef` starts no `ForwardTo` closure. -/
theorem follow_mem_dropRef {v n i t : Nat} (h : Task.follow i t ∈ (s.dropRef v n).tasks) :
    Task.follow i t ∈ s.tasks := by
  simp only [dropRef] at h
  split at h
  · rcases Multiset.mem_add.1 h with h | h
    · exact h
    · cases ht : (s.heap v).target <;> simp [releaseOf, ht] at h
  · exact h

/-- A callback of `v` that starts is on `v`. -/
theorem follow_of_waitersOn {v i t : Nat}
    (h : Task.follow i t ∈ (s.waitersOn v).map fun p => p.2.task p.1) : t = v := by
  obtain ⟨⟨x, w⟩, hp, he⟩ := Multiset.mem_map.1 h
  obtain rfl : x = v := (Multiset.mem_filter.1 hp).2
  cases w <;> simp only [Waiter.task, Task.follow.injEq, reduceCtorEq] at he
  exact he.2.symm

namespace Evolves

/-- `AddRef` changes no state. -/
theorem addRef (v n : Nat) : s.Evolves (s.addRef v n) := of_update rfl ⟨rfl, rfl⟩ rfl rfl rfl

/-- Reading a state changes no state. -/
theorem touch (v : Nat) : s.Evolves (s.touch v) := of_eq rfl rfl rfl rfl

/-- The executor's `DropRef` changes no value's state. -/
theorem dropExec : s.Evolves s.dropExec := of_eq rfl rfl rfl rfl

/-- A write that keeps a value's state and its pending mark changes no state. -/
theorem modify (v : Nat) {f : AsyncValue → AsyncValue}
    (hf : (f (s.heap v)).state = (s.heap v).state ∧ (f (s.heap v)).owed = (s.heap v).owed) :
    s.Evolves (s.modify v f) := of_update rfl hf rfl rfl rfl

/-- `DropRef` changes no state, whichever value it frees. -/
theorem dropRef (v n : Nat) : s.Evolves (s.dropRef v n) := by
  refine of_values (fun e => ?_) rfl le_rfl (fun _ _ h => s.follow_mem_dropRef h) fun j => ?_
  · show (Function.update s.heap v _ e).state = _ ∧ (Function.update s.heap v _ e).owed = _
    by_cases he : e = v
    · subst he; rw [Function.update_same]; exact ⟨rfl, rfl⟩
    · rw [Function.update_noteq he]; exact ⟨rfl, rfl⟩
  · rw [weigh_dropRef, followWeight_releaseOf]; simp

/-- An argument's `DropRef` changes no state. -/
theorem dropArgRef (r v : Nat) : s.Evolves (s.dropArgRef r v) :=
  (dropRef s v 1).trans (of_eq rfl rfl rfl rfl)

/-- `TakeRef` into a caller's result changes no state. -/
theorem takeRef (r v : Nat) : s.Evolves (s.takeRef r v) := of_update rfl ⟨rfl, rfl⟩ rfl rfl rfl

/-- Spawning a thread that is not a `ForwardTo` closure changes no state. -/
theorem spawn {t : Task} (ht : ∀ i u, t ≠ .follow i u) : s.Evolves (s.spawn t) := by
  refine of_values (fun _ => ⟨rfl, rfl⟩) rfl le_rfl (fun i u h => ?_) fun j => ?_
  · rcases Multiset.mem_add.1 h with h | h
    · exact h
    · exact absurd (Multiset.mem_singleton.1 h).symm (ht i u)
  · rw [weigh_spawn]
    cases t <;> first | rfl | exact absurd rfl (ht _ _)

/-- `MaybeAddRefForResult` changes no state. -/
theorem maybeAddRefForResult (v : Nat) : s.Evolves (s.maybeAddRefForResult v) := by
  refine of_values (fun _ => ⟨rfl, rfl⟩) rfl ?_ (fun _ _ h => h) fun j => ?_
  · simp only [Sys.maybeAddRefForResult]; split
    · exact le_rfl
    · exact Multiset.le_add_right _ _
  · rw [weigh_maybeAddRefForResult]; split <;> rfl

/-- Registering a `ProcessUsedBys` continuation changes no state. -/
theorem andThen_usedBys (v : Nat) (ids : List Nat) : s.Evolves (s.andThen v (.usedBys ids)) := by
  refine of_values (fun _ => ⟨rfl, rfl⟩) rfl ?_ (fun i u h => ?_) fun j => weigh_andThen v _
  · simp only [Sys.andThen]; split
    · exact le_rfl
    · exact Multiset.le_add_right _ _
  · simp only [Sys.andThen] at h; split at h
    · rcases Multiset.mem_add.1 h with h | h
      · exact h
      · cases Multiset.mem_singleton.1 h
    · exact h

/-- A new value: unavailable when it is owed. -/
theorem alloc {a : AsyncValue} (ha : a.owed → a.state = .unavailable) : s.Evolves (s.alloc a) :=
  fun h => by
  have upd : ∀ e, (s.alloc a).heap e = if e = s.next then a else s.heap e :=
    fun e => Function.update_apply _ _ _ _
  obtain ⟨f1, -, f3⟩ := h.unallocated s.next le_rfl
  refine ⟨⟨fun v => ?_, fun v hv => ?_, fun i t hi => ?_⟩, ⟨fun v hv => ?_, fun p hp => .inl hp,
    fun _ _ hi => .inl hi⟩⟩
  · rw [weigh_alloc, upd]
    by_cases he : v = s.next
    · rw [if_pos he, he, f3]
      cases ho : a.owed
      · simp
      · simp [ha ho]
    · rw [if_neg he]; exact h.pending v
  · rw [weigh_alloc, upd, if_neg (by simp only [Sys.alloc] at hv; omega)]
    exact h.unallocated v (by simp only [Sys.alloc] at hv; omega)
  · have := h.ready i t hi
    rw [upd, if_neg fun he => by rw [he, f1] at this; cases this]; exact this
  · rw [upd, if_neg fun he => by rw [he, f1] at hv; cases hv]

/-- A kernel's results are new values; no existing value changes state. -/
theorem invoke (bound : List Nat) (c : List ResultSpec) : s.Evolves (s.invoke bound c).2 := by
  induction c generalizing s with
  | nil => exact refl s
  | cons r c ih =>
    cases r with
    | fresh st =>
      refine (alloc s fun ho => ?_).trans (ih _)
      split at ho
      · cases ho
      · rename_i hs; cases st <;> simp_all
    | arg j => exact (addRef s _ _).trans (ih _)

/-- The placeholder `GetOrCreateRegisterValue` makes is new and pending. -/
theorem getOrCreateRegisterValue (fn : BEFFunction) (r : Nat) : s.Evolves (s.getOrCreateRegisterValue fn r).2 := by
  have ha : s.Evolves (s.alloc (placeholder fn r)) := alloc s fun h => by cases h
  simp only [Sys.getOrCreateRegisterValue]; split
  · exact ha.trans (of_eq rfl rfl rfl rfl)
  · exact ha.trans (dropRef _ _ _)

/-- `InitializeArgumentRegisters` changes no state. -/
theorem initializeArgumentRegisters (fn : BEFFunction) (args : List Nat) (i : Nat) :
    s.Evolves (Sys.initializeArgumentRegisters fn args i s) := by
  induction args generalizing i s with
  | nil => exact refl s
  | cons v args ih =>
    simp only [Sys.initializeArgumentRegisters]
    split
    · have h1 : (s.addRef v (fn.userCount i)).Evolves
          { s.addRef v (fn.userCount i) with regs := Function.update s.regs i (some v) } :=
        of_eq rfl rfl rfl rfl
      exact ((addRef s v _).trans h1).trans (ih _ _)
    · exact refl s

/-- An unavailable value that nobody owes and nothing forwards becomes available. -/
theorem resolve {v : Nat} {st : AVState} (hv : (s.heap v).state = .unavailable)
    (ho : (s.heap v).owed = false) (hw : s.weigh (followWeight v) = 0) (hn : v < s.next)
    (hst : st.isAvailable) : s.Evolves (s.resolve v st) := fun h => by
  have upd : ∀ e, (s.resolve v st).heap e = if e = v then { s.heap v with state := st } else s.heap e :=
    fun e => Function.update_apply _ _ _ _
  have keep : ∀ e, (s.heap e).state.isAvailable → ((s.resolve v st).heap e).state = (s.heap e).state :=
    fun e he => by
      rw [upd]; split_ifs with h'
      · subst h'; rw [hv] at he; cases he
      · rfl
  have avail : ∀ e, ((s.resolve v st).heap e).state.isAvailable ∨ e ≠ v ∧
      ((s.resolve v st).heap e).state = (s.heap e).state := fun e => by
    rw [upd]; split_ifs with h'
    · exact .inl hst
    · exact .inr ⟨h', rfl⟩
  have tasks : ∀ i t, Task.follow i t ∈ (s.resolve v st).tasks →
      Task.follow i t ∈ s.tasks ∨ ((s.resolve v st).heap t).state.isAvailable := fun i t hi => by
    rcases Multiset.mem_add.1 hi with hi | hi
    · exact .inl hi
    · rw [s.follow_of_waitersOn hi, upd, if_pos rfl]; exact .inr hst
  refine ⟨⟨fun e => ?_, fun e he => ?_, fun i t hi => ?_⟩, ⟨keep, fun p hp => ?_, tasks⟩⟩
  · rw [weigh_resolve, upd]
    by_cases h' : e = v
    · rw [if_pos h', h']; simp [ho, hw]
    · rw [if_neg h']; exact h.pending e
  · have he' : s.next ≤ e := he
    rw [weigh_resolve, upd, if_neg (by omega)]; exact h.unallocated e he'
  · rcases tasks i t hi with hi | hi
    · rw [keep t (h.ready i t hi)]; exact h.ready i t hi
    · exact hi
  · by_cases hp1 : p.1 = v
    · rw [hp1, upd, if_pos rfl]; exact .inr hst
    · exact .inl (Multiset.mem_filter.2 ⟨hp, hp1⟩)

/-- `ForwardTo` on an unavailable value that nobody owes and nothing forwards yet. -/
theorem forwardTo {i t : Nat} (hi : (s.heap i).state = .unavailable) (ho : (s.heap i).owed = false)
    (hw : s.weigh (followWeight i) = 0) (hn : i < s.next) : s.Evolves (s.forwardTo i t) :=
  fun h => by
  have upd : ∀ e, e ≠ i → (s.forwardTo i t).heap e = s.heap e :=
    fun e he => Function.update_noteq he _ _
  have hii : ((s.forwardTo i t).heap i).state =
      if (s.heap t).state.isAvailable then (s.heap t).state else (s.heap i).state := by
    simp [Sys.forwardTo]
  have hio : ((s.forwardTo i t).heap i).owed = false := by simp [Sys.forwardTo, ho]
  have keep : ∀ e, (s.heap e).state.isAvailable →
      ((s.forwardTo i t).heap e).state = (s.heap e).state := fun e he => by
    by_cases h' : e = i
    · subst h'; rw [hi] at he; cases he
    · rw [upd e h']
  have tasks : ∀ j u, Task.follow j u ∈ (s.forwardTo i t).tasks →
      Task.follow j u ∈ s.tasks ∨ ((s.forwardTo i t).heap u).state.isAvailable := fun j u hj => by
    simp only [Sys.forwardTo] at hj; split at hj
    · rcases Multiset.mem_add.1 hj with hj | hj
      · exact .inl hj
      · rw [s.follow_of_waitersOn hj, hii, if_pos ‹_›]; exact .inr ‹_›
    · exact .inl hj
  refine ⟨⟨fun e => ?_, fun e he => ?_, fun j u hj => ?_⟩, ⟨keep, fun p hp => ?_, tasks⟩⟩
  · rw [weigh_forwardTo]
    by_cases h' : e = i
    · subst h'; rw [hii, hio, hw]; split <;> simp_all [followWeight]
    · rw [upd e h']
      have : (followWeight e).waiter (t, .forward i) = 0 := by simp [followWeight, Ne.symm h']
      split <;> simp only [this, Nat.add_zero] <;> exact h.pending e
  · have he' : s.next ≤ e := he
    rw [weigh_forwardTo, upd e (by omega)]
    obtain ⟨f1, f2, f3⟩ := h.unallocated e he'
    refine ⟨f1, f2, ?_⟩
    have : (followWeight e).waiter (t, .forward i) = 0 := by simp [followWeight]; omega
    split <;> simp [f3, this]
  · rcases tasks j u hj with hj | hj
    · rw [keep u (h.ready j u hj)]; exact h.ready j u hj
    · exact hj
  · by_cases ht : (s.heap t).state.isAvailable
    · by_cases hp1 : p.1 = i
      · rw [hp1, hii, if_pos ht]; exact .inr ht
      · left; simp only [Sys.forwardTo, ht, if_true]; exact Multiset.mem_filter.2 ⟨hp, hp1⟩
    · left; simp only [Sys.forwardTo, ht]; exact Multiset.mem_add.2 (.inl hp)

/-- An outside producer hands its value over. -/
theorem clearOwed (v : Nat) : s.Evolves (s.modify v fun a => { a with owed := false }) :=
  fun h => by
  have upd : ∀ e, (s.modify v fun a => { a with owed := false }).heap e =
      if e = v then { s.heap v with owed := false } else s.heap e := fun e => Function.update_apply _ _ _ _
  refine ⟨⟨fun e => ?_, fun e he => ?_, fun i t hi => ?_⟩,
    .of_pool (fun e => by rw [upd]; split_ifs <;> simp_all) le_rfl fun _ _ => id⟩
  · rw [weigh_modify, upd]
    by_cases he : e = v
    · rw [if_pos he]; subst he
      refine le_trans (Nat.add_le_add_left ?_ _) (h.pending e)
      simp
    · rw [if_neg he]; exact h.pending e
  · rw [weigh_modify, upd]
    have := h.unallocated e he
    by_cases he' : e = v
    · rw [if_pos he']; subst he'; exact ⟨this.1, rfl, this.2.2⟩
    · rw [if_neg he']; exact this
  · rw [upd]
    have := h.ready i t hi
    by_cases ht : t = v
    · rw [if_pos ht]; subst ht; exact this
    · rw [if_neg ht]; exact this

/-- A thread leaves the pool to take its step. -/
theorem of_cons {t : Task} {rest : Multiset Task} (ht : s.tasks = t ::ₘ rest) :
    s.Evolves { s with tasks := rest } := fun h => by
  have sub : ∀ i u, Task.follow i u ∈ rest → Task.follow i u ∈ s.tasks :=
    fun _ _ hi => ht ▸ Multiset.mem_cons_of_mem hi
  have le : ∀ j, ({ s with tasks := rest } : Sys).weigh (followWeight j) ≤ s.weigh (followWeight j) :=
    fun j => by rw [weigh_cons ht (W := followWeight j)]; exact Nat.le_add_left _ _
  refine ⟨⟨fun v => (Nat.add_le_add_right (le v) _).trans (h.pending v),
    fun v hv => ?_, fun i u hi => h.ready i u (sub i u hi)⟩,
    .of_pool (fun _ => rfl) le_rfl sub⟩
  obtain ⟨f1, f2, f3⟩ := h.unallocated v hv
  exact ⟨f1, f2, Nat.eq_zero_of_le_zero (f3 ▸ le v)⟩

end Evolves

/-- A value `ForwardTo` may be called on: unavailable, owed to nobody and not forwarded yet. -/
def Forwardable (e : Nat) : Prop :=
  (s.heap e).state = .unavailable ∧ (s.heap e).owed = false ∧ s.weigh (followWeight e) = 0 ∧
    e < s.next

/-- A placeholder waiting in its register may be forwarded. -/
theorem HeapInv.forwardable {s : Sys} (hs : s.HeapInv) {r e : Nat} (ha : s.Awaits r e) :
    s.Forwardable e := by
  obtain ⟨h1, -, h3, h4⟩ := hs.made e r ha.2.1
  exact ⟨h4 ha.2.2, h3, hs.follow e ha.2.2, h1⟩

end Sys

/-! ## Every step -/

/-- **An activation step keeps the values' invariant and settles them**, when what it forwards
may be forwarded. -/
theorem Activation.step_evolves {fn : BEFFunction} {c : List ResultSpec} {a : Activation}
    {s s' : Sys} {oa : Option Activation} (h : a.step fn c s = some (oa, s'))
    (hfw : ∀ e ∈ a.cur.forwarding, s.Forwardable e) : s.Evolves s' := by
  rcases a with ⟨ids, cur⟩
  cases cur with
  | idle =>
    cases ids with
    | nil =>
      simp only [Activation.step, Option.some.injEq, Prod.mk.injEq] at h
      rw [← h.2]; exact .refl s
    | cons k ids =>
      simp only [Activation.step, Option.some.injEq, Prod.map, Activation.stepPop,
        Prod.mk.injEq] at h
      obtain ⟨-, rfl⟩ := h
      (repeat' split) <;> exact .of_eq rfl rfl rfl rfl
  | bindCas k bound anyErr =>
    simp only [Activation.step, Option.some.injEq, Prod.map, Activation.stepBindCas,
      Prod.mk.injEq] at h
    obtain ⟨-, rfl⟩ := h
    exact .getOrCreateRegisterValue _ _ _
  | ready k bound anyErr =>
    simp only [Activation.step, Activation.stepReady, Option.map_eq_some'] at h
    obtain ⟨p, hp, hq⟩ := h
    cases hq
    split at hp
    · split at hp
      · cases hp; exact .invoke _ _ _
      · cases hp
    · cases hp; exact .addRef _ _ _
  | result k pseudo frame i off ph =>
    simp only [Activation.step, Option.some.injEq, Prod.map, Prod.mk.injEq] at h
    obtain ⟨-, rfl⟩ := h
    cases ph with
    | setForward e =>
      obtain ⟨h1, h2, h3, h4⟩ := hfw e rfl
      exact .forwardTo _ h1 h2 h3 h4
    | andThen rv set usedBys =>
      exact (Sys.Evolves.of_eq (by rfl) (by rfl) (by rfl) (by rfl)).trans
        (.andThen_usedBys _ rv usedBys)
    | dropPlaceholder rv => exact (Sys.Evolves.modify s rv ⟨rfl, rfl⟩).trans (.dropRef _ rv 1)
    | begin =>
      cases pseudo with
      | false =>
        simp only [Activation.stepResult, Activation.stepBegin, Bool.false_eq_true, ↓reduceIte]
        (repeat' split) <;> first
          | exact (Sys.Evolves.of_eq (by rfl) (by rfl) (by rfl) (by rfl)).trans
              (.maybeAddRefForResult _ _)
          | exact (Sys.Evolves.of_eq (by rfl) (by rfl) (by rfl) (by rfl)).trans (.addRef _ _ _)
      | true =>
        simp only [Activation.stepResult, Activation.stepBegin, ↓reduceIte]
        (repeat' split) <;> exact .of_eq rfl rfl rfl rfl
    | unusedDrop | setRevert e => exact .dropRef _ _ _
    | setCas =>
      dsimp only [Activation.stepResult, Activation.stepSetCas]
      (repeat' split) <;> exact .of_eq rfl rfl rfl rfl
    | dispatch rv set =>
      dsimp only [Activation.stepResult, Activation.stepDispatch]
      split
      · exact .maybeAddRefForResult _ _
      · (repeat' split) <;> exact .of_eq rfl rfl rfl rfl
    | accelerate rv set pending usedBys => cases pending <;> exact .of_eq rfl rfl rfl rfl
  | _ =>
    simp only [Activation.step, Option.some.injEq, Prod.map, Activation.stepGated,
      Activation.stepBindLoad, Activation.stepBindCheck, Activation.stepDropArg,
      Prod.mk.injEq] at h
    obtain ⟨-, rfl⟩ := h
    all_goals (repeat' split) <;> first
      | exact .of_eq rfl rfl rfl rfl
      | exact .dropArgRef _ _ _

/-- The same for a thread: its activation forwards what may be forwarded, and a forwarding
closure it runs is on an available target and makes a value follow it that may be. -/
theorem taskStep_evolves {fn : BEFFunction} {c : List ResultSpec} {t : Task} {s s' : Sys}
    (h : taskStep fn c t s = some s')
    (hfw : ∀ a, t.act = some a → ∀ e ∈ a.cur.forwarding, s.Forwardable e)
    (hfo : ∀ i u, t = .follow i u → s.Forwardable i ∧ (s.heap u).state.isAvailable) :
    s.Evolves s' := by
  cases t with
  | main ph =>
    simp only [taskStep] at h
    cases ph with
    | start args =>
      simp only [mainStep, Option.some.injEq] at h; subst h
      unfold startExecute; split
      · exact .spawn _ fun _ _ h => by cases h
      · exact ((Sys.Evolves.initializeArgumentRegisters s fn args 0).trans
          (.of_eq (by rfl) (by rfl) (by rfl) (by rfl))).trans (.spawn _ fun _ _ h => by cases h)
    | ctor a =>
      simp only [mainStep, Option.map_eq_some'] at h
      obtain ⟨⟨oa, s''⟩, ha, rfl⟩ := h
      have := Activation.step_evolves ha (hfw a rfl)
      cases oa <;> exact this.trans (.spawn _ fun _ _ h => by cases h)
    | exportLoad i results =>
      simp only [mainStep] at h
      (repeat' split at h) <;> cases h
      · exact (Sys.Evolves.takeRef _ _ _).trans (.spawn _ fun _ _ h => by cases h)
      all_goals exact .spawn _ fun _ _ h => by cases h
    | exportCas i results =>
      simp only [mainStep, Option.some.injEq] at h; subst h
      exact ((Sys.Evolves.getOrCreateRegisterValue _ _ _).trans (.takeRef _ _ _)).trans (.spawn _ fun _ _ h => by cases h)
    | release results =>
      cases h; exact (Sys.Evolves.dropExec _).trans (.spawn _ fun _ _ h => by cases h)
    | done => cases h
  | cont a =>
    simp only [taskStep, Option.map_eq_some'] at h
    obtain ⟨⟨oa, s''⟩, ha, rfl⟩ := h
    have := Activation.step_evolves ha (hfw a rfl)
    cases oa with
    | none => exact this.trans (.dropExec _)
    | some a' => exact this.trans (.spawn _ fun _ _ h => by cases h)
  | keep => cases h; exact .of_eq rfl rfl rfl rfl
  | follow i u =>
    cases h
    obtain ⟨⟨h1, h2, h3, h4⟩, hu⟩ := hfo i u rfl
    exact (Sys.Evolves.resolve s h1 h2 h3 h4 hu).trans (.dropRef _ _ _)
  | release u => cases h; exact .dropRef _ _ _

/-- What the world does: a producer completes a value it owes, an outside holder drops a
reference, the host is cancelled. -/
theorem envStep_evolves {e : Env} {s s' : Sys} (h : envStep e s = some s') : s.Evolves s' := by
  rcases envStep_cases h with ⟨v, st, ho, hst, rfl⟩ | ⟨v, -, -, rfl⟩ | ⟨d, -, rfl⟩
  · intro hs
    have hp := hs.pending v
    have hn : v < s.next := Nat.lt_of_not_le fun hv => by
      rw [(hs.unallocated v hv).2.1] at ho; cases ho
    rw [if_pos ho] at hp
    have hv : (s.heap v).state = .unavailable := by
      split at hp
      · omega
      · rename_i hv; cases h' : (s.heap v).state <;> simp_all
    exact ((Sys.Evolves.clearOwed s v).trans (.resolve _ (by simpa [Sys.modify] using hv)
      (by simp [Sys.modify]) (by rw [Sys.weigh_modify]; split at hp <;> omega) hn hst)) hs
  · exact (Sys.Evolves.modify s v ⟨rfl, rfl⟩).trans (.dropRef _ v 1)
  · exact (Sys.Evolves.alloc s fun h => by cases h).trans (.of_eq rfl rfl rfl rfl)

/-- The indirect value of a forwarding closure about to run may be made to follow: its closure
was its only forwarding work, and nobody owes it. -/
theorem Sys.AvailInv.follow_forwardable {s : Sys} (hs : s.AvailInv) {i u : Nat}
    {rest : Multiset Task} (ht : s.tasks = .follow i u ::ₘ rest) :
    ({ s with tasks := rest } : Sys).Forwardable i := by
  have hw := Sys.weigh_cons ht (W := followWeight i)
  have h1 : (followWeight i).task (.follow i u) = 1 := if_pos rfl
  have hp := hs.pending i
  rw [h1] at hw
  refine ⟨?_, ?_, ?_, Nat.lt_of_not_le fun hn => by have := (hs.unallocated i hn).2.2; omega⟩
  · cases h : (s.heap i).state with
    | unavailable => rfl
    | _ => simp only [h, AVState.isAvailable, if_true] at hp; omega
  · cases h : (s.heap i).owed
    · rfl
    · simp only [h, if_true] at hp; split at hp <;> omega
  · split at hp <;> split at hp <;> omega

/-- The availability invariant holds before `Execute`. -/
theorem Initial.availInv {fn : BEFFunction} {args : List Nat} {s : Sys} (h : Initial fn args s) :
    s.AvailInv := by
  have hw : ∀ v, s.weigh (followWeight v) = 0 := fun v => by
    simp [Sys.weigh, h.tasks, h.waiting, followWeight]
  refine ⟨fun v => ?_, fun v hv => ?_, fun i t hi => ?_⟩
  · rw [hw]
    cases ho : (s.heap v).owed
    · simp
    · simp [((h.pending v).1 ho).2]
  · rw [h.unallocated v hv, hw]; exact ⟨rfl, rfl, rfl⟩
  · rw [h.tasks, Multiset.mem_singleton] at hi; cases hi

section Run

variable {fn : BEFFunction} (hwf : fn.WellFormed) (hl : fn.ArgumentsListed)
  (hsp : fn.SingleProducers) {args : List Nat}
include hwf hl hsp

/-- **Every step keeps the values' invariant and settles them.** -/
theorem Step.evolves {s s' : Sys} (hr : Reachable fn args s) (h : Step fn s s') : s.Evolves s' := by
  cases h with
  | env e h => exact envStep_evolves h
  | @task t rest c ht h =>
    intro hs
    have hp := hr.pubInv hwf hl hsp
    refine ((Sys.Evolves.of_cons s ht).trans
      (taskStep_evolves h (fun a hta e he => ?_) fun i u hi => ?_)) hs
    · have ha := Sys.runs_of_tasks ht hta
      obtain ⟨r, hw⟩ := (hp.acts a ha).forwarding (hr.valid hwf a ha) he
      exact (hp.heap.of_cons ht).forwardable hw
    · subst hi
      exact ⟨hs.follow_forwardable ht, hs.ready i u (ht ▸ Multiset.mem_cons_self _ _)⟩

/-- The availability invariant holds in every reachable state. -/
theorem Reachable.availInv {s : Sys} (h : Reachable fn args s) : s.AvailInv := by
  induction h with
  | init h => exact h.availInv
  | step hr hst ih => exact (hst.evolves hwf hl hsp hr ih).1

/-- Every step of a run settles the values. -/
theorem Reachable.settles {s s' : Sys} (h : Reachable fn args s) (hst : Step fn s s') :
    s.Settles s' :=
  (hst.evolves hwf hl hsp h (h.availInv hwf hl hsp)).2

end Run

end BefExecutor
