/-
# Kernel records and the used-by offset walk

Source: `lib/bef_executor/bef_executor.cc`, `BEFKernel` as the executor reads it; the results loops of `ProcessArgumentsPseudoKernel` (:338-352) and `DecrementArgumentsNotReadyCounts` (:483-514).

`resultsLoop_eq_usedByLists`: with unused results free of used-bys, each dispatched result gets its own used-by list.
-/
import Mathlib.Algebra.BigOperators.Group.List

namespace BefExecutor

/-! ## The kernel record -/

/-- A kernel record as `BEFKernel` decodes it. The stream layout of the header is the
loader's business; the executor only reads these fields. -/
structure BEFKernel where
  kernelCode : Nat
  kernelLocation : Nat
  specialMetadata : Nat
  numArguments : Nat
  numAttributes : Nat
  numFunctions : Nat
  numResults : Nat
  /-- The result table: entry `i` is `num_used_bys(i)`. -/
  usedByCounts : List Nat
  /-- The entries that follow the result table. -/
  body : List Nat
  deriving Repr, DecidableEq

namespace BEFKernel

variable (k : BEFKernel)

/-- `num_used_bys(result_number)`. -/
def numUsedBys (i : Nat) : Nat := k.usedByCounts.getD i 0

/-- `GetKernelEntries(start, num_entries)`: the entries `[start, start + num_entries)` of the
body. The code reads them unchecked; the model truncates at the end of the body. -/
def getKernelEntries (start n : Nat) : List Nat := (k.body.drop start).take n

/-- The low bit of `special_metadata`, `SpecialAttribute::kNonStrict`. -/
def isNonStrict : Bool := k.specialMetadata % 2 == 1

/-- The argument registers. -/
def arguments : List Nat := k.getKernelEntries 0 k.numArguments

/-- The attribute offsets. -/
def attributes : List Nat := k.getKernelEntries k.numArguments k.numAttributes

/-- The function indices. -/
def functions : List Nat :=
  k.getKernelEntries (k.numArguments + k.numAttributes) k.numFunctions

/-- Where the results start: `entry_offset` after arguments, attributes and functions. -/
def resultStart : Nat := k.numArguments + k.numAttributes + k.numFunctions

/-- The result registers of an ordinary kernel. -/
def results : List Nat := k.getKernelEntries k.resultStart k.numResults

/-- `entry_offset` at the first used-by entry of an ordinary kernel. -/
def usedByStart : Nat := k.resultStart + k.numResults

/-- The result registers of the argument pseudo-kernel, read from entry `0`. -/
def pseudoResults : List Nat := k.getKernelEntries 0 k.numResults

/-! ## `ProcessUsedBys` and the results loop -/

/-- The used-by slice `ProcessUsedBys` takes for result `i` at `entry_offset = off`, and the
offset it leaves behind: with no used-by entries it returns before touching the offset. -/
def usedBySlice (i off : Nat) : List Nat × Nat :=
  if k.numUsedBys i = 0 then ([], off)
  else (k.getKernelEntries off (k.numUsedBys i), off + k.numUsedBys i)

/-- The results loop from result `i` at `entry_offset = off`, `remaining` results to go: the
used-by slices handed to `ProcessUsedBys`, each tagged with its result index. `regs` are the
result registers; a result whose register has `user_count == 0` is skipped. -/
def resultsLoop (userCount : Nat → Nat) (regs : List Nat) :
    (remaining i off : Nat) → List (Nat × List Nat)
  | 0, _, _ => []
  | r + 1, i, off =>
    if userCount (regs.getD i 0) = 0 then resultsLoop userCount regs r (i + 1) off
    else (i, (k.usedBySlice i off).1) :: resultsLoop userCount regs r (i + 1) (k.usedBySlice i off).2

/-- The number of used-by entries of the results before `i`. -/
def usedByPrefix : Nat → Nat
  | 0 => 0
  | i + 1 => usedByPrefix i + k.numUsedBys i

/-- The used-by list of result `i` when the lists start at `base` and follow one another. -/
def usedByList (base i : Nat) : List Nat :=
  k.getKernelEntries (base + k.usedByPrefix i) (k.numUsedBys i)

/-- The loop's side condition: a result nobody uses has no used-by entries. -/
def UnusedHaveNoUsedBys (userCount : Nat → Nat) (regs : List Nat) : Prop :=
  ∀ i < k.numResults, userCount (regs.getD i 0) = 0 → k.numUsedBys i = 0

/-- Decidable, so that a concrete record can be checked by `decide`. -/
instance (userCount : Nat → Nat) (regs : List Nat) :
    Decidable (k.UnusedHaveNoUsedBys userCount regs) :=
  inferInstanceAs (Decidable (∀ i < k.numResults, _))

/-- The prefix grows by the used-by entries of one more result. -/
theorem usedByPrefix_succ (i : Nat) :
    k.usedByPrefix (i + 1) = k.usedByPrefix i + k.numUsedBys i := rfl

/-- Whatever branch `ProcessUsedBys` takes, the offset moves past the result's entries. -/
theorem usedBySlice_snd (i off : Nat) : (k.usedBySlice i off).2 = off + k.numUsedBys i := by
  unfold usedBySlice; split <;> simp_all

/-- The slice handed over is the entries of the result starting at the offset. -/
theorem usedBySlice_fst (i off : Nat) :
    (k.usedBySlice i off).1 = k.getKernelEntries off (k.numUsedBys i) := by
  unfold usedBySlice; split <;> simp_all [getKernelEntries]

/-- **Loop invariant.** Started at `base + usedByPrefix i`, the loop hands each dispatched
result its own used-by list. -/
theorem resultsLoop_eq (userCount : Nat → Nat) (regs : List Nat) (base : Nat)
    (h : k.UnusedHaveNoUsedBys userCount regs) :
    ∀ r i, i + r ≤ k.numResults →
      k.resultsLoop userCount regs r i (base + k.usedByPrefix i) =
        ((List.range' i r).filter (fun j => userCount (regs.getD j 0) ≠ 0)).map
          (fun j => (j, k.usedByList base j)) := by
  intro r
  induction r with
  | zero => intro i _; rfl
  | succ r ih =>
    intro i hi
    have hnext : base + k.usedByPrefix i + k.numUsedBys i = base + k.usedByPrefix (i + 1) := by
      rw [usedByPrefix_succ]; omega
    by_cases hu : userCount (regs.getD i 0) = 0
    · have hz : k.numUsedBys i = 0 := h i (by omega) hu
      rw [resultsLoop, if_pos hu, List.range'_succ, List.filter_cons_of_neg (by simpa using hu),
        ← ih (i + 1) (by omega), ← hnext, hz]
      rfl
    · rw [resultsLoop, if_neg hu, List.range'_succ, List.filter_cons_of_pos (by simpa using hu),
        List.map_cons, usedBySlice_snd, hnext, ih (i + 1) (by omega), usedBySlice_fst]
      rfl

/-- **The used-by walk of both results loops.** For an ordinary kernel (`regs = results`,
`base = usedByStart`) and for the argument pseudo-kernel (`regs = pseudoResults`,
`base = numResults`), if every unused result has no used-by entries then the results loop
hands `ProcessUsedBys` exactly the entries `[base + Σ_{j<i} n_j, base + Σ_{j≤i} n_j)` for
each result `i` it does not skip. -/
theorem resultsLoop_eq_usedByLists (userCount : Nat → Nat) :
    (k.UnusedHaveNoUsedBys userCount k.results →
      k.resultsLoop userCount k.results k.numResults 0 k.usedByStart =
        ((List.range k.numResults).filter (fun j => userCount (k.results.getD j 0) ≠ 0)).map
          (fun j => (j, k.getKernelEntries (k.usedByStart + k.usedByPrefix j)
            (k.usedByPrefix (j + 1) - k.usedByPrefix j)))) ∧
    (k.UnusedHaveNoUsedBys userCount k.pseudoResults →
      k.resultsLoop userCount k.pseudoResults k.numResults 0 k.numResults =
        ((List.range k.numResults).filter
            (fun j => userCount (k.pseudoResults.getD j 0) ≠ 0)).map
          (fun j => (j, k.getKernelEntries (k.numResults + k.usedByPrefix j)
            (k.usedByPrefix (j + 1) - k.usedByPrefix j)))) := by
  have hlen : ∀ j, k.usedByPrefix (j + 1) - k.usedByPrefix j = k.numUsedBys j := by
    intro j; rw [usedByPrefix_succ]; omega
  simp only [hlen, List.range_eq_range']
  exact ⟨fun h => by simpa using k.resultsLoop_eq userCount _ _ h k.numResults 0 (by simp),
    fun h => by simpa using k.resultsLoop_eq userCount _ _ h k.numResults 0 (by simp)⟩

/-- A record with an unused result between two used ones: `usedByCounts = [2, 0, 1]`. -/
def skipExample : BEFKernel :=
  { kernelCode := 0, kernelLocation := 0, specialMetadata := 0, numArguments := 0,
    numAttributes := 0, numFunctions := 0, numResults := 3, usedByCounts := [2, 0, 1],
    body := [5, 6, 7, 10, 11, 12] }

/-- The walk at `skipExample`, where register `6` has no user: result `0` gets `[10, 11]` and
result `2` gets `[12]`. -/
theorem resultsLoop_eq_usedByLists_skipExample :
    skipExample.UnusedHaveNoUsedBys (fun r => if r = 6 then 0 else 1) skipExample.results ∧
      skipExample.UnusedHaveNoUsedBys (fun r => if r = 6 then 0 else 1)
        skipExample.pseudoResults ∧
      skipExample.resultsLoop (fun r => if r = 6 then 0 else 1) skipExample.results 3 0 3 =
        [(0, [10, 11]), (2, [12])] :=
  have h1 : skipExample.UnusedHaveNoUsedBys (fun r => if r = 6 then 0 else 1)
      skipExample.results := by decide
  have h2 : skipExample.UnusedHaveNoUsedBys (fun r => if r = 6 then 0 else 1)
      skipExample.pseudoResults := by decide
  ⟨h1, h2, ((resultsLoop_eq_usedByLists skipExample _).1 h1).trans (by decide)⟩

end BEFKernel

end BefExecutor
