import Mathlib.Data.List.Sort
import Concurrente.Iteration
import Concurrente.Slice

/-!
# omp_mergesort

`mergesort.hpp`: a call on more than 1025 values makes two tasks for the halves, waits for
both and merges.  The unfinished calls form a tree, and any of them may take the next
step.  `std::sort`, `std::merge` and `std::copy` are one step each.  Indices are
`ptrdiff_t`; `mid` is a `size_t` in between, which changes no value.
-/

namespace Concurrente.OmpMergesort

inductive Undefined where
  | overflow
  | outside
  deriving DecidableEq

def ptrdiff (x : ℤ) : Except Undefined ℤ :=
  if -2 ^ 63 ≤ x ∧ x < 2 ^ 63 then .ok x else .error .overflow

abbrev Values := Block

def range {α : Type} (values : Values α) (first last : ℤ) : Except Undefined (ℕ × ℕ) :=
  if 0 ≤ first ∧ first ≤ last ∧ last ≤ values.size then .ok (first.toNat, last.toNat)
  else .error .outside

inductive Task (α : Type) where
  | call (left right : ℤ)
  | taskwait (left mid right : ℤ) (first second : Task α)
  | copy (left : ℤ) (temp : List α)
  | done

section Code

variable {α : Type} [LinearOrder α]

/-- A call up to the `taskwait`, or to its end when it makes no tasks. -/
def mergesort (left right : ℤ) (values : Values α) : Except Undefined (Values α × Task α) := do
  let count ← ptrdiff (right - left)
  if count > 1024 then
    let sum ← ptrdiff (left + right)
    let mid := sum.tdiv 2
    return (values, .taskwait left mid right (.call left mid) (.call (mid + 1) right))
  else
    let (first, last) ← range values left (right + 1)
    return (values.splice first ((values.slice first last).mergeSort fun a b => a ≤ b), .done)

/-- `std::merge` into `temp`, after the `taskwait`. -/
def mergeHalves (left mid right : ℤ) (values : Values α) :
    Except Undefined (Values α × Task α) := do
  let (first1, last1) ← range values left (mid + 1)
  let (first2, last2) ← range values (mid + 1) (right + 1)
  let temp := (values.slice first1 last1).merge (values.slice first2 last2) fun a b => a ≤ b
  return (values, .copy left temp)

def copyTemp (left : ℤ) (temp : List α) (values : Values α) :
    Except Undefined (Values α × Task α) := do
  let (first, _) ← range values left (left + temp.length)
  return (values.splice first temp, .done)

/-- The step of the call at a path in the tree; `false` leads to the first task of a call. -/
def Task.step : Task α → List Bool → Values α → Option (Except Undefined (Values α × Task α))
  | .call left right, [], values => some (mergesort left right values)
  | .taskwait left mid right .done .done, [], values => some (mergeHalves left mid right values)
  | .taskwait left mid right first second, false :: path, values =>
    (first.step path values).map fun x =>
      x.map fun (values, first) => (values, .taskwait left mid right first second)
  | .taskwait left mid right first second, true :: path, values =>
    (second.step path values).map fun x =>
      x.map fun (values, second) => (values, .taskwait left mid right first second)
  | .copy left temp, [], values => some (copyTemp left temp values)
  | _, _, _ => none

/-- The vector and the tree; nothing moves after an undefined step. -/
structure State (α : Type) where
  values : Values α
  task : Task α
  undefined : Option Undefined

def step (s : State α) (path : List Bool) : Option (State α) :=
  if s.undefined = none then
    match s.task.step path s.values with
    | none => none
    | some (.ok (values, task)) => some ⟨values, task, none⟩
    | some (.error e) => some { s with undefined := some e }
  else none

/-- `mergesort(values, thread_count)`: the first call; for the empty vector `right` is -1. -/
def system (values : Values α) : System (State α) (List Bool) where
  start := ⟨values, .call 0 (values.size - 1), none⟩
  step := step

end Code

section Claim

variable {α : Type} [LinearOrder α]

def Task.sub : Task α → List Bool → Option (Task α)
  | t, [] => some t
  | .taskwait _ _ _ first _, false :: path => first.sub path
  | .taskwait _ _ _ _ second, true :: path => second.sub path
  | _, _ :: _ => none

end Claim

end Concurrente.OmpMergesort
