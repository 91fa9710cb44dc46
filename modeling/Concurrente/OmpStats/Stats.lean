import Concurrente.Doubles
import Concurrente.Integers
import Mathlib.Data.List.Sort

/-!
# Statistics of a vector

The functions of `stats.hpp` that `analyze` calls, for the element types that it supports.
The result of a function is undefined where an addition of signed integers overflows.
-/

namespace Concurrente.OmpStats

inductive ElementType
  | short
  | ushort
  | int
  | uint
  | long
  | ulong
  | double
  deriving DecidableEq

abbrev Integer (τ : IntType) : Type := {x : ℤ // τ.InRange x}

def ElementType.Value : ElementType → Type
  | .short => Integer IntType.short
  | .ushort => Integer IntType.ushort
  | .int => Integer IntType.int
  | .uint => Integer IntType.uint
  | .long => Integer IntType.long
  | .ulong => Integer IntType.ulong
  | .double => Double

instance (τ : ElementType) : LinearOrder τ.Value :=
  match τ with
  | .short => inferInstanceAs (LinearOrder (Integer IntType.short))
  | .ushort => inferInstanceAs (LinearOrder (Integer IntType.ushort))
  | .int => inferInstanceAs (LinearOrder (Integer IntType.int))
  | .uint => inferInstanceAs (LinearOrder (Integer IntType.uint))
  | .long => inferInstanceAs (LinearOrder (Integer IntType.long))
  | .ulong => inferInstanceAs (LinearOrder (Integer IntType.ulong))
  | .double => inferInstanceAs (LinearOrder Double)

/-- `std::numeric_limits`. -/
structure NumericLimits (α : Type) where
  min : α
  max : α

def integerLimits (τ : IntType) : NumericLimits (Integer τ) where
  min := ⟨τ.min, le_rfl, (IntType.zero_inRange (τ := τ)).1.trans IntType.zero_inRange.2⟩
  max := ⟨τ.max, (IntType.zero_inRange (τ := τ)).1.trans IntType.zero_inRange.2, le_rfl⟩

/-- The minimum of `double` is its smallest positive normal number. -/
def doubleLimits : NumericLimits Double := ⟨Double.smallestNormal, Double.largest⟩

def ElementType.limits : (τ : ElementType) → NumericLimits τ.Value
  | .short => integerLimits IntType.short
  | .ushort => integerLimits IntType.ushort
  | .int => integerLimits IntType.int
  | .uint => integerLimits IntType.uint
  | .long => integerLimits IntType.long
  | .ulong => integerLimits IntType.ulong
  | .double => doubleLimits

section Extrema

variable {α : Type} [LinearOrder α] (limits : NumericLimits α) (values : List α)

def minimum : α := values.foldl (fun result value => if value < result then value else result)
  limits.max

def maximum : α := values.foldl (fun result value => if value > result then value else result)
  limits.min

end Extrema

section Sums

variable (τ : IntType)

/-- `a += b`: the operands are promoted, and the sum is converted back. -/
def addAssign (a b : ℤ) : Option ℤ := (τ.promote.add a b).map τ.convert

def sum (values : List (Integer τ)) : Option ℤ :=
  values.foldlM (fun result value => addAssign τ result value.1) 0

/-- The dividend, before its conversion to `double`, and the divisor. -/
def average (values : List (Integer τ)) : Option (ℤ × ℕ) :=
  if 0 < values.length then (sum τ values).map fun result => (result, values.length)
  else some (0, 1)

/-- `std::sort`. -/
def sort (values : List (Integer τ)) : List ℤ := (values.map Subtype.val).mergeSort

/-- The median, with a conversion of integers to `double`. -/
def medianWith (convert : ℤ → ℚ) (values : List (Integer τ)) : Option ℚ :=
  let count := values.length
  if 0 < count then
    if count % 2 = 1 then (sort τ values)[count / 2]?.map convert
    else do
      let a ← (sort τ values)[count / 2]?
      let b ← (sort τ values)[count / 2 - 1]?
      let middle ← τ.promote.add a b
      some (convert middle / 2)
  else some 0

def median (values : List (Integer τ)) : Option ℚ := medianWith τ toDouble values

end Sums

end Concurrente.OmpStats
