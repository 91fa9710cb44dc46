import Mathlib.Data.List.Basic
import Mathlib.Tactic

/-!
# Words in byte sequences

A 64-bit word is eight bytes, the least significant first.  A byte sequence is read
as the words in it, whose number does not count an incomplete one at the end.
-/

namespace Concurrente

/-- The lowest `count` bytes of a number. -/
def bytesOf : ℕ → ℕ → List UInt8
  | 0, _ => []
  | count + 1, n => UInt8.ofNat n :: bytesOf count (n / 256)

def numberOf : List UInt8 → ℕ := List.foldr (fun b n => b.toNat + 256 * n) 0

theorem length_bytesOf (count n : ℕ) : (bytesOf count n).length = count := by
  induction count generalizing n with
  | zero => rfl
  | succ count ih => rw [bytesOf, List.length_cons, ih]

theorem numberOf_cons (b : UInt8) (l : List UInt8) :
    numberOf (b :: l) = b.toNat + 256 * numberOf l := rfl

theorem numberOf_bytesOf (count n : ℕ) : numberOf (bytesOf count n) = n % 256 ^ count := by
  induction count generalizing n with
  | zero => rw [pow_zero, Nat.mod_one]; rfl
  | succ count ih =>
    have hlow : (UInt8.ofNat n).toNat = n % 256 := UInt8.toNat_ofNat'
    rw [bytesOf, numberOf_cons, ih, hlow, pow_succ', Nat.mod_mul]

theorem numberOf_lt (l : List UInt8) : numberOf l < 256 ^ l.length := by
  induction l with
  | nil => exact Nat.one_pos
  | cons b l ih =>
    have := b.toNat_lt
    rw [numberOf_cons, List.length_cons, pow_succ]
    omega

theorem bytesOf_numberOf (l : List UInt8) : bytesOf l.length (numberOf l) = l := by
  induction l with
  | nil => rfl
  | cons b l ih =>
    have := b.toNat_lt
    have hlow : UInt8.ofNat (b.toNat + 256 * numberOf l) = b := by
      apply UInt8.toNat_inj.mp
      rw [UInt8.toNat_ofNat']
      omega
    have hhigh : (b.toNat + 256 * numberOf l) / 256 = numberOf l := by omega
    rw [List.length_cons, bytesOf, numberOf_cons, hlow, hhigh, ih]

def wordBytes (w : UInt64) : List UInt8 := bytesOf 8 w.toNat

def wordOf (l : List UInt8) : UInt64 := UInt64.ofNat (numberOf l)

theorem length_wordBytes (w : UInt64) : (wordBytes w).length = 8 := length_bytesOf 8 _

theorem wordOf_wordBytes (w : UInt64) : wordOf (wordBytes w) = w := by
  have := w.toNat_lt
  rw [wordOf, wordBytes, numberOf_bytesOf, Nat.mod_eq_of_lt (by omega), UInt64.ofNat_toNat]

theorem wordBytes_wordOf {l : List UInt8} (h : l.length = 8) : wordBytes (wordOf l) = l := by
  have hlt := numberOf_lt l
  rw [h] at hlt
  have hnum : (wordOf l).toNat = numberOf l := by
    rw [wordOf, UInt64.toNat_ofNat']
    exact Nat.mod_eq_of_lt (by omega)
  calc wordBytes (wordOf l) = bytesOf l.length (numberOf l) := by rw [wordBytes, hnum, h]
    _ = l := bytesOf_numberOf l

def wordsOf (l : List UInt8) : List UInt64 :=
  (List.range (l.length / 8)).map fun i => wordOf ((l.drop (8 * i)).take 8)

theorem length_wordsOf (l : List UInt8) : (wordsOf l).length = l.length / 8 := by
  rw [wordsOf, List.length_map, List.length_range]

theorem wordsOf_append {a : List UInt8} (ha : a.length = 8) (l : List UInt8) :
    wordsOf (a ++ l) = wordOf a :: wordsOf l := by
  have hlen : (a ++ l).length / 8 = l.length / 8 + 1 := by
    rw [List.length_append, ha]
    omega
  have hfirst : (a ++ l).take 8 = a := List.take_left' ha
  have hrest : ∀ i, (a ++ l).drop (8 * (i + 1)) = l.drop (8 * i) := by
    intro i
    rw [show 8 * (i + 1) = a.length + 8 * i by omega, List.drop_append]
    simp
  rw [wordsOf, hlen, List.range_succ_eq_map, List.map_cons, List.map_map, Nat.mul_zero,
    List.drop_zero, hfirst, wordsOf]
  congr 1
  refine List.map_congr_left fun i _ => ?_
  rw [Function.comp_apply, hrest]

theorem wordsOf_eq_cons {l : List UInt8} (h : 8 ≤ l.length) :
    wordsOf l = wordOf (l.take 8) :: wordsOf (l.drop 8) := by
  have := wordsOf_append (a := l.take 8) (by rw [List.length_take]; omega) (l.drop 8)
  rwa [List.take_append_drop] at this

theorem wordsOf_flatMap (ws : List UInt64) : wordsOf (ws.flatMap wordBytes) = ws := by
  induction ws with
  | nil => rfl
  | cons w ws ih =>
    rw [List.flatMap_cons, wordsOf_append (length_wordBytes w), wordOf_wordBytes, ih]

theorem length_flatMap_wordBytes (ws : List UInt64) :
    (ws.flatMap wordBytes).length = 8 * ws.length := by
  induction ws with
  | nil => rfl
  | cons w ws ih =>
    rw [List.flatMap_cons, List.length_append, length_wordBytes, ih, List.length_cons]
    omega

theorem flatMap_take_wordsOf {k : ℕ} {l : List UInt8} (h : 8 * k ≤ l.length) :
    ((wordsOf l).take k).flatMap wordBytes = l.take (8 * k) := by
  induction k generalizing l with
  | zero => rfl
  | succ k ih =>
    have hrest : 8 * k ≤ (l.drop 8).length := by
      rw [List.length_drop]
      omega
    have hfirst : (l.take 8).length = 8 := by
      rw [List.length_take]
      omega
    rw [wordsOf_eq_cons (by omega), List.take_succ_cons, List.flatMap_cons, ih hrest,
      wordBytes_wordOf hfirst, Nat.mul_succ, Nat.add_comm, List.take_add]

end Concurrente
