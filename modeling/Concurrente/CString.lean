import Mathlib.Data.List.Basic
import Mathlib.Tactic

/-!
# C strings

A C string is the list of its characters without the terminator.  The functions of the
C library that the programs use on names and paths, with what splits and joins need:
the last separator of a string splits it in one way only.
-/

namespace Concurrente.CString

section Split

variable {α : Type*} [DecidableEq α] {c : α} {s a b a' b' : List α} {i : ℕ}

/-- The index of the last `c`. -/
def strrchr (c : α) : List α → Option ℕ
  | [] => none
  | x :: s =>
    match strrchr c s with
    | some i => some (i + 1)
    | none => if x = c then some 0 else none

theorem strrchr_of_notMem (h : c ∉ s) : strrchr c s = none := by
  induction s with
  | nil => rfl
  | cons x s ih =>
    obtain ⟨hx, hs⟩ := not_or.mp fun hx => h (List.mem_cons.mpr hx)
    rw [strrchr, ih hs]
    exact if_neg (Ne.symm hx)

theorem strrchr_append (hb : c ∉ b) : strrchr c (a ++ c :: b) = some a.length := by
  induction a with
  | nil => rw [List.nil_append, strrchr, strrchr_of_notMem hb, if_pos rfl, List.length_nil]
  | cons x a ih => rw [List.cons_append, strrchr, ih, List.length_cons]

theorem exists_split (h : c ∈ s) : ∃ a b, s = a ++ c :: b ∧ c ∉ b := by
  induction s with
  | nil => exact absurd h List.not_mem_nil
  | cons x s ih =>
    by_cases hs : c ∈ s
    · obtain ⟨a, b, rfl, hb⟩ := ih hs
      exact ⟨x :: a, b, rfl, hb⟩
    · obtain rfl := (List.mem_cons.mp h).resolve_right hs
      exact ⟨[], s, rfl, hs⟩

theorem split_unique (h : a ++ c :: b = a' ++ c :: b') (hb : c ∉ b) (hb' : c ∉ b') :
    a = a' ∧ b = b' := by
  have hlen : a.length = a'.length := by
    have hr := congrArg (strrchr c) h
    rw [strrchr_append hb, strrchr_append hb'] at hr
    exact Option.some.inj hr
  obtain ⟨ha, hcons⟩ := List.append_inj h hlen
  exact ⟨ha, (List.cons.inj hcons).2⟩

end Split

section Format

variable {α : Type*} {text : List α} {size : ℕ}

/-- What a buffer of `size` bytes holds after `snprintf` of a text. -/
def snprintf (size : ℕ) (text : List α) : List α := text.take (size - 1)

/-- The text does not fit the buffer with its terminator. -/
def Truncates (size : ℕ) (text : List α) : Prop := size ≤ text.length

theorem snprintf_eq (h : ¬ Truncates size text) : snprintf size text = text := by
  unfold Truncates at h
  exact List.take_of_length_le (by omega)

/-- The conversion of a `size_t` to `int`. -/
def toInt (n : ℕ) : ℤ := (BitVec.ofNat 32 n).toInt

theorem toInt_eq {n : ℕ} (h : n < 2 ^ 31) : toInt n = n := by
  rw [toInt, BitVec.toInt_eq_toNat_cond, BitVec.toNat_ofNat]
  have hmod : n % 2 ^ 32 = n := Nat.mod_eq_of_lt (by omega)
  rw [hmod, if_pos (by omega)]

/-- `%.*s`; a negative precision does not count. -/
def precision (n : ℤ) (text : List α) : List α := if n < 0 then text else text.take n.toNat

theorem precision_toInt {n : ℕ} (h : n < 2 ^ 31) : precision (toInt n) text = text.take n := by
  rw [toInt_eq h, precision, if_neg (by omega), Int.toNat_natCast]

end Format

/-- `%lu`. -/
def decimal (n : ℕ) : List Char := Nat.toDigits 10 n

theorem decimal_injective {m n : ℕ} (h : decimal m = decimal n) : m = n := by
  have hm : Nat.ofDigitChars 10 (decimal m) 0 = m := Nat.ofDigitChars_ten_toDigits
  rw [← hm, h]
  exact Nat.ofDigitChars_ten_toDigits

theorem isDigit_of_mem_decimal {n : ℕ} {c : Char} (h : c ∈ decimal n) : c.isDigit = true :=
  Nat.isDigit_of_mem_toDigits (by norm_num) (by norm_num) h

theorem decimal_length_le {n : ℕ} (h : n < 2 ^ 64) : (decimal n).length ≤ 20 := by
  rw [decimal, Nat.length_toDigits_le_iff (by norm_num) (by norm_num)]
  exact h.trans (by norm_num)

end Concurrente.CString
