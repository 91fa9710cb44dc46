import Concurrente.Loops

/-!
# Percent-encoding

`Util::decodeURI`: a `%` with two hexadecimal digits is a byte, a `+` is a space, and every
other byte stands for itself.  An incomplete escape at the end is dropped.  Reading a byte
past the end of the text is a fault.
-/

namespace Concurrente.Util

def percent : UInt8 := '%'.toUInt8

def plus : UInt8 := '+'.toUInt8

def minus : UInt8 := '-'.toUInt8

def blank : UInt8 := ' '.toUInt8

/-- The blanks and the control characters from `\t` to `\r`. -/
def isSpace (c : UInt8) : Bool := c = blank ∨ 9 ≤ c.toNat ∧ c.toNat ≤ 13

def hexValue (c : UInt8) : Option ℕ :=
  if 48 ≤ c.toNat ∧ c.toNat ≤ 57 then some (c.toNat - 48)
  else if 97 ≤ c.toNat ∧ c.toNat ≤ 102 then some (c.toNat - 87)
  else if 65 ≤ c.toNat ∧ c.toNat ≤ 70 then some (c.toNat - 55)
  else none

/-- The number that the digits at the beginning of a text continue. -/
def hexNumber : List UInt8 → ℕ → ℕ
  | [], n => n
  | c :: text, n =>
    match hexValue c with
    | some d => hexNumber text (16 * n + d)
    | none => n

/-- `0x` before a digit does not count. -/
def skipPrefix : List UInt8 → List UInt8
  | zero :: x :: c :: text =>
    if zero = '0'.toUInt8 ∧ (x = 'x'.toUInt8 ∨ x = 'X'.toUInt8) ∧ (hexValue c).isSome then c :: text
    else zero :: x :: c :: text
  | text => text

def signedNumber : List UInt8 → ℤ
  | c :: text =>
    if c = minus then -hexNumber (skipPrefix text) 0
    else if c = plus then hexNumber (skipPrefix text) 0
    else hexNumber (skipPrefix (c :: text)) 0
  | [] => 0

/-- `strtol` with base 16; a number that is too large is replaced by the closest `long`. -/
def strtol (text : List UInt8) : ℤ :=
  max (-2 ^ 63) (min (2 ^ 63 - 1) (signedNumber (text.dropWhile isSpace)))

/-- An array of `char` as a text. -/
def cString (chars : List UInt8) : List UInt8 := chars.takeWhile fun c => c ≠ 0

/-- The conversion to `char`; a signed `char` has the same bits. -/
def toChar (n : ℤ) : UInt8 := UInt8.ofInt n

structure Decoding where
  pos : ℕ
  result : List UInt8

/-- One round of the loop, with the step to the next position. -/
def decodeRound (uri : List UInt8) (s : Decoding) : Option Decoding := do
  let c ← uri[s.pos]?
  if c = percent then
    if s.pos + 2 < uri.length then
      let high ← uri[s.pos + 1]?
      let low ← uri[s.pos + 2]?
      some ⟨s.pos + 2 + 1, s.result ++ [toChar (strtol (cString [high, low, 0]))]⟩
    else some ⟨s.pos + 1, s.result⟩
  else if c = plus then some ⟨s.pos + 1, s.result ++ [blank]⟩
  else some ⟨s.pos + 1, s.result ++ [c]⟩

def decodeURI (fuel : ℕ) (uri : List UInt8) : Option Decoding :=
  whileLoop (fun s => s.pos < uri.length) (decodeRound uri) fuel ⟨0, []⟩

/-- The loop consumes the whole text, without a fault, and returns `text`. -/
def Decodes (uri text : List UInt8) : Prop := ∃ fuel, decodeURI fuel uri = some ⟨uri.length, text⟩

inductive Encodes : List UInt8 → List UInt8 → Prop
  | nil : Encodes [] []
  | literal {c s e} : c ≠ percent → c ≠ plus → Encodes s e → Encodes (c :: s) (c :: e)
  | escape {c high low s e} : hexValue high = some (c.toNat / 16) →
    hexValue low = some (c.toNat % 16) → Encodes s e →
    Encodes (c :: s) (percent :: high :: low :: e)
  | plus {s e} : Encodes s e → Encodes (blank :: s) (plus :: e)

section Escape

variable {c high low : UInt8} {n : ℕ}

theorem hexValue_some (h : hexValue c = some n) : 48 ≤ c.toNat := by
  rw [hexValue] at h
  split_ifs at h <;> omega

theorem ne_of_hexValue {d : UInt8} (h : hexValue c = some n) (hd : d.toNat < 48) : c ≠ d := by
  rintro rfl
  have := hexValue_some h
  omega

theorem isSpace_of_hexValue (h : hexValue c = some n) : isSpace c = false := by
  have h48 := hexValue_some h
  have hblank : c ≠ blank := ne_of_hexValue h (by decide)
  rw [isSpace, decide_eq_false_iff_not]
  rintro (hc | hc)
  · exact hblank hc
  · omega

theorem toChar_digits (hh : hexValue high = some (c.toNat / 16))
    (hl : hexValue low = some (c.toNat % 16)) : toChar (strtol (cString [high, low, 0])) = c := by
  have hlt := c.toNat_lt
  have hhigh : high ≠ 0 := ne_of_hexValue hh (by decide)
  have hlow : low ≠ 0 := ne_of_hexValue hl (by decide)
  have hminus : high ≠ minus := ne_of_hexValue hh (by decide)
  have hplus : high ≠ plus := ne_of_hexValue hh (by decide)
  have hstring : cString [high, low, 0] = [high, low] := by
    simp [cString, hhigh, hlow]
  have hdrop : [high, low].dropWhile isSpace = [high, low] := by
    rw [List.dropWhile_cons, isSpace_of_hexValue hh]
    rfl
  have hnumber : hexNumber [high, low] 0 = c.toNat := by
    simp only [hexNumber, hh, hl]
    omega
  rw [hstring, strtol, hdrop, signedNumber, if_neg hminus, if_neg hplus, skipPrefix, hnumber,
    min_eq_right (by omega), max_eq_right (by omega), toChar]
  · have hmod : ((c.toNat : ℤ) % 2 ^ 8).toNat = c.toNat := by omega
    rw [UInt8.ofInt, hmod, UInt8.ofNat_toNat]
  · simp

end Escape

section Loop

variable {uri a s e : List UInt8} {r : List UInt8} {c high low : UInt8}

theorem decodeRound_literal (hp : c ≠ percent) (hq : c ≠ plus) :
    decodeRound (a ++ c :: e) ⟨a.length, r⟩ = some ⟨(a ++ [c]).length, r ++ [c]⟩ := by
  simp [decodeRound, hp, hq]

theorem decodeRound_plus :
    decodeRound (a ++ plus :: e) ⟨a.length, r⟩ = some ⟨(a ++ [plus]).length, r ++ [blank]⟩ := by
  have hne : plus ≠ percent := by decide
  simp [decodeRound, hne]

theorem decodeRound_escape (hh : hexValue high = some (c.toNat / 16))
    (hl : hexValue low = some (c.toNat % 16)) :
    decodeRound (a ++ percent :: high :: low :: e) ⟨a.length, r⟩ =
      some ⟨(a ++ [percent, high, low]).length, r ++ [c]⟩ := by
  simp [decodeRound, toChar_digits hh hl]

theorem Encodes.loop (h : Encodes s e) (a r : List UInt8) :
    ∃ fuel, whileLoop (fun t : Decoding => t.pos < (a ++ e).length) (decodeRound (a ++ e)) fuel
      ⟨a.length, r⟩ = some ⟨(a ++ e).length, r ++ s⟩ := by
  induction h generalizing a r with
  | nil =>
    refine ⟨1, ?_⟩
    rw [List.append_nil, List.append_nil]
    exact whileLoop_done (by simp) 0
  | @literal c s e hp hq h ih =>
    obtain ⟨fuel, ih⟩ := ih (a ++ [c]) (r ++ [c])
    rw [List.append_assoc, List.append_assoc] at ih
    exact ⟨fuel + 1, (whileLoop_step (by simp) (decodeRound_literal hp hq) fuel).trans ih⟩
  | @escape c high low s e hh hl h ih =>
    obtain ⟨fuel, ih⟩ := ih (a ++ [percent, high, low]) (r ++ [c])
    rw [List.append_assoc, List.append_assoc] at ih
    exact ⟨fuel + 1, (whileLoop_step (by simp) (decodeRound_escape hh hl) fuel).trans ih⟩
  | @plus s e h ih =>
    obtain ⟨fuel, ih⟩ := ih (a ++ [Util.plus]) (r ++ [blank])
    rw [List.append_assoc, List.append_assoc] at ih
    exact ⟨fuel + 1, (whileLoop_step (by simp) decodeRound_plus fuel).trans ih⟩

theorem decodeRound_inside {t : Decoding} (h : t.pos < uri.length) :
    ∃ t', decodeRound uri t = some t' ∧ t'.pos ≤ uri.length ∧ t.pos < t'.pos := by
  rw [decodeRound, List.getElem?_eq_getElem h, Option.bind_eq_bind, Option.bind_some]
  by_cases hp : uri[t.pos] = percent
  · rw [if_pos hp]
    by_cases hlt : t.pos + 2 < uri.length
    · rw [if_pos hlt, List.getElem?_eq_getElem (by omega), List.getElem?_eq_getElem hlt]
      exact ⟨_, rfl, by dsimp only; omega, by dsimp only; omega⟩
    · rw [if_neg hlt]
      exact ⟨_, rfl, h, Nat.lt_succ_self _⟩
  · rw [if_neg hp]
    split_ifs
    · exact ⟨_, rfl, h, Nat.lt_succ_self _⟩
    · exact ⟨_, rfl, h, Nat.lt_succ_self _⟩

theorem exists_decodes (uri : List UInt8) : ∃ text, Decodes uri text := by
  have hround : ∀ t : Decoding, t.pos ≤ uri.length → decide (t.pos < uri.length) = true →
      ∃ t', decodeRound uri t = some t' ∧ t'.pos ≤ uri.length ∧
        uri.length - t'.pos < uri.length - t.pos := by
    intro t _ hlt
    obtain ⟨t', ht', hle, hpos⟩ := decodeRound_inside (of_decide_eq_true hlt)
    exact ⟨t', ht', hle, by omega⟩
  obtain ⟨t, ht⟩ := whileLoop_terminates (s := (⟨0, []⟩ : Decoding))
    (fun t : Decoding => uri.length - t.pos) hround (Nat.zero_le _) (Nat.lt_succ_self _)
  obtain ⟨hle, hdone⟩ := whileLoop_invariant (I := fun t : Decoding => t.pos ≤ uri.length)
    (fun t t' hI hlt ht' => by
      obtain ⟨t'', ht'', hle, -⟩ := hround t hI hlt
      obtain rfl := Option.some.inj (ht'.symm.trans ht'')
      exact hle) (Nat.zero_le _) ht
  have hpos : t.pos = uri.length := le_antisymm hle (not_lt.mp (of_decide_eq_false hdone))
  exact ⟨t.result, _, by rw [← hpos]; exact ht⟩

end Loop

/-- Every text is consumed, and every encoding is decoded to the text that it encodes. -/
theorem decodeURI_decodes : (∀ uri, ∃ text, Decodes uri text) ∧
    ∀ text uri, Encodes text uri → Decodes uri text :=
  ⟨exists_decodes, fun _ _ h => h.loop [] []⟩

/-- `3%2c+` is a digit, a comma and a space. -/
theorem decodeURI_decodes_comma :
    Decodes ['3'.toUInt8, percent, '2'.toUInt8, 'c'.toUInt8, plus]
      ['3'.toUInt8, ','.toUInt8, blank] :=
  decodeURI_decodes.2 ['3'.toUInt8, ','.toUInt8, blank]
    ['3'.toUInt8, percent, '2'.toUInt8, 'c'.toUInt8, plus]
    (.literal (by decide) (by decide) (.escape (by decide) (by decide) (.plus .nil)))

end Concurrente.Util
