import Mathlib.Data.List.TakeWhile
import Concurrente.Checked

/-!
# Formatted input

`fscanf` reads a text by directives: white space, a word, or a number.  A number is the
longest run of characters with which one can still begin, and it has to be complete.
White space between words is all the same, so what is read depends on the words of the
text alone, and not on its lines.
-/

namespace Concurrente.Scanf

/-- `isspace` in the C locale. -/
def isSpace (c : Char) : Bool := [' ', '\t', '\n', '\x0b', '\x0c', '\r'].contains c

def skipSpace (l : List Char) : List Char := l.dropWhile isSpace

/-- The characters up to the next white space. -/
def word (l : List Char) : List Char := l.takeWhile fun c => !isSpace c

def afterWord (l : List Char) : List Char := l.dropWhile fun c => !isSpace c

def words (l : List Char) : List (List Char) := (l.splitOnP isSpace).filter fun t => !t.isEmpty

section Pieces

variable {α : Type} {p : α → Bool} {l : List α} {q : List α → Bool} {n : ℕ}

theorem sum_splitOnP (p : α → Bool) (l : List α) :
    ((l.splitOnP p).map fun t => t.length + 1).sum = l.length + 1 := by
  induction l with
  | nil => rfl
  | cons x l ih =>
    rw [List.splitOnP_cons_eq_if_modifyHead]
    split_ifs with hx
    · rw [List.map_cons, List.sum_cons, ih, List.length_nil, List.length_cons]
      omega
    · cases hp : l.splitOnP p with
      | nil => exact absurd hp (List.splitOnP_ne_nil p l)
      | cons t ts =>
        rw [hp, List.map_cons, List.sum_cons] at ih
        rw [List.modifyHead_cons, List.map_cons, List.sum_cons, List.length_cons, List.length_cons]
        omega

theorem length_filter_splitOnP (h : ∀ t ∈ l.splitOnP p, q t = true → n ≤ t.length + 1) :
    n * ((l.splitOnP p).filter q).length ≤ l.length + 1 := by
  rw [← sum_splitOnP p l]
  generalize l.splitOnP p = ts at h ⊢
  induction ts with
  | nil => rfl
  | cons t ts ih =>
    have hts := ih fun u hu => h u (List.mem_cons_of_mem t hu)
    rw [List.map_cons, List.sum_cons]
    by_cases ht : q t = true
    · have hn := h t List.mem_cons_self ht
      rw [List.filter_cons_of_pos ht, List.length_cons, Nat.mul_succ]
      omega
    · rw [List.filter_cons_of_neg ht]
      omega

end Pieces

def AtSpace (l : List Char) : Prop := ∀ c ∈ l.head?, isSpace c = true

section Words

variable {a b l t : List Char} {c : Char}

theorem words_nil : words [] = [] := rfl

theorem words_append_cons (a : List Char) (hc : isSpace c = true) (b : List Char) :
    words (a ++ c :: b) = words a ++ words b := by
  rw [words, List.splitOnP_append_cons a b hc, List.filter_append]
  rfl

theorem words_cons (hc : isSpace c = true) (l : List Char) : words (c :: l) = words l := by
  rw [← List.nil_append (c :: l), words_append_cons [] hc, words_nil, List.nil_append]

theorem words_skipSpace (l : List Char) : words (skipSpace l) = words l := by
  induction l with
  | nil => rfl
  | cons c l ih =>
    unfold skipSpace
    by_cases hc : isSpace c = true
    · rw [List.dropWhile_cons_of_pos hc, words_cons hc]
      exact ih
    · rw [List.dropWhile_cons_of_neg hc]

theorem words_word (ht : t ≠ []) (hs : ∀ c ∈ t, isSpace c = false) : words t = [t] := by
  rw [words, List.splitOnP_eq_singleton hs, List.filter_cons_of_pos]
  · rfl
  · simpa using ht

theorem words_append (ht : t ≠ []) (hs : ∀ c ∈ t, isSpace c = false) (hl : AtSpace l) :
    words (t ++ l) = t :: words l := by
  cases l with
  | nil => rw [List.append_nil, words_word ht hs, words_nil]
  | cons c l =>
    have hc : isSpace c = true := hl c rfl
    rw [words_append_cons t hc, words_word ht hs, words_cons hc]
    rfl

theorem isSpace_of_mem_word (h : c ∈ word l) : isSpace c = false := by
  simpa using List.mem_takeWhile_imp h

theorem atSpace_afterWord (l : List Char) : AtSpace (afterWord l) := by
  intro c hc
  have h := List.head?_dropWhile_not (fun c => !isSpace c) l
  rw [Option.mem_def] at hc
  rw [afterWord] at hc
  rw [hc] at h
  simpa using h

theorem skipSpace_eq (l : List Char) :
    skipSpace l = word (skipSpace l) ++ afterWord (skipSpace l) :=
  List.takeWhile_append_dropWhile.symm

theorem word_skipSpace_eq_nil : word (skipSpace l) = [] ↔ skipSpace l = [] := by
  constructor
  · intro h
    cases hl : skipSpace l with
    | nil => rfl
    | cons c m =>
      have hc := List.head?_dropWhile_not isSpace l
      rw [← skipSpace, hl] at hc
      rw [hl, word, List.takeWhile_cons_of_pos (by simpa using hc)] at h
      cases h
  · intro h
    rw [h]
    rfl

theorem words_eq_nil : words l = [] ↔ skipSpace l = [] := by
  constructor
  · intro h
    by_contra hne
    have hw : word (skipSpace l) ≠ [] := fun hw => hne (word_skipSpace_eq_nil.mp hw)
    rw [← words_skipSpace, skipSpace_eq, words_append hw
      (fun c hc => isSpace_of_mem_word hc) (atSpace_afterWord _)] at h
    cases h
  · intro h
    rw [← words_skipSpace, h, words_nil]

theorem exists_word {ts : List (List Char)} (h : words l = t :: ts) : t ≠ [] ∧
    word (skipSpace l) = t ∧ skipSpace l = t ++ afterWord (skipSpace l) ∧
      (∀ c ∈ t, isSpace c = false) ∧ words (afterWord (skipSpace l)) = ts := by
  have hne : skipSpace l ≠ [] := fun hl => by
    rw [words_eq_nil.mpr hl] at h
    cases h
  have hw : word (skipSpace l) ≠ [] := fun hw => hne (word_skipSpace_eq_nil.mp hw)
  have hs : ∀ c ∈ word (skipSpace l), isSpace c = false := fun c hc => isSpace_of_mem_word hc
  rw [← words_skipSpace, skipSpace_eq, words_append hw hs (atSpace_afterWord _)] at h
  obtain ⟨rfl, rfl⟩ := List.cons.inj h
  exact ⟨hw, rfl, skipSpace_eq l, hs, rfl⟩

theorem ne_nil_of_mem_words (h : t ∈ words l) : t ≠ [] := by
  simpa using (List.mem_filter.mp h).2

theorem length_words (l : List Char) : 2 * (words l).length ≤ l.length + 1 := by
  refine length_filter_splitOnP fun t _ ht => ?_
  have hne : t ≠ [] := by simpa using ht
  have := List.length_pos_of_ne_nil hne
  omega

theorem words_splitOn (l : List Char) : words l = (l.splitOn '\n').flatMap words := by
  have h : ∀ ls : List (List Char), words (['\n'].intercalate ls) = ls.flatMap words := by
    intro ls
    induction ls with
    | nil => rfl
    | cons a ls ih =>
      cases ls with
      | nil => simp
      | cons b ls =>
        rw [List.intercalate_cons_cons, List.append_assoc, List.singleton_append,
          words_append_cons a rfl, ih]
        rfl
  rw [← h, List.intercalate_splitOn]

end Words

/-- A deterministic automaton.  From each of its states an accepting one can be reached, so the
characters it takes can begin a number. -/
structure Scanner (σ : Type) where
  start : σ
  step : σ → Char → Option σ
  accept : σ → Bool
  step_space : ∀ q c, isSpace c = true → step q c = none

namespace Scanner

variable {σ : Type} (S : Scanner σ)

/-- The last state, the characters taken and the rest of the text. -/
def run : σ → List Char → σ × List Char × List Char
  | q, [] => (q, [], [])
  | q, c :: l =>
    match S.step q c with
    | none => (q, [], c :: l)
    | some q' => ((run q' l).1, c :: (run q' l).2.1, (run q' l).2.2)

/-- A number at the beginning of a text, and the rest. -/
def scan (l : List Char) : Option (List Char × List Char) :=
  if S.accept (S.run S.start l).1 then some (S.run S.start l).2 else none

def accepts (t : List Char) : Bool :=
  match t.foldlM S.step S.start with
  | some q => S.accept q
  | none => false

theorem run_length (q : σ) (l : List Char) : (S.run q l).2.2.length ≤ l.length := by
  induction l generalizing q with
  | nil => exact le_rfl
  | cons c l ih =>
    unfold run
    split
    next => exact le_rfl
    next q' _ => exact (ih q').trans (Nat.le_succ _)

theorem scan_length {l t rest : List Char} (h : S.scan l = some (t, rest)) :
    rest.length ≤ l.length := by
  unfold scan at h
  split at h
  · have := S.run_length S.start l
    rwa [Option.some.inj h] at this
  · cases h

theorem run_word {q q' : σ} {t : List Char} (h : t.foldlM S.step q = some q') {l : List Char}
    (hl : AtSpace l) : S.run q (t ++ l) = (q', t, l) := by
  induction t generalizing q with
  | nil =>
    obtain rfl := Option.some.inj h
    cases l with
    | nil => rfl
    | cons c l => rw [List.nil_append, run, S.step_space q c (hl c rfl)]
  | cons c t ih =>
    rw [List.foldlM_cons] at h
    obtain ⟨r, hr, ht⟩ := Option.bind_eq_some_iff.mp h
    rw [List.cons_append, run, hr]
    simp only [ih ht]

theorem scan_word {t : List Char} (h : S.accepts t = true) {l : List Char} (hl : AtSpace l) :
    S.scan (t ++ l) = some (t, l) := by
  unfold accepts at h
  split at h
  next q hq =>
    rw [scan, S.run_word hq hl]
    exact if_pos h
  next => cases h

end Scanner

theorem isSpace_cases {c : Char} (h : isSpace c = true) : c = ' ' ∨ c = '\t' ∨ c = '\n' ∨
    c = '\x0b' ∨ c = '\x0c' ∨ c = '\r' := by
  simpa [isSpace] using h

inductive UnsignedState
  | start
  | signed
  | digits

/-- What `%lu` takes: an optional sign and decimal digits. -/
def unsigned : Scanner UnsignedState where
  start := .start
  step
    | .start, c =>
      if c = '+' ∨ c = '-' then some .signed else if c.isDigit then some .digits else none
    | _, c => if c.isDigit then some .digits else none
  accept
    | .digits => true
    | _ => false
  step_space q c hc := by
    rcases isSpace_cases hc with rfl | rfl | rfl | rfl | rfl | rfl <;> cases q <;> rfl

def digitsValue (t : List Char) : ℕ := Nat.ofDigitChars 10 t 0

/-- The 64-bit number of an integer: values that are too large give the largest one, and a
negative sign is taken modulo `2 ^ 64`. -/
def strtoull (t : List Char) : ℕ :=
  match t with
  | '-' :: t => if digitsValue t < 2 ^ 64 then (2 ^ 64 - digitsValue t) % 2 ^ 64 else 2 ^ 64 - 1
  | '+' :: t => min (digitsValue t) (2 ^ 64 - 1)
  | t => min (digitsValue t) (2 ^ 64 - 1)

theorem unsigned_digits {t : List Char} (hd : ∀ c ∈ t, c.isDigit = true) :
    t.foldlM unsigned.step .digits = some .digits := by
  induction t with
  | nil => rfl
  | cons c t ih =>
    have hc : unsigned.step .digits c = some .digits := if_pos (hd c List.mem_cons_self)
    rw [List.foldlM_cons, hc]
    exact ih fun c hc => hd c (List.mem_cons_of_mem _ hc)

theorem ne_sign_of_isDigit {c : Char} (h : c.isDigit = true) : c ≠ '+' ∧ c ≠ '-' := by
  constructor <;> rintro rfl <;> exact absurd h (by decide)

theorem unsigned_accepts {t : List Char} (ht : t ≠ []) (hd : ∀ c ∈ t, c.isDigit = true) :
    unsigned.accepts t = true := by
  cases t with
  | nil => exact absurd rfl ht
  | cons c t =>
    have hdc := hd c List.mem_cons_self
    obtain ⟨hplus, hminus⟩ := ne_sign_of_isDigit hdc
    have hc : unsigned.step .start c = some .digits := by
      simp only [unsigned, hplus, hminus, or_self, if_false, hdc, if_true]
    have hrun : (c :: t).foldlM unsigned.step .start = some .digits := by
      rw [List.foldlM_cons, hc]
      exact unsigned_digits fun c hc => hd c (List.mem_cons_of_mem _ hc)
    have hstart : unsigned.start = .start := rfl
    rw [Scanner.accepts, hstart, hrun]
    rfl

theorem strtoull_of_lt {t : List Char} (hd : ∀ c ∈ t, c.isDigit = true)
    (hlt : digitsValue t < 2 ^ 64) : strtoull t = digitsValue t := by
  have hmin : min (digitsValue t) (2 ^ 64 - 1) = digitsValue t := by omega
  unfold strtoull
  split
  next t => exact absurd rfl (ne_sign_of_isDigit (hd '-' List.mem_cons_self)).2
  next t _ => exact absurd rfl (ne_sign_of_isDigit (hd '+' List.mem_cons_self)).1
  next => exact hmin

/-- The places in a number of `strtod`. -/
inductive FloatState
  | start
  | signed
  | zero
  | integer
  | point
  | fraction
  | exponent
  | exponentSign
  | exponentDigits
  | hex
  | hexInteger
  | hexPoint
  | hexFraction
  | infinity (count : ℕ)
  | nan (count : ℕ)
  | nanSequence
  | nanEnd

def FloatState.unsigned (c : Char) : Option FloatState :=
  if c = '0' then some .zero
  else if c.isDigit then some .integer
  else if c = '.' then some .point
  else if c.toLower = 'i' then some (.infinity 1)
  else if c.toLower = 'n' then some (.nan 1)
  else none

def isHexDigit (c : Char) : Bool := c.isDigit || ['a', 'b', 'c', 'd', 'e', 'f'].contains c.toLower

def FloatState.choose (l : List (Bool × FloatState)) : Option FloatState :=
  (l.find? Prod.fst).map Prod.snd

def FloatState.step : FloatState → Char → Option FloatState
  | .start, c => if c = '+' ∨ c = '-' then some .signed else unsigned c
  | .signed, c => unsigned c
  | .zero, c => choose [(c.isDigit, .integer), (c = '.', .fraction), (c.toLower = 'e', .exponent),
      (c.toLower = 'x', .hex)]
  | .integer, c =>
    choose [(c.isDigit, .integer), (c = '.', .fraction), (c.toLower = 'e', .exponent)]
  | .point, c => choose [(c.isDigit, .fraction)]
  | .fraction, c => choose [(c.isDigit, .fraction), (c.toLower = 'e', .exponent)]
  | .exponent, c => choose [(c = '+' ∨ c = '-', .exponentSign), (c.isDigit, .exponentDigits)]
  | .exponentSign, c => choose [(c.isDigit, .exponentDigits)]
  | .exponentDigits, c => choose [(c.isDigit, .exponentDigits)]
  | .hex, c => choose [(isHexDigit c, .hexInteger), (c = '.', .hexPoint)]
  | .hexInteger, c => choose [(isHexDigit c, .hexInteger), (c = '.', .hexFraction),
      (c.toLower = 'p', .exponent)]
  | .hexPoint, c => choose [(isHexDigit c, .hexFraction)]
  | .hexFraction, c => choose [(isHexDigit c, .hexFraction), (c.toLower = 'p', .exponent)]
  | .infinity n, c => choose [("infinity".toList[n]? = some c.toLower, .infinity (n + 1))]
  | .nan n, c => choose [("nan".toList[n]? = some c.toLower, .nan (n + 1)),
      (n = 3 ∧ c = '(', .nanSequence)]
  | .nanSequence, c => choose [(c.isAlphanum || c = '_', .nanSequence), (c = ')', .nanEnd)]
  | .nanEnd, _ => none

def FloatState.accept : FloatState → Bool
  | .zero | .integer | .fraction | .exponentDigits | .hexInteger | .hexFraction | .nanEnd => true
  | .infinity n => n = 3 ∨ n = 8
  | .nan n => n = 3
  | _ => false

theorem getElem?_ne_space {l : List Char} {c : Char} (h : c ∉ l) (n : ℕ) : l[n]? ≠ some c :=
  fun he => h (List.mem_of_getElem? he)

theorem FloatState.step_space (q : FloatState) {c : Char} (hc : isSpace c = true) :
    q.step c = none := by
  cases q with
  | infinity n =>
    have hmem : c.toLower ∉ "infinity".toList := by
      rcases isSpace_cases hc with rfl | rfl | rfl | rfl | rfl | rfl <;> decide
    have hn : decide ("infinity".toList[n]? = some c.toLower) = false :=
      decide_eq_false (getElem?_ne_space hmem n)
    rw [step, hn]
    rfl
  | nan n =>
    have hmem : c.toLower ∉ "nan".toList := by
      rcases isSpace_cases hc with rfl | rfl | rfl | rfl | rfl | rfl <;> decide
    have hparen : c ≠ '(' := by
      rcases isSpace_cases hc with rfl | rfl | rfl | rfl | rfl | rfl <;> decide
    have hn : decide ("nan".toList[n]? = some c.toLower) = false :=
      decide_eq_false (getElem?_ne_space hmem n)
    have hn' : decide (n = 3 ∧ c = '(') = false := decide_eq_false fun h => hparen h.2
    rw [step, hn, hn']
    rfl
  | _ => rcases isSpace_cases hc with rfl | rfl | rfl | rfl | rfl | rfl <;> rfl

/-- What `%lg` takes: decimal and hexadecimal numbers, infinity and the numbers that are
none. -/
def float : Scanner FloatState where
  start := .start
  step := FloatState.step
  accept := FloatState.accept
  step_space q _ hc := q.step_space hc

/-- A part of a format, with what it does to the variables. -/
inductive Directive (β : Type) : Type 1
  | space
  | string (store : List Char → β → Except Fault β)
  | number {σ : Type} (S : Scanner σ) (assign : List Char → β → β)

/-- The number of conversions when the format or the text ends, the variables and the rest of
the text.  A text without a word gives `EOF` in the place of 0. -/
def scanf {β : Type} : List (Directive β) → List Char → β → ℕ →
    Except Fault (ℕ × β × List Char)
  | [], l, v, count => .ok (count, v, l)
  | .space :: f, l, v, count => scanf f (skipSpace l) v count
  | .string store :: f, l, v, count =>
    if word (skipSpace l) = [] then .ok (count, v, [])
    else do
      let v ← store (word (skipSpace l)) v
      scanf f (afterWord (skipSpace l)) v (count + 1)
  | .number S assign :: f, l, v, count =>
    match S.scan (skipSpace l) with
    | none => .ok (count, v, skipSpace l)
    | some (t, rest) => scanf f rest (assign t v) (count + 1)

section Directives

variable {β : Type} {f : List (Directive β)} {l t : List Char} {v : β} {count : ℕ}
  {ts : List (List Char)}

theorem skipSpace_length (l : List Char) : (skipSpace l).length ≤ l.length :=
  List.length_dropWhile_le _ l

theorem scanf_length {x : ℕ × β × List Char} (h : scanf f l v count = .ok x) :
    x.2.2.length ≤ l.length := by
  -- induction on the format, each directive takes from the front
  induction f generalizing l v count with
  | nil =>
    cases h
    exact le_rfl
  | cons d f ih =>
    cases d with
    | space => exact (ih h).trans (skipSpace_length l)
    | string store =>
      rw [scanf] at h
      split_ifs at h
      · cases h
        exact Nat.zero_le _
      · cases hs : store (word (skipSpace l)) v with
        | error e =>
          rw [hs] at h
          cases h
        | ok w =>
          rw [hs] at h
          exact (ih h).trans ((List.length_dropWhile_le _ _).trans (skipSpace_length l))
    | number S assign =>
      rw [scanf] at h
      split at h
      next =>
        cases h
        exact skipSpace_length l
      next t rest hscan => exact (ih h).trans ((S.scan_length hscan).trans (skipSpace_length l))

theorem scanf_string_length {store : List Char → β → Except Fault β} {x : ℕ × β × List Char}
    (h : scanf (.string store :: f) l v 0 = .ok x) (hx : x.1 ≠ 0) : x.2.2.length < l.length := by
  rw [scanf] at h
  split_ifs at h with hw
  · cases h
    exact absurd rfl hx
  · cases hs : store (word (skipSpace l)) v with
    | error e =>
      rw [hs] at h
      cases h
    | ok w =>
      rw [hs] at h
      have hlen := scanf_length h
      have hsplit := congrArg List.length (skipSpace_eq l)
      have hpos := List.length_pos_of_ne_nil hw
      rw [List.length_append] at hsplit
      have := skipSpace_length l
      omega

theorem scanf_space (h : words l = ts) : ∃ l', scanf (.space :: f) l v count =
    scanf f l' v count ∧ words l' = ts :=
  ⟨skipSpace l, rfl, by rw [words_skipSpace, h]⟩

theorem scanf_string {store : List Char → β → Except Fault β} {w : β}
    (h : words l = t :: ts) (hs : store t v = .ok w) : ∃ l',
      scanf (.string store :: f) l v count = scanf f l' w (count + 1) ∧ words l' = ts := by
  obtain ⟨hne, hword, -, -, hrest⟩ := exists_word h
  refine ⟨_, ?_, hrest⟩
  rw [scanf, hword, if_neg hne, hs]
  rfl

theorem scanf_string_nil {store : List Char → β → Except Fault β} (h : words l = []) :
    scanf (.string store :: f) l v count = .ok (count, v, []) := by
  rw [scanf, words_eq_nil.mp h]
  rfl

theorem scanf_number {σ : Type} {S : Scanner σ} {assign : List Char → β → β}
    (h : words l = t :: ts) (ht : S.accepts t = true) : ∃ l',
      scanf (.number S assign :: f) l v count = scanf f l' (assign t v) (count + 1) ∧
        words l' = ts := by
  obtain ⟨-, -, hsplit, -, hrest⟩ := exists_word h
  refine ⟨_, ?_, hrest⟩
  rw [scanf, hsplit, S.scan_word ht (atSpace_afterWord _), ← hsplit]

end Directives

end Concurrente.Scanf
