import Concurrente.Loops
import Mathlib.Data.List.Infix

/-!
# Splitting a text

`Util::tokenize` searches the delimiter from the last position on, and continues one
character after the place where it was found, however long the delimiter is.
-/

namespace Concurrente.Util

variable {α : Type} [DecidableEq α]

/-- `std::string::find`. -/
def find (text delim : List α) (pos : ℕ) : Option ℕ :=
  (List.range' pos (text.length + 1 - pos)).find? fun n => delim.isPrefixOf (text.drop n)

structure Tokens (α : Type) where
  lastPos : ℕ
  tokens : List (List α)

/-- Where the token that begins at `lastPos` ends. -/
def tokenEnd (text delim : List α) (lastPos : ℕ) : ℕ :=
  (find text delim lastPos).getD text.length

/-- The characters from `lastPos` up to `pos`. -/
def token (text : List α) (lastPos pos : ℕ) : List α := (text.drop lastPos).take (pos - lastPos)

def reading (text : List α) (s : Tokens α) : Bool := s.lastPos < text.length + 1

def tokenizeRound (text delim : List α) (trimEmpty : Bool) (s : Tokens α) : Option (Tokens α) :=
  let pos := tokenEnd text delim s.lastPos
  some ⟨pos + 1, if pos ≠ s.lastPos ∨ trimEmpty = false then
    s.tokens ++ [token text s.lastPos pos] else s.tokens⟩

def tokenize (fuel : ℕ) (text : List α) (tokens : List (List α)) (delim : List α)
    (trimEmpty : Bool) : Option (List (List α)) :=
  (whileLoop (reading text) (tokenizeRound text delim trimEmpty) fuel ⟨0, tokens⟩).map
    Tokens.tokens

def split (fuel : ℕ) (text delim : List α) (trimEmpty : Bool) : Option (List (List α)) :=
  tokenize fuel text [] delim trimEmpty

def Splits (text delim : List α) (trimEmpty : Bool) (tokens : List (List α)) : Prop :=
  ∃ fuel, split fuel text delim trimEmpty = some tokens

/-- The tokens are the pieces between the delimiters, and trimming drops the empty ones. -/
def Separates (text delim : List α) : Prop :=
  ∃ tokens, Splits text delim false tokens ∧ delim.intercalate tokens = text ∧
    (∀ token ∈ tokens, ¬ delim <:+: token) ∧
    Splits text delim true (tokens.filter fun token => token ≠ [])

section Find

variable {text delim : List α} {pos n : ℕ}

theorem find_some (h : find text delim pos = some n) : pos ≤ n ∧ n ≤ text.length ∧
    delim <+: text.drop n ∧ ∀ m, pos ≤ m → m < n → ¬ delim <+: text.drop m := by
  obtain ⟨hn, hmem, hfirst⟩ := List.find?_range'_eq_some.mp h
  rw [List.mem_range'_1] at hmem
  refine ⟨hmem.1, by omega, List.isPrefixOf_iff_prefix.mp hn, fun m hm hlt hpre => ?_⟩
  have := hfirst m hm hlt
  rw [List.isPrefixOf_iff_prefix.mpr hpre] at this
  cases this

theorem find_none (h : find text delim pos = none) (m : ℕ) (hm : pos ≤ m)
    (hm' : m ≤ text.length) : ¬ delim <+: text.drop m := by
  intro hpre
  have := List.find?_eq_none.mp h m (List.mem_range'_1.mpr (by omega))
  exact this (List.isPrefixOf_iff_prefix.mpr hpre)

omit [DecidableEq α] in
theorem exists_prefix_of_infix (start size : ℕ)
    (h : delim <:+: (text.drop start).take size) :
    ∃ m, m + delim.length ≤ size ∧ delim <+: text.drop (start + m) := by
  obtain ⟨a, b, hab⟩ := h
  have hlen := congrArg List.length hab
  simp only [List.length_append, List.length_take] at hlen
  refine ⟨a.length, by omega, ?_⟩
  rw [← List.drop_drop, ← List.take_append_drop size (text.drop start), ← hab, List.append_assoc,
    List.append_assoc, List.drop_left]
  exact List.prefix_append _ _

theorem find_eq_none_iff : find text delim 0 = none ↔ ¬ delim <:+: text := by
  constructor
  · intro h hin
    rw [← List.take_length (l := text), ← List.drop_zero (l := text)] at hin
    obtain ⟨m, hm, hpre⟩ := exists_prefix_of_infix 0 text.length hin
    rw [Nat.zero_add] at hpre
    exact find_none h m (Nat.zero_le m) (by omega) hpre
  · intro h
    cases hfind : find text delim 0 with
    | none => rfl
    | some n =>
      exact absurd ((find_some hfind).2.2.1.isInfix.trans (List.drop_suffix n text).isInfix) h

theorem tokenEnd_mem (delim : List α) (h : pos ≤ text.length) :
    pos ≤ tokenEnd text delim pos ∧ tokenEnd text delim pos ≤ text.length := by
  rw [tokenEnd]
  cases hfind : find text delim pos with
  | none => exact ⟨h, le_rfl⟩
  | some n => exact ⟨(find_some hfind).1, (find_some hfind).2.1⟩

theorem token_free (hd : delim ≠ []) (h : pos ≤ text.length) :
    ¬ delim <:+: token text pos (tokenEnd text delim pos) := by
  intro hin
  have hpos : 0 < delim.length := List.length_pos_iff.mpr hd
  have hend := tokenEnd_mem delim h
  obtain ⟨m, hm, hpre⟩ := exists_prefix_of_infix _ _ hin
  rw [tokenEnd] at hm hend
  cases hfind : find text delim pos with
  | none =>
    rw [hfind, Option.getD_none] at hm
    exact find_none hfind (pos + m) (by omega) (by omega) hpre
  | some n =>
    rw [hfind, Option.getD_some] at hm
    exact (find_some hfind).2.2.2 (pos + m) (by omega) (by omega) hpre

omit [DecidableEq α] in
theorem length_token (h : pos ≤ n) (h' : n ≤ text.length) :
    (token text pos n).length = n - pos := by
  rw [token, List.length_take, List.length_drop]
  omega

omit [DecidableEq α] in
theorem take_append_token (h : pos ≤ n) : text.take pos ++ token text pos n = text.take n := by
  obtain ⟨k, rfl⟩ := Nat.exists_eq_add_of_le h
  rw [token, Nat.add_sub_cancel_left, List.take_add]

end Find

section Loop

variable {text delim : List α} {s t : Tokens α}

/-- What the loop keeps while it does not trim. -/
structure Inv (text delim : List α) (s : Tokens α) : Prop where
  bounded : s.lastPos ≤ text.length + 1
  count : (s.tokens.map List.length).sum + s.tokens.length = s.lastPos
  free : ∀ token ∈ s.tokens, ¬ delim <:+: token
  joined : delim.length = 1 →
    s.tokens.flatMap (fun token => token ++ delim) = (text ++ delim).take s.lastPos
  found : ∀ pos, find text delim 0 = some pos →
    s = ⟨0, []⟩ ∨ s.tokens.length = 1 ∧ s.lastPos = pos + 1 ∨ 2 ≤ s.tokens.length
  absent : find text delim 0 = none → s = ⟨0, []⟩ ∨ s = ⟨text.length + 1, [text]⟩

theorem take_tokenEnd (hd : delim.length = 1) (pos : ℕ) :
    text.take (tokenEnd text delim pos) ++ delim =
      (text ++ delim).take (tokenEnd text delim pos + 1) := by
  rw [tokenEnd]
  cases hfind : find text delim pos with
  | none =>
    rw [Option.getD_none, List.take_length, List.take_of_length_le]
    rw [List.length_append, hd]
  | some n =>
    obtain ⟨-, hn, ⟨rest, hrest⟩, -⟩ := find_some hfind
    have hlen := congrArg List.length hrest
    rw [List.length_append, List.length_drop] at hlen
    rw [Option.getD_some, List.take_append_of_le_length (by omega), List.take_add, ← hrest, ← hd,
      List.take_left]

theorem Inv.start : Inv text delim ⟨0, []⟩ where
  bounded := Nat.zero_le _
  count := rfl
  free _ h := absurd h List.not_mem_nil
  joined _ := rfl
  found _ _ := .inl rfl
  absent _ := .inl rfl

theorem Inv.step (hd : delim ≠ []) (hs : Inv text delim s) (hlt : s.lastPos < text.length + 1) :
    Inv text delim ⟨tokenEnd text delim s.lastPos + 1,
      s.tokens ++ [token text s.lastPos (tokenEnd text delim s.lastPos)]⟩ := by
  have hle : s.lastPos ≤ text.length := by omega
  have hend := tokenEnd_mem delim hle
  refine ⟨by dsimp only; omega, ?_, ?_, fun hd' => ?_, fun pos hfind => ?_, fun hfind => ?_⟩
  · have := hs.count
    dsimp only
    rw [List.map_append, List.sum_append, List.length_append, List.map_singleton,
      List.sum_singleton, List.length_singleton, length_token hend.1 hend.2]
    omega
  · intro token htoken
    obtain htoken | htoken := List.mem_append.mp htoken
    · exact hs.free token htoken
    · rw [List.mem_singleton.mp htoken]
      exact token_free hd hle
  · dsimp only
    rw [List.flatMap_append, hs.joined hd', List.flatMap_singleton,
      List.take_append_of_le_length hle, ← List.append_assoc, take_append_token hend.1,
      take_tokenEnd hd']
  · obtain rfl | ⟨hone, -⟩ | htwo := hs.found pos hfind
    · refine .inr (.inl ⟨rfl, ?_⟩)
      simp only [tokenEnd, hfind, Option.getD_some]
    · refine .inr (.inr ?_)
      simp only [List.length_append, List.length_singleton, hone, le_refl]
    · refine .inr (.inr ?_)
      simp only [List.length_append, List.length_singleton]
      omega
  · obtain rfl | rfl := hs.absent hfind
    · refine .inr ?_
      simp only [tokenEnd, hfind, Option.getD_none, token, List.drop_zero, Nat.sub_zero,
        List.take_length, List.nil_append]
    · dsimp only at hlt
      omega

theorem tokenize_terminates (text delim : List α) (trimEmpty : Bool) :
    ∃ tokens, Splits text delim trimEmpty tokens := by
  have hloop : ∃ s, whileLoop (reading text) (tokenizeRound text delim trimEmpty)
      (text.length + 2) ⟨0, []⟩ = some s := by
    refine whileLoop_terminates (I := fun _ => True) (fun s => text.length + 1 - s.lastPos)
      (fun s _ hlt => ⟨_, rfl, trivial, ?_⟩) trivial (by dsimp only; omega)
    have hlt' := of_decide_eq_true hlt
    have := tokenEnd_mem delim (show s.lastPos ≤ text.length by omega)
    dsimp only
    omega
  obtain ⟨s, hs⟩ := hloop
  exact ⟨s.tokens, text.length + 2, by rw [split, tokenize, hs, Option.map_some]⟩

theorem Splits.exists_inv {tokens : List (List α)} (hd : delim ≠ [])
    (h : Splits text delim false tokens) : Inv text delim ⟨text.length + 1, tokens⟩ := by
  obtain ⟨fuel, h⟩ := h
  rw [split, tokenize] at h
  obtain ⟨s, hs, rfl⟩ := Option.map_eq_some_iff.mp h
  obtain ⟨hI, hdone⟩ := whileLoop_invariant (I := Inv text delim) (fun s t hs hlt ht => by
    obtain rfl := Option.some.inj ht
    rw [if_pos (.inr rfl)]
    exact hs.step hd (of_decide_eq_true hlt)) Inv.start hs
  have hge := of_decide_eq_false hdone
  have hpos : s.lastPos = text.length + 1 := le_antisymm hI.bounded (by omega)
  rwa [← hpos]

def Tokens.trimmed (s : Tokens α) : Tokens α :=
  ⟨s.lastPos, s.tokens.filter fun token => token ≠ []⟩

theorem tokenizeRound_trimmed (hlt : reading text s = true) :
    tokenizeRound text delim true s.trimmed =
      (tokenizeRound text delim false s).map Tokens.trimmed := by
  have hlt' := of_decide_eq_true hlt
  have hend := tokenEnd_mem delim (show s.lastPos ≤ text.length by omega)
  have hlen := length_token hend.1 hend.2
  by_cases hpos : tokenEnd text delim s.lastPos = s.lastPos
  · have hnil : token text s.lastPos s.lastPos = [] := by rw [token, Nat.sub_self, List.take_zero]
    simp [tokenizeRound, Tokens.trimmed, hpos, List.filter_append, hnil]
  · have hne : token text s.lastPos (tokenEnd text delim s.lastPos) ≠ [] := by
      intro hnil
      rw [hnil, List.length_nil] at hlen
      omega
    simp [tokenizeRound, Tokens.trimmed, hpos, List.filter_append, hne]

theorem Splits.trim {tokens : List (List α)} (h : Splits text delim false tokens) :
    Splits text delim true (tokens.filter fun token => token ≠ []) := by
  obtain ⟨fuel, h⟩ := h
  rw [split, tokenize] at h
  obtain ⟨s, hs, rfl⟩ := Option.map_eq_some_iff.mp h
  refine ⟨fuel, ?_⟩
  have hmap : whileLoop (reading text) (tokenizeRound text delim true) fuel
      (Tokens.trimmed ⟨0, []⟩) = some s.trimmed := by
    have hreading : ∀ r : Tokens α, reading text r.trimmed = reading text r := fun _ => rfl
    rw [whileLoop_map hreading (fun _ => tokenizeRound_trimmed) fuel, hs, Option.map_some]
  exact congrArg (Option.map Tokens.tokens) hmap

end Loop

section Join

variable {text delim : List α} {tokens : List (List α)}

omit [DecidableEq α] in
theorem intercalate_append (h : tokens ≠ []) :
    delim.intercalate tokens ++ delim = tokens.flatMap fun token => token ++ delim := by
  induction tokens with
  | nil => exact absurd rfl h
  | cons a tokens ih =>
    cases tokens with
    | nil => rw [List.intercalate_singleton, List.flatMap_singleton]
    | cons b tokens =>
      rw [List.intercalate_cons_cons, List.append_assoc, ih (List.cons_ne_nil b tokens)]
      rfl

omit [DecidableEq α] in
theorem length_intercalate (delim : List α) (h : tokens ≠ []) :
    (delim.intercalate tokens).length + delim.length =
    (tokens.map List.length).sum + tokens.length * delim.length := by
  rw [← List.length_append, intercalate_append h, List.length_flatMap]
  induction tokens with
  | nil => exact absurd rfl h
  | cons a tokens ih =>
    cases tokens with
    | nil => simp
    | cons b tokens =>
      have := ih (List.cons_ne_nil b tokens)
      simp only [List.map_cons, List.sum_cons, List.length_append, List.length_cons] at this ⊢
      rw [this]
      ring

theorem Inv.join (h : Inv text delim ⟨text.length + 1, tokens⟩)
    (hd : delim.length = 1 ∨ ¬ delim <:+: text) : delim.intercalate tokens = text := by
  have hne : tokens ≠ [] := by
    rintro rfl
    exact absurd h.count (by simp)
  obtain hone | habsent := hd
  · have hjoin := h.joined hone
    dsimp only at hjoin
    rw [← intercalate_append hne, List.take_of_length_le
      (by rw [List.length_append, hone])] at hjoin
    exact List.append_cancel_right hjoin
  · obtain hs | hs := h.absent (find_eq_none_iff.mpr habsent)
    · exact absurd (Tokens.mk.inj hs).1 (by omega)
    · rw [(Tokens.mk.inj hs).2, List.intercalate_singleton]

theorem Inv.eq_one_of_join (h : Inv text delim ⟨text.length + 1, tokens⟩) (hd : delim ≠ [])
    (hin : delim <:+: text) (hjoin : delim.intercalate tokens = text) : delim.length = 1 := by
  have hpos : 0 < delim.length := List.length_pos_iff.mpr hd
  have hfind : ∃ pos, find text delim 0 = some pos := by
    rw [← Option.isSome_iff_exists, Option.isSome_iff_ne_none]
    exact fun hnone => find_eq_none_iff.mp hnone hin
  obtain ⟨pos, hpos'⟩ := hfind
  obtain ⟨-, hn, ⟨rest, hrest⟩, -⟩ := find_some hpos'
  have hlen := congrArg List.length hrest
  rw [List.length_append, List.length_drop] at hlen
  have htwo : 2 ≤ tokens.length := by
    obtain hs | ⟨-, hs⟩ | htwo := h.found pos hpos'
    · exact absurd (Tokens.mk.inj hs).1 (by omega)
    · dsimp only at hs
      omega
    · exact htwo
  have hne : tokens ≠ [] := List.ne_nil_of_length_pos (by omega)
  have hcount := h.count
  have hsum := length_intercalate delim hne
  rw [hjoin] at hsum
  dsimp only at hcount
  obtain ⟨k, hk⟩ : ∃ k, tokens.length = k + 1 := ⟨tokens.length - 1, by omega⟩
  rw [hk, add_mul, one_mul] at hsum
  -- the text is counted twice: once with one character between two tokens, once with the delimiter
  have hmul : k * delim.length = k * 1 := by omega
  exact Nat.eq_of_mul_eq_mul_left (by omega) hmul

end Join

/-- The loop ends for every delimiter, and the tokens are the pieces of the text if and only if
the delimiter is one character or does not occur. -/
theorem split_separates (text delim : List α) (hd : delim ≠ []) :
    (∀ (text' delim' : List α) trimEmpty, ∃ tokens, Splits text' delim' trimEmpty tokens) ∧
      (Separates text delim ↔ delim.length = 1 ∨ ¬ delim <:+: text) := by
  refine ⟨tokenize_terminates, ?_, fun h => ?_⟩
  · rintro ⟨tokens, hs, hjoin, -, -⟩
    by_cases hin : delim <:+: text
    · exact .inl ((hs.exists_inv hd).eq_one_of_join hd hin hjoin)
    · exact .inr hin
  · obtain ⟨tokens, hs⟩ := tokenize_terminates text delim false
    have hI := hs.exists_inv hd
    exact ⟨tokens, hs, hI.join h, hI.free, hs.trim⟩

theorem split_separates_comma : Separates ",a,,b".toList ",".toList :=
  (split_separates ",a,,b".toList ",".toList (by decide)).2.mpr (.inl rfl)

theorem split_dashes : Splits "a--b".toList "--".toList false ["a".toList, "-b".toList] :=
  ⟨4, by decide⟩

/-- The second dash stays in the second token. -/
theorem not_separates_dashes : ¬ Separates "a--b".toList "--".toList := by
  rintro ⟨tokens, ⟨fuel, h⟩, hjoin, -⟩
  obtain ⟨fuel', h'⟩ := split_dashes
  rw [split, tokenize] at h h'
  obtain ⟨s, hs, rfl⟩ := Option.map_eq_some_iff.mp h
  obtain ⟨s', hs', htokens⟩ := Option.map_eq_some_iff.mp h'
  obtain rfl := whileLoop_unique hs hs'
  rw [htokens] at hjoin
  exact absurd hjoin (by decide)

end Concurrente.Util
