import Concurrente.Integers
import Mathlib.Data.Fin.VecNotation

/-!
# The ranges of the threads

Every thread of a process runs the loop on a block of the process range, and recovers the
bounds of the block from the indices that it sees.  The value -1 stands for a bound that is
not set yet, though it is an index like any other.
-/

namespace Concurrente.HybridDistr

open IntType

/-- `thread_start` and `thread_finish`. -/
structure ThreadRange where
  start : ℤ
  finish : ℤ
  deriving DecidableEq, Repr

def threadStep (r : ThreadRange) (index : ℤ) : Option ThreadRange := do
  let next ← int.add index 1
  some ⟨if r.start = -1 then index else r.start, next⟩

def indices (lo hi : ℤ) : List ℤ := (List.range (hi - lo).toNat).map fun k : ℕ => lo + k

/-- What a thread has after the loop over its block. -/
def threadRange (lo hi : ℤ) : Option ThreadRange := (indices lo hi).foldlM threadStep ⟨-1, -1⟩

/-- `hybrid_distr_bcast` does not print the range. -/
def Suppressed (r : ThreadRange) : Prop := ¬ (r.start ≠ -1 ∧ r.finish ≠ -1)

/-- The blocks of the threads: every index of the range is in one of them. -/
structure Split (start finish : ℤ) {threads : ℕ} (lo hi : Fin threads → ℤ) : Prop where
  inside : ∀ t i, lo t ≤ i → i < hi t → start ≤ i ∧ i < finish
  once : ∀ i, start ≤ i → i < finish → ∃! t, lo t ≤ i ∧ i < hi t

/-- Every thread with a block has the bounds of its block, and only a thread without one has
a bound that is not set. -/
def Reports {threads : ℕ} (lo hi : Fin threads → ℤ) : Prop :=
  ∀ t, ∃ r, threadRange (lo t) (hi t) = some r ∧ (lo t < hi t → r = ⟨lo t, hi t⟩) ∧
    (r.start = -1 ∨ r.finish = -1 → hi t ≤ lo t) ∧ (Suppressed r → hi t ≤ lo t)

section Block

variable {lo hi : ℤ}

theorem indices_succ (lo : ℤ) (n : ℕ) :
    indices lo (lo + (n + 1 : ℕ)) = indices lo (lo + n) ++ [lo + (n : ℤ)] := by
  have hn : (lo + (n + 1 : ℕ) - lo).toNat = n + 1 := by omega
  have hn' : (lo + (n : ℤ) - lo).toNat = n := by omega
  rw [indices, indices, hn, hn', List.range_succ, List.map_append, List.map_singleton]

theorem threadStep_eq {r : ThreadRange} {index : ℤ} (h : int.InRange (index + 1)) :
    threadStep r index = some ⟨if r.start = -1 then index else r.start, index + 1⟩ := by
  rw [threadStep, add_eq h, Option.bind_eq_bind, Option.bind_some]

theorem threadRange_of_le (h : hi ≤ lo) : threadRange lo hi = some ⟨-1, -1⟩ := by
  have hn : (hi - lo).toNat = 0 := by omega
  rw [threadRange, indices, hn]
  rfl

theorem threadRange_add (hlo : int.InRange lo) (n : ℕ) (hhi : int.InRange (lo + (n + 1 : ℕ))) :
    threadRange lo (lo + (n + 1 : ℕ)) =
      some ⟨if lo = -1 ∧ 1 ≤ n then 0 else lo, lo + (n + 1 : ℕ)⟩ := by
  induction n with
  | zero =>
    have hnext : lo + (0 : ℕ) + 1 = lo + (0 + 1 : ℕ) := by omega
    rw [threadRange, indices_succ, List.foldlM_append, ← threadRange,
      threadRange_of_le (by omega), Option.bind_eq_bind, Option.bind_some, List.foldlM_cons,
      threadStep_eq (hnext ▸ hhi), hnext]
    simp
  | succ n ih =>
    have hprev : int.InRange (lo + (n + 1 : ℕ)) := hlo.of_between hhi (by omega) (by omega)
    have hnext : lo + ((n + 1 : ℕ) : ℤ) + 1 = lo + (n + 1 + 1 : ℕ) := by omega
    rw [threadRange, indices_succ, List.foldlM_append, ← threadRange, ih hprev,
      Option.bind_eq_bind, Option.bind_some, List.foldlM_cons, threadStep_eq (hnext ▸ hhi), hnext]
    have hstart : (if (if lo = -1 ∧ 1 ≤ n then 0 else lo) = -1 then lo + ((n + 1 : ℕ) : ℤ)
        else if lo = -1 ∧ 1 ≤ n then 0 else lo) = if lo = -1 ∧ 1 ≤ n + 1 then 0 else lo := by
      by_cases hlo' : lo = -1
      · cases n with
        | zero => simp [hlo']
        | succ n => simp [hlo']
      · simp [hlo']
    exact congrArg (fun start => some (ThreadRange.mk start _)) hstart

theorem threadRange_eq (hlo : int.InRange lo) (hhi : int.InRange hi) (h : lo < hi) :
    threadRange lo hi = some ⟨if lo = -1 ∧ lo + 1 < hi then 0 else lo, hi⟩ := by
  obtain ⟨n, rfl⟩ : ∃ n : ℕ, hi = lo + (n + 1 : ℕ) := ⟨(hi - lo - 1).toNat, by omega⟩
  have hn : (lo = -1 ∧ 1 ≤ n) ↔ lo = -1 ∧ lo + 1 < lo + (n + 1 : ℕ) := by omega
  rw [threadRange_add hlo n hhi, if_congr hn rfl rfl]

theorem exists_threadRange_iff (hlo : int.InRange lo) (hhi : int.InRange hi) (h : lo < hi) :
    (∃ r, threadRange lo hi = some r ∧ (lo < hi → r = ⟨lo, hi⟩) ∧
      (r.start = -1 ∨ r.finish = -1 → hi ≤ lo) ∧ (Suppressed r → hi ≤ lo)) ↔
      lo ≠ -1 ∧ hi ≠ -1 := by
  rw [threadRange_eq hlo hhi h]
  constructor
  · rintro ⟨r, hr, hbounds, hset, -⟩
    obtain rfl := hbounds h
    refine ⟨fun hlo' => ?_, fun hhi' => ?_⟩
    · have := hset (.inl hlo')
      omega
    · have := hset (.inr hhi')
      omega
  · rintro ⟨hlo', hhi'⟩
    rw [if_neg fun h' => hlo' h'.1]
    refine ⟨⟨lo, hi⟩, rfl, fun _ => rfl, fun hset => ?_, fun hs => ?_⟩
    · exact absurd hset (not_or.mpr ⟨hlo', hhi'⟩)
    · exact absurd ⟨hlo', hhi'⟩ hs

end Block

/-- The threads report their blocks if and only if no block begins or ends at -1. -/
theorem thread_ranges_iff (start finish : ℤ) (threads : ℕ) (lo hi : Fin threads → ℤ)
    (hs : int.InRange start) (hf : int.InRange finish) (h : Split start finish lo hi) :
    Reports lo hi ↔ ∀ t, lo t < hi t → lo t ≠ -1 ∧ hi t ≠ -1 := by
  refine forall_congr' fun t => ?_
  by_cases hlt : lo t < hi t
  · have hfirst := h.inside t (lo t) le_rfl hlt
    have hlast := h.inside t (hi t - 1) (by omega) (by omega)
    have hlo : int.InRange (lo t) := hs.of_between hf hfirst.1 hfirst.2.le
    have hhi : int.InRange (hi t) := hs.of_between hf (by omega) (by omega)
    rw [exists_threadRange_iff hlo hhi hlt]
    exact ⟨fun h' _ => h', fun h' => h' hlt⟩
  · refine iff_of_true ?_ fun h' => absurd h' hlt
    exact ⟨⟨-1, -1⟩, threadRange_of_le (by omega), fun h' => absurd h' hlt,
      fun _ => by omega, fun _ => by omega⟩

theorem split_pair {start mid finish : ℤ} (h : start ≤ mid) (h' : mid ≤ finish) :
    Split start finish ![start, mid] ![mid, finish] where
  inside := Fin.forall_fin_two.mpr ⟨fun _ hlo hhi => ⟨hlo, lt_of_lt_of_le hhi h'⟩,
    fun _ hlo hhi => ⟨h.trans hlo, hhi⟩⟩
  once i hlo hhi := by
    by_cases hmid : i < mid
    · exact ⟨0, ⟨hlo, hmid⟩, Fin.forall_fin_two.mpr ⟨fun _ => rfl,
        fun ht => absurd hmid (not_lt.mpr ht.1)⟩⟩
    · exact ⟨1, ⟨not_lt.mp hmid, hhi⟩, Fin.forall_fin_two.mpr ⟨fun ht => absurd ht.2 hmid,
        fun _ => rfl⟩⟩

theorem thread_ranges_two_blocks : Reports ![-4, 1] ![1, 3] :=
  (thread_ranges_iff (-4) 3 2 ![-4, 1] ![1, 3] (by norm_num [int_inRange_iff])
    (by norm_num [int_inRange_iff]) (split_pair (by norm_num) (by norm_num))).mpr (by decide)

/-- A single thread with the indices -1 and 0 reports the range from 0 to 1. -/
theorem not_thread_ranges : Split (-1) 1 ![-1] ![1] ∧ ¬ Reports ![-1] ![1] := by
  refine ⟨⟨fun t i h h' => ?_, fun i h h' => ⟨0, ⟨h, h'⟩, fun t _ => Subsingleton.elim t 0⟩⟩,
    fun h => ?_⟩
  · obtain rfl := Subsingleton.elim t 0
    exact ⟨h, h'⟩
  · obtain ⟨r, -, hbounds, hset, -⟩ := h 0
    obtain rfl := hbounds (by decide)
    exact absurd (hset (.inl rfl)) (by decide)

end Concurrente.HybridDistr
