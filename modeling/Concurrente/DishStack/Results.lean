import Concurrente.DishStack.Program
import Concurrente.Iteration

/-!
# Every dish is washed once

A dish is on the stack, in the hands of one washer or washed.  No dish has the number of the
flag, so a washer goes home only when the stack is empty, and it stays empty then.
-/

namespace Concurrente.DishStack

open Threads

variable {n : ℕ}

namespace Pc

def holds (dish : ℤ) : Pc → ℕ
  | unlock value | test value | wash value => if value = dish ∧ value ≠ stackEmptyFlag then 1 else 0
  | _ => 0

def FoundEmpty : Pc → Prop
  | unlock value | test value => value = stackEmptyFlag
  | returned => True
  | _ => False

def Knows (stack : List ℤ) : Pc → Prop
  | top => stack ≠ []
  | pop value => stack.head? = some value
  | _ => True

def WashesDish : Pc → Prop
  | wash dish => dish ≠ stackEmptyFlag
  | _ => True

/-- The steps that a washer can take with the dish that it has. -/
def rank : Pc → ℕ
  | lock => 5
  | empty => 4
  | top => 3
  | pop _ => 2
  | unlock value => if value = stackEmptyFlag then 2 else 8
  | test dish => if dish = stackEmptyFlag then 1 else 7
  | wash _ => 6
  | returned => 0

end Pc

def places (m : Shared) (thread : Fin n → Pc) (dish : ℤ) : ℕ :=
  m.stack.count dish + ∑ i, (thread i).holds dish + m.washed.count dish

structure Inv (dishCount : ℕ) (m : Shared) (thread : Fin n → Pc) : Prop where
  defined : m.undefined = false
  once : ∀ dish, places m thread dish = if 0 ≤ dish ∧ dish < dishCount then 1 else 0
  knows : ∀ i, (thread i).Knows m.stack
  found : ∀ i, (thread i).FoundEmpty → m.stack = []
  washes : ∀ i, (thread i).WashesDish

section Moves

variable {dishCount : ℕ} {m : Shared} {thread : Fin n → Pc} {i : Fin n} {pc : Pc}

theorem Inv.move (h : Inv dishCount m thread) (hholds : ∀ d, pc.holds d = (thread i).holds d)
    (hknows : pc.Knows m.stack) (hfound : pc.FoundEmpty → m.stack = []) (hwashes : pc.WashesDish) :
    Inv dishCount m (Function.update thread i pc) where
  defined := h.defined
  once dish := by
    rw [← h.once dish, places, places, sum_same (hholds dish)]
  knows := all_update (P := fun pc : Pc => pc.Knows m.stack) h.knows hknows
  found := all_update (P := fun pc : Pc => pc.FoundEmpty → m.stack = []) h.found hfound
  washes := all_update h.washes hwashes

theorem Inv.flag_notMem (h : Inv dishCount m thread) : stackEmptyFlag ∉ m.stack := by
  have hflag : ¬ (0 ≤ stackEmptyFlag ∧ stackEmptyFlag < dishCount) := by
    rw [stackEmptyFlag]
    omega
  have := h.once stackEmptyFlag
  rw [if_neg hflag, places] at this
  exact List.count_eq_zero.mp (by omega)

theorem knows_of_owner {stack : List ℤ} (h : owner () pc = 0) : pc.Knows stack := by
  cases pc with
  | top => cases h
  | pop value => cases h
  | _ => trivial

theorem Inv.pop (h : Inv dishCount m thread) {v : ℤ} (hi : thread i = .pop v)
    (hother : ∀ j, j ≠ i → owner () (thread j) = 0) :
    Inv dishCount m.pop (Function.update thread i (.unlock v)) := by
  have hhead : m.stack.head? = some v := by
    have := h.knows i
    rwa [hi] at this
  obtain ⟨stack, hstack⟩ : ∃ stack, m.stack = v :: stack := List.head?_eq_some_iff.mp hhead
  have hflag : v ≠ stackEmptyFlag := by
    rintro rfl
    exact h.flag_notMem (List.mem_of_mem_head? hhead)
  have hpop : m.pop = { m with stack := stack } := by rw [Shared.pop, hstack]
  rw [hpop]
  refine ⟨h.defined, fun dish => ?_, fun j => ?_, fun j hj => ?_, all_update h.washes trivial⟩
  · have hsum := sum_move thread i (Pc.holds dish) (.unlock v)
    have hold : (thread i).holds dish = 0 := by rw [hi]; rfl
    have hnew : (Pc.unlock v).holds dish = if v = dish then 1 else 0 := by
      simp only [Pc.holds, ne_eq, hflag, not_false_eq_true, and_true]
    have honce := h.once dish
    rw [places, hstack, List.count_cons] at honce
    rw [places, ← honce]
    simp only [beq_iff_eq]
    omega
  · by_cases hji : j = i
    · rw [hji, Function.update_self]
      trivial
    · rw [Function.update_of_ne hji]
      exact knows_of_owner (hother j hji)
  -- a washer that has found the stack empty found it so for ever
  · exfalso
    by_cases hji : j = i
    · rw [hji, Function.update_self] at hj
      exact hflag hj
    · rw [Function.update_of_ne hji] at hj
      rw [h.found j hj] at hstack
      cases hstack

theorem Inv.wash (h : Inv dishCount m thread) {v : ℤ} (hi : thread i = .wash v) :
    Inv dishCount (m.wash v) (Function.update thread i .lock) := by
  have hflag : v ≠ stackEmptyFlag := by
    have := h.washes i
    rwa [hi] at this
  refine ⟨h.defined, fun dish => ?_,
    all_update (P := fun pc : Pc => pc.Knows m.stack) h.knows trivial,
    all_update (P := fun pc : Pc => pc.FoundEmpty → m.stack = []) h.found fun hf => hf.elim,
    all_update h.washes trivial⟩
  have hsum := sum_move thread i (Pc.holds dish) .lock
  have hold : (thread i).holds dish = if v = dish then 1 else 0 := by
    simp only [hi, Pc.holds, ne_eq, hflag, not_false_eq_true, and_true]
  have hnew : Pc.lock.holds dish = 0 := rfl
  have honce := h.once dish
  rw [places] at honce
  rw [places, ← honce]
  simp only [Shared.wash, List.count_append, List.count_singleton, beq_iff_eq]
  omega

end Moves

section Runs

variable {dishCount : ℕ} {s t : Run n} {i : Fin n}

theorem fill_eq (dishCount : ℕ) : fill dishCount =
    ⟨((List.range dishCount).map Nat.cast).reverse, [], false⟩ := by
  -- induction on the dishes pushed so far
  induction dishCount with
  | zero => rfl
  | succ k ih =>
    rw [fill, List.range_succ, List.foldl_append, ← fill, ih]
    simp [Shared.push]

theorem count_fill (dishCount : ℕ) (dish : ℤ) : (fill dishCount).stack.count dish =
    if 0 ≤ dish ∧ dish < dishCount then 1 else 0 := by
  have hnodup : ((List.range dishCount).map (Nat.cast : ℕ → ℤ)).Nodup :=
    List.nodup_range.map Nat.cast_injective
  rw [fill_eq, List.count_reverse, hnodup.count]
  refine if_congr ?_ rfl rfl
  rw [List.mem_map]
  constructor
  · rintro ⟨k, hk, rfl⟩
    rw [List.mem_range] at hk
    omega
  · rintro ⟨h0, hlt⟩
    exact ⟨dish.toNat, List.mem_range.mpr (by omega), by omega⟩

theorem inv_start (dishCount : ℕ) :
    Inv dishCount (code n dishCount).memory (code n dishCount).start := by
  refine ⟨?_, fun dish => ?_, fun _ => trivial, fun _ h => h.elim, fun _ => trivial⟩
  · rw [code, fill_eq]
  · have hwashed : (fill dishCount).washed = [] := by rw [fill_eq]
    simp only [places, code, Pc.holds, Finset.sum_const_zero, count_fill, hwashed, List.count_nil,
      Nat.add_zero]

theorem top_eq {m : Shared} (h : m.stack ≠ []) :
    ∃ v, m.stack.head? = some v ∧ m.top = (m, .pop v) := by
  obtain ⟨v, stack, hstack⟩ := List.exists_cons_of_ne_nil h
  exact ⟨v, by rw [hstack, List.head?_cons], by rw [Shared.top, hstack]⟩

theorem reachable_inv (h : (code n dishCount).system.Reachable s) :
    Inv dishCount s.memory s.thread := by
  refine reachable_invariant (I := Inv dishCount) (inv_start dishCount) ?_ ?_ h
  · intro s i _ pc' _ hnext hI
    have hfound := hI.found i
    rcases move_cases (i := i) hnext with ⟨hpc, rfl⟩ | ⟨v, hpc, rfl⟩ <;> rw [hpc] at hfound
    · exact hI.move (fun d => by rw [hpc]; rfl) trivial (fun hf => hf.elim) trivial
    · exact hI.move (fun d => by rw [hpc]; rfl) trivial hfound trivial
  · intro s i run r hr hnext hrun hI
    have hfound := hI.found i
    have hknows := hI.knows i
    rcases access_cases (i := i) hnext hrun with ⟨hpc, rfl⟩ | ⟨hpc, rfl⟩ | ⟨v, hpc, rfl⟩ |
      ⟨v, hpc, rfl⟩ | ⟨v, hpc, rfl⟩ <;> rw [hpc] at hfound hknows
    · dsimp only
      split_ifs with hempty
      · exact hI.move (fun d => by rw [hpc]; simp [Pc.holds]) trivial (fun _ => hempty) trivial
      · exact hI.move (fun d => by rw [hpc]; rfl) hempty (fun hf => hf.elim) trivial
    · obtain ⟨v, hhead, htop⟩ := top_eq hknows
      rw [htop]
      exact hI.move (fun d => by rw [hpc]; rfl) hhead (fun hf => hf.elim) trivial
    · exact hI.pop hpc (owner_eq_zero owns hr (by rw [hpc]; exact Nat.one_ne_zero))
    · dsimp only
      split_ifs with hflag
      · exact hI.move (fun d => by rw [hpc]; simp [Pc.holds, hflag]) trivial (fun _ => hfound hflag)
          trivial
      · exact hI.move (fun d => by rw [hpc]; rfl) trivial (fun hf => hf.elim) hflag
    · exact hI.wash hpc

def weight (m : Shared) (thread : Fin n → Pc) : ℕ := ∑ i, (thread i).rank + 7 * m.stack.length

theorem weight_lt {m m' : Shared} {thread : Fin n → Pc} {pc : Pc}
    (h : pc.rank + 7 * m'.stack.length < (thread i).rank + 7 * m.stack.length) :
    weight m' (Function.update thread i pc) < weight m thread := by
  have hsum := sum_move thread i Pc.rank pc
  rw [weight, weight]
  omega

theorem rank_unlock (v : ℤ) : (Pc.test v).rank < (Pc.unlock v).rank := by
  simp only [Pc.rank]
  split_ifs <;> omega

theorem weight_decreases (h : (code n dishCount).system.Reachable s)
    (ht : (code n dishCount).system.step s i = some t) :
    weight t.memory t.thread < weight s.memory s.thread := by
  rcases step_cases ht with ⟨m, pc', hnext, -, rfl⟩ | ⟨m, pc', hnext, rfl⟩ |
    ⟨run, r, hnext, hrun, rfl⟩
  · refine weight_lt (Nat.add_lt_add_right ?_ _)
    rcases move_cases (i := i) (.inl hnext) with ⟨hpc, rfl⟩ | ⟨v, hpc, rfl⟩ <;> rw [hpc]
    · exact Nat.lt_succ_self 4
    · exact rank_unlock v
  · refine weight_lt (Nat.add_lt_add_right ?_ _)
    rcases move_cases (i := i) (.inr hnext) with ⟨hpc, rfl⟩ | ⟨v, hpc, rfl⟩ <;> rw [hpc]
    · exact Nat.lt_succ_self 4
    · exact rank_unlock v
  · have hI := reachable_inv h
    have hknows := hI.knows i
    rcases access_cases (i := i) hnext hrun with ⟨hpc, rfl⟩ | ⟨hpc, rfl⟩ | ⟨v, hpc, rfl⟩ |
      ⟨v, hpc, rfl⟩ | ⟨v, hpc, rfl⟩ <;> rw [hpc] at hknows
    · refine weight_lt (Nat.add_lt_add_right ?_ _)
      rw [hpc]
      dsimp only
      split_ifs
      · exact Nat.lt_of_lt_of_le (Nat.lt_succ_self 2) (Nat.le_succ 3)
      · exact Nat.lt_succ_self 3
    · obtain ⟨v, -, htop⟩ := top_eq hknows
      rw [htop]
      refine weight_lt (Nat.add_lt_add_right ?_ _)
      rw [hpc]
      exact Nat.lt_succ_self 2
    -- the dish that leaves the stack pays for the steps with it
    · obtain ⟨stack, hstack⟩ := List.head?_eq_some_iff.mp hknows
      have hrank : (Pc.unlock v).rank ≤ 8 := by
        simp only [Pc.rank]
        split_ifs <;> omega
      refine weight_lt ?_
      rw [hpc, State.access_memory, Shared.pop, hstack, List.length_cons]
      have hpop : (Pc.pop v).rank = 2 := rfl
      dsimp only
      omega
    · refine weight_lt (Nat.add_lt_add_right ?_ _)
      rw [hpc]
      by_cases hflag : v = stackEmptyFlag
      · simp only [if_pos hflag, Pc.rank]
        omega
      · simp only [if_neg hflag, Pc.rank]
        omega
    · refine weight_lt (Nat.add_lt_add_right ?_ _)
      rw [hpc]
      exact Nat.lt_succ_self 5

theorem returned_of_stuck (h : (code n dishCount).system.Reachable s)
    (hs : (code n dishCount).system.Stuck s) (i : Fin n) : s.thread i = .returned := by
  obtain hfinished | ⟨run, hnext, hnone⟩ := stuck_cases owns h hs i
  · change next i (s.thread i) = _ at hfinished
    cases hpc : s.thread i <;> rw [hpc] at hfinished <;> first | rfl | cases hfinished
  · exact absurd hnone (access_ne_none (i := i) hnext s.memory)

theorem Inv.of_returned {m : Shared} {thread : Fin n → Pc} (hn : 1 ≤ n)
    (hI : Inv dishCount m thread) (hall : ∀ i, thread i = .returned) :
    m.washed.Perm ((List.range dishCount).map Nat.cast) ∧ m.size = 0 := by
  have hempty : m.stack = [] := hI.found ⟨0, hn⟩ (by rw [hall]; trivial)
  refine ⟨List.perm_iff_count.mpr fun dish => ?_, by rw [Shared.size, hempty, List.length_nil]⟩
  have honce := hI.once dish
  have hholds : ∑ i, (thread i).holds dish = 0 :=
    Finset.sum_eq_zero fun i _ => by rw [hall i]; rfl
  have hfill := count_fill dishCount dish
  rw [fill_eq, List.count_reverse] at hfill
  rw [places, hempty, List.count_nil, hholds, Nat.zero_add] at honce
  rw [honce, hfill]

end Runs

/-- No washer takes the top of the empty stack, every dish is always in one place, and no other
number is a dish; a washer gets the flag and goes home only when the stack is empty; every run
ends with all washers at home, and then every dish was washed once and none is left. -/
theorem dishes_washed_once (washerCount dishCount : ℕ) (hn : 1 ≤ washerCount) :
    (code washerCount dishCount).system.Terminates ∧
      ∀ s, (code washerCount dishCount).system.Reachable s →
        s.memory.undefined = false ∧
        (∀ dish, places s.memory s.thread dish = if 0 ≤ dish ∧ dish < dishCount then 1 else 0) ∧
        (∀ i, (s.thread i).FoundEmpty → s.memory.stack = []) ∧
        ((code washerCount dishCount).system.Stuck s → ∀ i, s.thread i = .returned) ∧
        ((∀ i, s.thread i = .returned) →
          s.memory.washed.Perm ((List.range dishCount).map Nat.cast) ∧ s.memory.size = 0) := by
  refine ⟨⟨fun s => weight s.memory s.thread, fun s i t h ht => weight_decreases h ht⟩,
    fun s h => ?_⟩
  have hI := reachable_inv h
  exact ⟨hI.defined, hI.once, hI.found, returned_of_stuck h, hI.of_returned hn⟩

/-- The end of a run of two washers and three dishes. -/
theorem dishes_washed_once_three : ∃ s, (code 2 3).system.Reachable s ∧
    s.memory.undefined = false ∧ (∀ i, s.thread i = .returned) ∧
    s.memory.washed.Perm [0, 1, 2] ∧ s.memory.size = 0 := by
  obtain ⟨hterminates, h⟩ := dishes_washed_once 2 3 (by norm_num)
  obtain ⟨s, hr, hs⟩ := hterminates.exists_stuck
  obtain ⟨hdefined, -, -, hstuck, hend⟩ := h s hr
  exact ⟨s, hr, hdefined, hstuck hs, hend (hstuck hs)⟩

end Concurrente.DishStack
