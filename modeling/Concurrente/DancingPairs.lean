import Concurrente.Semaphores.Progress

/-!
# dancing_pairs

Men and women who arrive at a dance hall, one thread each.  In the first solution they dance as
soon as there is a partner; in the second one man and one woman dance at a time; the others let
the pairs enter through a barrier whose permits nobody gives back.
-/

namespace Concurrente.DancingPairs

open Semaphores

inductive Gender where
  | male
  | female
  deriving DecidableEq

def Gender.other : Gender → Gender
  | male => female
  | female => male

def gender? : Char → Option Gender
  | 'M' => some .male
  | 'W' => some .female
  | _ => none

/-- The threads that `main` creates for an input. -/
def dancers (input : List Char) : List Gender := input.filterMap gender?

/-- `male_queue` and `female_queue`, and what the later solutions add. -/
inductive Semaphore where
  | queue (gender : Gender)
  | roomBarrier
  | multiplex
  deriving DecidableEq

instance : Fintype Semaphore where
  elems := {.queue .male, .queue .female, .roomBarrier, .multiplex}
  complete k := by
    obtain ⟨⟨⟩⟩ | _ | _ := k <;> decide

inductive Statement where
  | dance
  deriving DecidableEq

abbrev Hall (crowd : List Gender) := State (Fin crowd.length) Semaphore Statement

def main (permits : Semaphore → ℕ) (routine : Gender → List (Line Semaphore Statement))
    (crowd : List Gender) : Script (Fin crowd.length) Semaphore Statement :=
  Script.once permits fun i => routine crowd[i]

/-- The dancers of a gender that have danced. -/
def danced {crowd : List Gender} (s : Hall crowd) (gender : Gender) : Finset (Fin crowd.length) :=
  Finset.univ.filter fun i => crowd[i] = gender ∧ (i, .dance) ∈ s.done

namespace Solution1

def permits : Semaphore → ℕ := fun _ => 0

def routine (gender : Gender) : List (Line Semaphore Statement) :=
  [.signal (.queue gender) 1, .wait (.queue gender.other), .statement .dance]

end Solution1

namespace Solution2

def permits : Semaphore → ℕ
  | .queue _ => 1
  | .roomBarrier => 2
  | .multiplex => 0

def routine (gender : Gender) : List (Line Semaphore Statement) :=
  [.wait (.queue gender), .wait .roomBarrier, .statement .dance, .signal .roomBarrier 1,
    .signal (.queue gender) 1]

end Solution2

namespace Solution3

def permits : Semaphore → ℕ
  | .queue _ => 1
  | .roomBarrier => 2
  | .multiplex => 0

def routine (gender : Gender) : List (Line Semaphore Statement) :=
  [.wait (.queue gender), .wait .roomBarrier, .signal (.queue gender) 1, .statement .dance]

end Solution3

namespace Solution4

def permits (roomCapacity : ℕ) : Semaphore → ℕ
  | .queue _ => 1
  | .roomBarrier => 2
  | .multiplex => 2 * roomCapacity

def routine (gender : Gender) : List (Line Semaphore Statement) :=
  [.wait (.queue gender), .wait .roomBarrier, .wait .multiplex, .signal (.queue gender) 1,
    .statement .dance, .signal .multiplex 1]

end Solution4

namespace Solution5

def permits (roomCapacity : ℕ) : Semaphore → ℕ
  | .queue _ => 2
  | .roomBarrier => 4
  | .multiplex => 2 * roomCapacity

def routine : Gender → List (Line Semaphore Statement) := Solution4.routine

end Solution5

section Counting

variable {crowd : List Gender} {s : Hall crowd}

@[simp] theorem Gender.other_other (gender : Gender) : gender.other.other = gender := by
  cases gender <;> rfl

theorem card_gender (gender : Gender) :
    (Finset.univ.filter fun i : Fin crowd.length => crowd[i] = gender).card =
      crowd.count gender := by
  rw [Finset.card_filter]
  refine (Fin.sum_univ_fun_getElem crowd fun g => if g = gender then 1 else 0).trans ?_
  induction crowd with
  | nil => rfl
  | cons g crowd ih =>
    rw [List.map_cons, List.sum_cons, ih, List.count_cons, add_comm]
    simp

namespace Solution1

theorem waited_queue (i : Fin crowd.length) (gender : Gender) {n : ℕ} (hn : n ≤ 3) :
    (main permits routine crowd).waited i (.queue gender) n =
      if crowd[i] = gender.other ∧ 2 ≤ n then 1 else 0 := by
  rw [Script.waited, main, Script.once, sum_take]
  cases gender <;> cases hi : crowd[i] <;> interval_cases n <;> rfl

theorem signalled_queue (i : Fin crowd.length) (gender : Gender) {n : ℕ} (hn : n ≤ 3) :
    (main permits routine crowd).signalled i (.queue gender) n =
      if crowd[i] = gender ∧ 1 ≤ n then 1 else 0 := by
  rw [Script.signalled, main, Script.once, sum_take]
  cases gender <;> cases hi : crowd[i] <;> interval_cases n <;> rfl

theorem partners (h : (main permits routine crowd).system.Reachable s) (gender : Gender) :
    s.permits (.queue gender) +
      (Finset.univ.filter fun i => crowd[i] = gender.other ∧ 2 ≤ s.position i).card =
        (Finset.univ.filter fun i => crowd[i] = gender ∧ 1 ≤ s.position i).card := by
  have hcons := conservation h (.queue gender)
  rw [Finset.sum_congr rfl fun i _ => waited_queue i gender (position_le h i),
    Finset.sum_congr rfl fun i _ => signalled_queue i gender (position_le h i),
    ← Finset.card_filter, ← Finset.card_filter] at hcons
  exact hcons.trans (Nat.zero_add _)

theorem mem_danced (h : (main permits routine crowd).system.Reachable s) (gender : Gender)
    (i : Fin crowd.length) : i ∈ danced s gender ↔ crowd[i] = gender ∧ 3 ≤ s.position i := by
  have hline : ∀ m, (main permits routine crowd).line i m = some (.statement .dance) ↔ m = 2 := by
    intro m
    obtain _ | _ | _ | m := m <;> simp [main, Script.once, routine]
  rw [danced, Finset.mem_filter, mem_done_iff h]
  simp only [hline, Finset.mem_univ, true_and, exists_eq_right]
  rfl

theorem card_danced_le (h : (main permits routine crowd).system.Reachable s) (gender : Gender) :
    (danced s gender).card ≤
      (Finset.univ.filter fun i => crowd[i] = gender.other ∧ 1 ≤ s.position i).card := by
  have hpartners := partners h gender.other
  rw [Gender.other_other] at hpartners
  have hsub : danced s gender ⊆
      Finset.univ.filter fun i => crowd[i] = gender ∧ 2 ≤ s.position i := by
    intro i hi
    obtain ⟨hg, hpos⟩ := (mem_danced h gender i).mp hi
    exact Finset.mem_filter.mpr ⟨Finset.mem_univ i, hg, by omega⟩
  have := Finset.card_le_card hsub
  omega

theorem position_of_stuck (hs : (main permits routine crowd).system.Stuck s)
    (h : (main permits routine crowd).system.Reachable s) (i : Fin crowd.length) :
    s.position i = 3 ∨ s.position i = 1 ∧ s.permits (.queue crowd[i].other) = 0 := by
  have hle : s.position i ≤ 3 := position_le h i
  have hblocked := blocked_cases (hs i)
  simp only [main, Script.once, routine] at hblocked
  generalize hn : s.position i = n at hle hblocked
  interval_cases n <;> simp at hblocked ⊢
  exact hblocked

theorem card_danced_of_stuck (h : (main permits routine crowd).system.Reachable s)
    (hs : (main permits routine crowd).system.Stuck s) (gender : Gender) :
    (danced s gender).card = min (crowd.count gender) (crowd.count gender.other) := by
  have hpartners := partners h gender.other
  rw [Gender.other_other] at hpartners
  have hin : (Finset.univ.filter fun i => crowd[i] = gender ∧ 2 ≤ s.position i) =
      danced s gender := by
    ext i
    rw [mem_danced h, Finset.mem_filter]
    have := position_of_stuck hs h i
    simp only [Finset.mem_univ, true_and, and_congr_right_iff]
    omega
  have harrived : (Finset.univ.filter fun i => crowd[i] = gender.other ∧ 1 ≤ s.position i) =
      Finset.univ.filter fun i => crowd[i] = gender.other := by
    ext i
    have := position_of_stuck hs h i
    simp only [Finset.mem_filter, Finset.mem_univ, true_and, and_iff_left_iff_imp]
    omega
  rw [hin, harrived, card_gender] at hpartners
  have hsub : danced s gender ⊆ Finset.univ.filter fun i => crowd[i] = gender :=
    fun i hi => Finset.mem_filter.mpr ⟨Finset.mem_univ i, ((mem_danced h gender i).mp hi).1⟩
  have hle := Finset.card_le_card hsub
  rw [card_gender] at hle
  by_cases hall : (danced s gender).card = crowd.count gender
  · omega
  · obtain ⟨i, hi, hnot⟩ := Finset.exists_of_ssubset (hsub.ssubset_of_ne fun heq => hall (by
      rw [heq, card_gender]))
    have hgender := (Finset.mem_filter.mp hi).2
    obtain hpos | ⟨-, hzero⟩ := position_of_stuck hs h i
    · exact absurd ((mem_danced h gender i).mpr ⟨hgender, hpos.ge⟩) hnot
    · rw [hgender] at hzero
      omega

/-- Nobody dances before a partner has arrived, and when nobody moves any more as many men as
women have danced, as many as there can be. -/
theorem partners_dance (input : List Char) (s : Hall (dancers input))
    (h : (main permits routine (dancers input)).system.Reachable s) (gender : Gender) :
    (danced s gender).card ≤
      (Finset.univ.filter fun i =>
        (dancers input)[i] = gender.other ∧ 1 ≤ s.position i).card ∧
    ((main permits routine (dancers input)).system.Stuck s →
      (danced s gender).card =
        min ((dancers input).count gender) ((dancers input).count gender.other)) :=
  ⟨card_danced_le h gender, fun hs => card_danced_of_stuck h hs gender⟩

/-- Of two men and a woman one pair dances, and a man is left. -/
theorem partners_dance_three :
    ∃ s, (main permits routine (dancers ['M', 'M', 'W'])).system.Reachable s ∧
      (danced s .male).card = 1 ∧ (danced s .female).card = 1 := by
  have hstart : (main permits routine (dancers ['M', 'M', 'W'])).system.Reachable
      (main permits routine (dancers ['M', 'M', 'W'])).system.start := .start
  obtain ⟨s, hs, hstuck⟩ := exists_stuck hstart
  have hmen := (partners_dance ['M', 'M', 'W'] s hs .male).2 hstuck
  have hwomen := (partners_dance ['M', 'M', 'W'] s hs .female).2 hstuck
  exact ⟨s, hs, hmen.trans (by decide), hwomen.trans (by decide)⟩

end Solution1

namespace Solution2

/-- The dancers of a gender who are at `dance`. -/
def dancing (s : Hall crowd) (gender : Gender) : Finset (Fin crowd.length) :=
  Finset.univ.filter fun i => crowd[i] = gender ∧
    (main permits routine crowd).line i (s.position i) = some (.statement .dance)

theorem balanced (gender : Gender) : Balanced (routine gender) where
  ne_nil := List.cons_ne_nil _ _
  round k := by simp [routine, Line.waits, Line.signals]; ring
  before k m hm := by
    simp only [routine, List.length_cons, List.length_nil] at hm
    interval_cases m
    all_goals simp [routine, Line.waits, Line.signals]

theorem heldAfter_wait {gender : Gender} {n : ℕ} {k k' : Semaphore}
    (hheld : 0 < heldAfter (routine gender) k n)
    (hl : (routine gender)[n]? = some (.wait k')) : k = .queue gender ∧ k' = .roomBarrier := by
  obtain ⟨hm, -⟩ := List.getElem?_eq_some_iff.mp hl
  simp only [routine, List.length_cons, List.length_nil] at hm
  interval_cases n <;> simp [routine, heldAfter, Line.waits, Line.signals] at hheld hl ⊢
  refine ⟨?_, hl.symm⟩
  by_contra hk
  rw [if_neg (Ne.symm hk)] at hheld
  exact hheld.false

def rank : Semaphore → ℕ
  | .roomBarrier => 1
  | _ => 0

theorem completes (crowd : List Gender) :
    Completes permits fun i : Fin crowd.length => routine crowd[i] := by
  apply completes_of_hierarchy (fun i => balanced crowd[i]) _ rank
  · intro i n k k' hheld hl
    obtain ⟨rfl, rfl⟩ := heldAfter_wait hheld hl
    exact Nat.one_pos
  · intro i k hk
    simp only [routine, List.mem_cons, Line.wait.injEq, reduceCtorEq, List.not_mem_nil,
      or_false] at hk
    obtain rfl | rfl := hk
    · exact Nat.one_pos
    · exact Nat.two_pos

theorem heldAfter_dance {gender : Gender} {n : ℕ}
    (hl : (routine gender)[n]? = some (.statement .dance)) :
    heldAfter (routine gender) (.queue gender) n = 1 := by
  obtain ⟨hm, -⟩ := List.getElem?_eq_some_iff.mp hl
  simp only [routine, List.length_cons, List.length_nil] at hm
  interval_cases n <;> simp [routine, heldAfter, Line.waits, Line.signals] at hl ⊢

theorem card_dancing_le (h : (main permits routine crowd).system.Reachable s) (gender : Gender) :
    (dancing s gender).card ≤ 1 := by
  apply card_le_permits (once_lends fun i => balanced crowd[i]) h (.queue gender)
  intro i hi
  obtain ⟨rfl, hl⟩ := (Finset.mem_filter.mp hi).2
  rw [once_held, heldAfter_dance hl]
  exact Nat.one_pos

/-- At most one man and one woman dance at a time, and everybody who comes dances. -/
theorem one_pair_dances (input : List Char) :
    (∀ s, (main permits routine (dancers input)).system.Reachable s →
      ∀ gender, (dancing s gender).card ≤ 1) ∧
    Completes permits fun i : Fin (dancers input).length => routine (dancers input)[i] :=
  ⟨fun _ h gender => card_dancing_le h gender, completes _⟩

end Solution2

section Unreturned

variable {permits : Semaphore → ℕ} {routine : Gender → List (Line Semaphore Statement)}
  (hsignals : ∀ gender, ((routine gender).map (Line.signals .roomBarrier)).sum = 0)

include hsignals

theorem card_danced_le_permits
    (hwaits : ∀ gender, Line.After (.wait .roomBarrier) (· = .statement .dance) (routine gender))
    (h : (main permits routine crowd).system.Reachable s) :
    (danced s .male).card + (danced s .female).card ≤ permits .roomBarrier := by
  have hnone : ∑ i, (main permits routine crowd).signalled i .roomBarrier (s.position i) = 0 := by
    apply Finset.sum_eq_zero
    intro i _
    have hmono : (main permits routine crowd).signalled i .roomBarrier (s.position i) ≤
        (main permits routine crowd).signalled i .roomBarrier (routine crowd[i]).length :=
      Script.signalled_mono (position_le h i)
    rw [Script.signalled, Script.signalled, main, Script.once, sum_body, hsignals] at hmono
    exact Nat.le_zero.mp hmono
  have hdisjoint : Disjoint (danced s .male) (danced s .female) := by
    apply Finset.disjoint_left.mpr
    intro i hm hf
    exact Gender.noConfusion
      ((Finset.mem_filter.mp hm).2.1.symm.trans (Finset.mem_filter.mp hf).2.1)
  have hwaited : ∀ i, (i, .dance) ∈ s.done →
      1 ≤ (main permits routine crowd).waited i .roomBarrier (s.position i) := by
    intro i hi
    obtain ⟨m, hm, hl⟩ := (mem_done_iff h i .dance).mp hi
    obtain ⟨n, hn, hw⟩ := (hwaits crowd[i]).exists_before hl rfl
    exact Script.waited_pos hw (hn.trans hm)
  have hle : (danced s .male ∪ danced s .female).card ≤
      ∑ i, (main permits routine crowd).waited i .roomBarrier (s.position i) := by
    rw [Finset.card_eq_sum_ones]
    apply le_trans (Finset.sum_le_sum _) (Finset.sum_le_univ_sum_of_nonneg fun i => Nat.zero_le _)
    intro i hi
    obtain hi | hi := Finset.mem_union.mp hi
    all_goals exact hwaited i (Finset.mem_filter.mp hi).2.2
  rw [Finset.card_union_of_disjoint hdisjoint] at hle
  have hcons := conservation h .roomBarrier
  rw [hnone] at hcons
  change _ = permits .roomBarrier + 0 at hcons
  omega

theorem exists_left_out
    (hwaits : ∀ gender, ((routine gender).map (Line.waits .roomBarrier)).sum = 1)
    (hcrowd : permits .roomBarrier < crowd.length)
    (h : (main permits routine crowd).system.Reachable s) :
    ∃ i : Fin crowd.length, s.position i < (routine crowd[i]).length := by
  apply exists_unfinished (k := .roomBarrier) _ h
  simp only [hsignals, hwaits, Finset.sum_const, Finset.card_univ, Fintype.card_fin, smul_eq_mul]
  omega

end Unreturned

/-- In the solutions that let pairs enter through `room_barrier` two dancers, or four in the last
one, dance in all, however many come and whatever the capacity of the room; when more come every
run ends with somebody who waits. -/
theorem room_barrier_not_given_back (input : List Char) (roomCapacity : ℕ) :
    (∀ s, (main Solution3.permits Solution3.routine (dancers input)).system.Reachable s →
      (danced s .male).card + (danced s .female).card ≤ 2 ∧
      (2 < (dancers input).length →
        ∃ i, s.position i < (Solution3.routine (dancers input)[i]).length)) ∧
    (∀ s, (main (Solution4.permits roomCapacity) Solution4.routine
        (dancers input)).system.Reachable s →
      (danced s .male).card + (danced s .female).card ≤ 2 ∧
      (2 < (dancers input).length →
        ∃ i, s.position i < (Solution4.routine (dancers input)[i]).length)) ∧
    ∀ s, (main (Solution5.permits roomCapacity) Solution5.routine
        (dancers input)).system.Reachable s →
      (danced s .male).card + (danced s .female).card ≤ 4 ∧
      (4 < (dancers input).length →
        ∃ i, s.position i < (Solution5.routine (dancers input)[i]).length) := by
  refine ⟨fun s h => ⟨?_, fun hcrowd => ?_⟩, fun s h => ⟨?_, fun hcrowd => ?_⟩,
    fun s h => ⟨?_, fun hcrowd => ?_⟩⟩
  · exact card_danced_le_permits (by rintro ⟨⟩ <;> rfl) (by rintro ⟨⟩ <;> decide) h
  · exact exists_left_out (by rintro ⟨⟩ <;> rfl) (by rintro ⟨⟩ <;> rfl) hcrowd h
  · exact card_danced_le_permits (by rintro ⟨⟩ <;> rfl) (by rintro ⟨⟩ <;> decide) h
  · exact exists_left_out (by rintro ⟨⟩ <;> rfl) (by rintro ⟨⟩ <;> rfl) hcrowd h
  · exact card_danced_le_permits (by rintro ⟨⟩ <;> rfl) (by rintro ⟨⟩ <;> decide) h
  · exact exists_left_out (by rintro ⟨⟩ <;> rfl) (by rintro ⟨⟩ <;> rfl) hcrowd h

end Counting

end Concurrente.DancingPairs
