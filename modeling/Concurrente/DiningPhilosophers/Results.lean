import Concurrente.DiningPhilosophers.Program

/-!
# The philosophers of both tables eat

A philosopher who eats holds both chopsticks.  With a laterality everybody takes an odd
chopstick first, but for the last of an odd table, who takes the chopstick 0 first; with the quota
somebody does not sit, and the chopsticks from his place on are taken in order.
-/

namespace Concurrente.DiningPhilosophers

open Semaphores

section Chopsticks

variable {n : ℕ} {κ : Type} [DecidableEq κ] {chopstick : Fin n → κ}

theorem left_ne_right (hn : 2 ≤ n) (id : Fin n) : left id ≠ right id := by
  intro h
  have hval : (id.val + 1) % n = id.val := congrArg Fin.val h
  have hlt := id.isLt
  rw [Nat.add_mod_eq_ite, Nat.mod_eq_of_lt hlt, Nat.mod_eq_of_lt (by omega)] at hval
  split_ifs at hval <;> omega

end Chopsticks

/-- What both tables have in common: who eats holds his chopsticks, and who holds a permit waits
only for semaphores that rank above it. -/
structure Orderly {n : ℕ} {κ : Type} [DecidableEq κ] (permits : κ → ℕ)
    (body : Fin n → List (Line κ Action)) (chopstick : Fin n → κ) : Prop where
  balanced : ∀ id, Balanced (body id)
  positive : ∀ k, 0 < permits k
  one : ∀ id, permits (chopstick id) = 1
  room : ∀ id (m : ℕ) k, (body id)[m]? = some (.wait k) → heldAfter (body id) k m < permits k
  eat : ∀ id, ∃ m : ℕ, (body id)[m]? = some (.statement .eat)
  holds : ∀ id (m : ℕ), (body id)[m]? = some (.statement .eat) →
    0 < heldAfter (body id) (chopstick (left id)) m ∧
      0 < heldAfter (body id) (chopstick (right id)) m
  ranked : ∀ s, (Script.loop permits body).system.Reachable s → ∃ rank : κ → ℕ, ∀ id k k',
    0 < heldAfter (body id) k (s.position id % (body id).length) →
    (body id)[s.position id % (body id).length]? = some (.wait k') → rank k < rank k'

section Orderly

variable {n : ℕ} {κ : Type} [DecidableEq κ] {permits : κ → ℕ}
  {body : Fin n → List (Line κ Action)} {chopstick : Fin n → κ}
  {s : State (Fin n) κ Action}

theorem holder_moves [Finite κ] (h : Orderly permits body chopstick)
    (hs : (Script.loop permits body).system.Reachable s)
    (hheld : ∃ i k, 0 < heldAfter (body i) k (s.position i % (body i).length)) :
    ∃ i k t, 0 < heldAfter (body i) k (s.position i % (body i).length) ∧
      (Script.loop permits body).system.step s i = some t := by
  obtain ⟨rank, hrank⟩ := h.ranked s hs
  have hmove := exists_holder_moves (loop_lends h.balanced) (fun _ _ k _ => h.positive k)
    (fun i _ m _ => loop_line_ne_none h.balanced i m) rank hs
  simp only [loop_held h.balanced] at hmove
  exact hmove hrank hheld

theorem holder_unique (h : Orderly permits body chopstick)
    (hs : (Script.loop permits body).system.Reachable s) {k i j : Fin n}
    (hi : 0 < heldAfter (body i) (chopstick k) (s.position i % (body i).length))
    (hj : 0 < heldAfter (body j) (chopstick k) (s.position j % (body j).length)) : i = j := by
  have hsum := permits_add_held (loop_lends h.balanced) hs (chopstick k)
  simp only [loop_held h.balanced] at hsum
  have hone : (Script.loop permits body).permits (chopstick k) = 1 := h.one k
  have hle : ∑ i, heldAfter (body i) (chopstick k) (s.position i % (body i).length) ≤ 1 := by omega
  exact eq_of_sum_le_one _ hle (Finset.mem_univ i) (Finset.mem_univ j) hi.ne' hj.ne'

theorem exists_eating [Finite κ] (h : Orderly permits body chopstick)
    (hs : (Script.loop permits body).system.Reachable s) (id : Fin n) :
    ∃ t, (Script.loop permits body).system.Path s t ∧ Eating (Script.loop permits body) t id := by
  obtain ⟨m, hm⟩ := h.eat id
  obtain ⟨t, ht, hpos⟩ := loop_exists_line h.balanced h.room (fun s hs => holder_moves h hs) hs
    (List.getElem?_eq_some_iff.mp hm).1
  exact ⟨t, ht, by rw [Eating, ← hm, ← hpos]; rfl⟩

theorem correct_of_orderly [Finite κ] (hn : 2 ≤ n) (h : Orderly permits body chopstick) :
    Correct (Script.loop permits body) where
  neighbours s hs id hid hleft := by
    have hl := (h.holds id _ hid).1
    have hr := (h.holds (left id) _ hleft).2
    exact left_ne_right hn id (holder_unique h hs hl hr).symm
  moves s hs hstuck := by
    -- who eats moves, and nobody comes to eat from a state in which nobody moves
    obtain ⟨t, ht, heat⟩ := exists_eating h hs ⟨0, by omega⟩
    obtain ⟨r, hr⟩ := exists_step heat (by rintro k ⟨⟩)
    obtain rfl | ⟨q, ⟨i, hi⟩, -⟩ := Relation.ReflTransGen.cases_head ht
    · rw [hstuck] at hr
      cases hr
    · rw [hstuck] at hi
      cases hi
  eats s hs id := exists_eating h hs id

end Orderly

namespace Laterality

variable {n : ℕ}

/-- The chopsticks in the order in which a philosopher takes them. -/
def first (id : Fin n) : Fin n := if id.val % 2 = 0 then left id else right id

def second (id : Fin n) : Fin n := if id.val % 2 = 0 then right id else left id

theorem philosopher_eq (id : Fin n) :
    philosopher id = [.statement .think, .wait (first id), .wait (second id), .statement .eat,
      .signal (left id) 1, .signal (right id) 1] := by
  simp only [philosopher, meal, first, second]
  split_ifs <;> rfl

theorem first_ne_second (hn : 2 ≤ n) (id : Fin n) : first id ≠ second id := by
  simp only [first, second]
  split_ifs
  · exact left_ne_right hn id
  · exact (left_ne_right hn id).symm

/-- Odd chopsticks, then the chopstick 0, then the other even ones. -/
def rank (chopstick : Fin n) : ℕ :=
  if chopstick.val % 2 = 1 then 0 else if chopstick.val = 0 then 1 else 2

theorem rank_first_lt_second (hn : 2 ≤ n) (id : Fin n) : rank (first id) < rank (second id) := by
  have hlt := id.isLt
  have hleft : (left id).val = if id.val + 1 = n then 0 else id.val + 1 := by
    split_ifs with hlast
    · simp [left, hlast]
    · exact Nat.mod_eq_of_lt (by omega)
  simp only [rank, first, second, right]
  split_ifs at hleft ⊢ <;> omega

theorem first_second (id : Fin n) : first id = left id ∧ second id = right id ∨
    first id = right id ∧ second id = left id := by
  simp only [first, second]
  split_ifs
  · exact .inl ⟨rfl, rfl⟩
  · exact .inr ⟨rfl, rfl⟩

theorem signals_eq_waits (id : Fin n) (k : Fin n) :
    ((if left id = k then 1 else 0) + if right id = k then 1 else 0) =
      (if first id = k then 1 else 0) + if second id = k then 1 else 0 := by
  obtain ⟨h, h'⟩ | ⟨h, h'⟩ := first_second id <;> rw [h, h']
  exact add_comm _ _

theorem balanced (id : Fin n) : Balanced (philosopher id) where
  ne_nil := List.cons_ne_nil _ _
  round k := by simpa [philosopher_eq, Line.waits, Line.signals] using signals_eq_waits id k
  before k m hm := by
    have heq := signals_eq_waits id k
    rw [philosopher_eq] at hm ⊢
    simp only [List.length_cons, List.length_nil] at hm
    interval_cases m <;> simp [Line.waits, Line.signals]
    omega

theorem heldAfter_eat (id : Fin n) (m : ℕ) (k : Fin n)
    (hl : (philosopher id)[m]? = some (.statement .eat)) :
    heldAfter (philosopher id) k m =
      (if left id = k then 1 else 0) + if right id = k then 1 else 0 := by
  rw [signals_eq_waits]
  rw [philosopher_eq] at hl ⊢
  obtain ⟨hm, -⟩ := List.getElem?_eq_some_iff.mp hl
  simp only [List.length_cons, List.length_nil] at hm
  interval_cases m <;> simp [heldAfter, Line.waits, Line.signals] at hl ⊢

theorem heldAfter_wait (hn : 2 ≤ n) (id : Fin n) (m : ℕ) (k k' : Fin n)
    (hl : (philosopher id)[m]? = some (.wait k')) :
    heldAfter (philosopher id) k m = if k = first id ∧ k' = second id then 1 else 0 := by
  rw [philosopher_eq] at hl ⊢
  obtain ⟨hm, -⟩ := List.getElem?_eq_some_iff.mp hl
  simp only [List.length_cons, List.length_nil] at hm
  have hne := first_ne_second hn id
  interval_cases m <;> simp [heldAfter, Line.waits, Line.signals] at hl ⊢ <;> grind

theorem orderly (hn : 2 ≤ n) : Orderly (fun _ => 1) philosopher fun c : Fin n => c where
  balanced := balanced
  positive _ := Nat.one_pos
  one _ := rfl
  room id m k hl := by
    rw [heldAfter_wait hn id m k k hl, if_neg]
    · exact Nat.one_pos
    · rintro ⟨h, h'⟩
      exact first_ne_second hn id (h.symm.trans h')
  eat id := ⟨3, by rw [philosopher_eq]; rfl⟩
  holds id m hm := by
    rw [heldAfter_eat id m _ hm, heldAfter_eat id m _ hm, if_pos rfl, if_pos rfl]
    exact ⟨Nat.lt_add_right _ Nat.one_pos, Nat.lt_add_left _ Nat.one_pos⟩
  ranked s hs := by
    refine ⟨rank, fun id k k' hheld hl => ?_⟩
    rw [heldAfter_wait hn id _ k k' hl] at hheld
    split_ifs at hheld with h
    · rw [h.1, h.2]
      exact rank_first_lt_second hn id
    · cases hheld

/-- Left and right handed philosophers eat, never two neighbours together, and none is shut out. -/
theorem laterality_correct (hn : 2 ≤ n) : Correct (main n) := correct_of_orderly hn (orderly hn)

theorem laterality_correct_five : Correct (main 5) := laterality_correct (by decide)

end Laterality

namespace Quota

variable {n : ℕ}

theorem left_ne_right' (hn : 2 ≤ n) (id : Fin n) :
    Semaphore.chopstick (left id) ≠ .chopstick (right id) := by
  intro h
  exact left_ne_right hn id (Semaphore.chopstick.inj h)

theorem balanced (id : Fin n) : Balanced (philosopher id) where
  ne_nil := List.cons_ne_nil _ _
  round k := by simp [philosopher, meal, Line.waits, Line.signals, right]; ring
  before k m hm := by
    simp only [philosopher, meal, List.cons_append, List.nil_append, List.length_cons,
      List.length_nil] at hm ⊢
    interval_cases m
    all_goals simp [Line.waits, Line.signals, right]
    all_goals omega

theorem heldAfter_wait (hn : 2 ≤ n) (id : Fin n) (m : ℕ) (k k' : Semaphore n)
    (hl : (philosopher id)[m]? = some (.wait k')) :
    heldAfter (philosopher id) k m =
      (if k = .quota ∧ k' ≠ .quota then 1 else 0) +
        if k = .chopstick (left id) ∧ k' = .chopstick (right id) then 1 else 0 := by
  obtain ⟨hm, -⟩ := List.getElem?_eq_some_iff.mp hl
  simp only [philosopher, meal, List.cons_append, List.nil_append, List.length_cons,
      List.length_nil] at hl hm ⊢
  have hne := left_ne_right' hn id
  interval_cases m <;> simp [heldAfter, Line.waits, Line.signals] at hl ⊢ <;> subst hl <;> grind

theorem heldAfter_eat (id : Fin n) (m : ℕ) (k : Semaphore n)
    (hl : (philosopher id)[m]? = some (.statement .eat)) :
    heldAfter (philosopher id) k m = (if .quota = k then 1 else 0) +
      ((if .chopstick (left id) = k then 1 else 0) +
        if .chopstick (right id) = k then 1 else 0) := by
  obtain ⟨hm, -⟩ := List.getElem?_eq_some_iff.mp hl
  simp only [philosopher, meal, List.cons_append, List.nil_append, List.length_cons,
      List.length_nil] at hl hm ⊢
  interval_cases m <;> simp [heldAfter, Line.waits, Line.signals] at hl ⊢

theorem exists_not_seated (hn : 2 ≤ n) {s : State (Fin n) (Semaphore n) Action}
    (hs : (main n).system.Reachable s) :
    ∃ j, heldAfter (philosopher j) .quota (s.position j % (philosopher j).length) = 0 := by
  by_contra! hall
  have hsum := permits_add_held (loop_lends balanced) hs .quota
  simp only [loop_held balanced] at hsum
  have hquota : (Script.loop (permits n) philosopher).permits .quota = n - 1 := rfl
  have hle : ∑ _j : Fin n, 1 ≤
      ∑ j, heldAfter (philosopher j) .quota (s.position j % (philosopher j).length) :=
    Finset.sum_le_sum fun j _ => Nat.one_le_iff_ne_zero.mpr (hall j)
  rw [Finset.sum_const, Finset.card_univ, Fintype.card_fin, smul_eq_mul, mul_one] at hle
  omega

/-- The chopsticks from that of the absent philosopher downwards. -/
def rank (absent : Fin n) : Semaphore n → ℕ
  | .quota => 0
  | .chopstick c => 1 + (absent.val + (n - c.val)) % n

theorem rank_left_lt_right {absent id : Fin n} (hid : id ≠ absent) :
    rank absent (.chopstick (left id)) < rank absent (.chopstick (right id)) := by
  have hlt := id.isLt
  have hlt' := absent.isLt
  have hne : id.val ≠ absent.val := fun h => hid (Fin.ext h)
  have hmod : ∀ c ≤ n, (absent.val + (n - c)) % n =
      if absent.val < c then absent.val + (n - c) else absent.val - c := by
    intro c hc
    split_ifs with h
    · exact Nat.mod_eq_of_lt (by omega)
    · have hsub : absent.val + (n - c) = absent.val - c + n := by omega
      rw [hsub, Nat.add_mod_right, Nat.mod_eq_of_lt (by omega)]
  simp only [rank, hmod _ (left id).isLt.le, hmod _ (right id).isLt.le]
  have hright : (right id).val = id.val := rfl
  by_cases hlast : id.val + 1 = n
  · have hleft : (left id).val = 0 := by simp [left, hlast]
    grind
  · have hleft : (left id).val = id.val + 1 := Nat.mod_eq_of_lt (by omega)
    grind

theorem orderly (hn : 2 ≤ n) : Orderly (permits n) philosopher .chopstick where
  balanced := balanced
  positive
    | .quota => by
      change 0 < n - 1
      omega
    | .chopstick _ => Nat.one_pos
  one _ := rfl
  room id m k hl := by
    rw [heldAfter_wait hn id m k k hl, if_neg (fun h => h.2 h.1), if_neg]
    · cases k with
      | quota =>
        change 0 < n - 1
        omega
      | chopstick _ => exact Nat.one_pos
    · rintro ⟨h, h'⟩
      exact left_ne_right' hn id (h.symm.trans h')
  eat id := ⟨4, rfl⟩
  holds id m hm := by
    rw [heldAfter_eat id m _ hm, heldAfter_eat id m _ hm, if_pos rfl, if_pos rfl]
    omega
  ranked s hs := by
    obtain ⟨j, hj⟩ := exists_not_seated hn hs
    refine ⟨rank j, fun id k k' hheld hl => ?_⟩
    have hid : k' ≠ .quota → id ≠ j := by
      rintro hk rfl
      rw [heldAfter_wait hn id _ .quota k' hl, if_pos ⟨rfl, hk⟩] at hj
      omega
    rw [heldAfter_wait hn id _ k k' hl] at hheld
    by_cases hleft : k = .chopstick (left id) ∧ k' = .chopstick (right id)
    · obtain ⟨rfl, rfl⟩ := hleft
      exact rank_left_lt_right (hid (by rintro ⟨⟩))
    · rw [if_neg hleft, Nat.add_zero] at hheld
      split_ifs at hheld with hq
      · cases k' with
        | quota => exact absurd rfl hq.2
        | chopstick c =>
          rw [hq.1]
          exact Nat.lt_add_right _ Nat.one_pos
      · cases hheld

/-- With one seat less than there are philosophers they eat, never two neighbours together, and
none is shut out. -/
theorem quota_correct (hn : 2 ≤ n) : Correct (main n) := correct_of_orderly hn (orderly hn)

theorem quota_correct_five : Correct (main 5) := quota_correct (by decide)

end Quota

end Concurrente.DiningPhilosophers
