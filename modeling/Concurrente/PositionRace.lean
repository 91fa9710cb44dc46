import Concurrente.Threads

/-!
# position_race

Every thread increases the position and reports it under a mutex.  The positions come in order, and
each thread gets one; which thread gets which is up to the schedule.
-/

namespace Concurrente.PositionRace

open Threads

variable {n : ℕ}

/-- The position and the reports, with the number of the thread and its position. -/
structure Shared (n : ℕ) where
  position : ℕ
  output : List (Fin n × ℕ)

/-- Where a thread is in `race`; `++position` is a read and a write. -/
inductive Pc where
  | lock
  | read
  | write (value : ℕ)
  | take
  | print (myPosition : ℕ)
  | unlock
  | returned
  deriving DecidableEq

def next (i : Fin n) : Pc → Instr Unit Pc (Shared n)
  | .lock => .lock () .read
  | .read => .access fun s => some (s, .write ((s.position + 1) % 2 ^ 64))
  | .write value => .access fun s => some ({ s with position := value }, .take)
  | .take => .access fun s => some (s, .print s.position)
  | .print myPosition =>
    .access fun s => some ({ s with output := s.output ++ [(i, myPosition)] }, .unlock)
  | .unlock => .unlock () .returned
  | .returned => .finished

def code (n : ℕ) : Code (Fin n) Unit Pc (Shared n) where
  memory := ⟨0, []⟩
  start := fun _ => .lock
  next := next

abbrev Run (n : ℕ) := State (Fin n) Unit Pc (Shared n)

/-- The threads in the order of their reports. -/
def Shared.order (m : Shared n) : List (Fin n) := m.output.map Prod.fst

/-- The reports of threads that arrive in this order. -/
def places (order : List (Fin n)) : List (Fin n × ℕ) := order.zipIdx 1

theorem places_append (order : List (Fin n)) (i : Fin n) :
    places (order ++ [i]) = places order ++ [(i, order.length + 1)] := by
  rw [places, List.zipIdx_append, List.zipIdx_singleton, add_comm]
  rfl

namespace Pc

def Inside (pc : Pc) : Prop := pc ≠ .lock ∧ pc ≠ .returned

def held (_ : Unit) : Pc → ℕ
  | lock | returned => 0
  | _ => 1

def raised : Pc → ℕ
  | lock | read | write _ => 0
  | _ => 1

def reported : Pc → ℕ
  | unlock | returned => 1
  | _ => 0

def Knows (position : ℕ) : Pc → Prop
  | write value => value = position + 1
  | print myPosition => myPosition = position
  | _ => True

def remaining : Pc → ℕ
  | lock => 6
  | read => 5
  | write _ => 4
  | take => 3
  | print _ => 2
  | unlock => 1
  | returned => 0

theorem held_of_inside {pc : Pc} (h : pc.Inside) : pc.held () ≠ 0 := by
  cases pc with
  | lock => exact absurd rfl h.1
  | returned => exact absurd rfl h.2
  | _ => exact one_ne_zero

theorem raised_le (pc : Pc) : pc.raised ≤ pc.reported + pc.held () := by
  cases pc <;> simp [raised, reported, held]

theorem raised_le_one (pc : Pc) : pc.raised ≤ 1 := by
  cases pc <;> simp [raised]

theorem reported_le_raised (pc : Pc) : pc.reported ≤ pc.raised := by
  cases pc <;> simp [raised, reported]

end Pc

/-- The reports are those of the threads that have made them, in the order of the positions. -/
structure Racing (m : Shared n) (thread : Fin n → Pc) : Prop where
  places : m.output = places m.order
  nodup : m.order.Nodup
  mem : ∀ j, j ∈ m.order ↔ (thread j).reported = 1
  length : m.order.length = ∑ j, (thread j).reported
  position : m.position = ∑ j, (thread j).raised
  knows : ∀ j, (thread j).Knows m.position

section Steps

variable {s t : Run n} {i : Fin n}

/-- Everything that a thread does while it holds the mutex. -/
inductive Moves (i : Fin n) (m : Shared n) : Pc → Shared n × Pc → Prop
  | read : Moves i m .read (m, .write ((m.position + 1) % 2 ^ 64))
  | write (value : ℕ) : Moves i m (.write value) ({ m with position := value }, .take)
  | take : Moves i m .take (m, .print m.position)
  | print (myPosition : ℕ) : Moves i m (.print myPosition)
      ({ m with output := m.output ++ [(i, myPosition)] }, .unlock)

theorem moves_of_access {pc : Pc} {run : Shared n → Option (Shared n × Pc)} {m : Shared n}
    {r : Shared n × Pc} (hn : (code n).next i pc = .access run) (hr : run m = some r) :
    Moves i m pc r := by
  cases pc with
  | lock => cases hn
  | read =>
    cases hn
    cases hr
    exact .read
  | write value =>
    cases hn
    cases hr
    exact .write value
  | take =>
    cases hn
    cases hr
    exact .take
  | print myPosition =>
    cases hn
    cases hr
    exact .print myPosition
  | unlock => cases hn
  | returned => cases hn

theorem of_mutex {pc pc' : Pc} {mutex : Unit}
    (h : (code n).next i pc = .lock mutex pc' ∨ (code n).next i pc = .unlock mutex pc') :
    (pc = .lock ∧ pc' = .read) ∨ (pc = .unlock ∧ pc' = .returned) := by
  cases pc with
  | lock =>
    rcases h with h | h
    · cases h
      exact .inl ⟨rfl, rfl⟩
    · cases h
  | unlock =>
    rcases h with h | h
    · cases h
    · cases h
      exact .inr ⟨rfl, rfl⟩
  | _ => rcases h with h | h <;> cases h

theorem owns (n : ℕ) : Owns (code n) Pc.held where
  start _ _ := rfl
  lock i pc m pc' h k := by
    obtain ⟨rfl, rfl⟩ | ⟨rfl, rfl⟩ := of_mutex (.inl h)
    · rfl
    · cases h
  unlock i pc m pc' h k := by
    obtain ⟨rfl, rfl⟩ | ⟨rfl, rfl⟩ := of_mutex (.inr h)
    · cases h
    · exact ⟨rfl, rfl⟩
  access i pc run m r h hr k := by
    cases moves_of_access h hr <;> rfl
  critical i pc k h := by
    cases pc with
    | lock => exact absurd rfl h
    | unlock => exact .inl ⟨(), .returned, rfl⟩
    | returned => exact absurd rfl h
    | _ => exact .inr ⟨_, rfl, fun _ => nofun⟩

theorem inside_unique (h : (code n).system.Reachable s) {j : Fin n} (hi : (s.thread i).Inside)
    (hj : (s.thread j).Inside) : i = j :=
  mutual_exclusion (owns n) h (Pc.held_of_inside hi) (Pc.held_of_inside hj)

theorem racing_start (n : ℕ) : Racing (code n).memory (code n).start where
  places := rfl
  nodup := List.nodup_nil
  mem _ := iff_of_false List.not_mem_nil zero_ne_one
  length := (Finset.sum_eq_zero fun _ _ => rfl).symm
  position := (Finset.sum_eq_zero fun _ _ => rfl).symm
  knows _ := trivial

theorem Racing.quiet {m : Shared n} {thread : Fin n → Pc} {pc : Pc} (h : Racing m thread)
    (hreported : pc.reported = (thread i).reported) (hraised : pc.raised = (thread i).raised)
    (hknows : pc.Knows m.position) : Racing m (Function.update thread i pc) where
  places := h.places
  nodup := h.nodup
  mem j := by
    rw [observe_update (fun _ => Pc.reported) hreported j]
    exact h.mem j
  length := by rw [sum_same hreported, h.length]
  position := by rw [sum_same hraised, h.position]
  knows := all_update h.knows hknows

theorem knows_of_alone (h : (code n).system.Reachable s) (hi : (s.thread i).Inside)
    (position : ℕ) {j : Fin n} (hj : j ≠ i) : (s.thread j).Knows position := by
  have houtside : ¬ (s.thread j).Inside := fun hinside => hj (inside_unique h hinside hi)
  generalize s.thread j = pc at houtside
  cases pc with
  | write value => exact absurd ⟨nofun, nofun⟩ houtside
  | print myPosition => exact absurd ⟨nofun, nofun⟩ houtside
  | _ => trivial

theorem position_lt (h : Racing s.memory s.thread) (hi : (s.thread i).raised = 0) :
    s.memory.position < n := by
  calc s.memory.position = ∑ j, (s.thread j).raised := h.position
    _ < ∑ _j : Fin n, 1 := by
        apply Finset.sum_lt_sum
        · exact fun j _ => (s.thread j).raised_le_one
        · exact ⟨i, Finset.mem_univ i, by rw [hi]; exact one_pos⟩
    _ = n := by simp

theorem position_eq (hr : (code n).system.Reachable s) (h : Racing s.memory s.thread)
    {myPosition : ℕ} (hi : s.thread i = .print myPosition) :
    s.memory.position = s.memory.order.length + 1 := by
  have hone : ∑ j, (s.thread j).held () ≤ 1 :=
    (reachable_owners (owns n) hr ()).trans_le (Bool.toNat_le _)
  have hle : ∑ j, (s.thread j).raised ≤
      ∑ j, (s.thread j).reported + ∑ j, (s.thread j).held () := by
    rw [← Finset.sum_add_distrib]
    exact Finset.sum_le_sum fun j _ => (s.thread j).raised_le
  have hlt : ∑ j, (s.thread j).reported < ∑ j, (s.thread j).raised := by
    apply Finset.sum_lt_sum
    · exact fun j _ => (s.thread j).reported_le_raised
    · exact ⟨i, Finset.mem_univ i, by rw [hi]; exact one_pos⟩
  have := h.length
  have := h.position
  omega

theorem Racing.step (hsize : n < 2 ^ 64) (hr : (code n).system.Reachable s)
    (h : Racing s.memory s.thread) {r : Shared n × Pc} (hm : Moves i s.memory (s.thread i) r) :
    Racing r.1 (Function.update s.thread i r.2) := by
  generalize hpc : s.thread i = pc at hm
  cases hm with
  | read =>
    have hlt : s.memory.position < n := position_lt h (by rw [hpc]; rfl)
    apply h.quiet (by rw [hpc]; rfl) (by rw [hpc]; rfl)
    exact Nat.mod_eq_of_lt (by omega)
  | write value =>
    have hvalue : value = s.memory.position + 1 := by
      have := h.knows i
      rwa [hpc] at this
    have hinside : (s.thread i).Inside := by
      rw [hpc]
      exact ⟨nofun, nofun⟩
    refine ⟨h.places, h.nodup, fun j => ?_, ?_, ?_, fun j => ?_⟩
    · rw [observe_update (fun _ => Pc.reported) (by rw [hpc]; rfl) j]
      exact h.mem j
    · rw [sum_same (by rw [hpc]; rfl)]
      exact h.length
    · rw [sum_enter (w := Pc.raised) (by rw [hpc]; rfl) rfl, ← h.position]
      exact hvalue
    · by_cases hj : j = i
      · subst hj
        rw [Function.update_self]
        trivial
      · rw [Function.update_of_ne hj]
        exact knows_of_alone hr hinside value hj
  | take => exact h.quiet (by rw [hpc]; rfl) (by rw [hpc]; rfl) rfl
  | print myPosition =>
    have hposition : myPosition = s.memory.order.length + 1 := by
      have := h.knows i
      rw [hpc] at this
      exact this.trans (position_eq hr h hpc)
    have horder : (Shared.mk s.memory.position (s.memory.output ++ [(i, myPosition)])).order =
        s.memory.order ++ [i] := List.map_append
    have hi : i ∉ s.memory.order := by
      rw [h.mem, hpc]
      exact zero_ne_one
    refine ⟨?_, ?_, fun j => ?_, ?_, ?_, all_update h.knows trivial⟩
    · rw [horder, places_append, ← h.places, hposition]
    · rw [horder]
      exact List.nodup_append.mpr ⟨h.nodup, List.nodup_singleton i,
        fun a ha b hb => by rintro rfl; exact hi (List.mem_singleton.mp hb ▸ ha)⟩
    · rw [horder, List.mem_append, List.mem_singleton]
      by_cases hj : j = i
      · subst hj
        rw [Function.update_self]
        exact iff_of_true (.inr rfl) rfl
      · rw [Function.update_of_ne hj, ← h.mem j]
        exact or_iff_left hj
    · rw [horder, List.length_append,
        sum_enter (w := Pc.reported) (by rw [hpc]; rfl) rfl, ← h.length]
      rfl
    · rw [sum_same (by rw [hpc]; rfl)]
      exact h.position

theorem reachable_racing (hsize : n < 2 ^ 64) (h : (code n).system.Reachable s) :
    Racing s.memory s.thread := by
  apply reachable_invariant (I := Racing) (racing_start n) _ _ h
  · intro s i mutex pc _ hn I
    obtain ⟨hpc, rfl⟩ | ⟨hpc, rfl⟩ := of_mutex hn
    · exact I.quiet (by rw [hpc]; rfl) (by rw [hpc]; rfl) trivial
    · exact I.quiet (by rw [hpc]; rfl) (by rw [hpc]; rfl) trivial
  · intro s i run r hr hn hrun I
    exact I.step hsize hr (moves_of_access hn hrun)

theorem remaining_lt (h : (code n).system.step s i = some t) :
    (t.thread i).remaining < (s.thread i).remaining := by
  rcases step_cases h with ⟨m, pc, hn, -, rfl⟩ | ⟨m, pc, hn, rfl⟩ | ⟨run, r, hn, hr, rfl⟩
  · obtain ⟨hpc, rfl⟩ | ⟨hpc, rfl⟩ := of_mutex (.inl hn)
    · rw [State.lock_thread, Function.update_self, hpc]
      exact Nat.lt_succ_self _
    · rw [hpc] at hn
      cases hn
  · obtain ⟨hpc, rfl⟩ | ⟨hpc, rfl⟩ := of_mutex (.inr hn)
    · rw [hpc] at hn
      cases hn
    · rw [State.unlock_thread, Function.update_self, hpc]
      exact Nat.lt_succ_self _
  · have hm := moves_of_access hn hr
    rw [State.access_thread, Function.update_self]
    generalize s.thread i = pc at hm
    cases hm <;> exact Nat.lt_succ_self _

theorem returned_of_stuck (h : (code n).system.Reachable s) (hs : (code n).system.Stuck s)
    (i : Fin n) : s.thread i = .returned := by
  rcases stuck_cases (owns n) h hs i with hn | ⟨run, hn, hr⟩
  · generalize s.thread i = pc at hn ⊢
    cases pc with
    | returned => rfl
    | _ => cases hn
  · generalize s.thread i = pc at hn
    cases pc <;> cases hn <;> cases hr

theorem stuck_of_returned (h : ∀ i, s.thread i = .returned) : (code n).system.Stuck s := by
  intro i
  simp only [Code.system, code, h i, next]

/-- Thread `i` of the state is at `pc`, with this memory and the mutex free or not. -/
def put (s : Run n) (i : Fin n) (m : Shared n) (locked : Bool) (pc : Pc) : Run n :=
  ⟨m, fun _ => locked, Function.update s.thread i pc⟩

@[simp] theorem put_thread (m : Shared n) (locked : Bool) (pc : Pc) :
    (put s i m locked pc).thread = Function.update s.thread i pc := rfl

theorem put_access {m m' : Shared n} {locked : Bool} {pc pc' : Pc}
    {run : Shared n → Option (Shared n × Pc)} (hn : next i pc = .access run)
    (hr : run m = some (m', pc')) :
    (code n).system.step (put s i m locked pc) i = some (put s i m' locked pc') := by
  have hpc : (code n).next i ((put s i m locked pc).thread i) = .access run := by
    rw [put_thread, Function.update_self]
    exact hn
  rw [step_access hpc hr, State.access, put_thread, Function.update_idem]
  rfl

theorem path_solo (hpc : s.thread i = .lock) (hfree : s.locked () = false) :
    ∃ m : Shared n, m.order = s.memory.order ++ [i] ∧
      (code n).system.Path s (put s i m false .returned) := by
  have hlock : (code n).system.step s i = some (put s i s.memory true .read) := by
    have hlocked : Function.update s.locked () true = fun _ => true := funext fun _ => rfl
    simp only [Code.system, code, hpc, next, hfree, State.lock, hlocked, put]
    rfl
  have hunlock : ∀ m, (code n).system.step (put s i m true .unlock) i =
      some (put s i m false .returned) := by
    intro m
    have hlocked : Function.update (fun _ : Unit => true) () false = fun _ => false :=
      funext fun _ => rfl
    simp only [Code.system, code, put, Function.update_self, next, State.unlock, hlocked,
      Function.update_idem]
  generalize hposition : (s.memory.position + 1) % 2 ^ 64 = k
  have hread : (code n).system.step (put s i s.memory true .read) i =
      some (put s i s.memory true (.write k)) := put_access rfl (hposition ▸ rfl)
  have hwrite : (code n).system.step (put s i s.memory true (.write k)) i =
      some (put s i ⟨k, s.memory.output⟩ true .take) := put_access rfl rfl
  have htake : (code n).system.step (put s i ⟨k, s.memory.output⟩ true .take) i =
      some (put s i ⟨k, s.memory.output⟩ true (.print k)) := put_access rfl rfl
  have hprint : (code n).system.step (put s i ⟨k, s.memory.output⟩ true (.print k)) i =
      some (put s i ⟨k, s.memory.output ++ [(i, k)]⟩ true .unlock) := put_access rfl rfl
  exact ⟨⟨k, s.memory.output ++ [(i, k)]⟩, List.map_append,
    (System.Path.step hlock).tail hread |>.tail hwrite |>.tail htake |>.tail hprint |>.tail
      (hunlock _)⟩

/-- The threads of a list have returned, and the others have not begun. -/
structure After (order : List (Fin n)) (s : Run n) : Prop where
  reachable : (code n).system.Reachable s
  order_eq : s.memory.order = order
  done : ∀ j ∈ order, s.thread j = .returned
  fresh : ∀ j ∉ order, s.thread j = .lock

theorem After.unlocked {order : List (Fin n)} (h : After order s) : s.locked () = false := by
  have hsum := reachable_owners (owns n) h.reachable ()
  rw [Finset.sum_eq_zero] at hsum
  · cases hlocked : s.locked () with
    | false => rfl
    | true =>
      rw [hlocked] at hsum
      cases hsum
  · intro j _
    by_cases hj : j ∈ order
    · rw [h.done j hj]
      rfl
    · rw [h.fresh j hj]
      rfl

theorem exists_after (order : List (Fin n)) (hnodup : order.Nodup) : ∃ s, After order s := by
  induction order using List.reverseRecOn with
  | nil => exact ⟨(code n).system.start, .start, rfl, nofun, fun _ _ => rfl⟩
  | append_singleton order i ih =>
    obtain ⟨hnodup, -, hdisjoint⟩ := List.nodup_append.mp hnodup
    have hi : i ∉ order := fun hmem => hdisjoint i hmem i (List.mem_singleton_self i) rfl
    obtain ⟨s, hs⟩ := ih hnodup
    obtain ⟨m, hm, hpath⟩ := path_solo (hs.fresh i hi) hs.unlocked
    refine ⟨_, hs.reachable.path hpath, by rw [← hs.order_eq]; exact hm, fun j hj => ?_,
      fun j hj => ?_⟩
    · by_cases hji : j = i
      · subst hji
        exact Function.update_self ..
      · rw [put_thread, Function.update_of_ne hji]
        rw [List.mem_append, List.mem_singleton] at hj
        exact hs.done j (hj.resolve_right hji)
    · rw [List.mem_append, List.mem_singleton, not_or] at hj
      rw [put_thread, Function.update_of_ne hj.2]
      exact hs.fresh j hj.1

end Steps

/-- One thread at a time reports, the positions 1, 2, ... in order and no thread twice; all
threads return, and they can arrive in every order. -/
theorem positions_in_order (n : ℕ) (hsize : n < 2 ^ 64) :
    (∀ s, (code n).system.Reachable s →
      (∀ i j, (s.thread i).Inside → (s.thread j).Inside → i = j) ∧
      s.memory.output = places s.memory.order ∧ s.memory.order.Nodup) ∧
    (∀ l s, (code n).system.run l = some s → l.length ≤ 6 * n) ∧
    (∀ s, (code n).system.Reachable s → (code n).system.Stuck s →
      ∀ i, s.thread i = .returned ∧ i ∈ s.memory.order) ∧
    ∀ order : List (Fin n), order.Nodup → (∀ i, i ∈ order) →
      ∃ s, (code n).system.Reachable s ∧ (code n).system.Stuck s ∧
        s.memory.output = places order := by
  refine ⟨fun s hr => ?_, fun l s hrun => ?_, fun s hr hs i => ?_, fun order hnodup hall => ?_⟩
  · have hracing := reachable_racing hsize hr
    exact ⟨fun i j => inside_unique hr, hracing.places, hracing.nodup⟩
  · apply (length_le_of_left Pc.remaining (fun _ _ _ _ => remaining_lt) (fun _ => le_refl 6)
      hrun).trans_eq
    rw [Fintype.card_fin, mul_comm]
  · have hreturned := returned_of_stuck hr hs i
    refine ⟨hreturned, ((reachable_racing hsize hr).mem i).mpr ?_⟩
    rw [hreturned]
    rfl
  · obtain ⟨s, hs⟩ := exists_after order hnodup
    refine ⟨s, hs.reachable, stuck_of_returned fun i => hs.done i (hall i), ?_⟩
    rw [(reachable_racing hsize hs.reachable).places, hs.order_eq]

theorem positions_in_order_two : ∃ s, (code 2).system.Reachable s ∧ (code 2).system.Stuck s ∧
    s.memory.output = [(1, 1), (0, 2)] :=
  (positions_in_order 2 (by decide)).2.2.2 [1, 0] (by decide) (by decide)

end Concurrente.PositionRace
