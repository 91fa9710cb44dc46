import Concurrente.MistCondVar.Mistery

/-!
# When a call of mistery returns

The counter is safe in every run.  A call returns too early exactly when its thread wakes up
spuriously and gets the mutex before its generation is complete.
-/

namespace Concurrente.MistCondVar

open Monitor

variable {ι : Type*} [DecidableEq ι] {max : ℕ} {s t : Run ι} {a : Action ι} {i : ι}

theorem invariant_start (hmax : 1 ≤ max) : Invariant max (code ι max).system.start where
  free _ := hmax
  knows _ _ := trivial
  waits _ h := absurd rfl h
  counted := ⟨fun _ h => absurd h (Nat.not_lt_zero _), rfl, fun _ _ => rfl⟩
  called _ _ h := h.elim

theorem reachable_invariant (hmax : 1 ≤ max) (hmax' : max < 2 ^ 32)
    (h : (code ι max).system.Reachable s) : Invariant max s := by
  apply System.Reachable.invariant' (I := Invariant max) (invariant_start hmax) _ h
  intro s a t hr I ht
  exact I.step (reachable_exclusive (guarded ι max) hr) hmax hmax' (effect_of_step ht)

theorem generation_mono (h : Effect (code ι max) s a t) :
    s.memory.generation ≤ t.memory.generation := by
  cases h with
  | access i run running hnext =>
    obtain ⟨-, rfl⟩ | ⟨g, -, rfl⟩ | ⟨g, -, rfl⟩ := access_cases hnext
    · exact le_rfl
    · exact le_rfl
    · exact Nat.le_succ _
  | _ => exact le_rfl

/-- A thread that is about to return, or has returned, is of a past generation. -/
def Done (generation : ℕ) (status : Status) : Pc → Prop
  | .unlock g => status = .running → g < generation
  | .returned g => g < generation
  | _ => True

theorem Done.mono {generation generation' : ℕ} {status status' : Status} {pc : Pc}
    (h : Done generation status pc) (hle : generation ≤ generation')
    (hs : status' = .running → status = .running) : Done generation' status' pc := by
  cases pc with
  | unlock g => exact fun hr => (h (hs hr)).trans_le hle
  | returned g => exact Nat.lt_of_lt_of_le h hle
  | _ => trivial

def AllDone (s : Run ι) : Prop := ∀ i, Done s.memory.generation (s.status i) (s.thread i)

omit [DecidableEq ι] in
theorem AllDone.returnsFull (D : AllDone s) (I : Invariant max s) : ReturnsFull max s := by
  intro i g hi
  have hd := D i
  rw [hi] at hd
  exact I.counted.past g hd

theorem AllDone.move {pc : Pc} (D : AllDone s)
    (hthread : t.thread = Function.update s.thread i pc)
    (hle : s.memory.generation ≤ t.memory.generation)
    (hstatus : ∀ j ≠ i, t.status j = .running → s.status j = .running)
    (hi : Done t.memory.generation (t.status i) pc) : AllDone t := by
  intro j
  rw [hthread]
  by_cases hji : j = i
  · subst hji
    rw [Function.update_self]
    exact hi
  · rw [Function.update_of_ne hji]
    exact (D j).mono hle (hstatus j hji)

theorem AllDone.step (D : AllDone s) (I : Invariant max s) (hearly : ¬ Early s a)
    (h : Effect (code ι max) s a t) : AllDone t := by
  have hle := generation_mono h
  cases h with
  | lock i next running hnext free =>
    obtain ⟨-, rfl⟩ := lock_cases hnext
    exact D.move (i := i) rfl hle (fun _ _ => id) trivial
  | unlock i next running hnext =>
    obtain ⟨g, hpc, rfl⟩ := unlock_cases hnext
    have hd := D i
    rw [hpc] at hd
    exact D.move (i := i) rfl hle (fun _ _ => id) (hd running)
  | wait i next running hnext =>
    obtain ⟨g, hpc, rfl⟩ := wait_cases hnext
    refine D.move (t := s.wait i (.unlock g)) (i := i) rfl hle (fun j hji hj => ?_) fun hr => ?_
    · rwa [State.wait_status, Function.update_of_ne hji] at hj
    · rw [State.wait_status, Function.update_self] at hr
      cases hr
  | broadcast i next running hnext =>
    obtain ⟨g, hpc, rfl⟩ := broadcast_cases hnext
    have hk := I.knows_at running hpc
    refine D.move (t := s.broadcast i (.unlock g)) (i := i) rfl hle
      (fun j _ hj => Status.called_eq_running hj) fun _ => ?_
    exact Nat.lt_of_succ_le hk.1.le
  | access i run running hnext =>
    refine D.move (t := s.access i (run s.memory)) (i := i) rfl hle (fun _ _ => id) ?_
    obtain ⟨-, rfl⟩ | ⟨g, -, rfl⟩ | ⟨g, -, rfl⟩ := access_cases hnext
    · trivial
    · simp only [Mist.test]
      split_ifs <;> trivial
    · trivial
  | relock i woken free =>
    obtain ⟨g, hg⟩ := I.waits i (by rw [woken]; decide)
    have hcalled := (I.called i g (by rw [hg]; rfl)).1
    have hne : g ≠ s.memory.generation := by
      rintro rfl
      exact hearly ⟨woken, hg⟩
    refine D.move (t := s.relock i) (i := i) (Function.update_eq_self i s.thread).symm hle
      (fun j hji hj => ?_) ?_
    · rwa [State.relock_status, Function.update_of_ne hji] at hj
    · rw [hg]
      exact fun _ => lt_of_le_of_ne hcalled hne
  | wake i waiting =>
    obtain ⟨g, hg⟩ := I.waits i (by rw [waiting]; decide)
    refine D.move (t := s.wake i) (i := i) (Function.update_eq_self i s.thread).symm hle
      (fun j hji hj => ?_) ?_
    · rwa [State.wake_status, Function.update_of_ne hji] at hj
    · rw [hg, State.wake_status, Function.update_self]
      exact fun hr => by cases hr

theorem allDone_of_not_early (hmax : 1 ≤ max) (hmax' : max < 2 ^ 32)
    (h : (code ι max).system.ReachableBy (fun s a => ¬ Early s a) s) : AllDone s := by
  apply System.ReachableBy.invariant (I := AllDone) _ _ h
  · exact fun _ => trivial
  · intro s a t hr D hearly ht
    exact D.step (reachable_invariant hmax hmax' hr) hearly (effect_of_step ht)

/-- The threads that have been woken are of past generations. -/
def Called (s : Run ι) : Prop :=
  ∀ i g, s.status i = .woken → s.thread i = .unlock g → g < s.memory.generation

theorem Called.step (C : Called s) (I : Invariant max s) (ha : ¬ Spurious a)
    (h : Effect (code ι max) s a t) : Called t := by
  have hle := generation_mono h
  have hother : ∀ {i j : ι} {pc : Pc} {g}, j ≠ i → s.status j = .woken →
      Function.update s.thread i pc j = .unlock g → g < t.memory.generation := by
    intro i j pc g hji hj hg
    rw [Function.update_of_ne hji] at hg
    exact (C j g hj hg).trans_le hle
  have hne : ∀ {i j : ι}, s.status i = .running → s.status j = .woken → j ≠ i := by
    rintro i j hi hj rfl
    cases hi.symm.trans hj
  cases h with
  | lock i next running hnext free => exact fun j g hj hg => hother (hne running hj) hj hg
  | unlock i next running hnext => exact fun j g hj hg => hother (hne running hj) hj hg
  | wait i next running hnext =>
    intro j g hj hg
    rw [State.wait_status] at hj
    by_cases hji : j = i
    · rw [hji, Function.update_self] at hj
      cases hj
    · rw [Function.update_of_ne hji] at hj
      exact hother hji hj hg
  | broadcast i next running hnext =>
    obtain ⟨g, hpc, rfl⟩ := broadcast_cases hnext
    have hk := I.knows_at running hpc
    intro j g' hj hg
    rw [State.broadcast_status] at hj
    cases hs : s.status j with
    | running =>
      rw [hs] at hj
      cases hj
    | woken => exact hother (hne running hs) hs hg
    | waiting =>
      have hji : j ≠ i := by
        rintro rfl
        cases running.symm.trans hs
      rw [State.broadcast_thread, Function.update_of_ne hji] at hg
      obtain ⟨hle', hpos⟩ := I.called j g' (by rw [hg]; rfl)
      have hne' : g' ≠ s.memory.generation := by
        rintro rfl
        have hcurrent := I.counted.current
        have hzero := hk.2
        omega
      exact lt_of_le_of_ne hle' hne'
  | access i run running hnext => exact fun j g hj hg => hother (hne running hj) hj hg
  | relock i woken free =>
    intro j g hj hg
    rw [State.relock_status] at hj
    by_cases hji : j = i
    · rw [hji, Function.update_self] at hj
      cases hj
    · rw [Function.update_of_ne hji] at hj
      exact C j g hj hg
  | wake i waiting => exact absurd trivial ha

theorem not_early_of_quiet (hmax : 1 ≤ max) (hmax' : max < 2 ^ 32)
    (h : (code ι max).system.ReachableBy (fun _ a => ¬ Spurious a) s) :
    (code ι max).system.ReachableBy (fun s a => ¬ Early s a) s := by
  have hboth : Called s ∧ (code ι max).system.ReachableBy (fun s a => ¬ Early s a) s := by
    apply System.ReachableBy.invariant (I := fun s => Called s ∧
      (code ι max).system.ReachableBy (fun s a => ¬ Early s a) s) _ _ h
    · exact ⟨fun i g hi => (by cases hi), Relation.ReflTransGen.refl⟩
    · intro s a t hr ⟨C, hby⟩ ha ht
      have hearly : ¬ Early s a := by
        intro hearly
        cases a with
        | move i => exact absurd (C i _ hearly.1 hearly.2) (lt_irrefl _)
        | wake i => exact hearly
      exact ⟨C.step (reachable_invariant hmax hmax' hr) ha (effect_of_step ht),
        Relation.ReflTransGen.tail hby ⟨a, hearly, ht⟩⟩
  exact hboth.2

theorem early_returns (hmax : 1 ≤ max) (hmax' : max < 2 ^ 32)
    (hr : (code ι max).system.Reachable s) (hearly : Early s a)
    (ht : (code ι max).system.step s a = some t) :
    ∃ r, (code ι max).system.Path t r ∧ ¬ ReturnsFull max r := by
  have I := reachable_invariant hmax hmax' hr
  cases a with
  | wake i => exact hearly.elim
  | move i =>
    obtain ⟨hwoken, hpc⟩ := hearly
    cases effect_of_step ht with
    | relock i woken free =>
      have hstep : (code ι max).system.step (s.relock i) (.move i) =
          some ((s.relock i).unlock i (.returned s.memory.generation)) := by
        simp only [Code.system, State.relock_status, Function.update_self, Code.move, code,
          State.relock_thread, hpc, mistery]
      refine ⟨_, System.Path.step hstep, fun hfull => ?_⟩
      have hmade := hfull i s.memory.generation (Function.update_self ..)
      have hlt := I.free free
      have hcurrent := I.counted.current
      simp only [State.unlock_memory, State.relock_memory] at hmade
      omega
    | _ => simp_all

/-- The counter is below `max` whenever the mutex is free.  The calls return after `max` calls of
their generation in the runs in which no thread is early, in particular in those without spurious
wake-ups; a thread that is early breaks the barrier with its next step. -/
theorem mistery_returns (ι : Type*) [DecidableEq ι] (max : ℕ) (hmax : 1 ≤ max)
    (hmax' : max < 2 ^ 32) :
    (∀ s, (code ι max).system.Reachable s → CounterBelow max s) ∧
      (∀ s, (code ι max).system.ReachableBy (fun s a => ¬ Early s a) s → ReturnsFull max s) ∧
      (∀ s, (code ι max).system.ReachableBy (fun _ a => ¬ Spurious a) s → ReturnsFull max s) ∧
      ∀ s a t, (code ι max).system.Reachable s → Early s a →
        (code ι max).system.step s a = some t →
        ∃ r, (code ι max).system.Path t r ∧ ¬ ReturnsFull max r := by
  have hfull : ∀ s, (code ι max).system.ReachableBy (fun s a => ¬ Early s a) s →
      ReturnsFull max s := fun s h =>
    (allDone_of_not_early hmax hmax' h).returnsFull (reachable_invariant hmax hmax' h.reachable)
  refine ⟨fun s h => (reachable_invariant hmax hmax' h).free, hfull, fun s h => ?_,
    fun s a t => early_returns hmax hmax'⟩
  exact hfull s (not_early_of_quiet hmax hmax' h)

/-- Two threads wait, the third one wakes them up, and all return. -/
def teamRun : List (Action (Fin 3)) :=
  [.move 0, .move 0, .move 0, .move 0, .move 1, .move 1, .move 1, .move 1,
    .move 2, .move 2, .move 2, .move 2, .move 2, .move 2, .move 0, .move 0, .move 1, .move 1]

/-- The team of `main`. -/
theorem mistery_returns_three : ∃ s, (code (Fin 3) 3).system.run teamRun = some s ∧
    (∀ i, s.thread i = .returned 0) ∧ ReturnsFull 3 s := by
  obtain ⟨s, hs, hthread⟩ : ∃ s, (code (Fin 3) 3).system.run teamRun = some s ∧
      ∀ i, s.thread i = .returned 0 := by
    refine ⟨_, rfl, fun i => ?_⟩
    fin_cases i <;> rfl
  refine ⟨s, hs, hthread, (mistery_returns (Fin 3) 3 (by decide) (by decide)).2.2.1 s ?_⟩
  apply System.reachableBy_run _ hs
  simp [teamRun, Spurious]

/-- A single thread counts its call, waits, wakes up and returns. -/
def spuriousRun : List (Action Unit) :=
  [.move (), .move (), .move (), .move (), .wake (), .move (), .move ()]

/-- One call of two returns. -/
theorem not_returns_spurious :
    ¬ ∀ s, (code Unit 2).system.Reachable s → CounterBelow 2 s ∧ ReturnsFull 2 s := by
  obtain ⟨s, hs⟩ : ∃ s, (code Unit 2).system.run spuriousRun = some s := ⟨_, rfl⟩
  have hr := System.reachable_run hs
  cases hs
  intro h
  exact absurd ((h _ hr).2 () 0 rfl) (by decide)

end Concurrente.MistCondVar
