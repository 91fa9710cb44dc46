import Concurrente.Heat.Optimized.Team
import Concurrente.Iteration

/-!
# When a thread of pthread_optimized cannot be created

`create_threads` joins the threads that it has started.  They meet at barriers that
count the whole team, so that none of them gets past its first wait.
-/

namespace Concurrente.Heat.Optimized

open Flat

/-- `ERR_CREATE_THREAD`. -/
def errCreateThread : ℕ := 33

/-- Where the main thread is in `create_threads` or `join_threads`; the error is what
`equilibrate_plate` is to return. -/
inductive Main
  | create (index : ℕ)
  | join (index count error : ℕ)
  | returned (error : ℕ)
  deriving DecidableEq

/-- The team with the main thread; the threads below `started` have been created. -/
structure Creation (α : Type*) where
  team : State α
  main : Main
  started : ℕ

/-- A step of the main thread or of a thread of the team. -/
inductive Mover
  | main
  | thread (action : Action)

variable {α : Type*} [Temperature α]

/-- The next step of the main thread, when `pthread_create` fails at the index `failing`. -/
def mainStep (team : Team α) (failing : ℕ) (s : Creation α) : Option (Creation α) :=
  match s.main with
  | .create index =>
    if index < team.threadCount then
      if index = failing then some { s with main := .join 0 index errCreateThread }
      else some { s with main := .create (index + 1), started := index + 1 }
    else some { s with main := .join 0 team.threadCount 0 }
  | .join index count error =>
    if index < count then
      if (s.team.thread index).pc = .finished then
        some { s with main := .join (index + 1) count error }
      else none
    else some { s with main := .returned error }
  | .returned _ => none

/-- `equilibrate_plate` from the first call of `pthread_create` on. -/
def creation (team : Team α) (p : PlateMatrix α) (failing : ℕ) : System (Creation α) Mover where
  start := ⟨start p, .create 0, 0⟩
  step s a :=
    match a with
    | .main => mainStep team failing s
    | .thread a =>
      if a.thread < s.started ∧ a.serial < team.threadCount then
        (equilibratePlateConcurrent team s.team a.thread a.serial).map
          fun t => { s with team := t }
      else none

/-- The main thread has returned from `equilibrate_plate`. -/
def Returned (s : Creation α) : Prop := ∃ error, s.main = .returned error

/-- All started threads have returned, and `equilibrate_plate` returns the error. -/
def Failed (failing : ℕ) (s : Creation α) : Prop :=
  s.main = .returned errCreateThread ∧ ∀ i < failing, (s.team.thread i).pc = .finished

/-- The thread has not passed its first wait. -/
def Pc.Early : Pc → Prop
  | .reset | .row _ | .merge => True
  | .arrive site => site = .afterRows
  | .wait site ticket => site = .afterRows ∧ ticket = 0
  | _ => False

def Pc.waits : Pc → ℕ
  | .wait _ _ => 1
  | _ => 0

structure Partial (team : Team α) (failing : ℕ) (s : Creation α) : Prop where
  main : s.main = .create s.started ∨ s.started = failing ∧ s.main = .join 0 failing errCreateThread
  started_le : s.started ≤ failing
  early : ∀ i, (s.team.thread i).pc.Early
  idle : ∀ i, s.started ≤ i → (s.team.thread i).pc = .reset
  generation : (s.team.barrier false).generation = 0
  arrived : (s.team.barrier false).arrived =
    ∑ i ∈ Finset.range failing, (s.team.thread i).pc.waits

section Steps

variable {team : Team α} {p : PlateMatrix α} {failing i serial : ℕ} {s t : Creation α}

omit [Temperature α] in
theorem Partial.move (I : Partial team failing s) {r : State α} {th : Thread}
    (ht : r.thread = Function.update s.team.thread i th) (hb : r.barrier = s.team.barrier)
    (hi : i < s.started) (hearly : th.pc.Early)
    (hwaits : th.pc.waits = (s.team.thread i).pc.waits) :
    Partial team failing { s with team := r } where
  main := I.main
  started_le := I.started_le
  early j := by
    rw [ht]
    exact all_update (P := fun th : Thread => th.pc.Early) I.early hearly j
  idle j hj := by
    rw [ht, Function.update_of_ne (Nat.ne_of_gt (Nat.lt_of_lt_of_le hi hj))]
    exact I.idle j hj
  generation := by
    rw [hb]
    exact I.generation
  arrived := by
    rw [hb, ht, I.arrived]
    apply Finset.sum_congr rfl
    intro j _
    exact (observe_update (fun _ (th : Thread) => th.pc.waits) hwaits j).symm

omit [Temperature α] in
theorem Partial.arrive (I : Partial team failing s) (hf : failing < team.threadCount)
    (hi : i < s.started) (hpc : (s.team.thread i).pc = .arrive .afterRows) {th : Thread}
    (hth : th.pc = .wait .afterRows (s.team.barrier false).generation) :
    Partial team failing { s with team := { s.team.setThread i th with
      barrier := Function.update s.team.barrier false
        ((s.team.barrier false).arrive team.threadCount serial) } } := by
  have hmem : i ∈ Finset.range failing :=
    Finset.mem_range.mpr (Nat.lt_of_lt_of_le hi I.started_le)
  have hsum := sum_update hmem s.team.thread (fun _ (th : Thread) => th.pc.waits) th
  -- only the threads that were started can arrive, and they are too few
  have hle : ∑ j ∈ Finset.range failing, (Function.update s.team.thread i th j).pc.waits ≤
      ∑ j ∈ Finset.range failing, 1 := by
    apply Finset.sum_le_sum
    intro j _
    cases (Function.update s.team.thread i th j).pc <;> simp [Pc.waits]
  rw [Finset.sum_const, Finset.card_range, smul_eq_mul, Nat.mul_one] at hle
  have hold : (s.team.thread i).pc.waits = 0 := by rw [hpc]; rfl
  have hnew : th.pc.waits = 1 := by rw [hth]; rfl
  rw [hold, hnew] at hsum
  have hlast : (s.team.barrier false).arrived + 1 ≠ team.threadCount := by
    have := I.arrived
    omega
  rw [Barrier.arrive, if_neg hlast]
  refine ⟨I.main, I.started_le, ?_, ?_, ?_, ?_⟩
  · intro j
    refine all_update (P := fun th : Thread => th.pc.Early) I.early ?_ j
    rw [hth]
    exact ⟨rfl, I.generation⟩
  · intro j hj
    rw [← I.idle j hj]
    exact congrArg Thread.pc
      (Function.update_of_ne (Nat.ne_of_gt (Nat.lt_of_lt_of_le hi hj)) _ _)
  · simp only [Function.update_self]
    exact I.generation
  · simp only [Function.update_self]
    have := I.arrived
    exact (congrArg (· + 1) this).trans hsum.symm

theorem Partial.thread (I : Partial team failing s) (hf : failing < team.threadCount)
    (hi : i < s.started) {r : State α}
    (h : equilibratePlateConcurrent team s.team i serial = some r) :
    Partial team failing { s with team := r } := by
  have hearly := I.early i
  unfold equilibratePlateConcurrent at h
  dsimp only at h
  cases hpc : (s.team.thread i).pc with
  | reset =>
    rw [hpc] at h
    cases h
    exact I.move rfl rfl hi trivial (by rw [hpc]; rfl)
  | row row =>
    rw [hpc] at h
    dsimp only at h
    split at h <;> cases h
    · exact I.move rfl rfl hi trivial (by rw [hpc]; rfl)
    · exact I.move rfl rfl hi trivial (by rw [hpc]; rfl)
  | merge =>
    rw [hpc] at h
    cases h
    exact I.move rfl rfl hi rfl (by rw [hpc]; rfl)
  | arrive site =>
    rw [hpc] at h hearly
    have hsite : site = .afterRows := hearly
    subst hsite
    cases h
    exact I.arrive hf hi hpc rfl
  | wait site ticket =>
    rw [hpc] at h hearly
    obtain ⟨hsite, hticket⟩ : site = .afterRows ∧ ticket = 0 := hearly
    subst hsite hticket
    have hgeneration : (s.team.barrier Site.afterRows.second).generation = 0 := I.generation
    dsimp only at h
    rw [if_neg (not_not.mpr hgeneration)] at h
    cases h
  | _ =>
    rw [hpc] at hearly
    exact hearly.elim

omit [Temperature α] in
theorem Partial.mainStep (I : Partial team failing s) (hpos : 1 ≤ failing)
    (hf : failing < team.threadCount) (h : mainStep team failing s = some t) :
    Partial team failing t := by
  unfold Optimized.mainStep at h
  rcases I.main with hm | ⟨hstarted, hm⟩ <;> rw [hm] at h <;> dsimp only at h
  · rw [if_pos (Nat.lt_of_le_of_lt I.started_le hf)] at h
    split at h <;> cases h
    · rename_i hfail
      exact ⟨.inr ⟨hfail, by rw [hfail]⟩, I.started_le, I.early, I.idle, I.generation, I.arrived⟩
    · rename_i hne
      refine ⟨.inl rfl, Nat.lt_of_le_of_ne I.started_le hne, I.early, fun j hj => ?_,
        I.generation, I.arrived⟩
      exact I.idle j (Nat.le_of_succ_le hj)
  · rw [if_pos (Nat.lt_of_lt_of_le Nat.zero_lt_one hpos)] at h
    split at h
    · rename_i hfin
      have hearly := I.early 0
      rw [hfin] at hearly
      exact hearly.elim
    · cases h

theorem reachable_progress (hpos : 1 ≤ failing) (hf : failing < team.threadCount)
    (h : (creation team p failing).Reachable s) : Partial team failing s := by
  apply System.Reachable.invariant (I := Partial team failing) _ _ h
  · refine ⟨.inl rfl, Nat.zero_le _, fun _ => trivial, fun _ _ => rfl, rfl, ?_⟩
    exact (Finset.sum_eq_zero fun _ _ => rfl).symm
  · rintro s (- | a) t I ht
    · exact I.mainStep hpos hf ht
    · simp only [creation] at ht
      split at ht
      · rename_i ha
        obtain ⟨r, hr, rfl⟩ := Option.map_eq_some_iff.mp ht
        exact I.thread hf ha.1 hr
      · cases ht

end Steps

section Failed

variable {team : Team α} {p : PlateMatrix α} {s t : Creation α}

structure Alone (s : Creation α) : Prop where
  started : s.started = 0
  main : s.main = .create 0 ∨ s.main = .join 0 0 errCreateThread ∨
    s.main = .returned errCreateThread

/-- The steps that are left to the main thread. -/
def Main.left : Main → ℕ
  | create _ => 2
  | join _ _ _ => 1
  | returned _ => 0

theorem Alone.step (I : Alone s) (hn : 0 < team.threadCount) {a : Mover}
    (h : (creation team p 0).step s a = some t) : Alone t ∧ t.main.left < s.main.left := by
  cases a with
  | main =>
    simp only [creation, mainStep] at h
    rcases I.main with hm | hm | hm <;> rw [hm] at h ⊢ <;> dsimp only at h
    · rw [if_pos hn, if_pos rfl] at h
      cases h
      exact ⟨⟨I.started, .inr (.inl rfl)⟩, Nat.lt_succ_self 1⟩
    · rw [if_neg (lt_irrefl 0)] at h
      cases h
      exact ⟨⟨I.started, .inr (.inr rfl)⟩, Nat.zero_lt_one⟩
    · cases h
  | thread a =>
    simp only [creation, I.started] at h
    rw [if_neg fun ha => absurd ha.1 (Nat.not_lt_zero _)] at h
    cases h

theorem reachable_alone (hn : 0 < team.threadCount) (h : (creation team p 0).Reachable s) :
    Alone s :=
  System.Reachable.invariant ⟨rfl, .inl rfl⟩ (fun _ _ _ I ht => (I.step hn ht).1) h

theorem finishes_alone (hn : 0 < team.threadCount) :
    (creation team p 0).Finishes Returned (Failed 0) := by
  refine ⟨⟨fun s => s.main.left, fun s a t hs ht => ((reachable_alone hn hs).step hn ht).2⟩,
    fun s hs => ⟨fun hst => ?_, fun ⟨error, he⟩ => ?_⟩⟩
  · have hmain := hst .main
    simp only [creation, mainStep] at hmain
    rcases (reachable_alone hn hs).main with hm | hm | hm
    · simp [hm, hn] at hmain
    · simp [hm] at hmain
    · exact ⟨_, hm⟩
  · refine ⟨?_, fun i hi => absurd hi (Nat.not_lt_zero i)⟩
    rcases (reachable_alone hn hs).main with hm | hm | hm
    · rw [hm] at he
      cases he
    · rw [hm] at he
      cases he
    · exact hm

end Failed

/-- When `pthread_create` fails at an index of the team, all started threads and
`equilibrate_plate` return, whatever the scheduler does, exactly when no thread was started. -/
theorem creation_finishes_iff (team : Team α) (p : PlateMatrix α) (failing : ℕ)
    (hf : failing < team.threadCount) :
    (creation team p failing).Finishes Returned (Failed failing) ↔ failing = 0 := by
  constructor
  · rintro ⟨hterm, hresult⟩
    by_contra hne
    obtain ⟨s, hs, hst⟩ := hterm.exists_stuck
    obtain ⟨error, he⟩ := (hresult s hs).1 hst
    rcases (reachable_progress (Nat.pos_of_ne_zero hne) hf hs).main with hm | ⟨-, hm⟩
    · rw [hm] at he
      cases he
    · rw [hm] at he
      cases he
  · rintro rfl
    exact finishes_alone hf

/-- A team of two for a column of four cells. -/
def pair : Team ℚ := ⟨2, 1, 1, fun i => i + 1, fun i => i + 2⟩

theorem creation_finishes_iff_pair :
    (creation pair (setPlateMatrix 4 1 [1, 2, 3, 4]) 0).Finishes Returned (Failed 0) :=
  (creation_finishes_iff pair _ 0 (by decide)).mpr rfl

/-- The second thread is not created; the first one waits for it and is waited for. -/
def loneRun : List Mover :=
  [.main, .main] ++ List.replicate 5 (.thread ⟨0, 0⟩)

theorem loneRun_deadlock :
    ∃ s, (creation pair (setPlateMatrix 4 1 [1, 2, 3, 4]) 1).run loneRun = some s ∧
      (creation pair (setPlateMatrix 4 1 [1, 2, 3, 4]) 1).Stuck s ∧
      s.main = .join 0 1 errCreateThread ∧ (s.team.thread 0).pc = .wait .afterRows 0 := by
  obtain ⟨s, hs⟩ : ∃ s, (creation pair (setPlateMatrix 4 1 [1, 2, 3, 4]) 1).run loneRun = some s :=
    ⟨_, rfl⟩
  refine ⟨s, hs, ?_⟩
  cases hs
  refine ⟨?_, rfl, rfl⟩
  rintro (- | ⟨i, serial⟩)
  · rfl
  · simp only [creation]
    split
    · rename_i hi
      obtain rfl : i = 0 := Nat.lt_one_iff.mp hi.1
      rfl
    · rfl

end Concurrente.Heat.Optimized
