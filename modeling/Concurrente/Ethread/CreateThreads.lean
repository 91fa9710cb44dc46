import Mathlib.Logic.Function.Basic
import Mathlib.Tactic

/-!
# The threads of a team

`add_thread` counts a thread before it creates it, and `join_threads` joins as many threads as
were counted.  `add_threads` and `create_threads` both join the team when a creation fails.
-/

namespace Concurrente.Ethread

variable {δ : Type*}

def exitSuccess : ℤ := 0

def enospc : ℤ := 28

/-- `thread_data`, whether its thread was started, and how often it was joined. -/
structure ThreadData (δ : Type*) where
  threadNumber : ℕ
  data : Option δ
  started : Bool
  joins : ℕ

/-- `thread_team`, and how often it was released.  `undefined` records the use of a released team,
of a record outside of its array, and a join of a thread that does not run; the code goes on with
what was in memory. -/
structure ThreadTeam (δ : Type*) where
  threadCapacity : ℕ
  threadCount : ℕ
  threads : ℕ → ThreadData δ
  releases : ℕ
  undefined : Bool

/-- Whether the system has memory for the team and for its records, and what `pthread_create` and
`pthread_join` return for each record. -/
structure Environment where
  teamFits : Bool
  threadsFit : Bool
  create : ℕ → ℤ
  join : ℕ → ℤ

namespace ThreadTeam

/-- The team is used: it should not be released. -/
def use (team : ThreadTeam δ) : ThreadTeam δ :=
  { team with undefined := team.undefined || decide (team.releases ≠ 0) }

/-- The record is used: it should be in the array. -/
def useThread (team : ThreadTeam δ) (index : ℕ) : ThreadTeam δ :=
  { team.use with undefined := team.use.undefined || decide (team.threadCapacity ≤ index) }

/-- `free(team->threads); free(team)`. -/
def free (team : ThreadTeam δ) : ThreadTeam δ :=
  { team.use with releases := team.releases + 1 }

end ThreadTeam

def reserveThreads (env : Environment) (capacity : ℕ) (data : Option δ) : Option (ThreadTeam δ) :=
  if env.teamFits then
    if env.threadsFit then some ⟨capacity, 0, fun number => ⟨number, data, false, 0⟩, 0, false⟩
    else none
  else none

def createTeamThread (env : Environment) (thread : ThreadData δ) (data : Option δ) :
    ℤ × ThreadData δ :=
  -- the data of the team stay unless the call brings others
  let thread := if data.isSome then { thread with data := data } else thread
  let error := env.create thread.threadNumber
  (error, { thread with started := decide (error = exitSuccess) })

def addThread (env : Environment) (team : ThreadTeam δ) : ℤ × ThreadTeam δ :=
  let team := team.use
  if team.threadCount < team.threadCapacity then
    -- `thread_count++` in the index: the thread counts before `pthread_create` is called
    let index := team.threadCount
    let team := ({ team with threadCount := index + 1 } : ThreadTeam δ).useThread index
    let created := createTeamThread env (team.threads index) none
    (created.1, { team with threads := Function.update team.threads index created.2 })
  else (enospc, team)

/-- The record is joined: its thread should be started and not joined before. -/
def joinTeamThread (env : Environment) (team : ThreadTeam δ) (index : ℕ) : ℤ × ThreadTeam δ :=
  let team := team.useThread index
  let thread := team.threads index
  (env.join index,
    { team with
      threads := Function.update team.threads index { thread with joins := thread.joins + 1 }
      undefined := team.undefined || !thread.started || decide (thread.joins ≠ 0) })

/-- One round of the loop of `join_threads`. -/
def joinStep (env : Environment) (state : ℤ × ThreadTeam δ) (index : ℕ) : ℤ × ThreadTeam δ :=
  let joined := joinTeamThread env state.2 index
  -- the first error is returned, but all threads are joined
  (if state.1 = exitSuccess then joined.1 else state.1, joined.2)

def joinThreads (env : Environment) (team : ThreadTeam δ) : ℤ × ThreadTeam δ :=
  let team := team.use
  let joined := (List.range team.threadCount).foldl (joinStep env) (exitSuccess, team)
  (joined.1, joined.2.free)

/-- The loop of `add_threads`. -/
def addLoop (env : Environment) : ℕ → ThreadTeam δ → ℤ × ThreadTeam δ
  | 0, team => (exitSuccess, team)
  | count + 1, team =>
    let added := addThread env team
    -- the team is released here, and the caller releases it again
    if added.1 ≠ 0 then (added.1, (joinThreads env added.2).2) else addLoop env count added.2

def addThreads (env : Environment) (team : ThreadTeam δ) (count : ℕ) : ℤ × ThreadTeam δ :=
  let team := team.use
  -- the sum of two `size_t` wraps around
  if (team.threadCount + count) % 2 ^ 64 ≤ team.threadCapacity then addLoop env count team
  else (enospc, team)

/-- What a call leaves in memory and what it returns; no team is NULL. -/
structure Created (δ : Type*) where
  memory : Option (ThreadTeam δ)
  returned : Option (ThreadTeam δ)

def createThreads (env : Environment) (threadCount : ℕ) (data : Option δ) : Created δ :=
  match reserveThreads env threadCount data with
  | none => ⟨none, none⟩
  | some team =>
    let added := addThreads env team threadCount
    -- `add_threads` has released the team when it returns an error of a creation
    if added.1 ≠ 0 then ⟨some (joinThreads env added.2).2, none⟩
    else ⟨some added.2, some added.2⟩

/-- The first threads of the team were started and joined, each once, and the team was released
once. -/
structure ThreadTeam.Joined (team : ThreadTeam δ) (count : ℕ) : Prop where
  defined : team.undefined = false
  started : ∀ k, (team.threads k).started = decide (k < count)
  joins : ∀ k, (team.threads k).joins = if k < count then 1 else 0
  released : team.releases = 1

/-- `pthread_create` fails first for this record. -/
def Environment.FailsAt (env : Environment) (i : ℕ) : Prop :=
  env.create i ≠ 0 ∧ ∀ j < i, env.create j = 0

/-- A failed creation joins the started threads and releases the team; a team that is complete is
returned and can be joined. -/
def Handles (env : Environment) (threadCount : ℕ) (data : Option δ) : Prop :=
  ∀ team, (createThreads env threadCount data).memory = some team →
    (∀ i < threadCount, env.FailsAt i →
      team.Joined i ∧ (createThreads env threadCount data).returned = none) ∧
    ((∀ i < threadCount, env.create i = 0) →
      (createThreads env threadCount data).returned = some team ∧ team.undefined = false ∧
        (joinThreads env team).2.Joined threadCount)

structure ThreadTeam.Running (team : ThreadTeam δ) (capacity count : ℕ) : Prop where
  capacity : team.threadCapacity = capacity
  counted : team.threadCount = count
  number : ∀ k, (team.threads k).threadNumber = k
  started : ∀ k, (team.threads k).started = decide (k < count)
  joins : ∀ k, (team.threads k).joins = 0
  live : team.releases = 0
  defined : team.undefined = false

section Add

variable {env : Environment} {team : ThreadTeam δ} {capacity count : ℕ}

theorem use_eq (h : team.releases = 0) : team.use = team := by
  simp only [ThreadTeam.use, h, ne_eq, not_true_eq_false, decide_false, Bool.or_false]
  rw [← h]

theorem useThread_eq {team : ThreadTeam δ} {index : ℕ} (h : team.releases = 0)
    (hi : index < team.threadCapacity) : team.useThread index = team := by
  simp only [ThreadTeam.useThread, use_eq h, Nat.not_le.mpr hi, decide_false, Bool.or_false]

theorem running_reserve {data : Option δ} (h : reserveThreads env capacity data = some team) :
    team.Running capacity 0 := by
  unfold reserveThreads at h
  split_ifs at h
  cases h
  exact ⟨rfl, rfl, fun _ => rfl, fun _ => rfl, fun _ => rfl, rfl, rfl⟩

theorem addThread_eq (h : team.Running capacity count) (hc : count < capacity) :
    addThread env team = (env.create count, { team with
      threadCount := count + 1
      threads := Function.update team.threads count { team.threads count with
        started := decide (env.create count = exitSuccess) } }) := by
  have hcap : count < team.threadCapacity := by rwa [h.capacity]
  have huse : ({ team with threadCount := count + 1 } : ThreadTeam δ).useThread count =
      { team with threadCount := count + 1 } :=
    useThread_eq h.live hcap
  simp only [addThread, use_eq h.live, h.counted, if_pos hcap, huse, createTeamThread,
    Option.isSome_none, Bool.false_eq_true, if_false, h.number]

theorem ThreadTeam.Running.addThread (h : team.Running capacity count) (hc : count < capacity)
    (hs : env.create count = 0) : (addThread env team).2.Running capacity (count + 1) := by
  rw [addThread_eq h hc]
  refine ⟨h.capacity, rfl, ?_, ?_, ?_, h.live, h.defined⟩
  · exact (Function.forall_update_iff team.threads fun k thread => thread.threadNumber = k).mpr
      ⟨h.number count, fun k _ => h.number k⟩
  · refine (Function.forall_update_iff team.threads fun k thread =>
      thread.started = decide (k < count + 1)).mpr ⟨?_, fun k hk => ?_⟩
    · exact decide_eq_decide.mpr (iff_of_true hs (Nat.lt_succ_self count))
    · rw [h.started]
      exact decide_eq_decide.mpr (by omega)
  · exact (Function.forall_update_iff team.threads fun _ thread => thread.joins = 0).mpr
      ⟨h.joins count, fun k _ => h.joins k⟩

theorem addLoop_runs {n : ℕ} (h : team.Running capacity count) (hc : count + n ≤ capacity)
    (hs : ∀ j < count + n, env.create j = 0) :
    (addLoop env n team).1 = 0 ∧ (addLoop env n team).2.Running capacity (count + n) := by
  -- induction on the threads that are left; `Running` counts those that were added
  induction n generalizing team count with
  | zero => exact ⟨rfl, h⟩
  | succ n ih =>
    have hcreate : env.create count = 0 := hs count (by omega)
    have hfirst : (addThread env team).1 = 0 := by rw [addThread_eq h (by omega), hcreate]
    rw [addLoop]
    simp only [hfirst, ne_eq, not_true_eq_false, if_false]
    have hn : count + (n + 1) = count + 1 + n := by omega
    rw [hn] at hs hc ⊢
    exact ih (h.addThread (by omega) hcreate) hc hs

end Add

section Join

variable {env : Environment} {team : ThreadTeam δ} {capacity count : ℕ}

/-- A loop over the records has joined the first of them. -/
structure ThreadTeam.Joining (team : ThreadTeam δ) (capacity count index : ℕ) : Prop where
  capacity : team.threadCapacity = capacity
  started : ∀ k, (team.threads k).started = decide (k < count)
  joins : ∀ k, (team.threads k).joins = if k < index then 1 else 0
  live : team.releases = 0
  defined : team.undefined = false

theorem ThreadTeam.Joining.join (env : Environment) {index : ℕ}
    (h : team.Joining capacity count index)
    (hi : index < count) (hc : count ≤ capacity) :
    (joinTeamThread env team index).2.Joining capacity count (index + 1) := by
  have huse : team.useThread index = team :=
    useThread_eq h.live (by rw [h.capacity]; omega)
  have hstarted : (team.threads index).started = true := by
    rw [h.started, decide_eq_true hi]
  have hjoins : (team.threads index).joins = 0 := by
    rw [h.joins, if_neg (Nat.lt_irrefl index)]
  simp only [joinTeamThread, huse]
  refine ⟨h.capacity, ?_, ?_, h.live, ?_⟩
  · exact (Function.forall_update_iff team.threads fun k thread =>
      thread.started = decide (k < count)).mpr ⟨h.started index, fun k _ => h.started k⟩
  · refine (Function.forall_update_iff team.threads fun k thread =>
      thread.joins = if k < index + 1 then 1 else 0).mpr ⟨?_, fun k hk => ?_⟩
    · rw [if_pos (Nat.lt_succ_self index), hjoins]
    · rw [h.joins]
      exact if_congr (by omega) rfl rfl
  · simp only [h.defined, hstarted, hjoins, Bool.not_true, Bool.or_false, ne_eq,
      not_true_eq_false, decide_false]

theorem joining_fold (env : Environment) {m : ℕ} (h : team.Joining capacity count 0)
    (hm : m ≤ count)
    (hc : count ≤ capacity) : ((List.range m).foldl (joinStep env) (exitSuccess, team)).2.Joining
      capacity count m := by
  -- induction on the records, the last one first: `Joining` moves with the index
  induction m with
  | zero => exact h
  | succ m ih =>
    rw [List.range_succ, List.foldl_append]
    exact (ih (by omega)).join env (by omega) hc

theorem joinThreads_joined (h : team.Running capacity count) (hc : count ≤ capacity) :
    (joinThreads env team).2.Joined count := by
  have hstart : team.Joining capacity count 0 :=
    ⟨h.capacity, h.started, h.joins, h.live, h.defined⟩
  have hend := joining_fold env hstart le_rfl hc
  simp only [joinThreads, use_eq h.live, h.counted]
  simp only [ThreadTeam.free, use_eq hend.live]
  exact ⟨hend.defined, hend.started, hend.joins, by rw [hend.live]⟩

theorem use_undefined (h : team.undefined = true) : team.use.undefined = true := by
  rw [ThreadTeam.use, h, Bool.true_or]

theorem joinTeamThread_undefined (env : Environment) {index : ℕ}
    (h : team.undefined = true ∨ (team.threads index).started = false) :
    (joinTeamThread env team index).2.undefined = true := by
  obtain h | h := h
  · simp [joinTeamThread, ThreadTeam.useThread, use_undefined h]
  · simp [joinTeamThread, ThreadTeam.useThread, ThreadTeam.use, h]

theorem joinTeamThread_started (env : Environment) (team : ThreadTeam δ) (index k : ℕ) :
    ((joinTeamThread env team index).2.threads k).started = (team.threads k).started := by
  simp only [joinTeamThread]
  by_cases hk : k = index
  · rw [hk, Function.update_self]
    rfl
  · rw [Function.update_of_ne hk]
    rfl

theorem joinTeamThread_releases (env : Environment) (team : ThreadTeam δ) (index : ℕ) :
    (joinTeamThread env team index).2.releases = team.releases := rfl

theorem fold_releases (indices : List ℕ) (state : ℤ × ThreadTeam δ) :
    (indices.foldl (joinStep env) state).2.releases = state.2.releases := by
  induction indices generalizing state with
  | nil => rfl
  | cons index indices ih =>
    rw [List.foldl_cons, ih, joinStep, joinTeamThread_releases]

theorem fold_undefined {indices : List ℕ} {state : ℤ × ThreadTeam δ}
    (h : state.2.undefined = true ∨ ∃ k ∈ indices, (state.2.threads k).started = false) :
    (indices.foldl (joinStep env) state).2.undefined = true := by
  -- induction on the records: a mark stays, and the record that was not started leaves one
  induction indices generalizing state with
  | nil => exact h.resolve_right (by simp)
  | cons index indices ih =>
    rw [List.foldl_cons]
    refine ih ?_
    obtain h | ⟨k, hk, hstarted⟩ := h
    · exact .inl (joinTeamThread_undefined env (.inl h))
    · obtain rfl | hk := List.mem_cons.mp hk
      · exact .inl (joinTeamThread_undefined env (.inr hstarted))
      · exact .inr ⟨k, hk, by rw [joinStep, joinTeamThread_started, hstarted]⟩

theorem joinThreads_releases (env : Environment) (team : ThreadTeam δ) :
    (joinThreads env team).2.releases = team.releases + 1 := by
  simp only [joinThreads, ThreadTeam.free, fold_releases]
  rfl

theorem joinThreads_undefined (env : Environment)
    (h : team.undefined = true ∨ ∃ k < team.threadCount, (team.threads k).started = false) :
    (joinThreads env team).2.undefined = true := by
  refine use_undefined (fold_undefined ?_)
  obtain h | ⟨k, hk, hstarted⟩ := h
  · exact .inl (use_undefined h)
  · exact .inr ⟨k, List.mem_range.mpr hk, hstarted⟩

theorem addLoop_fails {n i : ℕ} (h : team.Running capacity count) (hc : count + n ≤ capacity)
    (hi : count ≤ i) (hin : i < count + n) (hf : env.FailsAt i) : (addLoop env n team).1 ≠ 0 ∧
      (addLoop env n team).2.undefined = true ∧ (addLoop env n team).2.releases = 1 := by
  -- induction on the threads that are left: the failing one comes or is among the others
  induction n generalizing team count with
  | zero => omega
  | succ n ih =>
    have hadd : addThread env team = _ := addThread_eq h (by omega)
    by_cases hcount : count = i
    · have hfirst : (addThread env team).1 ≠ 0 := by
        rw [hadd, hcount]
        exact hf.1
      rw [addLoop]
      simp only [hfirst, ne_eq, not_false_eq_true, if_true, true_and]
      refine ⟨joinThreads_undefined env (.inr ⟨count, ?_, ?_⟩), ?_⟩
      · rw [hadd]
        exact Nat.lt_succ_self count
      · rw [hadd]
        dsimp only
        rw [Function.update_self, hcount]
        exact decide_eq_false hf.1
      · rw [joinThreads_releases, hadd, h.live]
    · have hcreate : env.create count = 0 := hf.2 count (by omega)
      have hfirst : (addThread env team).1 = 0 := by rw [hadd, hcreate]
      rw [addLoop]
      simp only [hfirst, ne_eq, not_true_eq_false, if_false]
      exact ih (h.addThread (by omega) hcreate) (by omega) (by omega) (by omega)

end Join

section Call

variable {env : Environment} {team : ThreadTeam δ} {n : ℕ} {data : Option δ}

theorem addThreads_eq (h : team.Running n 0) : addThreads env team n = addLoop env n team := by
  have hle : (0 + n) % 2 ^ 64 ≤ n := (Nat.mod_le _ _).trans_eq (Nat.zero_add n)
  simp only [addThreads, use_eq h.live, h.counted, h.capacity, if_pos hle]

theorem createThreads_runs (h : reserveThreads env n data = some team)
    (hs : ∀ i < n, env.create i = 0) : ∃ complete : ThreadTeam δ, complete.Running n n ∧
      createThreads env n data = ⟨some complete, some complete⟩ := by
  have hrun := running_reserve h
  obtain ⟨hzero, hcomplete⟩ := addLoop_runs (n := n) hrun (Nat.zero_add n).le
    (by rwa [Nat.zero_add])
  rw [Nat.zero_add] at hcomplete
  refine ⟨_, hcomplete, ?_⟩
  simp only [createThreads, h, addThreads_eq hrun, hzero, ne_eq, not_true_eq_false, if_false]

theorem createThreads_fails {i : ℕ} (h : reserveThreads env n data = some team) (hi : i < n)
    (hf : env.FailsAt i) : ∃ failed : ThreadTeam δ, failed.undefined = true ∧ failed.releases = 2 ∧
      createThreads env n data = ⟨some failed, none⟩ := by
  have hrun := running_reserve h
  obtain ⟨hne, hundefined, hreleases⟩ := addLoop_fails (n := n) hrun (Nat.zero_add n).le
    (Nat.zero_le i) (by omega) hf
  refine ⟨_, joinThreads_undefined env (.inl hundefined), ?_, ?_⟩
  · rw [joinThreads_releases, hreleases]
  · simp only [createThreads, h, addThreads_eq hrun, hne, ne_eq, not_false_eq_true, if_true]

theorem exists_failsAt {i : ℕ} (h : env.create i ≠ 0) : ∃ j ≤ i, env.FailsAt j := by
  classical
  have hex : ∃ j, env.create j ≠ 0 := ⟨i, h⟩
  refine ⟨Nat.find hex, Nat.find_min' hex h, Nat.find_spec hex, fun j hj => ?_⟩
  exact not_not.mp (Nat.find_min hex hj)

end Call

/-- The call does with its team what it should exactly when the team cannot be allocated or no
creation fails. -/
theorem create_threads_iff (env : Environment) (threadCount : ℕ) (data : Option δ) :
    Handles env threadCount data ↔
      (env.teamFits = true → env.threadsFit = true → ∀ i < threadCount, env.create i = 0) := by
  constructor
  · intro h hteam hthreads i hi
    by_contra hcreate
    -- the first failure is the one that the call meets
    obtain ⟨j, hj, hf⟩ := exists_failsAt hcreate
    obtain ⟨team, hreserve⟩ : ∃ team, reserveThreads env threadCount data = some team :=
      ⟨_, by rw [reserveThreads, if_pos hteam, if_pos hthreads]⟩
    obtain ⟨failed, hundefined, -, heq⟩ := createThreads_fails hreserve (by omega) hf
    have hjoined := ((h failed (by rw [heq])).1 j (by omega) hf).1
    exact Bool.false_ne_true (hjoined.defined.symm.trans hundefined)
  · intro h team hteam
    cases hreserve : reserveThreads env threadCount data with
    | none =>
      rw [createThreads, hreserve] at hteam
      cases hteam
    | some reserved =>
      have hs : ∀ i < threadCount, env.create i = 0 := by
        unfold reserveThreads at hreserve
        split_ifs at hreserve with hteam hthreads
        exact h hteam hthreads
      obtain ⟨complete, hrun, heq⟩ := createThreads_runs hreserve hs
      rw [heq] at hteam ⊢
      cases hteam
      exact ⟨fun i hi hf => absurd (hs i hi) hf.1,
        fun _ => ⟨rfl, hrun.defined, joinThreads_joined hrun le_rfl⟩⟩

/-- The only thread of a team cannot be created. -/
theorem not_handles_single :
    ¬ Handles (δ := Unit) ⟨true, true, fun _ => 11, fun _ => 0⟩ 1 none := by
  intro h
  have hjoined := ((h _ rfl).1 0 Nat.zero_lt_one ⟨by decide, by simp⟩).1
  exact absurd hjoined.released (by decide)

end Concurrente.Ethread
