import Concurrente.CreateThreadTeam.Program

/-!
# What the threads of create_thread_team find in memory

The numbers of the threads fit the cells of the matrix.  But a thread looks for its record in
`shared_data`, which is too short, and the records do not fit the memory that `create_threads`
allocates.
-/

namespace Concurrente.CreateThreadTeam

variable {env : Environment} {athleteCount count index i : ℕ} {heap heap' : Heap} {s t : State}
  {block : Block Word} {field : Field} {word : Word} {data : Address}

theorem athlete_sharedData (hs : heap.sharedData = sharedData athleteCount) :
    athlete env athleteCount heap ⟨.sharedData, 0⟩ = .error (.outside 3 2) := by
  have hread : heap.read ⟨.sharedData, 3⟩ = .error (.outside 3 2) := by
    simp only [Heap.read, hs]
    rfl
  simp only [athlete, Address.field, Field.word, Nat.zero_add, hread, bind, Except.bind]

theorem write_record (hb : heap.privateData = some block)
    (h : heap.write ((record index).field field) word = .ok heap') :
    recordWords * index + field.word < block.size ∧ heap'.sharedData = heap.sharedData ∧
      ∃ block', heap'.privateData = some block' ∧ block'.size = block.size := by
  simp only [Heap.write, record, Address.field, Heap.records, hb] at h
  obtain ⟨block', hblock, h⟩ := ok_of_bind h
  obtain rfl := Except.ok.inj hblock
  obtain ⟨block', hwrite, h⟩ := ok_of_bind h
  obtain rfl := Except.ok.inj h
  unfold Block.write at hwrite
  split_ifs at hwrite with hlt
  obtain rfl := Except.ok.inj hwrite
  exact ⟨hlt, rfl, _, rfl, rfl⟩

/-- What a round of `create_threads` that succeeds has done. -/
structure CreatedThread (count index : ℕ) (s t : State) : Prop where
  fits : recordWords * index + 3 < count
  sharedData : t.heap.sharedData = s.heap.sharedData
  privateData : ∃ block, t.heap.privateData = some block ∧ block.size = count
  writes : t.writes = s.writes
  fault : t.fault = s.fault
  next : (t.main = .create (index + 1) ∧
      t.thread = Function.update s.thread index (.created ⟨.sharedData, 0⟩)) ∨
    (t.main = .join 0 index false ∧ t.thread = s.thread)

theorem createThread_ok (hb : s.heap.privateData = some block) (hsize : block.size = count)
    (h : createThread env count ⟨.sharedData, 0⟩ s index = .ok t) :
    CreatedThread count index s t := by
  unfold createThread at h
  obtain ⟨heap1, h1, h⟩ := ok_of_bind h
  obtain ⟨heap2, h2, h⟩ := ok_of_bind h
  obtain ⟨heap3, h3, h⟩ := ok_of_bind h
  obtain ⟨-, hs1, block1, hb1, hsize1⟩ := write_record hb h1
  obtain ⟨-, hs2, block2, hb2, hsize2⟩ := write_record hb1 h2
  obtain ⟨hlt, hs3, block3, hb3, hsize3⟩ := write_record hb2 h3
  have hfits : recordWords * index + 3 < count := by
    rw [← hsize, ← hsize1, ← hsize2]
    exact hlt
  have hshared : heap3.sharedData = s.heap.sharedData := hs3.trans (hs2.trans hs1)
  have hsize3' : block3.size = count := hsize3.trans (hsize2.trans (hsize1.trans hsize))
  split_ifs at h with hcreates
  · obtain ⟨heap4, h4, h⟩ := ok_of_bind h
    obtain ⟨-, hs4, block4, hb4, hsize4⟩ := write_record hb3 h4
    obtain rfl := Except.ok.inj h
    exact ⟨hfits, hs4.trans hshared, ⟨block4, hb4, hsize4.trans hsize3'⟩, rfl, rfl,
      .inl ⟨rfl, rfl⟩⟩
  · obtain rfl := Except.ok.inj h
    exact ⟨hfits, hshared, ⟨block3, hb3, hsize3'⟩, rfl, rfl, .inr ⟨rfl, rfl⟩⟩

/-- The thread was not created, or with the shared data. -/
def Thread.Unrun (thread : Thread) : Prop :=
  thread = .absent ∨ thread = .created ⟨.sharedData, 0⟩

/-- The array of records has one word for each of them. -/
def Heap.Allocated (count : ℕ) (heap : Heap) : Prop :=
  ∃ block, heap.privateData = some block ∧ block.size = count

/-- What holds where the main thread is: it neither joins a thread nor returns. -/
def Phase (count : ℕ) (s : State) : Main → Prop
  | .allocate => s.heap.privateData = none
  | .create index => s.heap.Allocated count ∧ index < count ∧
      ∀ i < index, s.thread i = .created ⟨.sharedData, 0⟩
  | .join index joined last => index = 0 ∧
      (last = false ∧ (joined = 0 ∨ s.thread 0 = .created ⟨.sharedData, 0⟩) ∨
        last = true ∧ joined = count ∧ s.heap.privateData = none)
  | .returned => False

structure Invariant (athleteCount : ℕ) (s : State) : Prop where
  sharedData : s.heap.sharedData = sharedData athleteCount
  threads : ∀ i, (s.thread i).Unrun
  writes : s.writes = []
  phase : Phase (threadCount athleteCount) s s.main

theorem threadCount_pos (hodd : athleteCount % 2 = 1) : 0 < threadCount athleteCount := by
  unfold threadCount teamCount
  omega

theorem runAthlete_error (I : Invariant athleteCount s)
    (hi : s.thread i = .created ⟨.sharedData, 0⟩) :
    runAthlete env athleteCount s i = .error (.outside 3 2) := by
  simp only [runAthlete, hi, athlete_sharedData I.sharedData, bind, Except.bind]

theorem joinThread_ok {last : Bool} (h : joinThread s index count last = .ok (some t)) :
    ∃ k data, s.thread k = .finished data := by
  unfold joinThread at h
  obtain ⟨word, -, h⟩ := ok_of_bind h
  cases word with
  | threadId k =>
    cases hk : s.thread k with
    | finished data => exact ⟨k, data, hk⟩
    | absent =>
      simp only [hk] at h
      cases h
    | created data =>
      simp only [hk] at h
      cases h
  | _ => cases h

theorem Invariant.not_finished (I : Invariant athleteCount s) (k : ℕ) :
    s.thread k ≠ .finished data := by
  intro hk
  obtain h | h := I.threads k <;> cases hk.symm.trans h

theorem joinThread_error (hn : s.heap.privateData = none) (last : Bool) :
    joinThread s index count last = .error .nullPointer := by
  simp only [joinThread, Heap.read, record, Address.field, Heap.records, hn, bind, Except.bind]

theorem Invariant.created (I : Invariant athleteCount s) (hi : index < threadCount athleteCount)
    (hcreated : ∀ i < index, s.thread i = .created ⟨.sharedData, 0⟩)
    (h : CreatedThread (threadCount athleteCount) index s t) : Invariant athleteCount t := by
  refine ⟨h.sharedData.trans I.sharedData, ?_, h.writes.trans I.writes, ?_⟩
  · obtain ⟨-, hthread⟩ | ⟨-, hthread⟩ := h.next
    · rw [hthread]
      intro j
      by_cases hji : j = index
      · rw [hji, Function.update_self]
        exact .inr rfl
      · rw [Function.update_of_ne hji]
        exact I.threads j
    · rw [hthread]
      exact I.threads
  · have hfits := h.fits
    obtain ⟨hmain, hthread⟩ | ⟨hmain, hthread⟩ := h.next
    · rw [hmain]
      refine ⟨h.privateData, by unfold recordWords at hfits; omega, fun j hj => ?_⟩
      rw [hthread]
      by_cases hji : j = index
      · rw [hji, Function.update_self]
      · rw [Function.update_of_ne hji]
        exact hcreated j (by omega)
    · rw [hmain]
      refine ⟨rfl, .inl ⟨rfl, ?_⟩⟩
      rw [hthread]
      obtain rfl | hpos := Nat.eq_zero_or_pos index
      · exact .inl rfl
      · exact .inr (hcreated 0 hpos)

theorem Invariant.compete_ok (I : Invariant athleteCount s) (hodd : athleteCount % 2 = 1)
    (h : compete env (threadCount athleteCount) ⟨.sharedData, 0⟩ s = .ok (some t)) :
    Invariant athleteCount t := by
  have hphase := I.phase
  have hcount := threadCount_pos hodd
  unfold compete at h
  cases hmain : s.main with
  | allocate =>
    simp only [hmain] at h
    split_ifs at h
    · obtain rfl := Option.some.inj (Except.ok.inj h)
      exact ⟨I.sharedData, I.threads, I.writes, ⟨_, rfl, Nat.mul_one _⟩, hcount,
        fun _ h => absurd h (Nat.not_lt_zero _)⟩
    · obtain rfl := Option.some.inj (Except.ok.inj h)
      rw [hmain] at hphase
      exact ⟨I.sharedData, I.threads, I.writes, rfl, .inr ⟨rfl, rfl, hphase⟩⟩
  | create index =>
    simp only [hmain] at h
    rw [hmain] at hphase
    obtain ⟨⟨block, hb, hsize⟩, hlt, hcreated⟩ := hphase
    rw [if_pos hlt] at h
    cases hround : createThread env (threadCount athleteCount) ⟨.sharedData, 0⟩ s index with
    | error fault =>
      rw [hround] at h
      cases h
    | ok r =>
      rw [hround] at h
      obtain rfl := Option.some.inj (Except.ok.inj h)
      exact I.created hlt hcreated (createThread_ok hb hsize hround)
  | join index joined last =>
    simp only [hmain] at h
    rw [hmain] at hphase
    by_cases hlt : index < joined
    · rw [if_pos hlt] at h
      obtain ⟨k, data, hk⟩ := joinThread_ok h
      exact absurd hk (I.not_finished k)
    · rw [if_neg hlt] at h
      obtain rfl := Option.some.inj (Except.ok.inj h)
      obtain ⟨rfl, ⟨rfl, -⟩ | ⟨rfl, rfl, -⟩⟩ := hphase
      · exact ⟨I.sharedData, I.threads, I.writes, rfl, .inr ⟨rfl, rfl, rfl⟩⟩
      · exact absurd hcount hlt
  | returned =>
    rw [hmain] at hphase
    exact hphase.elim

theorem settle_cases {result : Except Fault (Option State)} (h : s.settle result = some t) :
    result = .ok (some t) ∨
      ∃ fault, result = .error fault ∧ t = { s with fault := some fault } := by
  cases result with
  | ok r => exact .inl (congrArg _ h)
  | error fault => exact .inr ⟨fault, rfl, (Option.some.inj h).symm⟩

theorem Invariant.step {a : Mover} (I : Invariant athleteCount s) (hodd : athleteCount % 2 = 1)
    (h : (system env athleteCount).step s a = some t) : Invariant athleteCount t := by
  simp only [system] at h
  split_ifs at h
  cases a with
  | main =>
    obtain hok | ⟨fault, -, rfl⟩ := settle_cases h
    · exact I.compete_ok hodd hok
    · exact ⟨I.sharedData, I.threads, I.writes, I.phase⟩
  | athlete i =>
    obtain hok | ⟨fault, -, rfl⟩ := settle_cases h
    · obtain hi | hi := I.threads i
      · simp only [runAthlete, hi] at hok
        cases hok
      · rw [runAthlete_error I hi] at hok
        cases hok
    · exact ⟨I.sharedData, I.threads, I.writes, I.phase⟩

theorem reachable_invariant (hodd : athleteCount % 2 = 1)
    (h : (system env athleteCount).Reachable s) : Invariant athleteCount s := by
  apply System.Reachable.invariant (I := Invariant athleteCount) _ _ h
  · exact ⟨rfl, fun _ => .inl rfl, rfl, rfl⟩
  · exact fun s a t I => I.step hodd

def Faults (env : Environment) (athleteCount : ℕ) (s : State) : Prop :=
  ∃ t, (system env athleteCount).Path s t ∧ t.fault ≠ none

section Faults

theorem Faults.of_error {fault : Fault} (h : s.fault = none)
    (he : compete env (threadCount athleteCount) ⟨.sharedData, 0⟩ s = .error fault) :
    Faults env athleteCount s := by
  refine ⟨{ s with fault := some fault }, System.Path.step (a := .main) ?_, by simp⟩
  simp only [system, h, he, Option.isSome_none, Bool.false_eq_true, if_false]
  rfl

theorem Faults.of_ok (h : s.fault = none)
    (ht : compete env (threadCount athleteCount) ⟨.sharedData, 0⟩ s = .ok (some t))
    (hf : Faults env athleteCount t) : Faults env athleteCount s := by
  obtain ⟨r, hr, hfault⟩ := hf
  refine ⟨r, System.Path.head (a := .main) ?_ hr, hfault⟩
  simp only [system, h, ht, Option.isSome_none, Bool.false_eq_true, if_false]
  rfl

theorem Faults.of_created (I : Invariant athleteCount s) (h : s.fault = none)
    (hi : s.thread i = .created ⟨.sharedData, 0⟩) : Faults env athleteCount s := by
  refine ⟨{ s with fault := some (.outside 3 2) }, System.Path.step (a := .athlete i) ?_, by simp⟩
  simp only [system, h, runAthlete_error I hi, Option.isSome_none, Bool.false_eq_true, if_false]
  rfl

theorem Faults.of_null (hodd : athleteCount % 2 = 1) (h : s.fault = none)
    (hmain : s.main = .join 0 (threadCount athleteCount) true)
    (hn : s.heap.privateData = none) : Faults env athleteCount s := by
  have hnull : compete env (threadCount athleteCount) ⟨.sharedData, 0⟩ s = .error .nullPointer := by
    simp only [compete, hmain]
    rw [if_pos (threadCount_pos hodd)]
    exact joinThread_error hn true
  exact Faults.of_error h hnull

theorem Faults.of_join {joined : ℕ} {last : Bool} (I : Invariant athleteCount s)
    (hodd : athleteCount % 2 = 1) (h : s.fault = none) (hmain : s.main = .join index joined last) :
    Faults env athleteCount s := by
  have hphase := I.phase
  rw [hmain] at hphase
  obtain ⟨rfl, ⟨rfl, rfl | hi⟩ | ⟨rfl, rfl, hn⟩⟩ := hphase
  · have hnext : compete env (threadCount athleteCount) ⟨.sharedData, 0⟩ s = .ok (some { s with
        heap := { s.heap with privateData := none }
        main := .join 0 (threadCount athleteCount) true }) := by
      simp only [compete, hmain, lt_irrefl, if_false, Bool.false_eq_true]
    exact Faults.of_ok h hnext (Faults.of_null hodd h rfl rfl)
  · exact Faults.of_created I h hi
  · exact Faults.of_null hodd h hmain hn

theorem Faults.of_create (I : Invariant athleteCount s) (hodd : athleteCount % 2 = 1)
    (h : s.fault = none) (hmain : s.main = .create index) : Faults env athleteCount s := by
  have hphase := I.phase
  rw [hmain] at hphase
  obtain ⟨⟨block, hb, hsize⟩, hlt, hcreated⟩ := hphase
  have hnext : compete env (threadCount athleteCount) ⟨.sharedData, 0⟩ s =
      (createThread env (threadCount athleteCount) ⟨.sharedData, 0⟩ s index).map some := by
    simp only [compete, hmain]
    exact if_pos hlt
  cases hround : createThread env (threadCount athleteCount) ⟨.sharedData, 0⟩ s index with
  | error fault => exact Faults.of_error h (hnext.trans (by rw [hround]; rfl))
  | ok t =>
    have hok : compete env (threadCount athleteCount) ⟨.sharedData, 0⟩ s = .ok (some t) :=
      hnext.trans (by rw [hround]; rfl)
    have hthread := createThread_ok hb hsize hround
    have ht : t.fault = none := hthread.fault.trans h
    have It := I.compete_ok hodd hok
    obtain ⟨-, hcreate⟩ | ⟨hjoin, -⟩ := hthread.next
    · exact Faults.of_ok h hok (Faults.of_created (i := index) It ht
        (by rw [hcreate, Function.update_self]))
    · exact Faults.of_ok h hok (Faults.of_join It hodd ht hjoin)

theorem Invariant.faults (I : Invariant athleteCount s) (hodd : athleteCount % 2 = 1)
    (h : s.fault = none) : Faults env athleteCount s := by
  cases hmain : s.main with
  | create index => exact Faults.of_create I hodd h hmain
  | join index joined last => exact Faults.of_join I hodd h hmain
  | returned =>
    have hphase := I.phase
    rw [hmain] at hphase
    exact hphase.elim
  | allocate =>
    cases ha : env.allocates with
    | true =>
      have hok : compete env (threadCount athleteCount) ⟨.sharedData, 0⟩ s = .ok (some { s with
          heap := { s.heap with
            privateData := some ⟨threadCount athleteCount * pointerWords, fun _ => .number 0⟩ }
          main := .create 0 }) := by
        simp only [compete, hmain, ha, if_true]
      exact Faults.of_ok h hok (Faults.of_create (I.compete_ok hodd hok) hodd h rfl)
    | false =>
      have hok : compete env (threadCount athleteCount) ⟨.sharedData, 0⟩ s = .ok (some { s with
          main := .join 0 (threadCount athleteCount) true }) := by
        simp only [compete, hmain, ha, Bool.false_eq_true, if_false]
      exact Faults.of_ok h hok (Faults.of_join (I.compete_ok hodd hok) hodd h rfl)

end Faults

/-- For no odd number of athletes does the team work, whatever the system provides: no run writes
a cell or returns from `compete`, and every run ends with a fault. -/
theorem compete_never_works (env : Environment) (athleteCount : ℕ) (hodd : athleteCount % 2 = 1) :
    ¬ Works env athleteCount ∧ ∀ s, (system env athleteCount).Reachable s →
      s.main ≠ .returned ∧ s.writes = [] ∧
        ∃ t, (system env athleteCount).Path s t ∧ t.fault ≠ none := by
  have hfaults : ∀ s, (system env athleteCount).Reachable s →
      ∃ t, (system env athleteCount).Path s t ∧ t.fault ≠ none := by
    intro s hs
    by_cases h : s.fault = none
    · exact (reachable_invariant hodd hs).faults hodd h
    · exact ⟨s, System.Path.refl s, h⟩
  refine ⟨fun hworks => ?_, fun s hs => ⟨fun hmain => ?_, (reachable_invariant hodd hs).writes,
    hfaults s hs⟩⟩
  · obtain ⟨t, ht, hfault⟩ := hfaults _ System.Reachable.start
    exact hfault (hworks.safe t ht)
  · have hphase := (reachable_invariant hodd hs).phase
    rw [hmain] at hphase
    exact hphase

def generous : Environment := ⟨true, fun _ => true, fun _ => 0⟩

theorem compete_never_works_three : ¬ Works generous 3 :=
  (compete_never_works generous 3 rfl).1

/-- Two threads: the third word of the first record is outside of the two words allocated. -/
theorem not_works_single : (∃ s, (system generous 1).run [.main, .main] = some s ∧
    s.fault = some (.outside 2 2)) ∧ ¬ Works generous 1 := by
  obtain ⟨s, hs⟩ : ∃ s, (system generous 1).run [.main, .main] = some s := ⟨_, rfl⟩
  have hfault : s.fault = some (.outside 2 2) := by
    cases hs
    rfl
  refine ⟨⟨s, hs, hfault⟩, fun hworks => ?_⟩
  have hsafe := hworks.safe s (System.reachable_run hs)
  rw [hfault] at hsafe
  cases hsafe

end Concurrente.CreateThreadTeam
