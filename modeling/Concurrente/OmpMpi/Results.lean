import Concurrente.OmpMpi.Termination

/-!
# What the distribution guarantees

Deadlocks, the pairing of the two messages of a report, and agreement with the
path of a single process.
-/

namespace Concurrente.OmpMpi

variable {job : Job} {mpi : Mpi} {s t : State} {holds : ℕ → Option CInt} {rank : ℕ}

theorem exists_stuck_at_start (hw : workingProcesses job mpi ≤ 1) :
    ∃ s, (system job mpi).Reachable s ∧ (system job mpi).Stuck s ∧ ¬ Finished mpi s := by
  have h : (system job mpi).step (start job mpi) (.master 0) =
      some { start job mpi with master := .recvIndex } := by
    simp [system, start, jobMasterProcess, Nat.not_lt.mpr hw]
  refine ⟨_, System.Reachable.start.step h, ?_, ?_⟩
  · rintro (source | rank)
    · simp [system, jobMasterProcess, start]
    · simp [system, jobWorkerProcess, start]
  · rintro ⟨hm, -⟩
    cases hm

/-- No reachable state is stuck before all processes have left, and whenever the master
is blocked in its receive from any source a plate is held or a result is in flight, if
and only if there are two workers and two plates and an `int` can count the plates. -/
theorem never_stuck_iff (job : Job) (mpi : Mpi) :
    (∀ s, (system job mpi).Reachable s →
      ((system job mpi).Stuck s → Finished mpi s) ∧
      (s.master = .recvIndex → ∃ rank ∈ ranks mpi, HoldsPlate s rank ∨ s.toMaster rank ≠ [])) ↔
    3 ≤ mpi.processCount ∧ 2 ≤ job.platesCount ∧ job.platesCount < 2 ^ 31 := by
  have hw := workingProcesses_eq job mpi
  constructor
  · intro h
    have hw2 : 2 ≤ workingProcesses job mpi := by
      by_contra hlt
      obtain ⟨s, hr, hs, hf⟩ := exists_stuck_at_start
        (show workingProcesses job mpi ≤ 1 by omega)
      exact hf ((h s hr).1 hs)
    refine ⟨by omega, by omega, ?_⟩
    obtain ⟨s, hr, hs⟩ := exists_end (System.Reachable.start (M := system job mpi))
    have hleft := ((h s hr).1 hs).1
    obtain ⟨holds, I⟩ := reachable_inv hr
    have hpl := I.place
    simp only [Place, hleft] at hpl
    rw [I.toSizeT_current] at hpl
    exact hpl.2.trans_lt I.length_lt
  · rintro ⟨hc, hp, hcount⟩ s hr
    obtain ⟨holds, I⟩ := reachable_inv hr
    refine ⟨fun hs => I.stuck_finished hs (by omega) hcount, fun hm => ?_⟩
    have hpl := I.place
    simp only [Place, hm] at hpl
    obtain hle | ⟨rank, hrank, hh⟩ := hpl
    · omega
    · obtain ⟨i, hi⟩ := Option.isSome_iff_exists.mp hh
      have hv := I.plain (hm ▸ quiet_recvIndex) hrank
      rw [hi] at hv
      exact ⟨rank, hrank, Serving.holdsPlate hv⟩

def elevenPlates : Job := ⟨11, fun _ => 1, fun _ => 1, by norm_num⟩

def threePlates : Job := ⟨3, fun _ => 1, fun _ => 1, by omega⟩

/-- Two plates that take the same number of states. -/
def twoPlates (states : BitVec 64) : Job := ⟨2, fun _ => 1, fun _ => states, by norm_num⟩

def twoProcesses : Mpi := ⟨2, by norm_num, by norm_num⟩

def threeProcesses : Mpi := ⟨3, by norm_num, by norm_num⟩

/-- Eleven plates and one worker besides the master. -/
theorem one_worker_stuck : ∃ s, (system elevenPlates twoProcesses).Reachable s ∧
    (system elevenPlates twoProcesses).Stuck s ∧ ¬ Finished twoProcesses s :=
  exists_stuck_at_start (by decide)

def MasterPc.PastLoop : MasterPc → Prop
  | .stopWorkers _ => True
  | .left => True
  | _ => False

theorem Inv.count_assigned (I : Inv job mpi s holds) {j : ℕ} (hj : j < 2 ^ 32) :
    (s.assigned.map Prod.snd).count (BitVec.ofNat 32 j) =
      if j < s.assigned.length then 1 else 0 := by
  have hlt := I.length_lt
  rw [I.indices]
  have hinj : ∀ a ∈ List.range s.assigned.length, ∀ b ∈ List.range s.assigned.length,
      BitVec.ofNat 32 a = BitVec.ofNat 32 b → a = b := by
    intro a ha b hb h
    exact ofNat_injOn (by have := List.mem_range.mp ha; omega)
      (by have := List.mem_range.mp hb; omega) h
  split_ifs with h
  · refine List.count_eq_one_of_mem (List.Nodup.map_on hinj List.nodup_range) ?_
    exact List.mem_map_of_mem (List.mem_range.mpr h)
  · apply List.count_eq_zero_of_not_mem
    rintro hm
    obtain ⟨a, ha, hab⟩ := List.mem_map.mp hm
    have := List.mem_range.mp ha
    have := ofNat_injOn (by omega) hj hab
    omega

theorem holders_of_none (hn : ∀ w ∈ ranks mpi, holds w = none) (i : CInt) :
    holders mpi holds i = 0 :=
  Finset.sum_eq_zero (fun w hw => by simp [hn w hw])

theorem Inv.pastLoop (I : Inv job mpi s holds) (hm : s.master.PastLoop) :
    (∀ w ∈ ranks mpi, holds w = none) ∧ s.assigned.length = job.platesCount := by
  have hle := I.length_le
  have hpl := I.place
  have hlength := I.toSizeT_current
  cases h : s.master with
  | stopWorkers n =>
    simp only [Place, h] at hpl
    exact ⟨hpl.2.2.1, by omega⟩
  | left =>
    simp only [Place, h] at hpl
    exact ⟨hpl.1, by omega⟩
  | _ => simp [h, MasterPc.PastLoop] at hm

theorem Inv.view_none (I : Inv job mpi s holds) (hp : job.platesCount < 2 ^ 31)
    (hr : rank ∈ ranks mpi)
    (hn : holds rank = none) : s.toMaster rank = [] ∧
      if s.master.StopSent rank then
        (s.toWorker rank = [⟨BitVec.ofNat 32 job.platesCount, .stop⟩] ∧
          (s.worker rank).pc = .recv) ∨
        (s.toWorker rank = [] ∧ (s.worker rank).pc = .left)
      else s.toWorker rank = [] ∧ (s.worker rank).pc = .recv := by
  have hv := I.view rank hr
  rw [hn] at hv
  rw [← sendInt_ofNat]
  generalize s.toWorker rank = ib, s.worker rank = w, s.toMaster rank = ob at hv ⊢
  split_ifs with hs
  · cases hv.1 hs (stopEnds hp) <;> simp
  · cases hv.2 hs
    simp

theorem Inv.count_reported (I : Inv job mpi s holds) (hp : job.platesCount < 2 ^ 31)
    (hm : s.master.PastLoop) {i : ℕ} (hi : i < job.platesCount) :
    (s.assigned.map Prod.snd).count (BitVec.ofNat 32 i) = 1 ∧
      s.reported.count (BitVec.ofNat 32 i) = 1 := by
  obtain ⟨hn, hc⟩ := I.pastLoop hm
  have hlen : i < s.assigned.length := by rwa [hc]
  have hb := I.balance (BitVec.ofNat 32 i)
  rw [I.count_assigned (by omega), holders_of_none hn, if_pos hlen] at hb
  rw [I.count_assigned (by omega), if_pos hlen]
  exact ⟨rfl, hb⟩

/-- Each plate goes to at most one worker and at most once, indices and states are never
confused, and past the loop everything has been reported and only one stop signal is on
its way to each worker. -/
theorem reports_are_paired (job : Job) (mpi : Mpi) (hp : job.platesCount < 2 ^ 31) {s : State}
    (hr : (system job mpi).Reachable s) :
    (∀ i < job.platesCount, (s.assigned.map Prod.snd).count (BitVec.ofNat 32 i) ≤ 1) ∧
    (s.master = .recvIndex → ∀ rank ∈ ranks mpi, ∀ m rest, s.toMaster rank = m :: rest →
      m.origin = .index ∧ ∃ i < job.platesCount, m.data = BitVec.ofNat 32 i) ∧
    (∀ i rank, s.master = .recvStates i rank → ∀ m rest, s.toMaster rank = m :: rest →
      m.origin = .kStates i) ∧
    (s.master.PastLoop →
      (∀ i < job.platesCount, (s.assigned.map Prod.snd).count (BitVec.ofNat 32 i) = 1 ∧
        s.reported.count (BitVec.ofNat 32 i) = 1) ∧
      ∀ rank ∈ ranks mpi, s.toMaster rank = [] ∧
        if s.master.StopSent rank then
          (s.toWorker rank = [⟨BitVec.ofNat 32 job.platesCount, .stop⟩] ∧
            (s.worker rank).pc = .recv) ∨
          (s.toWorker rank = [] ∧ (s.worker rank).pc = .left)
        else s.toWorker rank = [] ∧ (s.worker rank).pc = .recv) := by
  obtain ⟨holds, I⟩ := reachable_inv hr
  refine ⟨fun i hi => ?_, fun hm rank hrank m rest ho => ?_, fun i rank hm m rest ho => ?_,
    fun hm => ⟨fun i hi => ?_, fun rank hrank => ?_⟩⟩
  · rw [I.count_assigned (by omega)]
    split_ifs <;> omega
  · obtain ⟨i, hi, rfl, -⟩ := (I.plain (hm ▸ quiet_recvIndex) hrank).head ho
    obtain ⟨j, hj, rfl⟩ := I.held_index hrank hi
    exact ⟨rfl, j, hj.trans_le I.length_le, rfl⟩
  · have hpl := I.place
    simp only [Place, hm] at hpl
    have hv := I.view rank hpl.1
    rw [hpl.2] at hv
    rw [((hv.1 hm).head ho).1]
  · exact I.count_reported hp hm hi
  · exact I.view_none hp hrank ((I.pastLoop hm).1 rank hrank)

/-- Three plates and two workers. -/
theorem reports_are_paired_three :
    ∃ s, (system threePlates threeProcesses).Reachable s ∧ s.master = .left ∧
      ∀ i < 3, (s.assigned.map Prod.snd).count (BitVec.ofNat 32 i) = 1 ∧
        s.reported.count (BitVec.ofNat 32 i) = 1 := by
  obtain ⟨s, hr, -, hm⟩ := exists_left
    (show 2 ≤ workingProcesses threePlates threeProcesses by decide)
    (by decide) System.Reachable.start
  have h := reports_are_paired threePlates threeProcesses (by norm_num [threePlates]) hr
  exact ⟨s, hr, hm, (h.2.2.2 (by rw [hm]; trivial)).1⟩

theorem processPlates_foldl (job : Job) (ns : List ℕ) (hn : ns.Nodup) (k : ℕ → BitVec 64)
    (n : ℕ) : ns.foldl (processPlate job) k n = if n ∈ ns then k n + job.simulated n else k n := by
  -- induction on the plates that are left, none of which comes twice
  induction ns generalizing k with
  | nil => simp
  | cons a ns ih =>
    obtain ⟨ha, hn⟩ := List.nodup_cons.mp hn
    rw [List.foldl_cons, ih hn]
    by_cases hna : n = a
    · subst hna
      simp [ha, processPlate]
    · simp [hna, processPlate]

theorem processPlates_apply (job : Job) (n : ℕ) :
    processPlates job n = if n < job.platesCount then job.simulated n else 0 := by
  rw [processPlates, processPlates_foldl job _ List.nodup_range]
  simp

theorem Inv.recorded (I : Inv job mpi s holds) (hm : s.master.PastLoop) (n : ℕ)
    (hn : n < job.platesCount) : s.kStates n = ((job.simulated n).setWidth 32).setWidth 64 := by
  obtain ⟨hf, hc⟩ := I.pastLoop hm
  have hlt := I.length_lt
  have hmem : BitVec.ofNat 32 n ∈ s.reported := by
    have hb := I.balance (BitVec.ofNat 32 n)
    rw [holders_of_none hf, I.count_assigned (by omega), if_pos (by omega)] at hb
    exact List.count_pos_iff.mp (by omega)
  have h := I.taken _ hmem
  rwa [toSizeT_of_lt (by omega)] at h

theorem truncation_eq_iff (x : BitVec 64) :
    (x.setWidth 32).setWidth 64 = x ↔ x.toNat < 2 ^ 32 := by
  constructor
  · intro h
    rw [← h]
    simp only [BitVec.toNat_setWidth]
    omega
  · intro h
    apply BitVec.eq_of_toNat_eq
    simp only [BitVec.toNat_setWidth]
    omega

theorem reportResults_congr {k k' : ℕ → BitVec 64} (h : ∀ n < job.platesCount, k n = k' n) :
    reportResults job k = reportResults job k' := by
  apply List.map_congr_left
  intro n hn
  simp only [writeResult, h n (List.mem_range.mp hn)]

theorem Inv.agrees_iff (I : Inv job mpi s holds) (hm : s.master = .left) {i : ℕ}
    (hi : i < job.platesCount) : s.kStates i = processPlates job i ↔
      (job.simulated i).toNat < 2 ^ 32 := by
  rw [I.recorded (by simp [hm, MasterPc.PastLoop]) i hi, processPlates_apply, if_pos hi,
    truncation_eq_iff]

/-- In every run in which the master leaves, what it stores and reports is what a single
process records, if and only if every count fits in the four bytes of an `MPI_INT`. -/
theorem master_agrees_iff (job : Job) (mpi : Mpi) (hc : 3 ≤ mpi.processCount)
    (hp : 2 ≤ job.platesCount) (hcount : job.platesCount < 2 ^ 31) :
    (∀ s, (system job mpi).Reachable s → s.master = .left →
      (∀ i < job.platesCount, s.kStates i = processPlates job i) ∧
      reportResults job s.kStates = reportResults job (processPlates job)) ↔
    ∀ i < job.platesCount, (job.simulated i).toNat < 2 ^ 32 := by
  have hw := workingProcesses_eq job mpi
  constructor
  · intro h i hi
    obtain ⟨s, hr, -, hm⟩ := exists_left (by omega) hcount
      (System.Reachable.start (M := system job mpi))
    obtain ⟨holds, I⟩ := reachable_inv hr
    exact (I.agrees_iff hm hi).mp ((h s hr hm).1 i hi)
  · intro h s hr hm
    obtain ⟨holds, I⟩ := reachable_inv hr
    have hk : ∀ i < job.platesCount, s.kStates i = processPlates job i :=
      fun i hi => (I.agrees_iff hm hi).mpr (h i hi)
    exact ⟨hk, reportResults_congr hk⟩

/-- Two plates of five states each. -/
theorem master_agrees_iff_two :
    ∃ s, (system (twoPlates 5) threeProcesses).Reachable s ∧ s.master = .left ∧
      ∀ i < 2, s.kStates i = processPlates (twoPlates 5) i := by
  obtain ⟨s, hr, -, hm⟩ := exists_left
    (show 2 ≤ workingProcesses (twoPlates 5) threeProcesses by decide) (by decide)
    System.Reachable.start
  have h := (master_agrees_iff (twoPlates 5) threeProcesses le_rfl le_rfl (by decide)).mpr
    (fun i _ => by simp [twoPlates])
  exact ⟨s, hr, hm, (h s hr hm).1⟩

/-- Two plates that take `2 ^ 32` states each. -/
theorem large_count_lost :
    ∃ s, (system (twoPlates (2 ^ 32)) threeProcesses).Reachable s ∧ s.master = .left ∧
      s.kStates 0 ≠ processPlates (twoPlates (2 ^ 32)) 0 := by
  obtain ⟨s, hr, -, hm⟩ := exists_left
    (show 2 ≤ workingProcesses (twoPlates (2 ^ 32)) threeProcesses by decide) (by decide)
    System.Reachable.start
  obtain ⟨holds, I⟩ := reachable_inv hr
  refine ⟨s, hr, hm, fun h => ?_⟩
  exact absurd ((I.agrees_iff hm (show 0 < 2 by norm_num)).mp h) (by decide)

end Concurrente.OmpMpi
