import Concurrente.OmpMpi.Preservation

/-!
# Every run of the distribution ends

Each message, each position of a worker and each position of the master has a
weight, and every step lowers the total.  What remains to be shown of a state
without steps is that it is the intended end.
-/

namespace Concurrente.OmpMpi

variable {job : Job} {mpi : Mpi} {s t : State} {holds : ℕ → Option CInt} {rank : ℕ}

def WorkerPc.weight : WorkerPc → ℕ
  | .recv => 0
  | .processPlate _ => 9
  | .sendIndex _ => 8
  | .sendStates _ => 4
  | .left => 0

def MasterPc.weight (mpi : Mpi) : MasterPc → ℕ
  | .distribute _ => 11 * mpi.processCount + 11
  | .recvIndex => 11 * mpi.processCount + 10
  | .recvStates _ _ => 11 * mpi.processCount + 11
  | .reply _ => 11 * mpi.processCount + 12
  | .stopWorkers n => 11 * (mpi.processCount - n) + 1
  | .left => 0

def weight (ib : List Message) (w : Worker) (ob : List Message) : ℕ :=
  10 * ib.length + w.pc.weight + 3 * ob.length

def load (mpi : Mpi) (s : State) : ℕ :=
  ∑ w ∈ ranks mpi, weight (s.toWorker w) (s.worker w) (s.toMaster w)

def remaining (mpi : Mpi) (s : State) : ℕ :=
  20 * (2 ^ 31 - s.assigned.length) + load mpi s + s.master.weight mpi

theorem load_congr (hw : t.toWorker = s.toWorker) (hk : t.worker = s.worker)
    (hm : t.toMaster = s.toMaster) : load mpi t = load mpi s := by
  unfold load
  rw [hw, hk, hm]

theorem load_setWorker (hr : rank ∈ ranks mpi) (ib : List Message) (w : Worker)
    (ob : List Message) :
    load mpi (setWorker s rank ib w ob) + weight (s.toWorker rank) (s.worker rank)
      (s.toMaster rank) = load mpi s + weight ib w ob := by
  have h := sum_update hr (fun v => (s.toWorker v, s.worker v, s.toMaster v))
    (fun _ x => weight x.1 x.2.1 x.2.2) (ib, w, ob)
  have he : ∀ v, Function.update (fun v => (s.toWorker v, s.worker v, s.toMaster v)) rank
      (ib, w, ob) v = ((setWorker s rank ib w ob).toWorker v, (setWorker s rank ib w ob).worker v,
        (setWorker s rank ib w ob).toMaster v) := by
    intro v
    by_cases hv : v = rank
    · subst hv
      simp [setWorker]
    · simp [setWorker, hv]
  simp only [he] at h
  exact h

theorem load_send (hr : rank ∈ ranks mpi) (m : Message)
    (ht : t.toWorker = Function.update s.toWorker rank (s.toWorker rank ++ [m]))
    (hk : t.worker = s.worker) (ho : t.toMaster = s.toMaster) :
    load mpi t = load mpi s + 10 := by
  have h := load_setWorker (s := s) hr (s.toWorker rank ++ [m]) (s.worker rank) (s.toMaster rank)
  rw [load_congr (t := t) (s := setWorker s rank (s.toWorker rank ++ [m]) (s.worker rank)
    (s.toMaster rank)) (by simp [setWorker, ht]) (by simp [setWorker, hk])
    (by simp [setWorker, ho])]
  simp only [weight, List.length_append, List.length_singleton] at h
  omega

theorem load_take (hr : rank ∈ ranks mpi) {m : Message} {rest : List Message}
    (hm : s.toMaster rank = m :: rest)
    (ht : t.toMaster = Function.update s.toMaster rank rest)
    (hk : t.worker = s.worker) (ho : t.toWorker = s.toWorker) :
    load mpi t + 3 = load mpi s := by
  have h := load_setWorker (s := s) hr (s.toWorker rank) (s.worker rank) rest
  rw [load_congr (t := t) (s := setWorker s rank (s.toWorker rank) (s.worker rank) rest)
    (by simp [setWorker, ho]) (by simp [setWorker, hk]) (by simp [setWorker, ht])]
  simp only [weight, hm, List.length_cons] at h
  omega

theorem WorkerStep.weight_lt {ib ob ib' ob' : List Message} {w w' : Worker}
    (h : WorkerStep job ib w ob ib' w' ob') : weight ib' w' ob' < weight ib w ob := by
  cases h with
  -- a message of weight 10 becomes a plate of weight 9
  | recv =>
    simp only [weight, List.length_cons]
    split_ifs <;> simp only [WorkerPc.weight] <;> omega
  | process => simp [weight, WorkerPc.weight]
  | index =>
    simp only [weight, WorkerPc.weight, List.length_append, List.length_singleton]
    omega
  | states =>
    simp only [weight, WorkerPc.weight, List.length_append, List.length_singleton]
    omega

theorem worker_remaining (hr : rank ∈ ranks mpi) (h : jobWorkerProcess job s rank = some t) :
    remaining mpi t < remaining mpi s := by
  obtain ⟨ib, w, ob, rfl, hs⟩ := jobWorkerProcess_some h
  have hl := load_setWorker (s := s) hr ib w ob
  have hw := hs.weight_lt
  unfold remaining
  simp only [setWorker] at hl ⊢
  omega

theorem assign_remaining {m : MasterPc} (hr : rank ∈ ranks mpi)
    (hp : s.assigned.length < 2 ^ 31) (hm : m.weight mpi ≤ s.master.weight mpi) :
    remaining mpi { sendPlate s rank with master := m } < remaining mpi s := by
  have hl : load mpi { sendPlate s rank with master := m } = load mpi s + 10 :=
    load_send hr _ rfl rfl rfl
  unfold remaining
  rw [hl]
  simp only [sendPlate, List.length_append, List.length_singleton]
  omega

theorem Inv.master_remaining {source : ℕ} (I : Inv job mpi s holds)
    (h : jobMasterProcess job mpi s source = some t) : remaining mpi t < remaining mpi s := by
  have hlen := I.length_lt
  have hpl := I.place
  unfold jobMasterProcess at h
  split at h
  next n hm =>
    simp only [Place, hm] at hpl
    have hw := workingProcesses_eq job mpi
    split at h
    next hn =>
      obtain ⟨-, rfl⟩ := assign_some h
      exact assign_remaining (mem_ranks.mpr (by omega)) hlen (by simp [hm, MasterPc.weight])
    next =>
      cases h
      simp only [remaining, hm, MasterPc.weight, load]
      omega
  next hm =>
    split at h
    next hs =>
      split at h <;> cases h
      next m rest ho =>
        have hl := load_take (t := { s with
          master := .recvStates m.data source
          toMaster := Function.update s.toMaster source rest }) (mem_ranks.mpr hs) ho rfl rfl rfl
        simp only [remaining, hm, MasterPc.weight] at hl ⊢
        omega
    next => cases h
  next i src hm =>
    simp only [Place, hm] at hpl
    split at h <;> cases h
    next m rest ho =>
      have hl := load_take (t := { s with
        master := .reply src
        toMaster := Function.update s.toMaster src rest
        kStates := if toSizeT i < job.platesCount
          then Function.update s.kStates (toSizeT i) (recvInt 0 m.data) else s.kStates
        availableWorkers := s.availableWorkers + 1
        reported := s.reported ++ [i] }) hpl.1 ho rfl rfl rfl
      simp only [remaining, hm, MasterPc.weight] at hl ⊢
      omega
  next src hm =>
    simp only [Place, hm] at hpl
    split at h
    next hp =>
      obtain ⟨-, rfl⟩ := assign_some h
      exact assign_remaining hpl.1 hlen (by simp [hm, MasterPc.weight])
    next hp =>
      split at h <;> cases h <;> simp only [remaining, hm, MasterPc.weight, load] <;> omega
  next n hm =>
    simp only [Place, hm] at hpl
    split at h <;> cases h
    next hn =>
      have hl := load_send (t := { s with
        master := .stopWorkers (n + 1)
        toWorker := Function.update s.toWorker n
          (s.toWorker n ++ [⟨sendInt (BitVec.ofNat 64 job.platesCount), .stop⟩]) })
        (mem_ranks.mpr ⟨hpl.1, hn⟩) _ rfl rfl rfl
      simp only [remaining, hm, MasterPc.weight] at hl ⊢
      omega
    next =>
      simp only [remaining, hm, MasterPc.weight, load]
      omega
  next => cases h

theorem remaining_lt {a : Action} (hr : (system job mpi).Reachable s)
    (h : (system job mpi).step s a = some t) : remaining mpi t < remaining mpi s := by
  obtain ⟨holds, I⟩ := reachable_inv hr
  cases a with
  | master source => exact I.master_remaining h
  | worker rank =>
    simp only [system] at h
    split at h
    · next hw => exact worker_remaining (mem_ranks.mpr hw) h
    · cases h

theorem exists_end (hr : (system job mpi).Reachable s) :
    ∃ t, (system job mpi).Path s t ∧ (system job mpi).Stuck t :=
  System.exists_stuck (remaining mpi) (fun _ _ _ h => remaining_lt h) hr

theorem Serving.progress {i : CInt} (h : Serving job i (s.toWorker rank) (s.worker rank)
    (s.toMaster rank)) : jobWorkerProcess job s rank ≠ none ∨ s.toMaster rank ≠ [] := by
  unfold jobWorkerProcess
  generalize s.toWorker rank = ib, s.worker rank = w, s.toMaster rank = ob at h ⊢
  cases h <;> simp

theorem IndexTaken.progress {i : CInt} (h : IndexTaken job i (s.toWorker rank) (s.worker rank)
    (s.toMaster rank)) : jobWorkerProcess job s rank ≠ none ∨ s.toMaster rank ≠ [] := by
  unfold jobWorkerProcess
  generalize s.toWorker rank = ib, s.worker rank = w, s.toMaster rank = ob at h ⊢
  cases h <;> simp

theorem Stopped.progress (h : Stopped job (s.toWorker rank) (s.worker rank) (s.toMaster rank))
    (hs : jobWorkerProcess job s rank = none) : (s.worker rank).pc = .left := by
  unfold jobWorkerProcess at hs
  generalize s.toWorker rank = ib, s.worker rank = w, s.toMaster rank = ob at h hs ⊢
  cases h <;> simp at hs ⊢

theorem Serving.holdsPlate {i : CInt} (h : Serving job i (s.toWorker rank) (s.worker rank)
    (s.toMaster rank)) : HoldsPlate s rank ∨ s.toMaster rank ≠ [] := by
  unfold HoldsPlate
  generalize s.toWorker rank = ib, s.worker rank = w, s.toMaster rank = ob at h ⊢
  cases h <;> simp

section Stuck

variable (hs : (system job mpi).Stuck s)
include hs

theorem worker_blocked (hr : rank ∈ ranks mpi) : jobWorkerProcess job s rank = none := by
  have h := hs (.worker rank)
  simp only [system, if_pos (mem_ranks.mp hr)] at h
  exact h

theorem master_blocked (source : ℕ) : jobMasterProcess job mpi s source = none :=
  hs (.master source)

theorem Inv.stuck_left (I : Inv job mpi s holds) (hw : 2 ≤ workingProcesses job mpi)
    (hcount : job.platesCount < 2 ^ 31) : s.master = .left := by
  have hpl := I.place
  have hb := master_blocked hs
  unfold jobMasterProcess at hb
  cases hm : s.master with
  | distribute n =>
    have hblocked := hb 0
    simp only [hm] at hblocked
    split at hblocked
    · next hn => exact absurd hblocked (assign_ne_none hcount (I.distribute_lt hm hn))
    · cases hblocked
  | recvIndex =>
    simp only [Place, hm] at hpl
    obtain hle | ⟨w, hr, hh⟩ := hpl
    · omega
    -- some worker holds a plate: it can move or its report is in flight
    · obtain ⟨i, hi⟩ := Option.isSome_iff_exists.mp hh
      have hv := I.plain (hm ▸ quiet_recvIndex) hr
      rw [hi] at hv
      obtain h | h := Serving.progress hv
      · exact absurd (worker_blocked hs hr) h
      · have := hb w
        obtain ⟨m, rest, ho⟩ := List.exists_cons_of_ne_nil h
        simp [hm, mem_ranks.mp hr, ho] at this
  | recvStates i w =>
    simp only [Place, hm] at hpl
    have hv := I.view w hpl.1
    rw [hpl.2] at hv
    obtain h | h := (hv.1 hm).progress
    · exact absurd (worker_blocked hs hpl.1) h
    · have := hb 0
      obtain ⟨m, rest, ho⟩ := List.exists_cons_of_ne_nil h
      simp [hm, ho] at this
  | reply w =>
    have hblocked := hb 0
    simp only [hm] at hblocked
    split_ifs at hblocked with hp
    exact absurd hblocked (assign_ne_none hcount hp)
  | stopWorkers n =>
    have := hb 0
    simp only [hm] at this
    split at this <;> cases this
  | left => rfl

theorem Inv.stuck_finished (I : Inv job mpi s holds) (hw : 2 ≤ workingProcesses job mpi)
    (hcount : job.platesCount < 2 ^ 31) : Finished mpi s := by
  have hm := I.stuck_left hs hw hcount
  refine ⟨hm, fun rank h1 h2 => ?_⟩
  have hr : rank ∈ ranks mpi := mem_ranks.mpr ⟨h1, h2⟩
  have hpl := I.place
  simp only [Place, hm] at hpl
  have hv := I.view rank hr
  rw [hpl.1 rank hr, hm] at hv
  exact (hv.1 trivial (stopEnds hcount)).progress (worker_blocked hs hr)

end Stuck

theorem exists_left (hw : 2 ≤ workingProcesses job mpi) (hcount : job.platesCount < 2 ^ 31)
    (hr : (system job mpi).Reachable s) :
    ∃ t, (system job mpi).Path s t ∧ (system job mpi).Stuck t ∧ t.master = .left := by
  obtain ⟨t, ht, hst⟩ := exists_end hr
  obtain ⟨holds, I⟩ := reachable_inv (hr.path ht)
  exact ⟨t, ht, hst, I.stuck_left hst hw hcount⟩

end Concurrente.OmpMpi
