import Concurrente.OmpMpi.Errors
import Concurrente.OmpMpi.Results

/-!
# Failures during a simulation

`simulate` after all processes have read the job, when plates, messages and the report may fail.
Most levels drop the code of a failure: `process_plates` and the worker ignore what
`process_plate` returns, the code of a receive is overwritten by that of the stop signals, and
`simulate` ignores `report_results`.
-/

namespace Concurrente.OmpMpi.Failures

/-- How `process_plate` ends: `cellsNotRead` is a short read of the temperatures, which nobody
checks; `notLoaded` a plate file that is not opened or has no dimensions; `notNamed` an output
name or path that cannot be built. -/
inductive PlateOutcome
  | written
  | cellsNotRead
  | notLoaded
  | notNamed
  | notOpened
  deriving DecidableEq, Repr

inductive ReportOutcome
  | written
  | notNamed
  | notOpened
  deriving DecidableEq, Repr

/-- A plate or a report that fails, or an MPI call of the master or of a worker. -/
inductive Failure
  | plate (outcome : PlateOutcome)
  | report (outcome : ReportOutcome)
  | master (pc : MasterPc)
  | worker (rank : ℕ)
  deriving DecidableEq, Repr

/-- Where process 0 is in `simulate`. -/
inductive Phase
  | processPlates (plateNumber : ℕ)
  | master
  | report
  | returned (code : ℕ)
  | undefined
  deriving DecidableEq, Repr

/-- `done` records the plates that were loaded, simulated and written; `jobLive` and `undefined`
tell of each worker whether its job is not destroyed and whether it has accessed what it should
not. -/
structure Session where
  phase : Phase
  protocol : State
  jobLive : ℕ → Bool
  undefined : ℕ → Bool
  done : List ℕ
  reportWritten : Bool
  failures : List Failure

inductive Action
  | plate (outcome : PlateOutcome)
  | master (source : ℕ) (succeeds : Bool)
  | worker (rank : ℕ) (succeeds : Bool)
  | workerPlate (rank : ℕ) (outcome : PlateOutcome)
  | report (outcome : ReportOutcome)

namespace Session

variable (s : Session)

def fail (f : Failure) : Session := { s with failures := s.failures ++ [f] }

/-- A worker leaves; `simulate` ignores its code. -/
def leave (rank : ℕ) : Session :=
  { s with protocol := { s.protocol with
      worker := Function.update s.protocol.worker rank
        { s.protocol.worker rank with pc := .left } } }

def crash (rank : ℕ) : Session := { s with undefined := Function.update s.undefined rank true }

/-- The master goes on with `job_master_stop_workers`. -/
def stop : Session := { s with protocol := { s.protocol with master := .stopWorkers 1 } }

end Session

/-- A process alone: `process_plates`. -/
def processPlates (job : Job) (s : Session) (plateNumber : ℕ) (outcome : PlateOutcome) : Session :=
  if plateNumber < job.platesCount then
    let next := { s with
      phase := .processPlates (plateNumber + 1)
      protocol := { s.protocol with
        kStates := processPlate job s.protocol.kStates plateNumber } }
    match outcome with
    | .written => { next with done := s.done ++ [plateNumber] }
    | .cellsNotRead => next.fail (.plate outcome)
    -- a null matrix is destroyed, the job is read after it was destroyed, a null file is closed
    | .notLoaded | .notNamed | .notOpened =>
      { s.fail (.plate outcome) with phase := .undefined }
  else { s with phase := .report }

/-- The master: without a failure as in `jobMasterProcess`. -/
def jobMasterProcess (job : Job) (mpi : Mpi) (s : Session) (source : ℕ) (succeeds : Bool) :
    Option Session :=
  if succeeds then
    (OmpMpi.jobMasterProcess job mpi s.protocol source).map fun protocol =>
      { s with protocol := protocol, phase := if protocol.master = .left then .report else .master }
  else
    let failed := s.fail (.master s.protocol.master)
    match s.protocol.master with
    | .distribute processNumber =>
      if processNumber < workingProcesses job mpi then
        some { failed with phase := .returned ErrorCode.mpiSend.value }
      else none
    -- `break`: the stop signals are sent, and their code is returned
    | .recvIndex | .recvStates _ _ => some failed.stop
    -- the loop goes on as if the plate had been sent
    | .reply _ =>
      if toSizeT s.protocol.currentPlateIdx < job.platesCount then
        some { failed with protocol := { s.protocol with
          master := .recvIndex
          currentPlateIdx := s.protocol.currentPlateIdx + 1
          availableWorkers := s.protocol.availableWorkers - 1 } }
      else none
    | .stopWorkers processNumber =>
      if processNumber < mpi.processCount then
        some { failed with phase := .returned ErrorCode.mpiSend.value }
      else none
    | .left => none

/-- The messages of a worker: without a failure as in `jobWorkerProcess`. -/
def jobWorkerProcess (job : Job) (s : Session) (rank : ℕ) (succeeds : Bool) : Option Session :=
  let transmitted := if succeeds then
      (OmpMpi.jobWorkerProcess job s.protocol rank).map
        fun protocol => { s with protocol := protocol }
    else some ((s.fail (.worker rank)).leave rank)
  match (s.protocol.worker rank).pc with
  | .recv | .sendIndex _ => transmitted
  -- the count is read from the job, which a failed plate may have destroyed
  | .sendStates _ => if s.jobLive rank then transmitted else some (s.crash rank)
  | .processPlate _ | .left => none

def workerPlate (job : Job) (s : Session) (rank : ℕ) (outcome : PlateOutcome) : Option Session :=
  match (s.protocol.worker rank).pc with
  | .processPlate i =>
    (OmpMpi.jobWorkerProcess job s.protocol rank).map fun protocol =>
      let next := { s with protocol := protocol }
      match outcome with
      | .written => { next with done := s.done ++ [toSizeT i] }
      | .cellsNotRead => next.fail (.plate outcome)
      -- `clean_plate` destroys the job, and the worker sends the index of the plate
      | .notNamed =>
        { next.fail (.plate outcome) with jobLive := Function.update s.jobLive rank false }
      -- a null matrix is destroyed, a null file is closed
      | .notLoaded | .notOpened => (s.fail (.plate outcome)).crash rank
  | _ => none

/-- `report_results`, whose code `simulate` ignores. -/
def reportResults (s : Session) (outcome : ReportOutcome) : Session :=
  match outcome with
  | .written => { s with phase := .returned 0, reportWritten := true }
  -- `simulate` returns success
  | .notNamed | .notOpened => { s.fail (.report outcome) with phase := .returned 0 }

/-- Without `mpi` the process is alone. -/
def step (job : Job) (mpi : Option Mpi) (s : Session) (a : Action) : Option Session :=
  match a, mpi with
  | .plate outcome, none =>
    match s.phase with
    | .processPlates plateNumber => some (processPlates job s plateNumber outcome)
    | _ => none
  | .master source succeeds, some mpi =>
    if s.phase = .master then jobMasterProcess job mpi s source succeeds else none
  | .worker rank succeeds, some mpi =>
    if rank ∈ ranks mpi ∧ s.undefined rank = false then jobWorkerProcess job s rank succeeds
    else none
  | .workerPlate rank outcome, some mpi =>
    if rank ∈ ranks mpi ∧ s.undefined rank = false then workerPlate job s rank outcome else none
  | .report outcome, _ => if s.phase = .report then some (reportResults s outcome) else none
  | _, _ => none

def alone : State where
  master := .left
  currentPlateIdx := 0
  availableWorkers := 0
  kStates := fun _ => 0
  worker := fun _ => ⟨.left, fun _ => 0⟩
  toWorker := fun _ => []
  toMaster := fun _ => []
  assigned := []
  reported := []

def begin (job : Job) (mpi : Option Mpi) : Session where
  phase := if mpi.isSome then .master else .processPlates 0
  protocol := mpi.elim alone (start job)
  jobLive := fun _ => true
  undefined := fun _ => false
  done := []
  reportWritten := false
  failures := []

def system (job : Job) (mpi : Option Mpi) : System Session Action := ⟨begin job mpi, step job mpi⟩

/-- The failures whose code reaches `simulate`: the sends of the first plates and of the stop
signals. -/
def Failure.Returned : Failure → Prop
  | .master (.distribute _) => True
  | .master (.stopWorkers _) => True
  | _ => False

section Steps

variable {job : Job} {mpi : Mpi} {s t : Session} {source rank : ℕ} {succeeds : Bool}

theorem processPlates_cases (job : Job) (s : Session) (n : ℕ) (outcome : PlateOutcome) :
    (n < job.platesCount ∧ processPlates job s n outcome = { s with
      phase := .processPlates (n + 1)
      protocol := { s.protocol with kStates := processPlate job s.protocol.kStates n }
      done := s.done ++ [n] }) ∨
    (job.platesCount ≤ n ∧ processPlates job s n outcome = { s with phase := .report }) ∨
    (processPlates job s n outcome).failures = s.failures ++ [.plate outcome] := by
  by_cases hn : n < job.platesCount
  · simp only [processPlates, if_pos hn]
    cases outcome with
    | written => exact .inl ⟨hn, rfl⟩
    | _ => exact .inr (.inr rfl)
  · exact .inr (.inl ⟨not_lt.mp hn, by rw [processPlates, if_neg hn]⟩)

theorem jobMasterProcess_cases (h : jobMasterProcess job mpi s source succeeds = some t) :
    (∃ protocol, OmpMpi.jobMasterProcess job mpi s.protocol source = some protocol ∧
      t = { s with
        protocol := protocol
        phase := if protocol.master = .left then .report else .master }) ∨
    (t.failures = s.failures ++ [.master s.protocol.master] ∧
      ((Failure.master s.protocol.master).Returned →
        t.phase = .returned ErrorCode.mpiSend.value)) := by
  cases succeeds with
  | true =>
    obtain ⟨protocol, hp, rfl⟩ := Option.map_eq_some_iff.mp h
    exact .inl ⟨protocol, hp, rfl⟩
  | false =>
    right
    simp only [jobMasterProcess, Bool.false_eq_true, if_false] at h
    cases hm : s.protocol.master <;> simp only [hm] at h
    case distribute | stopWorkers =>
      split_ifs at h
      cases h
      exact ⟨rfl, fun _ => rfl⟩
    case recvIndex | recvStates =>
      cases h
      exact ⟨rfl, fun hf => hf.elim⟩
    case reply =>
      split_ifs at h
      cases h
      exact ⟨rfl, fun hf => hf.elim⟩
    case left => cases h

theorem jobWorkerProcess_cases (h : jobWorkerProcess job s rank succeeds = some t) :
    (∃ protocol, OmpMpi.jobWorkerProcess job s.protocol rank = some protocol ∧
      (∀ i, (s.protocol.worker rank).pc ≠ .processPlate i) ∧ t = { s with protocol := protocol }) ∨
    (t.failures = s.failures ++ [.worker rank] ∧ t.phase = s.phase) ∨
    (s.jobLive rank = false ∧ t = s.crash rank) := by
  have htransmitted : ∀ {r : Option Session}, (r = if succeeds then
      (OmpMpi.jobWorkerProcess job s.protocol rank).map
        fun protocol => { s with protocol := protocol }
      else some ((s.fail (.worker rank)).leave rank)) → r = some t →
      (∃ protocol, OmpMpi.jobWorkerProcess job s.protocol rank = some protocol ∧
        t = { s with protocol := protocol }) ∨
        (t.failures = s.failures ++ [.worker rank] ∧ t.phase = s.phase) := by
    rintro r rfl h
    cases succeeds with
    | true =>
      obtain ⟨protocol, hp, rfl⟩ := Option.map_eq_some_iff.mp h
      exact .inl ⟨protocol, hp, rfl⟩
    | false =>
      cases h
      exact .inr ⟨rfl, rfl⟩
  simp only [jobWorkerProcess] at h
  cases hpc : (s.protocol.worker rank).pc <;> simp only [hpc] at h
  case recv | sendIndex =>
    obtain ⟨protocol, hp, ht⟩ | hfail := htransmitted rfl h
    · exact .inl ⟨protocol, hp, fun _ => by simp, ht⟩
    · exact .inr (.inl hfail)
  case sendStates =>
    by_cases hlive : s.jobLive rank
    · rw [if_pos hlive] at h
      obtain ⟨protocol, hp, ht⟩ | hfail := htransmitted rfl h
      · exact .inl ⟨protocol, hp, fun _ => by simp, ht⟩
      · exact .inr (.inl hfail)
    · rw [if_neg hlive] at h
      exact .inr (.inr ⟨eq_false_of_ne_true hlive, (Option.some.inj h).symm⟩)
  case processPlate | left => cases h

theorem workerPlate_cases {outcome : PlateOutcome} (h : workerPlate job s rank outcome = some t) :
    (∃ i protocol, (s.protocol.worker rank).pc = .processPlate i ∧
      OmpMpi.jobWorkerProcess job s.protocol rank = some protocol ∧
      t = { s with protocol := protocol, done := s.done ++ [toSizeT i] }) ∨
    (t.failures = s.failures ++ [.plate outcome] ∧ t.phase = s.phase) := by
  unfold workerPlate at h
  cases hpc : (s.protocol.worker rank).pc <;> simp only [hpc] at h
  case processPlate i =>
    obtain ⟨protocol, hp, rfl⟩ := Option.map_eq_some_iff.mp h
    cases outcome with
    | written => exact .inl ⟨i, protocol, rfl, hp, rfl⟩
    | _ => exact .inr ⟨rfl, rfl⟩
  all_goals cases h

theorem reportResults_cases (s : Session) (outcome : ReportOutcome) :
    reportResults s outcome = { s with phase := .returned 0, reportWritten := true } ∨
    (reportResults s outcome).failures = s.failures ++ [.report outcome] := by
  cases outcome with
  | written => exact .inl rfl
  | _ => exact .inr rfl

end Steps

/-- There was a failure, and if the code of the first one is returned then process 0 has returned
it. -/
def Failed (s : Session) : Prop :=
  ∃ f rest, s.failures = f :: rest ∧ (f.Returned → s.phase = .returned ErrorCode.mpiSend.value)

section First

variable {job : Job} {mpi : Option Mpi} {s t : Session} {a : Action}

theorem failed_append {f : Failure} (h : s.failures = []) (ht : t.failures = s.failures ++ [f])
    (hf : f.Returned → t.phase = .returned ErrorCode.mpiSend.value) : Failed t :=
  ⟨f, [], by rw [ht, h, List.nil_append], hf⟩

theorem step_keeps (h : step job mpi s a = some t) : (∃ l, t.failures = s.failures ++ l) ∧
    ∀ code, s.phase = .returned code → t.phase = .returned code := by
  have hkept : t.failures = s.failures → ∃ l, t.failures = s.failures ++ l :=
    fun ht => ⟨[], by rw [ht, List.append_nil]⟩
  cases mpi with
  | none =>
    cases a with
    | plate outcome =>
      cases hp : s.phase <;> simp only [step, hp] at h
      case processPlates n =>
        refine ⟨?_, fun code hc => by cases hc⟩
        obtain rfl := Option.some.inj h
        obtain ⟨-, ht⟩ | ⟨-, ht⟩ | ht := processPlates_cases job s n outcome
        · exact hkept (by rw [ht])
        · exact hkept (by rw [ht])
        · exact ⟨_, ht⟩
      all_goals cases h
    | report outcome =>
      simp only [step] at h
      split_ifs at h with hp
      obtain rfl := Option.some.inj h
      refine ⟨?_, fun code hc => by rw [hp] at hc; cases hc⟩
      obtain ht | ht := reportResults_cases s outcome
      · exact hkept (by rw [ht])
      · exact ⟨_, ht⟩
    | _ => cases h
  | some mpi =>
    cases a with
    | plate outcome => cases h
    | master source succeeds =>
      simp only [step] at h
      split_ifs at h with hp
      refine ⟨?_, fun code hc => by rw [hp] at hc; cases hc⟩
      obtain ⟨protocol, -, rfl⟩ | ⟨ht, -⟩ := jobMasterProcess_cases h
      · exact hkept rfl
      · exact ⟨_, ht⟩
    | worker rank succeeds =>
      simp only [step] at h
      split_ifs at h
      obtain ⟨protocol, -, -, rfl⟩ | ⟨ht, hphase⟩ | ⟨-, rfl⟩ := jobWorkerProcess_cases h
      · exact ⟨hkept rfl, fun _ hc => hc⟩
      · exact ⟨⟨_, ht⟩, fun code hc => hphase.trans hc⟩
      · exact ⟨hkept rfl, fun _ hc => hc⟩
    | workerPlate rank outcome =>
      simp only [step] at h
      split_ifs at h
      obtain ⟨i, protocol, -, -, rfl⟩ | ⟨ht, hphase⟩ := workerPlate_cases h
      · exact ⟨hkept rfl, fun _ hc => hc⟩
      · exact ⟨⟨_, ht⟩, fun code hc => hphase.trans hc⟩
    | report outcome =>
      simp only [step] at h
      split_ifs at h with hp
      obtain rfl := Option.some.inj h
      refine ⟨?_, fun code hc => by rw [hp] at hc; cases hc⟩
      obtain ht | ht := reportResults_cases s outcome
      · exact hkept (by rw [ht])
      · exact ⟨_, ht⟩

theorem Failed.step (hs : Failed s) (h : step job mpi s a = some t) : Failed t := by
  obtain ⟨f, rest, hf, hphase⟩ := hs
  obtain ⟨⟨l, hl⟩, hkeeps⟩ := step_keeps h
  exact ⟨f, rest ++ l, by rw [hl, hf, List.cons_append], fun hr => hkeeps _ (hphase hr)⟩

end First

structure Recorded (s : State) (done : List ℕ) : Prop where
  worker : ∀ rank i, (s.worker rank).pc = .sendIndex i ∨ (s.worker rank).pc = .sendStates i →
    toSizeT i ∈ done
  sent : ∀ rank, ∀ m ∈ s.toMaster rank, m.origin = .index → toSizeT m.data ∈ done
  taken : ∀ i source, s.master = .recvStates i source → toSizeT i ∈ done
  reported : ∀ i ∈ s.reported, toSizeT i ∈ done

section Record

variable {job : Job} {mpi : Mpi} {s t : State} {done done' : List ℕ} {rank source : ℕ}

theorem Recorded.jobWorkerProcess (hs : Recorded s done) (hsub : done ⊆ done')
    (hdone : ∀ i, (s.worker rank).pc = .processPlate i → toSizeT i ∈ done')
    (h : OmpMpi.jobWorkerProcess job s rank = some t) : Recorded t done' := by
  obtain ⟨ib, w, ob, rfl, hst⟩ := jobWorkerProcess_some h
  have hworker := hs.worker rank
  have hsent := hs.sent rank
  refine ⟨fun v i hv => ?_, fun v m hm hi => ?_, fun i src hm => hsub (hs.taken i src hm),
    fun i hi => hsub (hs.reported i hi)⟩
  · by_cases hvr : v = rank
    · subst hvr
      simp only [setWorker, Function.update_self] at hv
      generalize s.toWorker v = ib', s.worker v = w', s.toMaster v = ob' at hst hworker hdone
      cases hst with
      | recv => split_ifs at hv <;> simp at hv
      | process =>
        obtain hv | hv := hv <;> cases hv
        exact hdone i rfl
      | index =>
        obtain hv | hv := hv <;> cases hv
        exact hsub (hworker i (.inl rfl))
      | states => simp at hv
    · simp only [setWorker, Function.update_of_ne hvr] at hv
      exact hsub (hs.worker v i hv)
  · by_cases hvr : v = rank
    · subst hvr
      simp only [setWorker, Function.update_self] at hm
      generalize s.toWorker v = ib', s.worker v = w', s.toMaster v = ob' at hst hworker hsent
      cases hst with
      | recv | process => exact hsub (hsent m hm hi)
      | @index i =>
        obtain hm | hm := List.mem_append.mp hm
        · exact hsub (hsent m hm hi)
        · rw [List.mem_singleton.mp hm]
          exact hsub (hworker i (.inl rfl))
      | states =>
        obtain hm | hm := List.mem_append.mp hm
        · exact hsub (hsent m hm hi)
        · rw [List.mem_singleton.mp hm] at hi
          cases hi
    · simp only [setWorker, Function.update_of_ne hvr] at hm
      exact hsub (hs.sent v m hm hi)

theorem Recorded.jobMasterProcess (hr : (OmpMpi.system job mpi).Reachable s) (hs : Recorded s done)
    (h : OmpMpi.jobMasterProcess job mpi s source = some t) : Recorded t done := by
  have hmove : ∀ {t : State}, t.worker = s.worker → t.toMaster = s.toMaster →
      t.reported = s.reported → (∀ i src, t.master ≠ .recvStates i src) → Recorded t done := by
    intro t hw hm hrep hne
    refine ⟨by rw [hw]; exact hs.worker, by rw [hm]; exact hs.sent,
      fun i src h => absurd h (hne i src), by rw [hrep]; exact hs.reported⟩
  have hrest : ∀ {src : ℕ} {m : Message} {rest : List Message}, s.toMaster src = m :: rest →
      ∀ v, ∀ m ∈ Function.update s.toMaster src rest v, m.origin = .index →
        toSizeT m.data ∈ done := by
    intro src m rest ho v m' hm'
    by_cases hv : v = src
    · rw [hv, Function.update_self] at hm'
      exact hs.sent src m' (by rw [ho]; exact List.mem_cons_of_mem m hm')
    · rw [Function.update_of_ne hv] at hm'
      exact hs.sent v m' hm'
  unfold OmpMpi.jobMasterProcess at h
  split at h
  next n hm =>
    split at h
    · obtain ⟨-, rfl⟩ := assign_some h
      exact hmove rfl rfl rfl fun i src => by simp
    · cases h
      exact hmove rfl rfl rfl fun i src => by simp
  next hm =>
    split_ifs at h with hrank
    split at h
    next => cases h
    next m rest ho =>
      obtain ⟨holds, I⟩ := reachable_inv hr
      obtain ⟨i, -, hi, -⟩ := (I.plain (hm ▸ quiet_recvIndex) (mem_ranks.mpr hrank)).head ho
      have hdone : toSizeT m.data ∈ done :=
        hs.sent source m (by rw [ho]; exact List.mem_cons_self) (by rw [hi])
      obtain rfl := Option.some.inj h
      refine ⟨hs.worker, hrest ho, fun j src hj => ?_, hs.reported⟩
      obtain ⟨rfl, -⟩ := MasterPc.recvStates.inj hj
      exact hdone
  next i src hm =>
    split at h
    next => cases h
    next m rest ho =>
      obtain rfl := Option.some.inj h
      refine ⟨hs.worker, hrest ho, fun _ _ hj => (by cases hj), fun j hj => ?_⟩
      obtain hj | hj := List.mem_append.mp hj
      · exact hs.reported j hj
      · rw [List.mem_singleton.mp hj]
        exact hs.taken i src hm
  next src hm =>
    split at h
    · obtain ⟨-, rfl⟩ := assign_some h
      exact hmove rfl rfl rfl fun i src => by simp
    · split at h <;> cases h
      · exact hmove rfl rfl rfl fun i src => by simp
      · exact hmove rfl rfl rfl fun i src => by simp
  next n hm =>
    split at h <;> cases h
    · exact hmove rfl rfl rfl fun i src => by simp
    · exact hmove rfl rfl rfl fun i src => by simp
  next => cases h

end Record

section Clean

variable {job : Job} {mpi : Option Mpi} {s t : Session} {a : Action}

/-- A process alone has done the plates so far. -/
def Alone (job : Job) (s : Session) : Prop :=
  (∃ n ≤ job.platesCount, s.phase = .processPlates n ∧ s.done = List.range n) ∨
    s.done = List.range job.platesCount ∧
      (s.phase = .report ∨ s.phase = .returned 0 ∧ s.reportWritten = true)

/-- Master and workers behave as without failures, and the master is past its loop before it
reports. -/
structure Together (job : Job) (mpi : Mpi) (s : Session) : Prop where
  reachable : (OmpMpi.system job mpi).Reachable s.protocol
  recorded : Recorded s.protocol s.done
  live : ∀ rank, s.jobLive rank = true
  phase : s.phase = .master ∨ s.protocol.master = .left ∧
    (s.phase = .report ∨ s.phase = .returned 0 ∧ s.reportWritten = true)

def Clean (job : Job) (mpi : Option Mpi) (s : Session) : Prop :=
  s.failures = [] ∧
    match mpi with
    | none => Alone job s
    | some mpi => Together job mpi s

theorem report_cases {outcome : ReportOutcome} (hnone : s.failures = [])
    (h : step job mpi s (.report outcome) = some t) : s.phase = .report ∧
      (t = { s with phase := .returned 0, reportWritten := true } ∨ Failed t) := by
  have hstep : (if s.phase = .report then some (reportResults s outcome) else none) = some t := by
    cases mpi <;> exact h
  split_ifs at hstep with hphase
  obtain rfl := Option.some.inj hstep
  obtain ht | ht := reportResults_cases s outcome
  · exact ⟨hphase, .inl ht⟩
  · exact ⟨hphase, .inr (failed_append hnone ht fun hr => hr.elim)⟩

theorem Together.worker {mpi : Mpi} {rank : ℕ} {protocol : State} {done : List ℕ}
    (hs : Together job mpi s) (hrank : rank ∈ ranks mpi)
    (h : OmpMpi.jobWorkerProcess job s.protocol rank = some protocol) (hsub : s.done ⊆ done)
    (hdone : ∀ i, (s.protocol.worker rank).pc = .processPlate i → toSizeT i ∈ done) :
    Together job mpi { s with protocol := protocol, done := done } := by
  have hstep : (OmpMpi.system job mpi).step s.protocol (.worker rank) = some protocol := by
    rw [← h]
    exact if_pos (mem_ranks.mp hrank)
  refine ⟨hs.reachable.step hstep, hs.recorded.jobWorkerProcess hsub hdone h, hs.live, ?_⟩
  obtain ⟨ib, w, ob, rfl, -⟩ := jobWorkerProcess_some h
  exact hs.phase

theorem Alone.plate {outcome : PlateOutcome} (hs : Alone job s) (hnone : s.failures = [])
    (h : step job none s (.plate outcome) = some t) : Clean job none t ∨ Failed t := by
  cases hp : s.phase <;> simp only [Failures.step, hp] at h
  case processPlates n =>
    obtain ⟨m, hm, hpm, hdone⟩ | ⟨-, hph⟩ := hs
    · rw [hp] at hpm
      cases hpm
      obtain rfl := Option.some.inj h
      obtain ⟨hlt, ht⟩ | ⟨hle, ht⟩ | ht := processPlates_cases job s n outcome
      · rw [ht]
        refine .inl ⟨hnone, .inl ⟨n + 1, hlt, rfl, ?_⟩⟩
        rw [hdone, List.range_succ]
      · rw [ht]
        refine .inl ⟨hnone, .inr ⟨?_, .inl rfl⟩⟩
        rw [hdone, le_antisymm hm hle]
      · exact .inr (failed_append hnone ht fun hr => hr.elim)
    · rw [hp] at hph
      simp at hph
  all_goals cases h

theorem Alone.report {outcome : ReportOutcome} (hs : Alone job s) (hnone : s.failures = [])
    (h : step job none s (.report outcome) = some t) : Clean job none t ∨ Failed t := by
  obtain ⟨hphase, rfl | hfailed⟩ := report_cases hnone h
  · obtain ⟨m, -, hpm, -⟩ | ⟨hdone, -⟩ := hs
    · rw [hphase] at hpm
      cases hpm
    · exact .inl ⟨hnone, .inr ⟨hdone, .inr ⟨rfl, rfl⟩⟩⟩
  · exact .inr hfailed

theorem Together.master {mpi : Mpi} {source : ℕ} {succeeds : Bool} (hs : Together job mpi s)
    (hnone : s.failures = []) (h : step job (some mpi) s (.master source succeeds) = some t) :
    Clean job (some mpi) t ∨ Failed t := by
  simp only [Failures.step] at h
  split_ifs at h with hp
  obtain ⟨protocol, hprotocol, rfl⟩ | ⟨ht, hr⟩ := jobMasterProcess_cases h
  · refine .inl ⟨hnone, hs.reachable.step (a := .master source) hprotocol,
      hs.recorded.jobMasterProcess hs.reachable hprotocol, hs.live, ?_⟩
    dsimp only
    split_ifs with hleft
    · exact .inr ⟨hleft, .inl rfl⟩
    · exact .inl rfl
  · exact .inr (failed_append hnone ht hr)

theorem Together.workerMoves {mpi : Mpi} {rank : ℕ} {succeeds : Bool} (hs : Together job mpi s)
    (hnone : s.failures = []) (h : step job (some mpi) s (.worker rank succeeds) = some t) :
    Clean job (some mpi) t ∨ Failed t := by
  simp only [Failures.step] at h
  split_ifs at h with hrank
  obtain ⟨protocol, hprotocol, hne, rfl⟩ | ⟨ht, -⟩ | ⟨hdead, -⟩ := jobWorkerProcess_cases h
  · exact .inl ⟨hnone, hs.worker hrank.1 hprotocol (List.Subset.refl _)
      fun i hi => absurd hi (hne i)⟩
  · exact .inr (failed_append hnone ht fun hr => hr.elim)
  · exact absurd (hs.live rank) (by rw [hdead]; exact Bool.false_ne_true)

theorem Together.workerPlate {mpi : Mpi} {rank : ℕ} {outcome : PlateOutcome}
    (hs : Together job mpi s) (hnone : s.failures = [])
    (h : step job (some mpi) s (.workerPlate rank outcome) = some t) :
    Clean job (some mpi) t ∨ Failed t := by
  simp only [Failures.step] at h
  split_ifs at h with hrank
  obtain ⟨i, protocol, hpc, hprotocol, rfl⟩ | ⟨ht, -⟩ := workerPlate_cases h
  · refine .inl ⟨hnone, hs.worker hrank.1 hprotocol (List.subset_append_left _ _) fun j hj => ?_⟩
    rw [hpc] at hj
    obtain rfl := WorkerPc.processPlate.inj hj
    exact List.mem_append_right _ List.mem_cons_self
  · exact .inr (failed_append hnone ht fun hr => hr.elim)

theorem Together.report {mpi : Mpi} {outcome : ReportOutcome} (hs : Together job mpi s)
    (hnone : s.failures = []) (h : step job (some mpi) s (.report outcome) = some t) :
    Clean job (some mpi) t ∨ Failed t := by
  obtain ⟨hphase, rfl | hfailed⟩ := report_cases hnone h
  · obtain hp | ⟨hleft, -⟩ := hs.phase
    · rw [hphase] at hp
      cases hp
    · exact .inl ⟨hnone, hs.reachable, hs.recorded, hs.live, .inr ⟨hleft, .inr ⟨rfl, rfl⟩⟩⟩
  · exact .inr hfailed

theorem Clean.step (hs : Clean job mpi s) (h : step job mpi s a = some t) :
    Clean job mpi t ∨ Failed t := by
  obtain ⟨hnone, hs⟩ := hs
  cases mpi with
  | none =>
    cases a with
    | plate outcome => exact hs.plate hnone h
    | report outcome => exact hs.report hnone h
    | _ => cases h
  | some mpi =>
    cases a with
    | plate outcome => cases h
    | master source succeeds => exact hs.master hnone h
    | worker rank succeeds => exact hs.workerMoves hnone h
    | workerPlate rank outcome => exact hs.workerPlate hnone h
    | report outcome => exact hs.report hnone h

end Clean

end Concurrente.OmpMpi.Failures
