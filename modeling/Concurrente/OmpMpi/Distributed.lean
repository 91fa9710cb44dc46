import Concurrente.OmpMpi.PlateOrder
import Concurrente.OmpMpi.Results

/-!
# The distributed simulation

The processes of `simulate` on a job in a directory: the messages of `jobMasterProcess` and
`jobWorkerProcess`, and the files that `process_plate` reads and writes while the others go on.
-/

namespace Concurrente.OmpMpi.Distributed

open Heat SetJob PlateOrder CString
open Heat.Memory (Header PlateFile)

variable {δ : Type} [Temperature δ]

/-- The processes with their messages, the files, and the plate file that a worker has loaded. -/
structure Cluster (κ δ : Type) where
  processes : State
  files : κ → Option (PlateFile δ)
  loaded : ℕ → Option (PlateFile δ)

section Code

variable {n : ℕ} {κ : Type} [DecidableEq κ] (mpi : Mpi) (threads : ℕ) (resolve : Text → κ)
  (sourceDirectory : Text) (plates : Fin n → Plate δ) (hn : n < 2 ^ 61)

/-- The job that every process has read.  What simulating a plate takes is left to the files. -/
def readJob (simulated : ℕ → BitVec 64) : Job :=
  ⟨n, fun i => if h : i < n then BitVec.ofNat 64 (plates ⟨i, h⟩).intervalDuration else 0,
    simulated, hn⟩

/-- The worker ends `process_plate` with a number of states. -/
def endPlate (s : State) (rank : ℕ) (i : CInt) (kStates : ℕ) : State :=
  { s with
    worker := Function.update s.worker rank ⟨.sendIndex i,
      Function.update (s.worker rank).kStates (toSizeT i)
        ((s.worker rank).kStates (toSizeT i) + BitVec.ofNat 64 kStates)⟩ }

/-- One step of a process.  Every call succeeds, as in `Processes`. -/
inductive Step : Cluster κ δ → Cluster κ δ → Prop
  | exchange {c : Cluster κ δ} {a s}
    (ha : ∀ rank i, a = .worker rank → (c.processes.worker rank).pc ≠ .processPlate i)
    (hs : (system (readJob plates hn fun _ => 0) mpi).step c.processes a = some s) :
    Step c { c with processes := s }
  -- `set_plate_matrix`
  | load {c : Cluster κ δ} {rank i path file} {j : Fin n} (hrank : rank ∈ ranks mpi)
    (hpc : (c.processes.worker rank).pc = .processPlate i) (hj : toSizeT i = j)
    (hnone : c.loaded rank = none)
    (hpath : buildFilePath memory (some sourceDirectory) (some (plates j).fileName) = some path)
    (hfile : c.files (resolve path) = some file) :
    Step c { c with loaded := Function.update c.loaded rank (some file) }
  -- `equilibrate_plate` and `update_plate_file`
  | write {c : Cluster κ δ} {rank i file output k name outputPath} {j : Fin n}
    (hrank : rank ∈ ranks mpi)
    (hpc : (c.processes.worker rank).pc = .processPlate i) (hj : toSizeT i = j)
    (hfile : c.loaded rank = some file) (hsim : Simulates threads (plates j) file output k)
    (hname : setPlateFileName memory (plates j).fileName k = some name)
    (hpath : buildFilePath memory (some sourceDirectory) (some name) = some outputPath) :
    Step c ⟨endPlate c.processes rank i k,
      Function.update c.files (resolve outputPath) (some output),
      Function.update c.loaded rank none⟩

def Path : Cluster κ δ → Cluster κ δ → Prop :=
  Relation.ReflTransGen (Step mpi threads resolve sourceDirectory plates hn)

def begin (files : κ → Option (PlateFile δ)) : Cluster κ δ :=
  ⟨start (readJob plates hn fun _ => 0) mpi, files, fun _ => none⟩

def Reachable (files : κ → Option (PlateFile δ)) : Cluster κ δ → Prop :=
  Path mpi threads resolve sourceDirectory plates hn (begin mpi plates hn files)

end Code

section Simulation

variable {n : ℕ} {κ : Type} [DecidableEq κ] {mpi : Mpi} {threads : ℕ} {resolve : Text → κ}
  {sourceDirectory : Text} {plates : Fin n → Plate δ} {hn : n < 2 ^ 61}
  {files : κ → Option (PlateFile δ)} {c c' : Cluster κ δ}
  {output : Fin n → PlateFile δ} {kStates : Fin n → ℕ} {name : Fin n → Text}

/-- The states that the separate plates take. -/
def simulated (kStates : Fin n → ℕ) (i : ℕ) : BitVec 64 :=
  if h : i < n then BitVec.ofNat 64 (kStates ⟨i, h⟩) else 0

/-- The job with the states that its plates take. -/
abbrev job (plates : Fin n → Plate δ) (hn : n < 2 ^ 61) (kStates : Fin n → ℕ) : Job :=
  readJob plates hn (simulated kStates)

theorem simulated_eq {i : ℕ} {j : Fin n} (h : i = j) :
    simulated kStates i = BitVec.ofNat 64 (kStates j) := by
  subst h
  rw [simulated, dif_pos j.isLt]

omit [Temperature δ] in
theorem step_eq (kStates : Fin n → ℕ) {s : State} {a : Action}
    (ha : ∀ rank i, a = .worker rank → (s.worker rank).pc ≠ .processPlate i) :
    (system (readJob plates hn fun _ => 0) mpi).step s a =
      (system (job plates hn kStates) mpi).step s a := by
  cases a with
  | master source => rfl
  | worker rank =>
    have hpc := ha rank
    simp only [system, jobWorkerProcess]
    cases h : (s.worker rank).pc with
    | processPlate i => exact absurd h (hpc i rfl)
    | _ => rfl

omit [Temperature δ] in
theorem endPlate_step {s : State} {rank : ℕ} {i : CInt} {j : Fin n} (hrank : rank ∈ ranks mpi)
    (hpc : (s.worker rank).pc = .processPlate i) (hj : toSizeT i = j) :
    (system (job plates hn kStates) mpi).step s (.worker rank) =
      some (endPlate s rank i (kStates j)) := by
  simp only [system, if_pos (mem_ranks.mp hrank), jobWorkerProcess, hpc, processPlate, endPlate]
  rw [show (job plates hn kStates).simulated = simulated kStates from rfl, simulated_eq hj]

end Simulation

/-- The plates that a worker reports, whose index is on its way, and that the master has taken are
among `written`. -/
structure Reporting (s : State) (written : CInt → Prop) : Prop where
  worker : ∀ rank i, (s.worker rank).pc = .sendIndex i ∨ (s.worker rank).pc = .sendStates i →
    written i
  sent : ∀ rank, ∀ m ∈ s.toMaster rank, m.origin = .index → written m.data
  received : ∀ i source, s.master = .recvStates i source → written i
  reported : ∀ i ∈ s.reported, written i

section Reporting

variable {job : Job} {mpi : Mpi} {s t : State} {rank : ℕ} {written written' : CInt → Prop}

theorem Reporting.mono (h : Reporting s written) (hw : ∀ i, written i → written' i) :
    Reporting s written' :=
  ⟨fun rank i hi => hw i (h.worker rank i hi), fun rank m hm ho => hw _ (h.sent rank m hm ho),
    fun i source hi => hw i (h.received i source hi), fun i hi => hw i (h.reported i hi)⟩

theorem Reporting.frame (h : Reporting s written) (hw : t.worker = s.worker)
    (hs : t.toMaster = s.toMaster) (hm : ∀ i source, t.master ≠ .recvStates i source)
    (hr : t.reported = s.reported) : Reporting t written where
  worker rank i hi := h.worker rank i (hw ▸ hi)
  sent rank m hm := h.sent rank m (hs ▸ hm)
  received i source hi := absurd hi (hm i source)
  reported i hi := h.reported i (hr ▸ hi)

theorem Reporting.sent_rest (h : Reporting s written) {m : Message} {rest : List Message}
    (ho : s.toMaster rank = m :: rest) (r : ℕ) :
    ∀ m ∈ Function.update s.toMaster rank rest r, m.origin = .index → written m.data := by
  intro m hm
  by_cases hr : r = rank
  · subst hr
    rw [Function.update_self] at hm
    exact h.sent r m (ho ▸ List.mem_cons_of_mem _ hm)
  · rw [Function.update_of_ne hr] at hm
    exact h.sent r m hm

theorem Reporting.master (h : Reporting s written) (hr : (system job mpi).Reachable s)
    {source : ℕ} (hs : jobMasterProcess job mpi s source = some t) : Reporting t written := by
  unfold jobMasterProcess at hs
  split at hs
  next =>
    split at hs
    next =>
      obtain ⟨-, rfl⟩ := assign_some hs
      exact h.frame rfl rfl (by rintro i source ⟨⟩) rfl
    next => cases hs; exact h.frame rfl rfl (by rintro i source ⟨⟩) rfl
  next hm =>
    split at hs
    next hrank =>
      split at hs <;> cases hs
      next m rest ho =>
        obtain ⟨holds, I⟩ := reachable_inv hr
        obtain ⟨i, -, rfl, -⟩ := (I.plain (hm ▸ quiet_recvIndex) (mem_ranks.mpr hrank)).head ho
        refine ⟨h.worker, h.sent_rest ho, ?_, h.reported⟩
        rintro j source' ⟨⟩
        exact h.sent source _ (ho ▸ List.mem_cons_self) rfl
    next => cases hs
  next i rank hm =>
    split at hs <;> cases hs
    next m rest ho =>
      refine ⟨h.worker, h.sent_rest ho, by rintro j source' ⟨⟩, fun j hj => ?_⟩
      obtain hj | hj := List.mem_append.mp hj
      · exact h.reported j hj
      · obtain rfl := List.mem_singleton.mp hj
        exact h.received j rank hm
  next =>
    split at hs
    next =>
      obtain ⟨-, rfl⟩ := assign_some hs
      exact h.frame rfl rfl (by rintro i source ⟨⟩) rfl
    next => split at hs <;> cases hs <;> exact h.frame rfl rfl (by rintro i source ⟨⟩) rfl
  next => split at hs <;> cases hs <;> exact h.frame rfl rfl (by rintro i source ⟨⟩) rfl
  next => cases hs

theorem Reporting.worker_step (h : Reporting s written)
    (hpc : ∀ i, (s.worker rank).pc ≠ .processPlate i)
    (hs : jobWorkerProcess job s rank = some t) : Reporting t written := by
  obtain ⟨ib, w, ob, rfl, hst⟩ := jobWorkerProcess_some hs
  have hworker : ∀ i, w.pc = .sendIndex i ∨ w.pc = .sendStates i → written i := by
    have hold := h.worker rank
    generalize s.toWorker rank = ib', s.worker rank = w', s.toMaster rank = ob' at hst hpc hold
    cases hst with
    | recv =>
      split_ifs
      all_goals
        rintro i (hi | hi) <;> cases hi
    | process => exact absurd rfl (hpc _)
    | index =>
      rintro i (hi | hi)
      · cases hi
      · cases hi
        exact hold _ (.inl rfl)
    | states => rintro i (hi | hi) <;> cases hi
  have hsent : ∀ m ∈ ob, m.origin = .index → written m.data := by
    have hold := h.worker rank
    have hsent := h.sent rank
    generalize s.toWorker rank = ib', s.worker rank = w', s.toMaster rank = ob' at *
    cases hst with
    | index =>
      intro m hm ho
      obtain hm | hm := List.mem_append.mp hm
      · exact hsent m hm ho
      · rw [List.mem_singleton.mp hm]
        exact hold _ (.inl rfl)
    | states =>
      intro m hm ho
      obtain hm | hm := List.mem_append.mp hm
      · exact hsent m hm ho
      · rw [List.mem_singleton.mp hm] at ho
        cases ho
    | _ => exact hsent
  refine ⟨fun r i hi => ?_, fun r m hm => ?_, h.received, h.reported⟩
  · by_cases hr : r = rank
    · subst hr
      simp only [setWorker, Function.update_self] at hi
      exact hworker i hi
    · simp only [setWorker, Function.update_of_ne hr] at hi
      exact h.worker r i hi
  · by_cases hr : r = rank
    · subst hr
      simp only [setWorker, Function.update_self] at hm
      exact hsent m hm
    · simp only [setWorker, Function.update_of_ne hr] at hm
      exact h.sent r m hm

theorem Reporting.endPlate {i : CInt} {kStates : ℕ} (h : Reporting s written) (hi : written i) :
    Reporting (endPlate s rank i kStates) written := by
  refine ⟨fun r j hj => ?_, h.sent, h.received, h.reported⟩
  by_cases hr : r = rank
  · subst hr
    simp only [Distributed.endPlate, Function.update_self] at hj
    obtain hj | hj := hj <;> cases hj
    exact hi
  · simp only [Distributed.endPlate, Function.update_of_ne hr] at hj
    exact h.worker r j hj

end Reporting

section Invariant

variable {n : ℕ} {κ : Type} [DecidableEq κ] {mpi : Mpi} {threads : ℕ} {resolve : Text → κ}
  {sourceDirectory : Text} {plates : Fin n → Plate δ} {hn : n < 2 ^ 61}
  {files : κ → Option (PlateFile δ)} {c c' : Cluster κ δ}
  {output : Fin n → PlateFile δ} {kStates : Fin n → ℕ} {name : Fin n → Text}

/-- The processes are in a state of the protocol, the files hold what the plates in `done` have
written, and a worker has loaded what its plate needs. -/
structure Invariant (mpi : Mpi) (threads : ℕ) (resolve : Text → κ) (sourceDirectory : Text)
    (plates : Fin n → Plate δ) (hn : n < 2 ^ 61) (files : κ → Option (PlateFile δ))
    (output : Fin n → PlateFile δ) (kStates : Fin n → ℕ) (c : Cluster κ δ) (done : List (Fin n))
    (result : Fin n → Option ℕ) : Prop where
  protocol : (system (job plates hn kStates) mpi).Reachable c.processes
  store : FileTask.Done (task threads resolve sourceDirectory plates) files output kStates done
    ⟨c.files, result⟩
  reporting : Reporting c.processes fun i => ∃ j ∈ done, toSizeT i = j
  loaded : ∀ rank file, c.loaded rank = some file → ∃ i, ∃ j : Fin n,
    (c.processes.worker rank).pc = .processPlate i ∧ toSizeT i = j ∧
      Simulates threads (plates j) file (output j) (kStates j)

theorem Invariant.input (ht : 1 ≤ threads)
    (hsep : Separate threads resolve sourceDirectory plates files output kStates name)
    {done : List (Fin n)} {result : Fin n → Option ℕ}
    (I : Invariant mpi threads resolve sourceDirectory plates hn files output kStates c done result)
    (j : Fin n) : ∃ file, c.files (resolve (filePath sourceDirectory (plates j).fileName)) =
      some file ∧ Simulates threads (plates j) file (output j) (kStates j) := by
  have hinput := I.store.input ((separate_task ht hsep.named).mpr hsep) j
  obtain ⟨file, hfile, heval⟩ := Option.bind_eq_some_iff.mp hinput
  exact ⟨file, hfile, ((evaluate_eq_some ht).mp heval).1⟩

theorem worker_of_master {s t : State} {source : ℕ} {job : Job}
    (hs : jobMasterProcess job mpi s source = some t) : t.worker = s.worker := by
  unfold jobMasterProcess at hs
  repeat' split at hs
  all_goals first
    | cases hs <;> rfl
    | obtain ⟨-, rfl⟩ := assign_some hs; rfl

theorem pc_of_exchange {s t : State} {a : Action} {rank : ℕ} {i : CInt} {job : Job}
    (hs : (system job mpi).step s a = some t) (ha : ∀ rank i, a = .worker rank →
      (s.worker rank).pc ≠ .processPlate i) (hpc : (s.worker rank).pc = .processPlate i) :
    (t.worker rank).pc = .processPlate i := by
  cases a with
  | master source => rwa [worker_of_master hs]
  | worker rank' =>
    have hne : rank ≠ rank' := by
      rintro rfl
      exact ha rank i rfl hpc
    simp only [system] at hs
    split_ifs at hs
    obtain ⟨ib, w, ob, rfl, -⟩ := jobWorkerProcess_some hs
    simp only [setWorker, Function.update_of_ne hne]
    exact hpc

theorem Invariant.step (ht : 1 ≤ threads)
    (hsep : Separate threads resolve sourceDirectory plates files output kStates name)
    {done : List (Fin n)} {result : Fin n → Option ℕ}
    (I : Invariant mpi threads resolve sourceDirectory plates hn files output kStates c done result)
    (hs : Step mpi threads resolve sourceDirectory plates hn c c') :
    ∃ done' result', Invariant mpi threads resolve sourceDirectory plates hn files output kStates c'
      done' result' := by
  cases hs with
  | @exchange a s ha hs =>
    rw [step_eq kStates ha] at hs
    refine ⟨done, result, I.protocol.step hs, I.store, ?_, ?_⟩
    · cases a with
      | master source => exact I.reporting.master I.protocol hs
      | worker rank =>
        simp only [system] at hs
        split_ifs at hs
        exact I.reporting.worker_step (fun i => ha rank i rfl) hs
    · intro rank file hfile
      obtain ⟨i, j, hpc, hj, hsim⟩ := I.loaded rank file hfile
      exact ⟨i, j, pc_of_exchange hs ha hpc, hj, hsim⟩
  | @load rank i path file j hrank hpc hj hnone hpath hfile =>
    refine ⟨done, result, I.protocol, I.store, I.reporting, fun r f hf => ?_⟩
    dsimp only at hf ⊢
    by_cases hr : r = rank
    · subst hr
      rw [Function.update_self] at hf
      obtain rfl := Option.some.inj hf
      rw [buildFilePath_eq] at hpath
      obtain rfl := Option.some.inj hpath
      obtain ⟨file', hfile', hsim⟩ := I.input ht hsep j
      obtain rfl := Option.some.inj (hfile.symm.trans hfile')
      exact ⟨i, j, hpc, hj, hsim⟩
    · rw [Function.update_of_ne hr] at hf
      exact I.loaded r f hf
  | @write rank i file out k nm outputPath j hrank hpc hj hfile hsim hname hpath =>
    obtain ⟨i', j', hpc', hj', hsim'⟩ := I.loaded rank file hfile
    obtain rfl := WorkerPc.processPlate.inj (hpc.symm.trans hpc')
    obtain rfl := Fin.ext (hj.symm.trans hj')
    obtain ⟨rfl, rfl⟩ := hsim.unique ht hsim'
    rw [hsep.named j] at hname
    obtain rfl := Option.some.inj hname
    rw [buildFilePath_eq] at hpath
    obtain rfl := Option.some.inj hpath
    have hstore := I.store.write ((separate_task ht hsep.named).mpr hsep) j
    have hplace : (task threads resolve sourceDirectory plates j).output (kStates j) =
        resolve (filePath sourceDirectory (name j)) := outputFile_eq (hsep.named j)
    rw [hplace] at hstore
    refine ⟨j :: done, Function.update result j (some (kStates j)),
      I.protocol.step (endPlate_step hrank hpc hj), hstore, ?_, fun r f hf => ?_⟩
    · refine Reporting.endPlate (I.reporting.mono ?_) ⟨j, List.mem_cons_self, hj⟩
      rintro i ⟨j, hj, hij⟩
      exact ⟨j, List.mem_cons_of_mem _ hj, hij⟩
    · dsimp only at hf ⊢
      by_cases hr : r = rank
      · subst hr
        rw [Function.update_self] at hf
        cases hf
      · rw [Function.update_of_ne hr] at hf
        obtain ⟨i, j, hpc, hj, hsim⟩ := I.loaded r f hf
        refine ⟨i, j, ?_, hj, hsim⟩
        simp only [endPlate, Function.update_of_ne hr]
        exact hpc

omit [DecidableEq κ] in
theorem invariant_begin :
    Invariant mpi threads resolve sourceDirectory plates hn files output kStates
      (begin mpi plates hn files) [] fun _ => none where
  protocol := System.Reachable.start
  store := FileTask.done_begin
  reporting := by
    refine ⟨?_, fun _ _ hm => absurd hm List.not_mem_nil, ?_,
      fun _ hi => absurd hi List.not_mem_nil⟩
    · rintro rank i (hi | hi) <;> cases hi
    · rintro i source ⟨⟩
  loaded := by rintro rank file ⟨⟩

theorem reachable_invariant (ht : 1 ≤ threads)
    (hsep : Separate threads resolve sourceDirectory plates files output kStates name)
    (hr : Reachable mpi threads resolve sourceDirectory plates hn files c) :
    ∃ done result, Invariant mpi threads resolve sourceDirectory plates hn files output kStates c
      done result := by
  induction hr with
  | refl => exact ⟨_, _, invariant_begin⟩
  | tail _ hs ih =>
    obtain ⟨done, result, I⟩ := ih
    exact I.step ht hsep hs

theorem index_of_processPlate {job : Job} {s : State} {rank : ℕ} {i : CInt}
    (hp : job.platesCount < 2 ^ 31) (hr : (system job mpi).Reachable s) (hrank : rank ∈ ranks mpi)
    (hpc : (s.worker rank).pc = .processPlate i) : toSizeT i < job.platesCount := by
  obtain ⟨holds, I⟩ := reachable_inv hr
  have hview := I.view rank hrank
  have hindex := fun h : holds rank = some i => I.held_lt hrank h
  generalize s.toWorker rank = ib, s.worker rank = w, s.toMaster rank = ob at hview hpc
  have hholds : holds rank = some i := by
    cases hh : holds rank with
    | none =>
      rw [hh] at hview
      by_cases hstop : s.master.StopSent rank
      · have := hview.1 hstop (stopEnds hp)
        cases this <;> cases hpc
      · have := hview.2 hstop
        cases this
        cases hpc
    | some j =>
      rw [hh] at hview
      by_cases hm : s.master = .recvStates j rank
      · have := hview.1 hm
        cases this <;> cases hpc
      · have := hview.2 hm
        cases this <;> cases hpc
        rfl
  exact hindex hholds

theorem exists_write (ht : 1 ≤ threads)
    (hsep : Separate threads resolve sourceDirectory plates files output kStates name)
    (hr : Reachable mpi threads resolve sourceDirectory plates hn files c) {rank : ℕ} {i : CInt}
    {j : Fin n} (hrank : rank ∈ ranks mpi)
    (hpc : (c.processes.worker rank).pc = .processPlate i) (hj : toSizeT i = j) :
    ∃ c', Path mpi threads resolve sourceDirectory plates hn c c' ∧
      c'.processes = endPlate c.processes rank i (kStates j) := by
  obtain ⟨done, result, I⟩ := reachable_invariant ht hsep hr
  cases hloaded : c.loaded rank with
  | some file =>
    obtain ⟨i', j', hpc', hj', hsim⟩ := I.loaded rank file hloaded
    obtain rfl := WorkerPc.processPlate.inj (hpc.symm.trans hpc')
    obtain rfl := Fin.ext (hj.symm.trans hj')
    exact ⟨_, .single (.write hrank hpc hj hloaded hsim (hsep.named j) buildFilePath_eq), rfl⟩
  | none =>
    obtain ⟨file, hfile, hsim⟩ := I.input ht hsep j
    have hload : Step mpi threads resolve sourceDirectory plates hn c
        { c with loaded := Function.update c.loaded rank (some file) } :=
      .load hrank hpc hj hloaded buildFilePath_eq hfile
    have hupdate : Function.update c.loaded rank (some file) rank = some file :=
      Function.update_self _ _ _
    exact ⟨_, .tail (.single hload)
      (.write hrank hpc hj hupdate hsim (hsep.named j) buildFilePath_eq), rfl⟩

theorem exists_path (ht : 1 ≤ threads) (hp : n < 2 ^ 31)
    (hsep : Separate threads resolve sourceDirectory plates files output kStates name)
    (hr : Reachable mpi threads resolve sourceDirectory plates hn files c) {s : State}
    (hs : (system (job plates hn kStates) mpi).Path c.processes s) :
    ∃ c', Path mpi threads resolve sourceDirectory plates hn c c' ∧ c'.processes = s := by
  induction hs with
  | refl => exact ⟨c, .refl, rfl⟩
  | tail _ hnext ih =>
    obtain ⟨a, ha⟩ := hnext
    obtain ⟨c', hpath, rfl⟩ := ih
    by_cases hplate : ∀ rank i, a = .worker rank →
        (c'.processes.worker rank).pc ≠ .processPlate i
    · rw [← step_eq kStates hplate] at ha
      exact ⟨_, .tail hpath (.exchange hplate ha), rfl⟩
    · push Not at hplate
      obtain ⟨rank, i, rfl, hpc⟩ := hplate
      have hr' : Reachable mpi threads resolve sourceDirectory plates hn files c' :=
        Relation.ReflTransGen.trans hr hpath
      obtain ⟨done, result, I⟩ := reachable_invariant ht hsep hr'
      have hrank : rank ∈ ranks mpi := by
        by_contra hne
        simp only [system, if_neg (mt mem_ranks.mpr hne)] at ha
        cases ha
      have hlt : toSizeT i < n := index_of_processPlate hp I.protocol hrank hpc
      have hj : toSizeT i = (⟨toSizeT i, hlt⟩ : Fin n) := rfl
      rw [endPlate_step hrank hpc hj] at ha
      obtain ⟨c'', hpath', hc''⟩ := exists_write ht hsep hr' hrank hpc hj
      exact ⟨c'', hpath.trans hpath', hc''.trans (Option.some.inj ha)⟩

end Invariant

end Concurrente.OmpMpi.Distributed
