import Concurrente.OmpMpi.Invariant

/-!
# Every step keeps the invariant

A worker's step is local: it changes the worker and its two channels.  The
master's steps move a plate to a worker or take the two messages of its report.
-/

namespace Concurrente.OmpMpi

variable {job : Job} {mpi : Mpi} {s t : State} {holds : ℕ → Option CInt} {rank : ℕ}

/-- What one step of a worker does to its inbox, its position and its outbox. -/
inductive WorkerStep (job : Job) :
    List Message → Worker → List Message → List Message → Worker → List Message → Prop
  | recv {m rest k ob} : WorkerStep job (m :: rest) ⟨.recv, k⟩ ob rest
      ⟨if job.platesCount ≤ toSizeT m.data then .left else .processPlate m.data, k⟩ ob
  | process {i k ib ob} : WorkerStep job ib ⟨.processPlate i, k⟩ ob ib
      ⟨.sendIndex i, processPlate job k (toSizeT i)⟩ ob
  | index {i k ib ob} : WorkerStep job ib ⟨.sendIndex i, k⟩ ob ib ⟨.sendStates i, k⟩
      (ob ++ [⟨i, .index⟩])
  | states {i k ib ob} : WorkerStep job ib ⟨.sendStates i, k⟩ ob ib ⟨.recv, k⟩
      (ob ++ [⟨sendInt (k (toSizeT i)), .kStates i⟩])

/-- The state with one worker and its channels replaced. -/
def setWorker (s : State) (rank : ℕ) (ib : List Message) (w : Worker) (ob : List Message) :
    State :=
  { s with
    toWorker := Function.update s.toWorker rank ib
    worker := Function.update s.worker rank w
    toMaster := Function.update s.toMaster rank ob }

theorem jobWorkerProcess_some (h : jobWorkerProcess job s rank = some t) :
    ∃ ib w ob, t = setWorker s rank ib w ob ∧
      WorkerStep job (s.toWorker rank) (s.worker rank) (s.toMaster rank) ib w ob := by
  unfold jobWorkerProcess at h
  rcases hw : s.worker rank with ⟨pc, k⟩
  simp only [hw] at h
  -- one case for each statement of the loop of the worker
  cases pc with
  | recv =>
    cases hc : s.toWorker rank with
    | nil => simp [hc] at h
    | cons m rest =>
      simp only [hc, Option.some.injEq] at h
      subst h
      exact ⟨rest, _, s.toMaster rank, by simp [setWorker], .recv⟩
  | processPlate i =>
    simp only [Option.some.injEq] at h
    subst h
    exact ⟨s.toWorker rank, _, s.toMaster rank, by simp [setWorker], .process⟩
  | sendIndex i =>
    simp only [Option.some.injEq] at h
    subst h
    exact ⟨s.toWorker rank, _, _, by simp [setWorker], .index⟩
  | sendStates i =>
    simp only [Option.some.injEq] at h
    subst h
    exact ⟨s.toWorker rank, _, _, by simp [setWorker], .states⟩
  | left => simp at h

theorem WorkerStep.kStates {ib ob ib' ob' : List Message} {w w' : Worker}
    (h : WorkerStep job ib w ob ib' w' ob') (n : ℕ) (hn : ∀ i, w.pc = .processPlate i →
      toSizeT i ≠ n) : w'.kStates n = w.kStates n := by
  cases h with
  | process => exact Function.update_of_ne (fun he => hn _ rfl he.symm) _ _
  | _ => rfl

theorem Serving.step {i : CInt} {ib ob ib' ob' : List Message} {w w' : Worker}
    (hi : toSizeT i < job.platesCount) (h : Serving job i ib w ob)
    (hs : WorkerStep job ib w ob ib' w' ob') : Serving job i ib' w' ob' := by
  cases h with
  | assigned hk =>
    cases hs
    rw [if_neg (by simpa using hi)]
    exact .simulating hk
  | simulating hk =>
    cases hs
    exact .simulated (by simp [processPlate, hk])
  | simulated hk =>
    cases hs
    exact .indexSent hk
  | indexSent hk =>
    cases hs
    rw [hk]
    exact .reported
  | reported => cases hs

theorem IndexTaken.step {i : CInt} {ib ob ib' ob' : List Message} {w w' : Worker}
    (h : IndexTaken job i ib w ob) (hs : WorkerStep job ib w ob ib' w' ob') :
    IndexTaken job i ib' w' ob' := by
  cases h with
  | indexSent hk =>
    cases hs
    rw [hk]
    exact .reported
  | reported => cases hs

theorem Stopped.step {ib ob ib' ob' : List Message} {w w' : Worker} (he : StopEnds job)
    (h : Stopped job ib w ob) (hs : WorkerStep job ib w ob ib' w' ob') :
    Stopped job ib' w' ob' := by
  cases h with
  | sent =>
    cases hs
    unfold StopEnds at he
    rw [if_pos he]
    exact .left
  | left => cases hs

theorem Idle.not_step {ib ob ib' ob' : List Message} {w w' : Worker} (h : Idle ib w ob) :
    ¬ WorkerStep job ib w ob ib' w' ob' := by
  intro hs
  cases h
  cases hs

theorem View.step {m : MasterPc} {h : Option CInt} {ib ob ib' ob' : List Message} {w w' : Worker}
    (hv : View job m rank h ib w ob) (hi : ∀ i, h = some i → toSizeT i < job.platesCount)
    (hs : WorkerStep job ib w ob ib' w' ob') : View job m rank h ib' w' ob' := by
  cases h with
  | some i =>
    exact ⟨fun hm => (hv.1 hm).step hs, fun hm => (hv.2 hm).step (hi i rfl) hs⟩
  | none =>
    exact ⟨fun hm he => (hv.1 hm he).step he hs, fun hm => absurd hs (hv.2 hm).not_step⟩

theorem View.simulating {m : MasterPc} (hm : m.InLoop) {h : Option CInt} {ib ob : List Message}
    {w : Worker} (hv : View job m rank h ib w ob) {i : CInt} (hw : w.pc = .processPlate i) :
    h = some i := by
  cases h with
  | some j =>
    by_cases hj : m = .recvStates j rank
    · cases hv.1 hj <;> simp at hw
    · cases hv.2 hj <;> simp_all
  | none =>
    have hn : ¬ m.StopSent rank := by cases m <;> simp_all [MasterPc.InLoop, MasterPc.StopSent]
    cases hv.2 hn
    simp at hw

theorem Place.setWorker {ib ob : List Message} {w : Worker} :
    Place job mpi (setWorker s rank ib w ob) holds ↔ Place job mpi s holds := by
  rfl

theorem Inv.held_lt (I : Inv job mpi s holds) (hr : rank ∈ ranks mpi) {i : CInt}
    (hi : holds rank = some i) : toSizeT i < job.platesCount := by
  obtain ⟨j, hj, rfl⟩ := I.held_index hr hi
  rw [toSizeT_of_lt (hj.trans I.length_lt)]
  exact hj.trans_le I.length_le

theorem Inv.worker (I : Inv job mpi s holds) (hr : rank ∈ ranks mpi)
    (h : jobWorkerProcess job s rank = some t) : Inv job mpi t holds := by
  obtain ⟨ib, w, ob, rfl, hs⟩ := jobWorkerProcess_some h
  have hv := I.view rank hr
  refine ⟨I.current, I.length_lt, I.indices, I.length_le, I.balance, I.available, I.taken,
    ?_, ?_, Place.setWorker.mpr I.place⟩
  · intro hm j hj hj' v hv'
    by_cases hvr : v = rank
    · subst hvr
      have hk := I.unsent hm j hj hj' v hv'
      simp only [setWorker, Function.update_self]
      rw [hs.kStates _ _, hk]
      intro i hi he
      obtain ⟨j', hlt, rfl⟩ := I.held_index hr (hv.simulating hm hi)
      have := I.length_lt
      have := ofNat_injOn (by omega) hj' (toSizeT_injective he)
      change s.assigned.length ≤ j at hj
      omega
    · simpa [setWorker, hvr] using I.unsent hm j hj hj' v hv'
  · intro v hv'
    by_cases hvr : v = rank
    · subst hvr
      simpa [setWorker] using hv.step (fun i hi => I.held_lt hr hi) hs
    · simpa [setWorker, hvr] using I.view v hv'

/-- The master is in its loop and in the middle of no report. -/
def MasterPc.Quiet (m : MasterPc) : Prop := m.InLoop ∧ ∀ i w, m ≠ .recvStates i w

theorem MasterPc.InLoop.not_stopSent {m : MasterPc} (h : m.InLoop) : ¬ m.StopSent rank := by
  cases m <;> simp_all [MasterPc.InLoop, MasterPc.StopSent]

theorem Inv.plain (I : Inv job mpi s holds) (hq : s.master.Quiet) (hr : rank ∈ ranks mpi) :
    Plain job (holds rank) (s.toWorker rank) (s.worker rank) (s.toMaster rank) :=
  (view_iff_plain (fun i => hq.2 i rank) hq.1.not_stopSent).mp (I.view rank hr)

theorem view_of_plain {m : MasterPc} {h : Option CInt} {ib ob : List Message} {w : Worker}
    (hq : m.Quiet) (hp : Plain job h ib w ob) : View job m rank h ib w ob :=
  (view_iff_plain (fun i => hq.2 i rank) hq.1.not_stopSent).mpr hp

theorem quiet_distribute (n : ℕ) : (MasterPc.distribute n).Quiet := by
  simp [MasterPc.Quiet, MasterPc.InLoop]

theorem quiet_recvIndex : MasterPc.recvIndex.Quiet := by
  simp [MasterPc.Quiet, MasterPc.InLoop]

theorem quiet_reply (n : ℕ) : (MasterPc.reply n).Quiet := by
  simp [MasterPc.Quiet, MasterPc.InLoop]

theorem Inv.move {m : MasterPc} (I : Inv job mpi s holds) (hq : s.master.Quiet) (hm : m.Quiet)
    (hp : Place job mpi { s with master := m } holds) :
    Inv job mpi { s with master := m } holds :=
  ⟨I.current, I.length_lt, I.indices, I.length_le, I.balance, I.available, I.taken,
    fun _ => I.unsent hq.1, fun _ hw => view_of_plain hm (I.plain hq hw), hp⟩

theorem Inv.toSizeT_current (I : Inv job mpi s holds) :
    toSizeT s.currentPlateIdx = s.assigned.length := by
  rw [I.current, toSizeT_of_lt I.length_lt]

theorem Inv.length_succ_lt (I : Inv job mpi s holds) (hmax : s.currentPlateIdx ≠ intMax) :
    s.assigned.length + 1 < 2 ^ 31 := by
  have hlt := I.length_lt
  have hne : s.assigned.length ≠ 2 ^ 31 - 1 := fun h => hmax (by rw [I.current, h, intMax])
  omega

theorem assign_some {m : MasterPc} (h : assign s rank m = some t) :
    s.currentPlateIdx ≠ intMax ∧ t = { sendPlate s rank with master := m } := by
  unfold assign at h
  split_ifs at h with hmax
  exact ⟨hmax, (Option.some.inj h).symm⟩

theorem assign_ne_none {m : MasterPc} (hcount : job.platesCount < 2 ^ 31)
    (hp : toSizeT s.currentPlateIdx < job.platesCount) :
    assign s rank m ≠ none := by
  have hmax : s.currentPlateIdx ≠ intMax := by
    intro h
    rw [h, intMax, toSizeT_of_lt (by norm_num)] at hp
    omega
  rw [assign, if_neg hmax]
  exact Option.some_ne_none _

theorem Inv.assign {m : MasterPc} (I : Inv job mpi s holds) (hr : rank ∈ ranks mpi)
    (hn : holds rank = none) (hq : s.master.Quiet) (hm : m.Quiet)
    (hp : toSizeT s.currentPlateIdx < job.platesCount) (hmax : s.currentPlateIdx ≠ intMax)
    (hpl : Place job mpi { sendPlate s rank with master := m }
      (Function.update holds rank (some s.currentPlateIdx))) :
    Inv job mpi { sendPlate s rank with master := m }
      (Function.update holds rank (some s.currentPlateIdx)) := by
  have hlen := I.length_succ_lt hmax
  refine ⟨?_, ?_, ?_, ?_, ?_, ?_, I.taken, ?_, ?_, hpl⟩
  · simp [sendPlate, I.current, BitVec.ofNat_add]
  · simpa [sendPlate] using hlen
  · simp [sendPlate, I.indices, I.current, List.range_succ]
  · rw [I.toSizeT_current] at hp
    simpa [sendPlate] using hp
  · intro i
    have hb := I.balance i
    rw [holders_set hr hn]
    simp only [sendPlate, List.map_append, List.map_cons, List.map_nil, List.count_append,
      List.count_singleton, beq_iff_eq]
    omega
  · have ha := I.available
    rw [busy_set hr hn]
    simp only [sendPlate]
    push_cast
    omega
  · intro _ j hj hj' w hw
    simp only [sendPlate, List.length_append, List.length_singleton] at hj
    exact I.unsent hq.1 j (by omega) hj' w hw
  · intro w hw
    apply view_of_plain hm
    have hpw := I.plain hq hw
    by_cases hwr : w = rank
    · subst hwr
      rw [hn] at hpw
      have hz := I.unsent hq.1 s.assigned.length le_rfl (I.length_lt.trans (by norm_num)) w hw
      rw [← I.current] at hz
      simp only [sendPlate, Function.update_self]
      generalize s.toWorker w = ib, s.worker w = wk, s.toMaster w = ob at hpw hz ⊢
      cases hpw
      exact .assigned hz
    · simpa [sendPlate, hwr] using hpw

theorem Plain.head {h : Option CInt} {ib ob : List Message} {w : Worker} {m : Message}
    {rest : List Message} (hp : Plain job h ib w ob) (ho : ob = m :: rest) :
    ∃ i, h = some i ∧ m = ⟨i, .index⟩ ∧ IndexTaken job i ib w rest := by
  cases h with
  | none =>
    cases hp
    simp at ho
  | some i =>
    cases hp with
    | indexSent hk =>
      obtain ⟨rfl, rfl⟩ := List.cons.inj ho
      exact ⟨i, rfl, rfl, .indexSent hk⟩
    | reported =>
      obtain ⟨rfl, rfl⟩ := List.cons.inj ho
      exact ⟨i, rfl, rfl, .reported⟩
    | _ => simp at ho

theorem Inv.takeIndex (I : Inv job mpi s holds) (hm : s.master = .recvIndex)
    (hr : rank ∈ ranks mpi) {m : Message} {rest : List Message}
    (ho : s.toMaster rank = m :: rest) :
    Inv job mpi { s with
      master := .recvStates m.data rank
      toMaster := Function.update s.toMaster rank rest } holds := by
  have hq : s.master.Quiet := hm ▸ quiet_recvIndex
  obtain ⟨i, hi, rfl, ht⟩ := (I.plain hq hr).head ho
  refine ⟨I.current, I.length_lt, I.indices, I.length_le, I.balance, I.available, I.taken,
    fun _ => I.unsent hq.1, ?_, ⟨hr, hi⟩⟩
  intro w hw
  by_cases hwr : w = rank
  · subst hwr
    simp only [Function.update_self, hi]
    exact ⟨fun _ => ht, fun h => absurd rfl h⟩
  · have hpw := I.plain hq hw
    rw [view_iff_plain (by simp [Ne.symm hwr]) (by simp [MasterPc.StopSent])]
    simpa [hwr] using hpw

theorem IndexTaken.head {i : CInt} {ib ob : List Message} {w : Worker} {m : Message}
    {rest : List Message} (h : IndexTaken job i ib w ob) (ho : ob = m :: rest) :
    m = ⟨sendInt (job.simulated (toSizeT i)), .kStates i⟩ ∧ Idle ib w rest := by
  cases h with
  | indexSent => simp at ho
  | reported =>
    obtain ⟨rfl, rfl⟩ := List.cons.inj ho
    exact ⟨rfl, .idle⟩

theorem Inv.takeStates (I : Inv job mpi s holds) {i : CInt} (hm : s.master = .recvStates i rank)
    {m : Message} {rest : List Message} (ho : s.toMaster rank = m :: rest) :
    Inv job mpi { s with
      master := .reply rank
      toMaster := Function.update s.toMaster rank rest
      kStates := if toSizeT i < job.platesCount
        then Function.update s.kStates (toSizeT i) (recvInt 0 m.data) else s.kStates
      availableWorkers := s.availableWorkers + 1
      reported := s.reported ++ [i] } (Function.update holds rank none) := by
  have hpl := I.place
  simp only [Place, hm] at hpl
  obtain ⟨hr, hi⟩ := hpl
  have hv := I.view rank hr
  rw [hi] at hv
  obtain ⟨rfl, hid⟩ := (hv.1 hm).head ho
  rw [if_pos (I.held_lt hr hi), recvInt_zero]
  refine ⟨I.current, I.length_lt, I.indices, I.length_le, ?_, ?_, ?_, ?_, ?_,
    ⟨hr, Function.update_self ..⟩⟩
  · intro j
    have hb := I.balance j
    have hc := holders_clear hr hi j
    simp only [List.count_append, List.count_singleton, beq_iff_eq]
    omega
  · have ha := I.available
    have hb := busy_clear hr hi
    dsimp only
    omega
  · intro j hj
    by_cases hji : j = i
    · subst hji
      simp [sendInt]
    · have hne : toSizeT j ≠ toSizeT i := fun h => hji (toSizeT_injective h)
      simp only [List.mem_append, List.mem_singleton, hji, or_false] at hj
      dsimp only
      rw [Function.update_of_ne hne]
      exact I.taken j hj
  · exact fun _ => I.unsent (by simp [hm, MasterPc.InLoop])
  · intro w hw
    apply view_of_plain (quiet_reply rank)
    by_cases hwr : w = rank
    · subst hwr
      simpa [Plain] using hid
    · have hvw := I.view w hw
      rw [view_iff_plain (by simp [hm, Ne.symm hwr]) (by simp [hm, MasterPc.StopSent])] at hvw
      simpa [hwr] using hvw

theorem workers_free (ha : s.availableWorkers = workingProcesses job mpi)
    (I : Inv job mpi s holds) : ∀ w ∈ ranks mpi, holds w = none := by
  intro w hw
  by_contra hn
  -- a busy worker would be missing among the available ones
  have hb := busy_pos hw (Option.isSome_iff_ne_none.mpr hn)
  have := I.available
  omega

theorem Inv.stopLoop (I : Inv job mpi s holds) (hm : s.master = .reply rank)
    (hp : job.platesCount ≤ toSizeT s.currentPlateIdx)
    (ha : s.availableWorkers = workingProcesses job mpi) :
    Inv job mpi { s with master := .stopWorkers 1 } holds := by
  have hq : s.master.Quiet := hm ▸ quiet_reply rank
  have hf := workers_free ha I
  refine ⟨I.current, I.length_lt, I.indices, I.length_le, I.balance, I.available, I.taken,
    fun h => absurd h (by simp [MasterPc.InLoop]), ?_, ?_⟩
  · intro w hw
    have hpw := I.plain hq hw
    rw [hf w hw] at hpw ⊢
    refine ⟨fun h => ?_, fun _ => hpw⟩
    have := (mem_ranks.mp hw).1
    simp only [MasterPc.StopSent] at h
    omega
  · have := mpi.two_le
    exact ⟨le_rfl, by omega, hf, hp⟩

theorem Inv.stopWorker {n : ℕ} (I : Inv job mpi s holds) (hm : s.master = .stopWorkers n)
    (hn : n < mpi.processCount) :
    Inv job mpi { s with
      master := .stopWorkers (n + 1)
      toWorker := Function.update s.toWorker n
        (s.toWorker n ++ [⟨sendInt (BitVec.ofNat 64 job.platesCount), .stop⟩]) } holds := by
  have hpl := I.place
  simp only [Place, hm] at hpl
  obtain ⟨h1, -, hf, hp⟩ := hpl
  refine ⟨I.current, I.length_lt, I.indices, I.length_le, I.balance, I.available, I.taken,
    fun h => absurd h (by simp [MasterPc.InLoop]), ?_, ⟨by omega, by omega, hf, hp⟩⟩
  intro w hw
  have hv := I.view w hw
  rw [hf w hw, hm] at hv
  rw [hf w hw]
  simp only [View, MasterPc.StopSent] at hv ⊢
  by_cases hwn : w = n
  · subst hwn
    refine ⟨fun _ _ => ?_, fun h => absurd (Nat.lt_succ_self w) h⟩
    have hid := hv.2 (lt_irrefl w)
    simp only [Function.update_self]
    generalize s.toWorker w = ib, s.worker w = wk, s.toMaster w = ob at hid ⊢
    cases hid
    exact .sent
  · rw [Function.update_of_ne hwn]
    exact ⟨fun h => hv.1 (by omega), fun h => hv.2 (by omega)⟩

theorem Inv.leave {n : ℕ} (I : Inv job mpi s holds) (hm : s.master = .stopWorkers n)
    (hn : ¬ n < mpi.processCount) : Inv job mpi { s with master := .left } holds := by
  have hpl := I.place
  simp only [Place, hm] at hpl
  obtain ⟨-, -, hf, hp⟩ := hpl
  refine ⟨I.current, I.length_lt, I.indices, I.length_le, I.balance, I.available, I.taken,
    fun h => absurd h (by simp [MasterPc.InLoop]), ?_, ⟨hf, hp⟩⟩
  intro w hw
  have hv := I.view w hw
  rw [hf w hw, hm] at hv
  rw [hf w hw]
  have := (mem_ranks.mp hw).2
  exact ⟨fun _ => hv.1 (by simp only [MasterPc.StopSent]; omega),
    fun h => absurd trivial h⟩

theorem inv_start : Inv job mpi (start job mpi) (fun _ => none) := by
  refine ⟨rfl, by simp [start], by simp [start], by simp [start], ?_, ?_, by simp [start],
    by simp [start], ?_, ?_⟩
  · simp [start, holders]
  · simp [start, busy]
  · intro w _
    exact ⟨fun h => absurd h (by simp [start, MasterPc.StopSent]), fun _ => .idle⟩
  · refine ⟨le_rfl, le_max_left _ _, rfl, rfl, by simp, ?_⟩
    intro w h1 h2
    omega

theorem Inv.distribute_lt {n : ℕ} (I : Inv job mpi s holds) (hm : s.master = .distribute n)
    (hn : n < workingProcesses job mpi) : toSizeT s.currentPlateIdx < job.platesCount := by
  have hpl := I.place
  simp only [Place, hm] at hpl
  have hw := workingProcesses_eq job mpi
  rw [I.toSizeT_current]
  omega

theorem Inv.distribute {n : ℕ} (I : Inv job mpi s holds) (hm : s.master = .distribute n)
    (hn : n < workingProcesses job mpi) (hmax : s.currentPlateIdx ≠ intMax) :
    Inv job mpi { sendPlate s n with master := .distribute (n + 1) }
      (Function.update holds n (some s.currentPlateIdx)) := by
  have hp := I.distribute_lt hm hn
  have hpl := I.place
  simp only [Place, hm] at hpl
  obtain ⟨h1, -, hl, hre, hnone, hsome⟩ := hpl
  have hw := workingProcesses_eq job mpi
  have hr : n ∈ ranks mpi := by rw [mem_ranks]; omega
  apply I.assign hr (hnone n le_rfl) (hm ▸ quiet_distribute n) (quiet_distribute _) hp hmax
  refine ⟨by omega, by omega, ?_, hre, ?_, ?_⟩
  · simp only [sendPlate, List.length_append, List.length_singleton]
    omega
  · intro w hwn
    rw [Function.update_of_ne (by omega)]
    exact hnone w (by omega)
  · intro w hw1 hwn
    by_cases hwe : w = n
    · simp [hwe]
    · rw [Function.update_of_ne hwe]
      exact hsome w hw1 (by omega)

theorem Inv.endDistribute {n : ℕ} (I : Inv job mpi s holds) (hm : s.master = .distribute n)
    (hn : ¬ n < workingProcesses job mpi) : Inv job mpi { s with master := .recvIndex } holds := by
  apply I.move (hm ▸ quiet_distribute n) quiet_recvIndex
  have hpl := I.place
  simp only [Place, hm] at hpl
  obtain ⟨h1, h2, -, -, -, hsome⟩ := hpl
  -- with one working process nothing was sent, else process 1 has a plate
  by_cases hw : workingProcesses job mpi ≤ 1
  · exact Or.inl hw
  · have := workingProcesses_eq job mpi
    exact Or.inr ⟨1, mem_ranks.mpr ⟨le_rfl, by omega⟩, hsome 1 le_rfl (by omega)⟩

theorem Inv.reply (I : Inv job mpi s holds) (hm : s.master = .reply rank)
    (hp : toSizeT s.currentPlateIdx < job.platesCount) (hmax : s.currentPlateIdx ≠ intMax) :
    Inv job mpi { sendPlate s rank with master := .recvIndex }
      (Function.update holds rank (some s.currentPlateIdx)) := by
  have hpl := I.place
  simp only [Place, hm] at hpl
  apply I.assign hpl.1 hpl.2 (hm ▸ quiet_reply rank) quiet_recvIndex hp hmax
  exact Or.inr ⟨rank, hpl.1, by simp⟩

theorem Inv.waitOthers (I : Inv job mpi s holds) (hm : s.master = .reply rank)
    (ha : s.availableWorkers ≠ workingProcesses job mpi) :
    Inv job mpi { s with master := .recvIndex } holds := by
  apply I.move (hm ▸ quiet_reply rank) quiet_recvIndex
  refine Or.inr (exists_busy ?_)
  have := I.available
  omega

theorem Inv.master {source : ℕ} (I : Inv job mpi s holds)
    (h : jobMasterProcess job mpi s source = some t) : ∃ holds', Inv job mpi t holds' := by
  unfold jobMasterProcess at h
  -- one case for each place of the master, in the order of the source
  split at h
  next n hm =>
    split at h
    next hn =>
      obtain ⟨hmax, rfl⟩ := assign_some h
      exact ⟨_, I.distribute hm hn hmax⟩
    next hn =>
      cases h
      exact ⟨_, I.endDistribute hm hn⟩
  next hm =>
    split at h
    next hs =>
      split at h <;> cases h
      next m rest ho => exact ⟨_, I.takeIndex hm (mem_ranks.mpr hs) ho⟩
    next => cases h
  next i src hm =>
    split at h <;> cases h
    next m rest ho => exact ⟨_, I.takeStates hm ho⟩
  next src hm =>
    split at h
    next hp =>
      obtain ⟨hmax, rfl⟩ := assign_some h
      exact ⟨_, I.reply hm hp hmax⟩
    next hp =>
      split at h <;> cases h
      next ha => exact ⟨_, I.stopLoop hm (not_lt.mp hp) ha⟩
      next ha => exact ⟨_, I.waitOthers hm ha⟩
  next n hm =>
    split at h <;> cases h
    next hn => exact ⟨_, I.stopWorker hm hn⟩
    next hn => exact ⟨_, I.leave hm hn⟩
  next => cases h

theorem reachable_inv (h : (system job mpi).Reachable s) : ∃ holds, Inv job mpi s holds := by
  apply h.invariant ⟨_, inv_start⟩
  rintro s (source | rank) t ⟨holds, I⟩ hs
  · exact I.master hs
  · simp only [system] at hs
    split at hs
    · next hr => exact ⟨holds, I.worker (mem_ranks.mpr hr) hs⟩
    · cases hs

end Concurrente.OmpMpi
