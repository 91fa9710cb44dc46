import Concurrente.OmpMpi.Protocol
import Concurrente.Team

/-!
# The invariant of the distribution

Every worker is idle, serves exactly one plate, or has been stopped.  What
`holds` says about a worker is not part of the program: it is the plate sent to
the worker whose `k_states` the master has not taken yet.
-/

namespace Concurrente.OmpMpi

theorem toSizeT_ofNat {j : ℕ} (h : j < 2 ^ 32) :
    toSizeT (BitVec.ofNat 32 j) = if j < 2 ^ 31 then j else j + (2 ^ 64 - 2 ^ 32) := by
  unfold toSizeT
  rw [BitVec.toNat_signExtend, BitVec.msb_eq_decide]
  simp only [BitVec.toNat_setWidth, BitVec.toNat_ofNat, Nat.mod_eq_of_lt h]
  split_ifs with h1 h2 h2 <;> simp at h1 <;> omega

theorem toSizeT_of_lt {j : ℕ} (h : j < 2 ^ 31) : toSizeT (BitVec.ofNat 32 j) = j := by
  rw [toSizeT_ofNat (by omega), if_pos h]

theorem toSizeT_injective : Function.Injective toSizeT := by
  intro x y h
  have hx := toSizeT_ofNat x.isLt
  have hy := toSizeT_ofNat y.isLt
  simp only [BitVec.ofNat_toNat, BitVec.setWidth_eq] at hx hy
  apply BitVec.eq_of_toNat_eq
  have := x.isLt
  have := y.isLt
  rw [hx, hy] at h
  split_ifs at h <;> omega

theorem ofNat_injOn {j k : ℕ} (hj : j < 2 ^ 32) (hk : k < 2 ^ 32)
    (h : BitVec.ofNat 32 j = BitVec.ofNat 32 k) : j = k := by
  have := congrArg BitVec.toNat h
  simp only [BitVec.toNat_ofNat, Nat.mod_eq_of_lt hj, Nat.mod_eq_of_lt hk] at this
  exact this

theorem recvInt_zero (x : CInt) : recvInt 0 x = x.setWidth 64 := by
  simp [recvInt]

def ranks (mpi : Mpi) : Finset ℕ := Finset.Ico 1 mpi.processCount

@[simp] theorem mem_ranks {mpi : Mpi} {rank : ℕ} :
    rank ∈ ranks mpi ↔ 1 ≤ rank ∧ rank < mpi.processCount := by
  simp [ranks]

theorem workingProcesses_eq (job : Job) (mpi : Mpi) :
    workingProcesses job mpi = min (mpi.processCount - 1) job.platesCount := by
  unfold workingProcesses
  split_ifs <;> omega

/-- From the message that assigns plate `i` to the two messages that report it. -/
inductive Serving (job : Job) (i : CInt) : List Message → Worker → List Message → Prop
  | assigned {k} (hk : k (toSizeT i) = 0) : Serving job i [⟨i, .plate⟩] ⟨.recv, k⟩ []
  | simulating {k} (hk : k (toSizeT i) = 0) : Serving job i [] ⟨.processPlate i, k⟩ []
  | simulated {k} (hk : k (toSizeT i) = job.simulated (toSizeT i)) :
      Serving job i [] ⟨.sendIndex i, k⟩ []
  | indexSent {k} (hk : k (toSizeT i) = job.simulated (toSizeT i)) :
      Serving job i [] ⟨.sendStates i, k⟩ [⟨i, .index⟩]
  | reported {k} : Serving job i [] ⟨.recv, k⟩
      [⟨i, .index⟩, ⟨sendInt (job.simulated (toSizeT i)), .kStates i⟩]

/-- The master has taken the index and waits for the `k_states` of the plate. -/
inductive IndexTaken (job : Job) (i : CInt) : List Message → Worker → List Message → Prop
  | indexSent {k} (hk : k (toSizeT i) = job.simulated (toSizeT i)) :
      IndexTaken job i [] ⟨.sendStates i, k⟩ []
  | reported {k} : IndexTaken job i [] ⟨.recv, k⟩
      [⟨sendInt (job.simulated (toSizeT i)), .kStates i⟩]

inductive Idle : List Message → Worker → List Message → Prop
  | idle {k} : Idle [] ⟨.recv, k⟩ []

inductive Stopped (job : Job) : List Message → Worker → List Message → Prop
  | sent {k} : Stopped job [⟨sendInt (BitVec.ofNat 64 job.platesCount), .stop⟩] ⟨.recv, k⟩ []
  | left {k} : Stopped job [] ⟨.left, k⟩ []

/-- The stop signal of this worker has been sent. -/
def MasterPc.StopSent (rank : ℕ) : MasterPc → Prop
  | .stopWorkers n => rank < n
  | .left => True
  | _ => False

instance (rank : ℕ) : (m : MasterPc) → Decidable (m.StopSent rank)
  | .stopWorkers n => inferInstanceAs (Decidable (rank < n))
  | .left => inferInstanceAs (Decidable True)
  | .distribute _ | .recvIndex | .recvStates _ _ | .reply _ => inferInstanceAs (Decidable False)

/-- The master hands out plates or waits for their results. -/
def MasterPc.InLoop : MasterPc → Prop
  | .stopWorkers _ => False
  | .left => False
  | _ => True

/-- The worker reads the stop signal as an index past the last plate. -/
def StopEnds (job : Job) : Prop :=
  job.platesCount ≤ toSizeT (sendInt (BitVec.ofNat 64 job.platesCount))

theorem sendInt_ofNat (n : ℕ) : sendInt (BitVec.ofNat 64 n) = BitVec.ofNat 32 n := by
  apply BitVec.eq_of_toNat_eq
  simp only [sendInt, BitVec.toNat_setWidth, BitVec.toNat_ofNat]
  omega

theorem stopEnds {job : Job} (h : job.platesCount < 2 ^ 31) : StopEnds job := by
  rw [StopEnds, sendInt_ofNat, toSizeT_of_lt h]

/-- The channels and the position of a worker that holds `h`. -/
def View (job : Job) (m : MasterPc) (rank : ℕ) (h : Option CInt) (inbox : List Message)
    (w : Worker) (outbox : List Message) : Prop :=
  match h with
  | some i => (m = .recvStates i rank → IndexTaken job i inbox w outbox) ∧
      (m ≠ .recvStates i rank → Serving job i inbox w outbox)
  | none => (m.StopSent rank → StopEnds job → Stopped job inbox w outbox) ∧
      (¬ m.StopSent rank → Idle inbox w outbox)

/-- Where the master is and which workers hold a plate then. -/
def Place (job : Job) (mpi : Mpi) (s : State) (holds : ℕ → Option CInt) : Prop :=
  match s.master with
  | .distribute n => 1 ≤ n ∧ n ≤ max 1 (workingProcesses job mpi) ∧ s.assigned.length = n - 1 ∧
      s.reported = [] ∧ (∀ w, n ≤ w → holds w = none) ∧ ∀ w, 1 ≤ w → w < n → (holds w).isSome
  -- without a busy worker the master would wait for ever
  | .recvIndex => workingProcesses job mpi ≤ 1 ∨ ∃ w ∈ ranks mpi, (holds w).isSome
  | .recvStates i w => w ∈ ranks mpi ∧ holds w = some i
  | .reply w => w ∈ ranks mpi ∧ holds w = none
  | .stopWorkers n => 1 ≤ n ∧ n ≤ mpi.processCount ∧ (∀ w ∈ ranks mpi, holds w = none) ∧
      job.platesCount ≤ toSizeT s.currentPlateIdx
  | .left => (∀ w ∈ ranks mpi, holds w = none) ∧ job.platesCount ≤ toSizeT s.currentPlateIdx

def busy (mpi : Mpi) (holds : ℕ → Option CInt) : ℕ :=
  ∑ w ∈ ranks mpi, if (holds w).isSome then 1 else 0

/-- How many workers hold plate `i`. -/
def holders (mpi : Mpi) (holds : ℕ → Option CInt) (i : CInt) : ℕ :=
  ∑ w ∈ ranks mpi, if holds w = some i then 1 else 0

structure Inv (job : Job) (mpi : Mpi) (s : State) (holds : ℕ → Option CInt) : Prop where
  current : s.currentPlateIdx = BitVec.ofNat 32 s.assigned.length
  length_lt : s.assigned.length < 2 ^ 31
  indices : s.assigned.map Prod.snd = (List.range s.assigned.length).map (BitVec.ofNat 32)
  length_le : s.assigned.length ≤ job.platesCount
  balance : ∀ i, s.reported.count i + holders mpi holds i = (s.assigned.map Prod.snd).count i
  available : s.availableWorkers + busy mpi holds = workingProcesses job mpi
  taken : ∀ i ∈ s.reported, s.kStates (toSizeT i) =
    ((job.simulated (toSizeT i)).setWidth 32).setWidth 64
  unsent : s.master.InLoop → ∀ j, s.assigned.length ≤ j → j < 2 ^ 32 → ∀ w ∈ ranks mpi,
    (s.worker w).kStates (toSizeT (BitVec.ofNat 32 j)) = 0
  view : ∀ w ∈ ranks mpi, View job s.master w (holds w) (s.toWorker w) (s.worker w) (s.toMaster w)
  place : Place job mpi s holds

section Views

variable {job : Job} {m m' : MasterPc} {rank : ℕ} {h : Option CInt} {ib ob : List Message}
  {w : Worker}

/-- Outside the two exceptional positions of the master a worker serves or is idle. -/
def Plain (job : Job) (h : Option CInt) (ib : List Message) (w : Worker) (ob : List Message) :
    Prop :=
  match h with
  | some i => Serving job i ib w ob
  | none => Idle ib w ob

theorem view_iff_plain (hm : ∀ i, m ≠ .recvStates i rank) (hs : ¬ m.StopSent rank) :
    View job m rank h ib w ob ↔ Plain job h ib w ob := by
  unfold View Plain
  cases h with
  | none => simp [hs]
  | some i => simp [hm i]

end Views

section Counts

variable {mpi : Mpi} {holds : ℕ → Option CInt} {rank : ℕ}

theorem busy_set (hr : rank ∈ ranks mpi) (hn : holds rank = none) (i : CInt) :
    busy mpi (Function.update holds rank (some i)) = busy mpi holds + 1 := by
  have := sum_update hr holds (fun _ h => if h.isSome then 1 else 0) (some i)
  simp only [hn, Option.isSome_none, Option.isSome_some, if_true] at this
  simpa [busy] using this

theorem busy_clear (hr : rank ∈ ranks mpi) {i : CInt} (hi : holds rank = some i) :
    busy mpi (Function.update holds rank none) + 1 = busy mpi holds := by
  have := sum_update hr holds (fun _ h => if h.isSome then 1 else 0) none
  simp only [hi, Option.isSome_none, Option.isSome_some, if_true] at this
  simpa [busy] using this

theorem holders_set (hr : rank ∈ ranks mpi) (hn : holds rank = none) (i j : CInt) :
    holders mpi (Function.update holds rank (some i)) j =
      holders mpi holds j + if i = j then 1 else 0 := by
  have := sum_update hr holds (fun _ h => if h = some j then 1 else 0) (some i)
  simp only [hn, reduceCtorEq, if_false, Nat.add_zero, Option.some.injEq] at this
  exact this

theorem holders_clear (hr : rank ∈ ranks mpi) {i : CInt} (hi : holds rank = some i) (j : CInt) :
    holders mpi (Function.update holds rank none) j + (if i = j then 1 else 0) =
      holders mpi holds j := by
  have := sum_update hr holds (fun _ h => if h = some j then 1 else 0) none
  simp only [hi, reduceCtorEq, if_false, Nat.add_zero, Option.some.injEq] at this
  exact this

theorem busy_pos (hr : rank ∈ ranks mpi) (h : (holds rank).isSome) : 0 < busy mpi holds := by
  have := weight_le_sum hr (fun w => if (holds w).isSome then 1 else 0)
  simp only [h, if_true] at this
  exact this

theorem holders_pos (hr : rank ∈ ranks mpi) {i : CInt} (h : holds rank = some i) :
    0 < holders mpi holds i := by
  have := weight_le_sum hr (fun w => if holds w = some i then 1 else 0)
  simp only [h, if_true] at this
  exact this

theorem exists_busy (h : 0 < busy mpi holds) : ∃ w ∈ ranks mpi, (holds w).isSome := by
  obtain ⟨w, hw, hp⟩ := exists_of_sum_pos h
  refine ⟨w, hw, ?_⟩
  by_contra hn
  simp [hn] at hp

end Counts

theorem Inv.held_index {job : Job} {mpi : Mpi} {s : State} {holds : ℕ → Option CInt}
    (I : Inv job mpi s holds) {rank : ℕ} (hr : rank ∈ ranks mpi) {i : CInt}
    (hi : holds rank = some i) : ∃ j < s.assigned.length, i = BitVec.ofNat 32 j := by
  have hc : 0 < (s.assigned.map Prod.snd).count i := by
    have := I.balance i
    have := holders_pos hr hi
    omega
  rw [I.indices] at hc
  obtain ⟨j, hj, hji⟩ := List.mem_map.mp (List.count_pos_iff.mp hc)
  exact ⟨j, List.mem_range.mp hj, hji.symm⟩

end Concurrente.OmpMpi
