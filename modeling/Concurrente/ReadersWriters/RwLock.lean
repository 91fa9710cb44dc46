import Concurrente.Iteration
import Concurrente.Threads

/-!
# readers_writers, the program

A thread for each letter of the input reads or increases a counter in the region of a
read-write lock and reports the value from within the region.
-/

namespace Concurrente.ReadersWriters

open Threads

/-- `pthread_rwlock_t`: the readers that have it, or whether a writer has. -/
structure RwLock where
  readers : ℕ
  writer : Bool

namespace RwLock

variable (lock : RwLock)

def rdlock : Option RwLock :=
  if lock.writer then none else some { lock with readers := lock.readers + 1 }

def wrlock : Option RwLock :=
  if lock.writer ∨ lock.readers ≠ 0 then none else some { lock with writer := true }

def unlock : RwLock :=
  if lock.writer then { lock with writer := false } else { lock with readers := lock.readers - 1 }

end RwLock

/-- `"Reader got %zu\n"` and `"Writer increased to %zu\n"`. -/
inductive Message where
  | reader (value : ℕ)
  | writer (value : ℕ)
  deriving DecidableEq

structure SharedData where
  counter : ℕ
  canAccessCounter : RwLock
  stdout : List Message

namespace SharedData

variable (s : SharedData)

def rdlock : Option SharedData :=
  s.canAccessCounter.rdlock.map fun lock => { s with canAccessCounter := lock }

def wrlock : Option SharedData :=
  s.canAccessCounter.wrlock.map fun lock => { s with canAccessCounter := lock }

def unlock : SharedData := { s with canAccessCounter := s.canAccessCounter.unlock }

def store (value : ℕ) : SharedData := { s with counter := value }

def printf (message : Message) : SharedData := { s with stdout := s.stdout ++ [message] }

end SharedData

/-- The lines of `reader` and `writer`; `++counter` loads and stores. -/
inductive Pc where
  | rdlock
  | load
  | print (value : ℕ)
  | rdunlock
  | wrlock
  | increment
  | store (value : ℕ)
  | printIncreased (value : ℕ)
  | wrunlock
  | returned
  deriving DecidableEq

def next : Pc → Instr Empty Pc SharedData
  | .rdlock => .access fun s => s.rdlock.map (·, .load)
  | .load => .access fun s => some (s, .print s.counter)
  | .print value => .access fun s => some (s.printf (.reader value), .rdunlock)
  | .rdunlock => .access fun s => some (s.unlock, .returned)
  | .wrlock => .access fun s => s.wrlock.map (·, .increment)
  | .increment => .access fun s => some (s, .store ((s.counter + 1) % 2 ^ 64))
  | .store value => .access fun s => some (s.store value, .printIncreased value)
  | .printIncreased value => .access fun s => some (s.printf (.writer value), .wrunlock)
  | .wrunlock => .access fun s => some (s.unlock, .returned)
  | .returned => .finished

/-- The routine that `create_threads` starts for a character, `toupper` applied. -/
def routine? (ch : Char) : Option Pc :=
  if ch.toUpper = 'R' then some .rdlock else if ch.toUpper = 'W' then some .wrlock else none

def threads (input : List Char) : List Pc := input.filterMap routine?

def main (input : List Char) : Code (Fin (threads input).length) Empty Pc SharedData where
  memory := ⟨0, ⟨0, false⟩, []⟩
  start i := (threads input)[i]
  next _ := next

def Message.isWriter : Message → Bool
  | reader _ => false
  | writer _ => true

def writes (stdout : List Message) : ℕ := stdout.countP Message.isWriter

/-- Every message reports the increases before it, its own included. -/
def Consistent (stdout : List Message) : Prop :=
  ∀ before message after, stdout = before ++ message :: after →
    message = .reader (writes before % 2 ^ 64) ∨
      message = .writer ((writes before + 1) % 2 ^ 64)

namespace Pc

def readerIn : Pc → ℕ
  | load | print _ | rdunlock => 1
  | _ => 0

def writerIn : Pc → ℕ
  | increment | store _ | printIncreased _ | wrunlock => 1
  | _ => 0

/-- The writer has increased the counter and not yet reported it. -/
def unreported : Pc → ℕ
  | printIncreased _ => 1
  | _ => 0

def toRead : Pc → ℕ
  | rdlock | load | print _ => 1
  | _ => 0

def toWrite : Pc → ℕ
  | wrlock | increment | store _ | printIncreased _ => 1
  | _ => 0

def Loaded (counter : ℕ) : Pc → Prop
  | print value => value = counter
  | store value => value = (counter + 1) % 2 ^ 64
  | printIncreased value => value = counter
  | _ => True

def left : Pc → ℕ
  | rdlock => 4
  | load => 3
  | print _ => 2
  | rdunlock => 1
  | wrlock => 5
  | increment => 4
  | store _ => 3
  | printIncreased _ => 2
  | wrunlock => 1
  | returned => 0

end Pc

structure Invariant {n : ℕ} (m : SharedData) (thread : Fin n → Pc) : Prop where
  readers : m.canAccessCounter.readers = ∑ i, (thread i).readerIn
  writers : m.canAccessCounter.writer.toNat = ∑ i, (thread i).writerIn
  exclusive : m.canAccessCounter.writer = true → m.canAccessCounter.readers = 0
  counter : m.counter = (writes m.stdout + ∑ i, (thread i).unreported) % 2 ^ 64
  loaded : ∀ i, (thread i).Loaded m.counter
  consistent : Consistent m.stdout

inductive Moves (m : SharedData) : Pc → SharedData → Pc → Prop
  | rdlock (h : m.canAccessCounter.writer = false) : Moves m .rdlock
    { m with canAccessCounter := ⟨m.canAccessCounter.readers + 1, false⟩ } .load
  | load : Moves m .load m (.print m.counter)
  | print (value : ℕ) : Moves m (.print value) (m.printf (.reader value)) .rdunlock
  | rdunlock : Moves m .rdunlock m.unlock .returned
  | wrlock (h : m.canAccessCounter.writer = false) (hr : m.canAccessCounter.readers = 0) :
    Moves m .wrlock { m with canAccessCounter := ⟨0, true⟩ } .increment
  | increment : Moves m .increment m (.store ((m.counter + 1) % 2 ^ 64))
  | store (value : ℕ) : Moves m (.store value) (m.store value) (.printIncreased value)
  | printIncreased (value : ℕ) :
    Moves m (.printIncreased value) (m.printf (.writer value)) .wrunlock
  | wrunlock : Moves m .wrunlock m.unlock .returned

theorem rdlock_eq_some {m m' : SharedData} (h : m.rdlock = some m') :
    m.canAccessCounter.writer = false ∧
      m' = { m with canAccessCounter := ⟨m.canAccessCounter.readers + 1, false⟩ } := by
  obtain ⟨lock, hlock, rfl⟩ := Option.map_eq_some_iff.mp h
  rw [RwLock.rdlock] at hlock
  split_ifs at hlock with hw
  rw [Bool.not_eq_true] at hw
  rw [← Option.some.inj hlock, hw]
  exact ⟨rfl, rfl⟩

theorem wrlock_eq_some {m m' : SharedData} (h : m.wrlock = some m') :
    m.canAccessCounter.writer = false ∧ m.canAccessCounter.readers = 0 ∧
      m' = { m with canAccessCounter := ⟨0, true⟩ } := by
  obtain ⟨lock, hlock, rfl⟩ := Option.map_eq_some_iff.mp h
  rw [RwLock.wrlock] at hlock
  split_ifs at hlock with hw
  obtain ⟨hw, hr⟩ := not_or.mp hw
  rw [Bool.not_eq_true] at hw
  rw [not_not] at hr
  rw [← Option.some.inj hlock, hr]
  exact ⟨hw, rfl, rfl⟩

theorem moves_of_access {pc : Pc} {run : SharedData → Option (SharedData × Pc)} {m : SharedData}
    {r : SharedData × Pc} (hnext : next pc = .access run) (hrun : run m = some r) :
    Moves m pc r.1 r.2 := by
  cases pc
  case returned => cases hnext
  all_goals obtain rfl := Instr.access.inj hnext
  case rdlock =>
    obtain ⟨m', hm, rfl⟩ := Option.map_eq_some_iff.mp hrun
    obtain ⟨hw, rfl⟩ := rdlock_eq_some hm
    exact .rdlock hw
  case wrlock =>
    obtain ⟨m', hm, rfl⟩ := Option.map_eq_some_iff.mp hrun
    obtain ⟨hw, hr, rfl⟩ := wrlock_eq_some hm
    exact .wrlock hw hr
  all_goals
    obtain rfl := Option.some.inj hrun
    constructor

section Steps

variable {n : ℕ} {m m' : SharedData} {thread : Fin n → Pc} {i j : Fin n} {pc : Pc}

theorem Pc.loaded_of_outside {pc : Pc} (hr : pc.readerIn = 0) (hw : pc.writerIn = 0) (c : ℕ) :
    pc.Loaded c := by
  cases pc <;> trivial

theorem Invariant.no_writer (I : Invariant m thread) (hi : (thread i).readerIn = 1) :
    m.canAccessCounter.writer = false := by
  have hle := weight_le_sum (Finset.mem_univ i) fun k => (thread k).readerIn
  have hreaders := I.readers
  by_contra hw
  have := I.exclusive (Bool.not_eq_false _ ▸ hw)
  omega

theorem Invariant.alone (I : Invariant m thread) (hi : (thread i).writerIn = 1) :
    m.canAccessCounter.writer = true ∧ m.canAccessCounter.readers = 0 ∧
      ∀ j ≠ i, (thread j).readerIn = 0 ∧ (thread j).writerIn = 0 := by
  have hle := weight_le_sum (Finset.mem_univ i) fun k => (thread k).writerIn
  have hwriters := I.writers
  have hw : m.canAccessCounter.writer = true := by
    by_contra hw
    rw [Bool.not_eq_true] at hw
    rw [hw, Bool.toNat_false] at hwriters
    omega
  refine ⟨hw, I.exclusive hw, fun j hj => ⟨?_, ?_⟩⟩
  · have hreader := weight_le_sum (Finset.mem_univ j) fun k => (thread k).readerIn
    have hreaders := I.readers
    rw [I.exclusive hw] at hreaders
    omega
  · by_contra hne
    rw [hw, Bool.toNat_true] at hwriters
    exact hj (eq_of_sum_le_one (fun k => (thread k).writerIn) hwriters.ge (Finset.mem_univ j)
      (Finset.mem_univ i) hne (by omega))

theorem Moves.readers (I : Invariant m thread) (h : Moves m (thread i) m' pc) :
    m'.canAccessCounter.readers + (thread i).readerIn =
      m.canAccessCounter.readers + pc.readerIn := by
  have hle := weight_le_sum (Finset.mem_univ i) fun k => (thread k).readerIn
  rw [← I.readers] at hle
  have hin := I.no_writer (i := i)
  have halone := I.alone (i := i)
  generalize thread i = a at h hle hin halone
  cases h with
  | rdunlock =>
    have hw := hin rfl
    simp only [SharedData.unlock, RwLock.unlock, hw, Bool.false_eq_true, if_false, Pc.readerIn]
      at hle ⊢
    omega
  | wrlock h hr => simp [Pc.readerIn, hr]
  | wrunlock =>
    obtain ⟨hw, -⟩ := halone rfl
    simp [SharedData.unlock, RwLock.unlock, hw, Pc.readerIn]
  | _ => rfl

theorem Moves.writers (I : Invariant m thread) (h : Moves m (thread i) m' pc) :
    m'.canAccessCounter.writer.toNat + (thread i).writerIn =
      m.canAccessCounter.writer.toNat + pc.writerIn := by
  have hin := I.no_writer (i := i)
  have halone := I.alone (i := i)
  generalize thread i = a at h hin halone
  cases h with
  | rdlock h => simp [Pc.writerIn, h]
  | rdunlock => simp [SharedData.unlock, RwLock.unlock, hin rfl, Pc.writerIn]
  | wrlock h hr => simp [Pc.writerIn, h]
  | wrunlock =>
    obtain ⟨hw, -⟩ := halone rfl
    simp [SharedData.unlock, RwLock.unlock, hw, Pc.writerIn]
  | _ => rfl

theorem Moves.exclusive (I : Invariant m thread) (h : Moves m (thread i) m' pc)
    (hw : m'.canAccessCounter.writer = true) : m'.canAccessCounter.readers = 0 := by
  have hin := I.no_writer (i := i)
  have halone := I.alone (i := i)
  generalize thread i = a at h hin halone
  cases h with
  | rdlock h => cases hw
  | rdunlock => simp [SharedData.unlock, RwLock.unlock, hin rfl] at hw
  | wrlock h hr => rfl
  | wrunlock =>
    obtain ⟨htrue, -⟩ := halone rfl
    simp [SharedData.unlock, RwLock.unlock, htrue] at hw
  | _ => exact I.exclusive hw

@[simp] theorem writes_append (stdout : List Message) (message : Message) :
    writes (stdout ++ [message]) = writes stdout + message.isWriter.toNat := by
  rw [writes, List.countP_append, List.countP_singleton]
  cases message <;> rfl

theorem Consistent.append {stdout : List Message} (h : Consistent stdout) {message : Message}
    (hm : message = .reader (writes stdout % 2 ^ 64) ∨
      message = .writer ((writes stdout + 1) % 2 ^ 64)) : Consistent (stdout ++ [message]) := by
  intro before message' after heq
  obtain rfl | ⟨after, last, rfl⟩ := List.eq_nil_or_concat after
  · obtain ⟨rfl, hlast⟩ := List.append_inj' heq rfl
    rw [← List.head_eq_of_cons_eq hlast]
    exact hm
  · rw [List.concat_eq_append, ← List.cons_append, ← List.append_assoc] at heq
    exact h before message' after (List.append_inj' heq rfl).1

theorem Pc.unreported_le (pc : Pc) : pc.unreported ≤ pc.writerIn := by
  cases pc <;> simp [unreported, writerIn]

theorem Invariant.unreported_le (I : Invariant m thread) :
    ∑ j, (thread j).unreported ≤ m.canAccessCounter.writer.toNat := by
  rw [I.writers]
  exact Finset.sum_le_sum fun j _ => (thread j).unreported_le

theorem Moves.counter (I : Invariant m thread) (h : Moves m (thread i) m' pc) :
    m'.counter =
      (writes m'.stdout + ∑ j, (Function.update thread i pc j).unreported) % 2 ^ 64 := by
  have hU := sum_move thread i Pc.unreported pc
  have hcounter := I.counter
  have hloaded := I.loaded i
  generalize ∑ j, (Function.update thread i pc j).unreported = unreported' at hU ⊢
  generalize ∑ j, (thread j).unreported = unreported at hU hcounter
  generalize thread i = a at h hU hloaded
  cases h
  case store value =>
    simp only [Pc.unreported, Pc.Loaded, SharedData.store] at hU hloaded ⊢
    omega
  case print value =>
    simp only [Pc.unreported, SharedData.printf, writes_append, Message.isWriter,
      Bool.toNat_false] at hU ⊢
    omega
  case printIncreased value =>
    simp only [Pc.unreported, SharedData.printf, writes_append, Message.isWriter,
      Bool.toNat_true] at hU ⊢
    omega
  all_goals
    simp only [Pc.unreported, SharedData.unlock] at hU ⊢
    omega

theorem Moves.loaded (I : Invariant m thread) (h : Moves m (thread i) m' pc) (j : Fin n) :
    (Function.update thread i pc j).Loaded m'.counter := by
  have halone := I.alone (i := i)
  by_cases hj : j = i
  · subst hj
    rw [Function.update_self]
    generalize thread j = a at h
    cases h <;> trivial
  · rw [Function.update_of_ne hj]
    have hloaded := I.loaded j
    generalize thread i = a at h halone
    cases h
    case store value =>
      obtain ⟨hr, hw⟩ := (halone rfl).2.2 j hj
      exact Pc.loaded_of_outside hr hw _
    all_goals exact hloaded

theorem Moves.consistent (I : Invariant m thread) (h : Moves m (thread i) m' pc) :
    Consistent m'.stdout := by
  have hin := I.no_writer (i := i)
  have hcounter := I.counter
  have hle := I.unreported_le
  have hloaded := I.loaded i
  have hU := weight_le_sum (Finset.mem_univ i) fun j => (thread j).unreported
  generalize thread i = a at h hin hloaded hU
  cases h
  case print value =>
    rw [hin rfl, Bool.toNat_false] at hle
    rw [Nat.le_zero.mp hle, Nat.add_zero] at hcounter
    exact I.consistent.append (.inl (congrArg Message.reader (hloaded.trans hcounter)))
  case printIncreased value =>
    have hone : ∑ j, (thread j).unreported = 1 :=
      le_antisymm (hle.trans (Bool.toNat_le _)) hU
    rw [hone] at hcounter
    exact I.consistent.append (.inr (congrArg Message.writer (hloaded.trans hcounter)))
  all_goals exact I.consistent

theorem Invariant.step (I : Invariant m thread) (h : Moves m (thread i) m' pc) :
    Invariant m' (Function.update thread i pc) where
  readers := by
    have hsum := sum_move thread i Pc.readerIn pc
    have hmove := h.readers I
    rw [I.readers] at hmove
    omega
  writers := by
    have hsum := sum_move thread i Pc.writerIn pc
    have hmove := h.writers I
    rw [I.writers] at hmove
    omega
  exclusive := h.exclusive I
  counter := h.counter I
  loaded := h.loaded I
  consistent := h.consistent I

end Steps

section Runs

variable {input : List Char} {s : State (Fin (threads input).length) Empty Pc SharedData}
  {i : Fin (threads input).length}

theorem moves_of_step {t : State (Fin (threads input).length) Empty Pc SharedData}
    (h : (main input).system.step s i = some t) :
    ∃ pc, Moves s.memory (s.thread i) t.memory pc ∧ t.thread = Function.update s.thread i pc := by
  obtain ⟨run, r, hn, hr, rfl⟩ := access_of_step h
  exact ⟨r.2, moves_of_access hn hr, rfl⟩

theorem start_mem (pc : Pc) (h : pc ∈ threads input) : pc = .rdlock ∨ pc = .wrlock := by
  obtain ⟨c, -, hc⟩ := List.mem_filterMap.mp h
  unfold routine? at hc
  split_ifs at hc
  · exact .inl (Option.some.inj hc).symm
  · exact .inr (Option.some.inj hc).symm

theorem invariant_start : Invariant (main input).memory (main input).start := by
  have hstart : ∀ i, (main input).start i = .rdlock ∨ (main input).start i = .wrlock :=
    fun i => start_mem _ (List.getElem_mem _)
  have hzero : ∀ w : Pc → ℕ, w .rdlock = 0 → w .wrlock = 0 →
      ∑ i, w ((main input).start i) = 0 := by
    intro w hr hw
    apply Finset.sum_eq_zero
    intro i _
    obtain h | h := hstart i <;> rw [h]
    · exact hr
    · exact hw
  refine ⟨(hzero Pc.readerIn rfl rfl).symm, (hzero Pc.writerIn rfl rfl).symm, fun _ => rfl, ?_,
    fun i => ?_, ?_⟩
  · rw [hzero Pc.unreported rfl rfl]
    rfl
  · obtain h | h := hstart i <;> rw [h] <;> trivial
  · intro before message after h
    cases List.append_eq_nil_iff.mp h.symm |>.2

theorem reachable_invariant (h : (main input).system.Reachable s) :
    Invariant s.memory s.thread := by
  apply h.invariant (I := fun s => Invariant s.memory s.thread) invariant_start
  intro s i t I hs
  obtain ⟨pc, hmove, ht⟩ := moves_of_step hs
  rw [ht]
  exact I.step hmove

theorem Moves.left_lt {m m' : SharedData} {a pc : Pc} (h : Moves m a m' pc) :
    pc.left < a.left := by
  cases h <;> exact Nat.lt_succ_self _

theorem sum_start (l : List Pc) (h : ∀ pc ∈ l, pc = .rdlock ∨ pc = .wrlock) :
    (l.map Pc.toWrite).sum = l.count .wrlock ∧
      (l.map Pc.toRead).sum + (l.map Pc.toWrite).sum = l.length := by
  induction l with
  | nil => exact ⟨rfl, rfl⟩
  | cons pc l ih =>
    obtain ⟨hwrite, hlength⟩ := ih fun pc hpc => h pc (List.mem_cons_of_mem _ hpc)
    obtain rfl | rfl := h pc List.mem_cons_self
    all_goals
      simp only [List.map_cons, List.sum_cons, List.length_cons, List.count_cons, hwrite,
        Pc.toRead, Pc.toWrite]
      simp only [hwrite] at hlength
      refine ⟨by simp <;> omega, by omega⟩

theorem reports (h : (main input).system.Reachable s) :
    writes s.memory.stdout + ∑ i, (s.thread i).toWrite = (threads input).count .wrlock ∧
    s.memory.stdout.length + ∑ i, (s.thread i).toRead + ∑ i, (s.thread i).toWrite =
      (threads input).length := by
  apply h.invariant (I := fun s =>
    writes s.memory.stdout + ∑ i, (s.thread i).toWrite = (threads input).count .wrlock ∧
    s.memory.stdout.length + ∑ i, (s.thread i).toRead + ∑ i, (s.thread i).toWrite =
      (threads input).length)
  · obtain ⟨hwrite, hlength⟩ := sum_start (threads input) start_mem
    have hstart : ∀ w : Pc → ℕ,
        ∑ i, w ((main input).start i) = ((threads input).map w).sum :=
      Fin.sum_univ_fun_getElem (threads input)
    have hmemory : (main input).memory.stdout = [] := rfl
    change writes (main input).memory.stdout + ∑ i, ((main input).start i).toWrite = _ ∧
      (main input).memory.stdout.length + ∑ i, ((main input).start i).toRead +
        ∑ i, ((main input).start i).toWrite = _
    rw [hmemory, hstart, hstart, hwrite]
    exact ⟨Nat.zero_add _, by rw [← hlength, hwrite, List.length_nil, Nat.zero_add]⟩
  · intro s i t I hs
    obtain ⟨pc, hmove, ht⟩ := moves_of_step hs
    have hread := sum_move s.thread i Pc.toRead pc
    have hwrite := sum_move s.thread i Pc.toWrite pc
    rw [← ht] at hread hwrite
    generalize ∑ i, (t.thread i).toRead = toRead' at *
    generalize ∑ i, (t.thread i).toWrite = toWrite' at *
    generalize ∑ i, (s.thread i).toRead = toRead at *
    generalize ∑ i, (s.thread i).toWrite = toWrite at *
    generalize s.thread i = a at *
    generalize t.memory = m' at *
    cases hmove <;>
      simp only [Pc.toRead, Pc.toWrite, SharedData.printf, SharedData.store, SharedData.unlock,
        writes_append, Message.isWriter, Bool.toNat_true, Bool.toNat_false, List.length_append,
        List.length_singleton] at *
    all_goals omega

theorem blocked_cases (h : (main input).system.step s i = none) :
    s.thread i = .returned ∨ (s.thread i = .rdlock ∨ s.thread i = .wrlock) ∧
      (s.memory.canAccessCounter.writer = true ∨ s.memory.canAccessCounter.readers ≠ 0) := by
  cases hpc : s.thread i
  case returned => exact .inl rfl
  all_goals
    simp only [Code.system, main, hpc, next] at h
    simp [SharedData.rdlock, SharedData.wrlock, RwLock.rdlock, RwLock.wrlock] at h
  case rdlock => exact .inr ⟨.inl rfl, .inl h⟩
  case wrlock =>
    refine .inr ⟨.inr rfl, ?_⟩
    by_cases hw : s.memory.canAccessCounter.writer = true
    · exact .inl hw
    · exact .inr (h (Bool.not_eq_true _ ▸ hw))

theorem finished_of_stuck (h : (main input).system.Reachable s)
    (hs : (main input).system.Stuck s) (i : Fin (threads input).length) :
    s.thread i = .returned := by
  have I := reachable_invariant h
  have hnone : ∀ w : Pc → ℕ, w .rdlock = 0 → w .wrlock = 0 → w .returned = 0 →
      ∑ j, w (s.thread j) = 0 := by
    intro w hr hw hreturned
    apply Finset.sum_eq_zero
    intro j _
    obtain h | ⟨h | h, -⟩ := blocked_cases (hs j) <;> rw [h] <;> assumption
  have hreaders := I.readers
  have hwriters := I.writers
  rw [hnone Pc.readerIn rfl rfl rfl] at hreaders
  rw [hnone Pc.writerIn rfl rfl rfl] at hwriters
  obtain h | ⟨-, hw | hr⟩ := blocked_cases (hs i)
  · exact h
  · rw [hw] at hwriters
    cases hwriters
  · exact absurd hreaders hr

theorem left_lt {t : State (Fin (threads input).length) Empty Pc SharedData}
    (h : (main input).system.step s i = some t) : (t.thread i).left < (s.thread i).left := by
  obtain ⟨pc, hmove, ht⟩ := moves_of_step h
  rw [ht, Function.update_self]
  exact hmove.left_lt

theorem terminates (input : List Char) : (main input).system.Terminates :=
  terminates_of_left Pc.left fun _ _ _ _ => left_lt

theorem length_le_of_run {l : List (Fin (threads input).length)}
    (h : (main input).system.run l = some s) : l.length ≤ 5 * input.length := by
  have hstart : ∀ i, ((main input).start i).left ≤ 5 := by
    intro i
    obtain h | h := start_mem ((main input).start i) (List.getElem_mem _) <;> rw [h] <;> decide
  have hlength : (threads input).length ≤ input.length := List.length_filterMap_le routine? input
  have hrun := length_le_of_left Pc.left (fun _ _ _ _ => left_lt) hstart h
  rw [Fintype.card_fin] at hrun
  omega

/-- Whatever the order of the threads, each message reports the increases before it, a writer its
own included; no run has more than five steps for each thread or gets stuck before all threads have
returned, and then each has reported once and the counter counts the writers. -/
theorem rwlock_reports (input : List Char)
    (s : State (Fin (threads input).length) Empty Pc SharedData)
    (h : (main input).system.Reachable s) :
    Consistent s.memory.stdout ∧
    ((main input).system.Stuck s → (∀ i, s.thread i = .returned) ∧
      writes s.memory.stdout = (threads input).count .wrlock ∧
      s.memory.stdout.length = (threads input).length ∧
      s.memory.counter = (threads input).count .wrlock % 2 ^ 64) ∧
    ∀ l, (main input).system.run l = some s → l.length ≤ 5 * input.length := by
  have I := reachable_invariant h
  refine ⟨I.consistent, fun hs => ?_, fun l => length_le_of_run⟩
  have hreturned := finished_of_stuck h hs
  have hnone : ∀ w : Pc → ℕ, w .returned = 0 → ∑ i, w (s.thread i) = 0 :=
    fun w hw => Finset.sum_eq_zero fun i _ => by rw [hreturned i, hw]
  obtain ⟨hwrites, hlength⟩ := reports h
  have hcounter := I.counter
  rw [hnone Pc.toWrite rfl] at hwrites hlength
  rw [hnone Pc.toRead rfl] at hlength
  rw [hnone Pc.unreported rfl] at hcounter
  rw [Nat.add_zero] at hwrites hlength hcounter
  exact ⟨hreturned, hwrites, hlength, by rw [hcounter, hwrites]⟩

/-- The end of a run of a reader and a writer. -/
theorem rwlock_reports_pair : ∃ s, (main ['R', 'W']).system.Reachable s ∧
    Consistent s.memory.stdout ∧ (∀ i, s.thread i = .returned) ∧ writes s.memory.stdout = 1 ∧
    s.memory.stdout.length = 2 ∧ s.memory.counter = 1 := by
  obtain ⟨s, hs, hstuck⟩ := (terminates ['R', 'W']).exists_stuck
  obtain ⟨hconsistent, hend, -⟩ := rwlock_reports ['R', 'W'] s hs
  obtain ⟨hreturned, hwrites, hlength, hcounter⟩ := hend hstuck
  exact ⟨s, hs, hconsistent, hreturned, hwrites, hlength, hcounter⟩

end Runs

end Concurrente.ReadersWriters
