import Concurrente.ProdConsBound.Program
import Concurrente.Integers

/-!
# When prod_cons_bound neither overwrites a value nor gets stuck

The semaphores bound the distance of the two loop positions.  The wait before the loops of the
producer takes one permit for good, so that a buffer of one slot has none left.
-/

namespace Concurrente.ProdConsBound

open Threads

variable {cfg : Config}

namespace Pc

variable (cfg : Config)

/-- The values that the producer has written. -/
def written : Pc → ℕ
  | waitProduce round index _ | write round index _ => position cfg round index
  | signalConsume round index _ => position cfg round index + 1
  | produced => total cfg
  | _ => 0

/-- The values that the producer has signalled. -/
def offered : Pc → ℕ
  | waitProduce round index _ | write round index _ | signalConsume round index _ =>
    position cfg round index
  | produced => total cfg
  | _ => 0

/-- The waits of the producer that have ended. -/
def taken : Pc → ℕ
  | waitProduce round index _ => position cfg round index + 1
  | write round index _ | signalConsume round index _ => position cfg round index + 2
  | produced => total cfg + 1
  | _ => 0

/-- The waits of the consumer that have ended. -/
def received : Pc → ℕ
  | waitConsume round index => position cfg round index
  | read round index | signalProduce round index => position cfg round index + 1
  | consumed => total cfg
  | _ => 0

def readCount : Pc → ℕ
  | waitConsume round index | read round index => position cfg round index
  | signalProduce round index => position cfg round index + 1
  | consumed => total cfg
  | _ => 0

/-- The slots that the consumer has signalled. -/
def freed : Pc → ℕ
  | waitConsume round index | read round index | signalProduce round index =>
    position cfg round index
  | consumed => total cfg
  | _ => 0

/-- The producer is inside its loops and counts what it has written. -/
def Producing : Pc → Prop
  | surplusWait | produced => True
  | waitProduce round index count | write round index count =>
    Inside cfg round index ∧ count = position cfg round index
  | signalConsume round index count =>
    Inside cfg round index ∧ count = position cfg round index + 1
  | _ => False

def Consuming : Pc → Prop
  | consumed => True
  | waitConsume round index | read round index | signalProduce round index => Inside cfg round index
  | _ => False

end Pc

/-- The semaphores, the buffer and the consumed values in terms of the two positions. -/
structure Exchange (cfg : Config) (m : SharedData) (p c : Pc) : Prop where
  producing : p.Producing cfg
  consuming : c.Consuming cfg
  canConsume : m.canConsume + c.received cfg = p.offered cfg
  canProduce : m.canProduce + p.taken cfg = semInit cfg.bufferCapacity + c.freed cfg
  values : ∀ k, c.readCount cfg ≤ k → k < p.written cfg →
    m.buffer (k % cfg.bufferCapacity) = k + 1
  unread : ∀ slot, m.unread slot = true ↔
    ∃ k, c.readCount cfg ≤ k ∧ k < p.written cfg ∧ k % cfg.bufferCapacity = slot
  consumed : m.consumed = List.range' 1 (c.readCount cfg)

theorem semInit_le (value : ℕ) : semInit value ≤ value := by
  unfold semInit
  split
  · exact Nat.mod_le _ _
  · exact Nat.zero_le _

theorem mod_ne {a b n : ℕ} (hlt : a < b) (hb : b < a + n) : a % n ≠ b % n := by
  intro h
  have hdvd : n ∣ b - a := (Nat.modEq_iff_dvd' hlt.le).mp h
  have := Nat.le_of_dvd (by omega) hdvd
  omega

section Steps

variable {m : SharedData} {p c : Pc} {round index count : ℕ}

theorem freed_le (cfg : Config) (c : Pc) : c.freed cfg ≤ c.readCount cfg := by
  cases c <;> simp [Pc.freed, Pc.readCount]

theorem offered_le (cfg : Config) (p : Pc) : p.offered cfg ≤ p.written cfg := by
  cases p <;> simp [Pc.offered, Pc.written]

theorem readCount_le (cfg : Config) (c : Pc) : c.readCount cfg ≤ c.received cfg := by
  cases c <;> simp [Pc.readCount, Pc.received]

theorem Exchange.behind (I : Exchange cfg m p c) : c.readCount cfg ≤ p.offered cfg := by
  have := readCount_le cfg c
  have := I.canConsume
  omega

theorem written_le (cfg : Config) (p : Pc) : p.written cfg ≤ p.taken cfg := by
  cases p <;> simp [Pc.written, Pc.taken]

theorem Exchange.ahead (I : Exchange cfg m p c) :
    p.taken cfg ≤ c.readCount cfg + cfg.bufferCapacity := by
  have hp := I.canProduce
  have := semInit_le cfg.bufferCapacity
  have := freed_le cfg c
  omega

theorem Exchange.free (I : Exchange cfg m (.write round index count) c) :
    m.unread index = false := by
  rw [Bool.eq_false_iff]
  intro hu
  obtain ⟨k, hr, hw, hk⟩ := (I.unread index).mp hu
  have hahead := I.ahead
  simp only [Pc.written, Pc.taken] at hw hahead
  have hne := mod_ne (n := cfg.bufferCapacity) hw (by omega)
  rw [I.producing.1.mod] at hne
  exact hne hk

theorem Exchange.surplusWait (I : Exchange cfg m .surplusWait c) (h : 1 ≤ m.canProduce) :
    Exchange cfg { m with canProduce := m.canProduce - 1 } (.waitProduce 0 0 0) c := by
  refine ⟨⟨inside_zero, position_zero.symm⟩, I.consuming, ?_, ?_, ?_, ?_, I.consumed⟩
  · rw [Pc.offered, position_zero]
    exact I.canConsume
  · have hp := I.canProduce
    simp only [Pc.taken, position_zero] at hp ⊢
    omega
  · rw [Pc.written, position_zero]
    exact I.values
  · rw [Pc.written, position_zero]
    exact I.unread

theorem Exchange.waitProduce (I : Exchange cfg m (.waitProduce round index count) c)
    (h : 1 ≤ m.canProduce) :
    Exchange cfg { m with canProduce := m.canProduce - 1 } (.write round index count) c := by
  refine ⟨I.producing, I.consuming, I.canConsume, ?_, I.values, I.unread, I.consumed⟩
  have hp := I.canProduce
  simp only [Pc.taken] at hp ⊢
  omega

theorem Exchange.write (ht : total cfg ≤ 2 ^ 53)
    (I : Exchange cfg m (.write round index count) c) :
    Exchange cfg (m.write round index count).1 (m.write round index count).2 c := by
  obtain ⟨hinside, rfl⟩ := I.producing
  have hlt := hinside.lt
  have hmod : (position cfg round index + 1) % 2 ^ 64 = position cfg round index + 1 :=
    Nat.mod_eq_of_lt (by omega)
  have hround : toDouble (position cfg round index + 1) = position cfg round index + 1 :=
    toDouble_of_le (by omega)
  have hslot := hinside.mod
  have hahead := I.ahead
  simp only [Pc.taken] at hahead
  simp only [SharedData.write, hmod, hround]
  refine ⟨⟨hinside, rfl⟩, I.consuming, I.canConsume, I.canProduce, ?_, ?_, I.consumed⟩
  · intro k hr hw
    rw [Pc.written] at hw
    dsimp only
    by_cases hk : k = position cfg round index
    · subst hk
      rw [hslot, Function.update_self]
    · have hne := mod_ne (n := cfg.bufferCapacity) (a := k) (b := position cfg round index)
        (by omega) (by have := I.ahead; omega)
      rw [hslot] at hne
      rw [Function.update_of_ne hne]
      exact I.values k hr (by rw [Pc.written]; omega)
  · intro slot
    dsimp only
    by_cases hs : slot = index
    · subst hs
      rw [Function.update_self]
      exact iff_of_true rfl ⟨_, I.behind, Nat.lt_succ_self _, hslot⟩
    · rw [Function.update_of_ne hs, I.unread slot]
      constructor
      · rintro ⟨k, hr, hw, hk⟩
        exact ⟨k, hr, Nat.lt_succ_of_lt hw, hk⟩
      · rintro ⟨k, hr, hw, hk⟩
        refine ⟨k, hr, lt_of_le_of_ne (Nat.le_of_lt_succ hw) ?_, hk⟩
        rintro rfl
        exact hs (hk.symm.trans hslot)

theorem produceAfter_spec (hinside : Inside cfg round index)
    (hc : count = position cfg round index + 1) :
    (produceAfter cfg round index count).Producing cfg ∧
    (produceAfter cfg round index count).offered cfg = position cfg round index + 1 ∧
    (produceAfter cfg round index count).taken cfg = position cfg round index + 2 ∧
    (produceAfter cfg round index count).written cfg = position cfg round index + 1 := by
  unfold produceAfter
  rcases hinside.after with ⟨round', index', hafter, hinside', hpos⟩ | ⟨hafter, hpos⟩ <;>
    rw [hafter]
  · exact ⟨⟨hinside', hc.trans hpos.symm⟩, hpos, congrArg (· + 1) hpos, hpos⟩
  · exact ⟨trivial, hpos.symm, congrArg (· + 1) hpos.symm, hpos.symm⟩

theorem Exchange.signalConsume (I : Exchange cfg m (.signalConsume round index count) c) :
    Exchange cfg { m with canConsume := m.canConsume + 1 } (produceAfter cfg round index count)
      c := by
  obtain ⟨hproducing, hoffered, htaken, hwritten⟩ := produceAfter_spec I.producing.1 I.producing.2
  refine ⟨hproducing, I.consuming, ?_, ?_, ?_, ?_, I.consumed⟩
  · have hc := I.canConsume
    rw [Pc.offered] at hc
    rw [hoffered]
    dsimp only
    omega
  · rw [htaken]
    exact I.canProduce
  · rw [hwritten]
    exact I.values
  · rw [hwritten]
    exact I.unread

theorem Exchange.waitConsume (I : Exchange cfg m p (.waitConsume round index))
    (h : 1 ≤ m.canConsume) :
    Exchange cfg { m with canConsume := m.canConsume - 1 } p (.read round index) := by
  refine ⟨I.producing, I.consuming, ?_, I.canProduce, I.values, I.unread, I.consumed⟩
  have hc := I.canConsume
  simp only [Pc.received] at hc ⊢
  omega

theorem Exchange.read (I : Exchange cfg m p (.read round index)) :
    Exchange cfg (m.read round index).1 p (m.read round index).2 := by
  have hslot := I.consuming.mod
  have hread : position cfg round index < p.written cfg := by
    have hc := I.canConsume
    have := offered_le cfg p
    simp only [Pc.received] at hc
    omega
  have hahead : p.taken cfg ≤ position cfg round index + cfg.bufferCapacity := I.ahead
  have hwritten := written_le cfg p
  refine ⟨I.producing, I.consuming, I.canConsume, I.canProduce, ?_, ?_, ?_⟩
  · intro k hr hw
    exact I.values k (Nat.le_of_succ_le hr) hw
  · intro slot
    simp only [SharedData.read]
    by_cases hs : slot = index
    · subst hs
      rw [Function.update_self]
      refine iff_of_false Bool.false_ne_true ?_
      rintro ⟨k, hr, hw, hk⟩
      have hne := mod_ne (n := cfg.bufferCapacity) (a := position cfg round slot) (b := k)
        (Nat.lt_of_succ_le hr) (by omega)
      exact hne (hslot.trans hk.symm)
    · rw [Function.update_of_ne hs, I.unread slot]
      constructor
      · rintro ⟨k, hr, hw, hk⟩
        refine ⟨k, lt_of_le_of_ne hr ?_, hw, hk⟩
        rintro rfl
        exact hs (hk.symm.trans hslot)
      · rintro ⟨k, hr, hw, hk⟩
        exact ⟨k, Nat.le_of_succ_le hr, hw, hk⟩
  · have hvalue := I.values (position cfg round index) le_rfl hread
    rw [hslot] at hvalue
    simp only [SharedData.read, Pc.readCount, I.consumed, hvalue]
    rw [List.range'_1_concat, Nat.add_comm 1]

theorem consumeAfter_spec (hinside : Inside cfg round index) :
    (consumeAfter cfg round index).Consuming cfg ∧
    (consumeAfter cfg round index).received cfg = position cfg round index + 1 ∧
    (consumeAfter cfg round index).readCount cfg = position cfg round index + 1 ∧
    (consumeAfter cfg round index).freed cfg = position cfg round index + 1 := by
  unfold consumeAfter
  rcases hinside.after with ⟨round', index', hafter, hinside', hpos⟩ | ⟨hafter, hpos⟩ <;>
    rw [hafter]
  · exact ⟨hinside', hpos, hpos, hpos⟩
  · exact ⟨trivial, hpos.symm, hpos.symm, hpos.symm⟩

theorem Exchange.signalProduce (I : Exchange cfg m p (.signalProduce round index)) :
    Exchange cfg { m with canProduce := m.canProduce + 1 } p (consumeAfter cfg round index) := by
  obtain ⟨hconsuming, hreceived, hread, hfreed⟩ := consumeAfter_spec I.consuming
  refine ⟨I.producing, hconsuming, ?_, ?_, ?_, ?_, ?_⟩
  · rw [hreceived]
    exact I.canConsume
  · have hp := I.canProduce
    rw [Pc.freed] at hp
    rw [hfreed]
    dsimp only
    omega
  · rw [hread]
    exact I.values
  · rw [hread]
    exact I.unread
  · rw [hread]
    exact I.consumed

theorem waitCanProduce_of_pos (h : 1 ≤ m.canProduce) (n : Pc) :
    m.waitCanProduce n = some ({ m with canProduce := m.canProduce - 1 }, n) :=
  if_neg (Nat.ne_of_gt h)

theorem waitCanConsume_of_pos (h : 1 ≤ m.canConsume) (n : Pc) :
    m.waitCanConsume n = some ({ m with canConsume := m.canConsume - 1 }, n) :=
  if_neg (Nat.ne_of_gt h)

theorem waitCanProduce_eq_some {n : Pc} {r : SharedData × Pc} (h : m.waitCanProduce n = some r) :
    1 ≤ m.canProduce ∧ r = ({ m with canProduce := m.canProduce - 1 }, n) := by
  unfold SharedData.waitCanProduce at h
  split at h
  · cases h
  · exact ⟨by omega, (Option.some.inj h).symm⟩

theorem waitCanConsume_eq_some {n : Pc} {r : SharedData × Pc} (h : m.waitCanConsume n = some r) :
    1 ≤ m.canConsume ∧ r = ({ m with canConsume := m.canConsume - 1 }, n) := by
  unfold SharedData.waitCanConsume at h
  split at h
  · cases h
  · exact ⟨by omega, (Option.some.inj h).symm⟩

theorem access_cases {i : Thread} {pc : Pc} {run : SharedData → Option (SharedData × Pc)}
    {r : SharedData × Pc} (h : next cfg i pc = .access run) (hr : run m = some r) :
    (pc = .surplusWait ∧ 1 ≤ m.canProduce ∧
      r = ({ m with canProduce := m.canProduce - 1 }, .waitProduce 0 0 0)) ∨
    (∃ round index count, pc = .waitProduce round index count ∧ 1 ≤ m.canProduce ∧
      r = ({ m with canProduce := m.canProduce - 1 }, .write round index count)) ∨
    (∃ round index count, pc = .write round index count ∧ r = m.write round index count) ∨
    (∃ round index count, pc = .signalConsume round index count ∧
      r = ({ m with canConsume := m.canConsume + 1 }, produceAfter cfg round index count)) ∨
    (∃ round index, pc = .waitConsume round index ∧ 1 ≤ m.canConsume ∧
      r = ({ m with canConsume := m.canConsume - 1 }, .read round index)) ∨
    (∃ round index, pc = .read round index ∧ r = m.read round index) ∨
    (∃ round index, pc = .signalProduce round index ∧
      r = ({ m with canProduce := m.canProduce + 1 }, consumeAfter cfg round index)) := by
  cases pc with
  | surplusWait =>
    cases h
    exact .inl ⟨rfl, waitCanProduce_eq_some hr⟩
  | waitProduce round index count =>
    cases h
    exact .inr (.inl ⟨round, index, count, rfl, waitCanProduce_eq_some hr⟩)
  | write round index count =>
    cases h
    exact .inr (.inr (.inl ⟨round, index, count, rfl, (Option.some.inj hr).symm⟩))
  | signalConsume round index count =>
    cases h
    exact .inr (.inr (.inr (.inl ⟨round, index, count, rfl, (Option.some.inj hr).symm⟩)))
  | waitConsume round index =>
    cases h
    exact .inr (.inr (.inr (.inr (.inl ⟨round, index, rfl, waitCanConsume_eq_some hr⟩))))
  | read round index =>
    cases h
    exact .inr (.inr (.inr (.inr (.inr (.inl ⟨round, index, rfl, (Option.some.inj hr).symm⟩)))))
  | signalProduce round index =>
    cases h
    exact .inr (.inr (.inr (.inr (.inr (.inr ⟨round, index, rfl, (Option.some.inj hr).symm⟩)))))
  | produced => cases h
  | consumed => cases h

theorem reachable_exchange (ht : total cfg ≤ 2 ^ 53) {s : Run}
    (h : (code cfg).system.Reachable s) :
    Exchange cfg s.memory (s.thread .producer) (s.thread .consumer) := by
  apply Threads.reachable_invariant
    (I := fun m thread => Exchange cfg m (thread .producer) (thread .consumer)) _ _ _ h
  · refine ⟨trivial, inside_zero, ?_, ?_, ?_, ?_, ?_⟩ <;>
      simp [code, start, Pc.received, Pc.offered, Pc.taken, Pc.freed, Pc.readCount, Pc.written]
  · rintro s i m n - (hn | hn) - <;> exact m.elim
  · intro s i run r _ hn hr I
    -- each thread takes its own branches only
    cases i with
    | producer =>
      rw [Function.update_self, Function.update_of_ne (by simp)]
      have hp := I.producing
      rcases access_cases (i := .producer) hn hr with ⟨hpc, hc, rfl⟩ |
        ⟨round, index, count, hpc, hc, rfl⟩ |
        ⟨round, index, count, hpc, rfl⟩ | ⟨round, index, count, hpc, rfl⟩ |
        ⟨round, index, hpc, -, -⟩ | ⟨round, index, hpc, -⟩ | ⟨round, index, hpc, -⟩ <;>
      rw [hpc] at I hp
      · exact I.surplusWait hc
      · exact I.waitProduce hc
      · exact I.write ht
      · exact I.signalConsume
      · exact hp.elim
      · exact hp.elim
      · exact hp.elim
    | consumer =>
      rw [Function.update_self, Function.update_of_ne (by simp)]
      have hc := I.consuming
      rcases access_cases (i := .consumer) hn hr with ⟨hpc, -, -⟩ |
        ⟨round, index, count, hpc, -, -⟩ |
        ⟨round, index, count, hpc, -⟩ | ⟨round, index, count, hpc, -⟩ |
        ⟨round, index, hpc, hc', rfl⟩ | ⟨round, index, hpc, rfl⟩ | ⟨round, index, hpc, rfl⟩ <;>
      rw [hpc] at I hc
      · exact hc.elim
      · exact hc.elim
      · exact hc.elim
      · exact hc.elim
      · exact I.waitConsume hc'
      · exact I.read
      · exact I.signalProduce

end Steps

section Stuck

variable {s : Run}

theorem stuck_access (hs : (code cfg).system.Stuck s) (i : Thread) :
    next cfg i (s.thread i) = .finished ∨
      ∃ run, next cfg i (s.thread i) = .access run ∧ run s.memory = none := by
  have hi := hs i
  cases hn : next cfg i (s.thread i) with
  | finished => exact .inl rfl
  | lock m n => exact m.elim
  | unlock m n => exact m.elim
  | access run =>
    have hn' : (code cfg).next i (s.thread i) = .access run := hn
    simp only [Code.system, hn', Option.map_eq_none_iff] at hi
    exact .inr ⟨run, rfl, hi⟩

theorem stuck_producer (hs : (code cfg).system.Stuck s)
    (hp : (s.thread .producer).Producing cfg) :
    s.thread .producer = .produced ∨ s.memory.canProduce = 0 ∧
      (s.thread .producer = .surplusWait ∨
        ∃ round index count, s.thread .producer = .waitProduce round index count) := by
  have hst := stuck_access hs .producer
  cases hpc : s.thread .producer with
  | produced => exact .inl rfl
  | surplusWait =>
    simp only [hpc, next, reduceCtorEq, Instr.access.injEq, exists_eq_left', false_or,
      SharedData.waitCanProduce, ite_eq_left_iff] at hst
    exact .inr ⟨by simpa using hst, .inl rfl⟩
  | waitProduce round index count =>
    simp only [hpc, next, reduceCtorEq, Instr.access.injEq, exists_eq_left', false_or,
      SharedData.waitCanProduce, ite_eq_left_iff] at hst
    exact .inr ⟨by simpa using hst, .inr ⟨round, index, count, rfl⟩⟩
  | write => simp [hpc, next] at hst
  | signalConsume => simp [hpc, next] at hst
  | _ =>
    rw [hpc] at hp
    exact hp.elim

theorem stuck_consumer (hs : (code cfg).system.Stuck s)
    (hc : (s.thread .consumer).Consuming cfg) :
    s.thread .consumer = .consumed ∨ s.memory.canConsume = 0 ∧
      ∃ round index, s.thread .consumer = .waitConsume round index := by
  have hst := stuck_access hs .consumer
  cases hpc : s.thread .consumer with
  | consumed => exact .inl rfl
  | waitConsume round index =>
    simp only [hpc, next, reduceCtorEq, Instr.access.injEq, exists_eq_left', false_or,
      SharedData.waitCanConsume, ite_eq_left_iff] at hst
    exact .inr ⟨by simpa using hst, round, index, rfl⟩
  | read => simp [hpc, next] at hst
  | signalProduce => simp [hpc, next] at hst
  | _ =>
    rw [hpc] at hc
    exact hc.elim

theorem finished_of_stuck (I : Exchange cfg s.memory (s.thread .producer) (s.thread .consumer))
    (hv : 2 ≤ semInit cfg.bufferCapacity) (hs : (code cfg).system.Stuck s) :
    s.thread .producer = .produced ∧ s.thread .consumer = .consumed ∧
      s.memory.consumed.length = total cfg := by
  have hcanConsume := I.canConsume
  have hcanProduce := I.canProduce
  have hp := I.producing
  have hc := I.consuming
  -- a thread that waits finds 0 permits; not both can
  rcases stuck_consumer hs hc with hcons | ⟨hzero, round', index', hcons⟩ <;>
    rw [hcons] at hcanConsume hcanProduce hc <;>
    simp only [Pc.received, Pc.freed] at hcanConsume hcanProduce
  · rcases stuck_producer hs hp with hprod | ⟨hzero, hprod | ⟨round, index, count, hprod⟩⟩ <;>
      rw [hprod] at hcanConsume hcanProduce hp <;>
      simp only [Pc.offered, Pc.taken] at hcanConsume hcanProduce
    · refine ⟨hprod, hcons, ?_⟩
      rw [I.consumed, hcons, List.length_range']
      rfl
    · omega
    · have := hp.1.lt
      omega
  · have hlt : position cfg round' index' < total cfg := hc.lt
    rcases stuck_producer hs hp with hprod | ⟨hzero', hprod | ⟨round, index, count, hprod⟩⟩ <;>
      rw [hprod] at hcanConsume hcanProduce <;>
      simp only [Pc.offered, Pc.taken] at hcanConsume hcanProduce <;> omega

end Stuck

theorem exists_deadlock (hv : semInit cfg.bufferCapacity ≤ 1) :
    ∃ s, (code cfg).system.Reachable s ∧ (code cfg).system.Stuck s ∧
      s.thread .producer ≠ .produced := by
  by_cases h0 : semInit cfg.bufferCapacity = 0
  · refine ⟨_, System.Reachable.start, ?_, fun h => Pc.noConfusion h⟩
    rintro (- | -)
    · simp [Code.system, code, start, next, SharedData.waitCanProduce, h0]
    · simp [Code.system, code, start, next, SharedData.waitCanConsume]
  · have hwait : (code cfg).memory.waitCanProduce (.waitProduce 0 0 0) =
        some ({ (code cfg).memory with canProduce := (code cfg).memory.canProduce - 1 },
          .waitProduce 0 0 0) := if_neg h0
    have hstep := step_access (p := code cfg) (s := (code cfg).system.start) (i := .producer) rfl
      hwait
    have hone : semInit cfg.bufferCapacity - 1 = 0 := by omega
    refine ⟨_, System.Reachable.start.step hstep, ?_, fun h => Pc.noConfusion h⟩
    rintro (- | -)
    · simp [Code.system, code, next, SharedData.waitCanProduce, hone]
    · simp [Code.system, code, start, next, SharedData.waitCanConsume]

/-- Producer and consumer are about to exchange the value at position `k`. -/
structure Synced (cfg : Config) (k round index : ℕ) (s : Run) : Prop where
  inside : Inside cfg round index
  position : position cfg round index = k
  producer : s.thread .producer = .waitProduce round index k
  consumer : s.thread .consumer = .waitConsume round index
  canProduce : s.memory.canProduce + 1 = semInit cfg.bufferCapacity
  canConsume : s.memory.canConsume = 0
  length : s.memory.consumed.length = k

section Path

variable {s : Run} {i : Thread}

theorem exists_access (cfg : Config) {run : SharedData → Option (SharedData × Pc)}
    {r : SharedData × Pc}
    (hn : next cfg i (s.thread i) = .access run) (hr : run s.memory = some r) :
    ∃ t, (code cfg).system.Path s t ∧ t.memory = r.1 ∧ t.thread i = r.2 ∧
      ∀ j ≠ i, t.thread j = s.thread j := by
  refine ⟨_, System.Path.step (step_access (p := code cfg) hn hr), rfl, ?_, ?_⟩
  · rw [State.access_thread, Function.update_self]
  · intro j hj
    rw [State.access_thread, Function.update_of_ne hj]

theorem Synced.read {k round index : ℕ} (h : Synced cfg k round index s)
    (hv : 2 ≤ semInit cfg.bufferCapacity) (hk : k < 2 ^ 63) : ∃ t, (code cfg).system.Path s t ∧
      t.thread .producer = produceAfter cfg round index (k + 1) ∧
      t.thread .consumer = .signalProduce round index ∧
      t.memory.canProduce + 2 = semInit cfg.bufferCapacity ∧ t.memory.canConsume = 0 ∧
      t.memory.consumed = s.memory.consumed ++ [toDouble (k + 1)] := by
  have hmod : (k + 1) % 2 ^ 64 = k + 1 := Nat.mod_eq_of_lt (by omega)
  have hne : (.consumer : Thread) ≠ .producer := by decide
  have hne' : (.producer : Thread) ≠ .consumer := by decide
  have hcan := h.canProduce
  obtain ⟨s1, h1, hm1, hp1, hc1⟩ := exists_access cfg (s := s) (i := .producer)
    (by rw [h.producer]; rfl)
    (waitCanProduce_of_pos (show 1 ≤ s.memory.canProduce by omega) _)
  obtain ⟨s2, h2, hm2, hp2, hc2⟩ := exists_access cfg (s := s1) (i := .producer)
    (by rw [hp1]; rfl) rfl
  obtain ⟨s3, h3, hm3, hp3, hc3⟩ := exists_access cfg (s := s2) (i := .producer)
    (by rw [hp2]; rfl) rfl
  obtain ⟨s4, h4, hm4, hc4, hp4⟩ := exists_access cfg (s := s3) (i := .consumer)
    (by rw [hc3 _ hne, hc2 _ hne, hc1 _ hne, h.consumer]; rfl)
    (waitCanConsume_of_pos
      (show 1 ≤ s3.memory.canConsume by rw [hm3]; exact Nat.succ_pos _) _)
  obtain ⟨s5, h5, hm5, hc5, hp5⟩ := exists_access cfg (s := s4) (i := .consumer)
    (by rw [hc4]; rfl) rfl
  have hmem : s5.memory = ((({ s.memory with canProduce := s.memory.canProduce - 1 } :
      SharedData).write round index k).1.read round index).1 := by
    rw [hm5, hm4, hm3, hm2, hm1]
    simp only [SharedData.write, SharedData.read, Nat.add_sub_cancel]
  refine ⟨s5, (((h1.trans h2).trans h3).trans h4).trans h5, ?_, hc5, ?_, ?_, ?_⟩
  · rw [hp5 _ hne', hp4 _ hne', hp3]
    simp only [hmod]
  · rw [hmem]
    change s.memory.canProduce - 1 + 2 = _
    omega
  · rw [hmem]
    exact h.canConsume
  · rw [hmem]
    change s.memory.consumed ++ [Function.update s.memory.buffer index
      (toDouble ((k + 1) % 2 ^ 64)) index] = _
    rw [Function.update_self, hmod]

theorem Synced.succ {k round index : ℕ} (h : Synced cfg k round index s)
    (hv : 2 ≤ semInit cfg.bufferCapacity) (hk : k < 2 ^ 63) (ht : k + 1 < total cfg) :
    ∃ t round' index', (code cfg).system.Path s t ∧ Synced cfg (k + 1) round' index' t := by
  obtain ⟨t, hpath, hp, hc, hproduce, hconsume, hconsumed⟩ := h.read hv hk
  have hlength : t.memory.consumed.length = k + 1 := by
    rw [hconsumed, List.length_append, h.length]
    rfl
  rcases h.inside.after with ⟨round', index', hafter, hinside', hpos⟩ | ⟨-, hpos⟩
  · obtain ⟨r, hr, hmr, hcr, hpr⟩ := exists_access cfg (s := t) (i := .consumer)
      (by rw [hc]; rfl) rfl
    refine ⟨r, round', index', hpath.trans hr, hinside', hpos.trans (congrArg (· + 1) h.position),
      ?_, ?_, ?_, ?_, ?_⟩
    · rw [hpr _ (by decide), hp, produceAfter, hafter]
    · rw [hcr]
      simp only [consumeAfter, hafter]
    · rw [hmr]
      change t.memory.canProduce + 1 + 1 = _
      omega
    · rw [hmr]
      exact hconsume
    · rw [hmr]
      exact hlength
  · rw [h.position] at hpos
    omega

theorem exists_synced (hv : 2 ≤ semInit cfg.bufferCapacity) {k : ℕ} (hk : k < total cfg)
    (hk' : k ≤ 2 ^ 53) :
    ∃ s round index, (code cfg).system.Reachable s ∧ Synced cfg k round index s := by
  induction k with
  | zero =>
    obtain ⟨t, ht, hmt, hpt, hct⟩ := exists_access cfg (s := (code cfg).system.start)
      (i := .producer) rfl (waitCanProduce_of_pos (show 1 ≤ semInit _ by omega) _)
    refine ⟨t, 0, 0, ht, inside_zero, position_zero, hpt, hct _ (by decide), ?_, ?_, ?_⟩
    · rw [hmt]
      change semInit cfg.bufferCapacity - 1 + 1 = _
      omega
    · rw [hmt]
      rfl
    · rw [hmt]
      rfl
  | succ k ih =>
    obtain ⟨s, round, index, hs, hsync⟩ := ih (by omega) (by omega)
    obtain ⟨t, round', index', hpath, hsync'⟩ := hsync.succ hv (by omega) hk
    exact ⟨t, round', index', hs.path hpath, hsync'⟩

theorem exists_rounded (hv : 2 ≤ semInit cfg.bufferCapacity) (ht : 2 ^ 53 < total cfg) :
    ∃ s, (code cfg).system.Reachable s ∧
      s.memory.consumed ≠ List.range' 1 s.memory.consumed.length := by
  obtain ⟨s, round, index, hs, hsync⟩ := exists_synced hv ht le_rfl
  obtain ⟨t, hpath, -, -, -, -, hconsumed⟩ := hsync.read hv (by omega)
  refine ⟨t, hs.path hpath, fun h => toDouble_ne ?_⟩
  rw [hconsumed, List.length_append, hsync.length, List.length_singleton, List.range'_1_concat,
    Nat.add_comm 1] at h
  exact List.singleton_inj.mp (List.append_inj_right h (by simp [hsync.length]))

end Path

/-- No value is overwritten before it is read, the values come in order, and no run gets stuck,
exactly when the `unsigned` value of the semaphore is at least 2 and not too large, and every
count fits a double. -/
theorem correct_iff (cfg : Config) :
    (∀ s, (code cfg).system.Reachable s → Correct cfg s) ↔
      2 ≤ cfg.bufferCapacity % 2 ^ 32 ∧ cfg.bufferCapacity % 2 ^ 32 < 2 ^ 31 ∧
        cfg.bufferCapacity * cfg.rounds ≤ 2 ^ 53 := by
  have hinit : 2 ≤ semInit cfg.bufferCapacity ↔
      2 ≤ cfg.bufferCapacity % 2 ^ 32 ∧ cfg.bufferCapacity % 2 ^ 32 < 2 ^ 31 := by
    unfold semInit semValueMax
    split <;> omega
  rw [← and_assoc, ← hinit]
  constructor
  · intro h
    have hv : 2 ≤ semInit cfg.bufferCapacity := by
      by_contra hv
      obtain ⟨s, hr, hs, hp⟩ := exists_deadlock (show semInit cfg.bufferCapacity ≤ 1 by omega)
      exact hp ((h s hr).progress hs).1
    refine ⟨hv, ?_⟩
    by_contra ht
    obtain ⟨s, hr, hs⟩ := exists_rounded hv (Nat.lt_of_not_le ht)
    exact hs (h s hr).consumed
  · rintro ⟨hv, ht⟩ s hr
    have I := reachable_exchange ht hr
    refine ⟨fun round index count hp => ?_, ?_, finished_of_stuck I hv⟩
    · rw [hp] at I
      exact I.free
    · rw [I.consumed, List.length_range']

def oneSlot : Config := ⟨1, 1, Nat.one_pos, Nat.one_pos, by decide, one_lt_word⟩

/-- The wait before the loops takes the only permit. -/
theorem oneSlot_deadlock : ∃ s, (code oneSlot).system.run [.producer] = some s ∧
    (code oneSlot).system.Reachable s ∧ (code oneSlot).system.Stuck s ∧
    s.thread .producer ≠ .produced ∧ s.memory.consumed.length < total oneSlot := by
  obtain ⟨s, hs⟩ : ∃ s, (code oneSlot).system.run [.producer] = some s := ⟨_, rfl⟩
  refine ⟨s, hs, System.reachable_run hs, ?_⟩
  cases hs
  refine ⟨?_, fun h => Pc.noConfusion h, Nat.one_pos⟩
  rintro (- | -) <;> rfl

end Concurrente.ProdConsBound
