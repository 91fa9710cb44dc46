import Concurrente.SimulBound.Program

/-!
# The stages of the network

One invariant for each stage relates where its threads are to what they have
dequeued and enqueued so far.
-/

namespace Concurrente.SimulBound

open Prodcons

variable {cfg : Config}

abbrev Net (cfg : Config) := Snapshot (Thread cfg) QueueId NetworkMessage Pc Counter

def numbered (m : ℕ) (l : List NetworkMessage) : ℕ := l.countP fun d => d.messageNumber = m

@[simp] theorem numbered_nil (m : ℕ) : numbered m [] = 0 := rfl

@[simp] theorem numbered_append (m : ℕ) (l l' : List NetworkMessage) :
    numbered m (l ++ l') = numbered m l + numbered m l' := List.countP_append

theorem numbered_singleton (m : ℕ) (d : NetworkMessage) :
    numbered m [d] = if d.messageNumber = m then 1 else 0 := by
  simp [numbered, List.countP_cons]

theorem numbered_stop {m : ℕ} (hm : 1 ≤ m) : numbered m [stopCondition] = 0 := by
  rw [numbered_singleton, if_neg]
  intro h
  simp only [stopCondition] at h
  omega

structure Ordinary (cfg : Config) (d : NetworkMessage) : Prop where
  target_pos : 1 ≤ d.target
  target_le : d.target ≤ cfg.consumerCount
  number_le : d.messageNumber ≤ cfg.packageCount

theorem Ordinary.ne_stop {d : NetworkMessage} (h : Ordinary cfg d) : d ≠ stopCondition := by
  rintro rfl
  exact absurd h.target_pos (by decide)

theorem createMessage_ordinary {k : ℕ} (hk : k ≤ cfg.packageCount) (x : Choice) :
    Ordinary cfg (createMessage cfg x k) := by
  have := Nat.mod_lt x.target cfg.consumerCount_pos
  constructor <;> simp only [createMessage] <;> omega

namespace Pc

/-- The caller of `++producedCount` has the mutex. -/
def owner : Pc → ℕ
  | count | leave _ => 1
  | _ => 0

/-- The producer has drawn a number beyond the packages. -/
def past (packageCount : ℕ) : Pc → ℕ
  | leave k => if packageCount < k then 1 else 0
  | produceStop | returned => 1
  | _ => 0

def holds (m : ℕ) : Pc → ℕ
  | leave k | create k => if k = m then 1 else 0
  | produce d => if d.messageNumber = m then 1 else 0
  | _ => 0

/-- The producer is to send the stop condition. -/
def stops (lastProduced : ℕ) : Pc → ℕ
  | leave k => if k = lastProduced then 1 else 0
  | produceStop => 1
  | _ => 0

def Producer (cfg : Config) : Pc → Prop
  | claim | count | produceStop | returned => True
  | leave k => k < 2 ^ 64
  | create k => k ≤ cfg.packageCount
  | produce d => Ordinary cfg d
  | _ => False

/-- The number that the producer holds is positive. -/
def Positive : Pc → Prop
  | leave k | create k => 1 ≤ k
  | produce d => 1 ≤ d.messageNumber
  | _ => True

end Pc

def producers (s : Net cfg) (i : Fin cfg.producerCount) : Pc := s.thread (.producer i)

/-- One producer at most has the mutex, and all create ordinary messages. -/
structure Claiming (s : Net cfg) : Prop where
  owners : ∑ i, (producers s i).owner = s.memory.locked.toNat
  producer : ∀ i, (producers s i).Producer cfg
  ordinary : ∀ d ∈ s.enqueued .assembler, d = stopCondition ∨ Ordinary cfg d

/-- The producers together have drawn the numbers up to `producedCount` and have handed each
of them on once. -/
structure Producing (s : Net cfg) : Prop where
  past : ∑ i, (producers s i).past cfg.packageCount = s.memory.producedCount - cfg.packageCount
  holds : ∀ m, 1 ≤ m → m ≤ cfg.packageCount →
    (if s.memory.producedCount < m then 1 else 0) + ∑ i, (producers s i).holds m +
      numbered m (s.enqueued .assembler) = 1
  stops : (if s.memory.producedCount < cfg.lastProduced then 1 else 0) +
    ∑ i, (producers s i).stops cfg.lastProduced +
      (s.enqueued .assembler).count stopCondition = 1
  positive : ∀ i, (producers s i).Positive
  numbers : ∀ d ∈ s.enqueued .assembler, d = stopCondition ∨ 1 ≤ d.messageNumber
  last : StopLast (s.enqueued .assembler)

section Producers

variable {s t : Net cfg} {i : Fin cfg.producerCount} {x : Choice} {c : QueueId → ℕ∞} {pc : Pc}

theorem producers_update (h : t.thread = Function.update s.thread (.producer i) pc) :
    producers t = Function.update (producers s) i pc := by
  funext j
  rw [producers, h]
  by_cases hj : j = i
  · subst hj
    rw [Function.update_self, Function.update_self]
  · rw [Function.update_of_ne hj, Function.update_of_ne (fun he => hj (Thread.producer.inj he))]
    rfl

theorem sum_producers (h : t.thread = Function.update s.thread (.producer i) pc) (w : Pc → ℕ) :
    ∑ j, w (producers t j) + w (producers s i) = ∑ j, w (producers s j) + w pc := by
  rw [producers_update h]
  exact sum_update (Finset.mem_univ i) (producers s) (fun _ => w) pc

theorem producers_forall (P : Pc → Prop) (hP : ∀ j, P (producers s j))
    (h : t.thread = Function.update s.thread (.producer i) pc) (hpc : P pc)
    (j : Fin cfg.producerCount) : P (producers t j) := by
  rw [producers_update h]
  exact all_update hP hpc j

theorem past_le_one (P : ℕ) (pc : Pc) : pc.past P ≤ 1 := by
  cases pc <;> simp only [Pc.past] <;> (try split) <;> omega

theorem producedCount_lt (I : Producing s) (hi : (producers s i).past cfg.packageCount = 0) :
    s.memory.producedCount < cfg.packageCount + cfg.producerCount := by
  have hlt : ∑ i, (producers s i).past cfg.packageCount < ∑ _i : Fin cfg.producerCount, 1 := by
    apply Finset.sum_lt_sum (fun i _ => past_le_one _ _)
    exact ⟨i, Finset.mem_univ i, by rw [hi]; exact Nat.one_pos⟩
  have := I.past
  simp only [Finset.sum_const, Finset.card_univ, Fintype.card_fin, smul_eq_mul, mul_one] at hlt
  have hn : 0 < cfg.producerCount := i.pos
  omega

theorem producer_cases (h : ((network cfg).atomic c).step s (.producer i, x) = some t) :
    (producers s i = .claim ∧ s.memory.locked = false ∧
      t = s.compute (.producer i) ({ s.memory with locked := true }, .count)) ∨
    (producers s i = .count ∧
      t = s.compute (.producer i)
        ({ s.memory with producedCount := (s.memory.producedCount + 1) % 2 ^ 64 },
          .leave ((s.memory.producedCount + 1) % 2 ^ 64))) ∨
    (∃ k, producers s i = .leave k ∧
      t = s.compute (.producer i) ({ s.memory with locked := false }, afterClaim cfg k)) ∨
    (∃ k, producers s i = .create k ∧
      t = s.compute (.producer i) (s.memory, .produce (createMessage cfg x k))) ∨
    (∃ d, producers s i = .produce d ∧ t = s.push (.producer i) .assembler d .claim) ∨
    (producers s i = .produceStop ∧
      t = s.push (.producer i) .assembler stopCondition .returned) := by
  rcases Network.atomic_cases h with ⟨dest, data, nxt, hn, -, rfl⟩ |
    ⟨source, nxt, data, rest, hn, -, -⟩ | ⟨run, r, hn, hr, rfl⟩ <;>
  change next cfg _ (producers s i) = _ at hn
  · cases hpc : producers s i with
    | produce d =>
      simp only [next, hpc, Instr.call.injEq, Op.enqueue.injEq] at hn
      obtain ⟨rfl, rfl, rfl⟩ := hn
      exact .inr (.inr (.inr (.inr (.inl ⟨d, rfl, rfl⟩))))
    | produceStop =>
      simp only [next, hpc, Instr.call.injEq, Op.enqueue.injEq] at hn
      obtain ⟨rfl, rfl, rfl⟩ := hn
      exact .inr (.inr (.inr (.inr (.inr ⟨rfl, rfl⟩))))
    | _ => simp [next, hpc] at hn
  · cases hpc : producers s i <;> simp [next, hpc] at hn
  · cases hpc : producers s i with
    | claim =>
      simp only [next, hpc, Instr.compute.injEq] at hn
      subst hn
      dsimp only at hr
      split at hr
      · cases hr
      · rename_i hl
        cases hr
        exact .inl ⟨rfl, by simpa using hl, rfl⟩
    | count =>
      simp only [next, hpc, Instr.compute.injEq] at hn
      subst hn
      cases hr
      exact .inr (.inl ⟨rfl, rfl⟩)
    | leave k =>
      simp only [next, hpc, Instr.compute.injEq] at hn
      subst hn
      cases hr
      exact .inr (.inr (.inl ⟨k, rfl, rfl⟩))
    | create k =>
      simp only [next, hpc, Instr.compute.injEq] at hn
      subst hn
      cases hr
      exact .inr (.inr (.inr (.inl ⟨k, rfl, rfl⟩)))
    | _ => simp [next, hpc] at hn

theorem afterClaim_cases (cfg : Config) (k : ℕ) :
    (k ≤ cfg.packageCount ∧ afterClaim cfg k = .create k) ∨
    (cfg.packageCount < k ∧ k = cfg.lastProduced ∧ afterClaim cfg k = .produceStop) ∨
    (cfg.packageCount < k ∧ k ≠ cfg.lastProduced ∧ afterClaim cfg k = .returned) := by
  by_cases hk : k ≤ cfg.packageCount
  · exact .inl ⟨hk, if_pos hk⟩
  · have hlt := Nat.lt_of_not_le hk
    by_cases hL : k = cfg.lastProduced
    · exact .inr (.inl ⟨hlt, hL, by rw [afterClaim, if_neg hk, if_pos hL]⟩)
    · exact .inr (.inr ⟨hlt, hL, by rw [afterClaim, if_neg hk, if_neg hL]⟩)

theorem Claiming.compute {r : Counter × Pc} (I : Claiming s) (hpc : r.2.Producer cfg)
    (howner : r.2.owner + s.memory.locked.toNat = (producers s i).owner + r.1.locked.toNat) :
    Claiming (s.compute (.producer i) r) := by
  constructor
  · have h1 := sum_producers (s := s) (t := s.compute (.producer i) r) rfl Pc.owner
    have h2 := I.owners
    rw [Snapshot.compute_memory]
    omega
  · exact producers_forall _ I.producer rfl hpc
  · exact I.ordinary

theorem Claiming.push {d : NetworkMessage} {nxt : Pc} (I : Claiming s)
    (hpc : nxt.Producer cfg) (howner : nxt.owner = (producers s i).owner)
    (hd : d = stopCondition ∨ Ordinary cfg d) :
    Claiming (s.push (.producer i) .assembler d nxt) := by
  constructor
  · have h1 := sum_producers (s := s) (t := s.push (.producer i) .assembler d nxt) rfl Pc.owner
    have h2 := I.owners
    rw [Snapshot.push_memory]
    omega
  · exact producers_forall _ I.producer rfl hpc
  · rw [Snapshot.push_enqueued, Function.update_self]
    exact forall_append I.ordinary hd

theorem Claiming.locked (I : Claiming s) (hi : (producers s i).owner = 1) :
    s.memory.locked = true := by
  have hle := weight_le_sum (Finset.mem_univ i) (fun j => (producers s j).owner)
  rw [I.owners, hi] at hle
  cases hb : s.memory.locked with
  | true => rfl
  | false =>
    rw [hb] at hle
    exact absurd hle (by decide)

theorem claiming_step (I : Claiming s)
    (h : ((network cfg).atomic c).step s (.producer i, x) = some t) : Claiming t := by
  have hi := I.producer i
  rcases producer_cases h with ⟨hpc, hl, rfl⟩ | ⟨hpc, rfl⟩ | ⟨k, hpc, rfl⟩ | ⟨k, hpc, rfl⟩ |
    ⟨d, hpc, rfl⟩ | ⟨hpc, rfl⟩ <;> rw [hpc] at hi
  · apply I.compute
    · trivial
    · rw [hpc, hl]
      rfl
  · apply I.compute
    · exact Nat.mod_lt _ (by decide)
    · rw [hpc]
      rfl
  · have hl := I.locked (i := i) (by rw [hpc]; rfl)
    rcases afterClaim_cases cfg k with ⟨hk, ha⟩ | ⟨hk, -, ha⟩ | ⟨hk, -, ha⟩ <;> rw [ha]
    · apply I.compute
      · exact hk
      · rw [hpc, hl]
        rfl
    · apply I.compute
      · trivial
      · rw [hpc, hl]
        rfl
    · apply I.compute
      · trivial
      · rw [hpc, hl]
        rfl
  · apply I.compute
    · exact createMessage_ordinary hi x
    · rw [hpc]
      rfl
  · apply I.push
    · trivial
    · rw [hpc]
      rfl
    · exact .inr hi
  · apply I.push
    · trivial
    · rw [hpc]
      rfl
    · exact .inl rfl

theorem Producing.compute {r : Counter × Pc} (I : Producing s) (hpos : r.2.Positive)
    (hpast : r.2.past cfg.packageCount + (s.memory.producedCount - cfg.packageCount) =
      (producers s i).past cfg.packageCount + (r.1.producedCount - cfg.packageCount))
    (hholds : ∀ m, 1 ≤ m → m ≤ cfg.packageCount →
      (if r.1.producedCount < m then 1 else 0) + r.2.holds m =
        (if s.memory.producedCount < m then 1 else 0) + (producers s i).holds m)
    (hstops : (if r.1.producedCount < cfg.lastProduced then 1 else 0) + r.2.stops cfg.lastProduced =
      (if s.memory.producedCount < cfg.lastProduced then 1 else 0) +
        (producers s i).stops cfg.lastProduced) :
    Producing (s.compute (.producer i) r) := by
  have hsum := sum_producers (s := s) (t := s.compute (.producer i) r) rfl
  constructor
  · have h1 := hsum (Pc.past cfg.packageCount)
    have h2 := I.past
    rw [Snapshot.compute_memory]
    omega
  · intro m hm hm'
    have h1 := hsum (Pc.holds m)
    have h2 := I.holds m hm hm'
    have h3 := hholds m hm hm'
    rw [Snapshot.compute_memory, Snapshot.compute_enqueued]
    omega
  · have h1 := hsum (Pc.stops cfg.lastProduced)
    have h2 := I.stops
    rw [Snapshot.compute_memory, Snapshot.compute_enqueued]
    omega
  · exact producers_forall _ I.positive rfl hpos
  · exact I.numbers
  · exact I.last

theorem Producing.push {d : NetworkMessage} {nxt : Pc} (I : Producing s) (hpos : nxt.Positive)
    (hpast : nxt.past cfg.packageCount = (producers s i).past cfg.packageCount)
    (hholds : ∀ m, 1 ≤ m → m ≤ cfg.packageCount →
      nxt.holds m + numbered m [d] = (producers s i).holds m)
    (hstops : nxt.stops cfg.lastProduced + [d].count stopCondition =
      (producers s i).stops cfg.lastProduced)
    (hd : d = stopCondition ∨ 1 ≤ d.messageNumber)
    (hlast : stopCondition ∉ s.enqueued .assembler) :
    Producing (s.push (.producer i) .assembler d nxt) := by
  have hin : (s.push (.producer i) .assembler d nxt).enqueued .assembler =
    s.enqueued .assembler ++ [d] := by rw [Snapshot.push_enqueued, Function.update_self]
  have hsum := sum_producers (s := s) (t := s.push (.producer i) .assembler d nxt) rfl
  constructor
  · have h1 := hsum (Pc.past cfg.packageCount)
    have h2 := I.past
    rw [Snapshot.push_memory]
    omega
  · intro m hm hm'
    have h1 := hsum (Pc.holds m)
    have h2 := I.holds m hm hm'
    have h3 := hholds m hm hm'
    rw [hin, numbered_append, Snapshot.push_memory]
    omega
  · have h1 := hsum (Pc.stops cfg.lastProduced)
    have h2 := I.stops
    rw [hin, List.count_append, Snapshot.push_memory]
    omega
  · exact producers_forall _ I.positive rfl hpos
  · rw [hin]
    exact forall_append I.numbers hd
  · rw [hin]
    exact StopLast.append hlast d

theorem stop_notMem_of_past (hL : cfg.packageCount + cfg.producerCount < 2 ^ 64)
    (I : Producing s) (hi : (producers s i).past cfg.packageCount = 0) :
    stopCondition ∉ s.enqueued .assembler := by
  have hlt := producedCount_lt I hi
  have hlast : cfg.lastProduced = cfg.packageCount + cfg.producerCount := Nat.mod_eq_of_lt hL
  have := I.stops
  rw [hlast, if_pos hlt] at this
  apply List.count_eq_zero.mp
  omega

theorem stop_notMem_of_stops (I : Producing s) (hi : (producers s i).stops cfg.lastProduced = 1) :
    stopCondition ∉ s.enqueued .assembler := by
  have hle := weight_le_sum (Finset.mem_univ i) (fun j => (producers s j).stops cfg.lastProduced)
  have hst := I.stops
  rw [hi] at hle
  apply List.count_eq_zero.mp
  omega

theorem Producing.count (hL : cfg.packageCount + cfg.producerCount < 2 ^ 64) (I : Producing s)
    (hpc : producers s i = .count) :
    Producing (s.compute (.producer i)
      ({ s.memory with producedCount := (s.memory.producedCount + 1) % 2 ^ 64 },
        .leave ((s.memory.producedCount + 1) % 2 ^ 64))) := by
  have hlt := producedCount_lt (i := i) I (by rw [hpc]; rfl)
  have hw : (s.memory.producedCount + 1) % 2 ^ 64 = s.memory.producedCount + 1 :=
    Nat.mod_eq_of_lt (by omega)
  rw [hw]
  apply I.compute
  · exact Nat.le_add_left _ _
  · simp only [hpc, Pc.past]
    split <;> omega
  · intro m hm hm'
    simp only [hpc, Pc.holds]
    split <;> split <;> split <;> omega
  · simp only [hpc, Pc.stops]
    split <;> split <;> split <;> omega

theorem Producing.afterClaim (hL : cfg.packageCount + cfg.producerCount < 2 ^ 64)
    (I : Producing s) {k : ℕ} (hpc : producers s i = .leave k) (hi : 1 ≤ k) :
    Producing (s.compute (.producer i)
      ({ s.memory with locked := false }, afterClaim cfg k)) := by
  have hlast : cfg.lastProduced = cfg.packageCount + cfg.producerCount := Nat.mod_eq_of_lt hL
  have hN := cfg.producerCount_pos
  rcases afterClaim_cases cfg k with ⟨hk, ha⟩ | ⟨hk, hk', ha⟩ | ⟨hk, hk', ha⟩ <;> rw [ha]
  · have hkL : k ≠ cfg.lastProduced := by omega
    apply I.compute
    · exact hi
    · simp only [hpc, Pc.past, if_neg (Nat.not_lt.mpr hk)]
    · intro m hm hm'
      simp only [hpc, Pc.holds]
    · simp only [hpc, Pc.stops, if_neg hkL]
  · apply I.compute
    · trivial
    · simp only [hpc, Pc.past, if_pos hk]
    · intro m hm hm'
      simp only [hpc, Pc.holds, if_neg (show k ≠ m by omega)]
    · simp only [hpc, Pc.stops, if_pos hk']
  · apply I.compute
    · trivial
    · simp only [hpc, Pc.past, if_pos hk]
    · intro m hm hm'
      simp only [hpc, Pc.holds, if_neg (show k ≠ m by omega)]
    · simp only [hpc, Pc.stops, if_neg hk']

theorem producing_step (hL : cfg.packageCount + cfg.producerCount < 2 ^ 64) (I : Producing s)
    (h : ((network cfg).atomic c).step s (.producer i, x) = some t) : Producing t := by
  have hi := I.positive i
  rcases producer_cases h with ⟨hpc, hl, rfl⟩ | ⟨hpc, rfl⟩ | ⟨k, hpc, rfl⟩ | ⟨k, hpc, rfl⟩ |
    ⟨d, hpc, rfl⟩ | ⟨hpc, rfl⟩ <;> rw [hpc] at hi
  · apply I.compute <;> simp [hpc, Pc.Positive, Pc.past, Pc.holds, Pc.stops]
  · exact I.count hL hpc
  · exact I.afterClaim hL hpc hi
  · apply I.compute
    · exact hi
    · simp only [hpc, Pc.past]
    · intro m hm hm'
      simp only [hpc, Pc.holds]
      rfl
    · simp only [hpc, Pc.stops]
  · have hd : d ≠ stopCondition := by
      rintro rfl
      exact absurd (show 1 ≤ 0 from hi) (by decide)
    apply I.push
    · trivial
    · simp only [hpc, Pc.past]
    · intro m hm hm'
      simp only [hpc, Pc.holds, numbered_singleton, Nat.zero_add]
    · simp [hpc, Pc.stops, hd]
    · exact .inr hi
    · exact stop_notMem_of_past hL I (by rw [hpc]; rfl)
  · apply I.push
    · trivial
    · simp only [hpc, Pc.past]
    · intro m hm hm'
      simp only [hpc, Pc.holds, numbered_stop hm]
    · simp [hpc, Pc.stops]
    · exact .inl rfl
    · exact stop_notMem_of_stops I (by rw [hpc]; rfl)

/-- No producer is or will be told to send the stop condition. -/
structure Unstopped (s : Net cfg) : Prop where
  producer : ∀ i, producers s i ≠ .produceStop
  never : stopCondition ∉ s.enqueued .assembler

theorem unstopped_step (hL : cfg.lastProduced ≤ cfg.packageCount) (J : Claiming s)
    (I : Unstopped s) (h : ((network cfg).atomic c).step s (.producer i, x) = some t) :
    Unstopped t := by
  have hi := J.producer i
  rcases producer_cases h with ⟨hpc, hl, rfl⟩ | ⟨hpc, rfl⟩ | ⟨k, hpc, rfl⟩ | ⟨k, hpc, rfl⟩ |
    ⟨d, hpc, rfl⟩ | ⟨hpc, -⟩
  · exact ⟨producers_forall (· ≠ .produceStop) I.producer rfl (by simp), I.never⟩
  · exact ⟨producers_forall (· ≠ .produceStop) I.producer rfl (by simp), I.never⟩
  · refine ⟨producers_forall (· ≠ .produceStop) I.producer rfl ?_, I.never⟩
    rcases afterClaim_cases cfg k with ⟨hk, ha⟩ | ⟨hk, hk', ha⟩ | ⟨hk, hk', ha⟩
    · simp [ha]
    · omega
    · simp [ha]
  · exact ⟨producers_forall (· ≠ .produceStop) I.producer rfl (by simp), I.never⟩
  · rw [hpc] at hi
    refine ⟨producers_forall (· ≠ .produceStop) I.producer rfl (by simp), ?_⟩
    rw [Snapshot.push_enqueued, Function.update_self]
    simp [I.never, hi.ne_stop.symm]
  · exact absurd hpc (I.producer i)

end Producers

end Concurrente.SimulBound
