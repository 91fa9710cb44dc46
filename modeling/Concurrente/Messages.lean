import Concurrente.Iteration
import Concurrente.Team

/-!
# Processes that exchange messages

A process reports, sends a message, waits for a message of one process or of any, or meets the
others at a barrier.  The messages from one process to another keep their order; a send waits while
as many of them as the system buffers are on the way, unless the other one waits for it.
-/

namespace Concurrente.Messages

variable {ι μ σ τ : Type*}

/-- Of `n + 1` processes there is a first one. -/
scoped instance (priority := 2000) firstProcess (n : ℕ) : NeZero (n + 1) := ⟨Nat.succ_ne_zero n⟩

/-- What a process does next. -/
inductive Instr (ι μ σ τ : Type*) where
  | report (line : τ) (next : σ)
  | send (dest : ι) (message : μ) (next : σ)
  | receive (source : Option ι) (next : μ → σ)
  | enter (next : σ)
  | leave (next : σ)
  | finished

/-- A receive without a source takes a message of any process. -/
def Matches (source : Option ι) (i : ι) : Prop := source.getD i = i

instance [DecidableEq ι] (source : Option ι) (i : ι) : Decidable (Matches source i) :=
  inferInstanceAs (Decidable (source.getD i = i))

@[simp] theorem matches_none (i : ι) : Matches none i := rfl

@[simp] theorem matches_some {i j : ι} : Matches (some j) i ↔ j = i := Iff.rfl

/-- The process of the rank before. -/
def previous {n : ℕ} (i : Fin n) : Fin n := ⟨i - 1, (Nat.sub_le _ _).trans_lt i.isLt⟩

/-- What the processes run. -/
structure Code (ι μ σ τ : Type*) where
  start : ι → σ
  next : ι → σ → Instr ι μ σ τ

structure State (ι μ σ τ : Type*) where
  process : ι → σ
  /-- The messages on the way from a process to another. -/
  channel : ι → ι → List μ
  /-- The messages that a process has received, with their sources. -/
  received : ι → List (ι × μ)
  entered : ι → ℕ
  output : List (ι × τ)

section Steps

variable [DecidableEq ι]

namespace State

variable (s : State ι μ σ τ) (i : ι)

def report (line : τ) (next : σ) : State ι μ σ τ :=
  { s with
    process := Function.update s.process i next
    output := s.output ++ [(i, line)] }

def send (dest : ι) (message : μ) (next : σ) : State ι μ σ τ :=
  { s with
    process := Function.update s.process i next
    channel := Function.update s.channel i
      (Function.update (s.channel i) dest (s.channel i dest ++ [message])) }

def receive (source : ι) (message : μ) (rest : List μ) (next : σ) : State ι μ σ τ :=
  { s with
    process := Function.update s.process i next
    channel := Function.update s.channel source (Function.update (s.channel source) i rest)
    received := Function.update s.received i (s.received i ++ [(source, message)]) }

def enter (next : σ) : State ι μ σ τ :=
  { s with
    process := Function.update s.process i next
    entered := Function.update s.entered i (s.entered i + 1) }

def leave (next : σ) : State ι μ σ τ :=
  { s with process := Function.update s.process i next }

end State

/-- The process waits for a message of this source, and none that it waits for is on the way. -/
def Ready (p : Code ι μ σ τ) (s : State ι μ σ τ) (i source : ι) : Prop :=
  match p.next i (s.process i) with
  | .receive wanted _ => Matches wanted source ∧ ∀ j, Matches wanted j → s.channel j i = []
  | _ => False

instance [Fintype ι] (p : Code ι μ σ τ) (s : State ι μ σ τ) (i source : ι) :
    Decidable (Ready p s i source) := by
  unfold Ready
  split <;> infer_instance

variable [Fintype ι]

/-- The action says who moves, and whose message it takes if it receives; `limit` messages of a
channel are buffered. -/
def Code.system (p : Code ι μ σ τ) (limit : ℕ) : System (State ι μ σ τ) (ι × ι) where
  start := ⟨p.start, fun _ _ => [], fun _ => [], fun _ => 0, []⟩
  step s x :=
    match p.next x.1 (s.process x.1) with
    | .report line next => some (s.report x.1 line next)
    | .send dest message next =>
      if (s.channel x.1 dest).length < limit ∨ Ready p s dest x.1 then
        some (s.send x.1 dest message next)
      else none
    | .receive source next =>
      if Matches source x.2 then
        match s.channel x.2 x.1 with
        | [] => none
        | message :: rest => some (s.receive x.1 x.2 message rest (next message))
      else none
    | .enter next => some (s.enter x.1 next)
    -- nobody leaves a barrier that somebody has not entered
    | .leave next => if ∀ j, s.entered x.1 ≤ s.entered j then some (s.leave x.1 next) else none
    | .finished => none

variable {p : Code ι μ σ τ} {limit : ℕ} {s t : State ι μ σ τ} {i j : ι}

/-- Everything that a step can do. -/
inductive Moves (p : Code ι μ σ τ) (s : State ι μ σ τ) (i : ι) : State ι μ σ τ → Prop
  | report {line : τ} {next : σ} (h : p.next i (s.process i) = .report line next) :
    Moves p s i (s.report i line next)
  | send {dest : ι} {message : μ} {next : σ}
    (h : p.next i (s.process i) = .send dest message next) :
    Moves p s i (s.send i dest message next)
  | receive {source : Option ι} {j : ι} {message : μ} {rest : List μ} {next : μ → σ}
    (h : p.next i (s.process i) = .receive source next) (hm : Matches source j)
    (hc : s.channel j i = message :: rest) :
    Moves p s i (s.receive i j message rest (next message))
  | enter {next : σ} (h : p.next i (s.process i) = .enter next) : Moves p s i (s.enter i next)
  | leave {next : σ} (h : p.next i (s.process i) = .leave next)
    (ha : ∀ j, s.entered i ≤ s.entered j) : Moves p s i (s.leave i next)

theorem moves_of_step (h : (p.system limit).step s (i, j) = some t) : Moves p s i t := by
  simp only [Code.system] at h
  split at h
  next line next hn =>
    rw [← Option.some.inj h]
    exact .report hn
  next dest message next hn =>
    split_ifs at h
    rw [← Option.some.inj h]
    exact .send hn
  next source next hn =>
    split_ifs at h with hm
    split at h
    · cases h
    next message rest hc =>
      rw [← Option.some.inj h]
      exact .receive hn hm hc
  next next hn =>
    rw [← Option.some.inj h]
    exact .enter hn
  next next hn =>
    split_ifs at h with ha
    rw [← Option.some.inj h]
    exact .leave hn ha
  next => cases h

theorem blocked_cases (h : ∀ j, (p.system limit).step s (i, j) = none) :
    p.next i (s.process i) = .finished ∨
    (∃ dest message next, p.next i (s.process i) = .send dest message next ∧
      limit ≤ (s.channel i dest).length ∧ ¬ Ready p s dest i) ∨
    (∃ source next, p.next i (s.process i) = .receive source next ∧
      ∀ j, Matches source j → s.channel j i = []) ∨
    (∃ next, p.next i (s.process i) = .leave next ∧ ∃ j, s.entered j < s.entered i) := by
  simp only [Code.system] at h
  cases hn : p.next i (s.process i) with
  | finished => exact .inl rfl
  | report line next =>
    simp only [hn] at h
    cases h i
  | enter next =>
    simp only [hn] at h
    cases h i
  | send dest message next =>
    have hi := h i
    simp only [hn] at hi
    split_ifs at hi with hsend
    obtain ⟨hfull, hready⟩ := not_or.mp hsend
    exact .inr (.inl ⟨dest, message, next, rfl, not_lt.mp hfull, hready⟩)
  | receive source next =>
    refine .inr (.inr (.inl ⟨source, next, rfl, fun j hm => ?_⟩))
    have hj := h j
    simp only [hn, if_pos hm] at hj
    split at hj
    · assumption
    · cases hj
  | leave next =>
    have hi := h i
    simp only [hn] at hi
    split_ifs at hi with ha
    obtain ⟨j, hj⟩ := not_forall.mp ha
    exact .inr (.inr (.inr ⟨next, rfl, j, not_le.mp hj⟩))

theorem step_report (limit : ℕ) {line : τ} {next : σ}
    (h : p.next i (s.process i) = .report line next) (j : ι) :
    (p.system limit).step s (i, j) = some (s.report i line next) := by
  simp only [Code.system, h]

theorem step_send (limit : ℕ) {dest : ι} {message : μ} {next : σ}
    (h : p.next i (s.process i) = .send dest message next) (hready : Ready p s dest i) (j : ι) :
    (p.system limit).step s (i, j) = some (s.send i dest message next) := by
  simp only [Code.system, h, if_pos (Or.inr hready)]

theorem step_receive (limit : ℕ) {source : Option ι} {message : μ} {rest : List μ}
    {next : μ → σ} (h : p.next i (s.process i) = .receive source next) (hm : Matches source j)
    (hc : s.channel j i = message :: rest) :
    (p.system limit).step s (i, j) = some (s.receive i j message rest (next message)) := by
  simp only [Code.system, h, if_pos hm, hc]

end Steps

/-- The next line neither sends nor receives. -/
def Instr.Silent (next : σ) : Instr ι μ σ τ → Prop
  | report _ n | enter n | leave n => n = next
  | _ => False

/-- What a process can look like when it has received some messages, how many messages it has sent
by then, and the messages of every channel in their order. -/
structure Protocol (ι μ σ : Type*) where
  Local : ι → List (ι × μ) → σ → Prop
  sent : ι → ι → σ → ℕ
  message : ι → ι → ℕ → μ

section Protocols

variable [DecidableEq ι]

/-- The messages of a source. -/
def fromSource (received : List (ι × μ)) (source : ι) : List μ :=
  (received.filter (·.1 = source)).map Prod.snd

@[simp] theorem fromSource_append (l : List (ι × μ)) (j : ι) (m : μ) (i : ι) :
    fromSource (l ++ [(j, m)]) i = fromSource l i ++ if j = i then [m] else [] := by
  by_cases h : j = i <;> simp [fromSource, List.filter_append, h]

theorem count_sources (l : List (ι × μ)) (i : ι) :
    (l.map Prod.fst).count i = (fromSource l i).length := by
  rw [fromSource, List.length_map, List.count, List.countP_map, List.countP_eq_length_filter]
  rfl

theorem mem_sources (l : List (ι × μ)) (i : ι) :
    i ∈ l.map Prod.fst ↔ 0 < (fromSource l i).length := by
  rw [← count_sources, List.count_pos_iff]

/-- The processes follow the protocol, one line at a time. -/
structure Protocol.Followed (P : Protocol ι μ σ) (p : Code ι μ σ τ) : Prop where
  start : ∀ i, P.Local i [] (p.start i)
  sent_start : ∀ i j, P.sent i j (p.start i) = 0
  silent : ∀ i l a n, P.Local i l a → (p.next i a).Silent n →
    P.Local i l n ∧ ∀ j, P.sent i j n = P.sent i j a
  send : ∀ i l a k m n, P.Local i l a → p.next i a = .send k m n →
    m = P.message i k (P.sent i k a) ∧ P.Local i l n ∧
      ∀ j, P.sent i j n = P.sent i j a + if j = k then 1 else 0
  receive : ∀ i l a source n k m, P.Local i l a → p.next i a = .receive source n →
    Matches source k → m = P.message k i (fromSource l k).length →
    (∃ l' b, P.Local k l' b ∧ (fromSource l k).length < P.sent k i b) →
      P.Local i (l ++ [(k, m)]) (n m) ∧ ∀ j, P.sent i j (n m) = P.sent i j a

/-- Every channel has delivered the first messages of its process and holds the others that have
been sent. -/
structure Protocol.Holds (P : Protocol ι μ σ) (s : State ι μ σ τ) : Prop where
  locals : ∀ i, P.Local i (s.received i) (s.process i)
  channels : ∀ i j, fromSource (s.received j) i ++ s.channel i j =
    (List.range (P.sent i j (s.process i))).map (P.message i j)

variable {P : Protocol ι μ σ} {p : Code ι μ σ τ} {limit : ℕ} {s t : State ι μ σ τ} {i j : ι}

theorem Protocol.Holds.silent (hP : P.Followed p) (h : P.Holds s) {n : σ}
    (hn : (p.next i (s.process i)).Silent n) (hprocess : t.process = Function.update s.process i n)
    (hchannel : t.channel = s.channel) (hreceived : t.received = s.received) : P.Holds t := by
  obtain ⟨hlocal, hsent⟩ := hP.silent i _ _ n (h.locals i) hn
  refine ⟨fun k => ?_, fun k j => ?_⟩
  all_goals
    rw [hprocess, hreceived]
    by_cases hk : k = i
  · subst hk
    rwa [Function.update_self]
  · rw [Function.update_of_ne hk]
    exact h.locals k
  · subst hk
    rw [hchannel, Function.update_self, hsent]
    exact h.channels k j
  · rw [hchannel, Function.update_of_ne hk]
    exact h.channels k j

theorem Protocol.Holds.send (hP : P.Followed p) (h : P.Holds s) {k : ι} {m : μ} {n : σ}
    (hn : p.next i (s.process i) = .send k m n) : P.Holds (s.send i k m n) := by
  obtain ⟨hm, hlocal, hsent⟩ := hP.send i _ _ k m n (h.locals i) hn
  refine ⟨fun j => ?_, fun j r => ?_⟩
  · by_cases hj : j = i
    · subst hj
      simpa only [State.send, Function.update_self] using hlocal
    · simpa only [State.send, Function.update_of_ne hj] using h.locals j
  · have hchannel := h.channels j r
    by_cases hj : j = i
    · subst hj
      simp only [State.send, Function.update_self, hsent]
      by_cases hr : r = k
      · subst hr
        rw [Function.update_self, if_pos rfl, ← List.append_assoc, hchannel, List.range_succ,
          List.map_append, hm]
        rfl
      · rw [Function.update_of_ne hr, if_neg hr]
        exact hchannel
    · simpa only [State.send, Function.update_of_ne hj] using hchannel

theorem Protocol.Holds.length_channel (h : P.Holds s) (i j : ι) :
    (fromSource (s.received j) i).length + (s.channel i j).length = P.sent i j (s.process i) := by
  have hlength := congrArg List.length (h.channels i j)
  rwa [List.length_append, List.length_map, List.length_range] at hlength

/-- The head of a channel is the first message that has not been received. -/
theorem Protocol.Holds.head_eq (h : P.Holds s) {m : μ} {rest : List μ}
    (hc : s.channel j i = m :: rest) :
    m = P.message j i (fromSource (s.received i) j).length := by
  have hchannel := h.channels j i
  rw [hc] at hchannel
  have hget := congrArg (·[(fromSource (s.received i) j).length]?) hchannel
  rw [List.getElem?_append_right le_rfl, Nat.sub_self, List.getElem?_map] at hget
  obtain ⟨x, hx, hm⟩ := Option.map_eq_some_iff.mp hget.symm
  obtain ⟨hlt, hx⟩ := List.getElem?_eq_some_iff.mp hx
  rw [List.getElem_range] at hx
  rw [← hm, hx]

theorem Protocol.Holds.receive (hP : P.Followed p) (h : P.Holds s) {source : Option ι} {m : μ}
    {rest : List μ} {n : μ → σ} (hn : p.next i (s.process i) = .receive source n)
    (hm : Matches source j) (hc : s.channel j i = m :: rest) :
    P.Holds (s.receive i j m rest (n m)) := by
  have hpending : (fromSource (s.received i) j).length < P.sent j i (s.process j) := by
    rw [← h.length_channel, hc, List.length_cons]
    omega
  obtain ⟨hlocal, hsent⟩ := hP.receive i _ _ source n j m (h.locals i) hn hm (h.head_eq hc)
    ⟨_, _, h.locals j, hpending⟩
  refine ⟨fun k => ?_, fun k r => ?_⟩
  · by_cases hk : k = i
    · subst hk
      simpa only [State.receive, Function.update_self] using hlocal
    · simpa only [State.receive, Function.update_of_ne hk] using h.locals k
  · have hchannel := h.channels k r
    have hsent' : P.sent k r (Function.update s.process i (n m) k) = P.sent k r (s.process k) := by
      by_cases hk : k = i
      · subst hk
        rw [Function.update_self, hsent]
      · rw [Function.update_of_ne hk]
    simp only [State.receive, hsent', ← hchannel]
    by_cases hr : r = i
    · subst hr
      rw [Function.update_self, fromSource_append]
      by_cases hk : k = j
      · subst hk
        rw [Function.update_self, Function.update_self, if_pos rfl, hc, List.append_assoc]
        rfl
      · rw [Function.update_of_ne hk, if_neg (Ne.symm hk), List.append_nil]
    · rw [Function.update_of_ne hr]
      by_cases hk : k = j
      · subst hk
        rw [Function.update_self, Function.update_of_ne hr]
      · rw [Function.update_of_ne hk]

variable [Fintype ι]

/-- In every run the processes stay within the protocol. -/
theorem Protocol.Followed.holds (hP : P.Followed p) (h : (p.system limit).Reachable s) :
    P.Holds s := by
  apply h.invariant (I := fun s => P.Holds s)
  · exact ⟨hP.start, fun i j => by rw [Code.system, hP.sent_start]; rfl⟩
  · intro s x t ih hs
    obtain ⟨i, j⟩ := x
    cases moves_of_step hs with
    | report hn => exact ih.silent hP (n := _) (by rw [hn]; rfl) rfl rfl rfl
    | send hn => exact ih.send hP hn
    | receive hn hm hc => exact ih.receive hP hn hm hc
    | enter hn => exact ih.silent hP (n := _) (by rw [hn]; rfl) rfl rfl rfl
    | leave hn _ => exact ih.silent hP (n := _) (by rw [hn]; rfl) rfl rfl rfl

end Protocols

/-- The lines after this one. -/
def Instr.Leads (next : σ) : Instr ι μ σ τ → Prop
  | report _ n | enter n | leave n | send _ _ n => n = next
  | receive _ n => ∃ m, n m = next
  | finished => False

theorem exists_leads [DecidableEq ι] {p : Code ι μ σ τ} {s t : State ι μ σ τ} {i : ι}
    (h : Moves p s i t) :
    ∃ n, (p.next i (s.process i)).Leads n ∧ t.process = Function.update s.process i n := by
  cases h with
  | report hn => exact ⟨_, by rw [hn]; rfl, rfl⟩
  | send hn => exact ⟨_, by rw [hn]; rfl, rfl⟩
  | receive hn _ _ => exact ⟨_, by rw [hn]; exact ⟨_, rfl⟩, rfl⟩
  | enter hn => exact ⟨_, by rw [hn]; rfl, rfl⟩
  | leave hn _ => exact ⟨_, by rw [hn]; rfl, rfl⟩

def Instr.IsBarrier : Instr ι μ σ τ → Prop
  | enter _ | leave _ => True
  | _ => False

/-- How many barriers a process has entered and left. -/
structure Counted (p : Code ι μ σ τ) (entered left : σ → ℕ) : Prop where
  start : ∀ i, entered (p.start i) = 0 ∧ left (p.start i) = 0
  enter : ∀ i a n, p.next i a = .enter n → entered n = entered a + 1 ∧ left n = left a
  leave : ∀ i a n, p.next i a = .leave n → entered n = entered a ∧ left n ≤ entered a
  other : ∀ i a n, (p.next i a).Leads n → ¬ (p.next i a).IsBarrier →
    entered n = entered a ∧ left n = left a

/-- Nobody has left a barrier that somebody has not entered. -/
theorem Counted.meets [DecidableEq ι] [Fintype ι] {p : Code ι μ σ τ} {limit : ℕ}
    {entered left : σ → ℕ} (hp : Counted p entered left) {s : State ι μ σ τ}
    (h : (p.system limit).Reachable s) :
    (∀ i, s.entered i = entered (s.process i)) ∧ ∀ i j, left (s.process i) ≤ s.entered j := by
  apply h.invariant (I := fun s =>
    (∀ i, s.entered i = entered (s.process i)) ∧ ∀ i j, left (s.process i) ≤ s.entered j)
  · exact ⟨fun i => (hp.start i).1.symm, fun i j => (hp.start i).2.le⟩
  · intro s x t ih hs
    obtain ⟨i, _⟩ := x
    obtain ⟨hentered, hleft⟩ := ih
    have hmove := moves_of_step hs
    obtain ⟨n, hn, hprocess⟩ := exists_leads hmove
    have hsame : ∀ (e : σ → ℕ), e n = e (s.process i) → ∀ k, e (t.process k) = e (s.process k) := by
      intro e he k
      rw [hprocess]
      exact observe_update (fun _ => e) he k
    cases hmove with
    | @enter next hnext =>
      obtain rfl : next = n := by rwa [hnext] at hn
      obtain ⟨hincrease, hkeep⟩ := hp.enter i _ _ hnext
      refine ⟨fun k => ?_, fun k j => ?_⟩
      · rw [hprocess]
        by_cases hk : k = i
        · subst hk
          simp only [State.enter, Function.update_self, hentered, hincrease]
        · simp only [State.enter, Function.update_of_ne hk, hentered]
      · rw [hsame left hkeep]
        apply (hleft k j).trans
        by_cases hj : j = i
        · subst hj
          simp only [State.enter, Function.update_self]
          exact Nat.le_succ _
        · simp only [State.enter, Function.update_of_ne hj, le_refl]
    | @leave next hnext hall =>
      obtain rfl : next = n := by rwa [hnext] at hn
      obtain ⟨hkeep, hle⟩ := hp.leave i _ _ hnext
      refine ⟨fun k => (hentered k).trans (hsame entered hkeep k).symm, fun k j => ?_⟩
      rw [hprocess]
      by_cases hk : k = i
      · subst hk
        rw [Function.update_self]
        exact (hle.trans_eq (hentered k).symm).trans (hall j)
      · rw [Function.update_of_ne hk]
        exact hleft k j
    | report hnext | send hnext | receive hnext _ _ =>
      obtain ⟨hkeep, hkeep'⟩ := hp.other i _ n hn (by rw [hnext]; exact id)
      exact ⟨fun k => (hentered k).trans (hsame entered hkeep k).symm,
        fun k j => (hsame left hkeep' k).trans_le (hleft k j)⟩

/-- All processes are at their ends. -/
def Finished (p : Code ι μ σ τ) (s : State ι μ σ τ) : Prop :=
  ∀ i, p.next i (s.process i) = .finished

section Ends

variable [DecidableEq ι] [Fintype ι] {p : Code ι μ σ τ} {limit : ℕ} {s t : State ι μ σ τ}
  {x : ι × ι} (left : ι → σ → ℕ) (hleft : ∀ i a n, (p.next i a).Leads n → left i n < left i a)

include hleft

/-- Every line brings its process nearer to its end. -/
theorem sum_left_lt (h : (p.system limit).step s x = some t) :
    ∑ i, left i (t.process i) < ∑ i, left i (s.process i) := by
  obtain ⟨n, hn, hprocess⟩ := exists_leads (moves_of_step h)
  have hsum := sum_update (Finset.mem_univ x.1) s.process left n
  have hlt := hleft x.1 _ n hn
  rw [← hprocess] at hsum
  omega

theorem terminates (limit : ℕ) : (p.system limit).Terminates :=
  ⟨fun s => ∑ i, left i (s.process i), fun _ _ _ _ h => sum_left_lt left hleft h⟩

theorem length_le_of_run {l : List (ι × ι)} (h : (p.system limit).run l = some s) :
    l.length ≤ ∑ i, left i (p.start i) := by
  have hrun := System.length_add_le_of_run (fun s => ∑ i, left i (s.process i))
    (fun _ _ _ _ h => sum_left_lt left hleft h) h
  change l.length + _ ≤ ∑ i, left i (p.start i) at hrun
  omega

end Ends

end Concurrente.Messages
