import Concurrente.Messages

/-!
# mpi_relay_race

Teams of two processes.  The runner of the first stage gives the baton to the runner of the second
one, who tells the first process, the referee; the referee gives the places as the messages come.
-/

namespace Concurrente.Mpi.RelayRace

open Messages

variable {n : ℕ}

/-- What `Mpi::send` sends: the baton or the number of a team. -/
inductive Message where
  | baton (held : Bool)
  | team (number : ℕ)
  deriving DecidableEq

/-- The lines that the referee prints, without the time that has elapsed. -/
inductive Line where
  | usage
  | place (place team : ℕ)
  deriving DecidableEq

/-- The lines of `main`, `relay_race`, `run_stage1`, `run_stage2` and `referee`. -/
inductive Pc where
  | usage
  | enterBarrier
  | leaveBarrier
  | sendBaton
  | passed
  | receiveBaton
  | sendTeam
  | crossed
  | receiveTeam (place : ℕ)
  | announce (place team : ℕ)
  | returned
  | aborted
  deriving DecidableEq

/-- The branch of `relay_race` for a rank. -/
def runner (rank : ℕ) : Pc :=
  if rank = 0 then .receiveTeam 1 else if rank % 2 = 1 then .sendBaton else .receiveBaton

/-- The referee expects an `int`. -/
def afterReceive (place : ℕ) : Message → Pc
  | .team number => .announce place number
  | .baton _ => .aborted

def main (n argc : ℕ) : Code (Fin (n + 1)) Message Pc Line where
  start i :=
    if 3 ≤ n + 1 ∧ (n + 1) % 2 = 1 ∧ argc = 3 then .enterBarrier
    else if i.val = 0 then .usage else .returned
  next i
    | .usage => .report .usage .returned
    | .enterBarrier => .enter .leaveBarrier
    | .leaveBarrier => .leave (runner i)
    -- a rank beyond the last one is an error of MPI
    | .sendBaton =>
      if h : i.val + 1 < n + 1 then .send ⟨i + 1, h⟩ (.baton true) .passed else .finished
    | .receiveBaton => .receive (some (previous i)) fun _ => .sendTeam
    | .sendTeam => .send 0 (.team (i / 2)) .crossed
    | .receiveTeam place =>
      if place ≤ n / 2 then .receive none (afterReceive place) else .finished
    | .announce place team => .report (.place place team) (.receiveTeam (place + 1))
    | .passed | .crossed | .returned | .aborted => .finished

/-- The lines of the referee for teams that come in this order. -/
def lines (order : List ℕ) : List (Fin (n + 1) × Line) :=
  order.zipIdx.map fun x => (0, .place (x.2 + 1) x.1)

structure Arrived (s : State (Fin (n + 1)) Message Pc Line) (team : ℕ) : Prop where
  pos : 0 < team
  le : team ≤ n / 2
  first : ∀ i : Fin (n + 1), i.val + 1 = 2 * team → s.process i = .passed
  second : ∀ i : Fin (n + 1), i.val = 2 * team → s.process i = .crossed

def protocol (n : ℕ) : Protocol (Fin (n + 1)) Message Pc where
  Local i l
    | .enterBarrier => l = []
    | .leaveBarrier => l = []
    | .sendBaton => i.val % 2 = 1 ∧ l = []
    | .passed => i.val % 2 = 1 ∧ l = []
    | .receiveBaton => i.val % 2 = 0 ∧ i ≠ 0 ∧ l = []
    | .sendTeam => i.val % 2 = 0 ∧ i ≠ 0 ∧ l.map Prod.fst = [previous i]
    | .crossed => i.val % 2 = 0 ∧ i ≠ 0 ∧ l.map Prod.fst = [previous i]
    | .receiveTeam place => i = 0 ∧ l.length + 1 = place
    | .announce place team => i = 0 ∧ l.length = place ∧
      ∃ j, l.getLast?.map Prod.fst = some j ∧ team = j.val / 2
    | _ => False
  sent i j
    | .passed => if j.val = i.val + 1 then 1 else 0
    | .crossed => if j = 0 then 1 else 0
    | _ => 0
  message i _ _ := if i.val % 2 = 1 then .baton true else .team (i / 2)

variable {limit : ℕ} {s t : State (Fin (n + 1)) Message Pc Line} {i j : Fin (n + 1)}

theorem local_runner (i : Fin (n + 1)) : (protocol n).Local i [] (runner i) := by
  unfold runner
  split_ifs with h0 h1
  · exact ⟨Fin.ext h0, rfl⟩
  · exact ⟨h1, rfl⟩
  · exact ⟨by omega, fun h => h0 (congrArg Fin.val h), rfl⟩

theorem sent_runner (i j : Fin (n + 1)) : (protocol n).sent i j (runner i) = 0 := by
  unfold runner
  split_ifs <;> rfl

theorem even_of_sent {l : List (Fin (n + 1) × Message)} {a : Pc} (h : (protocol n).Local j l a)
    (hsent : 0 < (protocol n).sent j 0 a) : j.val % 2 = 0 ∧ j ≠ 0 := by
  cases a
  case passed =>
    simp only [protocol, Fin.val_zero, (Nat.succ_ne_zero _).symm, if_false, lt_irrefl] at hsent
  case crossed => exact ⟨h.1, h.2.1⟩
  all_goals cases hsent

variable (hvalid : 3 ≤ n + 1 ∧ (n + 1) % 2 = 1)

include hvalid

theorem protocol_followed : (protocol n).Followed (main n 3) where
  start i := by
    simp only [main, hvalid, and_self, if_true]
    rfl
  sent_start i j := by
    simp only [main, hvalid, and_self, if_true]
    rfl
  silent i l a b hl hb := by
    cases a <;> simp only [main] at hb
    case enterBarrier =>
      cases hb
      exact ⟨hl, fun _ => rfl⟩
    case leaveBarrier =>
      cases hb
      rw [show l = [] from hl]
      exact ⟨local_runner i, sent_runner i⟩
    case sendBaton => split_ifs at hb <;> cases hb
    case receiveTeam place => split_ifs at hb <;> cases hb
    case announce place team =>
      cases hb
      obtain ⟨hzero, hlength, -⟩ := hl
      exact ⟨⟨hzero, by rw [hlength]⟩, fun _ => rfl⟩
    case usage => exact hl.elim
    all_goals cases hb
  send i l a k message b hl hb := by
    cases a <;> simp only [main] at hb
    case sendBaton =>
      split_ifs at hb
      cases hb
      refine ⟨(if_pos hl.1).symm, hl, fun j => ?_⟩
      simp only [protocol, Fin.ext_iff, Nat.zero_add]
    case sendTeam =>
      cases hb
      refine ⟨(if_neg (by rw [hl.1]; decide)).symm, hl, fun j => ?_⟩
      simp only [protocol, Nat.zero_add]
    case receiveTeam place => split_ifs at hb
    all_goals cases hb
  receive i l a source b j message hl hb hj hm hsent := by
    cases a <;> simp only [main] at hb
    case sendBaton => split_ifs at hb
    case receiveBaton =>
      cases hb
      obtain ⟨heven, hne, rfl⟩ := hl
      obtain rfl : previous i = j := hj
      exact ⟨⟨heven, hne, rfl⟩, fun _ => rfl⟩
    case receiveTeam place =>
      split_ifs at hb
      cases hb
      obtain ⟨rfl, hlength⟩ := hl
      obtain ⟨l', c, hlocal, hlt⟩ := hsent
      obtain ⟨heven, hne⟩ := even_of_sent hlocal (Nat.zero_lt_of_lt hlt)
      have hteam : message = .team (j / 2) := by
        rw [hm]
        exact if_neg (by rw [heven]; decide)
      subst hteam
      refine ⟨⟨rfl, ?_, j, by simp, rfl⟩, fun _ => rfl⟩
      rw [List.length_append, List.length_singleton, hlength]
    all_goals cases hb

omit hvalid

theorem crossed_of_sent {a : Pc} (h : 0 < (protocol n).sent j 0 a) : a = .crossed := by
  cases a
  case passed =>
    simp only [protocol, Fin.val_zero, (Nat.succ_ne_zero _).symm, if_false, lt_irrefl] at h
  case crossed => rfl
  all_goals cases h

theorem passed_of_sent {a : Pc} (hj : j ≠ 0) (h : 0 < (protocol n).sent i j a) : a = .passed := by
  cases a
  case passed => rfl
  case crossed =>
    simp only [protocol, if_neg hj, lt_irrefl] at h
  all_goals cases h

theorem sent_le (a : Pc) : (protocol n).sent i j a ≤ 1 := by
  cases a <;> simp only [protocol, zero_le]
  all_goals split_ifs <;> decide

/-- The second runners of whom the referee has heard. -/
def sources (s : State (Fin (n + 1)) Message Pc Line) : List (Fin (n + 1)) :=
  (s.received 0).map Prod.fst

def teams (s : State (Fin (n + 1)) Message Pc Line) : List ℕ := (sources s).map fun j => j.val / 2

section Holds

variable (h : (protocol n).Holds s)

include h

theorem process_of_mem_sources (hj : j ∈ sources s) : s.process j = .crossed := by
  rw [sources, mem_sources] at hj
  have hlength := h.length_channel j 0
  exact crossed_of_sent (j := j) (by omega)

theorem even_of_mem_sources (hj : j ∈ sources s) : j.val % 2 = 0 ∧ j ≠ 0 := by
  have hlocal := h.locals j
  rw [process_of_mem_sources h hj] at hlocal
  exact ⟨hlocal.1, hlocal.2.1⟩

theorem nodup_sources : (sources s).Nodup := by
  rw [List.nodup_iff_count_le_one]
  intro j
  rw [sources, count_sources]
  have hlength := h.length_channel j 0
  have hle := sent_le (i := j) (j := 0) (s.process j)
  omega

theorem nodup_teams : (teams s).Nodup := by
  apply (nodup_sources h).map_on
  intro i hi j hj heq
  have hi' := (even_of_mem_sources h hi).1
  have hj' := (even_of_mem_sources h hj).1
  exact Fin.ext (by omega)

theorem passed_of_crossed (hj : s.process j = .crossed) : s.process (previous j) = .passed := by
  have hlocal := h.locals j
  rw [hj] at hlocal
  obtain ⟨-, hne, hsources⟩ := hlocal
  have hmem : previous j ∈ (s.received j).map Prod.fst := by
    rw [hsources]
    exact List.mem_singleton_self _
  rw [mem_sources] at hmem
  have hlength := h.length_channel (previous j) j
  exact passed_of_sent (i := previous j) hne (by omega)

theorem arrived_of_mem (team : ℕ) (ht : team ∈ teams s) : Arrived s team := by
  obtain ⟨j, hj, rfl⟩ := List.mem_map.mp ht
  have hcrossed := process_of_mem_sources h hj
  obtain ⟨heven, hne⟩ := even_of_mem_sources h hj
  have hpos : 0 < j.val := Nat.pos_of_ne_zero fun h0 => hne (Fin.ext h0)
  have hlt := j.isLt
  refine ⟨by omega, by omega, fun i hi => ?_, fun i hi => ?_⟩
  · have hprevious : i = previous j := Fin.ext (show i.val = j.val - 1 by omega)
    rw [hprevious]
    exact passed_of_crossed h hcrossed
  · have hij : i = j := Fin.ext (by omega)
    rwa [hij]

omit h in
theorem exists_missing (hlt : (teams s).length < n / 2) :
    ∃ team, 0 < team ∧ team ≤ n / 2 ∧ team ∉ teams s := by
  by_contra! hall
  have hsub : (List.range (n / 2)).map (· + 1) ⊆ teams s := by
    intro team ht
    obtain ⟨k, hk, rfl⟩ := List.mem_map.mp ht
    exact hall (k + 1) k.succ_pos (List.mem_range.mp hk)
  have hnodup : ((List.range (n / 2)).map (· + 1)).Nodup :=
    List.nodup_range.map (add_left_injective 1)
  have hle := (hnodup.subperm hsub).length_le
  rw [List.length_map, List.length_range] at hle
  omega

end Holds

theorem lines_append (order : List ℕ) (team : ℕ) :
    lines (n := n) (order ++ [team]) = lines order ++ [(0, .place (order.length + 1) team)] := by
  simp [lines, List.zipIdx_append]

def Printed (s : State (Fin (n + 1)) Message Pc Line) : Prop :=
  match s.process 0 with
  | .receiveTeam _ => s.output = lines (teams s)
  | .announce place team => s.output ++ [(0, .place place team)] = lines (teams s)
  | _ => s.output = []

theorem Printed.congr (h : Printed s) (hprocess : t.process 0 = s.process 0)
    (houtput : t.output = s.output) (hreceived : t.received 0 = s.received 0) : Printed t := by
  simpa only [Printed, teams, sources, hprocess, houtput, hreceived] using h

section Moves

variable (h : Printed s) (hP : (protocol n).Holds s)

include h hP

theorem Printed.report {line : Line} {next : Pc}
    (hn : (main n 3).next i (s.process i) = .report line next) :
    Printed (s.report i line next) := by
  have hlocal := hP.locals i
  cases hi : s.process i <;> simp only [main, hi] at hn <;> rw [hi] at hlocal
  case usage => exact hlocal.elim
  case announce place team =>
    cases hn
    obtain ⟨rfl, hlength, -⟩ := hlocal
    simpa only [Printed, hi, teams, sources, State.report, Function.update_self] using h
  case sendBaton => split_ifs at hn
  case receiveTeam => split_ifs at hn
  all_goals cases hn

theorem Printed.send {dest : Fin (n + 1)} {message : Message} {next : Pc}
    (hn : (main n 3).next i (s.process i) = .send dest message next) :
    Printed (s.send i dest message next) := by
  have hlocal := hP.locals i
  cases hi : s.process i <;> simp only [main, hi] at hn <;> rw [hi] at hlocal
  case sendBaton =>
    split_ifs at hn
    cases hn
    have hne : i ≠ 0 := by
      rintro rfl
      cases hlocal.1
    exact h.congr (Function.update_of_ne hne.symm _ _) rfl rfl
  case sendTeam =>
    cases hn
    exact h.congr (Function.update_of_ne hlocal.2.1.symm _ _) rfl rfl
  case receiveTeam => split_ifs at hn
  all_goals cases hn

omit h in
theorem team_of_channel {message : Message} {rest : List Message}
    (hc : s.channel j 0 = message :: rest) : message = .team (j / 2) := by
  have hsent : 0 < (protocol n).sent j 0 (s.process j) := by
    have hlength := hP.length_channel j 0
    rw [hc, List.length_cons] at hlength
    omega
  have hodd : ¬ j.val % 2 = 1 := by
    rw [(even_of_sent (hP.locals j) hsent).1]
    decide
  exact (hP.head_eq hc).trans (if_neg hodd)

theorem Printed.receive {source : Option (Fin (n + 1))} {message : Message}
    {rest : List Message} {next : Message → Pc}
    (hn : (main n 3).next i (s.process i) = .receive source next)
    (hc : s.channel j i = message :: rest) :
    Printed (s.receive i j message rest (next message)) := by
  have hlocal := hP.locals i
  cases hi : s.process i <;> simp only [main, hi] at hn <;> rw [hi] at hlocal
  case sendBaton => split_ifs at hn
  case receiveBaton =>
    cases hn
    have hne := hlocal.2.1.symm
    exact h.congr (Function.update_of_ne hne _ _) rfl (Function.update_of_ne hne _ _)
  case receiveTeam place =>
    split_ifs at hn
    cases hn
    obtain ⟨rfl, hlength⟩ := hlocal
    have hteam := team_of_channel hP hc
    have houtput : s.output = lines (teams s) := by simpa only [Printed, hi] using h
    have hplace : (teams s).length + 1 = place := by
      rw [← hlength, teams, sources, List.length_map, List.length_map]
    simp only [Printed, State.receive, Function.update_self, hteam, afterReceive, houtput,
      teams, sources, List.map_append, List.map_cons, List.map_nil, lines_append]
    rw [← hplace]
    rfl
  all_goals cases hn

omit hP in
theorem Printed.enter {next : Pc} (hn : (main n 3).next i (s.process i) = .enter next) :
    Printed (s.enter i next) := by
  cases hi : s.process i <;> simp only [main, hi] at hn
  case enterBarrier =>
    cases hn
    by_cases hzero : i = 0
    · subst hzero
      simpa only [Printed, hi, State.enter, Function.update_self] using h
    · exact h.congr (Function.update_of_ne (Ne.symm hzero) _ _) rfl rfl
  case sendBaton => split_ifs at hn
  case receiveTeam => split_ifs at hn
  all_goals cases hn

theorem Printed.leave {next : Pc} (hn : (main n 3).next i (s.process i) = .leave next) :
    Printed (s.leave i next) := by
  have hlocal := hP.locals i
  cases hi : s.process i <;> simp only [main, hi] at hn <;> rw [hi] at hlocal
  case leaveBarrier =>
    cases hn
    by_cases hzero : i = 0
    · subst hzero
      have hreceived : s.received 0 = [] := hlocal
      have houtput : s.output = [] := by simpa only [Printed, hi] using h
      simp only [Printed, State.leave, Function.update_self, runner, Fin.val_zero, if_true,
        houtput, teams, sources, hreceived]
      rfl
    · exact h.congr (Function.update_of_ne (Ne.symm hzero) _ _) rfl rfl
  case sendBaton => split_ifs at hn
  case receiveTeam => split_ifs at hn
  all_goals cases hn

end Moves

theorem reachable_printed (hvalid : 3 ≤ n + 1 ∧ (n + 1) % 2 = 1)
    (h : ((main n 3).system limit).Reachable s) : Printed s := by
  have hstart : Printed ((main n 3).system limit).start := by
    simp only [Printed, Code.system, main, hvalid, and_self, if_true]
  apply System.Reachable.invariant' hstart _ h
  intro s x t hr ih hs
  have hP := (protocol_followed hvalid).holds hr
  cases moves_of_step hs with
  | report hn => exact ih.report hP hn
  | send hn => exact ih.send hP hn
  | receive hn _ hc => exact ih.receive hP hn hc
  | enter hn => exact ih.enter hn
  | leave hn _ => exact ih.leave hP hn

theorem output_begins (hvalid : 3 ≤ n + 1 ∧ (n + 1) % 2 = 1)
    (h : ((main n 3).system limit).Reachable s) : s.output <+: lines (teams s) := by
  have hprinted := reachable_printed hvalid h
  unfold Printed at hprinted
  split at hprinted
  · rw [hprinted]
  · rw [← hprinted]
    exact List.prefix_append _ _
  · rw [hprinted]
    exact List.nil_prefix

namespace Pc

def entered : Pc → ℕ
  | enterBarrier | usage | returned => 0
  | _ => 1

def racing : Pc → ℕ
  | enterBarrier | leaveBarrier | usage | returned => 0
  | _ => 1

end Pc

theorem counted (hvalid : 3 ≤ n + 1 ∧ (n + 1) % 2 = 1) :
    Counted (main n 3) Pc.entered Pc.racing where
  start i := by
    simp only [main, hvalid, and_self, if_true]
    exact ⟨rfl, rfl⟩
  enter i a b hb := by
    cases a <;> simp only [main] at hb
    case enterBarrier =>
      cases hb
      exact ⟨rfl, rfl⟩
    case sendBaton => split_ifs at hb
    case receiveTeam => split_ifs at hb
    all_goals cases hb
  leave i a b hb := by
    cases a <;> simp only [main] at hb
    case leaveBarrier =>
      cases hb
      unfold runner
      split_ifs <;> exact ⟨rfl, le_rfl⟩
    case sendBaton => split_ifs at hb
    case receiveTeam => split_ifs at hb
    all_goals cases hb
  other i a b hb hnot := by
    cases a <;> simp only [main] at hb hnot
    case enterBarrier => exact absurd trivial hnot
    case leaveBarrier => exact absurd trivial hnot
    case sendBaton =>
      split_ifs at hb <;> cases hb
      exact ⟨rfl, rfl⟩
    case receiveBaton =>
      obtain ⟨-, rfl⟩ := hb
      exact ⟨rfl, rfl⟩
    case receiveTeam place =>
      split_ifs at hb
      · obtain ⟨message, rfl⟩ := hb
        cases message <;> exact ⟨rfl, rfl⟩
      · cases hb
    all_goals cases hb
    all_goals exact ⟨rfl, rfl⟩

theorem entered_of_racing (hvalid : 3 ≤ n + 1 ∧ (n + 1) % 2 = 1)
    (h : ((main n 3).system limit).Reachable s) (hi : (s.process i).racing = 1) (j : Fin (n + 1)) :
    s.process j ≠ .enterBarrier := by
  obtain ⟨hentered, hleft⟩ := (counted hvalid).meets h
  intro hj
  have hle := hleft i j
  rw [hi, hentered j, hj] at hle
  cases hle

section Stuck

variable (hvalid : 3 ≤ n + 1 ∧ (n + 1) % 2 = 1) (h : ((main n 3).system limit).Reachable s)
  (hs : ((main n 3).system limit).Stuck s)

include hvalid h hs

theorem stuck_cases (i : Fin (n + 1)) :
    s.process i = .passed ∨ s.process i = .crossed ∨
    (s.process i = .sendBaton ∧ ∀ hlt : i.val + 1 < n + 1, ¬ Ready (main n 3) s ⟨i + 1, hlt⟩ i) ∨
    (s.process i = .receiveBaton ∧ s.channel (previous i) i = []) ∨
    (s.process i = .sendTeam ∧ ¬ Ready (main n 3) s 0 i) ∨
    ∃ place, s.process i = .receiveTeam place ∧ (place ≤ n / 2 → ∀ j, s.channel j i = []) := by
  have hlocals := ((protocol_followed hvalid).holds h).locals
  have hentered := ((counted hvalid).meets h).1
  have hstart : ∀ j, (s.process j).entered = 1 := by
    intro j
    have hlocal := hlocals j
    have hblocked := blocked_cases fun k => hs (j, k)
    cases hj : s.process j <;> rw [hj] at hlocal
    case enterBarrier => simp [main, hj] at hblocked
    case usage => exact hlocal.elim
    case returned => exact hlocal.elim
    all_goals rfl
  have hlocal := hlocals i
  obtain hf | ⟨dest, m, a, hn, -, hready⟩ | ⟨source, a, hn, hempty⟩ | ⟨a, -, j, hj⟩ :=
    blocked_cases fun k => hs (i, k)
  · cases hi : s.process i <;> simp only [main, hi] at hf <;> rw [hi] at hlocal
    case passed => exact .inl rfl
    case crossed => exact .inr (.inl rfl)
    case sendBaton =>
      split_ifs at hf with hlt
      exact .inr (.inr (.inl ⟨rfl, fun hlt' => absurd hlt' hlt⟩))
    case receiveTeam place =>
      split_ifs at hf with hle
      exact .inr (.inr (.inr (.inr (.inr ⟨place, rfl, fun hle' => absurd hle' hle⟩))))
    case returned => exact hlocal.elim
    case aborted => exact hlocal.elim
    all_goals cases hf
  · cases hi : s.process i <;> simp only [main, hi] at hn
    case sendBaton =>
      split_ifs at hn
      cases hn
      exact .inr (.inr (.inl ⟨rfl, fun _ => hready⟩))
    case sendTeam =>
      cases hn
      exact .inr (.inr (.inr (.inr (.inl ⟨rfl, hready⟩))))
    case receiveTeam => split_ifs at hn
    all_goals cases hn
  · cases hi : s.process i <;> simp only [main, hi] at hn
    case sendBaton => split_ifs at hn
    case receiveBaton =>
      cases hn
      exact .inr (.inr (.inr (.inl ⟨rfl, hempty _ rfl⟩)))
    case receiveTeam place =>
      split_ifs at hn
      cases hn
      exact .inr (.inr (.inr (.inr (.inr ⟨place, rfl, fun _ j => hempty j (matches_none j)⟩))))
    all_goals cases hn
  · rw [hentered, hentered, hstart, hstart] at hj
    exact absurd hj (lt_irrefl 1)

theorem second_of_stuck (heven : j.val % 2 = 0) (hne : j ≠ 0) :
    s.process j = .crossed ∨ s.process j = .sendTeam ∧ ¬ Ready (main n 3) s 0 j := by
  have hP := (protocol_followed hvalid).holds h
  have hlocal := hP.locals j
  obtain hj | hj | ⟨hj, -⟩ | ⟨hj, hempty⟩ | hj | ⟨place, hj, -⟩ := stuck_cases hvalid h hs j
  case inr.inl => exact .inl hj
  case inr.inr.inr.inr.inl => exact .inr hj
  case inr.inr.inr.inl =>
    rw [hj] at hlocal
    have hreceived := hlocal.2.2
    have hpos : 0 < j.val := Nat.pos_of_ne_zero fun h0 => hne (Fin.ext h0)
    have hsent := hP.length_channel (previous j) j
    rw [hreceived, hempty] at hsent
    have hodd : (previous j).val % 2 = 1 := show (j.val - 1) % 2 = 1 by omega
    have hlocal' := hP.locals (previous j)
    obtain hi | hi | ⟨hi, hready⟩ | ⟨hi, -⟩ | ⟨hi, -⟩ | ⟨place, hi, -⟩ :=
      stuck_cases hvalid h hs (previous j)
    all_goals rw [hi] at hlocal' hsent
    · have hnext : j.val = (previous j).val + 1 := show j.val = j.val - 1 + 1 by omega
      simp only [protocol, if_pos hnext] at hsent
      cases hsent
    · exact absurd (hlocal'.1.symm.trans hodd) (by decide)
    · have hnext : (previous j).val + 1 = j.val := show j.val - 1 + 1 = j.val by omega
      have hj' : (⟨(previous j).val + 1, hnext ▸ j.isLt⟩ : Fin (n + 1)) = j := Fin.ext hnext
      apply absurd _ (hready (hnext ▸ j.isLt))
      rw [hj']
      simp only [Ready, main, hj, matches_some, forall_eq', true_and]
      exact hempty
    · exact absurd (hlocal'.1.symm.trans hodd) (by decide)
    · exact absurd (hlocal'.1.symm.trans hodd) (by decide)
    · have hzero := congrArg Fin.val hlocal'.1
      rw [hzero] at hodd
      cases hodd
  all_goals
    rw [hj] at hlocal
    first
    | exact absurd (hlocal.1.symm.trans heven) (by decide)
    | exact absurd hlocal.1 hne

theorem referee_of_stuck : ∃ place, s.process 0 = .receiveTeam place ∧ n / 2 < place := by
  have hP := (protocol_followed hvalid).holds h
  have hlocal := hP.locals 0
  obtain hi | hi | ⟨hi, -⟩ | ⟨hi, -⟩ | ⟨hi, -⟩ | ⟨place, hi, hempty⟩ := stuck_cases hvalid h hs 0
  all_goals rw [hi] at hlocal
  case inr.inr.inr.inr.inr =>
    refine ⟨place, hi, ?_⟩
    by_contra! hle
    obtain ⟨-, hlength⟩ := hlocal
    have hteams : (teams s).length + 1 = place := by
      rw [← hlength, teams, sources, List.length_map, List.length_map]
    obtain ⟨team, hpos, hlast, hmissing⟩ := exists_missing (s := s) (by omega)
    let j : Fin (n + 1) := ⟨2 * team, by omega⟩
    have hne : j ≠ 0 := fun h0 => by
      have := congrArg Fin.val h0
      simp only [j, Fin.val_zero] at this
      omega
    have hnot : j ∉ sources s := by
      intro hmem
      exact hmissing (List.mem_map.mpr ⟨j, hmem, by simp [j]⟩)
    obtain hj | ⟨hj, hready⟩ := second_of_stuck hvalid h hs (j := j) (Nat.mul_mod_right 2 team) hne
    · rw [sources, mem_sources] at hnot
      have hsent := hP.length_channel j 0
      rw [hj, hempty hle j] at hsent
      simp only [protocol, if_true, List.length_nil] at hsent
      omega
    · apply hready
      simp only [Ready, main, hi, if_pos hle, matches_none, forall_const, true_and]
      exact hempty hle
  · exact absurd hlocal.1 (by simp)
  · exact absurd rfl hlocal.2.1
  · exact absurd hlocal.1 (by simp)
  · exact absurd rfl hlocal.2.1
  · exact absurd rfl hlocal.2.1

theorem perm_teams_of_stuck : (teams s).Perm ((List.range (n / 2)).map (· + 1)) := by
  have hP := (protocol_followed hvalid).holds h
  obtain ⟨place, hi, hlt⟩ := referee_of_stuck hvalid h hs
  have hlocal := hP.locals 0
  rw [hi] at hlocal
  have hlength : (teams s).length + 1 = place := by
    rw [← hlocal.2, teams, sources, List.length_map, List.length_map]
  apply ((nodup_teams hP).subperm fun team ht => ?_).perm_of_length_le
  · rw [List.length_map, List.length_range]
    omega
  · have harrived := arrived_of_mem hP team ht
    have hpos := harrived.pos
    have hle := harrived.le
    exact List.mem_map.mpr ⟨team - 1, List.mem_range.mpr (by omega), by omega⟩

theorem finished_of_stuck : Finished (main n 3) s := by
  have hP := (protocol_followed hvalid).holds h
  obtain ⟨place, hfirst, hlt⟩ := referee_of_stuck hvalid h hs
  intro i
  by_cases hzero : i = 0
  · rw [hzero, hfirst]
    simp only [main, if_neg (not_le.mpr hlt)]
  · have hpos : 0 < i.val := Nat.pos_of_ne_zero fun h0 => hzero (Fin.ext h0)
    have hin := i.isLt
    have hmem : (i.val + 1) / 2 ∈ teams s :=
      (perm_teams_of_stuck hvalid h hs).mem_iff.mpr
        (List.mem_map.mpr ⟨(i.val + 1) / 2 - 1, List.mem_range.mpr (by omega), by omega⟩)
    have harrived := arrived_of_mem hP _ hmem
    obtain hodd | heven := (Nat.mod_two_eq_zero_or_one i.val).symm
    · rw [harrived.first i (by omega)]
      rfl
    · rw [harrived.second i (by omega)]
      rfl

end Stuck

/-- The lines that a process has ahead of it. -/
def Pc.left (i : Fin (n + 1)) : Pc → ℕ
  | enterBarrier => if i.val = 0 then n + 2 else 4
  | leaveBarrier => if i.val = 0 then n + 1 else 3
  | sendBaton => 1
  | receiveBaton => 2
  | sendTeam => 1
  | receiveTeam place => 2 * (n / 2 + 1 - place)
  | announce place _ => 2 * (n / 2 - place) + 1
  | usage => 1
  | passed | crossed | returned | aborted => 0

theorem left_lt (i : Fin (n + 1)) (a b : Pc) (h : ((main n 3).next i a).Leads b) :
    b.left i < a.left i := by
  cases a <;> simp only [main] at h
  case enterBarrier =>
    cases h
    simp only [Pc.left]
    split_ifs <;> omega
  case leaveBarrier =>
    cases h
    unfold runner
    split_ifs <;> simp only [Pc.left] <;> split_ifs <;> omega
  case sendBaton =>
    split_ifs at h <;> cases h
    exact Nat.one_pos
  case receiveBaton =>
    obtain ⟨-, rfl⟩ := h
    exact Nat.lt_succ_self 1
  case receiveTeam place =>
    split_ifs at h
    · obtain ⟨message, rfl⟩ := h
      cases message <;> simp only [afterReceive, Pc.left] <;> omega
    · cases h
  case announce place team =>
    cases h
    simp only [Pc.left]
    omega
  all_goals cases h
  all_goals exact Nat.one_pos

/-- Whatever the system buffers and whoever moves when: nobody races before all processes are at the
start; the referee gives the places from the first one on to different teams, after both runners of
each have done their stages; and no run ends before every team has its place. -/
theorem relay_race_places (teams : ℕ) (hteams : 1 ≤ teams) (limit : ℕ) :
    (∀ s, ((main (2 * teams) 3).system limit).Reachable s →
      (∀ i, (s.process i).racing = 1 → ∀ j, s.process j ≠ .enterBarrier) ∧
      ∃ order : List ℕ, order.Nodup ∧ (∀ team ∈ order, Arrived s team) ∧
        s.output <+: lines order) ∧
    (∀ s, ((main (2 * teams) 3).system limit).Reachable s →
      ((main (2 * teams) 3).system limit).Stuck s → Finished (main (2 * teams) 3) s ∧
      ∃ order : List ℕ, order.Perm ((List.range teams).map (· + 1)) ∧ s.output = lines order) ∧
    ∀ l s, ((main (2 * teams) 3).system limit).run l = some s → l.length ≤ 10 * teams + 2 := by
  have hvalid : 3 ≤ 2 * teams + 1 ∧ (2 * teams + 1) % 2 = 1 := by omega
  have hhalf : 2 * teams / 2 = teams := by omega
  refine ⟨fun s h => ⟨fun i => entered_of_racing hvalid h, ?_⟩, fun s h hs => ?_, fun l s h => ?_⟩
  · have hP := (protocol_followed hvalid).holds h
    exact ⟨_, nodup_teams hP, arrived_of_mem hP, output_begins hvalid h⟩
  · refine ⟨finished_of_stuck hvalid h hs, RelayRace.teams s, ?_, ?_⟩
    · have hperm := perm_teams_of_stuck hvalid h hs
      rwa [hhalf] at hperm
    · obtain ⟨place, hi, -⟩ := referee_of_stuck hvalid h hs
      have hprinted := reachable_printed hvalid h
      rwa [Printed, hi] at hprinted
  · apply (length_le_of_run Pc.left left_lt h).trans_eq
    rw [Fin.sum_univ_succ]
    simp only [main, hvalid, and_self, if_true, Pc.left, Fin.val_zero, Fin.val_succ,
      Nat.succ_ne_zero, if_false, Finset.sum_const, Finset.card_univ, Fintype.card_fin,
      smul_eq_mul]
    omega

/-- The end of a race of two teams. -/
theorem relay_race_places_two : ∃ s, ((main 4 3).system 0).Reachable s ∧
    Finished (main 4 3) s ∧ (∃ order : List ℕ, order.Nodup ∧ (∀ team ∈ order, Arrived s team) ∧
      s.output <+: lines order) ∧
    ∃ order : List ℕ, order.Perm [1, 2] ∧ s.output = lines order := by
  obtain ⟨s, hs, hstuck⟩ := (terminates Pc.left (left_lt (n := 4)) 0).exists_stuck
  obtain ⟨hplaces, hend, -⟩ := relay_race_places 2 (by decide) 0
  obtain ⟨hfinished, horder⟩ := hend s hs hstuck
  exact ⟨s, hs, hfinished, (hplaces s hs).2, horder⟩

end Concurrente.Mpi.RelayRace
