import Concurrente.CString
import Concurrente.Messages

/-!
# send_recv_ord_sem, send_recv_ord_itm, send_recv_urd

The processes greet: in the order of their ranks, each when the one before lets it, or through the
first process, which prints the greetings of the others in the order of the ranks or as they
arrive.
-/

namespace Concurrente.Mpi

open Messages CString

/-- A host name as `MPI_Get_processor_name` gives it: a string of C that fits its buffer. -/
structure Host (maxProcessorName : ℕ) where
  name : List Char
  fits : name.length < maxProcessorName
  noNull : '\x00' ∉ name

def greeting (rank size : ℕ) (hostname : List Char) : List Char :=
  "Hello from main thread of process ".toList ++ decimal rank ++ " of ".toList ++ decimal size ++
    " on ".toList ++ hostname

namespace OrdSem

inductive Pc where
  | receive
  | greet
  | send
  | returned
  deriving DecidableEq

variable {n m : ℕ}

/-- Only the first process does not wait; the last one sends nothing. -/
def main (host : Fin n → Host m) : Code (Fin n) Bool Pc (List Char) where
  start i := if i.val = 0 then .greet else .receive
  next i
    | .receive => .receive (some (previous i)) fun _ => .greet
    | .greet => .report (greeting i n (host i).name) .send
    | .send => if h : i.val + 1 < n then .send ⟨i + 1, h⟩ true .returned else .finished
    | .returned => .finished

/-- The permission to greet is the only message that a process receives. -/
def protocol (n : ℕ) : Protocol (Fin n) Bool Pc where
  Local i l
    | .receive => i.val ≠ 0 ∧ l = []
    | _ => i.val = 0 ∧ l = [] ∨ i.val ≠ 0 ∧ l = [(previous i, true)]
  sent i j
    | .returned => if j.val = i.val + 1 then 1 else 0
    | _ => 0
  message _ _ _ := true

variable {host : Fin n → Host m} {limit : ℕ} {s t : State (Fin n) Bool Pc (List Char)} {i : Fin n}

theorem protocol_followed : (protocol n).Followed (main host) where
  start i := by
    simp only [main]
    split_ifs with h
    · exact .inl ⟨h, rfl⟩
    · exact ⟨h, rfl⟩
  sent_start i j := by
    simp only [main]
    split_ifs <;> rfl
  silent i l a k hl hk := by
    cases a
    case greet =>
      cases hk
      exact ⟨hl, fun _ => rfl⟩
    case send =>
      simp only [main] at hk
      split_ifs at hk <;> cases hk
    all_goals cases hk
  send i l a k m k' hl hk := by
    cases a
    case send =>
      simp only [main] at hk
      split_ifs at hk with h
      cases hk
      refine ⟨rfl, hl, fun j => ?_⟩
      simp only [protocol, Fin.ext_iff, Nat.zero_add]
    all_goals cases hk
  receive i l a source k j m hl hk hj hm _ := by
    cases a
    case receive =>
      cases hk
      obtain ⟨hi, rfl⟩ := hl
      obtain rfl : previous i = j := hj
      exact ⟨.inr ⟨hi, by rw [hm]; rfl⟩, fun _ => rfl⟩
    case send =>
      simp only [main] at hk
      split_ifs at hk
    all_goals cases hk

def Pc.Greeted : Pc → Prop
  | send | returned => True
  | _ => False

def line (host : Fin n → Host m) (i : Fin n) : Fin n × List Char :=
  (i, greeting i n (host i).name)

/-- The first processes have greeted, in their order. -/
structure Ordered (host : Fin n → Host m) (s : State (Fin n) Bool Pc (List Char)) : Prop where
  output : s.output = ((List.finRange n).take s.output.length).map (line host)
  greeted : ∀ i, (s.process i).Greeted ↔ i.val < s.output.length

theorem Ordered.turn (O : Ordered host s) (h : (protocol n).Holds s) (hi : s.process i = .greet) :
    i.val = s.output.length := by
  have hnot : ¬ i.val < s.output.length := fun hlt => by
    have hg := (O.greeted i).mpr hlt
    rw [hi] at hg
    exact hg
  have hlocal := h.locals i
  rw [hi] at hlocal
  obtain ⟨hzero, -⟩ | ⟨hne, hl⟩ := hlocal
  · omega
  · have hsent := h.length_channel (previous i) i
    rw [hl] at hsent
    have hone : (fromSource [(previous i, true)] (previous i)).length = 1 := by simp [fromSource]
    have hreturned : s.process (previous i) = .returned := by
      by_contra hr
      have hzero : (protocol n).sent (previous i) i (s.process (previous i)) = 0 := by
        generalize s.process (previous i) = a at hr
        cases a <;> first | rfl | exact absurd rfl hr
      omega
    have hlt := (O.greeted (previous i)).mp (by rw [hreturned]; trivial)
    have hprevious : (previous i).val = i - 1 := rfl
    omega

theorem Ordered.greet (O : Ordered host s) (h : (protocol n).Holds s)
    (hi : s.process i = .greet) :
    Ordered host (s.report i (greeting i n (host i).name) .send) := by
  have hturn := O.turn h hi
  have hlength : (s.report i (greeting i n (host i).name) .send).output.length =
      s.output.length + 1 := List.length_append
  refine ⟨?_, fun j => ?_⟩
  · rw [hlength, List.take_add_one, List.map_append, ← O.output]
    simp only [State.report, ← hturn]
    rw [List.getElem?_eq_getElem (by simp), List.getElem_finRange]
    rfl
  · rw [hlength]
    simp only [State.report]
    by_cases hj : j = i
    · subst hj
      rw [Function.update_self]
      exact iff_of_true trivial (by omega)
    · rw [Function.update_of_ne hj, O.greeted j]
      have hne : j.val ≠ i.val := fun heq => hj (Fin.ext heq)
      omega

theorem Ordered.same (O : Ordered host s) (ho : t.output = s.output) {a : Pc}
    (ht : t.process = Function.update s.process i a) (ha : a.Greeted ↔ (s.process i).Greeted) :
    Ordered host t := by
  refine ⟨ho ▸ O.output, fun j => ?_⟩
  rw [ho, ht, ← O.greeted j]
  by_cases hj : j = i
  · subst hj
    rw [Function.update_self]
    exact ha
  · rw [Function.update_of_ne hj]

theorem reachable_ordered (h : ((main host).system limit).Reachable s) : Ordered host s := by
  apply System.Reachable.invariant' (I := Ordered host) _ _ h
  · refine ⟨rfl, fun i => ?_⟩
    simp only [Code.system, main]
    split_ifs <;> exact iff_of_false id (Nat.not_lt_zero _)
  · intro s x t hr O hs
    obtain ⟨i, j⟩ := x
    have hP := protocol_followed.holds hr
    cases moves_of_step hs with
    | report hn =>
      cases hi : s.process i <;> simp only [main, hi] at hn
      case greet =>
        cases hn
        exact O.greet hP hi
      case send => split_ifs at hn
      all_goals cases hn
    | send hn =>
      cases hi : s.process i <;> simp only [main, hi] at hn
      case send =>
        split_ifs at hn
        cases hn
        exact O.same rfl rfl (by rw [hi]; exact Iff.rfl)
      all_goals cases hn
    | receive hn hm hc =>
      cases hi : s.process i <;> simp only [main, hi] at hn
      case receive =>
        cases hn
        exact O.same rfl rfl (by rw [hi]; exact Iff.rfl)
      case send => split_ifs at hn
      all_goals cases hn
    | enter hn | leave hn _ =>
      cases hi : s.process i <;> simp only [main, hi] at hn
      case send => split_ifs at hn
      all_goals cases hn

theorem ready_next (h : (protocol n).Holds s) (hi : s.process i = .send) (hlt : i.val + 1 < n) :
    Ready (main host) s ⟨i + 1, hlt⟩ i := by
  have hprevious : previous (⟨i + 1, hlt⟩ : Fin n) = i := Fin.ext (Nat.add_sub_cancel ..)
  have hsent := h.length_channel i ⟨i + 1, hlt⟩
  rw [hi] at hsent
  simp only [protocol, Nat.add_eq_zero_iff, List.length_eq_zero_iff] at hsent
  have hlocal := h.locals ⟨i + 1, hlt⟩
  have hreceive : s.process ⟨i + 1, hlt⟩ = .receive := by
    by_contra hr
    have hl : s.received ⟨i + 1, hlt⟩ = [(i, true)] := by
      generalize s.process ⟨i + 1, hlt⟩ = a at hr hlocal
      cases a
      case receive => exact absurd rfl hr
      all_goals
        obtain ⟨hzero, -⟩ | ⟨-, hl⟩ := hlocal
        · cases hzero
        · rw [hl, hprevious]
    rw [hl] at hsent
    simp [fromSource] at hsent
  simp only [Ready, main, hreceive, hprevious, matches_some]
  refine ⟨trivial, ?_⟩
  rintro j rfl
  exact hsent.2

theorem finished_of_stuck (h : ((main host).system limit).Reachable s)
    (hs : ((main host).system limit).Stuck s) : Finished (main host) s := by
  have hP := protocol_followed.holds h
  intro i
  induction hi : i.val using Nat.strong_induction_on generalizing i with
  | _ k ih =>
    obtain hf | ⟨dest, m, a, hn, -, hready⟩ | ⟨source, a, hn, hempty⟩ | ⟨a, hn, -⟩ :=
      blocked_cases fun j => hs (i, j)
    · exact hf
    all_goals cases hpc : s.process i <;> simp only [main, hpc] at hn ⊢
    all_goals try split_ifs at hn with hlt
    all_goals cases hn
    · exact absurd (ready_next hP hpc hlt) hready
    · have hlocal := hP.locals i
      rw [hpc] at hlocal
      obtain ⟨hne, hl⟩ := hlocal
      have hprevious : (previous i).val = i - 1 := rfl
      have hend := ih (i.val - 1) (by omega) (previous i) rfl
      have hchannel := hP.length_channel (previous i) i
      rw [hl, hempty (previous i) rfl] at hchannel
      cases hp : s.process (previous i) <;> simp only [main, hp] at hend
      case send =>
        split_ifs at hend with hlt
        omega
      case returned =>
        rw [hp] at hchannel
        simp only [protocol] at hchannel
        rw [if_pos (by omega)] at hchannel
        cases hchannel
      all_goals cases hend

def Pc.left : Pc → ℕ
  | receive => 3
  | greet => 2
  | send => 1
  | returned => 0

theorem left_lt (i : Fin n) (a b : Pc) (h : ((main host).next i a).Leads b) : b.left < a.left := by
  cases a <;> simp only [main] at h
  case receive =>
    obtain ⟨-, rfl⟩ := h
    exact Nat.lt_succ_self _
  case greet =>
    cases h
    decide
  case send =>
    split_ifs at h <;> cases h
    decide
  all_goals cases h

/-- Whatever the system buffers and whoever moves when, the processes greet in the order of their
ranks, and no run ends before all have. -/
theorem greetings_in_rank_order {n m : ℕ} (host : Fin n → Host m) (limit : ℕ) :
    (∀ s, ((main host).system limit).Reachable s → s.output <+: (List.finRange n).map (line host)) ∧
    (∀ s, ((main host).system limit).Reachable s → ((main host).system limit).Stuck s →
      s.output = (List.finRange n).map (line host)) ∧
    ∀ l s, ((main host).system limit).run l = some s → l.length ≤ 3 * n := by
  refine ⟨fun s h => ?_, fun s h hs => ?_, fun l s h => ?_⟩
  · rw [(reachable_ordered h).output]
    exact (List.take_prefix _ _).map _
  · have O := reachable_ordered h
    have hend := finished_of_stuck h hs
    have hall : n ≤ s.output.length := by
      by_contra! hlt
      have hg := (O.greeted ⟨_, hlt⟩).not.mpr (lt_irrefl _)
      have hf := hend ⟨_, hlt⟩
      cases hp : s.process ⟨_, hlt⟩ <;> simp only [main, hp] at hf
      case send => exact hg (by rw [hp]; trivial)
      case returned => exact hg (by rw [hp]; trivial)
      all_goals cases hf
    rw [O.output, List.take_of_length_le (by simpa using hall)]
  · apply (length_le_of_run (fun _ => Pc.left) left_lt h).trans
    apply (Finset.sum_le_card_nsmul _ _ 3 fun i _ => ?_).trans_eq
    · rw [Finset.card_univ, Fintype.card_fin, smul_eq_mul, mul_comm]
    · simp only [main]
      split_ifs <;> decide

end OrdSem

end Concurrente.Mpi
