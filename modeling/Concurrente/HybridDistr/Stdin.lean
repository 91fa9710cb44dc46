import Concurrente.HybridDistr.Ranges
import Concurrente.Messages

/-!
# mpi_hybrid_distr_stdin

The processes take the whole range from the arguments, or the first one reads it and sends it to
the others; then each calculates and reports its own.
-/

namespace Concurrente.HybridDistr.Stdin

open Messages IntType

inductive Pc where
  | send (destination : ℕ) (overallStart overallFinish : ℤ)
  | receive
  | calculate (overallStart overallFinish : ℤ)
  | reported
  deriving DecidableEq

/-- The report of a process is its range with its size. -/
abbrev Range := ℤ × ℤ × ℤ

variable {n : ℕ}

/-- The lines after the range is known; an overflow has no defined continuation. -/
def calculate (rank : Fin (n + 1)) (overallStart overallFinish : ℤ) :
    Instr (Fin (n + 1)) (ℤ × ℤ) Pc Range :=
  match processRange rank (n + 1) overallStart overallFinish with
  | some range => .report range .reported
  | none => .finished

/-- `arguments` tells whether the range is given there. -/
def main (n : ℕ) (arguments : Bool) (overallStart overallFinish : ℤ) :
    Code (Fin (n + 1)) (ℤ × ℤ) Pc Range where
  start rank :=
    if arguments then .calculate overallStart overallFinish
    else if rank = 0 then .send 1 overallStart overallFinish
    else .receive
  next rank
    | .send destination start finish =>
      if h : destination < n + 1 then
        .send ⟨destination, h⟩ (start, finish) (.send (destination + 1) start finish)
      else calculate rank start finish
    | .receive => .receive (some 0) fun range => .calculate range.1 range.2
    | .calculate start finish => calculate rank start finish
    | .reported => .finished

def protocol (n : ℕ) (arguments : Bool) (a b : ℤ) : Protocol (Fin (n + 1)) (ℤ × ℤ) Pc where
  Local i l
    | .send destination start finish => arguments = false ∧ i = 0 ∧ 0 < destination ∧
      destination ≤ n + 1 ∧ start = a ∧ finish = b
    | .receive => arguments = false ∧ i ≠ 0 ∧ l = []
    | .calculate start finish => (arguments = false → i ≠ 0 ∧ 0 ∈ l.map Prod.fst) ∧
      start = a ∧ finish = b
    | .reported => arguments = false → i ≠ 0 → 0 ∈ l.map Prod.fst
  sent i j
    | .send destination _ _ => if i = 0 ∧ j ≠ 0 ∧ j.val < destination then 1 else 0
    | .reported => if arguments = false ∧ i = 0 ∧ j ≠ 0 then 1 else 0
    | _ => 0
  message _ _ _ := (a, b)

variable {arguments : Bool} {a b : ℤ} {limit : ℕ} {s t : State (Fin (n + 1)) (ℤ × ℤ) Pc Range}
  {i j : Fin (n + 1)}

theorem calculate_cases {x : Instr (Fin (n + 1)) (ℤ × ℤ) Pc Range} (h : calculate i a b = x) :
    (∃ range, processRange i (n + 1) a b = some range ∧ x = .report range .reported) ∨
      x = .finished := by
  unfold calculate at h
  cases hrange : processRange i (n + 1) a b with
  | some range => exact .inl ⟨range, rfl, by rw [← h, hrange]⟩
  | none => exact .inr (by rw [← h, hrange])

theorem protocol_followed : (protocol n arguments a b).Followed (main n arguments a b) where
  start i := by
    simp only [main]
    split_ifs with hargs hzero
    · exact ⟨fun h => absurd (hargs.symm.trans h) (by decide), rfl, rfl⟩
    · exact ⟨Bool.eq_false_of_not_eq_true hargs, hzero, Nat.one_pos, by omega, rfl, rfl⟩
    · exact ⟨Bool.eq_false_of_not_eq_true hargs, hzero, rfl⟩
  sent_start i j := by
    simp only [main]
    split_ifs with hargs hzero
    · rfl
    · exact if_neg fun h => h.2.1 (Fin.ext (Nat.lt_one_iff.mp h.2.2))
    · rfl
  silent i l pc next hl hb := by
    have hcalculate : ∀ a b, (calculate i a b).Silent next → next = .reported := by
      intro a b h
      obtain ⟨range, -, hr⟩ | hf := calculate_cases (i := i) (a := a) (b := b) rfl
      · rw [hr] at h
        exact h.symm
      · rw [hf] at h
        exact h.elim
    cases pc <;> simp only [main] at hb
    case send destination start finish =>
      split_ifs at hb with hlt
      · cases hb
      · obtain rfl := hcalculate _ _ hb
        obtain ⟨hargs, rfl, -, hle, -⟩ := hl
        refine ⟨fun _ h => absurd rfl h, fun j => ?_⟩
        have hj : j.val < destination := by omega
        simp only [protocol, hargs, hj, true_and, and_true]
    case calculate start finish =>
      obtain rfl := hcalculate _ _ hb
      refine ⟨fun hargs _ => (hl.1 hargs).2, fun j => ?_⟩
      exact if_neg fun h => (hl.1 h.1).1 h.2.1
    all_goals cases hb
  send i l pc k message next hl hb := by
    cases pc <;> simp only [main] at hb
    case send destination start finish =>
      split_ifs at hb with hlt
      · cases hb
        obtain ⟨hargs, rfl, hpos, hle, rfl, rfl⟩ := hl
        refine ⟨rfl, ⟨hargs, rfl, by omega, hlt, rfl, rfl⟩, fun j => ?_⟩
        simp only [protocol, true_and, Fin.ext_iff, ne_eq, Fin.val_zero]
        split_ifs <;> omega
      · obtain ⟨_, -, h⟩ | h := calculate_cases hb <;> cases h
    case calculate start finish => obtain ⟨_, -, h⟩ | h := calculate_cases hb <;> cases h
    all_goals cases hb
  receive i l pc source next k message hl hb hk hm _ := by
    cases pc <;> simp only [main] at hb
    case send destination start finish =>
      split_ifs at hb with hlt
      obtain ⟨_, -, h⟩ | h := calculate_cases hb <;> cases h
    case receive =>
      cases hb
      subst hm
      obtain rfl : 0 = k := hk
      exact ⟨⟨fun _ => ⟨hl.2.1, by simp⟩, rfl, rfl⟩, fun _ => rfl⟩
    case calculate start finish => obtain ⟨_, -, h⟩ | h := calculate_cases hb <;> cases h
    all_goals cases hb

def IsReport (a b : ℤ) (x : Fin (n + 1) × Range) : Prop :=
  processRange x.1 (n + 1) a b = some x.2

/-- The processes that have reported, each once and its own range. -/
structure Reported (a b : ℤ) (s : State (Fin (n + 1)) (ℤ × ℤ) Pc Range) : Prop where
  nodup : (s.output.map Prod.fst).Nodup
  mem : ∀ i, i ∈ s.output.map Prod.fst ↔ s.process i = .reported
  right : ∀ x ∈ s.output, IsReport a b x

theorem Reported.report (h : Reported a b s) (hi : s.process i ≠ .reported) {range : Range}
    (hrange : processRange i (n + 1) a b = some range) :
    Reported a b (s.report i range .reported) := by
  refine ⟨?_, fun j => ?_, fun x hx => ?_⟩
  · simp only [State.report, List.map_append, List.map_cons, List.map_nil]
    refine List.nodup_append.mpr ⟨h.nodup, List.nodup_singleton i, fun j hj k hk => ?_⟩
    rw [List.mem_singleton.mp hk]
    rintro rfl
    exact hi ((h.mem j).mp hj)
  · simp only [State.report, List.map_append, List.map_cons, List.map_nil, List.mem_append,
      List.mem_singleton, h.mem]
    by_cases hj : j = i
    · simp [hj]
    · simp [hj]
  · obtain hx | hx := List.mem_append.mp hx
    · exact h.right x hx
    · rw [List.mem_singleton.mp hx]
      exact hrange

theorem Reported.same (h : Reported a b s) (ho : t.output = s.output) {pc : Pc}
    (ht : t.process = Function.update s.process i pc) (hi : s.process i ≠ .reported)
    (hpc : pc ≠ .reported) : Reported a b t := by
  refine ⟨ho ▸ h.nodup, fun j => ?_, ho ▸ h.right⟩
  rw [ho, h.mem, ht]
  by_cases hj : j = i
  · subst hj
    rw [Function.update_self]
    exact iff_of_false hi hpc
  · rw [Function.update_of_ne hj]

theorem moves_cases (hP : (protocol n arguments a b).Holds s)
    (h : Moves (main n arguments a b) s i t) : s.process i ≠ .reported ∧
      ((∃ range, processRange i (n + 1) a b = some range ∧ t = s.report i range .reported) ∨
        ∃ pc, t.output = s.output ∧ t.process = Function.update s.process i pc ∧
          pc ≠ .reported) := by
  have hlocal := hP.locals i
  have hne : s.process i ≠ .reported := by
    intro hi
    cases h with
    | report hn | send hn | receive hn _ _ | enter hn | leave hn _ =>
      rw [hi] at hn
      cases hn
  refine ⟨hne, ?_⟩
  cases h with
  | @report range next hn =>
    left
    cases hi : s.process i <;> simp only [main, hi] at hn <;> rw [hi] at hlocal
    case send destination start finish =>
      split_ifs at hn
      obtain ⟨-, -, -, -, rfl, rfl⟩ := hlocal
      obtain ⟨range', hrange, h⟩ | h := calculate_cases hn <;> cases h
      exact ⟨range, hrange, rfl⟩
    case calculate start finish =>
      obtain ⟨-, rfl, rfl⟩ := hlocal
      obtain ⟨range', hrange, h⟩ | h := calculate_cases hn <;> cases h
      exact ⟨range, hrange, rfl⟩
    all_goals cases hn
  | @send dest message next hn =>
    refine .inr ⟨next, rfl, rfl, ?_⟩
    cases hi : s.process i <;> simp only [main, hi] at hn
    case send destination start finish =>
      split_ifs at hn
      · cases hn
        simp
      · obtain ⟨_, -, h⟩ | h := calculate_cases hn <;> cases h
    case calculate start finish => obtain ⟨_, -, h⟩ | h := calculate_cases hn <;> cases h
    all_goals cases hn
  | @receive source j message rest next hn hm hc =>
    refine .inr ⟨next message, rfl, rfl, ?_⟩
    cases hi : s.process i <;> simp only [main, hi] at hn
    case send destination start finish =>
      split_ifs at hn
      obtain ⟨_, -, h⟩ | h := calculate_cases hn <;> cases h
    case receive =>
      cases hn
      simp
    case calculate start finish => obtain ⟨_, -, h⟩ | h := calculate_cases hn <;> cases h
    all_goals cases hn
  | enter hn | leave hn _ =>
    cases hi : s.process i <;> simp only [main, hi] at hn
    case send destination start finish =>
      split_ifs at hn
      obtain ⟨_, -, h⟩ | h := calculate_cases hn <;> cases h
    case calculate start finish => obtain ⟨_, -, h⟩ | h := calculate_cases hn <;> cases h
    all_goals cases hn

theorem reachable_reported (h : ((main n arguments a b).system limit).Reachable s) :
    Reported a b s := by
  have hstart : ∀ i, (main n arguments a b).start i ≠ .reported := by
    intro i
    simp only [main]
    split_ifs <;> simp
  apply System.Reachable.invariant' (I := Reported a b) _ _ h
  · exact ⟨List.nodup_nil, fun i => iff_of_false List.not_mem_nil (hstart i), by simp [Code.system]⟩
  · intro s x t hr ih hs
    obtain ⟨i, j⟩ := x
    obtain ⟨hi, ⟨range, hrange, rfl⟩ | ⟨pc, ho, ht, hpc⟩⟩ :=
      moves_cases (protocol_followed.holds hr) (moves_of_step hs)
    · exact ih.report hi hrange
    · exact ih.same ho ht hi hpc

section Stuck

variable (hdefined : ∀ i : Fin (n + 1), (processRange i (n + 1) a b).isSome)
  (h : ((main n arguments a b).system limit).Reachable s)
  (hs : ((main n arguments a b).system limit).Stuck s)

include hdefined h hs

theorem stuck_cases (i : Fin (n + 1)) :
    s.process i = .reported ∨
    (∃ destination start finish, s.process i = .send destination start finish ∧
      ∃ hlt : destination < n + 1, ¬ Ready (main n arguments a b) s ⟨destination, hlt⟩ i) ∨
    s.process i = .receive ∧ s.channel 0 i = [] := by
  have hlocal := (protocol_followed.holds h).locals i
  have hcalculate : ∃ range, calculate i a b = .report range .reported := by
    obtain ⟨range, hrange⟩ := Option.isSome_iff_exists.mp (hdefined i)
    exact ⟨range, by rw [calculate, hrange]⟩
  obtain ⟨range, hrange⟩ := hcalculate
  have hblocked := blocked_cases fun k => hs (i, k)
  cases hi : s.process i <;> rw [hi] at hlocal
  case reported => exact .inl rfl
  case receive =>
    refine .inr (.inr ⟨rfl, ?_⟩)
    simp only [main, hi, reduceCtorEq, Instr.receive.injEq, false_and, exists_false, or_false,
      false_or] at hblocked
    obtain ⟨source, next, ⟨rfl, -⟩, hempty⟩ := hblocked
    exact hempty 0 rfl
  case calculate start finish =>
    obtain ⟨-, rfl, rfl⟩ := hlocal
    simp [main, hi, hrange] at hblocked
  case send destination start finish =>
    obtain ⟨-, -, -, -, rfl, rfl⟩ := hlocal
    refine .inr (.inl ⟨_, _, _, rfl, ?_⟩)
    by_cases hlt : destination < n + 1
    · simp only [main, hi, dif_pos hlt, reduceCtorEq, Instr.send.injEq, false_and, exists_false,
        or_false, false_or] at hblocked
      obtain ⟨dest, message, next, ⟨rfl, -, -⟩, -, hready⟩ := hblocked
      exact ⟨hlt, hready⟩
    · simp only [main, hi, dif_neg hlt, hrange, reduceCtorEq, false_and, exists_false,
        or_false] at hblocked

theorem reported_of_stuck (i : Fin (n + 1)) : s.process i = .reported := by
  have hP : (protocol n arguments a b).Holds s := protocol_followed.holds h
  -- the first process finds every other one at its receive
  have hfirst : ∀ destination start finish, s.process 0 ≠ .send destination start finish := by
    intro destination start finish hsend
    have hlocal := hP.locals 0
    obtain h0 | ⟨destination', start', finish', h0, hlt, hready⟩ | ⟨h0, -⟩ :=
      stuck_cases hdefined h hs 0
    · cases h0.symm.trans hsend
    · rw [h0] at hlocal
      obtain ⟨hargs, -, hpos, -⟩ := hlocal
      have hj : (⟨destination', hlt⟩ : Fin (n + 1)) ≠ 0 := fun heq =>
        hpos.ne' (congrArg Fin.val heq)
      have hlength := hP.length_channel 0 ⟨destination', hlt⟩
      rw [h0] at hlength
      simp only [protocol, lt_irrefl, and_false, if_false, Nat.add_eq_zero_iff,
        List.length_eq_zero_iff] at hlength
      have hnot : 0 ∉ (s.received ⟨destination', hlt⟩).map Prod.fst := by
        rw [mem_sources, hlength.1]
        exact lt_irrefl 0
      have hlocal' := hP.locals ⟨destination', hlt⟩
      obtain hj' | ⟨_, _, _, hj', -⟩ | ⟨hj', -⟩ := stuck_cases hdefined h hs ⟨destination', hlt⟩
      all_goals rw [hj'] at hlocal'
      · exact hnot (hlocal' hargs hj)
      · exact hj hlocal'.2.1
      · apply hready
        simp only [Ready, main, hj', matches_some, forall_eq', true_and]
        exact hlength.2
    · cases h0.symm.trans hsend
  obtain hi | ⟨destination, start, finish, hi, -⟩ | ⟨hi, hempty⟩ := stuck_cases hdefined h hs i
  · exact hi
  · have hlocal := hP.locals i
    rw [hi] at hlocal
    exact absurd (hlocal.2.1 ▸ hi) (hfirst _ _ _)
  · have hlocal := hP.locals i
    rw [hi] at hlocal
    obtain ⟨hargs, hne, hreceived⟩ := hlocal
    have hlength := hP.length_channel 0 i
    rw [hreceived, hempty] at hlength
    obtain h0 | ⟨destination, start, finish, h0, -⟩ | ⟨h0, -⟩ := stuck_cases hdefined h hs 0
    · rw [h0] at hlength
      simp only [protocol, hargs, hne, ne_eq, not_false_eq_true, and_self, if_true] at hlength
      cases hlength
    · exact absurd h0 (hfirst _ _ _)
    · have hlocal := hP.locals 0
      rw [h0] at hlocal
      exact absurd rfl hlocal.2.1

end Stuck

/-- The lines that a process has ahead of it. -/
def Pc.left (n : ℕ) : Pc → ℕ
  | send destination _ _ => n + 1 - destination + 1
  | receive => 2
  | calculate _ _ => 1
  | reported => 0

theorem left_lt (i : Fin (n + 1)) (pc next : Pc)
    (h : ((main n arguments a b).next i pc).Leads next) : next.left n < pc.left n := by
  have hcalculate : ∀ a b, (calculate i a b).Leads next → next.left n = 0 := by
    intro a b h
    obtain ⟨range, -, hr⟩ | hf := calculate_cases (i := i) (a := a) (b := b) rfl
    · rw [hr] at h
      cases h
      rfl
    · rw [hf] at h
      exact h.elim
  cases pc <;> simp only [main] at h
  case send destination start finish =>
    split_ifs at h with hlt
    · cases h
      simp only [Pc.left]
      omega
    · rw [hcalculate _ _ h]
      exact Nat.succ_pos _
  case receive =>
    obtain ⟨-, rfl⟩ := h
    exact Nat.lt_succ_self 1
  case calculate start finish =>
    rw [hcalculate _ _ h]
    exact Nat.one_pos
  case reported => cases h

theorem length_le {l : List (Fin (n + 1) × Fin (n + 1))}
    (h : ((main n arguments a b).system limit).run l = some s) : l.length ≤ 3 * n + 1 := by
  apply (length_le_of_run (fun _ => Pc.left n) left_lt h).trans
  rw [Fin.sum_univ_succ]
  have hfirst : ((main n arguments a b).start 0).left n ≤ n + 1 := by
    simp only [main, if_true]
    split_ifs <;> simp only [Pc.left] <;> omega
  have hothers : ∀ i : Fin n, ((main n arguments a b).start i.succ).left n ≤ 2 := by
    intro i
    simp only [main, Fin.succ_ne_zero, if_false]
    split_ifs <;> simp only [Pc.left] <;> omega
  have hsum := Finset.sum_le_card_nsmul Finset.univ _ 2 fun i _ => hothers i
  rw [Finset.card_univ, Fintype.card_fin, smul_eq_mul] at hsum
  omega

theorem isReport_iff (ha : int.InRange a) (hb : int.InRange b) (hw : int.InRange ((n + 1 : ℕ) : ℤ))
    (hle : a ≤ b) (hrange : b - a ≤ int.max) (x : Fin (n + 1) × Range) :
    IsReport a b x ↔ x.2 = (bound a b (n + 1) x.1, bound a b (n + 1) (x.1 + 1),
      bound a b (n + 1) (x.1 + 1) - bound a b (n + 1) x.1) := by
  have heq := processRange_eq ha hb hw hle hrange x.1.isLt
  rw [Nat.cast_succ] at heq
  rw [IsReport, heq, Option.some.injEq, eq_comm]

/-- Whether the range comes from the arguments or from the first process, whatever the system
buffers and whoever moves when: every process reports once and nothing but its own block of one
balanced partition of the range, and no run ends before all have. -/
theorem stdin_distributes (n : ℕ) (arguments : Bool) (a b : ℤ) (limit : ℕ) (ha : int.InRange a)
    (hb : int.InRange b) (hw : int.InRange ((n + 1 : ℕ) : ℤ)) (hle : a ≤ b)
    (hrange : b - a ≤ int.max) : ∃ start stop : ℕ → ℤ, Balanced a b (n + 1) start stop ∧
      (∀ s, ((main n arguments a b).system limit).Reachable s → (s.output.map Prod.fst).Nodup ∧
        ∀ x ∈ s.output, x.2 = (start x.1, stop x.1, stop x.1 - start x.1)) ∧
      (∀ s, ((main n arguments a b).system limit).Reachable s →
        ((main n arguments a b).system limit).Stuck s → s.output.Perm
          ((List.finRange (n + 1)).map fun i => (i, start i, stop i, stop i - start i))) ∧
      ∀ l s, ((main n arguments a b).system limit).run l = some s → l.length ≤ 3 * n + 1 := by
  have hreport := isReport_iff (n := n) ha hb hw hle hrange
  refine ⟨bound a b (n + 1), fun r => bound a b (n + 1) (r + 1),
    balanced_bound hle (Nat.succ_pos n), fun s h => ?_, fun s h hs => ?_, fun l s => length_le⟩
  · have hreported := reachable_reported h
    exact ⟨hreported.nodup, fun x hx => (hreport x).mp (hreported.right x hx)⟩
  · have hreported := reachable_reported h
    have hdefined : ∀ i : Fin (n + 1), (processRange i (n + 1) a b).isSome := by
      intro i
      have hi := (hreport (i, bound a b (n + 1) i, bound a b (n + 1) (i + 1),
        bound a b (n + 1) (i + 1) - bound a b (n + 1) i)).mpr rfl
      rw [IsReport] at hi
      rw [hi]
      rfl
    have hall := reported_of_stuck hdefined h hs
    have hinj : Function.Injective fun i : Fin (n + 1) =>
        (i, bound a b (n + 1) i, bound a b (n + 1) (i + 1),
          bound a b (n + 1) (i + 1) - bound a b (n + 1) i) := fun i j h => congrArg Prod.fst h
    apply (List.perm_ext_iff_of_nodup hreported.nodup.of_map
      ((List.nodup_finRange _).map hinj)).mpr
    intro x
    constructor
    · intro hx
      exact List.mem_map.mpr ⟨x.1, List.mem_finRange _,
        Prod.ext rfl ((hreport x).mp (hreported.right x hx)).symm⟩
    · intro hx
      obtain ⟨i, -, rfl⟩ := List.mem_map.mp hx
      obtain ⟨y, hy, rfl⟩ := List.mem_map.mp ((hreported.mem i).mpr (hall i))
      rw [← (hreport y).mp (hreported.right y hy)]
      exact hy

theorem stdin_distributes_pair : ∃ start stop : ℕ → ℤ, Balanced 0 3 2 start stop ∧
    ∀ s, ((main 1 false 0 3).system 0).Reachable s → (s.output.map Prod.fst).Nodup ∧
      ∀ x ∈ s.output, x.2 = (start x.1, stop x.1, stop x.1 - start x.1) := by
  obtain ⟨start, stop, hbalanced, hreports, -⟩ := stdin_distributes 1 false 0 3 0
    (by norm_num [int_inRange_iff]) (by norm_num [int_inRange_iff])
    (by norm_num [int_inRange_iff]) (by norm_num) (by norm_num [IntType.max, int])
  exact ⟨start, stop, hbalanced, hreports⟩

end Concurrente.HybridDistr.Stdin
