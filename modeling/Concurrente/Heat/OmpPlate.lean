import Concurrente.Heat.PlateMatrix
import Concurrente.Transition

/-!
# `equilibrate_plate` of omp_mpi

The parallel region as a transition system.  One thread executes the `single`
block, the rows of the work-shared loop go to any threads in any order, each
thread has its own copy of the flag for the reduction, and the barriers separate
these phases.
-/

namespace Concurrente.Heat.Omp

open Flat

/-- The team and what the region shares; `multConstant` comes from
`calculateMultConstant`. -/
structure Region (α : Type*) where
  threads : ℕ
  multConstant : α
  epsilon : α

/-- In `work`, the rows that have not been executed and the copies of the flag. -/
inductive Phase
  | single
  | work (remaining : List ℕ) (copies : ℕ → Bool)
  | test
  | left

structure State (α : Type*) where
  plateMatrix : PlateMatrix α
  kStates : ℕ
  equilibratedPlate : Bool
  phase : Phase

inductive Action
  | advance
  | row (thread row : ℕ)

variable {α : Type*} [Temperature α]

def equilibratePlate (R : Region α) (s : State α) : Action → Option (State α)
  | .advance =>
    match s.phase with
    | .single =>
      some { s with
        kStates := u64 (s.kStates + 1)
        plateMatrix := setAuxiliary s.plateMatrix
        equilibratedPlate := true
        phase := .work (loop 1 (sub64 s.plateMatrix.rows 1)) (fun _ => true) }
    -- the copies of `equilibrated_plate` are reduced with `&&` when all rows are done
    | .work [] copies =>
      some { s with
        equilibratedPlate :=
          (List.range R.threads).foldl (fun flag t => flag && copies t) s.equilibratedPlate
        phase := .test }
    | .work (_ :: _) _ => none
    | .test => some { s with phase := if s.equilibratedPlate then .left else .single }
    | .left => none
  | .row thread row =>
    match s.phase with
    | .work remaining copies =>
      -- any thread takes any row that is left: the schedule is not fixed
      if thread < R.threads ∧ row ∈ remaining then
        let x := equilibrateRow R.multConstant R.epsilon (s.plateMatrix, copies thread) row
        some { s with
          plateMatrix := x.1
          phase := .work (remaining.erase row) (Function.update copies thread x.2) }
      else none
    | _ => none

def system (R : Region α) (p : PlateMatrix α) : System (State α) Action where
  start := ⟨p, 0, true, .single⟩
  step := equilibratePlate R

section Invariant

variable {rows cols : ℕ} {R : Region α} {s t : State α} {T : Cell → α} {j : ℕ}

abbrev scheme (rows cols : ℕ) (R : Region α) : Scheme Cell α :=
  (stencil R.multConstant R.epsilon).scheme rows cols

theorem scheme_eq (R : Region ℚ) :
    scheme rows cols R = heat rows cols R.multConstant R.epsilon := by
  rw [scheme, stencil_eq]

theorem rule_eq (R : Region ℚ) (T : Cell → ℚ) (r k : ℕ) : (scheme rows cols R).rule T (r, k) =
    T (r, k) + R.multConstant *
      (T (r - 1, k) + T (r, k + 1) + T (r + 1, k) + T (r, k - 1) - 4 * T (r, k)) := by
  rw [scheme_eq, heat_rule]

theorem close_iff (R : Region ℚ) {old new : ℚ} :
    (scheme rows cols R).close old new ↔ |new - old| ≤ R.epsilon := by
  rw [scheme_eq, heat_close]

def doneRows (remaining : List ℕ) : Set Cell := {i | i.1 ∉ remaining}

/-- What the phases say about the buffers, when `j` states are complete. -/
def PhaseInv (rows cols : ℕ) (R : Region α) (hs : rows * cols < 2 ^ 61) (T : Cell → α) (j : ℕ)
    (s : State α) : Prop :=
  match s.phase with
  | .single => (flat rows cols R.multConstant R.epsilon hs).Sweeping T j ∅
      (setAuxiliary s.plateMatrix) ∧ s.kStates = u64 j ∧
      ∀ i < j, ¬ (scheme rows cols R).Settled T i
  | .work remaining copies =>
      (flat rows cols R.multConstant R.epsilon hs).Sweeping T j (doneRows remaining)
        s.plateMatrix ∧ s.kStates = u64 (j + 1) ∧
      (∀ i < j, ¬ (scheme rows cols R).Settled T i) ∧ s.equilibratedPlate = true ∧
      remaining.Nodup ∧ (∀ r ∈ remaining, 1 ≤ r ∧ r + 1 < rows) ∧
      ((∀ t < R.threads, copies t = true) ↔
        ∀ r, r ∉ remaining → RowSettled (scheme rows cols R) T j r)
  | .test => (flat rows cols R.multConstant R.epsilon hs).Sweeping T j Set.univ
      s.plateMatrix ∧ s.kStates = u64 (j + 1) ∧
      (∀ i < j, ¬ (scheme rows cols R).Settled T i) ∧
      (s.equilibratedPlate = true ↔ (scheme rows cols R).Settled T j)
  | .left => (flat rows cols R.multConstant R.epsilon hs).Sweeping T j Set.univ
      s.plateMatrix ∧ s.kStates = u64 (j + 1) ∧
      (∀ i < j, ¬ (scheme rows cols R).Settled T i) ∧ (scheme rows cols R).Settled T j

theorem foldl_and (n : ℕ) (copies : ℕ → Bool) (b : Bool) :
    (List.range n).foldl (fun flag t => flag && copies t) b = true ↔
      b = true ∧ ∀ t < n, copies t = true := by
  induction n with
  | zero => simp
  | succ n ih =>
    rw [List.range_succ, List.foldl_append, List.foldl_cons, List.foldl_nil, Bool.and_eq_true, ih,
      and_assoc]
    refine and_congr_right fun _ => ⟨fun h t ht => ?_, fun h => ⟨fun t ht => h t (by omega), ?_⟩⟩
    · obtain hlt | rfl := Nat.lt_succ_iff_lt_or_eq.mp ht
      · exact h.1 t hlt
      · exact h.2
    · exact h n (by omega)

variable (hs : rows * cols < 2 ^ 61)

theorem PhaseInv.single (hr : 1 ≤ rows) (hc : 1 ≤ cols) (hp : s.phase = .single)
    (h : PhaseInv rows cols R hs T j s) :
    PhaseInv rows cols R hs T j { s with
      kStates := u64 (s.kStates + 1)
      plateMatrix := setAuxiliary s.plateMatrix
      equilibratedPlate := true
      phase := .work (loop 1 (sub64 s.plateMatrix.rows 1)) (fun _ => true) } := by
  simp only [PhaseInv, hp] at h
  obtain ⟨hsw, hk, hn⟩ := h
  have hrows : s.plateMatrix.rows = rows := hsw.1.1
  have hrl := rows_lt hs hc
  have hmem : ∀ r, r ∈ loop 1 (sub64 s.plateMatrix.rows 1) ↔ 1 ≤ r ∧ r + 1 < rows := by
    intro r
    rw [mem_loop, hrows, sub64_of_le hr (by omega)]
    omega
  simp only [PhaseInv]
  refine ⟨⟨hsw.1, hsw.2.back_eq, hsw.2.border, ?_⟩, ?_, hn, trivial, loop_nodup _ _,
    fun r hr => (hmem r).mp hr, ?_⟩
  · rintro ⟨r, k⟩ ⟨hin, hd⟩
    obtain ⟨h1, h2, -, -⟩ := mem_inner.mp hin
    exact absurd ((hmem r).mpr ⟨h1, h2⟩) hd
  · rw [hk, u64_succ]
  · refine iff_of_true (fun _ _ => trivial) fun r hr => rowSettled_outside fun hin => ?_
    exact hr ((hmem r).mpr hin)

theorem PhaseInv.row (hc : 1 ≤ cols) {remaining : List ℕ} {copies : ℕ → Bool} {thread row : ℕ}
    {x : PlateMatrix α × Bool} (hp : s.phase = .work remaining copies) (ht : thread < R.threads)
    (hrow : row ∈ remaining)
    (hx : equilibrateRow R.multConstant R.epsilon (s.plateMatrix, copies thread) row = x)
    (h : PhaseInv rows cols R hs T j s) :
    PhaseInv rows cols R hs T j { s with
      plateMatrix := x.1
      phase := .work (remaining.erase row) (Function.update copies thread x.2) } := by
  simp only [PhaseInv, hp] at h
  obtain ⟨hsw, hk, hn, he, hnd, hin, hf⟩ := h
  obtain ⟨h1, h2⟩ := hin row hrow
  obtain ⟨hsw', hflag⟩ := equilibrateRow_spec hsw h1 h2 hc (copies thread)
  rw [hx] at hsw' hflag
  have herase : ∀ r, r ∉ remaining.erase row ↔ r ∉ remaining ∨ r = row := by
    intro r
    rw [hnd.mem_erase_iff, not_and_or, not_not, or_comm]
  simp only [PhaseInv]
  refine ⟨⟨hsw'.1, hsw'.2.mono ?_⟩, hk, hn, he, hnd.erase row,
    fun r hr => hin r (List.mem_of_mem_erase hr), ?_⟩
  · intro i hi
    exact (herase i.1).mp hi
  · have hrest : (∀ r, r ∉ remaining.erase row → RowSettled (scheme rows cols R) T j r) ↔
        (∀ r, r ∉ remaining → RowSettled (scheme rows cols R) T j r) ∧
          RowSettled (scheme rows cols R) T j row := by
      simp only [herase, or_imp, forall_and, forall_eq]
    rw [hrest, ← hf]
    constructor
    · intro hall
      have hself := hall thread ht
      rw [Function.update_self, hflag] at hself
      refine ⟨fun t htt => ?_, hself.2⟩
      by_cases hte : t = thread
      · rw [hte]
        exact hself.1
      · simpa [hte] using hall t htt
    · rintro ⟨hall, hrs⟩ t htt
      by_cases hte : t = thread
      · rw [hte, Function.update_self, hflag]
        exact ⟨hall thread ht, hrs⟩
      · simpa [hte] using hall t htt

theorem PhaseInv.reduce {copies : ℕ → Bool} (hp : s.phase = .work [] copies)
    (h : PhaseInv rows cols R hs T j s) :
    PhaseInv rows cols R hs T j { s with
      equilibratedPlate :=
        (List.range R.threads).foldl (fun flag t => flag && copies t) s.equilibratedPlate
      phase := .test } := by
  simp only [PhaseInv, hp] at h
  obtain ⟨hsw, hk, hn, he, -, -, hf⟩ := h
  refine ⟨⟨hsw.1, hsw.2.mono fun i _ => List.not_mem_nil⟩, hk, hn, ?_⟩
  simp only [foldl_and, he, true_and, hf, settled_iff_rows, List.not_mem_nil, not_false_eq_true,
    true_imp_iff]

theorem PhaseInv.leave (hp : s.phase = .test) (he : s.equilibratedPlate = true)
    (h : PhaseInv rows cols R hs T j s) :
    PhaseInv rows cols R hs T j { s with phase := .left } := by
  simp only [PhaseInv, hp] at h
  obtain ⟨hsw, hk, hn, hf⟩ := h
  exact ⟨hsw, hk, hn, hf.mp he⟩

theorem PhaseInv.again (hp : s.phase = .test) (he : ¬ s.equilibratedPlate = true)
    (h : PhaseInv rows cols R hs T j s) :
    PhaseInv rows cols R hs T (j + 1) { s with phase := .single } := by
  simp only [PhaseInv, hp] at h
  obtain ⟨hsw, hk, hn, hf⟩ := h
  refine ⟨⟨hsw.1, hsw.2.swap (Set.subset_univ _)⟩, hk, fun i hi => ?_⟩
  obtain hlt | rfl := Nat.lt_succ_iff_lt_or_eq.mp hi
  · exact hn i hlt
  · exact fun h => he (hf.mpr h)

def Phase.begun : Phase → ℕ
  | .single => 0
  | _ => 1

/-- A bound on the steps up to the next `single` block or the exit. -/
def Phase.rest (rows : ℕ) : Phase → ℕ
  | .single => rows + 3
  | .work remaining _ => remaining.length + 2
  | .test => 1
  | .left => 0

/-- The step that increments `k_states`. -/
def countsState (s : State α) (a : Action) : Bool :=
  match s.phase, a with
  | .single, .advance => true
  | _, _ => false

/-- From `j` complete states in `s` to `j'` in `t`: the states begun are counted, and a step
that does not complete a state comes closer to the next one. -/
def Progress (rows j j' : ℕ) (s : State α) (a : Action) (t : State α) : Prop :=
  j' + t.phase.begun = j + s.phase.begun + (if countsState s a then 1 else 0) ∧
    (j' = j ∧ t.phase.rest rows < s.phase.rest rows ∨ j' = j + 1 ∧ t.phase = .single)

theorem PhaseInv.step (hr : 1 ≤ rows) (hc : 1 ≤ cols) {a : Action}
    (h : PhaseInv rows cols R hs T j s) (ha : equilibratePlate R s a = some t) :
    ∃ j', PhaseInv rows cols R hs T j' t ∧ Progress rows j j' s a t := by
  unfold equilibratePlate at ha
  split at ha
  -- the steps of one thread, in the order of the source
  · split at ha
    next hp =>
      cases ha
      refine ⟨j, h.single hs hr hc hp, by simp [Phase.begun, countsState, hp], Or.inl ⟨rfl, ?_⟩⟩
      have hrows : s.plateMatrix.rows = rows := by
        simp only [PhaseInv, hp] at h
        exact h.1.1.1
      have hlt := rows_lt hs hc
      simp only [hp, Phase.rest, hrows, loop_length, sub64_of_le hr (by omega : rows < 2 ^ 64)]
      omega
    next hp =>
      cases ha
      refine ⟨j, h.reduce hs hp, ?_⟩
      simp [Progress, Phase.begun, Phase.rest, countsState, hp]
    next => cases ha
    next hp =>
      cases ha
      by_cases he : s.equilibratedPlate = true
      · rw [if_pos he]
        refine ⟨j, h.leave hs hp he, ?_⟩
        simp [Progress, Phase.begun, Phase.rest, countsState, hp]
      · rw [if_neg he]
        refine ⟨j + 1, h.again hs hp he, ?_⟩
        simp [Progress, Phase.begun, countsState, hp]
    next => cases ha
  · split at ha
    next hp =>
      split at ha
      next hrow =>
        cases ha
        refine ⟨j, h.row hs hc hp hrow.1 hrow.2 rfl, ?_⟩
        have hlen := List.length_pos_of_mem hrow.2
        simp only [Progress, Phase.begun, Phase.rest, countsState, hp,
          List.length_erase_of_mem hrow.2]
        simp
        omega
      next => cases ha
    next => cases ha

theorem phaseInv_start {p : PlateMatrix α}
    (hok : (flat rows cols R.multConstant R.epsilon hs).ok p)
    (hb : Set.EqOn p.auxiliaryGrid p.grid ((scheme rows cols R).dom \ (scheme rows cols R).inner)) :
    PhaseInv rows cols R hs p.grid 0 ⟨p, 0, true, .single⟩ :=
  ⟨⟨hok, .begin (fun _ _ => rfl) hb⟩, by simp [u64], by omega⟩

theorem reachable_phaseInv (hr : 1 ≤ rows) (hc : 1 ≤ cols) {file : List α}
    (h : (system R (setPlateMatrix rows cols file)).Reachable s) :
    ∃ j, PhaseInv rows cols R hs (setPlateMatrix rows cols file).grid j s := by
  apply h.invariant
  · exact ⟨0, phaseInv_start hs (setPlateMatrix_ok hs file) (setPlateMatrix_border_eqOn hs file)⟩
  · rintro s a t ⟨j, hj⟩ ha
    obtain ⟨j', hj', -⟩ := hj.step hs hr hc ha
    exact ⟨j', hj'⟩

theorem PhaseInv.reaches_test (hc : 1 ≤ cols) (ht : 0 < R.threads) {p : PlateMatrix α}
    {remaining : List ℕ} {copies : ℕ → Bool} (hp : s.phase = .work remaining copies)
    (h : PhaseInv rows cols R hs T j s) :
    ∃ t, (system R p).Path s t ∧ t.phase = .test ∧ PhaseInv rows cols R hs T j t := by
  induction remaining generalizing s copies with
  | nil =>
    refine ⟨_, System.Path.step (a := .advance) ?_, rfl, h.reduce hs hp⟩
    simp only [system, equilibratePlate, hp]
  | cons row remaining ih =>
    have hr := h.row hs hc hp ht List.mem_cons_self rfl
    obtain ⟨t, hpath, htest, ht'⟩ := ih (by simp only [List.erase_cons_head]; rfl) hr
    refine ⟨t, System.Path.head (a := .row 0 row) ?_ hpath, htest, ht'⟩
    simp only [system, equilibratePlate, hp, List.mem_cons_self, ht, and_self, if_true]

theorem PhaseInv.reaches_left (hr : 1 ≤ rows) (hc : 1 ≤ cols) (ht : 0 < R.threads)
    {p : PlateMatrix α} (n : ℕ) (hp : s.phase = .single) (h : PhaseInv rows cols R hs T j s)
    (hset : (scheme rows cols R).Settled T (j + n)) :
    ∃ t, (system R p).Path s t ∧ t.phase = .left := by
  -- induction on the states until the equilibrium
  induction n generalizing s j with
  | zero =>
    obtain ⟨t, hpath, htest, hinv⟩ := (h.single hs hr hc hp).reaches_test hs hc ht (p := p) rfl
    have he : t.equilibratedPlate = true := by
      simp only [PhaseInv, htest] at hinv
      exact hinv.2.2.2.mpr hset
    refine ⟨{ t with phase := .left }, (System.Path.head (a := .advance) ?_ hpath).tail
      (a := .advance) ?_, rfl⟩
    · simp only [system, equilibratePlate, hp]
    · simp only [system, equilibratePlate, htest, he, if_true]
  | succ n ih =>
    obtain ⟨t, hpath, htest, hinv⟩ := (h.single hs hr hc hp).reaches_test hs hc ht (p := p) rfl
    have hpath' : (system R p).Path s t := by
      refine System.Path.head (a := .advance) ?_ hpath
      simp only [system, equilibratePlate, hp]
    by_cases he : t.equilibratedPlate = true
    · refine ⟨{ t with phase := .left }, hpath'.tail (a := .advance) ?_, rfl⟩
      simp only [system, equilibratePlate, htest, he, if_true]
    · obtain ⟨r, hr', hleft⟩ := ih rfl (hinv.again hs htest he)
        (by rwa [Nat.add_right_comm, Nat.add_assoc])
      refine ⟨r, (hpath'.tail (a := .advance) ?_).trans hr', hleft⟩
      simp only [system, equilibratePlate, htest, he, if_false, Bool.false_eq_true]

theorem PhaseInv.border (h : PhaseInv rows cols R hs T j s) :
    Set.EqOn s.plateMatrix.grid T ((scheme rows cols R).dom \ (scheme rows cols R).inner) ∧
      Set.EqOn s.plateMatrix.auxiliaryGrid T
        ((scheme rows cols R).dom \ (scheme rows cols R).inner) := by
  unfold PhaseInv at h
  split at h
  · exact ⟨h.1.2.back_border, h.1.2.border⟩
  · exact ⟨h.1.2.border, h.1.2.back_border⟩
  · exact ⟨h.1.2.border, h.1.2.back_border⟩
  · exact ⟨h.1.2.border, h.1.2.back_border⟩

theorem PhaseInv.left_spec (h : PhaseInv rows cols R hs T j s) (hp : s.phase = .left) :
    s.plateMatrix.rows = rows ∧ s.plateMatrix.cols = cols ∧
      (scheme rows cols R).Equilibrium T (j + 1) ∧ s.kStates = (j + 1) % 2 ^ 64 ∧
      ∀ row col, row < rows → col < cols →
        s.plateMatrix.grid (row, col) = (scheme rows cols R).state T (j + 1) (row, col) := by
  simp only [PhaseInv, hp] at h
  obtain ⟨hsw, hk, hn, hset⟩ := h
  exact ⟨hsw.1.1, hsw.1.2, Scheme.equilibrium_succ hset hn, hk.trans (u64_eq _),
    fun row col hrow hcol => hsw.2.front_eq (Set.subset_univ _) ⟨hrow, hcol⟩⟩

end Invariant

/-- A plate with one interior cell, of temperature 1, and a border at 0. -/
def hotCell : List ℚ := [0, 0, 0, 0, 1, 0, 0, 0, 0]

/-- A multiplication constant so small that the cell loses half its heat only after
more than `2 ^ 66` states. -/
def slow : Region ℚ := ⟨1, 1 / 2 ^ 70, 1 / 2 ^ 69⟩

section Slow

theorem hotCell_grid {row col : ℕ} (hr : row < 3) (hc : col < 3) :
    (setPlateMatrix 3 3 hotCell).grid (row, col) = hotCell.getD (row * 3 + col) 0 :=
  setPlateMatrix_grid (by norm_num) hr hc hotCell

theorem mem_inner_three {R : Region ℚ} {i : Cell} (h : i ∈ (scheme 3 3 R).inner) :
    i = (1, 1) := by
  obtain ⟨row, col⟩ := i
  obtain ⟨h1, h2, h3, h4⟩ := mem_inner.mp h
  exact Prod.ext (by simp only; omega) (by simp only; omega)

theorem hotCell_border {i : Cell} (hi : i ∈ (scheme 3 3 slow).dom \ (scheme 3 3 slow).inner)
    (j : ℕ) : (scheme 3 3 slow).state (setPlateMatrix 3 3 hotCell).grid j i = 0 := by
  rw [Scheme.state_border _ j hi]
  obtain ⟨row, col⟩ := i
  obtain ⟨⟨hr, hc⟩, hn⟩ := hi
  simp only at hr hc
  rw [hotCell_grid hr hc]
  have hne : row ≠ 1 ∨ col ≠ 1 := by
    by_contra h
    push Not at h
    exact hn (mem_inner.mpr ⟨by omega, by omega, by omega, by omega⟩)
  interval_cases row <;> interval_cases col <;> first | rfl | omega

theorem hotCell_center (j : ℕ) :
    (scheme 3 3 slow).state (setPlateMatrix 3 3 hotCell).grid j (1, 1) = (1 - 1 / 2 ^ 68) ^ j := by
  induction j with
  | zero =>
    rw [Scheme.state_zero, hotCell_grid (by norm_num) (by norm_num), pow_zero]
    rfl
  | succ j ih =>
    have hin : ((1, 1) : Cell) ∈ (scheme 3 3 slow).inner := mem_inner.mpr (by norm_num)
    have hb : ∀ row col, (row, col) ∈ (scheme 3 3 slow).dom \ (scheme 3 3 slow).inner →
        (scheme 3 3 slow).state (setPlateMatrix 3 3 hotCell).grid j (row, col) = 0 :=
      fun row col h => hotCell_border h j
    rw [Scheme.state_succ, Scheme.next_of_mem hin, rule_eq, ih,
      hb (1 - 1) 1 ⟨by norm_num, fun h => by simp [mem_inner] at h⟩,
      hb 1 (1 + 1) ⟨by norm_num, fun h => by simp [mem_inner] at h⟩,
      hb (1 + 1) 1 ⟨by norm_num, fun h => by simp [mem_inner] at h⟩,
      hb 1 (1 - 1) ⟨by norm_num, fun h => by simp [mem_inner] at h⟩, pow_succ]
    simp only [slow]
    ring

theorem hotCell_settled {j : ℕ} :
    (scheme 3 3 slow).Settled (setPlateMatrix 3 3 hotCell).grid j ↔
      (1 - 1 / 2 ^ 68 : ℚ) ^ j ≤ 1 / 2 := by
  have hin : ((1, 1) : Cell) ∈ (scheme 3 3 slow).inner := mem_inner.mpr (by norm_num)
  have hpos : (0 : ℚ) ≤ (1 - 1 / 2 ^ 68) ^ j := pow_nonneg (by norm_num) j
  have habs : |(1 - 1 / 2 ^ 68 : ℚ) ^ (j + 1) - (1 - 1 / 2 ^ 68) ^ j| =
      (1 - 1 / 2 ^ 68) ^ j * (1 / 2 ^ 68) := by
    rw [show (1 - 1 / 2 ^ 68 : ℚ) ^ (j + 1) - (1 - 1 / 2 ^ 68) ^ j =
      -((1 - 1 / 2 ^ 68) ^ j * (1 / 2 ^ 68)) by ring, abs_neg]
    exact abs_of_nonneg (mul_nonneg hpos (by norm_num))
  have hiff : (scheme 3 3 slow).Settled (setPlateMatrix 3 3 hotCell).grid j ↔
      (1 - 1 / 2 ^ 68 : ℚ) ^ j * (1 / 2 ^ 68) ≤ 1 / 2 ^ 69 := by
    rw [← habs, ← hotCell_center, ← hotCell_center]
    constructor
    · exact fun h => (close_iff slow).mp (h _ hin)
    · intro h i hi
      rw [mem_inner_three hi]
      exact (close_iff slow).mpr h
  rw [hiff]
  constructor <;> intro h <;> linarith

theorem hotCell_not_settled {j : ℕ} (hj : j ≤ 2 ^ 64) :
    ¬ (scheme 3 3 slow).Settled (setPlateMatrix 3 3 hotCell).grid j := by
  rw [hotCell_settled, not_le]
  have hb := one_add_mul_le_pow (show (-2 : ℚ) ≤ -(1 / 2 ^ 68) by norm_num) j
  have hj' : (j : ℚ) ≤ 2 ^ 64 := by exact_mod_cast hj
  calc (1 / 2 : ℚ) < 1 + 2 ^ 64 * -(1 / 2 ^ 68) := by norm_num
    _ ≤ 1 + j * -(1 / 2 ^ 68) := by linarith
    _ ≤ (1 + -(1 / 2 ^ 68)) ^ j := hb
    _ = (1 - 1 / 2 ^ 68) ^ j := by rw [← sub_eq_add_neg]

theorem nine_lt : 3 * 3 < 2 ^ 61 := by norm_num

theorem hotCell_start : PhaseInv 3 3 slow nine_lt (setPlateMatrix 3 3 hotCell).grid 0
    ⟨setPlateMatrix 3 3 hotCell, 0, true, .single⟩ :=
  phaseInv_start nine_lt (setPlateMatrix_ok _ hotCell) (setPlateMatrix_border_eqOn nine_lt hotCell)

theorem hotCell_leaves : ∃ s, (system slow (setPlateMatrix 3 3 hotCell)).Reachable s ∧
    s.phase = .left := by
  obtain ⟨n, hn⟩ := exists_pow_lt_of_lt_one (show (0 : ℚ) < 1 / 2 by norm_num)
    (show (1 - 1 / 2 ^ 68 : ℚ) < 1 by norm_num)
  refine hotCell_start.reaches_left _ (by norm_num) (by norm_num) (by norm_num [slow]) n rfl ?_
  rw [hotCell_settled, Nat.zero_add]
  exact hn.le

end Slow

theorem region_spec {rows cols : ℕ} (hr : 1 ≤ rows) (hc : 1 ≤ cols)
    (hs : rows * cols < 2 ^ 61) (file : List α) (R : Region α) {s : State α}
    (h : (system R (setPlateMatrix rows cols file)).Reachable s) :
    (∀ row col, row < rows → col < cols →
      ¬ (1 ≤ row ∧ row + 1 < rows ∧ 1 ≤ col ∧ col + 1 < cols) →
      s.plateMatrix.grid (row, col) = (setPlateMatrix rows cols file).grid (row, col) ∧
      s.plateMatrix.auxiliaryGrid (row, col) =
        (setPlateMatrix rows cols file).grid (row, col)) ∧
    (s.phase = .left → ∃ k,
      (scheme rows cols R).Equilibrium (setPlateMatrix rows cols file).grid k ∧
      s.kStates = k % 2 ^ 64 ∧
      ∀ row col, row < rows → col < cols → s.plateMatrix.grid (row, col) =
        (scheme rows cols R).state (setPlateMatrix rows cols file).grid k (row, col)) := by
  obtain ⟨j, hj⟩ := reachable_phaseInv hs hr hc h
  refine ⟨fun row col hrow hcol hb => ?_, fun hp => ?_⟩
  · have hin : (row, col) ∈ (scheme rows cols R).dom \ (scheme rows cols R).inner :=
      ⟨⟨hrow, hcol⟩, fun h => hb (mem_inner.mp h)⟩
    exact ⟨(hj.border hs).1 hin, (hj.border hs).2 hin⟩
  · exact ⟨j + 1, (hj.left_spec hs hp).2.2⟩

/-- Over the rationals the states are those of the documented recurrence. -/
theorem omp_region_spec (rows cols : ℕ) (hr : 1 ≤ rows) (hc : 1 ≤ cols)
    (hs : rows * cols < 2 ^ 61) (file : List ℚ) (R : Region ℚ) {s : State ℚ}
    (h : (system R (setPlateMatrix rows cols file)).Reachable s) :
    (∀ row col, row < rows → col < cols →
      ¬ (1 ≤ row ∧ row + 1 < rows ∧ 1 ≤ col ∧ col + 1 < cols) →
      s.plateMatrix.grid (row, col) = (setPlateMatrix rows cols file).grid (row, col) ∧
      s.plateMatrix.auxiliaryGrid (row, col) =
        (setPlateMatrix rows cols file).grid (row, col)) ∧
    (s.phase = .left → ∃ k,
      (heat rows cols R.multConstant R.epsilon).Equilibrium (setPlateMatrix rows cols file).grid k ∧
      s.kStates = k % 2 ^ 64 ∧
      ∀ row col, row < rows → col < cols → s.plateMatrix.grid (row, col) =
        (heat rows cols R.multConstant R.epsilon).state (setPlateMatrix rows cols file).grid k
          (row, col)) := by
  rw [← scheme_eq]
  exact region_spec hr hc hs file R h

theorem omp_region_spec_hotCell : ∃ s,
    (system slow (setPlateMatrix 3 3 hotCell)).Reachable s ∧ ∃ k,
      (heat 3 3 slow.multConstant slow.epsilon).Equilibrium (setPlateMatrix 3 3 hotCell).grid k ∧
      s.kStates = k % 2 ^ 64 ∧
      ∀ row col, row < 3 → col < 3 → s.plateMatrix.grid (row, col) =
        (heat 3 3 slow.multConstant slow.epsilon).state (setPlateMatrix 3 3 hotCell).grid k
          (row, col) := by
  obtain ⟨s, hs, hleft⟩ := hotCell_leaves
  exact ⟨s, hs, (omp_region_spec 3 3 (by norm_num) (by norm_num) (by norm_num) hotCell slow
    hs).2 hleft⟩

/-- The counter of states wraps around: on this plate it is not the number of states. -/
theorem states_wrap : ∃ s k,
    (system slow (setPlateMatrix 3 3 hotCell)).Reachable s ∧ s.phase = .left ∧
    (heat 3 3 slow.multConstant slow.epsilon).Equilibrium (setPlateMatrix 3 3 hotCell).grid k ∧
    s.kStates ≠ k := by
  obtain ⟨s, hr, hleft⟩ := hotCell_leaves
  obtain ⟨j, hj⟩ := reachable_phaseInv (by norm_num) (by norm_num) (by norm_num) hr
  simp only [PhaseInv, hleft] at hj
  obtain ⟨-, hk, hnot, hset⟩ := hj
  rw [← scheme_eq]
  refine ⟨s, j + 1, hr, hleft, Scheme.equilibrium_succ hset hnot, ?_⟩
  have hlarge : 2 ^ 64 < j := by
    by_contra hle
    exact hotCell_not_settled (by omega) hset
  rw [hk, u64_eq]
  omega

end Concurrente.Heat.Omp
