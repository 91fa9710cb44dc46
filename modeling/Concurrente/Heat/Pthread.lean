import Concurrente.Heat.RowMatrix
import Concurrente.Iteration
import Concurrente.Team

/-!
# The simulation of pthread

`equilibrate_plate` of pthread: for every state the main thread swaps the matrices,
creates a team of threads and joins them in order, while they update their rows.
-/

namespace Concurrente.Heat.Pthread

open ByRows

/-- `shared_data_t` and the blocks of `private_data_t`. -/
structure Team where
  threadCount : ℕ
  multConstant : ℚ
  epsilon : ℚ
  startingRow : ℕ → ℕ
  endingRow : ℕ → ℕ

def getIntervals (evaluatingRows threadCount : ℕ) : ℕ :=
  if threadCount < evaluatingRows then evaluatingRows / threadCount else 1

/-- The blocks of rows; the fold carries `row_pointer`. -/
def initPrivateData (lastEvalRow threadCount : ℕ) : List (ℕ × ℕ) :=
  let intervalToEnd := getIntervals lastEvalRow threadCount - 1
  ((List.range threadCount).foldl (fun x index =>
    let startingRow := x.2 + 1
    let rowPointer := startingRow + intervalToEnd
    (x.1 ++ [(startingRow, if index = threadCount - 1 then lastEvalRow else rowPointer)],
      rowPointer)) ([], 0)).1

/-- The team for a number of requested threads. -/
def team (plate : Plate) (epsilon : ℚ) (count : ℕ) : Team :=
  let lastEvalRow := sub64 plate.rows 2
  let threadCount := if lastEvalRow > count then count else lastEvalRow
  let privateData := initPrivateData lastEvalRow threadCount
  { threadCount
    multConstant := calculateMultConstant plate.thermalDiffusivity plate.intervalDuration
      plate.cellsDimension
    epsilon
    startingRow := fun i => (privateData.getD i (0, 0)).1
    endingRow := fun i => (privateData.getD i (0, 0)).2 }

def equilibrateCell (multConstant epsilon : ℚ) (row : ℕ) (x : PlateMatrix × Bool) (col : ℕ) :
    PlateMatrix × Bool :=
  let p := updateCell x.1 row col multConstant
  let newTemperature := p.matrix (row, col)
  let oldTemperature := p.auxiliaryMatrix (row, col)
  let difference := |newTemperature - oldTemperature|
  (p, if difference > epsilon then false else x.2)

/-- The column loop of `equilibrate_rows` over one row. -/
def equilibrateRow (multConstant epsilon : ℚ) (x : PlateMatrix × Bool) (row : ℕ) :
    PlateMatrix × Bool :=
  (loop 1 (sub64 x.1.cols 1)).foldl (equilibrateCell multConstant epsilon row) x

/-- The main thread creates the team, joins thread `index` next, or has left. -/
inductive Main
  | create
  | join (index : ℕ)
  | left
  deriving DecidableEq, Repr

/-- `row` is the loop variable of every thread, and `states` the number of states without
wrap-around. -/
structure State where
  plateMatrix : PlateMatrix
  kStates : ℕ
  reachedEquilibrium : Bool
  main : Main
  row : ℕ → ℕ
  equilibrated : ℕ → Bool
  states : ℕ

inductive Action
  | main
  | thread (index : ℕ)

def equilibratePlate (team : Team) (s : State) : Action → Option State
  | .main =>
    match s.main with
    | .create =>
      some { s with
        plateMatrix := setAuxiliary s.plateMatrix
        row := team.startingRow
        reachedEquilibrium := true
        main := .join 0 }
    | .join index =>
      if index < team.threadCount then
        if team.endingRow index < s.row index then
          some { s with
            -- the copy of the thread is merged when it is joined, and set for the next state
            reachedEquilibrium := s.reachedEquilibrium && s.equilibrated index
            equilibrated := Function.update s.equilibrated index true
            main := .join (index + 1) }
        -- `pthread_join` waits for the thread
        else none
      else
        some { s with
          kStates := u64 (s.kStates + 1)
          states := s.states + 1
          main := if s.reachedEquilibrium then .left else .create }
    | .left => none
  | .thread index =>
    match s.main with
    | .join _ =>
      if index < team.threadCount ∧ s.row index ≤ team.endingRow index then
        let x := equilibrateRow team.multConstant team.epsilon
          (s.plateMatrix, s.equilibrated index) (s.row index)
        some { s with
          plateMatrix := x.1
          equilibrated := Function.update s.equilibrated index x.2
          row := Function.update s.row index (s.row index + 1) }
      else none
    | _ => none

def program (plate : Plate) (epsilon : ℚ) (count : ℕ) (cells : Cell → ℚ) :
    Program Cell ℚ State Action where
  start := ⟨setPlateMatrix plate cells, 0, false, .create, fun _ => 0, fun _ => true, 0⟩
  step := equilibratePlate (team plate epsilon count)
  left s := s.main = .left
  outcome s := ⟨s.kStates, s.plateMatrix.matrix⟩

section Blocks

variable {e n : ℕ}

theorem initPrivateData_fold (q m : ℕ) (hq : 1 ≤ q) :
    (List.range m).foldl (fun x index =>
      let startingRow := x.2 + 1
      let rowPointer := startingRow + (q - 1)
      (x.1 ++ [(startingRow, if index = n - 1 then e else rowPointer)], rowPointer))
      (([], 0) : List (ℕ × ℕ) × ℕ) =
    ((List.range m).map fun i => (i * q + 1, if i = n - 1 then e else (i + 1) * q), m * q) := by
  induction m with
  | zero => simp
  | succ m ih =>
    have hm : m * q + 1 + (q - 1) = (m + 1) * q := by
      rw [Nat.succ_mul]
      omega
    rw [List.range_succ, List.foldl_append, ih, List.map_append]
    simp only [List.foldl_cons, List.foldl_nil, List.map_cons, List.map_nil, hm]

theorem getIntervals_pos (hn : 0 < n) : 1 ≤ getIntervals e n := by
  unfold getIntervals
  split_ifs with h
  · exact (Nat.one_le_div_iff hn).mpr h.le
  · exact le_rfl

theorem getIntervals_mul_le (hne : n ≤ e) : n * getIntervals e n ≤ e := by
  unfold getIntervals
  split_ifs with h
  · exact Nat.mul_div_le e n
  · omega

theorem initPrivateData_getD {i : ℕ} (hi : i < n) : (initPrivateData e n).getD i (0, 0) =
    (i * getIntervals e n + 1, if i = n - 1 then e else (i + 1) * getIntervals e n) := by
  rw [initPrivateData, initPrivateData_fold _ _ (getIntervals_pos (by omega))]
  simp [List.getD_eq_getElem?_getD, hi]

theorem blocks_cover {q : ℕ} (hn : 0 < n) (hqe : n * q ≤ e) {first last : ℕ → ℕ}
    (hf : ∀ i < n, first i = i * q + 1)
    (hl : ∀ i < n, last i = if i = n - 1 then e else (i + 1) * q) :
    Cover n first (fun i => last i + 1) (e + 2) where
  pos := hn
  le i hi := by
    have h1 : i * q ≤ n * q := Nat.mul_le_mul_right q hi.le
    have h2 : (i + 1) * q = i * q + q := Nat.succ_mul i q
    simp only [hf i hi, hl i hi]
    split_ifs <;> omega
  interior i hi row h1 h2 := by
    have h3 : (i + 1) * q ≤ n * q := Nat.mul_le_mul_right q hi
    simp only [hl i hi] at h2
    rw [hf i hi] at h1
    split_ifs at h2 <;> omega
  exists_block row h1 h2 := by
    -- the last block takes the rows that are left over
    obtain ⟨i, hi, h3, h4⟩ := exists_between (fun i => if i < n then i * q + 1 else e + 1)
      (n := n) (r := row) (by simp only [hn, if_true]; omega)
      (by simp only [lt_irrefl, if_false]; omega)
    refine ⟨i, hi, ?_, ?_⟩
    · simpa only [hf i hi, hi, if_true] using h3
    · simp only [hl i hi]
      by_cases hlast : i = n - 1
      · rw [if_pos hlast]
        rw [if_neg (by omega)] at h4
        exact h4
      · rw [if_neg hlast]
        rw [if_pos (by omega)] at h4
        exact h4

end Blocks

section Team

variable {plate : Plate} {epsilon : ℚ} {count i : ℕ}

theorem lastEvalRow_eq : sub64 plate.rows 2 = plate.rows - 2 := by
  have := plate.rows_lt
  have := plate.three_le_rows
  exact sub64_of_le (by omega) (by omega)

theorem threadCount_eq : (team plate epsilon count).threadCount = min count (plate.rows - 2) := by
  simp only [team, lastEvalRow_eq]
  split_ifs <;> omega

theorem startingRow_eq (hi : i < (team plate epsilon count).threadCount) :
    (team plate epsilon count).startingRow i =
      i * getIntervals (plate.rows - 2) (team plate epsilon count).threadCount + 1 := by
  simp only [team, lastEvalRow_eq] at hi ⊢
  rw [initPrivateData_getD hi]

theorem endingRow_eq (hi : i < (team plate epsilon count).threadCount) :
    (team plate epsilon count).endingRow i =
      if i = (team plate epsilon count).threadCount - 1 then plate.rows - 2
      else (i + 1) * getIntervals (plate.rows - 2) (team plate epsilon count).threadCount := by
  simp only [team, lastEvalRow_eq] at hi ⊢
  rw [initPrivateData_getD hi]

theorem multConstant_eq : (team plate epsilon count).multConstant =
    calculateMultConstant plate.thermalDiffusivity plate.intervalDuration plate.cellsDimension :=
  rfl

theorem epsilon_eq : (team plate epsilon count).epsilon = epsilon := rfl

-- From here on a team is known by its blocks and its constants.
attribute [irreducible] team

/-- The blocks of a team cover the interior rows. -/
abbrev TeamCover (team : Team) (rows : ℕ) : Prop :=
  Cover team.threadCount team.startingRow (fun i => team.endingRow i + 1) rows

theorem cover (hc : 1 ≤ count) : TeamCover (team plate epsilon count) plate.rows := by
  have hrows := plate.three_le_rows
  have hn : (team plate epsilon count).threadCount = min count (plate.rows - 2) := threadCount_eq
  have hpos : 0 < (team plate epsilon count).threadCount := by omega
  have hle : (team plate epsilon count).threadCount ≤ plate.rows - 2 := by omega
  have hmul := getIntervals_mul_le hle
  have hfirst : ∀ i < (team plate epsilon count).threadCount, _ := fun _ hi => startingRow_eq hi
  have hlast : ∀ i < (team plate epsilon count).threadCount, _ := fun _ hi => endingRow_eq hi
  have hrow : plate.rows - 2 + 2 = plate.rows := by omega
  exact hrow ▸ blocks_cover hpos hmul hfirst hlast

end Team

variable {plate : Plate} {c epsilon : ℚ} {T : Cell → ℚ} {j row : ℕ}

theorem equilibrateRow_eq {x : PlateMatrix × Bool} (hx : (arrays plate c epsilon).ok x.1)
    (row : ℕ) : equilibrateRow c epsilon x row =
      (rowCells plate.cols row).foldl
        ((arrays plate c epsilon).visit (clearFlag (exact c epsilon))) x := by
  rw [equilibrateRow, subCols _ hx, rowCells, List.foldl_map]
  rfl

section Invariant

variable (team : Team) (plate : Plate) (T : Cell → ℚ)

abbrev scheme : Scheme Cell ℚ := heat plate.rows plate.cols team.multConstant team.epsilon

abbrev buffers : Buffers (scheme team plate) PlateMatrix :=
  arrays plate team.multConstant team.epsilon

/-- While the team works on state number `j`, and threads below `index` are joined. -/
structure Joining (s : State) (index : ℕ) : Prop where
  index_le : index ≤ team.threadCount
  sweeping : (buffers team plate).Sweeping T s.states
    (rowsDone team.threadCount team.startingRow s.row) s.plateMatrix
  row_mem : ∀ i < team.threadCount,
    team.startingRow i ≤ s.row i ∧ s.row i ≤ team.endingRow i + 1
  own : ∀ i < team.threadCount, index ≤ i → (s.equilibrated i = true ↔
    RowsSettled (scheme team plate) T s.states (team.startingRow i) (s.row i))
  joined : ∀ i < index, s.row i = team.endingRow i + 1 ∧ s.equilibrated i = true
  reached : s.reachedEquilibrium = true ↔ ∀ i < index,
    RowsSettled (scheme team plate) T s.states (team.startingRow i) (team.endingRow i + 1)

structure Inv (s : State) : Prop where
  kStates : s.kStates = u64 s.states
  create : s.main = .create → (buffers team plate).Sweeping T s.states ∅
    (setAuxiliary s.plateMatrix) ∧ ∀ i < team.threadCount, s.equilibrated i = true
  joining : ∀ index, s.main = .join index → Joining team plate T s index
  notSettled : s.main ≠ .left → ∀ i < s.states, ¬ (scheme team plate).Settled T i
  left : s.main = .left → (scheme team plate).Equilibrium T s.states ∧
    Set.EqOn s.plateMatrix.matrix ((scheme team plate).state T s.states) (scheme team plate).dom

end Invariant

section Steps

variable {team : Team} {s t : State} {index : ℕ}

theorem Inv.createStep (hC : TeamCover team plate.rows) (h : Inv team plate T s)
    (hm : s.main = .create) :
    Inv team plate T { s with
      plateMatrix := setAuxiliary s.plateMatrix
      row := team.startingRow
      reachedEquilibrium := true
      main := .join 0 } := by
  obtain ⟨hsw, hflags⟩ := h.create hm
  refine ⟨h.kStates, (fun hc => by cases hc), fun index hi => ?_,
    fun _ => h.notSettled (by simp [hm]), (fun hl => by cases hl)⟩
  cases hi
  refine ⟨Nat.zero_le _, ⟨hsw.1, hsw.2.of_inner ?_⟩, fun i hi => ⟨le_rfl, hC.le i hi⟩,
    fun i hi _ => iff_of_true (hflags i hi) rowsSettled_self,
    fun i hi => absurd hi (Nat.not_lt_zero i),
      iff_of_true rfl fun i hi => absurd hi (Nat.not_lt_zero i)⟩
  rintro c - ⟨i, -, h1, h2⟩
  simp only at h2
  omega

theorem Inv.rowStep (hC : TeamCover team plate.rows) (h : Inv team plate T s)
    (hm : s.main = .join index) {i : ℕ} (hi : i < team.threadCount)
    (hrow : s.row i ≤ team.endingRow i) {x : PlateMatrix × Bool}
    (hx : equilibrateRow team.multConstant team.epsilon (s.plateMatrix, s.equilibrated i)
      (s.row i) = x) :
    Inv team plate T { s with
      plateMatrix := x.1
      equilibrated := Function.update s.equilibrated i x.2
      row := Function.update s.row i (s.row i + 1) } := by
  have hj := h.joining index hm
  obtain ⟨hlo, hhi⟩ := hj.row_mem i hi
  obtain ⟨h1, h2⟩ := hC.interior i hi (s.row i) hlo (Nat.lt_succ_of_le hrow)
  have hidx : index ≤ i := by
    by_contra hlt
    have := (hj.joined i (by omega)).1
    omega
  obtain ⟨hsw, hflag⟩ := sweeping_row hj.sweeping h1 h2 (s.equilibrated i)
  rw [← equilibrateRow_eq (x := (s.plateMatrix, s.equilibrated i)) hj.sweeping.1, hx] at hsw hflag
  refine ⟨h.kStates, (fun hc => by simp [hm] at hc), fun k hmk => ?_, h.notSettled,
    (fun hl => by simp [hm] at hl)⟩
  obtain rfl : index = k := by
    simpa [hm] using hmk
  refine ⟨hj.index_le, ⟨hsw.1, hsw.2.of_inner ?_⟩, ?_, ?_, ?_, hj.reached⟩
  · rintro c - ⟨k, hk, hk1, hk2⟩
    by_cases hki : k = i
    · subst hki
      simp only [Function.update_self] at hk2
      by_cases hcr : c.1 = s.row k
      · exact Or.inr hcr
      · exact Or.inl ⟨k, hk, hk1, by omega⟩
    · simp only [Function.update_of_ne hki] at hk2
      exact Or.inl ⟨k, hk, hk1, hk2⟩
  · exact forall_update (fun k r => team.startingRow k ≤ r ∧ r ≤ team.endingRow k + 1) hj.row_mem
      ⟨by omega, by omega⟩
  · intro k hk hik
    by_cases hki : k = i
    · subst hki
      simp only [Function.update_self]
      rw [hflag, hj.own k hk hik, rowsSettled_succ hlo]
    · simp only [Function.update_of_ne hki]
      exact hj.own k hk hik
  · intro k hk
    have hki : k ≠ i := by omega
    simp only [Function.update_of_ne hki]
    exact hj.joined k hk

theorem Inv.joinStep (h : Inv team plate T s) (hm : s.main = .join index)
    (hi : index < team.threadCount) (hrow : team.endingRow index < s.row index) :
    Inv team plate T { s with
      reachedEquilibrium := s.reachedEquilibrium && s.equilibrated index
      equilibrated := Function.update s.equilibrated index true
      main := .join (index + 1) } := by
  have hj := h.joining index hm
  have hend : s.row index = team.endingRow index + 1 := by
    have := (hj.row_mem index hi).2
    omega
  have hown := hj.own index hi le_rfl
  rw [hend] at hown
  refine ⟨h.kStates, (fun hc => by cases hc), fun k hk => ?_, fun _ => h.notSettled (by simp [hm]),
    (fun hl => by cases hl)⟩
  cases hk
  refine ⟨hi, hj.sweeping, hj.row_mem, ?_, ?_, ?_⟩
  · intro k hk hik
    have hki : k ≠ index := by omega
    simp only [Function.update_of_ne hki]
    exact hj.own k hk (by omega)
  · intro k hk
    by_cases hki : k = index
    · subst hki
      simp only [Function.update_self]
      exact ⟨hend, trivial⟩
    · simp only [Function.update_of_ne hki]
      exact hj.joined k (by omega)
  · simp only [Bool.and_eq_true, hj.reached, hown]
    constructor
    · rintro ⟨hall, hself⟩ k hk
      obtain hlt | rfl := Nat.lt_succ_iff_lt_or_eq.mp hk
      · exact hall k hlt
      · exact hself
    · exact fun hall => ⟨fun k hk => hall k (by omega), hall index (by omega)⟩

theorem Inv.countStep (hC : TeamCover team plate.rows) (h : Inv team plate T s)
    (hm : s.main = .join index) (hi : ¬ index < team.threadCount) :
    Inv team plate T { s with
      kStates := u64 (s.kStates + 1)
      states := s.states + 1
      main := if s.reachedEquilibrium then .left else .create } := by
  have hj := h.joining index hm
  obtain rfl : index = team.threadCount := le_antisymm hj.index_le (not_lt.mp hi)
  have hsw : (buffers team plate).Sweeping T s.states Set.univ s.plateMatrix := by
    refine ⟨hj.sweeping.1, hj.sweeping.2.of_inner fun c hc _ => ?_⟩
    obtain ⟨i, hi, h1, h2⟩ := hC.inner_done hc
    exact ⟨i, hi, h1, by rw [(hj.joined i hi).1]; exact h2⟩
  have hreached : s.reachedEquilibrium = true ↔ (scheme team plate).Settled T s.states :=
    hj.reached.trans hC.settled_iff.symm
  have hn := h.notSettled (by simp [hm])
  by_cases hr : s.reachedEquilibrium = true
  · simp only [hr, if_true]
    exact ⟨by simp only [h.kStates, u64_succ], (fun hc => by cases hc), (fun k hk => by cases hk),
      fun hl => absurd rfl hl, fun _ => ⟨Scheme.equilibrium_succ (hreached.mp hr) hn,
        hsw.2.front_eq (Set.subset_univ _)⟩⟩
  · simp only [hr, Bool.false_eq_true, if_false]
    refine ⟨by simp only [h.kStates, u64_succ], fun _ => ⟨⟨setAuxiliary_ok hsw.1,
      hsw.2.swap (Set.subset_univ _)⟩, fun i hi => (hj.joined i hi).2⟩, (fun k hk => by cases hk),
      fun _ i hi => ?_, (fun hl => by cases hl)⟩
    obtain hlt | rfl := Nat.lt_succ_iff_lt_or_eq.mp hi
    · exact hn i hlt
    · exact fun hset => hr (hreached.mpr hset)

theorem Inv.step (hC : TeamCover team plate.rows) (h : Inv team plate T s) {a : Action}
    (ha : equilibratePlate team s a = some t) : Inv team plate T t := by
  unfold equilibratePlate at ha
  split at ha
  · split at ha
    next hm =>
      cases ha
      exact h.createStep hC hm
    next index hm =>
      split at ha
      next hi =>
        split at ha <;> cases ha
        next hrow => exact h.joinStep hm hi hrow
      next hi =>
        cases ha
        exact h.countStep hC hm hi
    next => cases ha
  · split at ha
    next index hm =>
      split at ha <;> cases ha
      next hi => exact h.rowStep hC hm hi.1 hi.2 rfl
    next => cases ha

theorem not_stuck (team : Team) (hl : s.main ≠ .left) :
    ∃ a, equilibratePlate team s a ≠ none := by
  cases hm : s.main with
  | create => exact ⟨.main, by simp [equilibratePlate, hm]⟩
  | left => exact absurd hm hl
  | join index =>
    by_cases hi : index < team.threadCount
    · by_cases hrow : team.endingRow index < s.row index
      · exact ⟨.main, by simp [equilibratePlate, hm, hi, hrow]⟩
      · exact ⟨.thread index, by simp [equilibratePlate, hm, hi, not_lt.mp hrow]⟩
    · exact ⟨.main, by simp [equilibratePlate, hm, hi]⟩

/-- The rows that are left in the state at hand. -/
def rowsLeft (team : Team) (row : ℕ → ℕ) : ℕ :=
  ∑ i ∈ Finset.range team.threadCount, (team.endingRow i + 1 - row i)

/-- The steps that are left in the state at hand, at most. -/
def stepsLeft (team : Team) (s : State) : ℕ :=
  match s.main with
  | .create => rowsLeft team team.startingRow + team.threadCount + 2
  | .join index => rowsLeft team s.row + (team.threadCount - index) + 1
  | .left => 0

/-- The steps that are left until state `k`, at most. -/
def measure (team : Team) (k : ℕ) (s : State) : ℕ :=
  (k - s.states) * (rowsLeft team team.startingRow + team.threadCount + 3) + stepsLeft team s

theorem rowsLeft_update {row : ℕ → ℕ} {i : ℕ} (hi : i < team.threadCount)
    (hrow : row i ≤ team.endingRow i) :
    rowsLeft team (Function.update row i (row i + 1)) + 1 = rowsLeft team row := by
  have hsum := sum_update (Finset.mem_range.mpr hi) row (fun i r => team.endingRow i + 1 - r)
    (row i + 1)
  unfold rowsLeft
  omega

theorem Inv.states_lt (h : Inv team plate T s) (hl : s.main ≠ .left) {k : ℕ}
    (hk : (scheme team plate).Equilibrium T k) : s.states < k := by
  have hlt : ¬ k - 1 < s.states := fun hlt => h.notSettled hl (k - 1) hlt hk.1.2
  have := hk.1.1
  omega

theorem Inv.measure_lt (h : Inv team plate T s) {k : ℕ}
    (hk : (scheme team plate).Equilibrium T k) {a : Action}
    (ha : equilibratePlate team s a = some t) : measure team k t < measure team k s := by
  unfold equilibratePlate at ha
  split at ha
  · split at ha
    next hm =>
      cases ha
      simp only [measure, stepsLeft, hm]
      omega
    next index hm =>
      split at ha
      next hi =>
        split at ha <;> cases ha
        simp only [measure, stepsLeft, hm]
        omega
      next hi =>
        cases ha
        have hlt := h.states_lt (by simp [hm]) hk
        have hmul : (k - s.states) * (rowsLeft team team.startingRow + team.threadCount + 3) =
            (k - (s.states + 1)) * (rowsLeft team team.startingRow + team.threadCount + 3) +
              (rowsLeft team team.startingRow + team.threadCount + 3) := by
          rw [← Nat.succ_mul]
          congr 1
          omega
        simp only [measure, stepsLeft, hm, hmul]
        split_ifs <;> (simp only; omega)
    next => cases ha
  · split at ha
    next i _ _ hm =>
      split at ha <;> cases ha
      next hi =>
        have hr : rowsLeft team (Function.update s.row i (s.row i + 1)) + 1 = rowsLeft team s.row :=
          rowsLeft_update hi.1 hi.2
        simp only [measure, stepsLeft, hm]
        omega
    next => cases ha

end Steps

variable {s : State} {count : ℕ}

theorem inv_start {cells : Cell → ℚ} (team : Team) : Inv team plate cells
    ⟨setPlateMatrix plate cells, 0, false, .create, fun _ => 0, fun _ => true, 0⟩ where
  kStates := (u64_of_lt (by norm_num)).symm
  create _ := ⟨sweeping_start cells, fun _ _ => rfl⟩
  joining _ h := by cases h
  notSettled _ i hi := absurd hi (Nat.not_lt_zero i)
  left h := by cases h

theorem reachable_inv (hc : 1 ≤ count) {cells : Cell → ℚ}
    (h : (program plate epsilon count cells).Reachable s) :
    Inv (team plate epsilon count) plate cells s := by
  apply h.invariant (inv_start _)
  intro s a t hs ha
  exact hs.step (cover hc) ha

theorem iterates (hc : 1 ≤ count) (cells : Cell → ℚ) :
    (program plate epsilon count cells).Iterates (heat plate.rows plate.cols
      (calculateMultConstant plate.thermalDiffusivity plate.intervalDuration plate.cellsDimension)
      epsilon) cells (2 ^ 64) := by
  have hS : scheme (team plate epsilon count) plate = heat plate.rows plate.cols
      (calculateMultConstant plate.thermalDiffusivity plate.intervalDuration plate.cellsDimension)
      epsilon := by rw [scheme, multConstant_eq, epsilon_eq]
  rw [← hS]
  constructor
  · intro s _ hst
    by_contra hl
    obtain ⟨a, ha⟩ := not_stuck (team plate epsilon count) hl
    exact ha (hst a)
  · intro s hs hl
    have h := reachable_inv hc hs
    obtain ⟨heq, hf⟩ := h.left hl
    exact ⟨s.states, heq, h.kStates.trans (u64_eq _), hf⟩
  · intro k hk
    exact ⟨measure (team plate epsilon count) k,
      fun s a t hs ha => (reachable_inv hc hs).measure_lt hk ha⟩

end Concurrente.Heat.Pthread
