import Concurrente.Heat.Convergence
import Concurrente.Heat.Optimized.Termination
import Concurrente.Heat.Pthread

/-!
# Plates with few rows

How the versions with threads set up their teams, with 64-bit arithmetic in which a division
by zero is undefined.  With three rows or more the rows of a team are those of the serial loop;
with two rows there is no team, and with one row the number of interior rows wraps around.
-/

namespace Concurrente.Heat

namespace Optimized.Setup

/-- `pthread_barrier_init` with an `unsigned` count; a barrier for no thread is an error
(`EINVAL`). -/
def pthreadBarrierInit (count : ℕ) : ℕ := if count % 2 ^ 32 = 0 then 22 else 0

/-- `init_shared_data`: the number of threads, or the error of the second barrier. -/
def initSharedData (rows threadCount : ℕ) : Except ℕ ℕ :=
  let evaluatedRows := sub64 rows 2
  let threadCount := if evaluatedRows > threadCount then threadCount else evaluatedRows
  let error := pthreadBarrierInit threadCount
  if error ≠ 0 then .error error else .ok threadCount

def getFinishRow (threadNumber evaluatedRows threadCount : ℕ) : Option ℕ :=
  if threadCount = 0 then none
  else
    let added := if threadNumber < evaluatedRows % threadCount then threadNumber
      else evaluatedRows % threadCount
    some (u64 (threadNumber * (evaluatedRows / threadCount) + added))

/-- `init_private_data`: for every thread the first row and the row after the last. -/
def initPrivateData (rows threadCount : ℕ) : Option (List (ℕ × ℕ)) :=
  let evaluatedRows := sub64 rows 2
  ((List.range threadCount).foldlM (fun x threadNumber =>
    (getFinishRow (threadNumber + 1) evaluatedRows threadCount).map fun finishRow =>
      (x.1 ++ [(x.2, u64 (finishRow + 1))], u64 (finishRow + 1))) ([], 1)).map Prod.fst

end Optimized.Setup

namespace Pthread.Setup

def getIntervals (rows threadCount : ℕ) : Option ℕ :=
  let evaluatingRows := sub64 rows 2
  if threadCount < evaluatingRows then
    if threadCount = 0 then none else some (evaluatingRows / threadCount)
  else some 1

/-- `init_private_data`: for every thread the first and the last row. -/
def initPrivateData (rows count : ℕ) : Option (List (ℕ × ℕ)) :=
  let lastEvalRow := sub64 rows 2
  let threadCount := if lastEvalRow > count then count else lastEvalRow
  (getIntervals rows threadCount).map fun intervals =>
    let intervalToEnd := sub64 intervals 1
    ((List.range threadCount).foldl (fun x index =>
      let startingRow := u64 (x.2 + 1)
      let rowPointer := u64 (startingRow + intervalToEnd)
      (x.1 ++ [(startingRow, if index = sub64 threadCount 1 then lastEvalRow else rowPointer)],
        rowPointer)) ([], 0)).1

end Pthread.Setup

/-- The serial program on a matrix of any shape. -/
def Serial.shapeProgram (plate : ByRows.Plate) (epsilon : ℚ) (rows cols : ℕ) (cells : Cell → ℚ) :
    Program Cell ℚ Serial.State Unit where
  toSystem := Serial.simulation plate epsilon (Serial.loaded rows cols cells)
  left s := s.reachedEquilibrium = true
  outcome s := ⟨s.kStates, s.plateMatrix.matrix⟩

def shape (rows cols : ℕ) : Set Cell := {i | i.1 < rows ∧ i.2 < cols}

/-- pthread_optimized has barriers that can be initialised and a team for the rows of the serial
loop, and leaves a plate without interior cells after one state. -/
structure Optimized.Ready (rows cols threadCount : ℕ) : Prop where
  team : ∃ n blocks, Setup.initSharedData rows threadCount = .ok n ∧ 1 ≤ n ∧
    Setup.initPrivateData rows n = some blocks ∧ blocks.length = n ∧
    blocks.flatMap (fun block => loop block.1 block.2) = loop 1 (rows - 1)
  oneState : rows ≤ 2 ∨ cols ≤ 2 → ∀ plate : Optimized.Plate ℚ, plate.rows = rows →
    plate.cols = cols → (Optimized.program plate threadCount).FinishesWith (shape rows cols)
      ⟨1, plate.load.grid⟩

/-- pthread has a team for the rows of the serial loop, and leaves a plate without interior cells
after one state. -/
structure Pthread.Ready (rows cols threadCount : ℕ) : Prop where
  team : ∃ blocks, Setup.initPrivateData rows threadCount = some blocks ∧ blocks ≠ [] ∧
    blocks.flatMap (fun block => loop block.1 (block.2 + 1)) = loop 1 (rows - 1)
  oneState : rows ≤ 2 ∨ cols ≤ 2 → ∀ plate : ByRows.Plate, plate.rows = rows →
    plate.cols = cols → ∀ epsilon cells,
      (Pthread.program plate epsilon threadCount cells).FinishesWith (shape rows cols) ⟨1, cells⟩

/-- serial leaves a plate without interior cells after one state, when the area of a cell has a
conversion to an integer. -/
def Serial.Ready (rows cols : ℕ) : Prop :=
  rows ≤ 2 ∨ cols ≤ 2 → ∀ (plate : ByRows.Plate) (epsilon : ℚ) (cells : Cell → ℚ),
    plate.cellsDimension * plate.cellsDimension < 2 ^ 64 → 0 ≤ epsilon →
    (Serial.shapeProgram plate epsilon rows cols cells).FinishesWith (shape rows cols) ⟨1, cells⟩

section Teams

variable {rows cols threadCount : ℕ}

theorem sub64_two (hr : 3 ≤ rows) (hrl : rows < 2 ^ 64) : sub64 rows 2 = rows - 2 :=
  sub64_of_le (by omega) hrl

namespace Optimized.Setup

theorem initSharedData_eq (hr : 3 ≤ rows) (hrl : rows < 2 ^ 64) (ht : 1 ≤ threadCount)
    (ht' : threadCount ≤ 32000) :
    initSharedData rows threadCount = .ok (min threadCount (rows - 2)) := by
  have hmin : (if rows - 2 > threadCount then threadCount else rows - 2) =
      min threadCount (rows - 2) := by
    split_ifs <;> omega
  have herror : pthreadBarrierInit (min threadCount (rows - 2)) = 0 := by
    unfold pthreadBarrierInit
    rw [if_neg]
    omega
  simp only [initSharedData, sub64_two hr hrl, hmin, herror, ne_eq, not_true_eq_false, if_false]

theorem initPrivateData_eq {n : ℕ} (hr : 3 ≤ rows) (hrl : rows < 2 ^ 64) :
    initPrivateData rows n = some (Optimized.initPrivateData (rows - 2) n) := by
  have hfold : ∀ m ≤ n, (List.range m).foldlM (fun x threadNumber =>
      (getFinishRow (threadNumber + 1) (rows - 2) n).map fun finishRow =>
        (x.1 ++ [(x.2, u64 (finishRow + 1))], u64 (finishRow + 1)))
        (([], 1) : List (ℕ × ℕ) × ℕ) =
      some ((List.range m).foldl (fun x threadNumber =>
        let finishRow := Optimized.getFinishRow (threadNumber + 1) (rows - 2) n + 1
        (x.1 ++ [(x.2, finishRow)], finishRow)) (([], 1) : List (ℕ × ℕ) × ℕ)) := by
    intro m
    induction m with
    | zero => exact fun _ => rfl
    | succ m ih =>
      intro hm
      have hle := getFinishRow_le (e := rows - 2) (show m + 1 ≤ n from hm)
      have hrow : getFinishRow (m + 1) (rows - 2) n =
          some (Optimized.getFinishRow (m + 1) (rows - 2) n) := by
        have hlt : Optimized.getFinishRow (m + 1) (rows - 2) n < 2 ^ 64 := by omega
        rw [getFinishRow, if_neg (by omega)]
        exact congrArg some (u64_of_lt hlt)
      have hnext : u64 (Optimized.getFinishRow (m + 1) (rows - 2) n + 1) =
          Optimized.getFinishRow (m + 1) (rows - 2) n + 1 := u64_of_lt (by omega)
      rw [List.range_succ, List.foldlM_append, ih (by omega), List.foldl_append]
      simp only [Option.bind_eq_bind, Option.bind_some, List.foldlM_cons, List.foldlM_nil, hrow,
        Option.map_some, hnext]
      rfl
  simp only [initPrivateData, sub64_two hr hrl, hfold n le_rfl, Option.map_some]
  rfl

end Optimized.Setup

theorem Optimized.flatMap_initPrivateData {e n : ℕ} (hn : 0 < n) :
    (Optimized.initPrivateData e n).flatMap (fun block => loop block.1 block.2) =
      loop 1 (e + 1) := by
  have hloop := (flatMap_loop (fun i => getFinishRow i e n + 1) (n := n)
    fun i _ => Nat.succ_le_succ (getFinishRow_mono i e n)).2
  rw [getFinishRow_zero, getFinishRow_last hn] at hloop
  rw [Optimized.initPrivateData, initPrivateData_fold, List.flatMap_map]
  exact hloop

theorem Optimized.length_initPrivateData (e n : ℕ) :
    (Optimized.initPrivateData e n).length = n := by
  rw [Optimized.initPrivateData, initPrivateData_fold, List.length_map, List.length_range]

theorem Optimized.ready (hr : 3 ≤ rows) (hrl : rows < 2 ^ 61) (ht : 1 ≤ threadCount)
    (ht' : threadCount ≤ 32000) : Optimized.Ready rows cols threadCount where
  team := by
    have hpos : 0 < min threadCount (rows - 2) := by omega
    have hrl' : rows < 2 ^ 64 := by omega
    refine ⟨_, _, Setup.initSharedData_eq hr hrl' ht ht', hpos, Setup.initPrivateData_eq hr hrl',
      Optimized.length_initPrivateData _ _, ?_⟩
    rw [Optimized.flatMap_initPrivateData hpos, show rows - 2 + 1 = rows - 1 by omega]
  oneState hsmall plate hrows hcols := by
    subst hrows hcols
    exact (iterates hr ht).finishesWith_of_inner_empty (by norm_num) (inner_empty hsmall)

namespace Pthread.Setup

theorem foldl_blocks {q e n : ℕ} (hq : 1 ≤ q) (hq' : q < 2 ^ 64) (m : ℕ) :
    (List.range m).foldl (fun x index =>
      let startingRow := u64 (x.2 + 1)
      let rowPointer := u64 (startingRow + (q - 1))
      (x.1 ++ [(startingRow, if index = n then e else rowPointer)], rowPointer))
      (([], 0) : List (ℕ × ℕ) × ℕ) =
    ((List.range m).map fun i => (u64 (i * q + 1), if i = n then e else u64 ((i + 1) * q)),
      u64 (m * q)) := by
  induction m with
  | zero =>
    rw [Nat.zero_mul, u64_of_lt (by norm_num)]
    rfl
  | succ m ih =>
    have hstart : u64 (u64 (m * q) + 1) = u64 (m * q + 1) := u64_succ _
    have hnext : u64 (u64 (m * q + 1) + (q - 1)) = u64 ((m + 1) * q) := by
      rw [Nat.succ_mul]
      simp only [u64_eq]
      omega
    rw [List.range_succ, List.foldl_append, ih, List.map_append]
    simp only [List.foldl_cons, List.foldl_nil, List.map_cons, List.map_nil, hstart, hnext]

theorem initPrivateData_eq (hr : 3 ≤ rows) (hrl : rows < 2 ^ 64) (ht : 1 ≤ threadCount) :
    initPrivateData rows threadCount =
      some (Pthread.initPrivateData (rows - 2) (min threadCount (rows - 2))) := by
  have hmin : (if rows - 2 > threadCount then threadCount else rows - 2) =
      min threadCount (rows - 2) := by
    split_ifs <;> omega
  have hn : 0 < min threadCount (rows - 2) := by omega
  have hne : min threadCount (rows - 2) ≤ rows - 2 := by omega
  simp only [initPrivateData, sub64_two hr hrl, hmin]
  generalize min threadCount (rows - 2) = n at hn hne
  have hq := getIntervals_pos (e := rows - 2) hn
  have hmul := getIntervals_mul_le hne
  have hintervals : getIntervals rows n = some (Pthread.getIntervals (rows - 2) n) := by
    simp only [getIntervals, Pthread.getIntervals, sub64_two hr hrl]
    split_ifs with h1 h2
    · omega
    · rfl
    · rfl
  have hle : Pthread.getIntervals (rows - 2) n ≤ n * Pthread.getIntervals (rows - 2) n :=
    Nat.le_mul_of_pos_left _ hn
  have hlast : sub64 n 1 = n - 1 := sub64_of_le hn (by omega)
  have hsub : sub64 (Pthread.getIntervals (rows - 2) n) 1 = Pthread.getIntervals (rows - 2) n - 1 :=
    sub64_of_le hq (by omega)
  rw [hintervals, Option.map_some, hlast, hsub, foldl_blocks hq (by omega), Pthread.initPrivateData,
    Pthread.initPrivateData_fold _ _ hq]
  refine congrArg some (List.map_congr_left fun i hi => ?_)
  have hi := List.mem_range.mp hi
  have hfirst : i * Pthread.getIntervals (rows - 2) n ≤ n * Pthread.getIntervals (rows - 2) n :=
    Nat.mul_le_mul_right _ hi.le
  have hnext : (i + 1) * Pthread.getIntervals (rows - 2) n ≤
    n * Pthread.getIntervals (rows - 2) n :=
    Nat.mul_le_mul_right _ hi
  rw [u64_of_lt (by omega), u64_of_lt (by omega)]

end Pthread.Setup

theorem Pthread.flatMap_initPrivateData {e n : ℕ} (hn : 0 < n) (hne : n ≤ e) :
    (Pthread.initPrivateData e n).flatMap (fun block => loop block.1 (block.2 + 1)) =
      loop 1 (e + 1) := by
  have hmul := getIntervals_mul_le hne
  rw [Pthread.initPrivateData, initPrivateData_fold _ _ (getIntervals_pos hn), List.flatMap_map]
  have hloop := (flatMap_loop
    (fun i => if i = n then e + 1 else i * getIntervals e n + 1) (n := n) ?mono).2
  case mono =>
    intro i hi
    have hnext : (i + 1) * getIntervals e n = i * getIntervals e n + getIntervals e n :=
      Nat.succ_mul _ _
    have hle : i * getIntervals e n ≤ n * getIntervals e n := Nat.mul_le_mul_right _ hi.le
    rw [if_neg hi.ne]
    split_ifs <;> omega
  simp only [hn.ne, if_false, if_true, Nat.zero_mul, Nat.zero_add] at hloop
  rw [← hloop]
  refine List.flatMap_congr fun i hi => ?_
  have hi := List.mem_range.mp hi
  rw [if_neg hi.ne]
  by_cases hlast : i = n - 1
  · rw [if_pos hlast, if_pos (by omega)]
  · rw [if_neg hlast, if_neg (by omega)]

theorem Pthread.ready (hr : 3 ≤ rows) (hrl : rows < 2 ^ 61) (ht : 1 ≤ threadCount) :
    Pthread.Ready rows cols threadCount where
  team := by
    have hpos : 0 < min threadCount (rows - 2) := by omega
    have hle : min threadCount (rows - 2) ≤ rows - 2 := by omega
    have hrows := Pthread.flatMap_initPrivateData hpos hle
    rw [show rows - 2 + 1 = rows - 1 by omega] at hrows
    refine ⟨_, Setup.initPrivateData_eq hr (by omega) ht, fun hnil => ?_, hrows⟩
    rw [hnil] at hrows
    have hmem : 1 ∈ loop 1 (rows - 1) := mem_loop.mpr ⟨le_rfl, by omega⟩
    rw [← hrows] at hmem
    exact absurd hmem List.not_mem_nil
  oneState hsmall plate hrows hcols epsilon cells := by
    subst hrows hcols
    exact (iterates ht cells).finishesWith_of_inner_empty (by norm_num) (inner_empty hsmall)

theorem Pthread.Setup.exists_block (ht : 1 ≤ threadCount) (ht' : threadCount ≤ 32000) :
    ∃ blocks, initPrivateData 1 threadCount = some blocks ∧ ∃ last ≥ 1, (1, last) ∈ blocks := by
  have hwrap : sub64 1 2 = 2 ^ 64 - 1 := by
    simp only [sub64, u64_eq]
    norm_num
  have hcount : (if 2 ^ 64 - 1 > threadCount then threadCount else 2 ^ 64 - 1) = threadCount :=
    if_pos (by omega)
  have hintervals : getIntervals 1 threadCount = some ((2 ^ 64 - 1) / threadCount) := by
    simp only [getIntervals, hwrap]
    rw [if_pos (by omega), if_neg (by omega)]
  have hq : 1 ≤ (2 ^ 64 - 1) / threadCount := (Nat.one_le_div_iff ht).mpr (by omega)
  have hq' : (2 ^ 64 - 1) / threadCount ≤ 2 ^ 64 - 1 := Nat.div_le_self _ _
  have hsub : sub64 ((2 ^ 64 - 1) / threadCount) 1 = (2 ^ 64 - 1) / threadCount - 1 :=
    sub64_of_le hq (by omega)
  simp only [initPrivateData, hwrap, hcount, hintervals, Option.map_some, hsub]
  generalize (2 ^ 64 - 1) / threadCount = q at hq hq'
  rw [foldl_blocks hq (by omega)]
  refine ⟨_, rfl, if 0 = sub64 threadCount 1 then 2 ^ 64 - 1 else u64 q, ?_, ?_⟩
  · rw [u64_of_lt (by omega)]
    split_ifs <;> omega
  · refine List.mem_map.mpr ⟨0, List.mem_range.mpr ht, ?_⟩
    rw [Nat.zero_mul, Nat.zero_add, Nat.one_mul, u64_of_lt (by norm_num)]

theorem Pthread.Setup.initPrivateData_two (threadCount : ℕ) :
    initPrivateData 2 threadCount = some [] := by
  have hzero : sub64 2 2 = 0 := sub64_of_le le_rfl (by norm_num)
  simp only [initPrivateData, getIntervals, hzero, gt_iff_lt, Nat.not_lt_zero, if_false, lt_irrefl,
    Option.map_some, List.range_zero, List.foldl_nil]

theorem Pthread.not_ready (hr : 1 ≤ rows) (hr' : rows ≤ 2) (ht : 1 ≤ threadCount)
    (ht' : threadCount ≤ 32000) : ¬ Pthread.Ready rows cols threadCount := by
  rintro ⟨⟨blocks, hblocks, hne, hrows⟩, -⟩
  obtain rfl | rfl : rows = 1 ∨ rows = 2 := by omega
  · obtain ⟨blocks', hblocks', last, hlast, hmem⟩ := Setup.exists_block ht ht'
    obtain rfl := Option.some.inj (hblocks.symm.trans hblocks')
    have hrow : 1 ∈ loop 1 (1 - 1) := by
      rw [← hrows]
      exact List.mem_flatMap.mpr ⟨(1, last), hmem, mem_loop.mpr ⟨le_rfl, Nat.lt_succ_of_le hlast⟩⟩
    exact absurd (mem_loop.mp hrow).2 (by norm_num)
  · exact hne (Option.some.inj (hblocks.symm.trans (Setup.initPrivateData_two threadCount)))

theorem Serial.ready (hr : 1 ≤ rows) (hc : 1 ≤ cols) (hrl : rows < 2 ^ 61) (hcl : cols < 2 ^ 61) :
    Serial.Ready rows cols := by
  intro hsmall plate epsilon cells harea he
  have harea' : cellArea plate = some ⌊plate.cellsDimension * plate.cellsDimension⌋₊ := if_pos harea
  by_cases h3 : 3 ≤ rows
  · have hw : Works (reshape plate rows cols h3 hc hrl hcl) 0 := ⟨_, harea', Or.inr (by
      have hcols : cols ≤ 2 := hsmall.resolve_left (by omega)
      exact hcols)⟩
    have hfin := (iterates hw he cells).finishesWith_of_inner_empty (by norm_num)
      (inner_empty hsmall)
    unfold Program.FinishesWith Serial.shapeProgram
    rw [simulation_reshape]
    exact hfin
  · obtain ⟨hterm, hends⟩ := narrow_finishes harea' hr (by omega) he
    refine ⟨hterm, fun s hs => ⟨(hends s hs).1, fun hl => ⟨?_, (hends s hs).2 hl⟩⟩⟩
    have hk := narrow_kStates harea' hr (by omega) he hs
    rw [show s.reachedEquilibrium = true from hl] at hk
    exact hk

end Teams

structure Ready (rows cols threadCount : ℕ) : Prop where
  optimized : Optimized.Ready rows cols threadCount
  pthread : Pthread.Ready rows cols threadCount
  serial : Serial.Ready rows cols

/-- The versions with threads handle a plate if and only if it has three rows. -/
theorem ready_iff (rows cols threadCount : ℕ) (hr : 1 ≤ rows) (hc : 1 ≤ cols)
    (hs : rows * cols < 2 ^ 61) (ht : 1 ≤ threadCount) (ht' : threadCount ≤ 32000) :
    Ready rows cols threadCount ↔ 3 ≤ rows := by
  have hrl := Flat.rows_lt hs hc
  have hcl := Flat.cols_lt hs hr
  constructor
  · intro h
    by_contra hlt
    exact Pthread.not_ready hr (by omega) ht ht' h.pthread
  · exact fun h3 => ⟨Optimized.ready h3 hrl ht ht', Pthread.ready h3 hrl ht,
      Serial.ready hr hc hrl hcl⟩

theorem ready_five_rows : Ready 5 6 4 :=
  (ready_iff 5 6 4 (by norm_num) (by norm_num) (by norm_num) (by norm_num) (by norm_num)).mpr
    (by norm_num)

/-- A plate of two rows: the barriers are initialised for no thread. -/
theorem not_ready_two_rows : ¬ Ready 2 3 1 := by
  rintro ⟨⟨⟨n, blocks, hn, -⟩, -⟩, -, -⟩
  have hzero : sub64 2 2 = 0 := sub64_of_le le_rfl (by norm_num)
  simp [Optimized.Setup.initSharedData, Optimized.Setup.pthreadBarrierInit, hzero] at hn

end Concurrente.Heat
