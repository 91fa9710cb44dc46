import Concurrente.Heat.RowMatrix
import Concurrente.Iteration

/-!
# The serial simulation

`update_plate` and `equilibrate_plate` of serial.  The area of a cell is stored in
a `uint64_t`, so its fraction is lost; a constant that is no rational number is
`none`.
-/

namespace Concurrente.Heat.Serial

open ByRows

/-- `cells_dimension * cells_dimension` as a `uint64_t`; the conversion is defined below
`2 ^ 64`. -/
def cellArea (plate : Plate) : Option ℕ :=
  let area := plate.cellsDimension * plate.cellsDimension
  if area < 2 ^ 64 then some ⌊area⌋₊ else none

def multConstant (plate : Plate) (cellArea : ℕ) : Option ℚ :=
  let diffTimesInterval := plate.thermalDiffusivity * plate.intervalDuration
  if cellArea = 0 then none else some (diffTimesInterval / cellArea)

def biggest (biggestChange new old : ℚ) : ℚ :=
  if |new - old| > biggestChange then |new - old| else biggestChange

def visitCell (multConstant : Option ℚ) (row : ℕ) (x : PlateMatrix × ℚ) (col : ℕ) :
    Option (PlateMatrix × ℚ) :=
  multConstant.map fun c =>
    let p := updateCell x.1 row col c
    (p, biggest x.2 (p.matrix (row, col)) (p.auxiliaryMatrix (row, col)))

def updateRow (multConstant : Option ℚ) (x : PlateMatrix × ℚ) (row : ℕ) :
    Option (PlateMatrix × ℚ) :=
  (loop 1 (sub64 x.1.cols 1)).foldlM (visitCell multConstant row) x

def updateRows (multConstant : Option ℚ) (p : PlateMatrix) : Option (PlateMatrix × ℚ) :=
  (loop 1 (sub64 p.rows 1)).foldlM (updateRow multConstant) (p, 0)

/-- One state: the new plate and whether it reached equilibrium. -/
def updatePlate (plate : Plate) (epsilon : ℚ) (p : PlateMatrix) : Option (PlateMatrix × Bool) :=
  (cellArea plate).bind fun cellArea =>
    (updateRows (multConstant plate cellArea) (setAuxiliary p)).map fun x =>
      (x.1, if x.2 > epsilon then false else true)

/-- `states` is the number of states without wrap-around. -/
structure State where
  plateMatrix : PlateMatrix
  kStates : ℕ
  reachedEquilibrium : Bool
  states : ℕ

/-- The loop of `equilibrate_plate`. -/
def equilibratePlate (plate : Plate) (epsilon : ℚ) (s : State) : Option State :=
  if s.reachedEquilibrium then none
  else (updatePlate plate epsilon s.plateMatrix).map fun x =>
    ⟨x.1, u64 (s.kStates + 1), x.2, s.states + 1⟩

def program (plate : Plate) (epsilon : ℚ) (cells : Cell → ℚ) : Program Cell ℚ State Unit where
  start := ⟨setPlateMatrix plate cells, 0, false, 0⟩
  step s _ := equilibratePlate plate epsilon s
  left s := s.reachedEquilibrium = true
  outcome s := ⟨s.kStates, s.plateMatrix.matrix⟩

variable {plate : Plate} {c epsilon : ℚ} {T : Cell → ℚ} {j : ℕ}

theorem foldl_biggest {ι : Type*} (new old : ι → ℚ) (cells : List ι) (b : ℚ) :
    cells.foldl (fun b i => biggest b (new i) (old i)) b ≤ epsilon ↔
      b ≤ epsilon ∧ ∀ i ∈ cells, |new i - old i| ≤ epsilon := by
  induction cells generalizing b with
  | nil => simp
  | cons i cells ih =>
    rw [List.foldl_cons, ih]
    simp only [biggest, List.mem_cons, forall_eq_or_imp, ← and_assoc]
    refine and_congr_left fun _ => ?_
    split_ifs with h
    · exact ⟨fun hi => ⟨h.le.trans hi, hi⟩, And.right⟩
    · exact ⟨fun hb => ⟨hb, (not_lt.mp h).trans hb⟩, And.left⟩

/-- The inner cells in the order of the two loops. -/
def allCells (rows cols : ℕ) : List Cell := (loop 1 (rows - 1)).flatMap (rowCells cols)

theorem mem_allCells {rows cols : ℕ} {i : Cell} :
    i ∈ allCells rows cols ↔ i ∈ (heat rows cols c epsilon).inner := by
  obtain ⟨r, k⟩ := i
  simp only [allCells, List.mem_flatMap, mem_loop, mem_rowCells, mem_inner]
  constructor
  · rintro ⟨r, hr, rfl, hk⟩
    omega
  · intro h
    exact ⟨r, by omega, rfl, by omega⟩

theorem visitCell_some (row : ℕ) (x : PlateMatrix × ℚ) (col : ℕ) :
    visitCell (some c) row x col = some ((arrays plate c epsilon).visit biggest x (row, col)) := rfl

theorem foldlM_some {α β : Type*} {f : β → α → Option β} {g : β → α → β} {I : β → Prop}
    (hI : ∀ x a, I x → I (g x a)) (h : ∀ x a, I x → f x a = some (g x a)) (l : List α) {x : β}
    (hx : I x) : l.foldlM f x = some (l.foldl g x) := by
  induction l generalizing x with
  | nil => rfl
  | cons a l ih =>
    rw [List.foldlM_cons, h x a hx, List.foldl_cons]
    exact ih (hI x a hx)

theorem visit_ok {x : PlateMatrix × ℚ} {i : Cell} (hx : (arrays plate c epsilon).ok x.1) :
    (arrays plate c epsilon).ok ((arrays plate c epsilon).visit biggest x i).1 := hx

theorem foldl_visit_ok {x : PlateMatrix × ℚ} (cells : List Cell)
    (hx : (arrays plate c epsilon).ok x.1) :
    (arrays plate c epsilon).ok (cells.foldl ((arrays plate c epsilon).visit biggest) x).1 := by
  induction cells generalizing x with
  | nil => exact hx
  | cons i cells ih => exact ih (visit_ok hx)

theorem updateRow_some {x : PlateMatrix × ℚ} (hx : (arrays plate c epsilon).ok x.1) (row : ℕ) :
    updateRow (some c) x row =
      some ((rowCells plate.cols row).foldl ((arrays plate c epsilon).visit biggest) x) := by
  rw [updateRow, subCols _ hx, rowCells, List.foldl_map]
  exact foldlM_some (I := fun _ => True) (fun _ _ _ => trivial)
    (fun x col _ => visitCell_some row x col) _ trivial

theorem updateRows_some {p : PlateMatrix} (hp : (arrays plate c epsilon).ok p) :
    updateRows (some c) p = some ((allCells plate.rows plate.cols).foldl
      ((arrays plate c epsilon).visit biggest) (p, 0)) := by
  rw [updateRows, subRows _ hp, allCells, List.foldl_flatMap]
  exact foldlM_some (I := fun x => (arrays plate c epsilon).ok x.1)
    (fun x row h => foldl_visit_ok (rowCells plate.cols row) h)
    (fun x row h => updateRow_some h row) _ hp

theorem updateRow_narrow (hc : plate.cols ≤ 2) (m : Option ℚ) {x : PlateMatrix × ℚ}
    (hx : (arrays plate c epsilon).ok x.1) (row : ℕ) : updateRow m x row = some x := by
  have hl : loop 1 (plate.cols - 1) = [] := by
    rw [List.eq_nil_iff_forall_not_mem]
    intro k hk
    have := mem_loop.mp hk
    omega
  rw [updateRow, subCols _ hx, hl]
  rfl

theorem updateRows_none (hc : 3 ≤ plate.cols) {p : PlateMatrix}
    (hp : (arrays plate c epsilon).ok p) : updateRows none p = none := by
  have hrows := plate.three_le_rows
  have hrow : updateRow none (p, 0) 1 = none := by
    rw [updateRow, subCols p hp, loop_cons (by omega), List.foldlM_cons]
    rfl
  rw [updateRows, subRows p hp, loop_cons (by omega), List.foldlM_cons, hrow]
  rfl

/-- The serial program works with the constant `c`, as far as it uses one. -/
def Works (plate : Plate) (c : ℚ) : Prop :=
  ∃ area, cellArea plate = some area ∧ (multConstant plate area = some c ∨ plate.cols ≤ 2)

theorem updateRows_spec (m : Option ℚ) (hm : m = some c ∨ plate.cols ≤ 2) (he : 0 ≤ epsilon)
    {p : PlateMatrix} (h : (arrays plate c epsilon).Sweeping T j ∅ p) :
    ∃ x, updateRows m p = some x ∧
      (arrays plate c epsilon).Sweeping T j Set.univ x.1 ∧
      (x.2 ≤ epsilon ↔ (heat plate.rows plate.cols c epsilon).Settled T j) := by
  obtain rfl | hc := hm
  · obtain ⟨hs, hb⟩ := h.visits biggest (allCells plate.rows plate.cols) 0
      fun i hi => mem_allCells.mp hi
    refine ⟨_, updateRows_some h.1,
      ⟨hs.1, hs.2.of_inner fun i hi _ => Or.inr (mem_allCells.mpr hi)⟩, ?_⟩
    rw [hb, foldl_biggest]
    constructor
    · exact fun hall i hi => heat_close.mpr (hall.2 i (mem_allCells.mpr hi))
    · exact fun hset => ⟨he, fun i hi => heat_close.mp (hset i (mem_allCells.mp hi))⟩
  · have hin : (heat plate.rows plate.cols c epsilon).inner = ∅ := inner_empty (Or.inr hc)
    refine ⟨(p, 0), ?_, ⟨h.1, h.2.of_inner fun i hi _ => ?_⟩, iff_of_true he fun i hi => ?_⟩
    · have hx := foldlM_some (I := fun x => (arrays plate c epsilon).ok x.1)
        (fun x _ hx => hx) (fun x row hx => updateRow_narrow hc m hx row)
        (loop 1 (sub64 p.rows 1)) (x := (p, 0)) h.1
      rw [updateRows, hx, List.foldl_fixed]
    · rw [hin] at hi
      exact hi
    · rw [hin] at hi
      exact absurd hi (Set.notMem_empty i)

theorem updatePlate_eq {p : PlateMatrix} {area : ℕ} (harea : cellArea plate = some area)
    {x : PlateMatrix × ℚ} (hx : updateRows (multConstant plate area) (setAuxiliary p) = some x) :
    updatePlate plate epsilon p = some (x.1, if x.2 > epsilon then false else true) := by
  unfold updatePlate
  rw [harea, Option.bind_some, hx]
  rfl

theorem updatePlate_spec (hw : Works plate c) (he : 0 ≤ epsilon) {p : PlateMatrix}
    (h : (arrays plate c epsilon).Sweeping T j ∅ (setAuxiliary p)) :
    ∃ p' reached, updatePlate plate epsilon p = some (p', reached) ∧
      (arrays plate c epsilon).Sweeping T j Set.univ p' ∧
      (reached = true ↔ (heat plate.rows plate.cols c epsilon).Settled T j) := by
  obtain ⟨area, harea, hm⟩ := hw
  obtain ⟨x, hx, hs, hb⟩ := updateRows_spec _ hm he h
  refine ⟨_, _, updatePlate_eq harea hx, hs, ?_⟩
  rw [← hb]
  by_cases hgt : x.2 > epsilon
  · simp [hgt, not_le.mpr hgt]
  · simp [hgt, not_lt.mp hgt]

theorem updatePlate_none {p : PlateMatrix} (h : ∀ area, cellArea plate = some area →
    updateRows (multConstant plate area) (setAuxiliary p) = none) :
    updatePlate plate epsilon p = none := by
  unfold updatePlate
  cases harea : cellArea plate with
  | none => rfl
  | some area =>
    rw [Option.bind_some, h area harea]
    rfl

/-- The states so far were not close to their predecessors, except the last if it
reached equilibrium. -/
structure Inv (plate : Plate) (c epsilon : ℚ) (T : Cell → ℚ) (s : State) : Prop where
  kStates : s.kStates = u64 s.states
  running : s.reachedEquilibrium = false →
    (arrays plate c epsilon).Sweeping T s.states ∅ (setAuxiliary s.plateMatrix) ∧
      ∀ i < s.states, ¬ (heat plate.rows plate.cols c epsilon).Settled T i
  reached : s.reachedEquilibrium = true →
    (heat plate.rows plate.cols c epsilon).Equilibrium T s.states ∧
      Set.EqOn s.plateMatrix.matrix ((heat plate.rows plate.cols c epsilon).state T s.states)
        (heat plate.rows plate.cols c epsilon).dom

variable {s t : State}

theorem Inv.step (hw : Works plate c) (he : 0 ≤ epsilon) (h : Inv plate c epsilon T s)
    (hr : s.reachedEquilibrium = false) :
    ∃ t, equilibratePlate plate epsilon s = some t ∧ t.states = s.states + 1 ∧
      Inv plate c epsilon T t := by
  obtain ⟨hsw, hn⟩ := h.running hr
  obtain ⟨p', reached, hu, hs, hreached⟩ := updatePlate_spec hw he hsw
  refine ⟨⟨p', u64 (s.kStates + 1), reached, s.states + 1⟩, ?_, rfl, ?_, ?_, ?_⟩
  · simp only [equilibratePlate, hr, Bool.false_eq_true, if_false, hu, Option.map_some]
  · simp only [h.kStates, u64_succ]
  · intro hf
    refine ⟨⟨setAuxiliary_ok hs.1, hs.2.swap (Set.subset_univ _)⟩, fun i hi => ?_⟩
    obtain hlt | rfl := Nat.lt_succ_iff_lt_or_eq.mp hi
    · exact hn i hlt
    · exact fun hset => by simp [hreached.mpr hset] at hf
  · intro ht
    exact ⟨Scheme.equilibrium_succ (hreached.mp ht) hn, hs.2.front_eq (Set.subset_univ _)⟩

theorem inv_start (cells : Cell → ℚ) :
    Inv plate c epsilon cells ⟨setPlateMatrix plate cells, 0, false, 0⟩ where
  kStates := (u64_of_lt (by norm_num)).symm
  running _ := ⟨sweeping_start cells, fun i hi => absurd hi (Nat.not_lt_zero i)⟩
  reached h := by cases h

theorem reachable_inv (hw : Works plate c) (he : 0 ≤ epsilon) {cells : Cell → ℚ}
    (h : (program plate epsilon cells).Reachable s) : Inv plate c epsilon cells s := by
  apply h.invariant (inv_start cells)
  intro s a t hs ha
  simp only [program] at ha
  cases hr : s.reachedEquilibrium with
  | false =>
    obtain ⟨t', ht', -, hi⟩ := hs.step hw he hr
    rw [ht'] at ha
    cases ha
    exact hi
  | true => simp [equilibratePlate, hr] at ha

theorem start_stuck (h : ∀ area, cellArea plate = some area →
      multConstant plate area = none ∧ 3 ≤ plate.cols)
    (cells : Cell → ℚ) :
    (program plate epsilon cells).Stuck (program plate epsilon cells).start := by
  intro a
  have hok : (arrays plate 0 0).ok (setAuxiliary (setPlateMatrix plate cells)) :=
    (sweeping_start cells).1
  have hu : updatePlate plate epsilon (setPlateMatrix plate cells) = none := by
    apply updatePlate_none
    intro area harea
    rw [(h area harea).1]
    exact updateRows_none (h area harea).2 hok
  simp [program, equilibratePlate, hu]

theorem iterates (hw : Works plate c) (he : 0 ≤ epsilon) (cells : Cell → ℚ) :
    (program plate epsilon cells).Iterates (heat plate.rows plate.cols c epsilon) cells
      (2 ^ 64) where
  stuck_left s hs hst := by
    by_contra hr
    obtain ⟨t, ht, -, -⟩ := (reachable_inv hw he hs).step hw he (Bool.eq_false_iff.mpr hr)
    exact absurd (hst ()) (by simp [program, ht])
  outcome s hs hl := by
    have h := reachable_inv hw he hs
    obtain ⟨heq, hf⟩ := h.reached hl
    exact ⟨s.states, heq, h.kStates.trans (u64_eq _), hf⟩
  terminates k hk := by
    refine ⟨fun s => k - s.states, fun s a t hs ha => ?_⟩
    have h := reachable_inv hw he hs
    simp only [program] at ha
    cases hr : s.reachedEquilibrium with
    | false =>
      obtain ⟨t', ht', hst, -⟩ := h.step hw he hr
      rw [ht'] at ha
      cases ha
      have hlt : ¬ k - 1 < s.states := fun hlt => (h.running hr).2 (k - 1) hlt hk.1.2
      have := hk.1.1
      simp only
      omega
    | true => simp [equilibratePlate, hr] at ha

end Concurrente.Heat.Serial
