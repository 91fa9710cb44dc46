import Concurrente.Heat.SmallPlates

/-!
# The blocks of rows of pthread_optimized

The static mapping by blocks.  `init_private_data` starts every block where the one before
ends, and `get_finish_row` computes the end from the quotient and the remainder of the
interior rows.
-/

namespace Concurrente.Heat.Optimized

namespace Setup

/-- `init_shared_data`: at most as many threads as interior rows. -/
def limitThreadCount (rows threadCount : ℕ) : ℕ :=
  let evaluatedRows := sub64 rows 2
  if evaluatedRows > threadCount then threadCount else evaluatedRows

/-- What `init_private_data` computes for a thread: its number plus one, the product and
the sum of `get_finish_row`, and the row after its block. -/
def operations (threadNumber evaluatedRows threadCount : ℕ) : List ℕ :=
  let finishRow := Optimized.getFinishRow (threadNumber + 1) evaluatedRows threadCount
  [threadNumber + 1, (threadNumber + 1) * (evaluatedRows / threadCount), finishRow,
    finishRow + 1]

structure Exact (rows threadCount : ℕ) : Prop where
  evaluatedRows : sub64 rows 2 = rows - 2
  operation : ∀ threadNumber < threadCount,
    ∀ x ∈ operations threadNumber (rows - 2) threadCount, x < 2 ^ 64

end Setup

def blockRows (block : ℕ × ℕ) : Finset ℕ := Finset.Ico block.1 block.2

/-- The interior rows in blocks, the longer ones first. -/
structure StaticMapping (rows threadCount : ℕ) (blocks : List (ℕ × ℕ)) : Prop where
  length : blocks.length = threadCount
  nonempty : ∀ block ∈ blocks, (blockRows block).Nonempty
  first : blocks.head?.map Prod.fst = some 1
  consecutive : blocks.IsChain fun block next => block.2 = next.1
  disjoint : blocks.Pairwise fun a b => Disjoint (blockRows a) (blockRows b)
  last : blocks.getLast?.map Prod.snd = some (rows - 1)
  size : ∀ (i : ℕ) (hi : i < blocks.length), (blockRows blocks[i]).card =
    (rows - 2) / threadCount + if i < (rows - 2) % threadCount then 1 else 0

section Bounds

variable {f : ℕ → ℕ} {n : ℕ}

theorem bounds_nonempty (h : ∀ i, i < n → f i < f (i + 1)) :
    ∀ block ∈ (List.range n).map fun i => (f i, f (i + 1)), (blockRows block).Nonempty := by
  intro block hblock
  obtain ⟨i, hi, rfl⟩ := List.mem_map.mp hblock
  exact Finset.nonempty_Ico.mpr (h i (List.mem_range.mp hi))

theorem bounds_consecutive :
    ((List.range n).map fun i => (f i, f (i + 1))).IsChain fun block next => block.2 = next.1 := by
  rw [List.isChain_iff_getElem]
  intro i hi
  rw [List.getElem_map, List.getElem_map, List.getElem_range, List.getElem_range]

theorem bounds_disjoint (h : Monotone f) : ((List.range n).map fun i => (f i, f (i + 1))).Pairwise
    fun a b => Disjoint (blockRows a) (blockRows b) := by
  rw [List.pairwise_map]
  apply List.pairwise_lt_range.imp
  intro i j hij
  exact Finset.Ico_disjoint_Ico_consecutive _ _ _ |>.mono_right
    (Finset.Ico_subset_Ico (h hij) le_rfl)

theorem bounds_first (hn : 0 < n) :
    ((List.range n).map fun i => (f i, f (i + 1))).head?.map Prod.fst = some (f 0) := by
  obtain ⟨m, rfl⟩ : ∃ m, n = m + 1 := ⟨n - 1, by omega⟩
  rw [List.range_succ_eq_map]
  rfl

theorem bounds_last (hn : 0 < n) :
    ((List.range n).map fun i => (f i, f (i + 1))).getLast?.map Prod.snd = some (f n) := by
  obtain ⟨m, rfl⟩ : ∃ m, n = m + 1 := ⟨n - 1, by omega⟩
  rw [List.range_succ, List.map_append, List.map_singleton, List.getLast?_concat]
  rfl

end Bounds

section Blocks

variable {e n rows threadCount : ℕ}

theorem getFinishRow_succ (i e n : ℕ) : getFinishRow (i + 1) e n =
    getFinishRow i e n + (e / n + if i < e % n then 1 else 0) := by
  have hmul : (i + 1) * (e / n) = i * (e / n) + e / n := Nat.succ_mul i _
  simp only [getFinishRow]
  split_ifs <;> omega

theorem Setup.limitThreadCount_eq (hr : 3 ≤ rows) (hrl : rows < 2 ^ 64) :
    limitThreadCount rows threadCount = min threadCount (rows - 2) := by
  simp only [limitThreadCount, sub64_two hr hrl]
  split_ifs <;> omega

theorem Setup.limitThreadCount_of_ok (h : initSharedData rows threadCount = .ok n) :
    n = limitThreadCount rows threadCount := by
  have hinit : initSharedData rows threadCount =
      if pthreadBarrierInit (limitThreadCount rows threadCount) ≠ 0 then
        .error (pthreadBarrierInit (limitThreadCount rows threadCount))
      else .ok (limitThreadCount rows threadCount) := rfl
  rw [hinit] at h
  split_ifs at h
  exact (Except.ok.inj h).symm

/-- The rows of the team are the blocks that the set-up computes. -/
theorem team_block {α : Type*} [Temperature α] {plate : Plate α} {blocks : List (ℕ × ℕ)}
    (hr : 3 ≤ plate.rows) (hn : Setup.initSharedData plate.rows threadCount = .ok n)
    (h : Setup.initPrivateData plate.rows n = some blocks) (i : ℕ) : blocks.getD i (0, 0) =
    ((initSharedData plate threadCount).startingRow i,
      (initSharedData plate threadCount).finishRow i) := by
  have hrl := Flat.rows_lt plate.cells_lt plate.cols_pos
  rw [Setup.limitThreadCount_of_ok hn] at h
  rw [Setup.initPrivateData_eq hr (by omega)] at h
  rw [← Option.some.inj h]
  simp only [initSharedData, evaluatedRows_eq hr, Setup.limitThreadCount]

theorem Setup.exact (hr : 3 ≤ rows) (hrl : rows < 2 ^ 64) (hn : n ≤ rows - 2) : Exact rows n where
  evaluatedRows := sub64_two hr hrl
  operation threadNumber hlt x hx := by
    have hle := getFinishRow_le (e := rows - 2) (show threadNumber + 1 ≤ n from hlt)
    have hmul : (threadNumber + 1) * ((rows - 2) / n) ≤
        Optimized.getFinishRow (threadNumber + 1) (rows - 2) n := Nat.le_add_right _ _
    simp only [operations, List.mem_cons, List.not_mem_nil, or_false] at hx
    omega

theorem staticMapping (hn : 0 < n) (hle : n ≤ rows - 2) :
    StaticMapping rows n (initPrivateData (rows - 2) n) := by
  have hsucc := getFinishRow_succ (e := rows - 2) (n := n)
  have hq : 0 < (rows - 2) / n := Nat.div_pos hle hn
  have hmono : Monotone fun i => getFinishRow i (rows - 2) n + 1 :=
    monotone_nat_of_le_succ fun i => Nat.succ_le_succ (getFinishRow_mono i _ _)
  have hblocks : initPrivateData (rows - 2) n = (List.range n).map fun i =>
      (getFinishRow i (rows - 2) n + 1, getFinishRow (i + 1) (rows - 2) n + 1) := by
    rw [initPrivateData, initPrivateData_fold]
  rw [hblocks]
  refine ⟨?length, ?nonempty, ?first, bounds_consecutive, bounds_disjoint hmono, ?last, ?size⟩
  case length => rw [List.length_map, List.length_range]
  case nonempty =>
    apply bounds_nonempty (f := fun i => getFinishRow i (rows - 2) n + 1)
    intro i _
    have := hsucc i
    omega
  case first =>
    rw [bounds_first (f := fun i => getFinishRow i (rows - 2) n + 1) hn, getFinishRow_zero]
  case last =>
    rw [bounds_last (f := fun i => getFinishRow i (rows - 2) n + 1) hn, getFinishRow_last hn]
    congr 1
    omega
  case size =>
    intro i hi
    have := hsucc i
    rw [List.getElem_map, List.getElem_range, blockRows, Nat.card_Ico]
    omega

end Blocks

/-- The threads get all interior rows, in blocks of nearly the same size. -/
theorem interior_rows_mapped (rows threadCount : ℕ) (hr : 3 ≤ rows) (hrl : rows < 2 ^ 64)
    (ht : 1 ≤ threadCount) :
    ∃ blocks, Setup.initPrivateData rows (Setup.limitThreadCount rows threadCount) = some blocks ∧
      StaticMapping rows (Setup.limitThreadCount rows threadCount) blocks ∧
      Setup.Exact rows (Setup.limitThreadCount rows threadCount) := by
  rw [Setup.limitThreadCount_eq hr hrl]
  have hle : min threadCount (rows - 2) ≤ rows - 2 := Nat.min_le_right _ _
  have hpos : 0 < min threadCount (rows - 2) := by omega
  exact ⟨_, Setup.initPrivateData_eq hr hrl, staticMapping hpos hle, Setup.exact hr hrl hle⟩

/-- Ten interior rows for four threads. -/
theorem interior_rows_mapped_twelve :
    ∃ blocks, Setup.initPrivateData 12 (Setup.limitThreadCount 12 4) = some blocks ∧
      StaticMapping 12 (Setup.limitThreadCount 12 4) blocks ∧
      Setup.Exact 12 (Setup.limitThreadCount 12 4) :=
  interior_rows_mapped 12 4 (by decide) (by decide) (by decide)

example : initPrivateData 10 4 = [(1, 4), (4, 7), (7, 9), (9, 11)] := by decide

end Concurrente.Heat.Optimized
