import Concurrente.Heat.Optimized.Preservation

/-!
# The team simulates the sequential iteration
-/

namespace Concurrente.Heat.Optimized

open Flat

variable {α : Type*} [Temperature α] {plate : Plate α} {threadCount : ℕ} {s : State α}

theorem working_start {team : Team α} {rows cols : ℕ} {hs : rows * cols < 2 ^ 61}
    {p : PlateMatrix α} (hok : (buffers team hs).ok p)
    (hborder : Set.EqOn p.auxiliaryGrid p.grid
      ((scheme team rows cols).dom \ (scheme team rows cols).inner)) :
    Working team hs p.grid 0 (start p) where
  sweeping := by
    refine ⟨hok, (Scheme.Sweeping.begin (fun _ _ => rfl) hborder).of_inner ?_⟩
    rintro c - ⟨i, hi, h1, h2⟩
    simp only [start, Pc.nextRow] at h2
    omega
  own _ _ := trivial
  flag := iff_of_true rfl fun _ _ h => Bool.noConfusion h
  kStates := (u64_of_lt (show 0 < 2 ^ 64 by norm_num)).symm
  counted := by
    funext k
    simp [once, start]
  switched := by
    funext k
    simp [once, start]

theorem inv_start (hr : 3 ≤ plate.rows) (ht : 1 ≤ threadCount) :
    Inv (initSharedData plate threadCount) plate.cells_lt plate.load.grid 0
      (start plate.load) .afterRows where
  lockstep := Lockstep.start (threadCount_pos hr ht)
  serial_lt := threadCount_pos hr ht
  reads i _ k v h := by cases h
  notSettled k hk := by omega
  stage := working_start (setPlateMatrix_ok plate.cells_lt plate.file)
    (setPlateMatrix_border_eqOn plate.cells_lt plate.file)

theorem reachable_inv (hr : 3 ≤ plate.rows) (ht : 1 ≤ threadCount)
    (h : (system plate threadCount).Reachable s) :
    ∃ j site, Inv (initSharedData plate threadCount) plate.cells_lt plate.load.grid j s site := by
  apply h.invariant
  · exact ⟨0, .afterRows, inv_start hr ht⟩
  · rintro s a t ⟨j, site, hj⟩ ha
    simp only [system] at ha
    split at ha
    next hlt => exact hj.step (cover hr ht) plate.cols_pos hlt.1 hlt.2 ha
    next => cases ha

section Consequences

variable {team : Team α} {rows cols : ℕ} {hs : rows * cols < 2 ^ 61} {T : Cell → α} {j : ℕ}
  {site : Site} {i k : ℕ}

theorem once_le (j k : ℕ) : once j k ≤ 1 := by
  simp only [once]
  split_ifs <;> omega

theorem Inv.once_le (h : Inv team hs T j s site) : s.counted k ≤ 1 ∧ s.switched k ≤ 1 := by
  have hst := h.stage
  cases site with
  | _ => exact ⟨hst.counted ▸ Optimized.once_le _ _, hst.switched ▸ Optimized.once_le _ _⟩

theorem Inv.once_eq (h : Inv team hs T j s site) (hi : i < team.threadCount)
    (hk : 4 * k + 2 ≤ (s.thread i).place.phase) : s.counted k = 1 ∧ s.switched k = 1 := by
  have hle := (h.lockstep.phase_le hi).1
  have hst := h.stage
  cases site with
  | afterRows =>
    simp only [Site.phase] at hle
    rw [hst.counted, hst.switched, once, if_pos (by omega)]
    exact ⟨rfl, rfl⟩
  | beforeRead =>
    simp only [Site.phase] at hle
    rw [hst.counted, hst.switched, once, once, if_pos (by omega), if_pos (by omega)]
    exact ⟨rfl, rfl⟩
  | _ =>
    simp only [Site.phase] at hle
    rw [hst.counted, hst.switched, once, if_pos (by omega)]
    exact ⟨rfl, rfl⟩

theorem Inv.joined_eq (h : Inv team hs T j s site) (hC : TeamCover team rows)
    (hf : ∀ i < team.threadCount, (s.thread i).pc = .finished) :
    (scheme team rows cols).Equilibrium T (j + 1) ∧ (joined s).2 = (j + 1) % 2 ^ 64 ∧
      Set.EqOn (joined s).1.grid ((scheme team rows cols).state T (j + 1))
        (scheme team rows cols).dom := by
  obtain rfl : site = .beforeReset := h.site_eq hC.pos (by rw [hf 0 hC.pos]; rfl)
    (by rw [hf 0 hC.pos]; rfl)
  have hw : Reading team hs T j s := h.stage
  exact ⟨Scheme.equilibrium_succ (hw.finished 0 hC.pos (hf 0 hC.pos)) h.notSettled,
    hw.kStates.trans (u64_eq _), hw.sweeping.2.back_eq⟩

end Consequences

/-- In every reachable state: the threads are at most one wait apart; every state of the
simulation is counted once and its matrices are swapped once before any thread leaves the
second wait; all threads read the same `done`; and after the threads have finished, the plate holds
the first state that is close to its predecessor and the number of that state. -/
theorem team_spec (plate : Plate α) (hr : 3 ≤ plate.rows) (threadCount : ℕ)
    (ht : 1 ≤ threadCount) {s : State α} (h : (system plate threadCount).Reachable s) :
    (∀ i < (initSharedData plate threadCount).threadCount,
      ∀ i' < (initSharedData plate threadCount).threadCount,
      (s.thread i).place.phase ≤ (s.thread i').place.phase + 1) ∧
    (∀ k, s.counted k ≤ 1 ∧ s.switched k ≤ 1 ∧
      ∀ i < (initSharedData plate threadCount).threadCount,
        4 * k + 2 ≤ (s.thread i).place.phase → s.counted k = 1 ∧ s.switched k = 1) ∧
    (∀ i < (initSharedData plate threadCount).threadCount,
      ∀ i' < (initSharedData plate threadCount).threadCount, ∀ k v v',
      (s.thread i).reads k = some v → (s.thread i').reads k = some v' → v = v') ∧
    ((∀ i < (initSharedData plate threadCount).threadCount, (s.thread i).pc = .finished) →
      ∃ k, (scheme (initSharedData plate threadCount) plate.rows plate.cols).Equilibrium
          plate.load.grid k ∧ (joined s).2 = k % 2 ^ 64 ∧
        ∀ row col, row < plate.rows → col < plate.cols → (joined s).1.grid (row, col) =
          (scheme (initSharedData plate threadCount) plate.rows plate.cols).state
            plate.load.grid k (row, col)) := by
  obtain ⟨j, site, hj⟩ := reachable_inv hr ht h
  refine ⟨fun i hi i' hi' => ?_, fun k => ⟨hj.once_le.1, hj.once_le.2, fun i hi hk =>
    hj.once_eq hi hk⟩, fun i hi i' hi' k v v' hv hv' => ?_, fun hf => ?_⟩
  · exact (hj.lockstep.phase_le hi).1.trans (hj.lockstep.phase_le hi').2
  · rw [Bool.eq_iff_iff, hj.reads i hi k v hv, hj.reads i' hi' k v' hv']
  · obtain ⟨heq, hk, hgrid⟩ := hj.joined_eq (cover hr ht) hf
    exact ⟨j + 1, heq, hk, fun row col hrow hcol => hgrid ⟨hrow, hcol⟩⟩

theorem square_cols_pos : 1 ≤ 3 := by norm_num

/-- Two interior rows of one cell, of which the first is hot. -/
def square : Plate ℚ :=
  ⟨4, 3, [0, 0, 0, 0, 1, 0, 0, 0, 0, 0, 0, 0], 1, 1 / 8, 1, 1 / 4, square_cols_pos, by norm_num⟩

/-- Turns of two threads, with the number of their steps: the plate takes two states. -/
def squareTurns : List Action :=
  [(0, 5), (1, 5), (0, 4), (1, 2), (0, 3), (1, 3), (0, 3), (1, 2), (0, 6), (1, 6), (0, 4), (1, 2),
    (0, 2), (1, 2)].flatMap fun turn => List.replicate turn.2 ⟨turn.1, 0⟩

/-- The thread has finished after the second state, having read `done` in both. -/
def Ended (th : Thread) : Prop :=
  th.pc = .finished ∧ th.place.phase = 6 ∧ th.reads 0 = some false ∧ th.reads 1 = some true

instance (th : Thread) : Decidable (Ended th) := inferInstanceAs (Decidable (_ ∧ _))

theorem squareTurns_end : ∃ s, (system square 4).Reachable s ∧ ∀ i < 2, Ended (s.thread i) := by
  have h : ((system square 4).run squareTurns).any fun s =>
      Ended (s.thread 0) ∧ Ended (s.thread 1) := by decide +kernel
  obtain ⟨s, hs, hended⟩ := (Option.any_eq_true _ _).mp h
  obtain ⟨h0, h1⟩ := of_decide_eq_true hended
  refine ⟨s, System.reachable_run hs, fun i hi => ?_⟩
  interval_cases i
  · exact h0
  · exact h1

theorem team_spec_square : ∃ s, (system square 4).Reachable s ∧
    (∀ i < 2, (s.thread i).pc = .finished ∧ (s.thread i).reads 0 = some false ∧
      (s.thread i).reads 1 = some true) ∧
    (∀ i < 2, ∀ i' < 2, (s.thread i).place.phase ≤ (s.thread i').place.phase + 1) ∧
    (∀ k < 2, s.counted k = 1 ∧ s.switched k = 1) ∧
    (∀ i < 2, ∀ i' < 2, ∀ k v v', (s.thread i).reads k = some v →
      (s.thread i').reads k = some v' → v = v') ∧
    ∃ k, (scheme (initSharedData square 4) 4 3).Equilibrium square.load.grid k ∧
      (joined s).2 = k % 2 ^ 64 ∧ ∀ row col, row < 4 → col < 3 → (joined s).1.grid (row, col) =
        (scheme (initSharedData square 4) 4 3).state square.load.grid k (row, col) := by
  obtain ⟨s, hr, hended⟩ := squareTurns_end
  have hteam : (initSharedData square 4).threadCount = 2 := by decide +kernel
  obtain ⟨hphase, hcount, hreads, hresult⟩ := team_spec square (by decide) 4 (by norm_num) hr
  rw [hteam] at hphase hcount hreads hresult
  refine ⟨s, hr, fun i hi => ?_, hphase, fun k hk => ?_, hreads,
    hresult fun i hi => (hended i hi).1⟩
  · obtain ⟨hpc, -, h0, h1⟩ := hended i hi
    exact ⟨hpc, h0, h1⟩
  · refine (hcount k).2.2 0 (by norm_num) ?_
    rw [(hended 0 (by norm_num)).2.1]
    omega

end Concurrente.Heat.Optimized
