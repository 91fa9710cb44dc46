import Concurrente.Heat.Optimized.Results
import Concurrente.Iteration

/-!
# The team of pthread_optimized ends

As long as some thread has not finished, a thread can move, and each move brings its
thread closer to the end of its phase.  So the program iterates the scheme.
-/

namespace Concurrente.Heat.Optimized

open Flat

variable {α : Type*} [Temperature α]

/-- `equilibrate_plate` from the creation of the threads on. -/
def program (plate : Plate α) (threadCount : ℕ) : Program Cell α (State α) Action where
  toSystem := system plate threadCount
  left s := ∀ i < (initSharedData plate threadCount).threadCount, (s.thread i).pc = .finished
  outcome s := ⟨(joined s).2, (joined s).1.grid⟩

/-- The steps that are left to a thread in its phase, at most. -/
def Pc.rest (team : Team α) (i : ℕ) : Pc → ℕ
  | .reset => team.finishRow i - team.startingRow i + 5
  | .row r => team.finishRow i - r + 4
  | .countState => 4
  | .merge | .setAuxiliary | .readDone | .resetShared => 3
  | .arrive _ => 2
  | .wait _ _ => 1
  | .finished => 0

/-- More than the steps of any thread in a phase. -/
def phaseSteps (team : Team α) : ℕ :=
  ∑ i ∈ Finset.range team.threadCount, (team.finishRow i - team.startingRow i) + 6

/-- The steps that are left to a thread before the end of state `k`. -/
def Thread.rest (team : Team α) (k i : ℕ) (th : Thread) : ℕ :=
  (4 * k - th.place.phase) * phaseSteps team + th.pc.rest team i

def measure (team : Team α) (k : ℕ) (s : State α) : ℕ :=
  ∑ i ∈ Finset.range team.threadCount, (s.thread i).rest team k i

section Steps

variable {team : Team α} {s t : State α} {i serial k : ℕ}

omit [Temperature α] in
theorem reset_rest_lt (hi : i < team.threadCount) : Pc.reset.rest team i < phaseSteps team := by
  have hle := weight_le_sum (Finset.mem_range.mpr hi) fun i =>
    team.finishRow i - team.startingRow i
  simp only [Pc.rest, phaseSteps]
  omega

theorem Site.phase_lt (site : Site) : site.phase < 4 := by
  cases site <;> decide

theorem leave_place (th : Thread) (serial : Bool) {site : Site} {ticket : ℕ}
    (hpc : th.pc = .wait site ticket) :
    (th.leave serial site).place.phase = th.place.phase + 1 := by
  cases site with
  | afterRows => cases serial <;> simp [Thread.leave, Thread.place, hpc, Pc.phase, Site.phase]
  | beforeRead => simp [Thread.leave, Thread.place, hpc, Pc.phase, Site.phase]
  | beforeReset => cases serial <;> simp [Thread.leave, Thread.place, hpc, Pc.phase, Site.phase]
  | beforeNext =>
    simp only [Thread.leave, Thread.place, hpc, Pc.phase, Site.phase]
    omega

omit [Temperature α] in
theorem leave_rest_le (team : Team α) (i : ℕ) (th : Thread) (serial : Bool) (site : Site) :
    (th.leave serial site).pc.rest team i ≤ Pc.reset.rest team i := by
  cases site <;> cases serial <;> simp [Thread.leave, Pc.rest]

theorem step_rest (hi : i < team.threadCount)
    (h : equilibratePlateConcurrent team s i serial = some t) : ∃ th,
      t.thread = Function.update s.thread i th ∧
        (th.place.phase = (s.thread i).place.phase ∧
            th.pc.rest team i < (s.thread i).pc.rest team i ∨
          th.place.phase = (s.thread i).place.phase + 1 ∧ th.pc.rest team i < phaseSteps team) := by
  unfold equilibratePlateConcurrent at h
  dsimp only at h
  -- only a wait leads to the next phase, all other steps leave fewer in this one
  cases hpc : (s.thread i).pc with
  | reset =>
    rw [hpc] at h
    cases h
    refine ⟨_, rfl, Or.inl ⟨?_, ?_⟩⟩
    · simp only [Thread.place, hpc, Pc.phase]
    · simp only [Pc.rest]
      omega
  | row row =>
    rw [hpc] at h
    dsimp only at h
    split at h
    next hrow =>
      cases h
      refine ⟨_, rfl, Or.inl ⟨?_, ?_⟩⟩
      · simp only [Thread.place, hpc, Pc.phase]
      · simp only [Pc.rest]
        omega
    next =>
      cases h
      refine ⟨_, rfl, Or.inl ⟨?_, ?_⟩⟩
      · simp only [Thread.place, hpc, Pc.phase]
      · simp only [Pc.rest]
        omega
  | wait site ticket =>
    rw [hpc] at h
    dsimp only at h
    split at h
    next =>
      cases h
      exact ⟨_, rfl, Or.inr ⟨leave_place _ _ hpc,
        (leave_rest_le team i _ _ site).trans_lt (reset_rest_lt hi)⟩⟩
    next => cases h
  | readDone =>
    rw [hpc] at h
    cases h
    refine ⟨_, rfl, Or.inl ⟨?_, ?_⟩⟩
    · cases s.equilibratedPlate <;> simp [Thread.place, hpc, Pc.phase, Site.phase]
    · cases s.equilibratedPlate <;> simp [Pc.rest]
  | finished =>
    rw [hpc] at h
    cases h
  | _ =>
    rw [hpc] at h
    cases h
    refine ⟨_, rfl, Or.inl ⟨?_, ?_⟩⟩
    · simp only [Thread.place, hpc, Pc.phase, Site.phase]
    · simp [Pc.rest]

theorem measure_lt (hi : i < team.threadCount)
    (h : equilibratePlateConcurrent team s i serial = some t)
    (hk : (t.thread i).place.phase ≤ 4 * k) : measure team k t < measure team k s := by
  obtain ⟨th, ht, hth⟩ := step_rest hi h
  have hsum := sum_update (Finset.mem_range.mpr hi) s.thread (fun i th => th.rest team k i) th
  have hlt : th.rest team k i < (s.thread i).rest team k i := by
    rw [ht, Function.update_self] at hk
    simp only [Thread.rest]
    obtain ⟨hphase, hrest⟩ | ⟨hphase, hrest⟩ := hth
    · rw [hphase]
      omega
    · have hmul : (4 * k - (s.thread i).place.phase) * phaseSteps team =
          (4 * k - th.place.phase) * phaseSteps team + phaseSteps team := by
        rw [← Nat.succ_mul]
        congr 1
        omega
      omega
  simp only [measure, ht]
  omega

theorem eq_of_blocked (h : equilibratePlateConcurrent team s i serial = none) :
    (s.thread i).pc = .finished ∨
      ∃ site, (s.thread i).pc = .wait site (s.barrier site.second).generation := by
  unfold equilibratePlateConcurrent at h
  dsimp only at h
  cases hpc : (s.thread i).pc with
  | finished => exact Or.inl rfl
  | wait site ticket =>
    rw [hpc] at h
    dsimp only at h
    split at h
    next => cases h
    next hg =>
      rw [not_not] at hg
      exact Or.inr ⟨site, by rw [hg]⟩
  | row row =>
    rw [hpc] at h
    dsimp only at h
    split at h <;> cases h
  | _ =>
    rw [hpc] at h
    cases h

variable {rows cols : ℕ} {hs : rows * cols < 2 ^ 61} {T : Cell → α} {j : ℕ} {site : Site}

theorem Inv.wait_phase (h : Inv team hs T j s site) (hi : i < team.threadCount) {wait : Site}
    (hpc : (s.thread i).pc = .wait wait (s.barrier wait.second).generation) :
    (s.thread i).place.phase = 4 * j + site.phase := by
  obtain hphase | ⟨hphase, -⟩ := h.lockstep.near i hi
  · exact hphase
  · have hticket := h.lockstep.ticket i hi (s.barrier wait.second).generation
      (by simp only [Thread.place, hpc, Pc.ticket])
    have hbodd : (s.thread i).place.phase.bodd = wait.second := by
      simp only [Thread.place, hpc, Pc.phase]
      exact Site.bodd_phase _ wait
    rw [h.lockstep.generation, ← hphase, ← hbodd, Lockstep.openings_succ,
      Lockstep.openings_bodd] at hticket
    exact absurd hticket (Nat.succ_ne_self _)

theorem Inv.finished_of_blocked (h : Inv team hs T j s site)
    (hb : ∀ i < team.threadCount, equilibratePlateConcurrent team s i 0 = none)
    (hi : i < team.threadCount) : (s.thread i).pc = .finished := by
  have hphase : ∀ i < team.threadCount, (s.thread i).place.phase = 4 * j + site.phase := by
    intro i hi
    obtain hfin | ⟨wait, hwait⟩ := eq_of_blocked (hb i hi)
    · exact h.lockstep.phase_eq hi (by simp only [Thread.place, hfin, Pc.ticket])
    · exact h.wait_phase hi hwait
  by_cases hex : ∃ i < team.threadCount, (s.thread i).pc = .finished
  · obtain ⟨i', hi', hfin⟩ := hex
    obtain rfl : site = .beforeReset := h.site_eq hi' (by rw [hfin]; rfl) (by rw [hfin]; rfl)
    have hread : Reading team hs T j s := h.stage
    obtain hfin' | ⟨wait, hwait⟩ := eq_of_blocked (hb i hi)
    · exact hfin'
    · have hplace := hphase i hi
      have hlt := wait.phase_lt
      have hlt' := Site.beforeReset.phase_lt
      simp only [Thread.place, hwait, Pc.phase] at hplace
      obtain rfl : wait = .beforeReset := Site.phase_injective (by omega)
      exact absurd (hread.finished i' hi' hfin) (hread.continues i hi (by rw [hwait]; rfl))
  · have hsum := h.lockstep.arrived
    have hlt := h.lockstep.arrived_lt
    rw [hsum, Finset.sum_congr rfl (g := fun _ => 1), Finset.sum_const, Finset.card_range,
      smul_eq_mul, Nat.mul_one] at hlt
    · exact absurd hlt (lt_irrefl _)
    · intro i hi
      have hi := Finset.mem_range.mp hi
      obtain hfin | ⟨wait, hwait⟩ := eq_of_blocked (hb i hi)
      · exact absurd ⟨i, hi, hfin⟩ hex
      · refine if_pos ⟨hphase i hi, ?_⟩
        simp only [Thread.place, hwait, Pc.ticket]
        exact Option.some_ne_none _

end Steps

theorem iterates {plate : Plate α} {threadCount : ℕ} (hr : 3 ≤ plate.rows) (ht : 1 ≤ threadCount) :
    (program plate threadCount).Iterates
      (scheme (initSharedData plate threadCount) plate.rows plate.cols) plate.load.grid
      (2 ^ 64) where
  stuck_left s hs hst := by
    obtain ⟨j, site, hj⟩ := reachable_inv hr ht hs
    intro i hi
    refine hj.finished_of_blocked (fun i hi => ?_) hi
    have hnone := hst ⟨i, 0⟩
    simp only [program, system] at hnone
    rwa [if_pos ⟨hi, threadCount_pos hr ht⟩] at hnone
  outcome s hs hl := by
    obtain ⟨j, site, hj⟩ := reachable_inv hr ht hs
    obtain ⟨heq, hk, hgrid⟩ := hj.joined_eq (cover hr ht) hl
    exact ⟨j + 1, heq, hk, hgrid⟩
  terminates k hk := by
    refine ⟨measure (initSharedData plate threadCount) k, fun s a t hs ha => ?_⟩
    obtain ⟨j, site, hj⟩ := reachable_inv hr ht (System.Reachable.step hs ha)
    simp only [program, system] at ha
    split at ha
    next hlt =>
      refine measure_lt hlt.1 ha ?_
      have hle := (hj.lockstep.phase_le hlt.1).1
      have hphase := site.phase_lt
      have hlt : ¬ k - 1 < j := fun hlt => hj.notSettled (k - 1) hlt hk.1.2
      have := hk.1.1
      omega
    next => cases ha

end Concurrente.Heat.Optimized
