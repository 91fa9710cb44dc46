import Concurrente.Heat.Optimized.Team

/-!
# Phases of the team

The invariant of `equilibrate_plate_concurrent`.  A state of the simulation has
four phases, one for each wait: in the first the rows are updated, in the second
the serial thread swaps the matrices, in the third the flag is read, and in the
fourth another serial thread resets it.
-/

namespace Concurrente.Heat.Optimized

open Flat

namespace Pc

def phase : Pc → ℕ
  | .reset => 0
  | .row _ => 0
  | .merge => 0
  | .arrive site | .wait site _ => site.phase
  | .countState | .setAuxiliary => 1
  | .readDone | .finished => 2
  | .resetShared => 3

def ticket : Pc → Option ℕ
  | .wait _ ticket => some ticket
  | _ => none

/-- The rows of the block below this one are up to date. -/
def nextRow {α : Type*} (team : Team α) (i : ℕ) : Pc → ℕ
  | .row r => r
  | .merge | .arrive .afterRows | .wait .afterRows _ => team.finishRow i
  | _ => team.startingRow i

def merged : Pc → Bool
  | .arrive .afterRows | .wait .afterRows _ => true
  | _ => false

/-- A serial thread of the first wait has incremented `k_states`. -/
def counted : Pc → Bool
  | .wait .afterRows _ | .countState => false
  | _ => true

/-- A serial thread of the first wait has called `set_auxiliary`. -/
def switched : Pc → Bool
  | .wait .afterRows _ | .countState | .setAuxiliary => false
  | _ => true

/-- The thread has read that the plate is not in equilibrium. -/
def continues : Pc → Bool
  | .arrive .beforeReset | .wait .beforeReset _ => true
  | _ => false

/-- A serial thread of the third wait has reset the flag. -/
def cleared : Pc → Bool
  | .wait .beforeReset _ | .resetShared => false
  | _ => true

theorem phase_lt (pc : Pc) : pc.phase < 4 := by
  cases pc with
  | arrive site => cases site <;> simp [phase, Site.phase]
  | wait site => cases site <;> simp [phase, Site.phase]
  | _ => simp [phase]

end Pc

def Thread.place (th : Thread) : Place := ⟨4 * th.stateNumber + th.pc.phase, th.pc.ticket⟩

section Stages

variable {α : Type*} [Temperature α] (team : Team α) {rows cols : ℕ} (hs : rows * cols < 2 ^ 61)
  (T : Cell → α) (j : ℕ)

abbrev scheme (rows cols : ℕ) : Scheme Cell α :=
  (stencil team.multConstant team.epsilon).scheme rows cols

abbrev buffers : Buffers (scheme team rows cols) (PlateMatrix α) :=
  flat rows cols team.multConstant team.epsilon hs

/-- The blocks of the team cover the interior rows. -/
abbrev TeamCover (rows : ℕ) : Prop :=
  Cover team.threadCount team.startingRow team.finishRow rows

/-- What the flag of a thread says while the thread updates its rows. -/
def Own (rows cols i : ℕ) (th : Thread) : Prop :=
  match th.pc with
  | .row row => team.startingRow i ≤ row ∧ row ≤ team.finishRow i ∧
      (th.equilibrated = true ↔ RowsSettled (scheme team rows cols) T j (team.startingRow i) row)
  | .merge => th.equilibrated = true ↔ RowsSettled (scheme team rows cols) T j
      (team.startingRow i) (team.finishRow i)
  | _ => True

/-- The cells of the rows that are up to date. -/
def cellsDone (s : State α) : Set Cell :=
  rowsDone team.threadCount team.startingRow fun i => (s.thread i).pc.nextRow team i

/-- One event in each state before `j`. -/
def once : ℕ → ℕ := fun k => if k < j then 1 else 0

structure Working (s : State α) : Prop where
  sweeping : (buffers team hs).Sweeping T j (cellsDone team s) s.plateMatrix
  own : ∀ i < team.threadCount, Own team T j rows cols i (s.thread i)
  flag : s.equilibratedPlate = true ↔ ∀ i < team.threadCount, (s.thread i).pc.merged = true →
    RowsSettled (scheme team rows cols) T j
      (team.startingRow i) (team.finishRow i)
  kStates : s.kStates = u64 j
  counted : s.counted = once j
  switched : s.switched = once j

structure Switching (s : State α) : Prop where
  only : ∀ i < team.threadCount, (s.thread i).pc = .countState ∨ (s.thread i).pc = .setAuxiliary →
    i = (s.barrier false).serial
  flag : s.equilibratedPlate = true ↔ (scheme team rows cols).Settled T j
  sweeping : (buffers team hs).Sweeping T
    (j + (s.thread (s.barrier false).serial).pc.switched.toNat)
    {_c | (s.thread (s.barrier false).serial).pc.switched = false} s.plateMatrix
  kStates : s.kStates = u64 (j + (s.thread (s.barrier false).serial).pc.counted.toNat)
  counted : s.counted = once (j + (s.thread (s.barrier false).serial).pc.counted.toNat)
  switched : s.switched = once (j + (s.thread (s.barrier false).serial).pc.switched.toNat)

structure Reading (s : State α) : Prop where
  flag : s.equilibratedPlate = true ↔ (scheme team rows cols).Settled T j
  finished : ∀ i < team.threadCount, (s.thread i).pc = .finished →
    (scheme team rows cols).Settled T j
  continues : ∀ i < team.threadCount, (s.thread i).pc.continues = true →
    ¬ (scheme team rows cols).Settled T j
  sweeping : (buffers team hs).Sweeping T (j + 1) ∅ s.plateMatrix
  kStates : s.kStates = u64 (j + 1)
  counted : s.counted = once (j + 1)
  switched : s.switched = once (j + 1)

structure Resetting (s : State α) : Prop where
  only : ∀ i < team.threadCount, (s.thread i).pc = .resetShared → i = (s.barrier false).serial
  flag : s.equilibratedPlate = (s.thread (s.barrier false).serial).pc.cleared
  notSettled : ¬ (scheme team rows cols).Settled T j
  sweeping : (buffers team hs).Sweeping T (j + 1) ∅ s.plateMatrix
  kStates : s.kStates = u64 (j + 1)
  counted : s.counted = once (j + 1)
  switched : s.switched = once (j + 1)

/-- State number `j` of the simulation is in the phase of the given wait. -/
def Stage (s : State α) : Site → Prop
  | .afterRows => Working team hs T j s
  | .beforeRead => Switching team hs T j s
  | .beforeReset => Reading team hs T j s
  | .beforeNext => Resetting team hs T j s

structure Inv (s : State α) (site : Site) : Prop where
  lockstep : Lockstep team.threadCount (fun i => (s.thread i).place) s.barrier (4 * j + site.phase)
  serial_lt : (s.barrier false).serial < team.threadCount
  reads : ∀ i < team.threadCount, ∀ k v, (s.thread i).reads k = some v →
    (v = true ↔ (scheme team rows cols).Settled T k)
  notSettled : ∀ k < j, ¬ (scheme team rows cols).Settled T k
  stage : Stage team hs T j s site

end Stages

section Moves

variable {α : Type*} [Temperature α] {team : Team α} {rows cols : ℕ} {hs : rows * cols < 2 ^ 61}
  {T : Cell → α} {j : ℕ} {s : State α} {site : Site} {i : ℕ} {th : Thread}

theorem once_succ (j : ℕ) : Function.update (once j) j (once j j + 1) = once (j + 1) := by
  funext k
  by_cases hk : k = j
  · subst hk
    simp [once]
  · rw [Function.update_of_ne hk]
    simp only [once]
    split_ifs <;> omega

omit [Temperature α] in
theorem cellsDone_move (barrier : Bool → Barrier)
    (hrow : th.pc.nextRow team i = (s.thread i).pc.nextRow team i) :
    cellsDone team { s.setThread i th with barrier := barrier } = cellsDone team s := by
  unfold cellsDone
  congr 1
  funext k
  exact observe_update (fun (k : ℕ) (th : Thread) => th.pc.nextRow team k) hrow k

theorem Working.move (h : Working team hs T j s) (barrier : Bool → Barrier)
    (hrow : th.pc.nextRow team i = (s.thread i).pc.nextRow team i)
    (hmerged : th.pc.merged = (s.thread i).pc.merged) (hown : Own team T j rows cols i th) :
    Working team hs T j { s.setThread i th with barrier := barrier } where
  sweeping := by
    rw [cellsDone_move barrier hrow]
    exact h.sweeping
  own := forall_update (Own team T j rows cols) h.own hown
  flag := by
    refine h.flag.trans (forall₂_congr fun k _ => ?_)
    rw [show ({ s.setThread i th with barrier := barrier } : State α).thread k =
      Function.update s.thread i th k from rfl,
      observe_update (fun (_ : ℕ) (th : Thread) => th.pc.merged) hmerged k]
  kStates := h.kStates
  counted := h.counted
  switched := h.switched

omit [Temperature α] in
theorem observe_serial {γ : Type*} (g : Pc → γ) {serial : ℕ}
    (h : i = serial → g th.pc = g (s.thread i).pc) :
    g (Function.update s.thread i th serial).pc = g (s.thread serial).pc := by
  by_cases hi : i = serial
  · subst hi
    rw [Function.update_self, h rfl]
  · rw [Function.update_of_ne (Ne.symm hi)]

theorem Switching.move (h : Switching team hs T j s) {barrier : Bool → Barrier}
    (hb : (barrier false).serial = (s.barrier false).serial)
    (honly : th.pc = .countState ∨ th.pc = .setAuxiliary → i = (s.barrier false).serial)
    (hcounted : i = (s.barrier false).serial → th.pc.counted = (s.thread i).pc.counted)
    (hswitched : i = (s.barrier false).serial → th.pc.switched = (s.thread i).pc.switched) :
    Switching team hs T j { s.setThread i th with barrier := barrier } := by
  have ho : ∀ k < team.threadCount, (Function.update s.thread i th k).pc = .countState ∨
      (Function.update s.thread i th k).pc = .setAuxiliary → k = (s.barrier false).serial :=
    forall_update (fun k (th : Thread) => th.pc = .countState ∨ th.pc = .setAuxiliary →
      k = (s.barrier false).serial) h.only honly
  constructor <;> simp only [State.setThread, hb, observe_serial Pc.counted hcounted,
    observe_serial Pc.switched hswitched]
  · exact ho
  · exact h.flag
  · exact h.sweeping
  · exact h.kStates
  · exact h.counted
  · exact h.switched

theorem Reading.move (h : Reading team hs T j s) (barrier : Bool → Barrier)
    (hfin : th.pc = .finished → (scheme team rows cols).Settled T j)
    (hcont : th.pc.continues = true → ¬ (scheme team rows cols).Settled T j) :
    Reading team hs T j { s.setThread i th with barrier := barrier } :=
  { h with
    finished := forall_update (fun _ (th : Thread) => th.pc = .finished → _) h.finished hfin
    continues := forall_update (fun _ (th : Thread) => th.pc.continues = true → _)
      h.continues hcont }

theorem Resetting.move (h : Resetting team hs T j s) {barrier : Bool → Barrier}
    (hb : (barrier false).serial = (s.barrier false).serial)
    (honly : th.pc = .resetShared → i = (s.barrier false).serial)
    (hcleared : i = (s.barrier false).serial → th.pc.cleared = (s.thread i).pc.cleared) :
    Resetting team hs T j { s.setThread i th with barrier := barrier } := by
  have ho : ∀ k < team.threadCount, (Function.update s.thread i th k).pc = .resetShared →
      k = (s.barrier false).serial :=
    forall_update (fun k (th : Thread) => th.pc = .resetShared → k = (s.barrier false).serial)
      h.only honly
  refine ⟨?_, ?_, h.notSettled, h.sweeping, h.kStates, h.counted, h.switched⟩ <;>
    simp only [State.setThread, hb, observe_serial Pc.cleared hcleared]
  · exact ho
  · exact h.flag

theorem Inv.phase_eq (h : Inv team hs T j s site) (hi : i < team.threadCount)
    (ht : (s.thread i).pc.ticket = none) :
    (s.thread i).stateNumber = j ∧ (s.thread i).pc.phase = site.phase := by
  have := h.lockstep.phase_eq hi ht
  have := (s.thread i).pc.phase_lt
  have : site.phase < 4 := by cases site <;> decide
  simp only [Thread.place] at *
  omega

theorem Site.phase_injective : Function.Injective Site.phase := by
  intro a b h
  cases a <;> cases b <;> first | rfl | cases h

theorem Inv.move (h : Inv team hs T j s site) {t : State α}
    (ht : t.thread = Function.update s.thread i th) (hb : t.barrier = s.barrier)
    (hplace : th.place = (s.thread i).place)
    (hreads : ∀ k v, th.reads k = some v → (v = true ↔ (scheme team rows cols).Settled T k))
    (hstage : Stage team hs T j t site) : Inv team hs T j t site where
  lockstep := by
    rw [ht, hb]
    exact h.lockstep.congr fun k _ =>
      observe_update (fun (_ : ℕ) (th : Thread) => th.place) hplace k
  serial_lt := by
    rw [hb]
    exact h.serial_lt
  reads := by
    rw [ht]
    exact forall_update (fun _ (th : Thread) => ∀ k v, th.reads k = some v →
      (v = true ↔ (scheme team rows cols).Settled T k)) h.reads hreads
  notSettled := h.notSettled
  stage := hstage

end Moves

end Concurrente.Heat.Optimized
