import Concurrente.Heat.Optimized.Invariant

/-!
# Every step keeps the phases

One lemma for each atomic step of a thread, and the four places where the whole
team has arrived at a wait and the next phase begins.
-/

namespace Concurrente.Heat.Optimized

open Flat

variable {α : Type*} [Temperature α] {team : Team α} {rows cols : ℕ} {hs : rows * cols < 2 ^ 61}
  {T : Cell → α} {j : ℕ} {s : State α} {site : Site} {i : ℕ} {th : Thread}

theorem Inv.site_eq (h : Inv team hs T j s site) (hi : i < team.threadCount)
    (ht : (s.thread i).pc.ticket = none) {site' : Site}
    (hp : (s.thread i).pc.phase = site'.phase) : site = site' :=
  Site.phase_injective ((h.phase_eq hi ht).2.symm.trans hp)

theorem Inv.reset (h : Inv team hs T j s site) (hC : TeamCover team rows)
    (hi : i < team.threadCount)
    (hp : (s.thread i).pc = .reset) :
    Inv team hs T j (s.setThread i { s.thread i with
      equilibrated := true, pc := .row (team.startingRow i) }) site := by
  obtain rfl : site = .afterRows := h.site_eq hi (by rw [hp]; rfl) (by rw [hp]; rfl)
  have hw : Working team hs T j s := h.stage
  refine h.move rfl rfl (by simp only [Thread.place, hp, Pc.phase, Pc.ticket]) (h.reads i hi) ?_
  refine hw.move s.barrier (by simp only [hp, Pc.nextRow]) (by simp only [hp, Pc.merged]) ?_
  refine ⟨le_rfl, hC.le i hi, iff_of_true rfl fun r h1 h2 => ?_⟩
  omega

theorem Inv.row (h : Inv team hs T j s site) (hC : TeamCover team rows) (hc : 1 ≤ cols)
    (hi : i < team.threadCount) {row : ℕ} (hp : (s.thread i).pc = .row row)
    (hrow : row < team.finishRow i) {x : PlateMatrix α × Bool}
    (hx : equilibrateRow team.multConstant team.epsilon (s.plateMatrix, (s.thread i).equilibrated)
      row = x) :
    Inv team hs T j { s.setThread i { s.thread i with
      equilibrated := x.2, pc := .row (row + 1) } with plateMatrix := x.1 } site := by
  obtain rfl : site = .afterRows := h.site_eq hi (by rw [hp]; rfl) (by rw [hp]; rfl)
  have hw : Working team hs T j s := h.stage
  have ho := hw.own i hi
  simp only [Own, hp] at ho
  obtain ⟨h1, -, hflag⟩ := ho
  obtain ⟨hr1, hr2⟩ := hC.interior i hi row h1 hrow
  obtain ⟨hsw, hf⟩ := equilibrateRow_spec hw.sweeping hr1 hr2 hc (s.thread i).equilibrated
  rw [hx] at hsw hf
  refine h.move rfl rfl (by simp only [Thread.place, hp, Pc.phase, Pc.ticket]) (h.reads i hi) ?_
  have hm := hw.flag
  refine ⟨⟨hsw.1, hsw.2.of_inner ?_⟩, forall_update (Own team T j rows cols) hw.own ?_,
    hm.trans (forall₂_congr fun k _ => ?_), hw.kStates, hw.counted, hw.switched⟩
  · rintro c - ⟨k, hk, hk1, hk2⟩
    simp only [State.setThread] at hk2
    by_cases hki : k = i
    · subst hki
      simp only [Function.update_self, Pc.nextRow] at hk2
      by_cases hcr : c.1 = row
      · exact Or.inr hcr
      · refine Or.inl ⟨k, hk, hk1, ?_⟩
        simp only [hp, Pc.nextRow]
        omega
    · rw [Function.update_of_ne hki] at hk2
      exact Or.inl ⟨k, hk, hk1, hk2⟩
  · refine ⟨by omega, hrow, ?_⟩
    rw [hf, hflag, rowsSettled_succ h1]
  · simp only [State.setThread]
    rw [observe_update (fun (_ : ℕ) (th : Thread) => th.pc.merged) (by simp only [hp, Pc.merged]) k]

theorem Inv.rowsEnd (h : Inv team hs T j s site) (hi : i < team.threadCount) {row : ℕ}
    (hp : (s.thread i).pc = .row row) (hrow : ¬ row < team.finishRow i) :
    Inv team hs T j (s.setThread i { s.thread i with pc := .merge }) site := by
  obtain rfl : site = .afterRows := h.site_eq hi (by rw [hp]; rfl) (by rw [hp]; rfl)
  have hw : Working team hs T j s := h.stage
  have ho := hw.own i hi
  simp only [Own, hp] at ho
  obtain ⟨-, h2, hflag⟩ := ho
  obtain rfl : row = team.finishRow i := by omega
  refine h.move rfl rfl (by simp only [Thread.place, hp, Pc.phase, Pc.ticket]) (h.reads i hi) ?_
  exact hw.move s.barrier (by simp only [hp, Pc.nextRow]) (by simp only [hp, Pc.merged]) hflag

theorem Inv.merge (h : Inv team hs T j s site) (hi : i < team.threadCount)
    (hp : (s.thread i).pc = .merge) :
    Inv team hs T j { s.setThread i { s.thread i with pc := .arrive .afterRows } with
      equilibratedPlate := s.equilibratedPlate && (s.thread i).equilibrated } site := by
  obtain rfl : site = .afterRows := h.site_eq hi (by rw [hp]; rfl) (by rw [hp]; rfl)
  have hw : Working team hs T j s := h.stage
  have ho := hw.own i hi
  simp only [Own, hp] at ho
  refine h.move rfl rfl (by simp only [Thread.place, hp, Pc.phase, Pc.ticket, Site.phase])
    (h.reads i hi) ?_
  refine ⟨?_, forall_update (Own team T j rows cols) hw.own trivial, ?_, hw.kStates, hw.counted,
    hw.switched⟩
  · have hrow : ({ s.thread i with pc := .arrive .afterRows } : Thread).pc.nextRow team i =
        (s.thread i).pc.nextRow team i := by simp only [hp, Pc.nextRow]
    have hsw := hw.sweeping
    rwa [← cellsDone_move s.barrier hrow] at hsw
  · simp only [State.setThread, Bool.and_eq_true, hw.flag, ho]
    constructor
    · rintro ⟨hall, hself⟩ k hk hm
      by_cases hki : k = i
      · rwa [hki]
      · rw [Function.update_of_ne hki] at hm
        exact hall k hk hm
    · intro hall
      refine ⟨fun k hk hm => hall k hk ?_, hall i hi ?_⟩
      · by_cases hki : k = i
        · rw [hki, Function.update_self]
          rfl
        · rwa [Function.update_of_ne hki]
      · rw [Function.update_self]
        rfl

theorem Inv.countState (h : Inv team hs T j s site) (hi : i < team.threadCount)
    (hp : (s.thread i).pc = .countState) :
    Inv team hs T j { s.setThread i { s.thread i with pc := .setAuxiliary } with
      kStates := u64 (s.kStates + 1)
      counted := Function.update s.counted (s.thread i).stateNumber
        (s.counted (s.thread i).stateNumber + 1) } site := by
  obtain rfl : site = .beforeRead := h.site_eq hi (by rw [hp]; rfl) (by rw [hp]; rfl)
  have hw : Switching team hs T j s := h.stage
  have hn := (h.phase_eq hi (by rw [hp]; rfl)).1
  have hser := hw.only i hi (Or.inl hp)
  have hsw := hw.sweeping
  have hk := hw.kStates
  have hcd := hw.counted
  have hwd := hw.switched
  rw [← hser] at hsw hk hcd hwd
  simp only [hp, Pc.counted, Pc.switched] at hsw hk hcd hwd
  refine h.move rfl rfl (by simp only [Thread.place, hp, Pc.phase, Pc.ticket]) (h.reads i hi) ?_
  refine ⟨forall_update (fun k (th : Thread) => th.pc = .countState ∨ th.pc = .setAuxiliary →
    k = (s.barrier false).serial) hw.only fun _ => hser, hw.flag, ?_, ?_, ?_, ?_⟩ <;>
    simp only [State.setThread, ← hser, Function.update_self, Pc.counted, Pc.switched]
  · exact hsw
  · rw [hk, u64_succ]
    rfl
  · rw [hn, hcd]
    exact once_succ j
  · exact hwd

theorem Inv.setAuxiliary (h : Inv team hs T j s site) (hi : i < team.threadCount)
    (hp : (s.thread i).pc = .setAuxiliary) :
    Inv team hs T j { s.setThread i { s.thread i with pc := .arrive .beforeRead } with
      plateMatrix := Flat.setAuxiliary s.plateMatrix
      switched := Function.update s.switched (s.thread i).stateNumber
        (s.switched (s.thread i).stateNumber + 1) } site := by
  obtain rfl : site = .beforeRead := h.site_eq hi (by rw [hp]; rfl) (by rw [hp]; rfl)
  have hw : Switching team hs T j s := h.stage
  have hn := (h.phase_eq hi (by rw [hp]; rfl)).1
  have hser := hw.only i hi (Or.inr hp)
  have hsw := hw.sweeping
  have hk := hw.kStates
  have hcd := hw.counted
  have hwd := hw.switched
  rw [← hser] at hsw hk hcd hwd
  simp only [hp, Pc.counted, Pc.switched] at hsw hk hcd hwd
  refine h.move rfl rfl (by simp only [Thread.place, hp, Pc.phase, Pc.ticket, Site.phase])
    (h.reads i hi) ?_
  refine ⟨forall_update (fun k (th : Thread) => th.pc = .countState ∨ th.pc = .setAuxiliary →
    k = (s.barrier false).serial) hw.only fun _ => hser, hw.flag, ?_, ?_, ?_, ?_⟩ <;>
    simp only [State.setThread, ← hser, Function.update_self, Pc.counted, Pc.switched]
  · exact ⟨hsw.1, (hsw.2.swap fun _ _ => trivial).mono fun _ hc => by cases hc⟩
  · exact hk
  · exact hcd
  · rw [hn, hwd]
    exact once_succ j

theorem Inv.readDone (h : Inv team hs T j s site) (hi : i < team.threadCount)
    (hp : (s.thread i).pc = .readDone) :
    Inv team hs T j (s.setThread i { s.thread i with
      reads := Function.update (s.thread i).reads (s.thread i).stateNumber
        (some s.equilibratedPlate)
      pc := if s.equilibratedPlate then .finished else .arrive .beforeReset }) site := by
  obtain rfl : site = .beforeReset := h.site_eq hi (by rw [hp]; rfl) (by rw [hp]; rfl)
  have hw : Reading team hs T j s := h.stage
  have hn := (h.phase_eq hi (by rw [hp]; rfl)).1
  refine h.move rfl rfl ?_ ?_ ?_
  · simp only [Thread.place, hp]
    split_ifs <;> rfl
  · intro k v hk
    simp only [hn] at hk
    by_cases hkj : k = j
    · subst hkj
      rw [Function.update_self] at hk
      rw [← Option.some.inj hk]
      exact hw.flag
    · rw [Function.update_of_ne hkj] at hk
      exact h.reads i hi k v hk
  · refine hw.move s.barrier ?_ ?_
    · intro hf
      by_contra hset
      simp [mt hw.flag.mp hset] at hf
    · intro hf hset
      simp [hw.flag.mpr hset, Pc.continues] at hf

theorem Inv.resetShared (h : Inv team hs T j s site) (hi : i < team.threadCount)
    (hp : (s.thread i).pc = .resetShared) :
    Inv team hs T j { s.setThread i { s.thread i with pc := .arrive .beforeNext } with
      equilibratedPlate := true } site := by
  obtain rfl : site = .beforeNext := h.site_eq hi (by rw [hp]; rfl) (by rw [hp]; rfl)
  have hw : Resetting team hs T j s := h.stage
  have hser := hw.only i hi hp
  refine h.move rfl rfl (by simp only [Thread.place, hp, Pc.phase, Pc.ticket, Site.phase])
    (h.reads i hi) ?_
  refine ⟨forall_update (fun k (th : Thread) => th.pc = .resetShared →
    k = (s.barrier false).serial) hw.only fun _ => hser, ?_, hw.notSettled, hw.sweeping,
    hw.kStates, hw.counted, hw.switched⟩
  simp only [State.setThread, ← hser, Function.update_self, Pc.cleared]

omit [Temperature α] in
theorem place_setThread : (fun k => ((s.setThread i th).thread k).place) =
    Function.update (fun k => (s.thread k).place) i th.place := by
  funext k
  by_cases hk : k = i
  · subst hk
    simp only [State.setThread, Function.update_self]
  · simp only [State.setThread, Function.update_of_ne hk]

theorem Site.bodd_phase (n : ℕ) (site : Site) : (4 * n + site.phase).bodd = site.second := by
  cases site <;> simp [Site.phase, Site.second]

theorem Inv.leave (h : Inv team hs T j s site) (hi : i < team.threadCount)
    (he : (s.thread i).place.phase + 1 = 4 * j + site.phase)
    (hplace : th.place = ⟨4 * j + site.phase, none⟩) (hreads : th.reads = (s.thread i).reads)
    (hstage : Stage team hs T j (s.setThread i th) site) :
    Inv team hs T j (s.setThread i th) site where
  lockstep := by
    rw [place_setThread, hplace]
    exact h.lockstep.release hi he
  serial_lt := h.serial_lt
  reads := forall_update (fun _ (th : Thread) => ∀ k v, th.reads k = some v →
    (v = true ↔ (scheme team rows cols).Settled T k)) h.reads (hreads ▸ h.reads i hi)
  notSettled := h.notSettled
  stage := hstage

theorem Inv.wait (h : Inv team hs T j s site) (hi : i < team.threadCount) {wait : Site} {g : ℕ}
    (hp : (s.thread i).pc = .wait wait g) (hg : (s.barrier wait.second).generation ≠ g) :
    Inv team hs T j (s.setThread i
      ((s.thread i).leave ((s.barrier wait.second).serial = i) wait)) site := by
  have hplace : (s.thread i).place = ⟨4 * (s.thread i).stateNumber + wait.phase, some g⟩ := by
    simp only [Thread.place, hp, Pc.phase, Pc.ticket]
  -- the ticket is not the generation any more: the barrier has opened since the thread arrived
  have he : (s.thread i).place.phase + 1 = 4 * j + site.phase := by
    refine h.lockstep.phase_of_release hi (g := g) (by rw [hplace]) ?_
    rw [hplace]
    simp only [Site.bodd_phase]
    exact hg
  have he' := he
  rw [hplace] at he'
  simp only at he'
  cases wait with
  | afterRows =>
    obtain rfl : site = .beforeRead := by
      cases site <;> simp only [Site.phase] at he' ⊢ <;> omega
    have hw : Switching team hs T j s := h.stage
    refine h.leave hi he ?_ rfl ?_
    · simp only [Site.phase] at he' ⊢
      simp only [Thread.leave, Thread.place]
      split_ifs <;> simp only [Pc.phase, Pc.ticket, Site.phase, Place.mk.injEq, and_true] <;> omega
    · refine hw.move rfl ?_ ?_ ?_
      · intro hpc
        by_contra hne
        simp [Thread.leave, Site.second, Ne.symm hne] at hpc
      · intro hser
        simp only [Thread.leave, Site.second, ← hser, decide_true, if_true, hp, Pc.counted]
      · intro hser
        simp only [Thread.leave, Site.second, ← hser, decide_true, if_true, hp, Pc.switched]
  | beforeRead =>
    obtain rfl : site = .beforeReset := by
      cases site <;> simp only [Site.phase] at he' ⊢ <;> omega
    have hw : Reading team hs T j s := h.stage
    refine h.leave hi he ?_ rfl ?_
    · simp only [Site.phase] at he' ⊢
      simp only [Thread.leave, Thread.place, Pc.phase, Pc.ticket, Place.mk.injEq, and_true]
      omega
    · exact hw.move s.barrier (fun hf => by cases hf) (fun hf => by cases hf)
  | beforeReset =>
    obtain rfl : site = .beforeNext := by
      cases site <;> simp only [Site.phase] at he' ⊢ <;> omega
    have hw : Resetting team hs T j s := h.stage
    refine h.leave hi he ?_ rfl ?_
    · simp only [Site.phase] at he' ⊢
      simp only [Thread.leave, Thread.place]
      split_ifs <;> simp only [Pc.phase, Pc.ticket, Site.phase, Place.mk.injEq, and_true] <;> omega
    · refine hw.move rfl ?_ ?_
      · intro hpc
        by_contra hne
        simp [Thread.leave, Site.second, Ne.symm hne] at hpc
      · intro hser
        simp only [Thread.leave, Site.second, ← hser, decide_true, if_true, hp, Pc.cleared]
  | beforeNext =>
    obtain rfl : site = .afterRows := by
      cases site <;> simp only [Site.phase] at he' ⊢ <;> omega
    have hw : Working team hs T j s := h.stage
    refine h.leave hi he ?_ rfl ?_
    · simp only [Site.phase] at he' ⊢
      simp only [Thread.leave, Thread.place, Pc.phase, Pc.ticket, Place.mk.injEq, and_true]
      omega
    · exact hw.move s.barrier (by simp only [hp, Thread.leave, Pc.nextRow])
        (by simp only [hp, Thread.leave, Pc.merged]) trivial

def Site.next (j : ℕ) : Site → ℕ × Site
  | .afterRows => (j, .beforeRead)
  | .beforeRead => (j, .beforeReset)
  | .beforeReset => (j, .beforeNext)
  | .beforeNext => (j + 1, .afterRows)

theorem Site.next_phase (j : ℕ) (site : Site) :
    4 * (site.next j).1 + (site.next j).2.phase = 4 * j + site.phase + 1 := by
  cases site with
  | beforeNext =>
    simp only [Site.next, Site.phase]
    omega
  | _ => rfl

theorem Working.toSwitching (hC : TeamCover team rows) (hw : Working team hs T j s)
    (hser : (s.barrier false).serial < team.threadCount)
    (hall : ∀ k < team.threadCount, ∃ g, (s.thread k).pc = .wait .afterRows g) :
    Switching team hs T j s := by
  obtain ⟨g, hg⟩ := hall _ hser
  have hcd : (s.thread (s.barrier false).serial).pc.counted = false := by rw [hg]; rfl
  have hsd : (s.thread (s.barrier false).serial).pc.switched = false := by rw [hg]; rfl
  refine ⟨fun k hk hpc => ?_, ?_, ?_, by rw [hcd]; exact hw.kStates,
    by rw [hcd]; exact hw.counted, by rw [hsd]; exact hw.switched⟩
  · obtain ⟨g', hg'⟩ := hall k hk
    simp [hg'] at hpc
  · rw [hw.flag, hC.settled_iff]
    refine forall₂_congr fun k hk => ?_
    obtain ⟨g', hg'⟩ := hall k hk
    have hm : (s.thread k).pc.merged = true := by rw [hg']; rfl
    exact ⟨fun h => h hm, fun h _ => h⟩
  · rw [hsd]
    refine ⟨hw.sweeping.1, hw.sweeping.2.of_inner fun c hc _ => ?_⟩
    obtain ⟨k, hk, hk1, hk2⟩ := hC.inner_done hc
    obtain ⟨g', hg'⟩ := hall k hk
    refine ⟨k, hk, hk1, ?_⟩
    simp only [hg', Pc.nextRow]
    exact hk2

theorem Switching.toReading (hw : Switching team hs T j s)
    (hser : (s.barrier false).serial < team.threadCount)
    (hall : ∀ k < team.threadCount, ∃ g, (s.thread k).pc = .wait .beforeRead g) :
    Reading team hs T j s := by
  obtain ⟨g, hg⟩ := hall _ hser
  have hsw := hw.sweeping
  have hk := hw.kStates
  have hcd := hw.counted
  have hwd := hw.switched
  simp only [hg, Pc.counted, Pc.switched] at hsw hk hcd hwd
  refine ⟨hw.flag, fun k hk hpc => ?_, fun k hk hpc => ?_,
    ⟨hsw.1, hsw.2.mono (Set.empty_subset _)⟩, hk, hcd, hwd⟩
  · obtain ⟨g', hg'⟩ := hall k hk
    simp [hg'] at hpc
  · obtain ⟨g', hg'⟩ := hall k hk
    simp [hg', Pc.continues] at hpc

theorem Reading.toResetting (hw : Reading team hs T j s)
    (hser : (s.barrier false).serial < team.threadCount)
    (hall : ∀ k < team.threadCount, ∃ g, (s.thread k).pc = .wait .beforeReset g) :
    Resetting team hs T j s := by
  obtain ⟨g, hg⟩ := hall _ hser
  have hn : ¬ (scheme team rows cols).Settled T j := hw.continues _ hser (by rw [hg]; rfl)
  refine ⟨fun k hk hpc => ?_, ?_, hn, hw.sweeping, hw.kStates, hw.counted, hw.switched⟩
  · obtain ⟨g', hg'⟩ := hall k hk
    simp [hg'] at hpc
  · rw [hg, Pc.cleared, Bool.eq_false_iff]
    exact mt hw.flag.mp hn

theorem Resetting.toWorking (hw : Resetting team hs T j s)
    (hser : (s.barrier false).serial < team.threadCount)
    (hall : ∀ k < team.threadCount, ∃ g, (s.thread k).pc = .wait .beforeNext g) :
    Working team hs T (j + 1) s := by
  obtain ⟨g, hg⟩ := hall _ hser
  have hf : s.equilibratedPlate = true := by
    rw [hw.flag, hg]
    rfl
  refine ⟨⟨hw.sweeping.1, hw.sweeping.2.of_inner ?_⟩, fun k hk => ?_,
    iff_of_true hf fun k hk hm => ?_, hw.kStates, hw.counted, hw.switched⟩
  · rintro c - ⟨k, hk, h1, h2⟩
    obtain ⟨g', hg'⟩ := hall k hk
    have hn : (Pc.wait .beforeNext g').nextRow team k = team.startingRow k := rfl
    simp only [hg', hn] at h2
    omega
  · obtain ⟨g', hg'⟩ := hall k hk
    simp only [Own, hg']
  · obtain ⟨g', hg'⟩ := hall k hk
    simp [hg', Pc.merged] at hm

theorem Stage.advance (hC : TeamCover team rows) (h : Stage team hs T j s site)
    (hser : (s.barrier false).serial < team.threadCount)
    (hall : ∀ k < team.threadCount, ∃ g, (s.thread k).pc = .wait site g) :
    Stage team hs T (site.next j).1 s (site.next j).2 := by
  cases site with
  | afterRows => exact Working.toSwitching hC h hser hall
  | beforeRead => exact Switching.toReading h hser hall
  | beforeReset => exact Reading.toResetting h hser hall
  | beforeNext => exact Resetting.toWorking h hser hall

theorem Stage.arrive (h : Stage team hs T j s site) (hi : i < team.threadCount)
    (hp : (s.thread i).pc = .arrive site) (b : Barrier) (g : ℕ) :
    Stage team hs T j { s.setThread i { s.thread i with pc := .wait site g } with
      barrier := Function.update s.barrier site.second b } site := by
  cases site with
  | afterRows =>
    have hw : Working team hs T j s := h
    exact hw.move _ (by simp only [hp, Pc.nextRow]) (by simp only [hp, Pc.merged]) trivial
  | beforeRead =>
    have hw : Switching team hs T j s := h
    refine hw.move (by simp [Site.second]) (by simp) ?_ ?_
    · exact fun _ => by simp only [hp, Pc.counted]
    · exact fun _ => by simp only [hp, Pc.switched]
  | beforeReset =>
    have hw : Reading team hs T j s := h
    exact hw.move _ (by simp) fun _ => hw.continues i hi (by rw [hp]; rfl)
  | beforeNext =>
    have hw : Resetting team hs T j s := h
    refine hw.move (by simp [Site.second]) (by simp) ?_
    exact fun _ => by simp only [hp, Pc.cleared]

omit [Temperature α] in
theorem serial_lt_arrive {serial : ℕ} (second : Bool)
    (h : (s.barrier false).serial < team.threadCount) (hser : serial < team.threadCount) :
    (Function.update s.barrier second
      ((s.barrier second).arrive team.threadCount serial) false).serial < team.threadCount := by
  cases second with
  | true => simpa using h
  | false =>
    rw [Function.update_self, Barrier.arrive]
    split_ifs
    · exact hser
    · exact h

theorem Pc.eq_wait {pc : Pc} (h : pc.ticket ≠ none) : ∃ site g, pc = .wait site g := by
  cases pc with
  | wait site g => exact ⟨site, g, rfl⟩
  | _ => exact absurd rfl h

theorem wait_of_place (hph : th.place.phase = 4 * j + site.phase)
    (htk : th.place.ticket ≠ none) : ∃ g, th.pc = .wait site g := by
  obtain ⟨site', g, hp⟩ := Pc.eq_wait htk
  have h1 : site'.phase < 4 := by cases site' <;> simp [Site.phase]
  have h2 : site.phase < 4 := by cases site <;> simp [Site.phase]
  simp only [Thread.place, hp, Pc.phase] at hph
  obtain rfl : site' = site := Site.phase_injective (by omega)
  exact ⟨g, hp⟩

theorem Stage.notSettled (h : Stage team hs T j s site)
    (hn : ∀ k < j, ¬ (scheme team rows cols).Settled T k) :
    ∀ k < (site.next j).1, ¬ (scheme team rows cols).Settled T k := by
  cases site with
  | beforeNext =>
    have hw : Resetting team hs T j s := h
    intro k hk
    obtain hlt | rfl := Nat.lt_succ_iff_lt_or_eq.mp hk
    · exact hn k hlt
    · exact hw.notSettled
  | _ => exact hn

theorem Inv.arrive (h : Inv team hs T j s site) (hC : TeamCover team rows)
    (hi : i < team.threadCount) {arrive : Site} (hp : (s.thread i).pc = .arrive arrive)
    {serial : ℕ} (hser : serial < team.threadCount) :
    ∃ j' site', Inv team hs T j'
      { s.setThread i { s.thread i with
          pc := .wait arrive (s.barrier arrive.second).generation } with
        barrier := Function.update s.barrier arrive.second
          ((s.barrier arrive.second).arrive team.threadCount serial) } site' := by
  obtain rfl : site = arrive := h.site_eq hi (by rw [hp]; rfl) (by rw [hp]; rfl)
  have hn := (h.phase_eq hi (by rw [hp]; rfl)).1
  have hnone : (s.thread i).place.ticket = none := by
    simp only [Thread.place, hp, Pc.ticket]
  have hstage := h.stage.arrive hi hp ((s.barrier site.second).arrive team.threadCount serial)
    (s.barrier site.second).generation
  have hserial := serial_lt_arrive site.second h.serial_lt hser
  have hreads : ∀ k < team.threadCount, ∀ l v, (Function.update s.thread i
      { s.thread i with pc := .wait site (s.barrier site.second).generation } k).reads l =
      some v → (v = true ↔ (scheme team rows cols).Settled T l) :=
    forall_update (fun _ (th : Thread) => ∀ k v, th.reads k = some v →
      (v = true ↔ (scheme team rows cols).Settled T k)) h.reads (h.reads i hi)
  have hplace : ({ s.thread i with
      pc := .wait site (s.barrier site.second).generation } : Thread).place =
      ⟨4 * j + site.phase, some (s.barrier (4 * j + site.phase).bodd).generation⟩ := by
    simp only [Thread.place, Pc.phase, Pc.ticket, hn, Site.bodd_phase]
  have hb := Site.bodd_phase j site
  by_cases hl : (s.barrier (4 * j + site.phase).bodd).arrived + 1 = team.threadCount
  · have hlock := h.lockstep.arrive_last hi hnone hl serial
    have hall := h.lockstep.all_wait hi hnone hl
    rw [← hplace, ← place_setThread, hb] at hlock
    refine ⟨(site.next j).1, (site.next j).2, ⟨?_, hserial, hreads, ?_, ?_⟩⟩
    · rw [Site.next_phase]
      exact hlock
    · exact hstage.notSettled h.notSettled
    · refine Stage.advance hC hstage hserial fun k hk => ?_
      by_cases hki : k = i
      · subst hki
        simp only [State.setThread, Function.update_self]
        exact ⟨_, rfl⟩
      · obtain ⟨hph, htk⟩ := hall k hk hki
        simp only [State.setThread, Function.update_of_ne hki]
        exact wait_of_place hph htk
  · have hlock := h.lockstep.arrive hi hnone hl serial
    rw [← hplace, ← place_setThread, hb] at hlock
    exact ⟨j, site, hlock, hserial, hreads, h.notSettled, hstage⟩

theorem Inv.step (h : Inv team hs T j s site) (hC : TeamCover team rows) (hc : 1 ≤ cols)
    (hi : i < team.threadCount) {serial : ℕ} (hser : serial < team.threadCount) {t : State α}
    (ht : equilibratePlateConcurrent team s i serial = some t) :
    ∃ j' site', Inv team hs T j' t site' := by
  unfold equilibratePlateConcurrent at ht
  simp only at ht
  split at ht
  next hp =>
    cases ht
    exact ⟨j, site, h.reset hC hi hp⟩
  next row hp =>
    split at ht <;> cases ht
    next hrow => exact ⟨j, site, h.row hC hc hi hp hrow rfl⟩
    next hrow => exact ⟨j, site, h.rowsEnd hi hp hrow⟩
  next hp =>
    cases ht
    exact ⟨j, site, h.merge hi hp⟩
  next arrive hp =>
    cases ht
    exact h.arrive hC hi hp hser
  next wait g hp =>
    split at ht <;> cases ht
    next hg => exact ⟨j, site, h.wait hi hp hg⟩
  next hp =>
    cases ht
    exact ⟨j, site, h.countState hi hp⟩
  next hp =>
    cases ht
    exact ⟨j, site, h.setAuxiliary hi hp⟩
  next hp =>
    cases ht
    exact ⟨j, site, h.readDone hi hp⟩
  next hp =>
    cases ht
    exact ⟨j, site, h.resetShared hi hp⟩
  next => cases ht

end Concurrente.Heat.Optimized
