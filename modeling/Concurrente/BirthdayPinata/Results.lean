import Concurrente.BirthdayPinata.Program
import Concurrente.Iteration

/-!
# The pinata breaks once

The hits that were made and the hits that the pinata still takes add up to its resistance,
and a single thread finds its own hit to be the last one.
-/

namespace Concurrente.BirthdayPinata

open Threads

variable {n : ℕ}

namespace Pc

/-- The pinata was hit, but the hit is not counted yet. -/
def inFlight : Pc → ℕ
  | count _ => 1
  | _ => 0

/-- The thread has broken the pinata, whether it knows it or not. -/
def breaker (pinata : ℤ) : Pc → ℕ
  | count _ | test => if pinata = 0 then 1 else 0
  | unlock true | report true | returned true => 1
  | _ => 0

/-- The thread has reported that it broke the pinata. -/
def reported : Pc → ℕ
  | returned true => 1
  | _ => 0

/-- Before its test in this round, a thread has not broken the pinata. -/
def Fresh : Pc → Prop
  | lock b | check b | leave b | hit b | count b => b = false
  | _ => True

/-- The thread is about to leave its loop or has left it. -/
def Left : Pc → Prop
  | leave _ | unlock true | report _ | returned _ => True
  | _ => False

def Hits : Pc → Prop
  | hit _ => True
  | _ => False

/-- The steps that a thread can take without a hit. -/
def rank : Pc → ℕ
  | lock _ => 4
  | check _ => 3
  | leave _ | hit _ => 2
  | count _ => 7
  | test => 6
  | unlock _ => 5
  | report _ => 1
  | returned _ => 0

end Pc

def brokeReports (m : Shared n) : ℕ := m.output.countP fun r => r.broke

structure Inv (resistance : ℕ) (m : Shared n) (thread : Fin n → Pc) : Prop where
  defined : m.undefined = false
  nonneg : 0 ≤ m.pinata
  positive : ∀ i, (thread i).Hits → m.pinata ≠ 0
  conserved : m.pinata + (∑ i, m.hits i : ℕ) + (∑ i, (thread i).inFlight : ℕ) = resistance
  fresh : ∀ i, (thread i).Fresh
  left : ∀ i, (thread i).Left → m.pinata = 0
  breaker : ∑ i, (thread i).breaker m.pinata = if m.pinata = 0 then 1 else 0
  reports : brokeReports m = ∑ i, (thread i).reported

section Moves

variable {resistance : ℕ} {m : Shared n} {thread : Fin n → Pc} {i : Fin n} {pc : Pc}

theorem Inv.move (h : Inv resistance m thread) (hflight : pc.inFlight = (thread i).inFlight)
    (hbreaker : pc.breaker m.pinata = (thread i).breaker m.pinata)
    (hreported : pc.reported = (thread i).reported) (hfresh : pc.Fresh)
    (hleft : pc.Left → m.pinata = 0) (hhits : pc.Hits → m.pinata ≠ 0) :
    Inv resistance m (Function.update thread i pc) where
  defined := h.defined
  nonneg := h.nonneg
  positive := all_update (P := fun pc : Pc => pc.Hits → m.pinata ≠ 0) h.positive hhits
  conserved := by rw [sum_same hflight, h.conserved]
  fresh := all_update h.fresh hfresh
  left := all_update (P := fun pc : Pc => pc.Left → m.pinata = 0) h.left hleft
  breaker := by rw [sum_same hbreaker, h.breaker]
  reports := by rw [sum_same hreported, h.reports]

theorem Inv.pinata_le (h : Inv resistance m thread) : m.pinata ≤ resistance := by
  have := h.conserved
  omega

theorem hit_eq (h : Inv resistance m thread) (hR : resistance < 2 ^ 63) :
    m.hit = { m with pinata := m.pinata - 1 } := by
  have hle := h.pinata_le
  have hnonneg := h.nonneg
  have hrange : IntType.long.InRange (m.pinata - 1) := by
    norm_num [IntType.InRange, IntType.min, IntType.max, IntType.long]
    omega
  rw [Shared.hit, IntType.sub_eq hrange]

theorem Inv.hit (h : Inv resistance m thread) (hR : resistance < 2 ^ 63) {b : Bool}
    (hi : thread i = .hit b) (hother : ∀ j, j ≠ i → owner () (thread j) = 0) :
    Inv resistance m.hit (Function.update thread i (.count b)) := by
  have hne : m.pinata ≠ 0 := h.positive i (by rw [hi]; trivial)
  have hnonneg := h.nonneg
  have hfresh : b = false := by
    have := h.fresh i
    rwa [hi] at this
  have hbreaker : ∀ j, j ≠ i → (thread j).breaker (m.pinata - 1) = 0 := by
    intro j hj
    have howner := hother j hj
    have hleft := h.left j
    cases hpc : thread j with
    | unlock b' =>
      rw [hpc] at howner
      cases howner
    | report b' => exact absurd (hleft (by rw [hpc]; trivial)) hne
    | returned b' => exact absurd (hleft (by rw [hpc]; trivial)) hne
    | count b' =>
      rw [hpc] at howner
      cases howner
    | test =>
      rw [hpc] at howner
      cases howner
    | _ => rfl
  rw [hit_eq h hR]
  refine ⟨h.defined, by dsimp only; omega, fun j hj => ?_, ?_, ?_, fun j hj => ?_, ?_, ?_⟩
  · exfalso
    by_cases hji : j = i
    · rw [hji, Function.update_self] at hj
      exact hj
    · rw [Function.update_of_ne hji] at hj
      have howner := hother j hji
      cases hpc : thread j <;> rw [hpc] at hj howner
      case hit b' => cases howner
      all_goals exact hj
  · have hsum := sum_move thread i Pc.inFlight (.count b)
    have hold : (thread i).inFlight = 0 := by rw [hi]; rfl
    have hnew : (Pc.count b).inFlight = 1 := rfl
    have := h.conserved
    dsimp only
    omega
  · exact all_update (P := Pc.Fresh) h.fresh hfresh
  · exfalso
    by_cases hji : j = i
    · rw [hji, Function.update_self] at hj
      exact hj
    · rw [Function.update_of_ne hji] at hj
      exact hne (h.left j hj)
  · rw [Finset.sum_eq_single i (fun j _ hj => by rw [Function.update_of_ne hj, hbreaker j hj])
      fun hj => absurd (Finset.mem_univ i) hj, Function.update_self]
    rfl
  · rw [sum_same (by rw [hi]; rfl)]
    exact h.reports

theorem Inv.count (h : Inv resistance m thread) (hR : resistance < 2 ^ 63) {b : Bool}
    (hi : thread i = .count b) :
    Inv resistance (m.count i) (Function.update thread i .test) := by
  have hsum := sum_move thread i Pc.inFlight .test
  have hold : (thread i).inFlight = 1 := by rw [hi]; rfl
  have hnew : Pc.test.inFlight = 0 := rfl
  have hconserved := h.conserved
  have hnonneg := h.nonneg
  have hle : m.hits i ≤ ∑ j, m.hits j := weight_le_sum (Finset.mem_univ i) m.hits
  have hmod : (m.hits i + 1) % 2 ^ 64 = m.hits i + 1 := Nat.mod_eq_of_lt (by omega)
  have hhits := sum_update (Finset.mem_univ i) m.hits (fun _ k => k) (m.hits i + 1)
  refine ⟨h.defined, h.nonneg, ?_, ?_, ?_, ?_, ?_, ?_⟩
  · exact all_update (P := fun pc : Pc => pc.Hits → m.pinata ≠ 0) h.positive fun hj => hj.elim
  · simp only [Shared.count, hmod]
    omega
  · exact all_update (P := Pc.Fresh) h.fresh trivial
  · exact all_update (P := fun pc : Pc => pc.Left → m.pinata = 0) h.left fun hj => hj.elim
  · rw [sum_same (w := Pc.breaker (m.count i).pinata) (by rw [hi]; rfl)]
    exact h.breaker
  · rw [sum_same (by rw [hi]; rfl)]
    exact h.reports

theorem Inv.report (h : Inv resistance m thread) {b : Bool} (hi : thread i = .report b) :
    Inv resistance (m.report i b) (Function.update thread i (.returned b)) := by
  have hzero : m.pinata = 0 := h.left i (by rw [hi]; trivial)
  have hsum := sum_move thread i Pc.reported (.returned b)
  have hold : (thread i).reported = 0 := by rw [hi]; rfl
  refine ⟨h.defined, h.nonneg, ?_, ?_, ?_, ?_, ?_, ?_⟩
  · exact all_update (P := fun pc : Pc => pc.Hits → m.pinata ≠ 0) h.positive fun hj => hj.elim
  · rw [sum_same (by rw [hi]; rfl)]
    exact h.conserved
  · exact all_update (P := Pc.Fresh) h.fresh trivial
  · exact all_update (P := fun pc : Pc => pc.Left → m.pinata = 0) h.left fun _ => hzero
  · rw [sum_same (w := Pc.breaker (m.report i b).pinata) (by rw [hi]; cases b <;> rfl)]
    exact h.breaker
  · have hreports := h.reports
    rw [brokeReports] at hreports ⊢
    rw [Shared.report, List.countP_append, hreports]
    cases b <;> simp [Pc.reported] at * <;> omega

end Moves

section Runs

variable {resistance : ℕ} {s t : Run n} {i : Fin n}

theorem inv_start (hR : 1 ≤ resistance) (hR' : resistance < 2 ^ 63) :
    Inv resistance (code n resistance).memory (code n resistance).start := by
  have hpinata : IntType.long.convert resistance = resistance := by
    rw [IntType.convert_eq_iff]
    norm_num [IntType.InRange, IntType.min, IntType.max, IntType.long]
    omega
  refine ⟨rfl, ?_, fun _ h => h.elim, ?_, fun _ => rfl, fun _ h => h.elim, ?_, ?_⟩
  · simp only [code, hpinata]
    omega
  · simp [code, hpinata, Pc.inFlight]
  · have hne : (resistance : ℤ) ≠ 0 := by omega
    simp only [code, hpinata, Pc.breaker, if_neg hne, Finset.sum_const_zero]
  · simp [code, brokeReports, Pc.reported]

theorem reachable_inv (hR : 1 ≤ resistance) (hR' : resistance < 2 ^ 63)
    (h : (code n resistance).system.Reachable s) : Inv resistance s.memory s.thread := by
  refine reachable_invariant (I := Inv resistance) (inv_start hR hR') ?_ ?_ h
  · intro s i _ pc' _ hnext hI
    have hfresh := hI.fresh i
    have hleft := hI.left i
    rcases move_cases hnext with ⟨b, hpc, rfl⟩ | ⟨b, hpc, rfl⟩ | ⟨hpc, rfl⟩ | ⟨hpc, rfl⟩ <;>
      rw [hpc] at hfresh hleft
    · obtain rfl : b = false := hfresh
      exact hI.move (by rw [hpc]; rfl) (by rw [hpc]; rfl) (by rw [hpc]; rfl) rfl
        (fun hl => hl.elim) fun hl => hl.elim
    · obtain rfl : b = false := hfresh
      exact hI.move (by rw [hpc]; rfl) (by rw [hpc]; rfl) (by rw [hpc]; rfl) trivial
        (fun _ => hleft trivial) fun hl => hl.elim
    · exact hI.move (by rw [hpc]; rfl) (by rw [hpc]; rfl) (by rw [hpc]; rfl) trivial
        (fun _ => hleft trivial) fun hl => hl.elim
    · exact hI.move (by rw [hpc]; rfl) (by rw [hpc]; rfl) (by rw [hpc]; rfl) rfl
        (fun hl => hl.elim) fun hl => hl.elim
  · intro s i run r hr hnext hrun hI
    have hfresh := hI.fresh i
    rcases access_cases hnext hrun with ⟨b, hpc, rfl⟩ | ⟨b, hpc, rfl⟩ | ⟨b, hpc, rfl⟩ |
      ⟨hpc, rfl⟩ | ⟨b, hpc, rfl⟩
    · rw [hpc] at hfresh
      obtain rfl : b = false := hfresh
      dsimp only
      split_ifs with hzero
      · exact hI.move (by rw [hpc]; rfl) (by rw [hpc]; rfl) (by rw [hpc]; rfl) rfl
          (fun _ => hzero) fun hl => hl.elim
      · exact hI.move (by rw [hpc]; rfl) (by rw [hpc]; rfl) (by rw [hpc]; rfl) rfl
          (fun hl => hl.elim) fun _ => hzero
    · exact hI.hit hR' hpc (owner_eq_zero owns hr (by rw [hpc]; exact Nat.one_ne_zero))
    · exact hI.count hR' hpc
    · by_cases hzero : s.memory.pinata = 0
      -- its own hit has broken the pinata: the thread stays the breaker and knows it
      · have hbroke : decide (s.memory.pinata = 0) = true := decide_eq_true hzero
        dsimp only
        rw [hbroke]
        exact hI.move (by rw [hpc]; rfl) (by rw [hpc, Pc.breaker, if_pos hzero]; rfl)
          (by rw [hpc]; rfl) trivial (fun _ => hzero) fun hl => hl.elim
      · have hbroke : decide (s.memory.pinata = 0) = false := decide_eq_false hzero
        dsimp only
        rw [hbroke]
        exact hI.move (by rw [hpc]; rfl) (by rw [hpc, Pc.breaker, if_neg hzero]; rfl)
          (by rw [hpc]; rfl) trivial (fun hl => hl.elim) fun hl => hl.elim
    · exact hI.report hpc

theorem pinata_step (hR : 1 ≤ resistance) (hR' : resistance < 2 ^ 63)
    (h : (code n resistance).system.Reachable s) (hzero : s.memory.pinata = 0)
    (ht : (code n resistance).system.step s i = some t) : t.memory.pinata = 0 := by
  rcases step_cases ht with ⟨m, pc', -, -, rfl⟩ | ⟨m, pc', -, rfl⟩ | ⟨run, r, hnext, hrun, rfl⟩
  · exact hzero
  · exact hzero
  · rcases access_cases hnext hrun with ⟨b, hpc, rfl⟩ | ⟨b, hpc, rfl⟩ | ⟨b, hpc, rfl⟩ |
      ⟨hpc, rfl⟩ | ⟨b, hpc, rfl⟩
    · exact hzero
    · exact absurd hzero ((reachable_inv hR hR' h).positive i (by rw [hpc]; trivial))
    · exact hzero
    · exact hzero
    · exact hzero

theorem pinata_path (hR : 1 ≤ resistance) (hR' : resistance < 2 ^ 63)
    (h : (code n resistance).system.Reachable s) (hzero : s.memory.pinata = 0)
    (hp : (code n resistance).system.Path s t) : t.memory.pinata = 0 := by
  induction hp with
  | refl => exact hzero
  | tail hpath hnext ih =>
    obtain ⟨i, hi⟩ := hnext
    exact pinata_step hR hR' (h.path hpath) ih hi

def weight (m : Shared n) (thread : Fin n → Pc) : ℕ :=
  ∑ i, (thread i).rank + 6 * m.pinata.toNat

theorem weight_lt {m m' : Shared n} {thread : Fin n → Pc} {pc : Pc} (hm : m'.pinata = m.pinata)
    (h : pc.rank < (thread i).rank) :
    weight m' (Function.update thread i pc) < weight m thread := by
  have hsum := sum_move thread i Pc.rank pc
  rw [weight, weight, hm]
  omega

theorem weight_hit {m m' : Shared n} {thread : Fin n → Pc} {pc : Pc} (hm : m'.pinata = m.pinata - 1)
    (hpos : 0 < m.pinata) (h : pc.rank < (thread i).rank + 6) :
    weight m' (Function.update thread i pc) < weight m thread := by
  have hsum := sum_move thread i Pc.rank pc
  rw [weight, weight, hm]
  omega

theorem move_rank {m : Unit} {pc pc' : Pc}
    (h : next i pc = .lock m pc' ∨ next i pc = .unlock m pc') :
    pc'.rank < pc.rank := by
  rcases move_cases h with ⟨b, rfl, rfl⟩ | ⟨b, rfl, rfl⟩ | ⟨rfl, rfl⟩ | ⟨rfl, rfl⟩ <;>
    simp only [Pc.rank] <;> norm_num

theorem weight_decreases (hR : 1 ≤ resistance) (hR' : resistance < 2 ^ 63)
    (h : (code n resistance).system.Reachable s)
    (ht : (code n resistance).system.step s i = some t) :
    weight t.memory t.thread < weight s.memory s.thread := by
  rcases step_cases ht with ⟨m, pc', hnext, -, rfl⟩ | ⟨m, pc', hnext, rfl⟩ |
    ⟨run, r, hnext, hrun, rfl⟩
  · exact weight_lt rfl (move_rank (.inl hnext))
  · exact weight_lt rfl (move_rank (.inr hnext))
  · rcases access_cases hnext hrun with ⟨b, hpc, rfl⟩ | ⟨b, hpc, rfl⟩ | ⟨b, hpc, rfl⟩ |
      ⟨hpc, rfl⟩ | ⟨b, hpc, rfl⟩
    · refine weight_lt rfl ?_
      rw [hpc]
      dsimp only
      split_ifs <;> exact Nat.lt_succ_self 2
    · have hI := reachable_inv hR hR' h
      have hne := hI.positive i (by rw [hpc]; trivial)
      have hnonneg := hI.nonneg
      refine weight_hit (by rw [hit_eq hI hR']; rfl) (by omega) ?_
      rw [hpc]
      exact Nat.lt_succ_self 7
    · refine weight_lt rfl ?_
      rw [hpc]
      exact Nat.lt_succ_self 6
    · refine weight_lt rfl ?_
      rw [hpc]
      exact Nat.lt_succ_self 5
    · refine weight_lt rfl ?_
      rw [hpc]
      exact Nat.lt_succ_self 0

theorem returned_of_stuck (h : (code n resistance).system.Reachable s)
    (hs : (code n resistance).system.Stuck s) (i : Fin n) :
    ∃ broke, s.thread i = .returned broke := by
  obtain hfinished | ⟨run, hnext, hnone⟩ := stuck_cases owns h hs i
  · change next i (s.thread i) = _ at hfinished
    cases hpc : s.thread i <;> rw [hpc] at hfinished <;> try cases hfinished
    exact ⟨_, rfl⟩
  · exact absurd hnone (access_ne_none hnext s.memory)

theorem Inv.conserved_of_unlocked (h : (code n resistance).system.Reachable s)
    (hI : Inv resistance s.memory s.thread) (hfree : s.locked () = false) :
    s.memory.pinata + (∑ i, s.memory.hits i : ℕ) = resistance := by
  have howners := reachable_owners owns h ()
  rw [hfree] at howners
  have hflight : ∑ i, (s.thread i).inFlight = 0 := by
    refine Finset.sum_eq_zero fun i hi => ?_
    have hi := (Finset.sum_eq_zero_iff.mp howners) i hi
    cases hpc : s.thread i <;> rw [hpc] at hi <;> first | rfl | cases hi
  have := hI.conserved
  omega

theorem Inv.of_returned (hn : 1 ≤ n) (hI : Inv resistance s.memory s.thread)
    (hall : ∀ i, ∃ broke, s.thread i = .returned broke) :
    s.memory.pinata = 0 ∧ ∑ i, s.memory.hits i = resistance ∧ brokeReports s.memory = 1 := by
  have hzero : s.memory.pinata = 0 := by
    obtain ⟨broke, hpc⟩ := hall ⟨0, hn⟩
    exact hI.left _ (by rw [hpc]; trivial)
  have hflight : ∑ i, (s.thread i).inFlight = 0 := by
    refine Finset.sum_eq_zero fun i _ => ?_
    obtain ⟨broke, hpc⟩ := hall i
    rw [hpc]
    rfl
  have hreported : ∀ i, (s.thread i).reported = (s.thread i).breaker s.memory.pinata := by
    intro i
    obtain ⟨broke, hpc⟩ := hall i
    rw [hpc]
    cases broke <;> rfl
  have hconserved := hI.conserved
  have hbreaker := hI.breaker
  rw [if_pos hzero] at hbreaker
  refine ⟨hzero, by omega, ?_⟩
  rw [hI.reports, Finset.sum_congr rfl fun i _ => hreported i, hbreaker]

end Runs

/-- The counter never is negative and does not overflow; with the hits it makes up the resistance,
also while a hit is not counted yet; a broken pinata stays broken, every run ends with all threads
returned, and then the hits are the resistance and one thread has reported that it broke the
pinata. -/
theorem pinata_breaks_once (n resistance : ℕ) (hn : 1 ≤ n) (hR : 1 ≤ resistance)
    (hR' : resistance < 2 ^ 63) : (code n resistance).system.Terminates ∧
      ∀ s, (code n resistance).system.Reachable s →
        s.memory.undefined = false ∧ 0 ≤ s.memory.pinata ∧
        (s.memory.pinata + (∑ i, s.memory.hits i : ℕ) + (∑ i, (s.thread i).inFlight : ℕ) =
          resistance) ∧
        (s.locked () = false → s.memory.pinata + (∑ i, s.memory.hits i : ℕ) = resistance) ∧
        (s.memory.pinata = 0 → ∀ t, (code n resistance).system.Path s t → t.memory.pinata = 0) ∧
        ((code n resistance).system.Stuck s → ∀ i, ∃ broke, s.thread i = .returned broke) ∧
        ((∀ i, ∃ broke, s.thread i = .returned broke) → s.memory.pinata = 0 ∧
          ∑ i, s.memory.hits i = resistance ∧ brokeReports s.memory = 1) := by
  refine ⟨⟨fun s => weight s.memory s.thread, fun s i t h ht => weight_decreases hR hR' h ht⟩,
    fun s h => ?_⟩
  have hI := reachable_inv hR hR' h
  exact ⟨hI.defined, hI.nonneg, hI.conserved, hI.conserved_of_unlocked h,
    fun hzero t hp => pinata_path hR hR' h hzero hp, returned_of_stuck h, hI.of_returned hn⟩

/-- The end of a run of three threads that hit ten times. -/
theorem pinata_breaks_once_ten : ∃ s, (code 3 10).system.Reachable s ∧
    s.memory.undefined = false ∧ (∀ i, ∃ broke, s.thread i = .returned broke) ∧
    s.memory.pinata = 0 ∧ ∑ i, s.memory.hits i = 10 ∧ brokeReports s.memory = 1 := by
  obtain ⟨hterminates, h⟩ :=
    pinata_breaks_once 3 10 (by norm_num) (by norm_num) (by norm_num)
  obtain ⟨s, hr, hs⟩ := hterminates.exists_stuck
  obtain ⟨hdefined, -, -, -, -, hstuck, hend⟩ := h s hr
  exact ⟨s, hr, hdefined, hstuck hs, hend (hstuck hs)⟩

end Concurrente.BirthdayPinata
