import Concurrente.Threads

/-!
# for_count

The threads increase a counter without any control: each loads it into a constant of its own
and stores the constant plus one.  An increment is lost when another thread stores in between.
-/

namespace Concurrente.TaskcPatterns.ForCount

open Threads

/-- The two lines of the loop, with the rounds behind. -/
inductive Pc where
  | load (i : ℕ)
  | store (i temp : ℕ)
  deriving DecidableEq

/-- `secondary` with `n` rounds. -/
def secondary (n : ℕ) : Pc → Instr Empty Pc ℕ
  | .load i => if i < n then .access fun count => some (count, .store i count) else .finished
  | .store i temp => .access fun _ => some (temp + 1, .load (i + 1))

/-- `w` threads; the program has 100 threads and 100 rounds. -/
def main (w n : ℕ) : Code (Fin w) Empty Pc ℕ where
  memory := 0
  start _ := .load 0
  next _ := secondary n

variable {w n : ℕ} {s t : State (Fin w) Empty Pc ℕ} {j : Fin w}

inductive Moves (n count : ℕ) : Pc → ℕ → Pc → Prop
  | load (i : ℕ) (h : i < n) : Moves n count (.load i) count (.store i count)
  | store (i temp : ℕ) : Moves n count (.store i temp) (temp + 1) (.load (i + 1))

theorem moves_of_step (h : (main w n).system.step s j = some t) :
    ∃ pc, Moves n s.memory (s.thread j) t.memory pc ∧ t.thread = Function.update s.thread j pc := by
  obtain ⟨run, r, hn, hr, rfl⟩ := access_of_step h
  refine ⟨r.2, ?_, rfl⟩
  simp only [main] at hn
  generalize s.thread j = a at hn
  cases a with
  | load i =>
    simp only [secondary] at hn
    split_ifs at hn with hi
    cases hn
    cases hr
    exact .load i hi
  | store i temp =>
    cases hn
    cases hr
    exact .store i temp

theorem step_load {i : ℕ} (h : s.thread j = .load i) (hi : i < n) :
    (main w n).system.step s j = some (s.access j (s.memory, .store i s.memory)) := by
  have hnext : (main w n).next j (s.thread j) =
      .access fun count => some (count, .store i count) := by
    simp only [main, h, secondary, if_pos hi]
  exact step_access hnext rfl

theorem step_store {i temp : ℕ} (h : s.thread j = .store i temp) :
    (main w n).system.step s j = some (s.access j (temp + 1, .load (i + 1))) := by
  have hnext : (main w n).next j (s.thread j) =
      .access fun _ => some (temp + 1, .load (i + 1)) := by
    simp only [main, h, secondary]
  exact step_access hnext rfl

theorem stuck_iff : (main w n).system.Stuck s ↔ ∀ j, ∃ i, s.thread j = .load i ∧ n ≤ i := by
  constructor
  · intro hs j
    cases hj : s.thread j with
    | store i temp =>
      have := hs j
      rw [step_store hj] at this
      cases this
    | load i =>
      refine ⟨i, rfl, not_lt.mp fun hi => ?_⟩
      have := hs j
      rw [step_load hj hi] at this
      cases this
  · intro h j
    obtain ⟨i, hj, hi⟩ := h j
    simp only [Code.system, main, hj, secondary, if_neg (not_lt.mpr hi)]

namespace Pc

def rounds : Pc → ℕ
  | load i | store i _ => i

def Within (n : ℕ) : Pc → Prop
  | load i => i ≤ n
  | store i _ => i < n

/-- What the thread has loaded is no more than the rounds of all threads, and not zero once the
thread itself has stored. -/
def Loaded (total : ℕ) : Pc → Prop
  | load _ => True
  | store i temp => temp ≤ total ∧ (0 < i → 0 < temp)

def left (n : ℕ) : Pc → ℕ
  | load i => 2 * (n - i)
  | store i _ => 2 * (n - i) - 1

end Pc

structure Invariant (n count : ℕ) (thread : Fin w → Pc) : Prop where
  within : ∀ j, (thread j).Within n
  count_le : count ≤ ∑ j, (thread j).rounds
  loaded : ∀ j, (thread j).Loaded (∑ k, (thread k).rounds)
  count_pos : ∀ j, 0 < (thread j).rounds → 0 < count
  -- the last store is not that of a first round
  two_le : 0 < w → 2 ≤ n → (∀ j, (thread j).rounds = n) → 2 ≤ count

theorem Pc.Loaded.mono {pc : Pc} {total total' : ℕ} (h : pc.Loaded total) (hle : total ≤ total') :
    pc.Loaded total' := by
  cases pc with
  | load i => trivial
  | store i temp => exact ⟨h.1.trans hle, h.2⟩

section Steps

variable {count count' : ℕ} {thread : Fin w → Pc} {pc : Pc}

theorem Invariant.load {i : ℕ} (I : Invariant n count thread) (hj : thread j = .load i)
    (hi : i < n) : Invariant n count (Function.update thread j (.store i count)) := by
  have hsum : ∑ k, (Function.update thread j (.store i count) k).rounds =
      ∑ k, (thread k).rounds :=
    sum_same (by rw [hj]; rfl)
  refine ⟨all_update I.within hi, ?_, ?_, ?_, ?_⟩
  · rw [hsum]
    exact I.count_le
  · rw [hsum]
    refine all_update I.loaded ⟨I.count_le, fun h => I.count_pos j ?_⟩
    rwa [hj]
  · intro k hk
    rw [observe_update (fun _ => Pc.rounds) (by rw [hj]; rfl)] at hk
    exact I.count_pos k hk
  · intro hw hn h
    have hn' := h j
    rw [Function.update_self] at hn'
    exact absurd hn' hi.ne

theorem Invariant.store {i temp : ℕ} (I : Invariant n count thread)
    (hj : thread j = .store i temp) :
    Invariant n (temp + 1) (Function.update thread j (.load (i + 1))) := by
  have hsum : ∑ k, (Function.update thread j (.load (i + 1)) k).rounds =
      ∑ k, (thread k).rounds + 1 := by
    have := sum_move thread j Pc.rounds (.load (i + 1))
    rw [hj] at this
    simp only [Pc.rounds] at this ⊢
    omega
  have hloaded := I.loaded j
  rw [hj] at hloaded
  refine ⟨all_update I.within ?_, ?_, ?_, fun _ _ => temp.succ_pos, ?_⟩
  · have := I.within j
    rwa [hj] at this
  · rw [hsum]
    exact Nat.add_le_add_right hloaded.1 1
  · rw [hsum]
    exact all_update (fun k => (I.loaded k).mono (Nat.le_succ _)) trivial
  · intro hw hn h
    have hlast := h j
    rw [Function.update_self] at hlast
    simp only [Pc.rounds] at hlast
    have := hloaded.2 (by omega)
    omega

theorem Moves.left_lt {a : Pc} (hin : a.Within n) (h : Moves n count a count' pc) :
    pc.left n < a.left n := by
  cases h with
  | load i hi =>
    simp only [Pc.left]
    omega
  | store i temp =>
    simp only [Pc.left, Pc.Within] at hin ⊢
    omega

end Steps

theorem reachable_invariant (h : (main w n).system.Reachable s) :
    Invariant n s.memory s.thread := by
  apply h.invariant (I := fun s => Invariant n s.memory s.thread)
  · refine ⟨fun _ => Nat.zero_le n, Nat.zero_le _, fun _ => trivial,
      fun _ h => absurd h (lt_irrefl 0), fun hw hn h => ?_⟩
    have hzero : 0 = n := h ⟨0, hw⟩
    omega
  · intro s j t I hs
    obtain ⟨pc, hmove, ht⟩ := moves_of_step hs
    rw [ht]
    generalize t.memory = count' at hmove
    generalize hj : s.thread j = a at hmove
    cases hmove with
    | load i hi => exact I.load hj hi
    | store i temp => exact I.store hj

theorem length_le_of_run {l : List (Fin w)} (h : (main w n).system.run l = some s) :
    l.length ≤ 2 * (w * n) := by
  apply (length_le_of_left (Pc.left n) ?_ (fun _ => le_refl (2 * n)) h).trans_eq
  · rw [Fintype.card_fin]
    ring
  · intro s j t hr hs
    obtain ⟨pc, hmove, ht⟩ := moves_of_step hs
    rw [ht, Function.update_self]
    exact hmove.left_lt ((reachable_invariant hr).within j)

theorem round {i : ℕ} (h : s.thread j = .load i) (hi : i < n) :
    ∃ t, (main w n).system.Path s t ∧ t.memory = s.memory + 1 ∧
      t.thread = Function.update s.thread j (.load (i + 1)) := by
  have hheld : (s.access j (s.memory, .store i s.memory)).thread j = .store i s.memory := by
    rw [State.access_thread, Function.update_self]
  refine ⟨_, .head (step_load h hi) (.step (step_store hheld)), rfl, ?_⟩
  rw [State.access_thread, State.access_thread, Function.update_idem]

theorem rounds (S : Finset (Fin w)) (m : ℕ) {done : Fin w → ℕ}
    (hS : ∀ j ∈ S, s.thread j = .load (done j)) (hm : m ≤ ∑ j ∈ S, (n - done j)) :
    ∃ (t : State (Fin w) Empty Pc ℕ) (done' : Fin w → ℕ),
      (main w n).system.Path s t ∧ t.memory = s.memory + m ∧
      (∀ j ∈ S, t.thread j = .load (done' j)) ∧ (∀ j ∉ S, t.thread j = s.thread j) ∧
      ∑ j ∈ S, (n - done' j) + m = ∑ j ∈ S, (n - done j) := by
  induction m generalizing s done with
  | zero => exact ⟨s, done, .refl s, rfl, hS, fun _ _ => rfl, rfl⟩
  | succ m ih =>
    obtain ⟨j, hj, hpos⟩ := exists_of_sum_pos (Nat.lt_of_lt_of_le m.succ_pos hm)
    obtain ⟨r, hr, hmem, hthread⟩ := round (n := n) (hS j hj) (by omega)
    have hsum := sum_update hj done (fun _ d => n - d) (done j + 1)
    have hload : ∀ k ∈ S, r.thread k = .load (Function.update done j (done j + 1) k) := by
      intro k hk
      rw [hthread]
      by_cases hkj : k = j
      · subst hkj
        rw [Function.update_self, Function.update_self]
      · rw [Function.update_of_ne hkj, Function.update_of_ne hkj]
        exact hS k hk
    obtain ⟨t, done', ht, hmem', hload', hother, hleft⟩ := ih hload (by omega)
    refine ⟨t, done', hr.trans ht, by omega, hload', fun k hk => ?_, by omega⟩
    have hkj : k ≠ j := (ne_of_mem_of_not_mem hj hk).symm
    rw [hother k hk, hthread, Function.update_of_ne hkj]

theorem finish {done : Fin w → ℕ} (h : ∀ j, s.thread j = .load (done j)) :
    ∃ t, (main w n).system.Path s t ∧ (main w n).system.Stuck t ∧
      t.memory = s.memory + ∑ j, (n - done j) := by
  obtain ⟨t, done', ht, hmem, hload, -, hleft⟩ :=
    rounds (n := n) Finset.univ _ (fun j _ => h j) le_rfl
  refine ⟨t, ht, stuck_iff.mpr fun j => ⟨done' j, hload j (Finset.mem_univ j), ?_⟩, hmem⟩
  have hle := weight_le_sum (Finset.mem_univ j) fun j => n - done' j
  omega

theorem sum_others (first : Fin w) (n : ℕ) :
    ∑ _j ∈ Finset.univ.erase first, n = (w - 1) * n := by
  rw [Finset.sum_const, Finset.card_erase_of_mem (Finset.mem_univ first), Finset.card_univ,
    Fintype.card_fin, smul_eq_mul]

theorem overwrite (first : Fin w) (hn : 0 < n) (m : ℕ) (hm : m ≤ (w - 1) * n) :
    ∃ (s : State (Fin w) Empty Pc ℕ) (done : Fin w → ℕ),
      (main w n).system.Reachable s ∧ s.memory = 1 ∧ (∀ j, s.thread j = .load (done j)) ∧
      done first = 1 ∧ ∑ j ∈ Finset.univ.erase first, (n - done j) + m = (w - 1) * n := by
  have hload := step_load (s := (main w n).system.start) (j := first) rfl hn
  set s := State.access (main w n).system.start first (0, .store 0 0)
  have hstart : ∀ j ∈ Finset.univ.erase first, s.thread j = .load 0 :=
    fun j hj => Function.update_of_ne (Finset.ne_of_mem_erase hj) _ _
  obtain ⟨t, done, ht, -, hother, hfirst, hleft⟩ :=
    rounds (n := n) _ m hstart (by simpa only [Nat.sub_zero, sum_others] using hm)
  simp only [Nat.sub_zero, sum_others] at hleft
  have hzero : t.thread first = .store 0 0 :=
    (hfirst first (Finset.notMem_erase first _)).trans (Function.update_self ..)
  have hstore := step_store (n := n) hzero
  refine ⟨_, Function.update done first 1,
    System.Reachable.step (System.Reachable.path (.step .start hload) ht) hstore, rfl,
    fun j => ?_, Function.update_self .., ?_⟩
  · rw [State.access_thread]
    by_cases hj : j = first
    · rw [hj, Function.update_self, Function.update_self]
    · rw [Function.update_of_ne hj, Function.update_of_ne hj]
      exact hother j (Finset.mem_erase.mpr ⟨hj, Finset.mem_univ j⟩)
  · rw [sum_update_ne (Finset.notMem_erase first _) done (fun _ d => n - d)]
    exact hleft

theorem lost_rounds (first : Fin w) (hn : 0 < n) (m : ℕ) (hm : m ≤ (w - 1) * n) :
    ∃ s, (main w n).system.Reachable s ∧ (main w n).system.Stuck s ∧
      s.memory + m = n + (w - 1) * n := by
  obtain ⟨s, done, hs, hone, hload, hfirst, hleft⟩ := overwrite first hn m hm
  obtain ⟨t, ht, hstuck, hmem⟩ := finish (n := n) hload
  refine ⟨t, hs.path ht, hstuck, ?_⟩
  rw [hmem, hone, ← Finset.add_sum_erase _ _ (Finset.mem_univ first), hfirst]
  omega

theorem late_store {first last : Fin w} (hne : last ≠ first) {done : Fin w → ℕ}
    (h : ∀ j, s.thread j = .load (done j)) (hlast : done last + 1 = n)
    (hother : ∀ j ≠ first, j ≠ last → n ≤ done j) :
    ∃ t, (main w n).system.Path s t ∧ (main w n).system.Stuck t ∧ t.memory = s.memory + 1 := by
  have hload := step_load (n := n) (h last) (by omega)
  set r := s.access last (s.memory, .store (done last) s.memory)
  have hr : ∀ j ∈ ({first} : Finset (Fin w)), r.thread j = .load (done j) := by
    intro j hj
    rw [Finset.mem_singleton.mp hj]
    exact (Function.update_of_ne hne.symm _ _).trans (h first)
  obtain ⟨t, done', ht, -, hfirst, hstay, hleft⟩ := rounds (n := n) {first} _ hr le_rfl
  simp only [Finset.mem_singleton, forall_eq, Finset.sum_singleton] at hfirst hstay hleft
  have hheld : t.thread last = .store (done last) s.memory :=
    (hstay last hne).trans (Function.update_self ..)
  refine ⟨_, .head hload (ht.tail (step_store hheld)), stuck_iff.mpr fun j => ?_, rfl⟩
  rw [State.access_thread]
  by_cases hj : j = last
  · exact ⟨_, by rw [hj, Function.update_self], hlast.ge⟩
  rw [Function.update_of_ne hj]
  by_cases hjf : j = first
  · subst hjf
    exact ⟨_, hfirst, by omega⟩
  · refine ⟨_, (hstay j hjf).trans ((Function.update_of_ne hj _ _).trans (h j)), hother j hjf hj⟩

theorem late_round (hw : 2 ≤ w) (k : ℕ) (hk : k < n) :
    ∃ s, (main w n).system.Reachable s ∧ (main w n).system.Stuck s ∧ s.memory = k + 2 := by
  have hothers : 0 < (w - 1) * n := Nat.mul_pos (by omega) (by omega)
  obtain ⟨first⟩ : Nonempty (Fin w) := ⟨⟨0, by omega⟩⟩
  obtain ⟨s, done, hs, hone, hload, hfirst, hleft⟩ :=
    overwrite first (by omega) ((w - 1) * n - 1) (Nat.sub_le _ _)
  obtain ⟨last, hlast, hpos⟩ := exists_of_sum_pos
    (show 0 < ∑ j ∈ Finset.univ.erase first, (n - done j) by omega)
  have hne : last ≠ first := Finset.ne_of_mem_erase hlast
  rw [← Finset.add_sum_erase _ _ hlast] at hleft
  obtain ⟨t, done', ht, hmem, hfirst', hstay, -⟩ := rounds (n := n) {first} k
    (fun j _ => hload j) (by rw [Finset.sum_singleton, hfirst]; omega)
  have ht' : ∀ j, t.thread j = .load (if j = first then done' j else done j) := by
    intro j
    split_ifs with hj
    · exact hfirst' j (Finset.mem_singleton.mpr hj)
    · exact (hstay j (mt Finset.mem_singleton.mp hj)).trans (hload j)
  have hlastdone : (if last = first then done' last else done last) + 1 = n := by
    rw [if_neg hne]
    omega
  have hother : ∀ j ≠ first, j ≠ last → n ≤ if j = first then done' j else done j := by
    intro j hj hjl
    have hle := weight_le_sum (Finset.mem_erase.mpr ⟨hjl, Finset.mem_erase.mpr
      ⟨hj, Finset.mem_univ j⟩⟩) fun j => n - done j
    rw [if_neg hj]
    omega
  obtain ⟨u, hu, hstuck, hmem'⟩ := late_store hne ht' hlastdone hother
  exact ⟨u, (hs.path ht).path hu, hstuck, by omega⟩

/-- The counter can end with every value from 2, which the answer in the notes misses, to the
number of rounds of all threads, and with no other; every run ends. -/
theorem for_count_range (hw : 2 ≤ w) (hn : 2 ≤ n) :
    (∀ count, (∃ s, (main w n).system.Reachable s ∧ (main w n).system.Stuck s ∧
      s.memory = count) ↔ 2 ≤ count ∧ count ≤ w * n) ∧
    ∀ (l : List (Fin w)) s, (main w n).system.run l = some s → l.length ≤ 2 * (w * n) := by
  have hall : n + (w - 1) * n = w * n := by
    rw [Nat.sub_mul, Nat.one_mul]
    exact Nat.add_sub_cancel' (Nat.le_mul_of_pos_left n (by omega))
  refine ⟨fun count => ⟨?_, ?_⟩, fun l s => length_le_of_run⟩
  · rintro ⟨s, hs, hstuck, rfl⟩
    have I := reachable_invariant hs
    have hrounds : ∀ j, (s.thread j).rounds = n := by
      intro j
      obtain ⟨i, hj, hi⟩ := stuck_iff.mp hstuck j
      have hin := I.within j
      rw [hj] at hin ⊢
      exact le_antisymm hin hi
    refine ⟨I.two_le (by omega) hn hrounds, I.count_le.trans_eq ?_⟩
    simp only [hrounds, Finset.sum_const, Finset.card_univ, Fintype.card_fin, smul_eq_mul]
  · rintro ⟨hmin, hmax⟩
    by_cases hcount : count < n + 2
    · obtain ⟨s, hs, hstuck, hmem⟩ := late_round hw (count - 2) (show count - 2 < n by omega)
      exact ⟨s, hs, hstuck, by omega⟩
    · obtain ⟨s, hs, hstuck, hmem⟩ :=
        lost_rounds ⟨0, by omega⟩ (by omega) (w * n - count) (show _ ≤ (w - 1) * n by omega)
      exact ⟨s, hs, hstuck, by omega⟩

/-- The program of the notes. -/
theorem for_count_range_hundred : ∃ s, (main 100 100).system.Reachable s ∧
    (main 100 100).system.Stuck s ∧ s.memory = 2 :=
  ((for_count_range (by decide) (by decide)).1 2).mpr ⟨by decide, by decide⟩

end Concurrente.TaskcPatterns.ForCount
