import Concurrente.Transition
import Concurrente.Team

/-!
# Programs of semaphores

A thread runs its lines one after the other: it waits at a semaphore, gives permits to one, or
executes a statement.  What a semaphore holds follows from how far the threads are.
-/

namespace Concurrente.Semaphores

variable {ι κ τ : Type*}

inductive Line (κ τ : Type*) where
  | wait (semaphore : κ)
  | signal (semaphore : κ) (permits : ℕ)
  | statement (a : τ)
  deriving DecidableEq

/-- The permits at the start and the lines of every thread; the last line is followed by
`none`, a loop has no last line. -/
structure Script (ι κ τ : Type*) where
  permits : κ → ℕ
  line : ι → ℕ → Option (Line κ τ)

/-- `done` are the statements in the order of their execution. -/
structure State (ι κ τ : Type*) where
  permits : κ → ℕ
  position : ι → ℕ
  done : List (ι × τ)

section Steps

variable [DecidableEq ι] [DecidableEq κ]

namespace State

variable (s : State ι κ τ) (i : ι)

def wait (k : κ) : State ι κ τ :=
  { s with
    permits := Function.update s.permits k (s.permits k - 1)
    position := Function.update s.position i (s.position i + 1) }

def signal (k : κ) (permits : ℕ) : State ι κ τ :=
  { s with
    permits := Function.update s.permits k (s.permits k + permits)
    position := Function.update s.position i (s.position i + 1) }

def statement (a : τ) : State ι κ τ :=
  { s with
    position := Function.update s.position i (s.position i + 1)
    done := s.done ++ [(i, a)] }

end State

def Script.system (p : Script ι κ τ) : System (State ι κ τ) ι where
  start := ⟨p.permits, fun _ => 0, []⟩
  step s i :=
    match p.line i (s.position i) with
    | some (.wait k) => if s.permits k = 0 then none else some (s.wait i k)
    | some (.signal k permits) => some (s.signal i k permits)
    | some (.statement a) => some (s.statement i a)
    | none => none

variable {p : Script ι κ τ} {s t : State ι κ τ} {i : ι} {k : κ}

theorem step_cases (h : p.system.step s i = some t) :
    (∃ k, p.line i (s.position i) = some (.wait k) ∧ s.permits k ≠ 0 ∧ t = s.wait i k) ∨
    (∃ k c, p.line i (s.position i) = some (.signal k c) ∧ t = s.signal i k c) ∨
    ∃ a, p.line i (s.position i) = some (.statement a) ∧ t = s.statement i a := by
  simp only [Script.system] at h
  split at h
  · rename_i k hl
    split_ifs at h with hk
    exact .inl ⟨k, hl, hk, (Option.some.inj h).symm⟩
  · rename_i k c hl
    exact .inr (.inl ⟨k, c, hl, (Option.some.inj h).symm⟩)
  · rename_i a hl
    exact .inr (.inr ⟨a, hl, (Option.some.inj h).symm⟩)
  · cases h

/-- A thread that cannot move has finished or waits at a semaphore without permits. -/
theorem blocked_cases (h : p.system.step s i = none) :
    p.line i (s.position i) = none ∨
      ∃ k, p.line i (s.position i) = some (.wait k) ∧ s.permits k = 0 := by
  simp only [Script.system] at h
  split at h
  · rename_i k hl
    split_ifs at h with hk
    exact .inr ⟨k, hl, hk⟩
  · cases h
  · cases h
  · rename_i hl
    exact .inl hl

theorem step_position (h : p.system.step s i = some t) :
    t.position = Function.update s.position i (s.position i + 1) := by
  obtain ⟨k, -, -, rfl⟩ | ⟨k, c, -, rfl⟩ | ⟨a, -, rfl⟩ := step_cases h <;> rfl

theorem line_of_step (h : p.system.step s i = some t) :
    ∃ l, p.line i (s.position i) = some l := by
  obtain ⟨k, hl, -, -⟩ | ⟨k, c, hl, -⟩ | ⟨a, hl, -⟩ := step_cases h <;> exact ⟨_, hl⟩

theorem exists_step {l : Line κ τ} (hl : p.line i (s.position i) = some l)
    (hk : ∀ k, l = .wait k → s.permits k ≠ 0) : ∃ t, p.system.step s i = some t := by
  apply Option.ne_none_iff_exists'.mp
  intro h
  obtain hnone | ⟨k, hwait, hzero⟩ := blocked_cases h
  · cases hl.symm.trans hnone
  · exact hk k (Option.some.inj (hl.symm.trans hwait)) hzero

end Steps

section Counting

variable [DecidableEq κ]

/-- How many permits a line takes. -/
def Line.waits (k : κ) : Line κ τ → ℕ
  | wait k' => if k' = k then 1 else 0
  | _ => 0

/-- How many permits a line gives. -/
def Line.signals (k : κ) : Line κ τ → ℕ
  | signal k' permits => if k' = k then permits else 0
  | _ => 0

namespace Script

variable (p : Script ι κ τ) (i : ι) (k : κ)

/-- The waits of a thread before a position. -/
def waited (n : ℕ) : ℕ := ∑ m ∈ Finset.range n, ((p.line i m).map (Line.waits k)).getD 0

/-- The permits that a thread has given before a position. -/
def signalled (n : ℕ) : ℕ := ∑ m ∈ Finset.range n, ((p.line i m).map (Line.signals k)).getD 0

variable {p i k} {l : Line κ τ} {m n : ℕ}

theorem waited_succ (h : p.line i n = some l) :
    p.waited i k (n + 1) = p.waited i k n + l.waits k := by
  rw [waited, Finset.sum_range_succ, h]
  rfl

theorem signalled_succ (h : p.line i n = some l) :
    p.signalled i k (n + 1) = p.signalled i k n + l.signals k := by
  rw [signalled, Finset.sum_range_succ, h]
  rfl

theorem waited_mono (h : m ≤ n) : p.waited i k m ≤ p.waited i k n :=
  Finset.sum_le_sum_of_subset (Finset.range_mono h)

theorem signalled_mono (h : m ≤ n) : p.signalled i k m ≤ p.signalled i k n :=
  Finset.sum_le_sum_of_subset (Finset.range_mono h)

theorem waited_pos (h : p.line i m = some (.wait k)) (hm : m < n) : 0 < p.waited i k n := by
  have hsucc := waited_succ (k := k) h
  have hmono : p.waited i k (m + 1) ≤ p.waited i k n := waited_mono hm
  simp only [Line.waits, if_true] at hsucc
  omega

/-- Two positions have the same permits before them when no signal is between them. -/
theorem signalled_eq (hmn : m ≤ n) (h : ∀ j c, m ≤ j → j < n → p.line i j ≠ some (.signal k c)) :
    p.signalled i k m = p.signalled i k n := by
  induction n, hmn using Nat.le_induction with
  | base => rfl
  | succ n hmn ih =>
    have hn := fun c => h n c hmn (Nat.lt_succ_self n)
    rw [ih fun j c hj hjn => h j c hj (Nat.lt_succ_of_lt hjn), signalled, signalled,
      Finset.sum_range_succ]
    cases hl : p.line i n with
    | none => rfl
    | some l =>
      cases l with
      | signal k' c =>
        have hk : k' ≠ k := by
          rintro rfl
          exact hn c hl
        simp [Line.signals, hk]
      | _ => rfl

theorem exists_signal (h : p.signalled i k m < p.signalled i k n) :
    ∃ j c, m ≤ j ∧ j < n ∧ p.line i j = some (.signal k c) := by
  by_contra! hn
  have hmn : m ≤ n := by
    by_contra! hmn
    exact absurd (signalled_mono hmn.le) (not_le_of_gt h)
  exact h.ne (signalled_eq hmn hn)

end Script

end Counting

section Runs

variable [DecidableEq ι] [DecidableEq κ] {p : Script ι κ τ} {s t : State ι κ τ} {i : ι} {k : κ}

theorem conservation [Fintype ι] (h : p.system.Reachable s) (k : κ) :
    s.permits k + ∑ i, p.waited i k (s.position i) =
      p.permits k + ∑ i, p.signalled i k (s.position i) := by
  apply h.invariant (I := fun s => s.permits k + ∑ i, p.waited i k (s.position i) =
      p.permits k + ∑ i, p.signalled i k (s.position i))
  · simp [Script.system, Script.waited, Script.signalled]
  intro s i t ih hs
  have hpos := step_position hs
  have hw := sum_update (Finset.mem_univ i) s.position (fun i => p.waited i k) (s.position i + 1)
  have hg := sum_update (Finset.mem_univ i) s.position (fun i => p.signalled i k)
    (s.position i + 1)
  rw [← hpos] at hw hg
  obtain ⟨l, hl⟩ := line_of_step hs
  rw [Script.waited_succ hl] at hw
  rw [Script.signalled_succ hl] at hg
  have hpermits : t.permits k + l.waits k = s.permits k + l.signals k := by
    obtain ⟨k', hl', hk', rfl⟩ | ⟨k', c, hl', rfl⟩ | ⟨a, hl', rfl⟩ := step_cases hs
    all_goals
      obtain rfl := Option.some.inj (hl.symm.trans hl')
    · by_cases hkk : k' = k
      · subst hkk
        simp only [State.wait, Line.waits, Line.signals, Function.update_self, if_true]
        omega
      · simp [State.wait, Line.waits, Line.signals, hkk, Ne.symm hkk]
    · by_cases hkk : k' = k
      · subst hkk
        simp [State.signal, Line.waits, Line.signals]
      · simp [State.signal, Line.waits, Line.signals, hkk, Ne.symm hkk]
    · rfl
  omega

/-- A thread has passed a wait only after another has given permits, when there were none at
the start. -/
theorem exists_signaller [Fintype ι] (h : p.system.Reachable s) (hk : p.permits k = 0) {m : ℕ}
    (hl : p.line i m = some (.wait k)) (hm : m < s.position i) :
    ∃ j n c, n < s.position j ∧ p.line j n = some (.signal k c) := by
  have hc := conservation h k
  have hw := (Script.waited_pos hl hm).trans_le
    (weight_le_sum (Finset.mem_univ i) fun j => p.waited j k (s.position j))
  obtain ⟨j, -, hj⟩ := exists_of_sum_pos (w := fun j => p.signalled j k (s.position j))
    (s := Finset.univ) (by omega)
  obtain ⟨n, c, -, hn, hg⟩ := Script.exists_signal (m := 0) hj
  exact ⟨j, n, c, hn, hg⟩

/-- What holds whenever a statement is at hand holds of all that precedes it. -/
theorem done_order {P : List (ι × τ) → ι × τ → Prop}
    (hP : ∀ s i a, p.system.Reachable s → p.line i (s.position i) = some (.statement a) →
      P s.done (i, a))
    (h : p.system.Reachable s) (l₁ : List (ι × τ)) (x : ι × τ) (l₂ : List (ι × τ))
    (hd : s.done = l₁ ++ x :: l₂) : P l₁ x := by
  revert l₁ x l₂ hd
  apply h.invariant' (I := fun s => ∀ l₁ x l₂, s.done = l₁ ++ x :: l₂ → P l₁ x)
  · intro l₁ x l₂ hd
    simp [Script.system] at hd
  intro s i t hr ih hs l₁ x l₂ hd
  obtain ⟨k, -, -, rfl⟩ | ⟨k, c, -, rfl⟩ | ⟨a, hl, rfl⟩ := step_cases hs
  · exact ih l₁ x l₂ hd
  · exact ih l₁ x l₂ hd
  · obtain rfl | ⟨l₂, y, rfl⟩ := List.eq_nil_or_concat l₂
    · obtain ⟨rfl, hx⟩ := List.append_inj' hd rfl
      rw [← List.head_eq_of_cons_eq hx]
      exact hP s i a hr hl
    · rw [List.concat_eq_append, ← List.cons_append, ← List.append_assoc] at hd
      exact ih l₁ x l₂ (List.append_inj' hd rfl).1

/-- The statement of a line. -/
def Line.statement? : Line κ τ → Option τ
  | statement a => some a
  | _ => none

/-- The statements of a thread before a position. -/
def Script.executed (p : Script ι κ τ) (i : ι) (n : ℕ) : List τ :=
  (List.range n).filterMap fun m => (p.line i m).bind Line.statement?

omit [DecidableEq ι] [DecidableEq κ] in
theorem Script.executed_succ {l : Line κ τ} {n : ℕ} (h : p.line i n = some l) :
    p.executed i (n + 1) = p.executed i n ++ l.statement?.toList := by
  rw [executed, List.range_succ, List.filterMap_append, executed]
  congr 1
  cases hl : l.statement? <;> simp [h, hl]

/-- The log holds the statements of each thread in the order of its lines. -/
theorem done_filter (h : p.system.Reachable s) (i : ι) :
    (s.done.filter (·.1 = i)).map Prod.snd = p.executed i (s.position i) := by
  apply h.invariant (I := fun s =>
    (s.done.filter (·.1 = i)).map Prod.snd = p.executed i (s.position i))
  · rfl
  intro s j t ih hs
  rw [step_position hs]
  obtain ⟨l, hl⟩ := line_of_step hs
  have hdone : t.done = s.done ++ l.statement?.toList.map (Prod.mk j) := by
    obtain ⟨k, hl', -, rfl⟩ | ⟨k, c, hl', rfl⟩ | ⟨a, hl', rfl⟩ := step_cases hs
    all_goals
      obtain rfl := Option.some.inj (hl.symm.trans hl')
      simp [Line.statement?, State.wait, State.signal, State.statement]
  rw [hdone, List.filter_append, List.map_append, ih]
  by_cases hij : i = j
  · subst hij
    rw [Function.update_self, Script.executed_succ hl]
    congr 1
    cases l.statement? <;> simp
  · rw [Function.update_of_ne hij]
    cases l.statement? <;> simp [Ne.symm hij]

theorem mem_done_iff (h : p.system.Reachable s) (i : ι) (a : τ) :
    (i, a) ∈ s.done ↔ ∃ m < s.position i, p.line i m = some (.statement a) := by
  have hmem : (i, a) ∈ s.done ↔ a ∈ p.executed i (s.position i) := by
    rw [← done_filter h]
    simp
  rw [hmem, Script.executed, List.mem_filterMap]
  constructor
  · rintro ⟨m, hm, hl⟩
    obtain ⟨l, hl, ha⟩ := Option.bind_eq_some_iff.mp hl
    cases l with
    | statement b => exact ⟨m, List.mem_range.mp hm, by rw [hl, Option.some.inj ha]⟩
    | _ => cases ha
  · rintro ⟨m, hm, hl⟩
    exact ⟨m, List.mem_range.mpr hm, by rw [hl]; rfl⟩

theorem count_done [DecidableEq τ] (done : List (ι × τ)) (i : ι) (a : τ) :
    done.count (i, a) = ((done.filter (·.1 = i)).map Prod.snd).count a := by
  induction done with
  | nil => rfl
  | cons x done ih =>
    obtain ⟨j, b⟩ := x
    by_cases hj : j = i
    · subst hj
      simp [List.count_cons, ih]
    · simp [hj, ih]

/-- `x` has been executed before any execution of `y`. -/
def Precedes (s : State ι κ τ) (x y : ι × τ) : Prop := ∀ l₁ l₂, s.done = l₁ ++ y :: l₂ → x ∈ l₁

omit [DecidableEq ι] [DecidableEq κ] in
theorem Precedes.trans {x y z : ι × τ} (h : Precedes s x y) (h' : Precedes s y z) :
    Precedes s x z := by
  intro l₁ l₂ hd
  obtain ⟨m₁, m₂, rfl⟩ := List.append_of_mem (h' l₁ l₂ hd)
  rw [List.append_assoc, List.cons_append] at hd
  exact List.mem_append_left _ (h m₁ _ hd)

/-- The lines that satisfy `q` come after `x`. -/
def Line.After (x : Line κ τ) (q : Line κ τ → Prop) : List (Line κ τ) → Prop
  | [] => True
  | y :: l => ¬ q y ∧ (y = x ∨ Line.After x q l)

instance Line.decidableAfter [DecidableEq τ] (x : Line κ τ) (q : Line κ τ → Prop)
    [DecidablePred q] : ∀ l, Decidable (Line.After x q l)
  | [] => .isTrue trivial
  | y :: l =>
    have := decidableAfter x q l
    inferInstanceAs (Decidable (¬ q y ∧ (y = x ∨ Line.After x q l)))

omit [DecidableEq ι] [DecidableEq κ] in
theorem Line.After.exists_before {x y : Line κ τ} {q : Line κ τ → Prop} {l : List (Line κ τ)}
    (h : Line.After x q l) {n : ℕ} (hl : l[n]? = some y) (hy : q y) : ∃ m < n, l[m]? = some x := by
  induction l generalizing n with
  | nil => cases hl
  | cons z l ih =>
    obtain ⟨hz, rfl | hrest⟩ := h
    all_goals
      cases n with
      | zero =>
        obtain rfl := Option.some.inj hl
        exact absurd hy hz
      | succ n => ?_
    · exact ⟨0, Nat.succ_pos n, rfl⟩
    · obtain ⟨m, hm, hx⟩ := ih hrest hl
      exact ⟨m + 1, Nat.succ_lt_succ hm, hx⟩

/-- Gives permits of this semaphore. -/
def Line.Signals (k : κ) : Line κ τ → Prop
  | signal k' _ => k' = k
  | _ => False

instance (k : κ) : DecidablePred (Line.Signals (τ := τ) k)
  | .signal k' _ => inferInstanceAs (Decidable (k' = k))
  | .wait _ => .isFalse id
  | .statement _ => .isFalse id

/-- `y` waits for a permit that is given only after `x`. -/
theorem precedes_of_signal [Fintype ι] {j : ι} {a b : τ} (hk : p.permits k = 0)
    (hwait : ∀ n, p.line i n = some (.statement a) → ∃ m < n, p.line i m = some (.wait k))
    (hsignal : ∀ j' n c, p.line j' n = some (.signal k c) →
      j' = j ∧ ∃ m < n, p.line j m = some (.statement b))
    (h : p.system.Reachable s) : Precedes s (j, b) (i, a) := by
  have horder := done_order (P := fun l x => x = (i, a) → (j, b) ∈ l) ?_ h
  · exact fun l₁ l₂ hd => horder l₁ _ l₂ hd rfl
  rintro s i' a' hs hl heq
  obtain ⟨rfl, rfl⟩ := Prod.mk.inj heq
  obtain ⟨m, hm, hl'⟩ := hwait _ hl
  obtain ⟨j', n, c, hn, hg⟩ := exists_signaller hs hk hl' hm
  obtain ⟨rfl, m', hm', hb⟩ := hsignal j' n c hg
  exact (mem_done_iff hs j' b).mpr ⟨m', hm'.trans hn, hb⟩

/-- The steps of a run are the lines that the threads have gone through. -/
theorem length_of_run [Fintype ι] {l : List ι} (h : p.system.run l = some s) :
    ∑ i, s.position i = l.length := by
  induction l using List.reverseRecOn generalizing s with
  | nil =>
    obtain rfl := Option.some.inj h
    simp [Script.system]
  | append_singleton l i ih =>
    rw [System.run, List.foldlM_append] at h
    obtain ⟨r, hr, hs⟩ := Option.bind_eq_some_iff.mp h
    have hi : p.system.step r i = some s := by simpa using hs
    have hsum := sum_move r.position i id (r.position i + 1)
    simp only [id, ← step_position hi, ih hr] at hsum
    rw [List.length_append]
    simp only [List.length_singleton]
    omega

end Runs

end Concurrente.Semaphores
