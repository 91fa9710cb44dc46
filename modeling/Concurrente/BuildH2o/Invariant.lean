import Concurrente.BuildH2o.Program

/-!
# The phases of the bond area

In even phases of the barrier atoms gather at the entrance, in odd phases the three atoms of
one group bond and gather at the exit.  An atom keeps its permit until it has left, so that
the atoms of the next group cannot reach the exit with them.
-/

namespace Concurrente.BuildH2o

open Threads

variable {cfg : Config}

/-- A weight summed over the atoms of one kind. -/
def tally (a : Atom) (w : Pc → ℕ) (thread : Thread cfg → Pc) : ℕ :=
  ∑ i, if atom cfg i = a then w (thread i) else 0

section Tallies

variable {thread : Thread cfg → Pc} {w w' : Pc → ℕ} {a : Atom} {i : Thread cfg} {n : Pc}

theorem tally_move (a : Atom) (w : Pc → ℕ) (thread : Thread cfg → Pc) (i : Thread cfg) (n : Pc) :
    tally a w (Function.update thread i n) + (if atom cfg i = a then w (thread i) else 0) =
      tally a w thread + if atom cfg i = a then w n else 0 :=
  sum_update (Finset.mem_univ i) thread (fun i pc => if atom cfg i = a then w pc else 0) n

theorem tally_same (h : w n = w (thread i)) :
    tally a w (Function.update thread i n) = tally a w thread := by
  have := tally_move a w thread i n
  rw [h] at this
  omega

theorem tally_mono (h : ∀ i, w (thread i) ≤ w' (thread i)) :
    tally a w thread ≤ tally a w' thread := by
  apply Finset.sum_le_sum
  intro i _
  split
  · exact h i
  · exact le_rfl

theorem tally_congr (h : ∀ i, w (thread i) = w' (thread i)) :
    tally a w thread = tally a w' thread :=
  Nat.le_antisymm (tally_mono fun i => (h i).le) (tally_mono fun i => (h i).ge)

theorem sum_eq_tally (w : Pc → ℕ) (thread : Thread cfg → Pc) :
    ∑ i, w (thread i) = tally .hydrogen w thread + tally .oxygen w thread := by
  rw [tally, tally, ← Finset.sum_add_distrib]
  apply Finset.sum_congr rfl
  intro i _
  cases atom cfg i <;> simp

theorem eq_of_tally (h : ∀ i, w (thread i) ≤ w' (thread i))
    (ht : tally (atom cfg i) w' thread ≤ tally (atom cfg i) w thread) :
    w (thread i) = w' (thread i) := by
  by_contra hne
  have hlt : tally (atom cfg i) w thread < tally (atom cfg i) w' thread := by
    apply Finset.sum_lt_sum
    · intro j _
      split
      · exact h j
      · exact le_rfl
    · refine ⟨i, Finset.mem_univ i, ?_⟩
      rw [if_pos rfl, if_pos rfl]
      exact lt_of_le_of_ne (h i) hne
  omega

end Tallies

namespace Pc

def holds : Pc → ℕ
  | acquire | returned _ => 0
  | _ => 1

/-- The atom waits for the end of this phase. -/
def waiting (phase : ℕ) : Pc → ℕ
  | waitEnter group => if group = phase then 1 else 0
  | waitExit _ token => if token = phase then 1 else 0
  | _ => 0

def inGroup (g : ℕ) (pc : Pc) : ℕ := if pc.group = some g then 1 else 0

/-- The atom has entered with a phase that is over. -/
def entered (phase : ℕ) (pc : Pc) : ℕ :=
  match pc.group with
  | some g => if g < phase then 1 else 0
  | none => 0

/-- `bond` has counted the atom with its group. -/
def counted (g : ℕ) : Pc → ℕ
  | check h | unlock h | exit h | waitExit h _ | release h | returned h => if h = g then 1 else 0
  | _ => 0

def bondedIn (g : ℕ) (pc : Pc) : ℕ := if pc.bonded ∧ pc.group = some g then 1 else 0

/-- Where the atoms can be in a phase of the barrier. -/
def Fits (phase : ℕ) : Pc → Prop
  | acquire => True
  | enter => phase % 2 = 0
  | waitEnter g => g % 2 = 0 ∧ (g = phase ∨ g + 1 = phase)
  | lock g | bond g | check g | unlock g | exit g => g % 2 = 0 ∧ g + 1 = phase
  | waitExit g token => g % 2 = 0 ∧ token = g + 1 ∧ (token = phase ∨ token + 1 = phase)
  | release g => g % 2 = 0 ∧ g + 2 = phase
  | returned g => g % 2 = 0 ∧ g + 2 ≤ phase

theorem waiting_le_holds (phase : ℕ) (pc : Pc) : pc.waiting phase ≤ pc.holds := by
  cases pc with
  | waitEnter g | waitExit g token =>
    simp only [waiting, holds]
    split <;> omega
  | _ => exact Nat.zero_le _

end Pc

/-- The permits, the groups and the barrier in terms of the atoms. -/
structure Gathered (cfg : Config) (m : Shared) (thread : Thread cfg → Pc) : Prop where
  permits : ∀ a, m.multiplex a + tally a Pc.holds thread = a.permits
  fits : ∀ i, (thread i).Fits m.phase
  grouped : ∀ a g, g % 2 = 0 → g < m.phase → tally a (Pc.inGroup g) thread = a.permits
  entered : ∀ a, tally a (Pc.entered m.phase) thread = a.permits * ((m.phase + 1) / 2)
  arrived : m.arrived = ∑ i, (thread i).waiting m.phase
  arrived_lt : m.arrived < 3

section Moves

variable {m m' : Shared} {thread : Thread cfg → Pc} {i : Thread cfg} {n : Pc}

theorem forall_fits {phase : ℕ} (h : ∀ i, (thread i).Fits phase) (hn : n.Fits phase) (j) :
    (Function.update thread i n j).Fits phase :=
  all_update (P := fun pc : Pc => pc.Fits phase) h hn j

theorem Gathered.move (I : Gathered cfg m thread) (hm : m'.multiplex = m.multiplex)
    (ha : m'.arrived = m.arrived) (hp : m'.phase = m.phase)
    (hholds : n.holds = (thread i).holds) (hgroup : n.group = (thread i).group)
    (hwaiting : n.waiting m.phase = (thread i).waiting m.phase) (hfits : n.Fits m.phase) :
    Gathered cfg m' (Function.update thread i n) := by
  constructor
  · intro a
    rw [hm, tally_same hholds]
    exact I.permits a
  · rw [hp]
    exact forall_fits I.fits hfits
  · intro a g hg hlt
    rw [tally_same (by simp only [Pc.inGroup, hgroup])]
    exact I.grouped a g hg (hp ▸ hlt)
  · intro a
    rw [hp, tally_same (by simp only [Pc.entered, hgroup])]
    exact I.entered a
  · rw [ha, hp, sum_same hwaiting]
    exact I.arrived
  · rw [ha]
    exact I.arrived_lt

theorem Gathered.no_permit (I : Gathered cfg m thread) (h : m.phase % 2 = 1) (a : Atom) :
    m.multiplex a = 0 := by
  have hg := I.grouped a (m.phase - 1) (by omega) (by omega)
  have hle : tally a (Pc.inGroup (m.phase - 1)) thread ≤ tally a Pc.holds thread := by
    apply tally_mono
    intro j
    have hf := I.fits j
    cases hj : thread j with
    | returned g =>
      rw [hj] at hf
      have hne : some g ≠ some (m.phase - 1) := by
        have := hf.2
        simp only [ne_eq, Option.some.injEq]
        omega
      rw [Pc.inGroup, Pc.group, if_neg hne]
      exact Nat.zero_le _
    | acquire => exact Nat.zero_le _
    | _ =>
      simp only [Pc.inGroup, Pc.holds]
      split <;> omega
  have := I.permits a
  omega

theorem Gathered.acquire (I : Gathered cfg m thread) (h : thread i = .acquire)
    (hp : 1 ≤ m.multiplex (atom cfg i)) :
    Gathered cfg (m.take (atom cfg i)) (Function.update thread i .enter) := by
  constructor
  · intro a
    have htally := tally_move a Pc.holds thread i .enter
    have hpermits := I.permits a
    rw [h] at htally
    simp only [Shared.take, Function.update_apply, Pc.holds, eq_comm (a := atom cfg i)] at htally ⊢
    split_ifs at htally ⊢ with ha
    · subst ha
      omega
    · omega
  · apply forall_fits I.fits
    by_contra hodd
    have := I.no_permit (by simp only [Pc.Fits] at hodd; omega) (atom cfg i)
    omega
  · intro a g hg hlt
    rw [tally_same (by rw [h]; rfl)]
    exact I.grouped a g hg hlt
  · intro a
    rw [tally_same (by rw [h]; rfl)]
    exact I.entered a
  · have hsum := sum_move thread i (Pc.waiting m.phase) .enter
    rw [h] at hsum
    simp only [Pc.waiting, Nat.add_zero] at hsum
    exact I.arrived.trans hsum.symm
  · exact I.arrived_lt

theorem Gathered.release (I : Gathered cfg m thread) {g : ℕ} (h : thread i = .release g) :
    Gathered cfg (m.release (atom cfg i) g).1
      (Function.update thread i (m.release (atom cfg i) g).2) := by
  have hf := I.fits i
  rw [h] at hf
  constructor
  · intro a
    have htally := tally_move a Pc.holds thread i (.returned g)
    have hpermits := I.permits a
    rw [h] at htally
    simp only [Shared.release, Function.update_apply, Pc.holds, eq_comm (a := atom cfg i)]
      at htally ⊢
    split_ifs at htally ⊢ with ha
    · subst ha
      omega
    · omega
  · exact forall_fits I.fits ⟨hf.1, hf.2.le⟩
  · intro a g' hg hlt
    simp only [Shared.release]
    rw [tally_same (by rw [h]; rfl)]
    exact I.grouped a g' hg hlt
  · intro a
    simp only [Shared.release]
    rw [tally_same (by rw [h]; rfl)]
    exact I.entered a
  · have hsum := sum_move thread i (Pc.waiting m.phase) (.returned g)
    rw [h] at hsum
    simp only [Pc.waiting, Nat.add_zero] at hsum
    exact I.arrived.trans hsum.symm
  · exact I.arrived_lt

theorem inGroup_arrive {pc : Pc} {phase g : ℕ}
    (hgroup : n.group = pc.group ∨ pc.group = none ∧ n.group = some phase) (hlt : g < phase) :
    n.inGroup g = pc.inGroup g := by
  rcases hgroup with hgroup | ⟨hnone, hsome⟩
  · rw [Pc.inGroup, Pc.inGroup, hgroup]
  · have hne : some phase ≠ some g := by
      simp only [ne_eq, Option.some.injEq]
      omega
    rw [Pc.inGroup, Pc.inGroup, hsome, hnone, if_neg hne, if_neg (Option.some_ne_none g).symm]

theorem entered_arrive {pc : Pc} {phase : ℕ}
    (hgroup : n.group = pc.group ∨ pc.group = none ∧ n.group = some phase) :
    n.entered phase = pc.entered phase := by
  rcases hgroup with hgroup | ⟨hnone, hsome⟩
  · rw [Pc.entered, Pc.entered, hgroup]
  · rw [Pc.entered, Pc.entered, hsome, hnone]
    exact if_neg (lt_irrefl phase)

theorem Gathered.arrive (I : Gathered cfg m thread) (hl : m.arrived + 1 ≠ 3)
    (hholds : n.holds = (thread i).holds) (hold : (thread i).waiting m.phase = 0)
    (hnew : n.waiting m.phase = 1) (hfits : n.Fits m.phase)
    (hgroup : n.group = (thread i).group ∨ (thread i).group = none ∧ n.group = some m.phase) :
    Gathered cfg m.arrive (Function.update thread i n) := by
  have harrive : m.arrive = { m with arrived := m.arrived + 1 } := if_neg hl
  have hsum := sum_move thread i (Pc.waiting m.phase) n
  rw [harrive]
  constructor
  · intro a
    rw [tally_same hholds]
    exact I.permits a
  · exact forall_fits I.fits hfits
  · intro a g hg hlt
    rw [tally_same (inGroup_arrive hgroup hlt)]
    exact I.grouped a g hg hlt
  · intro a
    rw [tally_same (entered_arrive hgroup)]
    exact I.entered a
  · have := I.arrived
    dsimp only
    omega
  · have := I.arrived_lt
    dsimp only
    omega

theorem Gathered.full (I : Gathered cfg m thread) (hl : m.arrived + 1 = 3)
    (hholds : n.holds = (thread i).holds) (hold : (thread i).waiting m.phase = 0)
    (hnew : n.waiting m.phase = 1) :
    (∀ a, tally a (Pc.waiting m.phase) (Function.update thread i n) = a.permits) ∧
    ∀ j, (Function.update thread i n j).waiting m.phase =
      (Function.update thread i n j).holds := by
  -- who waits holds a permit, so no atom waits more often than it has permits
  have hle : ∀ a, tally a (Pc.waiting m.phase) (Function.update thread i n) ≤ a.permits := by
    intro a
    have hmono : tally a (Pc.waiting m.phase) (Function.update thread i n) ≤
        tally a Pc.holds (Function.update thread i n) :=
      tally_mono fun j => Pc.waiting_le_holds _ _
    rw [tally_same hholds] at hmono
    have := I.permits a
    omega
  have hsum := sum_move thread i (Pc.waiting m.phase) n
  rw [sum_eq_tally, ← I.arrived] at hsum
  have hh := hle .hydrogen
  have ho := hle .oxygen
  simp only [Atom.permits] at hh ho
  have heq : ∀ a, tally a (Pc.waiting m.phase) (Function.update thread i n) = a.permits := by
    rintro (- | -) <;> simp only [Atom.permits] <;> omega
  refine ⟨heq, fun j => eq_of_tally (fun j => Pc.waiting_le_holds _ _) ?_⟩
  rw [heq, tally_same hholds]
  have := I.permits (atom cfg j)
  omega

theorem Pc.Fits.next {phase : ℕ} {pc : Pc} (h : pc.Fits phase)
    (hw : pc.waiting phase = pc.holds) : pc.Fits (phase + 1) := by
  cases pc with
  | acquire => trivial
  | waitEnter g =>
    simp only [waiting, holds, ite_eq_left_iff, zero_ne_one, imp_false, not_not] at hw
    exact ⟨h.1, .inr (congrArg (· + 1) hw)⟩
  | waitExit g token =>
    simp only [waiting, holds, ite_eq_left_iff, zero_ne_one, imp_false, not_not] at hw
    exact ⟨h.1, h.2.1, .inr (congrArg (· + 1) hw)⟩
  | returned g => exact ⟨h.1, Nat.le_succ_of_le h.2⟩
  | _ => cases hw

theorem Pc.Fits.waiting_succ {phase : ℕ} {pc : Pc} (h : pc.Fits phase) :
    pc.waiting (phase + 1) = 0 := by
  cases pc with
  | waitEnter g =>
    have := h.2
    exact if_neg (by omega)
  | waitExit g token =>
    have := h.2.2
    exact if_neg (by omega)
  | _ => rfl

theorem Pc.Fits.inGroup_even {phase : ℕ} {pc : Pc} (h : pc.Fits phase) (heven : phase % 2 = 0) :
    pc.inGroup phase = pc.waiting phase := by
  cases pc with
  | acquire | enter => rfl
  | waitEnter g => simp [inGroup, group, waiting]
  | waitExit g token =>
    obtain ⟨hg, htoken, hphase⟩ := h
    rw [inGroup, group, waiting, if_neg (by simp only [Option.some.injEq]; omega),
      if_neg (by omega)]
  | lock g | bond g | check g | unlock g | exit g | release g | returned g =>
    have := h.2
    rw [inGroup, group, if_neg (by simp only [Option.some.injEq]; omega)]
    rfl

theorem Pc.entered_even {phase : ℕ} (pc : Pc) :
    pc.entered (phase + 1) = pc.entered phase + pc.inGroup phase := by
  unfold entered inGroup
  cases pc.group with
  | none => simp
  | some g =>
    simp only [Option.some.injEq]
    split_ifs <;> omega

theorem Pc.Fits.inGroup_odd {phase g : ℕ} {pc : Pc} (h : pc.Fits phase) (hg : g % 2 = 1) :
    pc.inGroup g = 0 := by
  cases pc with
  | acquire | enter => rfl
  | waitEnter k | lock k | bond k | check k | unlock k | exit k | waitExit k token | release k
  | returned k =>
    have := h.1
    exact if_neg (by simp only [Pc.group, Option.some.injEq]; omega)

theorem tally_add (a : Atom) (w w' : Pc → ℕ) (thread : Thread cfg → Pc) :
    tally a (fun pc => w pc + w' pc) thread = tally a w thread + tally a w' thread := by
  rw [tally, tally, tally, ← Finset.sum_add_distrib]
  apply Finset.sum_congr rfl
  intro i _
  split <;> rfl

theorem Gathered.opened (hpermits : ∀ a, m.multiplex a + tally a Pc.holds thread = a.permits)
    (hfits : ∀ i, (thread i).Fits m.phase)
    (hgrouped : ∀ a g, g % 2 = 0 → g < m.phase → tally a (Pc.inGroup g) thread = a.permits)
    (hentered : ∀ a, tally a (Pc.entered m.phase) thread = a.permits * ((m.phase + 1) / 2))
    (hfull : ∀ a, tally a (Pc.waiting m.phase) thread = a.permits)
    (hwait : ∀ i, (thread i).waiting m.phase = (thread i).holds) :
    Gathered cfg { m with arrived := 0, phase := m.phase + 1 } thread where
  permits := hpermits
  fits i := (hfits i).next (hwait i)
  grouped a g hg hlt := by
    rcases Nat.lt_succ_iff_lt_or_eq.mp hlt with hlt | rfl
    · exact hgrouped a g hg hlt
    · rw [← hfull a]
      exact tally_congr fun i => (hfits i).inGroup_even hg
  entered a := by
    have hsucc : tally a (Pc.entered (m.phase + 1)) thread =
        tally a (Pc.entered m.phase) thread + tally a (Pc.inGroup m.phase) thread := by
      rw [← tally_add]
      exact tally_congr fun i => Pc.entered_even _
    rw [hsucc, hentered]
    rcases Nat.mod_two_eq_zero_or_one m.phase with heven | hodd
    · have hnew : tally a (Pc.inGroup m.phase) thread = a.permits := by
        rw [← hfull a]
        exact tally_congr fun i => (hfits i).inGroup_even heven
      have hdiv : (m.phase + 1 + 1) / 2 = (m.phase + 1) / 2 + 1 := by omega
      rw [hnew, hdiv, Nat.mul_succ]
    · have hnew : tally a (Pc.inGroup m.phase) thread = tally a (fun _ => 0) thread :=
        tally_congr fun i => (hfits i).inGroup_odd hodd
      have hdiv : (m.phase + 1 + 1) / 2 = (m.phase + 1) / 2 := by omega
      rw [hnew, hdiv]
      simp [tally]
  arrived := (Finset.sum_eq_zero fun i _ => (hfits i).waiting_succ).symm
  arrived_lt := Nat.zero_lt_succ 2

theorem Gathered.arrive_last (I : Gathered cfg m thread) (hl : m.arrived + 1 = 3)
    (hholds : n.holds = (thread i).holds) (hold : (thread i).waiting m.phase = 0)
    (hnew : n.waiting m.phase = 1) (hfits : n.Fits m.phase)
    (hgroup : n.group = (thread i).group ∨ (thread i).group = none ∧ n.group = some m.phase) :
    Gathered cfg m.arrive (Function.update thread i n) := by
  obtain ⟨hfull, hwait⟩ := I.full hl hholds hold hnew
  have harrive : m.arrive = { m with arrived := 0, phase := m.phase + 1 } := if_pos hl
  rw [harrive]
  refine Gathered.opened ?_ (forall_fits I.fits hfits) ?_ ?_ hfull hwait
  · intro a
    rw [tally_same hholds]
    exact I.permits a
  · intro a g hg hlt
    rw [tally_same (inGroup_arrive hgroup hlt)]
    exact I.grouped a g hg hlt
  · intro a
    rw [tally_same (entered_arrive hgroup)]
    exact I.entered a

theorem Gathered.arrival (I : Gathered cfg m thread) (hholds : n.holds = (thread i).holds)
    (hold : (thread i).waiting m.phase = 0) (hnew : n.waiting m.phase = 1)
    (hfits : n.Fits m.phase)
    (hgroup : n.group = (thread i).group ∨ (thread i).group = none ∧ n.group = some m.phase) :
    Gathered cfg m.arrive (Function.update thread i n) := by
  by_cases hl : m.arrived + 1 = 3
  · exact I.arrive_last hl hholds hold hnew hfits hgroup
  · exact I.arrive hl hholds hold hnew hfits hgroup

theorem gathered_start : Gathered cfg (code cfg).memory (code cfg).start := by
  have hzero : ∀ a (w : Pc → ℕ), w .acquire = 0 →
      tally a w (code cfg).start = 0 := by
    intro a w hw
    apply Finset.sum_eq_zero
    intro i _
    simp [code, hw]
  refine ⟨fun a => ?_, fun i => trivial, fun a g _ hlt => absurd hlt (Nat.not_lt_zero g),
    fun a => ?_, ?_, Nat.zero_lt_succ 2⟩
  · exact congrArg (a.permits + ·) (hzero a Pc.holds rfl)
  · exact (hzero a (Pc.entered 0) rfl).trans (by simp [code])
  · exact (Finset.sum_eq_zero fun i _ => rfl).symm

theorem Gathered.access (I : Gathered cfg m thread) {run : Shared → Option (Shared × Pc)}
    {r : Shared × Pc} (h : next cfg i (thread i) = .access run) (hr : run m = some r) :
    Gathered cfg r.1 (Function.update thread i r.2) := by
  have hf := I.fits i
  rcases access_cases h hr with ⟨hpc, hp, rfl⟩ | ⟨hpc, rfl⟩ | ⟨g, hpc, hne, rfl⟩ |
    ⟨g, hpc, rfl⟩ | ⟨g, hpc, rfl⟩ | ⟨g, hpc, rfl⟩ | ⟨g, token, hpc, hne, rfl⟩ | ⟨g, hpc, rfl⟩ <;>
  rw [hpc] at hf
  · exact I.acquire hpc hp
  · exact I.arrival (by rw [hpc]; rfl) (by rw [hpc]; rfl) (if_pos rfl) ⟨hf, .inl rfl⟩
      (.inr ⟨by rw [hpc]; rfl, rfl⟩)
  · refine I.move rfl rfl rfl (by rw [hpc]; rfl) (by rw [hpc]; rfl) ?_
      ⟨hf.1, hf.2.resolve_left hne.symm⟩
    rw [hpc]
    exact (if_neg hne.symm).symm
  · exact I.move rfl rfl rfl (by rw [hpc]; rfl) (by rw [hpc]; rfl) (by rw [hpc]; rfl) hf
  · rw [check_snd]
    refine I.move ?_ ?_ ?_ (by rw [hpc]; rfl) (by rw [hpc]; rfl) (by rw [hpc]; rfl) hf <;>
      unfold Shared.check <;> split <;> rfl
  · exact I.arrival (by rw [hpc]; rfl) (by rw [hpc]; rfl) (if_pos rfl)
      ⟨hf.1, hf.2.symm, .inl rfl⟩ (.inl (by rw [hpc]; rfl))
  · have hphase := hf.2.2.resolve_left hne.symm
    have htoken := hf.2.1
    refine I.move rfl rfl rfl (by rw [hpc]; rfl) (by rw [hpc]; rfl) ?_ ⟨hf.1, by omega⟩
    rw [hpc]
    exact (if_neg hne.symm).symm
  · exact I.release hpc

theorem reachable_gathered {s : Run cfg} (h : (code cfg).system.Reachable s) :
    Gathered cfg s.memory s.thread := by
  apply Threads.reachable_invariant (I := Gathered cfg) gathered_start _ _ h
  · intro s i m n _ hn I
    have hf := I.fits i
    cases hpc : s.thread i <;> rw [hpc] at hn hf <;> rcases hn with hn | hn <;> cases hn <;>
      exact I.move rfl rfl rfl (by rw [hpc]; rfl) (by rw [hpc]; rfl) (by rw [hpc]; rfl) hf
  · intro s i run r _ hn hr I
    exact I.access hn hr

end Moves

end Concurrente.BuildH2o
