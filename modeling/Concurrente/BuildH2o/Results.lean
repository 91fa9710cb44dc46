import Concurrente.BuildH2o.Invariant

/-!
# Every molecule is made of two hydrogen atoms and one oxygen atom
-/

namespace Concurrente.BuildH2o

open Threads

variable {cfg : Config}

/-- The counters count the atoms of the group inside until the last of them has bonded. -/
structure Bonding (m : Shared) (thread : Thread cfg → Pc) : Prop where
  empty : m.phase % 2 = 0 → (∀ a, m.count a = 0) ∧ m.moleculeCount = m.phase / 2
  some : ∀ g, g % 2 = 0 → g + 1 = m.phase → ∑ i, (thread i).bondedIn g < 3 →
    (∀ a, m.count a = tally a (Pc.counted g) thread) ∧ m.moleculeCount = g / 2
  all : ∀ g, g % 2 = 0 → g + 1 = m.phase → ∑ i, (thread i).bondedIn g = 3 →
    (∀ a, m.count a = 0) ∧ m.moleculeCount = g / 2 + 1

section Moves

variable {m m' : Shared} {thread : Thread cfg → Pc} {i : Thread cfg} {n : Pc} {g : ℕ}

theorem bondedIn_le_counted (g : ℕ) (pc : Pc) : pc.bondedIn g ≤ pc.counted g := by
  cases pc <;> simp [Pc.bondedIn, Pc.bonded, Pc.counted, Pc.group]

theorem Bonding.move (I : Bonding m thread) (hp : m'.phase = m.phase) (hc : m'.count = m.count)
    (hm : m'.moleculeCount = m.moleculeCount) (hcounted : ∀ g, n.counted g = (thread i).counted g)
    (hbonded : ∀ g, n.bondedIn g = (thread i).bondedIn g) :
    Bonding m' (Function.update thread i n) := by
  constructor <;> simp only [hp, hc, hm, sum_same (hbonded _), tally_same (hcounted _)]
  · exact I.empty
  · exact I.some
  · exact I.all

theorem bondedIn_le_inGroup (g : ℕ) (pc : Pc) : pc.bondedIn g ≤ pc.inGroup g := by
  unfold Pc.bondedIn Pc.inGroup
  split_ifs with h h'
  · exact le_rfl
  · exact absurd h.2 h'
  · exact Nat.zero_le _
  · exact le_rfl

theorem counted_le_inGroup (g : ℕ) (pc : Pc) : pc.counted g ≤ pc.inGroup g := by
  cases pc <;> simp [Pc.counted, Pc.inGroup, Pc.group]

theorem Gathered.sum_inGroup (G : Gathered cfg m thread) (hg : g % 2 = 0) (hlt : g < m.phase) :
    ∑ j, (thread j).inGroup g = 3 := by
  rw [sum_eq_tally, G.grouped _ g hg hlt, G.grouped _ g hg hlt]
  rfl

theorem Gathered.sum_bondedIn_le (G : Gathered cfg m thread) (hg : g % 2 = 0)
    (hlt : g < m.phase) : ∑ j, (thread j).bondedIn g ≤ 3 := by
  rw [← G.sum_inGroup hg hlt]
  exact Finset.sum_le_sum fun j _ => bondedIn_le_inGroup g _

theorem Gathered.bonded_lt (G : Gathered cfg m thread) (hg : g % 2 = 0) (hlt : g < m.phase)
    (h : (thread i).bondedIn g = 0) (hin : (thread i).group = some g) :
    ∑ j, (thread j).bondedIn g < 3 := by
  rw [← G.sum_inGroup hg hlt]
  apply Finset.sum_lt_sum
  · exact fun j _ => bondedIn_le_inGroup g _
  · refine ⟨i, Finset.mem_univ i, ?_⟩
    rw [h, Pc.inGroup, if_pos hin]
    exact Nat.one_pos

theorem Bonding.bond (I : Bonding m thread) (G : Gathered cfg m thread) (h : thread i = .bond g) :
    Bonding (m.bond (atom cfg i) g).1 (Function.update thread i (m.bond (atom cfg i) g).2) := by
  have hf := G.fits i
  rw [h] at hf
  obtain ⟨hg, hphase⟩ := hf
  have hbonded : ∀ k, (Pc.check g).bondedIn k = (thread i).bondedIn k := by
    intro k
    rw [h]
    rfl
  have hgroup : ∀ k, k + 1 = m.phase → k = g := fun k hk => by omega
  constructor
  · intro heven
    have : (m.bond (atom cfg i) g).1.phase = m.phase := rfl
    omega
  · intro k hk hk' hlt
    obtain rfl := hgroup k hk'
    simp only [Shared.bond] at hlt ⊢
    rw [sum_same (hbonded k)] at hlt
    obtain ⟨hcount, hmol⟩ := I.some k hk hk' hlt
    refine ⟨fun a => ?_, hmol⟩
    have htally := tally_move a (Pc.counted k) thread i (.check k)
    rw [h] at htally
    simp only [Pc.counted, if_true, Function.update_apply, hcount] at htally ⊢
    by_cases ha : atom cfg i = a
    · subst ha
      simp only [if_true] at htally ⊢
      omega
    · simp only [if_neg ha, if_neg (Ne.symm ha)] at htally ⊢
      omega
  · intro k hk hk' hall
    obtain rfl := hgroup k hk'
    simp only [Shared.bond] at hall
    rw [sum_same (hbonded k)] at hall
    have := G.bonded_lt (i := i) hg (by omega) (by rw [h]; rfl) (by rw [h]; rfl)
    omega

theorem Gathered.count_le (G : Gathered cfg m thread) (I : Bonding m thread) (a : Atom) :
    m.count a ≤ a.permits := by
  rcases Nat.mod_two_eq_zero_or_one m.phase with heven | hodd
  · rw [(I.empty heven).1 a]
    exact Nat.zero_le _
  · have hg : (m.phase - 1) % 2 = 0 := by omega
    have hsum := G.sum_bondedIn_le hg (by omega)
    rcases Nat.lt_or_eq_of_le hsum with hlt | hall
    · rw [(I.some _ hg (by omega) hlt).1 a, ← G.grouped a _ hg (by omega)]
      exact tally_mono fun j => counted_le_inGroup _ _
    · rw [(I.all _ hg (by omega) hall).1 a]
      exact Nat.zero_le _

theorem Gathered.groups_le (G : Gathered cfg m thread) :
    (m.phase + 1) / 2 ≤ cfg.atoms.length := by
  have hle : tally .oxygen (Pc.entered m.phase) thread ≤ ∑ _j : Thread cfg, 1 := by
    apply Finset.sum_le_sum
    intro j _
    unfold Pc.entered
    split_ifs <;> first | exact Nat.zero_le _ | split <;> first | split_ifs <;> omega | omega
  rw [G.entered, Finset.sum_const, Finset.card_univ, Fintype.card_fin, smul_eq_mul] at hle
  simpa [Atom.permits] using hle

theorem counted_eq (g : ℕ) (thread : Thread cfg → Pc) : ∑ j, (thread j).counted g =
    ∑ j, (thread j).bondedIn g + ∑ j, if thread j = .check g then 1 else 0 := by
  rw [← Finset.sum_add_distrib]
  apply Finset.sum_congr rfl
  intro j _
  cases thread j <;> simp [Pc.bondedIn, Pc.bonded, Pc.counted, Pc.group]

theorem Bonding.check (I : Bonding m thread) (G : Gathered cfg m thread)
    (hone : ∑ j, (if thread j = .check g then 1 else 0) ≤ 1) (h : thread i = .check g) :
    Bonding (m.check g).1 (Function.update thread i (m.check g).2) := by
  have hf := G.fits i
  rw [h] at hf
  obtain ⟨hg, hphase⟩ := hf
  have hgroup : ∀ k, k + 1 = m.phase → k = g := fun k hk => by omega
  have hlt := G.bonded_lt (i := i) hg (by omega) (by rw [h]; rfl) (by rw [h]; rfl)
  obtain ⟨hcount, hmol⟩ := I.some g hg hphase hlt
  have hcheck : ∑ j, (if thread j = .check g then 1 else 0) = 1 := by
    have := weight_le_sum (Finset.mem_univ i) fun j => if thread j = .check g then 1 else 0
    rw [if_pos h] at this
    omega
  have htotal := counted_eq g thread
  rw [hcheck, sum_eq_tally, ← hcount, ← hcount] at htotal
  have hhydrogen := G.count_le I .hydrogen
  have hoxygen := G.count_le I .oxygen
  simp only [Atom.permits] at hhydrogen hoxygen
  have hsum := sum_move thread i (Pc.bondedIn g) (.unlock g)
  have hold : (thread i).bondedIn g = 0 := by rw [h]; rfl
  have hnew : (Pc.unlock g).bondedIn g = 1 := by simp [Pc.bondedIn, Pc.bonded, Pc.group]
  rw [hold, hnew] at hsum
  have hmod : (g / 2 + 1) % 2 ^ 64 = g / 2 + 1 := by
    have := G.groups_le
    have := cfg.length_lt
    exact Nat.mod_eq_of_lt (by omega)
  rw [check_snd]
  unfold Shared.check
  split
  · rename_i hfull
    constructor
    · intro heven
      dsimp only at heven
      omega
    · intro k hk hk' hlt'
      obtain rfl := hgroup k hk'
      omega
    · intro k hk hk' hall
      obtain rfl := hgroup k hk'
      exact ⟨fun _ => rfl, by dsimp only; rw [hmol, hmod]⟩
  · rename_i hnot
    constructor
    · intro heven
      dsimp only at heven
      omega
    · intro k hk hk' hlt'
      obtain rfl := hgroup k hk'
      refine ⟨fun a => ?_, hmol⟩
      dsimp only
      rw [hcount, tally_same (by rw [h]; rfl)]
    · intro k hk hk' hall
      obtain rfl := hgroup k hk'
      exact absurd ⟨by omega, by omega⟩ hnot

theorem Pc.Fits.counted_even {phase : ℕ} {pc : Pc} (h : pc.Fits phase) :
    pc.counted phase = 0 := by
  cases pc with
  | check k | unlock k | exit k | release k | returned k | waitExit k token =>
    have := h.2
    exact if_neg (by omega)
  | _ => rfl

theorem Pc.Fits.bonded_odd {phase : ℕ} {pc : Pc} (h : pc.Fits phase) (hg : g % 2 = 0)
    (hphase : g + 1 = phase) (hw : pc.waiting phase = pc.holds) :
    pc.bondedIn g = pc.waiting phase := by
  cases pc with
  | acquire => rfl
  | waitExit k token =>
    obtain ⟨-, htoken, -⟩ := h
    simp only [waiting, holds, ite_eq_left_iff, zero_ne_one, imp_false, not_not] at hw
    have hk : k = g := by omega
    simp [bondedIn, bonded, group, waiting, hw, hk]
  | waitEnter k =>
    obtain ⟨hk, -⟩ := h
    simp only [waiting, holds, ite_eq_left_iff, zero_ne_one, imp_false, not_not] at hw
    omega
  | returned k =>
    have := h.2
    simp only [bondedIn, bonded, group, true_and, Option.some.injEq, waiting, ite_eq_right_iff,
      one_ne_zero, imp_false]
    omega
  | _ => cases hw

theorem Bonding.arrival (I : Bonding m thread) (G : Gathered cfg m thread)
    (hholds : n.holds = (thread i).holds) (hold : (thread i).waiting m.phase = 0)
    (hnew : n.waiting m.phase = 1) (hfits : n.Fits m.phase)
    (hcounted : ∀ g, n.counted g = (thread i).counted g)
    (hbonded : ∀ g, n.bondedIn g = (thread i).bondedIn g) :
    Bonding m.arrive (Function.update thread i n) := by
  by_cases hl : m.arrived + 1 = 3
  · obtain ⟨hfull, hwait⟩ := G.full hl hholds hold hnew
    have hfits' := forall_fits (i := i) G.fits hfits
    have harrive : m.arrive = { m with arrived := 0, phase := m.phase + 1 } := if_pos hl
    have I' : Bonding m (Function.update thread i n) := I.move rfl rfl rfl hcounted hbonded
    rw [harrive]
    constructor
    · intro heven
      dsimp only at heven ⊢
      have hsum : ∑ j, (Function.update thread i n j).bondedIn (m.phase - 1) = 3 := by
        have hsame : ∑ j, (Function.update thread i n j).bondedIn (m.phase - 1) =
            ∑ j, (Function.update thread i n j).waiting m.phase :=
          Finset.sum_congr rfl fun j _ =>
            (hfits' j).bonded_odd (by omega) (by omega) (hwait j)
        rw [hsame, sum_eq_tally, hfull, hfull]
        rfl
      obtain ⟨hcount, hmol⟩ := I'.all (m.phase - 1) (by omega) (by omega) hsum
      exact ⟨hcount, by omega⟩
    · intro g hg hphase hlt
      dsimp only at hphase ⊢
      have hgp : g = m.phase := by omega
      subst hgp
      obtain ⟨hcount, hmol⟩ := I'.empty hg
      refine ⟨fun a => ?_, hmol⟩
      rw [hcount]
      refine (Finset.sum_eq_zero fun j _ => ?_).symm
      rw [(hfits' j).counted_even, ite_self]
    · intro g hg hphase hall
      dsimp only at hphase
      have hgp : g = m.phase := by omega
      subst hgp
      have hzero : ∑ j, (Function.update thread i n j).bondedIn m.phase = 0 := by
        apply Finset.sum_eq_zero
        intro j _
        have := bondedIn_le_counted m.phase (Function.update thread i n j)
        have := (hfits' j).counted_even
        omega
      omega
  · have harrive : m.arrive = { m with arrived := m.arrived + 1 } := if_neg hl
    rw [harrive]
    exact I.move rfl rfl rfl hcounted hbonded

theorem Bonding.access (I : Bonding m thread) (G : Gathered cfg m thread)
    (hone : ∀ g, ∑ j, (if thread j = .check g then 1 else 0) ≤ 1)
    {run : Shared → Option (Shared × Pc)} {r : Shared × Pc}
    (h : next cfg i (thread i) = .access run) (hr : run m = Option.some r) :
    Bonding r.1 (Function.update thread i r.2) := by
  have hf := G.fits i
  rcases access_cases h hr with ⟨hpc, hp, rfl⟩ | ⟨hpc, rfl⟩ | ⟨g, hpc, hne, rfl⟩ |
    ⟨g, hpc, rfl⟩ | ⟨g, hpc, rfl⟩ | ⟨g, hpc, rfl⟩ | ⟨g, token, hpc, hne, rfl⟩ | ⟨g, hpc, rfl⟩ <;>
  rw [hpc] at hf
  · exact I.move rfl rfl rfl (by rw [hpc]; exact fun _ => rfl) (by rw [hpc]; exact fun _ => rfl)
  · exact I.arrival G (by rw [hpc]; rfl) (by rw [hpc]; rfl) (if_pos rfl) ⟨hf, .inl rfl⟩
      (by rw [hpc]; exact fun _ => rfl) (by rw [hpc]; exact fun _ => rfl)
  · exact I.move rfl rfl rfl (by rw [hpc]; exact fun _ => rfl) (by rw [hpc]; exact fun _ => rfl)
  · exact I.bond G hpc
  · exact I.check G (hone g) hpc
  · exact I.arrival G (by rw [hpc]; rfl) (by rw [hpc]; rfl) (if_pos rfl)
      ⟨hf.1, hf.2.symm, .inl rfl⟩ (by rw [hpc]; exact fun _ => rfl)
      (by rw [hpc]; exact fun _ => rfl)
  · exact I.move rfl rfl rfl (by rw [hpc]; exact fun _ => rfl) (by rw [hpc]; exact fun _ => rfl)
  · exact I.move rfl rfl rfl (by rw [hpc]; exact fun _ => rfl) (by rw [hpc]; exact fun _ => rfl)

end Moves

theorem one_checks {s : Run cfg} (h : (code cfg).system.Reachable s) (g : ℕ) :
    ∑ j, (if s.thread j = .check g then 1 else 0) ≤ 1 := by
  have howners := reachable_owners (owns cfg) h ()
  have hle := Bool.toNat_le (s.locked ())
  refine le_trans (Finset.sum_le_sum fun j _ => ?_) (howners.trans_le hle)
  split
  · rename_i hj
    rw [hj]
    rfl
  · exact Nat.zero_le _

theorem reachable_bonding {s : Run cfg} (h : (code cfg).system.Reachable s) :
    Bonding s.memory s.thread := by
  apply Threads.reachable_invariant (I := Bonding) _ _ _ h
  · exact ⟨fun _ => ⟨fun _ => rfl, by simp [code]⟩, fun g _ hp => absurd hp (Nat.succ_ne_zero g),
      fun g _ hp => absurd hp (Nat.succ_ne_zero g)⟩
  · intro s i m n _ hn I
    cases hpc : s.thread i <;> rw [hpc] at hn <;> rcases hn with hn | hn <;> cases hn <;>
      exact I.move rfl rfl rfl (by rw [hpc]; exact fun _ => rfl) (by rw [hpc]; exact fun _ => rfl)
  · intro s i run r hr hn hrun I
    exact I.access (reachable_gathered hr) (one_checks hr) hn hrun

section Groups

variable {m : Shared} {thread : Thread cfg → Pc} {g : ℕ}

theorem Pc.Fits.group_even {phase : ℕ} {pc : Pc} (h : pc.Fits phase) (hg : pc.group = some g) :
    g % 2 = 0 := by
  by_contra hodd
  have := h.inGroup_odd (g := g) (by omega)
  rw [inGroup, if_pos hg] at this
  cases this

theorem before_of_bonded {pc : Pc} (h : pc.bonded = true) : pc.before = false := by
  cases pc <;> first | rfl | cases h

theorem Pc.Fits.group_le {phase : ℕ} {pc : Pc} (h : pc.Fits phase) (hg : pc.group = some g)
    (hb : pc.before = false) : g + 1 ≤ phase := by
  cases pc with
  | acquire | enter | waitEnter k => cases hb
  | lock k | bond k | check k | unlock k | exit k | release k | returned k | waitExit k token =>
    cases hg
    have := h.2
    omega

theorem Pc.Fits.left {phase : ℕ} {pc : Pc} (h : pc.Fits phase) (hg : pc.group = some g)
    (hlt : g + 2 ≤ phase) : pc.bonded = true ∧ pc.bonding = false := by
  cases pc with
  | acquire | enter => cases hg
  | waitEnter k | lock k | bond k | check k | unlock k =>
    cases hg
    have := h.2
    omega
  | exit k | waitExit k token | release k | returned k => exact ⟨rfl, rfl⟩

theorem full_iff (G : Gathered cfg m thread) (I : Bonding m thread) (g : ℕ) :
    ∑ j, (thread j).bondedIn g = 3 ↔ g % 2 = 0 ∧ g / 2 < m.moleculeCount := by
  have hzero : (∀ j, (thread j).bonded = true → (thread j).group ≠ some g) →
      ∑ j, (thread j).bondedIn g = 0 := fun h =>
    Finset.sum_eq_zero fun j _ => if_neg fun hj => h j hj.1 hj.2
  have hleft : g % 2 = 0 → g + 2 ≤ m.phase → ∑ j, (thread j).bondedIn g = 3 := by
    intro hg hlt
    rw [← G.sum_inGroup hg (by omega)]
    apply Finset.sum_congr rfl
    intro j _
    by_cases hj : (thread j).group = some g
    · rw [Pc.bondedIn, Pc.inGroup, if_pos hj, if_pos ⟨((G.fits j).left hj hlt).1, hj⟩]
    · rw [Pc.bondedIn, Pc.inGroup, if_neg hj, if_neg fun h => hj h.2]
  have hlate : g % 2 = 0 → m.phase ≤ g → ∑ j, (thread j).bondedIn g = 0 := by
    intro hg hle
    refine hzero fun j hb hj => ?_
    have := (G.fits j).group_le hj (before_of_bonded hb)
    omega
  rcases Nat.mod_two_eq_zero_or_one g with hg | hg
  · rcases Nat.mod_two_eq_zero_or_one m.phase with hp | hp
    · have hmol := (I.empty hp).2
      by_cases hlt : g + 2 ≤ m.phase
      · exact iff_of_true (hleft hg hlt) ⟨hg, by omega⟩
      · exact iff_of_false (by rw [hlate hg (by omega)]; omega) (by omega)
    · by_cases hin : g + 1 = m.phase
      · have hle : ∑ j, (thread j).bondedIn g ≤ 3 := by
          rw [← G.sum_inGroup hg (by omega)]
          exact Finset.sum_le_sum fun j _ => bondedIn_le_inGroup g _
        rcases Nat.lt_or_eq_of_le hle with hlt | hall
        · have hmol := (I.some g hg hin hlt).2
          exact iff_of_false hlt.ne (by omega)
        · have hmol := (I.all g hg hin hall).2
          exact iff_of_true hall ⟨hg, by omega⟩
      · have hmol : (m.phase - 1) / 2 ≤ m.moleculeCount ∧
            m.moleculeCount ≤ (m.phase - 1) / 2 + 1 := by
          have hle := G.sum_bondedIn_le (show (m.phase - 1) % 2 = 0 by omega) (by omega)
          rcases Nat.lt_or_eq_of_le hle with hlt | hall
          · have := (I.some (m.phase - 1) (by omega) (by omega) hlt).2
            omega
          · have := (I.all (m.phase - 1) (by omega) (by omega) hall).2
            omega
        by_cases hlt : g + 2 ≤ m.phase
        · exact iff_of_true (hleft hg hlt) ⟨hg, by omega⟩
        · exact iff_of_false (by rw [hlate hg (by omega)]; omega) (by omega)
  · refine iff_of_false ?_ (by omega)
    rw [hzero]
    · omega
    · intro j _ hj
      have := (G.fits j).group_even hj
      omega

theorem sum_bondedIn_eq_card (g : ℕ) (thread : Thread cfg → Pc) :
    ∑ j, (thread j).bondedIn g = (Finset.univ.filter fun j =>
      (thread j).group = some g ∧ (thread j).bonded = true).card := by
  rw [Finset.card_filter]
  apply Finset.sum_congr rfl
  intro j _
  simp only [Pc.bondedIn, and_comm]

theorem molecules_eq_card (G : Gathered cfg m thread) (I : Bonding m thread) :
    m.moleculeCount = ((Finset.range m.phase).filter fun g => (Finset.univ.filter fun j =>
      (thread j).group = some g ∧ (thread j).bonded = true).card = 3).card := by
  have himage : ((Finset.range m.phase).filter fun g => (Finset.univ.filter fun j =>
      (thread j).group = some g ∧ (thread j).bonded = true).card = 3) =
      (Finset.range m.moleculeCount).image (2 * ·) := by
    ext g
    simp only [Finset.mem_filter, Finset.mem_range, Finset.mem_image, ← sum_bondedIn_eq_card,
      full_iff G I]
    constructor
    · rintro ⟨-, heven, hlt⟩
      exact ⟨g / 2, hlt, by omega⟩
    · rintro ⟨k, hk, rfl⟩
      have hfull := (full_iff G I (2 * k)).mpr ⟨by omega, by omega⟩
      obtain ⟨j, -, hj⟩ := exists_of_sum_pos (w := fun j => (thread j).bondedIn (2 * k))
        (by rw [hfull]; exact Nat.zero_lt_succ 2)
      have hb : (thread j).bonded = true ∧ (thread j).group = some (2 * k) := by
        by_contra hn
        rw [Pc.bondedIn, if_neg hn] at hj
        exact absurd hj (lt_irrefl 0)
      have := (G.fits j).group_le hb.2 (before_of_bonded hb.1)
      exact ⟨by omega, by omega, by omega⟩
  rw [himage, Finset.card_image_of_injective _ fun a b h => by simpa using h, Finset.card_range]

end Groups

section Deadlock

variable {s : Run cfg}

def Pc.acquires : Pc → ℕ
  | acquire => 1
  | _ => 0

theorem stuck_atom (h : (code cfg).system.Reachable s) (hs : (code cfg).system.Stuck s)
    (i : Thread cfg) : (s.thread i).Returned ∨
      s.thread i = .acquire ∧ s.memory.multiplex (atom cfg i) = 0 ∨
      (s.thread i).waiting s.memory.phase = 1 := by
  have hstuck : next cfg i (s.thread i) = .finished ∨
      ∃ run, next cfg i (s.thread i) = .access run ∧ run s.memory = none :=
    Threads.stuck_cases (owns cfg) h hs i
  -- only the semaphores and the barrier block
  cases hpc : s.thread i with
  | returned g => exact .inl trivial
  | acquire =>
    rw [hpc] at hstuck
    simp only [next, reduceCtorEq, Instr.access.injEq, exists_eq_left', false_or, Shared.acquire,
      ite_eq_left_iff, imp_false, not_not] at hstuck
    exact .inr (.inl ⟨rfl, hstuck⟩)
  | waitEnter g =>
    rw [hpc] at hstuck
    simp only [next, reduceCtorEq, Instr.access.injEq, exists_eq_left', false_or, Shared.wait,
      ite_eq_left_iff, imp_false, not_not] at hstuck
    exact .inr (.inr (if_pos hstuck.symm))
  | waitExit g token =>
    rw [hpc] at hstuck
    simp only [next, reduceCtorEq, Instr.access.injEq, exists_eq_left', false_or, Shared.wait,
      ite_eq_left_iff, imp_false, not_not] at hstuck
    exact .inr (.inr (if_pos hstuck.symm))
  | _ => simp [hpc, next] at hstuck

theorem sum_atoms (l : List Atom) (a : Atom) :
    ∑ i : Fin l.length, (if l.get i = a then 1 else 0) = l.count a := by
  induction l with
  | nil => rfl
  | cons b l ih =>
    rw [List.count_cons, ← ih, Nat.add_comm]
    refine (Fin.sum_univ_succ _).trans ?_
    by_cases hb : b = a <;> simp [hb]

theorem Pc.Fits.place {phase : ℕ} {pc : Pc} (h : pc.Fits phase) (heven : phase % 2 = 0)
    (hw : pc.holds = pc.waiting phase) : pc.acquires + pc.holds + pc.entered phase = 1 := by
  cases pc with
  | acquire => rfl
  | waitEnter g =>
    have hg : g = phase := by simpa [holds, waiting] using hw
    simp [acquires, holds, entered, group, hg]
  | waitExit g token =>
    have htoken : token = phase := by simpa [holds, waiting] using hw
    have := h.1
    have := h.2.1
    omega
  | returned g =>
    have := h.2
    simp only [acquires, holds, entered, group, if_pos (show g < phase by omega)]
  | _ => cases hw

theorem tally_atoms (G : Gathered cfg s.memory s.thread) (heven : s.memory.phase % 2 = 0)
    (hwait : ∀ i, (s.thread i).holds = (s.thread i).waiting s.memory.phase) (a : Atom) :
    cfg.atoms.count a = tally a Pc.acquires s.thread + tally a Pc.holds s.thread +
      a.permits * (s.memory.phase / 2) := by
  have hdiv : (s.memory.phase + 1) / 2 = s.memory.phase / 2 := by omega
  rw [← hdiv, ← G.entered a, ← tally_add, ← tally_add, ← sum_atoms]
  apply Finset.sum_congr rfl
  intro i _
  dsimp only
  rw [(G.fits i).place heven (hwait i)]
  rfl

theorem holds_of_stuck (h : (code cfg).system.Reachable s) (hs : (code cfg).system.Stuck s)
    (j : Thread cfg) : (s.thread j).holds = (s.thread j).waiting s.memory.phase := by
  rcases stuck_atom h hs j with hj | ⟨hj, -⟩ | hj
  · cases hpc : s.thread j <;> rw [hpc] at hj <;> first | rfl | exact hj.elim
  · rw [hj]
    rfl
  · have := Pc.waiting_le_holds s.memory.phase (s.thread j)
    have : (s.thread j).holds ≤ 1 := by cases s.thread j <;> simp [Pc.holds]
    omega

theorem multiplex_of_stuck (h : (code cfg).system.Reachable s) (hs : (code cfg).system.Stuck s)
    {a : Atom} (ha : tally a Pc.acquires s.thread ≠ 0) : s.memory.multiplex a = 0 := by
  obtain ⟨j, -, hj⟩ := Finset.exists_ne_zero_of_sum_ne_zero ha
  split at hj
  · rename_i haj
    rcases stuck_atom h hs j with hr | ⟨-, hzero⟩ | hr
    · cases hpc : s.thread j <;> rw [hpc] at hr hj <;> first | exact hr.elim | exact absurd rfl hj
    · exact haj ▸ hzero
    · cases hpc : s.thread j <;> rw [hpc] at hr hj <;> first | cases hr | exact absurd rfl hj
  · exact absurd rfl hj

theorem eq_zero_of_tally {w : Pc → ℕ} {thread : Thread cfg → Pc} (i : Thread cfg)
    (hw : tally (atom cfg i) w thread = 0) : w (thread i) = 0 := by
  have hi := Finset.sum_eq_zero_iff.mp hw i (Finset.mem_univ i)
  rwa [if_pos rfl] at hi

theorem returned_of_stuck (h : (code cfg).system.Reachable s) (hs : (code cfg).system.Stuck s)
    {m : ℕ} (hh : cfg.atoms.count .hydrogen = 2 * m) (ho : cfg.atoms.count .oxygen = m)
    (i : Thread cfg) : (s.thread i).Returned := by
  have G := reachable_gathered h
  have hwait := holds_of_stuck h hs
  have hfew : tally .hydrogen Pc.holds s.thread + tally .oxygen Pc.holds s.thread < 3 := by
    rw [← sum_eq_tally, Finset.sum_congr rfl fun j _ => hwait j, ← G.arrived]
    exact G.arrived_lt
  have hpermits := G.permits .hydrogen
  have hpermits' := G.permits .oxygen
  have heven : s.memory.phase % 2 = 0 := by
    by_contra hodd
    have := G.no_permit (by omega) .hydrogen
    have := G.no_permit (by omega) .oxygen
    simp only [Atom.permits] at hpermits hpermits'
    omega
  have hcount := tally_atoms G heven hwait .hydrogen
  have hcount' := tally_atoms G heven hwait .oxygen
  have hhydrogen : tally .hydrogen Pc.acquires s.thread = 0 ∨ s.memory.multiplex .hydrogen = 0 :=
    or_iff_not_imp_left.mpr (multiplex_of_stuck h hs)
  have hoxygen : tally .oxygen Pc.acquires s.thread = 0 ∨ s.memory.multiplex .oxygen = 0 :=
    or_iff_not_imp_left.mpr (multiplex_of_stuck h hs)
  simp only [Atom.permits] at hpermits hpermits' hcount hcount'
  -- the atoms that are left are twice as many hydrogens as oxygens, so both have run out
  have hnone : ∀ a, tally a Pc.acquires s.thread = 0 ∧ tally a Pc.holds s.thread = 0 := by
    rintro (- | -) <;> omega
  have hacquires := eq_zero_of_tally i (hnone _).1
  have hholds := eq_zero_of_tally i (hnone _).2
  cases hpc : s.thread i with
  | returned g => trivial
  | acquire =>
    rw [hpc] at hacquires
    cases hacquires
  | _ =>
    rw [hpc] at hholds
    cases hholds

theorem molecules_of_returned (h : (code cfg).system.Reachable s) {m : ℕ}
    (ho : cfg.atoms.count .oxygen = m) (hall : ∀ i, (s.thread i).Returned) :
    s.memory.moleculeCount = m := by
  have G := reachable_gathered h
  have hholds : ∀ i, (s.thread i).holds = 0 := by
    intro i
    have hi := hall i
    cases hpc : s.thread i <;> rw [hpc] at hi <;> first | rfl | exact hi.elim
  have hzero : ∀ w : Pc → ℕ, (∀ i, w (s.thread i) = 0) → tally .oxygen w s.thread = 0 := by
    intro w hw
    apply Finset.sum_eq_zero
    intro i _
    rw [hw, ite_self]
  have heven : s.memory.phase % 2 = 0 := by
    by_contra hodd
    have hpermits := G.permits .oxygen
    have hnone := G.no_permit (by omega) .oxygen
    rw [hnone, hzero _ hholds] at hpermits
    cases hpermits
  have hwait : ∀ i, (s.thread i).holds = (s.thread i).waiting s.memory.phase := by
    intro i
    have := Pc.waiting_le_holds s.memory.phase (s.thread i)
    have := hholds i
    omega
  have hacquires : ∀ i, (s.thread i).acquires = 0 := by
    intro i
    have hi := hall i
    cases hpc : s.thread i <;> rw [hpc] at hi <;> first | rfl | exact hi.elim
  have hcount := tally_atoms G heven hwait .oxygen
  rw [hzero _ hholds, hzero _ hacquires] at hcount
  simp only [Atom.permits] at hcount
  rw [((reachable_bonding h).empty heven).2]
  omega

end Deadlock

/-- In every run: the atoms of every group that the entrance has released are two of hydrogen
and one of oxygen; an atom calls `bond` only after all atoms of the earlier groups have left
their calls; the counters stay in their bounds; there is a molecule for each group whose atoms
have bonded; and complete multisets of atoms form all their molecules without a deadlock. -/
theorem molecules_formed (cfg : Config) {s : Run cfg} (h : (code cfg).system.Reachable s) :
    (∀ i g, (s.thread i).group = some g → g < s.memory.phase → ∀ a, (Finset.univ.filter fun j =>
      (s.thread j).group = some g ∧ atom cfg j = a).card = a.permits) ∧
    (∀ i j g g', (s.thread i).group = some g' → (s.thread i).before = false →
      (s.thread j).group = some g → g < g' →
      (s.thread j).bonded = true ∧ (s.thread j).bonding = false) ∧
    (s.memory.count .hydrogen ≤ 2 ∧ s.memory.count .oxygen ≤ 1) ∧
    s.memory.moleculeCount = ((Finset.range s.memory.phase).filter fun g =>
      (Finset.univ.filter fun j =>
        (s.thread j).group = some g ∧ (s.thread j).bonded = true).card = 3).card ∧
    ∀ m, cfg.atoms.count .hydrogen = 2 * m → cfg.atoms.count .oxygen = m →
      ((code cfg).system.Stuck s → ∀ i, (s.thread i).Returned) ∧
      ((∀ i, (s.thread i).Returned) → s.memory.moleculeCount = m) := by
  have G := reachable_gathered h
  have I := reachable_bonding h
  refine ⟨fun i g hg hlt a => ?_, fun i j g g' hi hb hj hlt => ?_, ?_, molecules_eq_card G I,
    fun m hh ho => ⟨fun hs => returned_of_stuck h hs hh ho, molecules_of_returned h ho⟩⟩
  · rw [← G.grouped a g ((G.fits i).group_even hg) hlt, tally, Finset.card_filter]
    apply Finset.sum_congr rfl
    intro j _
    simp only [Pc.inGroup, ← ite_and, and_comm]
  · have := (G.fits i).group_le hi hb
    have := (G.fits i).group_even hi
    have := (G.fits j).group_even hj
    exact (G.fits j).left hj (by omega)
  · have hle : ∀ a, s.memory.count a ≤ a.permits := G.count_le I
    exact ⟨hle .hydrogen, hle .oxygen⟩

def water : Config := ⟨[.hydrogen, .oxygen, .hydrogen], by decide⟩

/-- The atoms enter together, bond one after the other and leave together. -/
def waterRun : List (Thread water) :=
  let all : List (Thread water) := [⟨0, by decide⟩, ⟨1, by decide⟩, ⟨2, by decide⟩]
  all ++ all ++ all ++ all.flatMap (List.replicate 4) ++ all ++ all ++ all

theorem molecules_formed_water : ∃ s, (code water).system.run waterRun = some s ∧
    (Finset.univ.filter fun j => (s.thread j).group = some 0 ∧ atom water j = .hydrogen).card = 2 ∧
    s.memory.moleculeCount = 1 := by
  obtain ⟨s, hs⟩ : ∃ s, (code water).system.run waterRun = some s := ⟨_, rfl⟩
  have hrun : ((code water).system.run waterRun).map (fun s => (s.memory.phase,
      s.thread ⟨0, by decide⟩, s.thread ⟨1, by decide⟩, s.thread ⟨2, by decide⟩)) =
    some (2, .returned 0, .returned 0, .returned 0) := rfl
  simp only [hs, Option.map_some, Option.some.injEq, Prod.mk.injEq] at hrun
  obtain ⟨hphase, h0, h1, h2⟩ := hrun
  obtain ⟨hgroups, -, -, -, hend⟩ := molecules_formed water (System.reachable_run hs)
  have hall : ∀ i, (s.thread i).Returned := by
    rintro ⟨k, hk⟩
    have hk' : k < 3 := hk
    interval_cases k
    · exact h0 ▸ trivial
    · exact h1 ▸ trivial
    · exact h2 ▸ trivial
  exact ⟨s, hs, hgroups ⟨0, by decide⟩ 0 (by rw [h0]; rfl) (by omega) .hydrogen,
    (hend 1 (by decide) (by decide)).2 hall⟩

end Concurrente.BuildH2o
