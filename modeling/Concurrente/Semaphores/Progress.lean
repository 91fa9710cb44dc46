import Concurrente.Semaphores

/-!
# Threads that cannot move

Two rules against deadlock: an order of the semaphores for threads that end, and an order for
threads that hold permits and give them back.
-/

namespace Concurrente.Semaphores

variable {ι κ τ : Type*}

def Script.once (permits : κ → ℕ) (body : ι → List (Line κ τ)) : Script ι κ τ :=
  ⟨permits, fun i n => (body i)[n]?⟩

/-- A thread gives permits only after waits at semaphores that rank below. -/
def Line.Ordered (rank : κ → ℕ) : Line κ τ → Line κ τ → Prop
  | wait k, signal k' _ => rank k < rank k'
  | _, _ => True

instance (rank : κ → ℕ) : DecidableRel (Line.Ordered (τ := τ) rank)
  | .wait k, .signal k' _ => inferInstanceAs (Decidable (rank k < rank k'))
  | .wait _, .wait _ | .wait _, .statement _ | .signal _ _, _ | .statement _, _ => .isTrue trivial

section Once

theorem sum_take (w : Line κ τ → ℕ) (l : List (Line κ τ)) (n : ℕ) :
    ∑ m ∈ Finset.range n, (l[m]?.map w).getD 0 = ((l.take n).map w).sum := by
  induction n with
  | zero => rfl
  | succ n ih =>
    rw [Finset.sum_range_succ, ih, List.take_add_one, List.map_append, List.sum_append]
    cases l[n]? <;> simp

theorem sum_body (w : Line κ τ → ℕ) (l : List (Line κ τ)) :
    ∑ m ∈ Finset.range l.length, (l[m]?.map w).getD 0 = (l.map w).sum := by
  rw [sum_take, List.take_length]

variable [DecidableEq ι] [DecidableEq κ] {permits : κ → ℕ} {body : ι → List (Line κ τ)}
  {s : State ι κ τ} {i : ι}

theorem position_le (h : (Script.once permits body).system.Reachable s) (i : ι) :
    s.position i ≤ (body i).length := by
  apply h.invariant (I := fun s => s.position i ≤ (body i).length)
  · exact Nat.zero_le _
  intro s j t ih hs
  obtain ⟨l, hl⟩ := line_of_step hs
  rw [step_position hs]
  by_cases hij : i = j
  · subst hij
    rw [Function.update_self]
    exact (List.getElem?_eq_some_iff.mp hl).1
  · rwa [Function.update_of_ne hij]

variable [Fintype ι]

/-- No thread waits for ever when the threads give as many permits as they take, and the
semaphores are ordered. -/
theorem finished_of_stuck (rank : κ → ℕ) (hrank : ∀ i, (body i).Pairwise (Line.Ordered rank))
    (hpermits : ∀ k, ∑ i, ((body i).map (Line.waits k)).sum ≤
      permits k + ∑ i, ((body i).map (Line.signals k)).sum)
    (h : (Script.once permits body).system.Reachable s)
    (hs : (Script.once permits body).system.Stuck s) (i : ι) : s.position i = (body i).length := by
  -- by induction on the rank: who waits at `k` lacks a permit of a thread that waits lower
  have hwait : ∀ r i k, rank k = r → (body i)[s.position i]? ≠ some (.wait k) := by
    intro r
    induction r using Nat.strong_induction_on with
    | _ r ih =>
      rintro i k rfl hl
      have hzero : s.permits k = 0 := by
        by_contra hk
        have hmove := exists_step (p := Script.once permits body) hl (by rintro _ ⟨⟩; exact hk)
        rw [hs i] at hmove
        simp at hmove
      have hlack : ∑ j, (Script.once permits body).waited j k (s.position j) <
          ∑ j, ((body j).map (Line.waits k)).sum := by
        simp only [← sum_body]
        apply Finset.sum_lt_sum (fun j _ => Script.waited_mono (position_le h j))
        refine ⟨i, Finset.mem_univ i, ?_⟩
        have hsucc := Script.waited_succ (p := Script.once permits body) (k := k) hl
        have hmono : (Script.once permits body).waited i k (s.position i + 1) ≤
            (Script.once permits body).waited i k (body i).length :=
          Script.waited_mono (List.getElem?_eq_some_iff.mp hl).1
        simp only [Line.waits, if_true] at hsucc
        exact (Nat.lt_of_lt_of_eq (Nat.lt_succ_self _) hsucc.symm).trans_le hmono
      have hcons := conservation h k
      have hgive : ∑ j, (Script.once permits body).signalled j k (s.position j) <
          ∑ j, ((body j).map (Line.signals k)).sum := by
        have htotal := hpermits k
        change s.permits k + _ = permits k + _ at hcons
        omega
      obtain ⟨j, -, hj⟩ := Finset.exists_lt_of_sum_lt hgive
      rw [← sum_body] at hj
      obtain ⟨m, c, hm, hlen, hg⟩ := Script.exists_signal hj
      obtain hnone | ⟨k', hk', -⟩ := blocked_cases (hs j)
      · have := List.getElem?_eq_none_iff.mp hnone
        omega
      · have hne : s.position j ≠ m := by
          rintro rfl
          cases hk'.symm.trans hg
        obtain ⟨hp, hwait⟩ := List.getElem?_eq_some_iff.mp hk'
        obtain ⟨hm', hsignal⟩ := List.getElem?_eq_some_iff.mp hg
        have hlt := List.pairwise_iff_getElem.mp (hrank j) _ _ hp hm' (by omega)
        rw [hwait, hsignal] at hlt
        exact ih (rank k') hlt j k' rfl hk'
  obtain hnone | ⟨k, hk, -⟩ := blocked_cases (hs i)
  · exact le_antisymm (position_le h i) (List.getElem?_eq_none_iff.mp hnone)
  · exact absurd hk (hwait _ i k rfl)

theorem exists_stuck (h : (Script.once permits body).system.Reachable s) :
    ∃ t, (Script.once permits body).system.Path s t ∧
      (Script.once permits body).system.Stuck t := by
  apply System.exists_stuck (fun s => ∑ i, (body i).length - ∑ i, s.position i) _ h
  intro s i t hr hs
  have hle : ∑ j, t.position j ≤ ∑ j, (body j).length :=
    Finset.sum_le_sum fun j _ => position_le (hr.step hs) j
  have hsum := sum_move s.position i id (s.position i + 1)
  simp only [id, ← step_position hs] at hsum
  omega

theorem length_le_of_run {l : List ι} (h : (Script.once permits body).system.run l = some s) :
    l.length ≤ ∑ i, (body i).length := by
  rw [← length_of_run h]
  exact Finset.sum_le_sum fun i _ => position_le (System.reachable_run h) i

/-- All runs end, when all threads have gone through all their lines. -/
structure Completes (permits : κ → ℕ) (body : ι → List (Line κ τ)) : Prop where
  finished : ∀ s, (Script.once permits body).system.Reachable s →
    (Script.once permits body).system.Stuck s → ∀ i, s.position i = (body i).length
  bounded : ∀ l s, (Script.once permits body).system.run l = some s →
    l.length ≤ ∑ i, (body i).length

theorem completes_of_rank (rank : κ → ℕ) (hrank : ∀ i, (body i).Pairwise (Line.Ordered rank))
    (hpermits : ∀ k, ∑ i, ((body i).map (Line.waits k)).sum ≤
      permits k + ∑ i, ((body i).map (Line.signals k)).sum) : Completes permits body where
  finished _ h hs := finished_of_stuck rank hrank hpermits h hs
  bounded _ _ h := length_le_of_run h

/-- More waits than permits: somebody is left waiting. -/
theorem exists_unfinished {k : κ} (hpermits : permits k + ∑ i, ((body i).map (Line.signals k)).sum <
      ∑ i, ((body i).map (Line.waits k)).sum)
    (h : (Script.once permits body).system.Reachable s) : ∃ i, s.position i < (body i).length := by
  by_contra! hall
  have hpos : s.position = fun i => (body i).length := by
    funext i
    exact le_antisymm (position_le h i) (hall i)
  have hcons := conservation h k
  simp only [hpos, Script.waited, Script.signalled, Script.once, sum_body] at hcons
  omega

omit [Fintype ι] in
theorem done_of_finished (h : (Script.once permits body).system.Reachable s)
    (hi : s.position i = (body i).length) :
    (s.done.filter (·.1 = i)).map Prod.snd = (body i).filterMap Line.statement? := by
  have htake : ∀ n ≤ (body i).length, (Script.once permits body).executed i n =
      ((body i).take n).filterMap Line.statement? := by
    intro n
    induction n with
    | zero => exact fun _ => rfl
    | succ n ih =>
      intro hn
      have hl : (Script.once permits body).line i n = some (body i)[n] :=
        List.getElem?_eq_getElem hn
      rw [Script.executed_succ hl, ih (Nat.le_of_succ_le hn), List.take_succ_eq_append_getElem hn,
        List.filterMap_append]
      congr 1
  rw [done_filter h, hi, htake _ le_rfl, List.take_length]

omit [Fintype ι] in
theorem once_precedes_self {a b : τ}
    (hafter : Line.After (.statement b) (· = .statement a) (body i))
    (h : (Script.once permits body).system.Reachable s) : Precedes s (i, b) (i, a) := by
  have horder := done_order (P := fun l x => x = (i, a) → (i, b) ∈ l) ?_ h
  · exact fun l₁ l₂ hd => horder l₁ _ l₂ hd rfl
  rintro s i' a' hs hl heq
  obtain ⟨rfl, rfl⟩ := Prod.mk.inj heq
  obtain ⟨m, hm, hb⟩ := hafter.exists_before hl rfl
  exact (mem_done_iff hs i' b).mpr ⟨m, hm, hb⟩

/-- `y` waits for a permit that only the thread of `x` gives, after `x`. -/
theorem once_precedes {k : κ} {j : ι} {a b : τ} (hk : permits k = 0)
    (hwait : Line.After (.wait k) (· = .statement a) (body i))
    (hsignal : Line.After (.statement b) (Line.Signals k) (body j))
    (hothers : ∀ j', j' ≠ j → ∀ l ∈ body j', ¬ l.Signals k)
    (h : (Script.once permits body).system.Reachable s) : Precedes s (j, b) (i, a) := by
  apply precedes_of_signal hk (fun n hl => hwait.exists_before hl rfl) _ h
  intro j' n c hl
  have hj : j' = j := by
    by_contra hj
    exact hothers j' hj _ (List.mem_of_getElem? hl) rfl
  subst hj
  exact ⟨rfl, hsignal.exists_before hl rfl⟩

end Once

def Script.loop (permits : κ → ℕ) (body : ι → List (Line κ τ)) : Script ι κ τ :=
  ⟨permits, fun i n => (body i)[n % (body i).length]?⟩

section Lending

variable [DecidableEq κ] (p : Script ι κ τ)

/-- The permits of a semaphore that a thread has at a position. -/
def Script.held (i : ι) (k : κ) (n : ℕ) : ℕ := p.waited i k n - p.signalled i k n

/-- No thread gives permits that it has not taken. -/
def Script.Lends : Prop := ∀ i k n, p.signalled i k n ≤ p.waited i k n

variable {p} [DecidableEq ι] {s : State ι κ τ} {i : ι}

theorem permits_add_held [Fintype ι] (hp : p.Lends) (h : p.system.Reachable s) (k : κ) :
    s.permits k + ∑ i, p.held i k (s.position i) = p.permits k := by
  have hcons := conservation h k
  have hsum : ∑ i, p.waited i k (s.position i) =
      ∑ i, p.held i k (s.position i) + ∑ i, p.signalled i k (s.position i) := by
    rw [← Finset.sum_add_distrib]
    apply Finset.sum_congr rfl
    intro i _
    have := hp i k (s.position i)
    simp only [Script.held]
    omega
  omega

/-- No more threads than permits are in a region that each enters with a permit. -/
theorem card_le_permits [Fintype ι] (hp : p.Lends) (h : p.system.Reachable s) (k : κ)
    {region : Finset ι} (hregion : ∀ i ∈ region, 0 < p.held i k (s.position i)) :
    region.card ≤ p.permits k := by
  have hsum := permits_add_held hp h k
  calc
    region.card ≤ ∑ i ∈ region, p.held i k (s.position i) := by
      rw [Finset.card_eq_sum_ones]
      exact Finset.sum_le_sum hregion
    _ ≤ ∑ i, p.held i k (s.position i) :=
      Finset.sum_le_univ_sum_of_nonneg fun i => Nat.zero_le _
    _ ≤ p.permits k := by omega

/-- Somebody who holds a permit can move, when everybody waits only at semaphores that rank
above those held. -/
theorem exists_holder_moves [Fintype ι] [Finite κ] (hp : p.Lends)
    (hk : ∀ i n k, p.line i n = some (.wait k) → 0 < p.permits k)
    (hline : ∀ i k n, 0 < p.held i k n → p.line i n ≠ none)
    (rank : κ → ℕ) (h : p.system.Reachable s)
    (hrank : ∀ i k k', 0 < p.held i k (s.position i) →
      p.line i (s.position i) = some (.wait k') → rank k < rank k')
    (hheld : ∃ i k, 0 < p.held i k (s.position i)) :
    ∃ i k t, 0 < p.held i k (s.position i) ∧ p.system.step s i = some t := by
  obtain ⟨k, ⟨i, hi⟩, hmax⟩ := Set.exists_max_image {k | ∃ i, 0 < p.held i k (s.position i)} rank
    (Set.toFinite _) (by obtain ⟨i, k, hi⟩ := hheld; exact ⟨k, i, hi⟩)
  cases hs : p.system.step s i with
  | some t => exact ⟨i, k, t, hi, hs⟩
  | none =>
    obtain hnone | ⟨k', hl, hzero⟩ := blocked_cases hs
    · exact absurd hnone (hline i k _ hi)
    · have hsum := permits_add_held hp h k'
      have hpos := hk i _ k' hl
      obtain ⟨j, -, hj⟩ := exists_of_sum_pos (w := fun j => p.held j k' (s.position j))
        (s := Finset.univ) (by omega)
      have hlt := hrank i k k' hi hl
      have hle := hmax k' ⟨j, hj⟩
      omega

/-- The holders can all give back what they hold, when each moves towards a place without
permits. -/
theorem exists_idle [Fintype ι]
    (hmove : ∀ s, p.system.Reachable s → (∃ i k, 0 < p.held i k (s.position i)) →
      ∃ i k t, 0 < p.held i k (s.position i) ∧ p.system.step s i = some t)
    (left : ι → ℕ → ℕ) (hleft : ∀ i k n, 0 < p.held i k n → left i (n + 1) < left i n)
    (h : p.system.Reachable s) :
    ∃ t, p.system.Path s t ∧ ∀ i k, p.held i k (t.position i) = 0 := by
  induction hn : ∑ i, left i (s.position i) using Nat.strong_induction_on generalizing s with
  | _ n ih =>
    by_cases hheld : ∃ i k, 0 < p.held i k (s.position i)
    · obtain ⟨i, k, t, hi, hs⟩ := hmove s h hheld
      have hsum := sum_update (Finset.mem_univ i) s.position left (s.position i + 1)
      rw [← step_position hs] at hsum
      have hlt := hleft i k _ hi
      obtain ⟨r, hr, hidle⟩ := ih _ (by omega) (h.step hs) rfl
      exact ⟨r, .head hs hr, hidle⟩
    · push Not at hheld
      exact ⟨s, .refl s, fun i k => Nat.le_zero.mp (hheld i k)⟩

/-- With all permits given back, a thread can go alone through any of its lines. -/
theorem exists_alone [Fintype ι] (hp : p.Lends) (hline : ∀ n, p.line i n ≠ none)
    (hroom : ∀ n k, p.line i n = some (.wait k) → p.held i k n < p.permits k)
    (h : p.system.Reachable s) (hidle : ∀ j k, p.held j k (s.position j) = 0) (d : ℕ) :
    ∃ t, p.system.Path s t ∧ t.position = Function.update s.position i (s.position i + d) := by
  induction d with
  | zero => exact ⟨s, .refl s, by simp⟩
  | succ d ih =>
    obtain ⟨t, ht, hpos⟩ := ih
    have hposi : t.position i = s.position i + d := by rw [hpos, Function.update_self]
    obtain ⟨l, hl⟩ := Option.ne_none_iff_exists'.mp (hline (t.position i))
    have hpermits : ∀ k, l = .wait k → t.permits k ≠ 0 := by
      rintro k rfl
      have hheld := permits_add_held hp (h.path ht) k
      have hsum := sum_update (Finset.mem_univ i) s.position (fun j => p.held j k)
        (s.position i + d)
      rw [← hpos, ← hposi, Finset.sum_eq_zero fun j _ => hidle j k, hidle i k] at hsum
      have := hroom _ k hl
      omega
    obtain ⟨r, hr⟩ := exists_step hl hpermits
    refine ⟨r, ht.tail hr, ?_⟩
    rw [step_position hr, hposi, hpos, Function.update_idem]
    rfl

end Lending

section Once

variable [DecidableEq κ]

def heldAfter (l : List (Line κ τ)) (k : κ) (m : ℕ) : ℕ :=
  ((l.take m).map (Line.waits k)).sum - ((l.take m).map (Line.signals k)).sum

/-- A round gives back at its end what it takes, and nothing before it takes it. -/
structure Balanced (l : List (Line κ τ)) : Prop where
  ne_nil : l ≠ []
  round : ∀ k, (l.map (Line.signals k)).sum = (l.map (Line.waits k)).sum
  before : ∀ k, ∀ m < l.length,
    ((l.take m).map (Line.signals k)).sum ≤ ((l.take m).map (Line.waits k)).sum

variable {permits : κ → ℕ} {body : ι → List (Line κ τ)}

theorem once_held (i : ι) (k : κ) (n : ℕ) :
    (Script.once permits body).held i k n = heldAfter (body i) k n := by
  simp only [Script.held, Script.signalled, Script.waited, Script.once, sum_take, heldAfter]

theorem heldAfter_of_length_le {l : List (Line κ τ)} (hl : Balanced l) (k : κ) {n : ℕ}
    (hn : l.length ≤ n) : heldAfter l k n = 0 := by
  rw [heldAfter, List.take_of_length_le hn, hl.round k, Nat.sub_self]

theorem once_lends (hbody : ∀ i, Balanced (body i)) : (Script.once permits body).Lends := by
  intro i k n
  simp only [Script.signalled, Script.waited, Script.once, sum_take]
  by_cases hn : n < (body i).length
  · exact (hbody i).before k n hn
  · rw [List.take_of_length_le (not_lt.mp hn)]
    exact ((hbody i).round k).le

/-- Threads that hold permits wait only for those of higher rank, and end: none waits for
ever. -/
theorem completes_of_hierarchy [DecidableEq ι] [Fintype ι] [Finite κ]
    (hbody : ∀ i, Balanced (body i)) (hk : ∀ i k, .wait k ∈ body i → 0 < permits k) (rank : κ → ℕ)
    (hrank : ∀ i (n : ℕ) k k', 0 < heldAfter (body i) k n → (body i)[n]? = some (.wait k') →
      rank k < rank k') : Completes permits body where
  finished s h hs i := by
    have hidle : ∀ j k, (Script.once permits body).held j k (s.position j) = 0 := by
      by_contra! hheld
      obtain ⟨j, k, t, -, hmove⟩ := exists_holder_moves (once_lends hbody)
        (fun i n k hl => hk i k (List.mem_of_getElem? hl))
        (fun i k n hn => by
          rw [once_held] at hn
          have hlt : n < (body i).length := by
            by_contra! hle
            rw [heldAfter_of_length_le (hbody i) k hle] at hn
            exact hn.false
          exact fun hnone => absurd hlt (not_lt.mpr (List.getElem?_eq_none_iff.mp hnone)))
        rank h (fun i k k' hheld hl => hrank i _ k k' (by rwa [once_held] at hheld) hl)
        (by
          obtain ⟨j, k, hjk⟩ := hheld
          exact ⟨j, k, Nat.pos_of_ne_zero hjk⟩)
      rw [hs j] at hmove
      cases hmove
    obtain hnone | ⟨k, hl, hzero⟩ := blocked_cases (hs i)
    · exact le_antisymm (position_le h i) (List.getElem?_eq_none_iff.mp hnone)
    · have hsum := permits_add_held (once_lends hbody) h k
      rw [Finset.sum_eq_zero fun j _ => hidle j k, hzero] at hsum
      exact absurd hsum.symm (hk i k (List.mem_of_getElem? hl)).ne'
  bounded _ _ h := length_le_of_run h

end Once

section Loop

theorem sum_loop (w : Line κ τ → ℕ) (l : List (Line κ τ)) (n : ℕ) :
    ∑ m ∈ Finset.range n, (l[m % l.length]?.map w).getD 0 =
      n / l.length * (l.map w).sum + ((l.take (n % l.length)).map w).sum := by
  have hshort : ∀ r ≤ l.length,
      ∑ m ∈ Finset.range r, (l[m % l.length]?.map w).getD 0 = ((l.take r).map w).sum := by
    intro r hr
    rw [← sum_body w (l.take r), List.length_take_of_le hr]
    apply Finset.sum_congr rfl
    intro m hm
    have hm := Finset.mem_range.mp hm
    rw [Nat.mod_eq_of_lt (by omega), List.getElem?_take_of_lt hm]
  by_cases hl : l.length = 0
  · simp [List.length_eq_zero_iff.mp hl]
  have hround : ∀ q r, r ≤ l.length →
      ∑ m ∈ Finset.range (q * l.length + r), (l[m % l.length]?.map w).getD 0 =
        q * (l.map w).sum + ((l.take r).map w).sum := by
    intro q
    induction q with
    | zero =>
      intro r hr
      simpa using hshort r hr
    | succ q ih =>
      intro r hr
      have hq : (q + 1) * l.length + r = l.length + (q * l.length + r) := by ring
      rw [hq, Finset.sum_range_add, hshort _ le_rfl, List.take_length]
      simp only [Nat.add_mod_left]
      rw [ih r hr]
      ring
  have := hround (n / l.length) (n % l.length) (Nat.mod_lt _ (by omega)).le
  rwa [Nat.div_add_mod'] at this

variable [DecidableEq κ]

variable {permits : κ → ℕ} {body : ι → List (Line κ τ)} (hbody : ∀ i, Balanced (body i))

include hbody

theorem loop_length_pos (i : ι) : 0 < (body i).length :=
  List.length_pos_iff.mpr (hbody i).ne_nil

theorem loop_lends : (Script.loop permits body).Lends := by
  intro i k n
  have hlt := Nat.mod_lt n (loop_length_pos hbody i)
  have hbefore := (hbody i).before k _ hlt
  simp only [Script.signalled, Script.waited, Script.loop, sum_loop, (hbody i).round k]
  omega

theorem loop_held (i : ι) (k : κ) (n : ℕ) :
    (Script.loop permits body).held i k n = heldAfter (body i) k (n % (body i).length) := by
  simp only [Script.held, Script.signalled, Script.waited, Script.loop, sum_loop,
    (hbody i).round k, heldAfter, Nat.add_sub_add_left]

theorem loop_line_ne_none (i : ι) (n : ℕ) : (Script.loop permits body).line i n ≠ none := by
  have hlt := Nat.mod_lt n (loop_length_pos hbody i)
  simp [Script.loop, hlt]

/-- A round ends at its first line: the lines to it get fewer while something is held. -/
theorem loop_left (i : ι) (k : κ) (n : ℕ) (hn : 0 < (Script.loop permits body).held i k n) :
    ((body i).length - (n + 1) % (body i).length) % (body i).length <
      ((body i).length - n % (body i).length) % (body i).length := by
  rw [loop_held hbody] at hn
  have hpos := loop_length_pos hbody i
  have hlt := Nat.mod_lt n hpos
  have hne : n % (body i).length ≠ 0 := by
    intro hz
    simp [hz, heldAfter] at hn
  rw [Nat.mod_eq_of_lt (a := (body i).length - n % (body i).length) (by omega), Nat.add_mod_eq_ite]
  by_cases hone : (body i).length = 1
  · omega
  rw [Nat.mod_eq_of_lt (a := 1) (by omega)]
  split_ifs with hend
  · have hz : n % (body i).length + 1 - (body i).length = 0 := by omega
    rw [hz, Nat.sub_zero, Nat.mod_self]
    omega
  · rw [Nat.mod_eq_of_lt (by omega)]
    omega

variable [DecidableEq ι] [Fintype ι] {s : State ι κ τ} {i : ι}

/-- From every reachable state each thread can come to each of its lines, when the holders can
always move. -/
theorem loop_exists_line (hk : ∀ i m k, (body i)[m]? = some (.wait k) →
      heldAfter (body i) k m < permits k)
    (hmove : ∀ s, (Script.loop permits body).system.Reachable s →
      (∃ i k, 0 < heldAfter (body i) k (s.position i % (body i).length)) →
      ∃ i k t, 0 < heldAfter (body i) k (s.position i % (body i).length) ∧
        (Script.loop permits body).system.step s i = some t)
    (h : (Script.loop permits body).system.Reachable s) {m : ℕ} (hm : m < (body i).length) :
    ∃ t, (Script.loop permits body).system.Path s t ∧
      t.position i % (body i).length = m := by
  obtain ⟨t, ht, hidle⟩ := exists_idle (p := Script.loop permits body)
    (by simpa only [loop_held hbody] using hmove)
    (fun i n => ((body i).length - n % (body i).length) % (body i).length) (loop_left hbody) h
  have hroom : ∀ n k, (Script.loop permits body).line i n = some (.wait k) →
      (Script.loop permits body).held i k n < permits k := by
    intro n k hl
    rw [loop_held hbody]
    exact hk i _ k hl
  have hround : t.position i ≤ t.position i * (body i).length + m :=
    (Nat.le_mul_of_pos_right _ (loop_length_pos hbody i)).trans (Nat.le_add_right _ _)
  obtain ⟨r, hr, hpos⟩ := exists_alone (loop_lends hbody) (loop_line_ne_none hbody i) hroom
    (h.path ht) hidle (t.position i * (body i).length + m - t.position i)
  refine ⟨r, ht.trans hr, ?_⟩
  rw [hpos, Function.update_self, Nat.add_sub_cancel' hround,
    Nat.mul_add_mod_of_lt hm]

end Loop

end Concurrente.Semaphores
