import Concurrente.Messages

/-!
# mpi_ping_pong

Two processes send each other a ball and count its hits, for as long as the count fits a `long`.
-/

namespace Concurrente.Mpi.PingPong

open Messages

inductive Line where
  | serves (ball : ℕ)
  | hits (ball : ℕ)
  deriving DecidableEq

inductive Pc where
  | serve
  | send (ball : ℕ)
  | receive
  | hit (ball : ℕ)
  | overflow
  deriving DecidableEq

/-- `++ball` is undefined at the largest `long`. -/
def increment (ball : ℕ) : Pc := if ball + 1 < 2 ^ 63 then .send (ball + 1) else .overflow

theorem mod_two_lt (k : ℕ) : k % 2 < 2 := Nat.mod_lt k Nat.two_pos

/-- The process that hits the ball with a count. -/
def player (ball : ℕ) : Fin 2 := ⟨ball % 2, mod_two_lt ball⟩

def opponent (rank : Fin 2) : Fin 2 := player (rank + 1)

def playPingPong : Code (Fin 2) ℕ Pc Line where
  start rank := if rank.val = 0 then .serve else .receive
  next rank
    | .serve => .report (.serves 0) (increment 0)
    | .send ball => .send (opponent rank) ball .receive
    | .receive => .receive none .hit
    | .hit ball => .report (.hits ball) (increment ball)
    | .overflow => .finished

/-- The report that has some others before it. -/
def report (ball : ℕ) : Fin 2 × Line :=
  (player ball, if ball = 0 then .serves ball else .hits ball)

theorem opponent_player (ball : ℕ) : opponent (player ball) = player (ball + 1) :=
  Fin.ext (show (ball % 2 + 1) % 2 = (ball + 1) % 2 by omega)

theorem eq_player_succ {rank : Fin 2} {ball : ℕ} (h : rank ≠ player ball) :
    rank = player (ball + 1) := by
  have hne : rank.val ≠ ball % 2 := fun heq => h (Fin.ext heq)
  exact Fin.ext (show rank.val = (ball + 1) % 2 by omega)

theorem player_succ_ne (ball : ℕ) : player (ball + 1) ≠ player ball := fun h => by
  have heq : (ball + 1) % 2 = ball % 2 := congrArg Fin.val h
  omega

/-- Where the ball is after some reports: with the player who reports next, with the one who has
reported and sends it, or between the two. -/
inductive Ball (s : State (Fin 2) ℕ Pc Line) (ball : ℕ) : Prop
  | report (h : s.process (player ball) = if ball = 0 then .serve else .hit ball)
    (hwait : s.process (player (ball + 1)) = .receive) (hempty : ∀ i j, s.channel i j = [])
    (hsmall : ball < 2 ^ 63)
  | send (last : ℕ) (hlast : last + 1 = ball) (h : s.process (player last) = .send ball)
    (hwait : s.process (player ball) = .receive) (hempty : ∀ i j, s.channel i j = [])
    (hsmall : ball < 2 ^ 63)
  | onWay (last : ℕ) (hlast : last + 1 = ball) (hwait : ∀ i, s.process i = .receive)
    (hchannel : s.channel = Function.update (fun _ _ => []) (player last)
      (Function.update (fun _ => []) (player ball) [ball])) (hsmall : ball < 2 ^ 63)
  | lost (last : ℕ) (hlast : last + 1 = ball) (h : s.process (player last) = .overflow)
    (hwait : s.process (player ball) = .receive) (hempty : ∀ i j, s.channel i j = [])
    (hover : ball = 2 ^ 63)

/-- The reports count the hits, and the ball is where the last report leaves it. -/
structure Rally (s : State (Fin 2) ℕ Pc Line) : Prop where
  output : s.output = (List.range s.output.length).map report
  ball : Ball s s.output.length

variable {limit : ℕ} {s t : State (Fin 2) ℕ Pc Line} {i : Fin 2}

theorem not_moves_receive (hi : s.process i = .receive) (hempty : ∀ j, s.channel j i = []) :
    ¬ Moves playPingPong s i t := by
  intro hs
  cases hs with
  | receive hn hm hc =>
    rw [hempty] at hc
    cases hc
  | report hn | send hn | enter hn | leave hn _ =>
    rw [hi] at hn
    cases hn

theorem next_player {ball : ℕ}
    (h : s.process (player ball) = if ball = 0 then .serve else .hit ball) :
    playPingPong.next (player ball) (s.process (player ball)) =
      .report (report ball).2 (increment ball) := by
  rw [h]
  by_cases hball : ball = 0
  · subst hball
    rfl
  · simp only [if_neg hball, playPingPong, report]

theorem moves_player {ball : ℕ}
    (h : s.process (player ball) = if ball = 0 then .serve else .hit ball)
    (hs : Moves playPingPong s (player ball) t) :
    t = s.report (player ball) (report ball).2 (increment ball) := by
  have hnext := next_player h
  cases hs with
  | report hn =>
    obtain ⟨rfl, rfl⟩ := Instr.report.inj (hnext.symm.trans hn)
    rfl
  | send hn | receive hn _ _ | enter hn | leave hn _ => cases hnext.symm.trans hn

theorem Rally.report {ball : ℕ} (h : Rally s) (hball : s.output.length = ball)
    (hi : s.process (player ball) = if ball = 0 then .serve else .hit ball)
    (hwait : s.process (player (ball + 1)) = .receive) (hempty : ∀ i j, s.channel i j = [])
    (hsmall : ball < 2 ^ 63) (hs : Moves playPingPong s (player ball) t) : Rally t := by
  obtain rfl := moves_player hi hs
  have hlength : (s.report (player ball) (PingPong.report ball).2 (increment ball)).output.length =
      ball + 1 := by
    simp only [State.report, List.length_append, List.length_singleton, hball]
  refine ⟨?_, ?_⟩
  · rw [hlength, List.range_succ, List.map_append, ← hball, ← h.output]
    rfl
  · rw [hlength]
    have hstay : (s.report (player ball) (PingPong.report ball).2 (increment ball)).process
        (player (ball + 1)) = .receive :=
      (Function.update_of_ne (player_succ_ne ball) _ _).trans hwait
    by_cases hlt : ball + 1 < 2 ^ 63
    · refine .send ball rfl ?_ hstay hempty hlt
      simp only [State.report, Function.update_self, increment, if_pos hlt]
    · refine .lost ball rfl ?_ hstay hempty (by omega)
      simp only [State.report, Function.update_self, increment, if_neg hlt]

theorem Rally.send {ball last : ℕ} (h : Rally s) (hball : s.output.length = ball)
    (hlast : last + 1 = ball) (hi : s.process (player last) = .send ball)
    (hwait : s.process (player ball) = .receive) (hempty : ∀ i j, s.channel i j = [])
    (hsmall : ball < 2 ^ 63) (hs : Moves playPingPong s (player last) t) : Rally t := by
  have hnext : playPingPong.next (player last) (s.process (player last)) =
      .send (player ball) ball .receive := by
    rw [hi, ← hlast, ← opponent_player last]
    rfl
  cases hs with
  | send hn =>
    obtain ⟨rfl, rfl, rfl⟩ := Instr.send.inj (hnext.symm.trans hn)
    refine ⟨h.output, ?_⟩
    change Ball _ s.output.length
    rw [hball]
    refine .onWay last hlast (fun j => ?_) ?_ hsmall
    · by_cases hj : j = player last
      · rw [hj]
        exact Function.update_self ..
      · have hj' : j = player ball := hlast ▸ eq_player_succ hj
        exact (Function.update_of_ne hj _ _).trans (hj' ▸ hwait)
    · have hchannel : s.channel = fun _ _ => [] := by
        funext j k
        exact hempty j k
      simp only [State.send, hchannel, List.nil_append]
  | report hn | receive hn _ _ | enter hn | leave hn _ => cases hnext.symm.trans hn

theorem Rally.receive {ball last : ℕ} (h : Rally s) (hball : s.output.length = ball)
    (hlast : last + 1 = ball) (hwait : ∀ i, s.process i = .receive)
    (hchannel : s.channel = Function.update (fun _ _ => []) (player last)
      (Function.update (fun _ => []) (player ball) [ball])) (hsmall : ball < 2 ^ 63)
    (hs : Moves playPingPong s i t) : Rally t := by
  have hnext : playPingPong.next i (s.process i) = .receive none .hit := by
    rw [hwait]
    rfl
  cases hs with
  | @receive _ j message rest next hn hm hc =>
    obtain ⟨-, rfl⟩ := Instr.receive.inj (hnext.symm.trans hn)
    have hj : j = player last := by
      by_contra hj
      rw [hchannel, Function.update_of_ne hj] at hc
      cases hc
    subst hj
    rw [hchannel, Function.update_self] at hc
    have hi : i = player ball := by
      by_contra hi
      rw [Function.update_of_ne hi] at hc
      cases hc
    subst hi
    rw [Function.update_self] at hc
    obtain ⟨rfl, rfl⟩ := List.cons.inj hc
    refine ⟨h.output, ?_⟩
    change Ball _ s.output.length
    rw [hball]
    refine .report ?_ ?_ (fun k r => ?_) hsmall
    · rw [if_neg (by omega)]
      exact Function.update_self ..
    · exact (Function.update_of_ne (player_succ_ne _) _ _).trans (hwait _)
    · simp only [State.receive, hchannel, Function.update_self, Function.update_idem]
      by_cases hk : k = player last
      · rw [hk, Function.update_self]
        by_cases hr : r = player ball
        · rw [hr, Function.update_self]
        · rw [Function.update_of_ne hr]
      · rw [Function.update_of_ne hk]
  | report hn | send hn | enter hn | leave hn _ => cases hnext.symm.trans hn

theorem Rally.step (h : Rally s) (hs : Moves playPingPong s i t) : Rally t := by
  cases h.ball with
  | report hi hwait hempty hsmall =>
    by_cases hplayer : i = player s.output.length
    · subst hplayer
      exact h.report rfl hi hwait hempty hsmall hs
    · exact absurd hs (not_moves_receive (eq_player_succ hplayer ▸ hwait) fun j => hempty j i)
  | send last hlast hi hwait hempty hsmall =>
    by_cases hplayer : i = player last
    · subst hplayer
      exact h.send rfl hlast hi hwait hempty hsmall hs
    · have hother : i = player s.output.length := hlast ▸ eq_player_succ hplayer
      exact absurd hs (not_moves_receive (hother ▸ hwait) fun j => hempty j i)
  | onWay last hlast hwait hchannel hsmall => exact h.receive rfl hlast hwait hchannel hsmall hs
  | lost last hlast hi hwait hempty hover =>
    by_cases hplayer : i = player last
    · subst hplayer
      have hnext : playPingPong.next (player last) (s.process (player last)) = .finished := by
        rw [hi]
        rfl
      cases hs with
      | report hn | send hn | receive hn _ _ | enter hn | leave hn _ => cases hnext.symm.trans hn
    · have hother : i = player s.output.length := hlast ▸ eq_player_succ hplayer
      exact absurd hs (not_moves_receive (hother ▸ hwait) fun j => hempty j i)

theorem reachable_rally (h : (playPingPong.system limit).Reachable s) : Rally s := by
  apply h.invariant (I := Rally)
  · refine ⟨rfl, .report rfl rfl (fun _ _ => rfl) (Nat.two_pow_pos 63)⟩
  · intro s x t ih hs
    obtain ⟨i, j⟩ := x
    exact ih.step (moves_of_step hs)

theorem lost_of_stuck (h : (playPingPong.system limit).Reachable s)
    (hs : (playPingPong.system limit).Stuck s) : s.output.length = 2 ^ 63 := by
  cases (reachable_rally h).ball with
  | report hi _ _ _ =>
    have hblocked := blocked_cases fun j => hs (player s.output.length, j)
    rw [next_player hi] at hblocked
    simp at hblocked
  | send last hlast hi hwait hempty _ =>
    have hblocked := blocked_cases fun j => hs (player last, j)
    have hnext : playPingPong.next (player last) (s.process (player last)) =
        .send (player s.output.length) s.output.length .receive := by
      rw [hi, ← hlast, ← opponent_player last]
      rfl
    rw [hnext] at hblocked
    simp only [reduceCtorEq, Instr.send.injEq, false_and, exists_false, or_false, false_or]
      at hblocked
    obtain ⟨dest, message, next, ⟨rfl, -, -⟩, -, hready⟩ := hblocked
    apply absurd _ hready
    simp only [Ready, hwait, playPingPong, matches_none, forall_const, true_and]
    exact fun j => hempty j _
  | onWay last hlast hwait hchannel _ =>
    have hblocked := blocked_cases fun j => hs (player s.output.length, j)
    rw [hwait] at hblocked
    simp only [playPingPong, reduceCtorEq, Instr.receive.injEq, false_and, exists_false, or_false,
      false_or] at hblocked
    obtain ⟨source, next, ⟨rfl, -⟩, hempty⟩ := hblocked
    have hball := hempty (player last) (matches_none _)
    rw [hchannel, Function.update_self, Function.update_self] at hball
    cases hball
  | lost _ _ _ _ _ hover => exact hover

theorem length_channels_le (h : Rally s) :
    ∑ i, ∑ j, (s.channel i j).length ≤ 1 := by
  have hzero : (∀ i j, s.channel i j = []) → ∑ i, ∑ j, (s.channel i j).length ≤ 1 :=
    fun hempty => by simp [hempty]
  cases h.ball with
  | report _ _ hempty _ => exact hzero hempty
  | send _ _ _ _ hempty _ => exact hzero hempty
  | lost _ _ _ _ hempty _ => exact hzero hempty
  | onWay last _ _ hchannel _ =>
    rw [hchannel, Fintype.sum_eq_single (player last) fun j hj => by
      simp [Function.update_of_ne hj]]
    rw [Fintype.sum_eq_single (player s.output.length) fun j hj => by
      simp [Function.update_of_ne hj]]
    simp

/-- Whatever the system buffers, the players hit the ball in turns and report every count once, with
one ball on the way at most, and neither ever waits in vain before the count exceeds a `long`. -/
theorem ping_pong_counts (limit : ℕ) :
    (∀ s, (playPingPong.system limit).Reachable s →
      s.output = (List.range s.output.length).map report ∧
        ∑ i, ∑ j, (s.channel i j).length ≤ 1) ∧
    ∀ s, (playPingPong.system limit).Reachable s → (playPingPong.system limit).Stuck s →
      s.output = (List.range (2 ^ 63)).map report := by
  refine ⟨fun s h => ⟨(reachable_rally h).output, length_channels_le (reachable_rally h)⟩,
    fun s h hs => ?_⟩
  rw [← lost_of_stuck h hs]
  exact (reachable_rally h).output

end Concurrente.Mpi.PingPong
