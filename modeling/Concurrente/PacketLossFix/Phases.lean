import Concurrente.PacketLossFix.Program

/-!
# The phases of the shutdown

One stop condition at a time travels between the dispatcher and the assembler.  The
phases say where it is and which messages can still be in front of it and behind it.
-/

namespace Concurrente.PacketLossFix

open Prodcons

variable {cfg : Config}

structure Ordinary (cfg : Config) (d : NetworkMessage) : Prop where
  target_pos : 1 ≤ d.target
  target_le : d.target ≤ cfg.consumerCount + 1
  source : d.source = 1

structure Regular (cfg : Config) (d : NetworkMessage) : Prop extends Ordinary cfg d where
  regular : d.target ≤ cfg.consumerCount

theorem Ordinary.ne_stop {d : NetworkMessage} (h : Ordinary cfg d) : d ≠ stopCondition := by
  rintro rfl
  exact absurd h.target_pos (by decide)

theorem createMessage_ordinary (x : Choice) (i : ℕ) : Ordinary cfg (createMessage cfg x i) := by
  have : x.target % (cfg.consumerCount + 1) < cfg.consumerCount + 1 :=
    Nat.mod_lt _ (Nat.succ_pos _)
  constructor <;> simp only [createMessage]
  · omega
  · omega

namespace Pc

/-- The producer has not sent the stop condition. -/
def Producer (cfg : Config) : Pc → Prop
  | create _ | produceStop => True
  | produce d _ => Ordinary cfg d
  | _ => False

/-- The assembler has not seen a stop condition. -/
def Working (cfg : Config) : Pc → Prop
  | consumeLoop count _ => count = 0
  | consume d _ => Ordinary cfg d
  | forward d _ => Regular cfg d
  | _ => False

/-- The assembler has seen one stop condition and nothing since. -/
def Halfway : Pc → Prop
  | consumeLoop count _ => count = 1
  | _ => False

/-- The dispatcher redirects messages and has seen at most so many stop conditions in a row. -/
def Dispatches (P : NetworkMessage → Prop) (most : ℕ) : Pc → Prop
  | dispatchLoop count => count ≤ most
  | dispatch d => P d
  | _ => False

def Left (cfg : Config) : Pc → Prop
  | broadcast key => 1 ≤ key ∧ key ≤ cfg.consumerCount + 1
  | dispatched => True
  | _ => False

/-- The dispatcher waits for its last stop condition or has left its loop. -/
def Late (cfg : Config) (pc : Pc) : Prop := pc = dispatchLoop 1 ∨ pc.Left cfg

end Pc

/-- Where the stop condition is, from the states of the producer, the assembler and the
dispatcher and from the queues of the dispatcher and the assembler. -/
inductive Phase (cfg : Config) (p a d : Pc) (qd qa : List NetworkMessage) : Prop where
  | producing (hp : p.Producer cfg) (ha : a.Working cfg) (hd : d.Dispatches (Ordinary cfg) 0)
      (hqd : ∀ m ∈ qd, Ordinary cfg m) (hqa : ∀ m ∈ qa, Ordinary cfg m)
  | sent (x y : List NetworkMessage) (hp : p = .produced) (ha : a.Working cfg)
      (hd : d.Dispatches (Ordinary cfg) 0) (hq : qd = x ++ stopCondition :: y)
      (hx : ∀ m ∈ x, Ordinary cfg m) (hy : ∀ m ∈ y, Regular cfg m) (hqa : ∀ m ∈ qa, Ordinary cfg m)
  | echoing (hp : p = .produced) (ha : a.Working cfg) (hd : d = .echo 1)
      (hqd : ∀ m ∈ qd, Regular cfg m) (hqa : ∀ m ∈ qa, Ordinary cfg m)
  | echoed (x : List NetworkMessage) (hp : p = .produced) (ha : a.Working cfg)
      (hd : d.Dispatches (Regular cfg) 1) (hqd : ∀ m ∈ qd, Regular cfg m)
      (hq : qa = x ++ [stopCondition]) (hx : ∀ m ∈ x, Ordinary cfg m)
  | answering (lost : List NetworkMessage) (hp : p = .produced) (ha : a = .answer 1 lost)
      (hd : d.Dispatches (Regular cfg) 1) (hqd : ∀ m ∈ qd, Regular cfg m) (hqa : qa = [])
  | answered (y : List NetworkMessage) (hp : p = .produced) (ha : a.Halfway)
      (hd : d.Dispatches (Regular cfg) 1) (hq : qd = y ++ [stopCondition])
      (hy : ∀ m ∈ y, Regular cfg m) (hqa : qa = [])
  | echoingAgain (hp : p = .produced) (ha : a.Halfway) (hd : d = .echo 1 ∨ d = .echo 2)
      (hqd : qd = []) (hqa : qa = [])
  | echoedAgain (hp : p = .produced) (ha : a.Halfway) (hd : d.Late cfg) (hqd : qd = [])
      (hne : qa ≠ []) (hqa : ∀ m ∈ qa, m = stopCondition)
  | answeringAgain (lost : List NetworkMessage) (hp : p = .produced) (ha : a = .answer 2 lost)
      (hd : d.Late cfg) (hqd : qd = []) (hqa : ∀ m ∈ qa, m = stopCondition)
  | assembled (lost : List NetworkMessage) (hp : p = .produced) (ha : a = .assembled lost)
      (hd : d.Late cfg ∧ qd = [stopCondition] ∨ d = .echo 2 ∧ qd = [] ∨ d.Left cfg ∧ qd = [])
      (hqa : ∀ m ∈ qa, m = stopCondition)

section Phases

variable {p a d : Pc} {qd qa : List NetworkMessage} {x : Choice}

theorem Phase.producer_ne (h : Phase cfg p a d qd qa) (hp : p ≠ .produced) :
    p.Producer cfg ∧ a.Working cfg ∧ d.Dispatches (Ordinary cfg) 0 ∧
      (∀ m ∈ qd, Ordinary cfg m) ∧ ∀ m ∈ qa, Ordinary cfg m := by
  cases h with
  | producing hp ha hd hqd hqa => exact ⟨hp, ha, hd, hqd, hqa⟩
  | sent x y hp' => exact absurd hp' hp
  | echoing hp' => exact absurd hp' hp
  | echoed x hp' => exact absurd hp' hp
  | answering lost hp' => exact absurd hp' hp
  | answered y hp' => exact absurd hp' hp
  | echoingAgain hp' => exact absurd hp' hp
  | echoedAgain hp' => exact absurd hp' hp
  | answeringAgain lost hp' => exact absurd hp' hp
  | assembled lost hp' => exact absurd hp' hp

theorem atIndex_producer (i : ℕ) : (atIndex cfg i).Producer cfg := by
  unfold atIndex
  split <;> trivial

theorem Phase.create {i : ℕ} (h : Phase cfg (.create i) a d qd qa) :
    Phase cfg (.produce (createMessage cfg x i) i) a d qd qa := by
  obtain ⟨-, ha, hd, hqd, hqa⟩ := h.producer_ne (by simp)
  exact .producing (createMessage_ordinary x i) ha hd hqd hqa

theorem Phase.produce {m : NetworkMessage} {i : ℕ} (h : Phase cfg (.produce m i) a d qd qa) :
    Phase cfg (atIndex cfg (i + 1)) a d (qd ++ [m]) qa := by
  obtain ⟨hm, ha, hd, hqd, hqa⟩ := h.producer_ne (by simp)
  exact .producing (atIndex_producer _) ha hd (forall_append hqd hm) hqa

theorem Phase.produceStop (h : Phase cfg .produceStop a d qd qa) :
    Phase cfg .produced a d (qd ++ [stopCondition]) qa := by
  obtain ⟨-, ha, hd, hqd, hqa⟩ := h.producer_ne (by simp)
  exact .sent qd [] rfl ha hd rfl hqd (by simp) hqa

theorem consume_working {m : NetworkMessage} {lost : List NetworkMessage} (hm : Ordinary cfg m) :
    (consume cfg x m lost).Working cfg := by
  have := Nat.mod_lt x.target cfg.consumerCount_pos
  unfold consume
  split
  · rfl
  · refine ⟨⟨?_, ?_, hm.source⟩, ?_⟩ <;> dsimp only <;> omega

theorem Phase.consume {m : NetworkMessage} {lost : List NetworkMessage}
    (h : Phase cfg p (.consume m lost) d qd qa) : Phase cfg p (consume cfg x m lost) d qd qa := by
  cases h with
  | producing hp ha hd hqd hqa => exact .producing hp (consume_working ha) hd hqd hqa
  | sent x y hp ha hd hq hx hy hqa => exact .sent x y hp (consume_working ha) hd hq hx hy hqa
  | echoing hp ha hd hqd hqa => exact .echoing hp (consume_working ha) hd hqd hqa
  | echoed x hp ha hd hqd hq hx => exact .echoed x hp (consume_working ha) hd hqd hq hx
  | _ => simp_all [Pc.Halfway]

theorem Phase.forward {m : NetworkMessage} {lost : List NetworkMessage}
    (h : Phase cfg p (.forward m lost) d qd qa) :
    Phase cfg p (.consumeLoop 0 lost) d (qd ++ [m]) qa := by
  have hloop : (Pc.consumeLoop 0 lost).Working cfg := rfl
  cases h with
  | producing hp ha hd hqd hqa =>
    exact .producing hp hloop hd (forall_append hqd ha.toOrdinary) hqa
  | sent x y hp ha hd hq hx hy hqa =>
    exact .sent x (y ++ [m]) hp hloop hd (by simp [hq]) hx (forall_append hy ha) hqa
  | echoing hp ha hd hqd hqa => exact .echoing hp hloop hd (forall_append hqd ha) hqa
  | echoed x hp ha hd hqd hq hx => exact .echoed x hp hloop hd (forall_append hqd ha) hq hx
  | _ => simp_all [Pc.Halfway]

theorem Phase.answer {count : ℕ} {lost : List NetworkMessage}
    (h : Phase cfg p (.answer count lost) d qd qa) :
    Phase cfg p (atAssembler count lost) d (qd ++ [stopCondition]) qa := by
  cases h with
  | answering lost hp ha hd hqd hqa =>
    cases ha
    exact .answered qd hp rfl hd rfl hqd hqa
  | answeringAgain lost hp ha hd hqd hqa =>
    cases ha
    exact .assembled lost hp rfl (.inl ⟨hd, by rw [hqd]; rfl⟩) hqa
  | _ => simp_all [Pc.Halfway, Pc.Working]

theorem Phase.consumeLoop {m : NetworkMessage} {rest lost : List NetworkMessage} {count : ℕ}
    (h : Phase cfg p (.consumeLoop count lost) d qd (m :: rest)) :
    Phase cfg p (if m = stopCondition then .answer (count + 1) lost else .consume m lost) d qd
      rest := by
  cases h with
  | producing hp ha hd hqd hqa =>
    obtain ⟨hm, hrest⟩ := List.forall_mem_cons.mp hqa
    rw [if_neg hm.ne_stop]
    exact .producing hp hm hd hqd hrest
  | sent x y hp ha hd hq hx hy hqa =>
    obtain ⟨hm, hrest⟩ := List.forall_mem_cons.mp hqa
    rw [if_neg hm.ne_stop]
    exact .sent x y hp hm hd hq hx hy hrest
  | echoing hp ha hd hqd hqa =>
    obtain ⟨hm, hrest⟩ := List.forall_mem_cons.mp hqa
    rw [if_neg hm.ne_stop]
    exact .echoing hp hm hd hqd hrest
  | echoed x hp ha hd hqd hq hx =>
    have hcount : count = 0 := ha
    subst hcount
    cases x with
    | nil =>
      obtain ⟨rfl, rfl⟩ := List.cons.inj hq
      rw [if_pos rfl]
      exact .answering lost hp rfl hd hqd rfl
    | cons m' x =>
      obtain ⟨rfl, rfl⟩ := List.cons.inj hq
      obtain ⟨hm, hx⟩ := List.forall_mem_cons.mp hx
      rw [if_neg hm.ne_stop]
      exact .echoed x hp hm hd hqd rfl hx
  | echoedAgain hp ha hd hqd hne hqa =>
    have hcount : count = 1 := ha
    subst hcount
    obtain ⟨hm, hrest⟩ := List.forall_mem_cons.mp hqa
    rw [if_pos hm]
    exact .answeringAgain lost hp rfl hd hqd hrest
  | _ => simp_all

theorem Pc.Late.not_dispatch {m : NetworkMessage} (h : (Pc.dispatch m).Late cfg) : False := by
  rcases h with h | h
  · cases h
  · exact h

theorem Pc.Late.not_echo {count : ℕ} (h : (Pc.echo count).Late cfg) : False := by
  rcases h with h | h
  · cases h
  · exact h

theorem Phase.dispatch_ordinary {m : NetworkMessage} (h : Phase cfg p a (.dispatch m) qd qa) :
    Ordinary cfg m := by
  cases h with
  | producing hp ha hd hqd hqa => exact hd
  | sent x y hp ha hd hq hx hy hqa => exact hd
  | echoing hp ha hd hqd hqa => cases hd
  | echoed x hp ha hd hqd hq hx => exact hd.toOrdinary
  | answering lost hp ha hd hqd hqa => exact hd.toOrdinary
  | answered y hp ha hd hq hy hqa => exact hd.toOrdinary
  | echoingAgain hp ha hd hqd hqa => simp at hd
  | echoedAgain hp ha hd hqd hne hqa => exact hd.not_dispatch.elim
  | answeringAgain lost hp ha hd hqd hqa => exact hd.not_dispatch.elim
  | assembled lost hp ha hd hqa =>
    rcases hd with ⟨hd, -⟩ | ⟨hd, -⟩ | ⟨hd, -⟩
    · exact hd.not_dispatch.elim
    · cases hd
    · exact hd.elim

theorem Phase.dispatch {m : NetworkMessage} (h : Phase cfg p a (.dispatch m) qd qa) :
    Phase cfg p a (.dispatchLoop 0) qd qa := by
  cases h with
  | producing hp ha hd hqd hqa => exact .producing hp ha (Nat.le_refl 0) hqd hqa
  | sent x y hp ha hd hq hx hy hqa => exact .sent x y hp ha (Nat.le_refl 0) hq hx hy hqa
  | echoing hp ha hd hqd hqa => cases hd
  | echoed x hp ha hd hqd hq hx => exact .echoed x hp ha (Nat.zero_le 1) hqd hq hx
  | answering lost hp ha hd hqd hqa => exact .answering lost hp ha (Nat.zero_le 1) hqd hqa
  | answered y hp ha hd hq hy hqa => exact .answered y hp ha (Nat.zero_le 1) hq hy hqa
  | echoingAgain hp ha hd hqd hqa => simp at hd
  | echoedAgain hp ha hd hqd hne hqa => exact hd.not_dispatch.elim
  | answeringAgain lost hp ha hd hqd hqa => exact hd.not_dispatch.elim
  | assembled lost hp ha hd hqa =>
    rcases hd with ⟨hd, -⟩ | ⟨hd, -⟩ | ⟨hd, -⟩
    · exact hd.not_dispatch.elim
    · cases hd
    · exact hd.elim

theorem Phase.dispatch_assembler {m : NetworkMessage} (h : Phase cfg p a (.dispatch m) qd qa)
    (hm : cfg.consumerCount < m.target) : Phase cfg p a (.dispatchLoop 0) qd (qa ++ [m]) := by
  have hreg : ¬ Regular cfg m := fun h => absurd h.regular (Nat.not_le.mpr hm)
  cases h with
  | producing hp ha hd hqd hqa =>
    exact .producing hp ha (Nat.le_refl 0) hqd (forall_append hqa hd)
  | sent x y hp ha hd hq hx hy hqa =>
    exact .sent x y hp ha (Nat.le_refl 0) hq hx hy (forall_append hqa hd)
  | echoing hp ha hd hqd hqa => cases hd
  | echoed x hp ha hd hqd hq hx => exact absurd hd hreg
  | answering lost hp ha hd hqd hqa => exact absurd hd hreg
  | answered y hp ha hd hq hy hqa => exact absurd hd hreg
  | echoingAgain hp ha hd hqd hqa => simp at hd
  | echoedAgain hp ha hd hqd hne hqa => exact hd.not_dispatch.elim
  | answeringAgain lost hp ha hd hqd hqa => exact hd.not_dispatch.elim
  | assembled lost hp ha hd hqa =>
    rcases hd with ⟨hd, -⟩ | ⟨hd, -⟩ | ⟨hd, -⟩
    · exact hd.not_dispatch.elim
    · cases hd
    · exact hd.elim

theorem Phase.echo {count : ℕ} (h : Phase cfg p a (.echo count) qd qa) :
    Phase cfg p a (atDispatcher count) qd (qa ++ [stopCondition]) := by
  have hfirst : (Pc.broadcast 1).Left cfg := ⟨Nat.le_refl 1, Nat.le_add_left 1 _⟩
  cases h with
  | echoing hp ha hd hqd hqa =>
    cases hd
    exact .echoed qa hp ha (Nat.le_refl 1) hqd rfl hqa
  | echoingAgain hp ha hd hqd hqa =>
    subst hqa
    rcases hd with hd | hd <;> cases hd
    · exact .echoedAgain hp ha (.inl rfl) hqd (by simp) (by simp)
    · exact .echoedAgain hp ha (.inr hfirst) hqd (by simp) (by simp)
  | echoedAgain hp ha hd hqd hne hqa => exact hd.not_echo.elim
  | answeringAgain lost hp ha hd hqd hqa => exact hd.not_echo.elim
  | assembled lost hp ha hd hqa =>
    rcases hd with ⟨hd, -⟩ | ⟨hd, hq⟩ | ⟨hd, -⟩
    · exact hd.not_echo.elim
    · cases hd
      exact .assembled lost hp ha (.inr (.inr ⟨hfirst, hq⟩)) (forall_append hqa rfl)
    · exact hd.elim
  | _ => simp_all [Pc.Dispatches]

theorem afterKey_left (key : ℕ) : (afterKey cfg key).Left cfg := by
  unfold afterKey
  split
  · exact ⟨Nat.le_add_left 1 key, by omega⟩
  · trivial

theorem Phase.broadcast {key : ℕ} (h : Phase cfg p a (.broadcast key) qd qa) :
    (1 ≤ key ∧ key ≤ cfg.consumerCount + 1) ∧ Phase cfg p a (afterKey cfg key) qd qa ∧
      Phase cfg p a (afterKey cfg key) qd (qa ++ [stopCondition]) := by
  have hlate : (Pc.broadcast key).Late cfg → 1 ≤ key ∧ key ≤ cfg.consumerCount + 1 := by
    rintro (hd | hd)
    · cases hd
    · exact hd
  cases h with
  | echoedAgain hp ha hd hqd hne hqa =>
    have hkey := hlate hd
    have hleft : (afterKey cfg key).Late cfg := .inr (afterKey_left key)
    exact ⟨hkey, .echoedAgain hp ha hleft hqd hne hqa,
      .echoedAgain hp ha hleft hqd (by simp) (forall_append hqa rfl)⟩
  | answeringAgain lost hp ha hd hqd hqa =>
    have hkey := hlate hd
    have hleft : (afterKey cfg key).Late cfg := .inr (afterKey_left key)
    exact ⟨hkey, .answeringAgain lost hp ha hleft hqd hqa,
      .answeringAgain lost hp ha hleft hqd (forall_append hqa rfl)⟩
  | assembled lost hp ha hd hqa =>
    rcases hd with ⟨hd, hq⟩ | ⟨hd, -⟩ | ⟨hd, hq⟩
    · have hkey := hlate hd
      have hleft : (afterKey cfg key).Late cfg := .inr (afterKey_left key)
      exact ⟨hkey, .assembled lost hp ha (.inl ⟨hleft, hq⟩) hqa,
        .assembled lost hp ha (.inl ⟨hleft, hq⟩) (forall_append hqa rfl)⟩
    · cases hd
    · have hleft : (afterKey cfg key).Left cfg := afterKey_left key
      exact ⟨hd, .assembled lost hp ha (.inr (.inr ⟨hleft, hq⟩)) hqa,
        .assembled lost hp ha (.inr (.inr ⟨hleft, hq⟩)) (forall_append hqa rfl)⟩
  | _ => simp_all [Pc.Dispatches]

theorem Phase.dispatchLoop {m : NetworkMessage} {rest : List NetworkMessage} {count : ℕ}
    (h : Phase cfg p a (.dispatchLoop count) (m :: rest) qa) :
    Phase cfg p a (if m = stopCondition then .echo (count + 1) else .dispatch m) rest qa := by
  cases h with
  | producing hp ha hd hqd hqa =>
    obtain ⟨hm, hrest⟩ := List.forall_mem_cons.mp hqd
    rw [if_neg hm.ne_stop]
    exact .producing hp ha hm hrest hqa
  | sent x y hp ha hd hq hx hy hqa =>
    have hcount : count = 0 := Nat.le_zero.mp hd
    subst hcount
    cases x with
    | nil =>
      obtain ⟨rfl, rfl⟩ := List.cons.inj hq
      rw [if_pos rfl]
      exact .echoing hp ha rfl hy hqa
    | cons m' x =>
      obtain ⟨rfl, rfl⟩ := List.cons.inj hq
      obtain ⟨hm, hx⟩ := List.forall_mem_cons.mp hx
      rw [if_neg hm.ne_stop]
      exact .sent x y hp ha hm rfl hx hy hqa
  | echoed x hp ha hd hqd hq hx =>
    obtain ⟨hm, hrest⟩ := List.forall_mem_cons.mp hqd
    rw [if_neg hm.ne_stop]
    exact .echoed x hp ha hm hrest hq hx
  | answering lost hp ha hd hqd hqa =>
    obtain ⟨hm, hrest⟩ := List.forall_mem_cons.mp hqd
    rw [if_neg hm.ne_stop]
    exact .answering lost hp ha hm hrest hqa
  | answered y hp ha hd hq hy hqa =>
    cases y with
    | nil =>
      obtain ⟨rfl, rfl⟩ := List.cons.inj hq
      rw [if_pos rfl]
      have hcount : count ≤ 1 := hd
      have hecho : count = 0 ∨ count = 1 := by omega
      exact .echoingAgain hp ha (by rcases hecho with rfl | rfl <;> simp) rfl hqa
    | cons m' y =>
      obtain ⟨rfl, rfl⟩ := List.cons.inj hq
      obtain ⟨hm, hy⟩ := List.forall_mem_cons.mp hy
      rw [if_neg hm.ne_stop]
      exact .answered y hp ha hm rfl hy hqa
  | assembled lost hp ha hd hqa =>
    rcases hd with ⟨hd, hq⟩ | ⟨hd, -⟩ | ⟨hd, -⟩
    · obtain ⟨rfl, rfl⟩ := List.cons.inj hq
      rcases hd with hd | hd
      · cases hd
        exact .assembled lost hp ha (.inr (.inl ⟨rfl, rfl⟩)) hqa
      · exact hd.elim
    · cases hd
    · exact hd.elim
  | _ => simp_all

end Phases

end Concurrente.PacketLossFix
