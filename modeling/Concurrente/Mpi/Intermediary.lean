import Concurrente.Mpi.Greetings

/-!
# send_recv_ord_itm, send_recv_urd

The processes send their greetings to the first one, which prints its own and then those that it
receives: in `send_recv_ord_itm` from the others in the order of their ranks, in `send_recv_urd`
from any of them.
-/

namespace Concurrente.Mpi.Intermediary

open Messages

variable {n m : ℕ}

inductive Pc where
  | begin
  | receive (source : ℕ)
  | print (source : ℕ) (text : List Char)
  | returned
  | aborted
  deriving DecidableEq

/-- `MAX_MSG_LEN`. -/
def maxMsgLen (maxProcessorName : ℕ) : ℕ := maxProcessorName + 70

/-- `Mpi::send` of a text sends its terminator as well. -/
def sendText (text : List Char) : List Char := text ++ ['\x00']

/-- `Mpi::receive` of a text: a message that is too long for the buffer aborts the program. -/
def receiveText (capacity : ℕ) (message : List Char) : Option (List Char) :=
  if message.length ≤ capacity then some (message.takeWhile (· ≠ '\x00')) else none

def afterReceive (source : ℕ) : Option (List Char) → Pc
  | some text => .print source text
  | none => .aborted

/-- The processes of both programs; `wanted` is the source of which the first one receives. -/
def gather (wanted : Fin (n + 1) → Option (Fin (n + 1))) (host : Fin (n + 1) → Host m) :
    Code (Fin (n + 1)) (List Char) Pc (List Char) where
  start _ := .begin
  next i
    | .begin =>
      let message := greeting i (n + 1) (host i).name
      if 0 < i.val then .send 0 (sendText message) .returned else .report message (.receive 1)
    | .receive source =>
      if h : source < n + 1 then
        .receive (wanted ⟨source, h⟩) fun message =>
          afterReceive source (receiveText (maxMsgLen m) message)
      else .finished
    | .print source text => .report text (.receive (source + 1))
    | .returned => .finished
    | .aborted => .finished

/-- `send_recv_ord_itm`. -/
def ordItm (host : Fin (n + 1) → Host m) : Code (Fin (n + 1)) (List Char) Pc (List Char) :=
  gather some host

/-- `send_recv_urd`. -/
def urd (host : Fin (n + 1) → Host m) : Code (Fin (n + 1)) (List Char) Pc (List Char) :=
  gather (fun _ => none) host

/-- The line that the first process prints for a process. -/
def line (host : Fin (n + 1) → Host m) (i : Fin (n + 1)) : Fin (n + 1) × List Char :=
  (0, greeting i (n + 1) (host i).name)

theorem length_decimal_le {k : ℕ} (h : k < 2 ^ 31) : (CString.decimal k).length ≤ 10 := by
  rw [CString.decimal, Nat.length_toDigits_le_iff (by norm_num) (by norm_num)]
  exact h.trans_le (by norm_num)

theorem greeting_fits {i size : ℕ} (host : Host m) (hi : i < size) (hsize : size < 2 ^ 31) :
    (sendText (greeting i size host.name)).length ≤ maxMsgLen m := by
  have hrank := length_decimal_le (hi.trans hsize)
  have hcount := length_decimal_le hsize
  have hhost := host.fits
  have hlength : (greeting i size host.name).length =
      34 + (CString.decimal i).length + 4 + (CString.decimal size).length + 4 +
        host.name.length := by
    unfold greeting
    simp
    ring
  rw [sendText, List.length_append, List.length_singleton, hlength, maxMsgLen]
  omega

theorem null_notMem_decimal (k : ℕ) : '\x00' ∉ CString.decimal k :=
  fun h => absurd (CString.isDigit_of_mem_decimal h) (by decide)

theorem null_notMem_greeting (i size : ℕ) (host : Host m) :
    '\x00' ∉ greeting i size host.name := by
  unfold greeting
  rw [List.mem_append, List.mem_append, List.mem_append, List.mem_append, List.mem_append]
  rintro (((((h | h) | h) | h) | h) | h)
  · simp at h
  · exact null_notMem_decimal i h
  · simp at h
  · exact null_notMem_decimal size h
  · simp at h
  · exact host.noNull h

theorem receiveText_greeting {i size : ℕ} (host : Host m) (hi : i < size) (hsize : size < 2 ^ 31) :
    receiveText (maxMsgLen m) (sendText (greeting i size host.name)) =
      some (greeting i size host.name) := by
  rw [receiveText, if_pos (greeting_fits host hi hsize), sendText, List.takeWhile_append_of_pos]
  · simp
  · intro c hc
    have hne : c ≠ '\x00' := by
      rintro rfl
      exact null_notMem_greeting i size host hc
    simpa using hne

section Protocol

variable (wanted : Fin (n + 1) → Option (Fin (n + 1))) (host : Fin (n + 1) → Host m)

/-- The sources of the messages are those that the receives ask for, one after the other. -/
def Gathered (received : List (Fin (n + 1) × List Char)) : Prop :=
  ∀ k j, (received.map Prod.fst)[k]? = some j → ∀ h : k + 1 < n + 1,
    Matches (wanted ⟨k + 1, h⟩) j

/-- Every other process sends its greeting, and the first one prints what it has received. -/
def protocol : Protocol (Fin (n + 1)) (List Char) Pc where
  Local i l
    | .begin => l = []
    | .receive source => i = 0 ∧ l.length + 1 = source ∧ Gathered wanted l
    | .print source text => i = 0 ∧ l.length = source ∧ Gathered wanted l ∧
      ∃ j, l.getLast?.map Prod.fst = some j ∧ text = greeting j (n + 1) (host j).name
    | .returned => i ≠ 0 ∧ l = []
    | .aborted => False
  sent _ j
    | .returned => if j = 0 then 1 else 0
    | _ => 0
  message i _ _ := sendText (greeting i (n + 1) (host i).name)

variable {wanted host} {limit : ℕ}
  {s t : State (Fin (n + 1)) (List Char) Pc (List Char)} {i j : Fin (n + 1)}

theorem Gathered.append {l : List (Fin (n + 1) × List Char)} (h : Gathered wanted l)
    {x : Fin (n + 1) × List Char} {hlt : l.length + 1 < n + 1}
    (hx : Matches (wanted ⟨l.length + 1, hlt⟩) x.1) : Gathered wanted (l ++ [x]) := by
  intro k j hk hlt'
  rw [List.map_append, List.getElem?_append] at hk
  split_ifs at hk with hkl
  · exact h k j hk hlt'
  · rw [List.length_map] at hkl hk
    obtain ⟨hlast, hj⟩ := List.getElem?_eq_some_iff.mp hk
    obtain rfl : k = l.length := by
      simp only [List.length_map, List.length_singleton] at hlast
      omega
    simp only [Nat.sub_self, List.map_cons, List.getElem_cons_zero] at hj
    exact hj ▸ hx

theorem protocol_followed (hsize : n + 1 < 2 ^ 31) :
    (protocol wanted host).Followed (gather wanted host) where
  start _ := rfl
  sent_start _ _ := rfl
  silent i l a b hl hb := by
    cases a <;> simp only [gather] at hb
    case begin =>
      split_ifs at hb with hi
      · cases hb
      · cases hb
        have hzero : i = 0 := Fin.ext (Nat.eq_zero_of_not_pos hi)
        subst hl
        exact ⟨⟨hzero, rfl, fun k j hk => by cases hk⟩, fun _ => rfl⟩
    case receive source => split_ifs at hb <;> cases hb
    case print source text =>
      cases hb
      obtain ⟨hzero, hlength, hgathered, -⟩ := hl
      exact ⟨⟨hzero, by rw [hlength], hgathered⟩, fun _ => rfl⟩
    all_goals cases hb
  send i l a k message b hl hb := by
    cases a <;> simp only [gather] at hb
    case begin =>
      split_ifs at hb with hi
      cases hb
      refine ⟨rfl, ⟨fun h => hi.ne' (congrArg Fin.val h), hl⟩, fun j => ?_⟩
      simp only [protocol, Nat.zero_add]
    case receive source => split_ifs at hb
    all_goals cases hb
  receive i l a source b j message hl hb hj hm _ := by
    cases a <;> simp only [gather] at hb
    case begin => split_ifs at hb
    case receive source =>
      split_ifs at hb with hlt
      cases hb
      obtain ⟨hzero, hlength, hgathered⟩ := hl
      subst hlength
      have htext : message = sendText (greeting j (n + 1) (host j).name) := hm
      dsimp only
      rw [htext, receiveText_greeting (host j) j.isLt hsize]
      exact ⟨⟨hzero, List.length_append, hgathered.append hj, j, by simp, rfl⟩, fun _ => rfl⟩
    all_goals cases hb

end Protocol

section Runs

variable {wanted : Fin (n + 1) → Option (Fin (n + 1))} {host : Fin (n + 1) → Host m} {limit : ℕ}
  {s t : State (Fin (n + 1)) (List Char) Pc (List Char)} {i j : Fin (n + 1)}

/-- The processes whose greetings the first one has received. -/
def sources (s : State (Fin (n + 1)) (List Char) Pc (List Char)) : List (Fin (n + 1)) :=
  (s.received 0).map Prod.fst

theorem sources_nodup (h : (protocol wanted host).Holds s) : (sources s).Nodup := by
  rw [List.nodup_iff_count_le_one]
  intro j
  have hlength := h.length_channel j 0
  rw [sources, count_sources]
  have hle : (protocol wanted host).sent j 0 (s.process j) ≤ 1 := by
    cases s.process j <;> simp [protocol]
  omega

theorem notMem_sources (h : (protocol wanted host).Holds s)
    (hj : (protocol wanted host).sent j 0 (s.process j) = 0) : j ∉ sources s := by
  rw [sources, mem_sources]
  have := h.length_channel j 0
  omega

theorem zero_notMem_sources (h : (protocol wanted host).Holds s) : 0 ∉ sources s := by
  apply notMem_sources h
  have hlocal := h.locals 0
  cases hpc : s.process 0
  case returned =>
    rw [hpc] at hlocal
    exact absurd rfl hlocal.1
  all_goals rfl

/-- The processes but the first one, in their order. -/
def others (n : ℕ) : List (Fin (n + 1)) := (List.finRange n).map Fin.succ

theorem sources_subperm (h : (protocol wanted host).Holds s) : (sources s).Subperm (others n) := by
  apply (sources_nodup h).subperm
  intro j hj
  obtain ⟨k, rfl⟩ := Fin.exists_succ_eq.mpr fun h0 => zero_notMem_sources h (h0 ▸ hj)
  exact List.mem_map_of_mem (List.mem_finRange k)

theorem length_sources_le (h : (protocol wanted host).Holds s) : (sources s).length ≤ n := by
  simpa [others] using (sources_subperm h).length_le

theorem gathered_received (h : (protocol wanted host).Holds s) :
    Gathered wanted (s.received 0) := by
  have hlocal := h.locals 0
  cases hpc : s.process 0 <;> rw [hpc] at hlocal
  case begin =>
    rw [show s.received 0 = [] from hlocal]
    intro k j hk
    cases hk
  case receive source => exact hlocal.2.2
  case print source text => exact hlocal.2.2.1
  case returned => exact absurd rfl hlocal.1
  case aborted => exact hlocal.elim

/-- The first process prints its own greeting and then those that it has received. -/
def Printed (host : Fin (n + 1) → Host m)
    (s : State (Fin (n + 1)) (List Char) Pc (List Char)) : Prop :=
  match s.process 0 with
  | .begin => s.output = []
  | .print _ text => s.output ++ [(0, text)] = (0 :: sources s).map (line host)
  | _ => s.output = (0 :: sources s).map (line host)

theorem Printed.congr (h : Printed host s) (hprocess : t.process 0 = s.process 0)
    (houtput : t.output = s.output) (hreceived : t.received 0 = s.received 0) :
    Printed host t := by
  simpa only [Printed, sources, hprocess, houtput, hreceived] using h

theorem reachable_printed (hsize : n + 1 < 2 ^ 31)
    (h : ((gather wanted host).system limit).Reachable s) : Printed host s := by
  have hstart : Printed host ((gather wanted host).system limit).start := rfl
  apply System.Reachable.invariant' hstart _ h
  intro s x t hr ih hs
  obtain ⟨i, j⟩ := x
  have hP := (protocol_followed hsize).holds hr
  have hlocal := hP.locals i
  cases moves_of_step hs with
  | report hn =>
    cases hi : s.process i <;> simp only [gather, hi] at hn <;> rw [hi] at hlocal
    case begin =>
      split_ifs at hn with hpos
      cases hn
      obtain rfl : i = 0 := Fin.ext (Nat.eq_zero_of_not_pos hpos)
      have hnil : s.output = [] := by simpa only [Printed, hi] using ih
      have hreceived : s.received 0 = [] := hlocal
      simp [Printed, sources, State.report, hnil, hreceived, line]
    case receive source => split_ifs at hn
    case print source text =>
      cases hn
      obtain ⟨rfl, -⟩ := hlocal
      simpa only [Printed, hi, sources, State.report, Function.update_self] using ih
    all_goals cases hn
  | send hn =>
    cases hi : s.process i <;> simp only [gather, hi] at hn
    case begin =>
      split_ifs at hn with hpos
      cases hn
      exact ih.congr (Function.update_of_ne (fun h0 => hpos.ne (congrArg Fin.val h0)) _ _) rfl rfl
    case receive source => split_ifs at hn
    all_goals cases hn
  | @receive _ j message rest _ hn hm hc =>
    cases hi : s.process i <;> simp only [gather, hi] at hn <;> rw [hi] at hlocal
    case begin => split_ifs at hn
    case receive source =>
      split_ifs at hn with hlt
      cases hn
      obtain ⟨rfl, -⟩ := hlocal
      have htext : message = sendText (greeting j (n + 1) (host j).name) := hP.head_eq hc
      simp only [Printed, hi] at ih
      simp only [Printed, sources, State.receive, Function.update_self, htext,
        receiveText_greeting (host j) j.isLt hsize, afterReceive, ih, List.map_append,
        List.map_cons, List.map_nil, List.cons_append]
      rfl
    all_goals cases hn
  | enter hn | leave hn _ =>
    cases hi : s.process i <;> simp only [gather, hi] at hn
    case begin => split_ifs at hn
    case receive source => split_ifs at hn
    all_goals cases hn

theorem output_begins (hsize : n + 1 < 2 ^ 31)
    (h : ((gather wanted host).system limit).Reachable s) :
    s.output <+: (0 :: sources s).map (line host) := by
  have hprinted := reachable_printed hsize h
  unfold Printed at hprinted
  split at hprinted
  · rw [hprinted]
    exact List.nil_prefix
  · rw [← hprinted]
    exact List.prefix_append _ _
  · rw [hprinted]

/-- Who has not been received from and is wanted is there as long as somebody has not been received
from. -/
def Attends (wanted : Fin (n + 1) → Option (Fin (n + 1))) : Prop :=
  ∀ received : List (Fin (n + 1) × List Char), Gathered wanted received →
    (received.map Prod.fst).Subperm (others n) → ∀ h : received.length + 1 < n + 1,
      ∃ j, j ≠ 0 ∧ j ∉ received.map Prod.fst ∧ Matches (wanted ⟨received.length + 1, h⟩) j

theorem begin_of_notMem (h : (protocol wanted host).Holds s) (hj : j ≠ 0) (hnot : j ∉ sources s)
    (hempty : s.channel j 0 = []) : s.process j = .begin := by
  have hlength := h.length_channel j 0
  rw [sources, mem_sources] at hnot
  rw [hempty, List.length_nil] at hlength
  have hlocal := h.locals j
  cases hpc : s.process j <;> rw [hpc] at hlocal hlength
  case returned =>
    simp only [protocol, if_true] at hlength
    omega
  case aborted => exact hlocal.elim
  all_goals exact absurd hlocal.1 hj

theorem first_of_stuck (hsize : n + 1 < 2 ^ 31) (hattends : Attends wanted)
    (h : ((gather wanted host).system limit).Reachable s)
    (hs : ((gather wanted host).system limit).Stuck s) :
    ∃ source, s.process 0 = .receive source ∧ n + 1 ≤ source := by
  have hP := (protocol_followed hsize).holds h
  have hlocal := hP.locals 0
  have hblocked := blocked_cases fun j => hs (0, j)
  cases hpc : s.process 0 <;> simp only [gather, hpc] at hblocked <;> rw [hpc] at hlocal
  case begin => simp at hblocked
  case print => simp at hblocked
  case returned => exact absurd rfl hlocal.1
  case aborted => exact hlocal.elim
  case receive source =>
    refine ⟨source, rfl, ?_⟩
    by_contra! hlt
    obtain ⟨-, rfl, hgathered⟩ := hlocal
    obtain ⟨j, hj, hnot, hwanted⟩ := hattends _ hgathered (sources_subperm hP) hlt
    have hempty : ∀ k, Matches (wanted ⟨_, hlt⟩) k → s.channel k 0 = [] := by
      simpa [hlt] using hblocked
    have hbegin := begin_of_notMem hP hj hnot (hempty j hwanted)
    have hpos : 0 < j.val := Nat.pos_of_ne_zero fun h0 => hj (Fin.ext h0)
    have hsend := blocked_cases fun k => hs (j, k)
    simp only [gather, hbegin, if_pos hpos] at hsend
    have hready : Ready (gather wanted host) s 0 j := by
      simp only [Ready, gather, hpc, dif_pos hlt]
      exact ⟨hwanted, hempty⟩
    simp only [reduceCtorEq, Instr.send.injEq, false_and, exists_false, or_false, false_or]
      at hsend
    obtain ⟨dest, message, next, ⟨rfl, -, -⟩, -, hnotReady⟩ := hsend
    exact hnotReady hready

theorem sources_of_stuck (hsize : n + 1 < 2 ^ 31) (hattends : Attends wanted)
    (h : ((gather wanted host).system limit).Reachable s)
    (hs : ((gather wanted host).system limit).Stuck s) : (sources s).Perm (others n) := by
  have hP := (protocol_followed hsize).holds h
  obtain ⟨source, hpc, hle⟩ := first_of_stuck hsize hattends h hs
  have hlocal := hP.locals 0
  rw [hpc] at hlocal
  obtain ⟨-, hlength, -⟩ := hlocal
  apply (sources_subperm hP).perm_of_length_le
  simp only [others, sources, List.length_map, List.length_finRange]
  omega

theorem finished_of_stuck (hsize : n + 1 < 2 ^ 31) (hattends : Attends wanted)
    (h : ((gather wanted host).system limit).Reachable s)
    (hs : ((gather wanted host).system limit).Stuck s) :
    Finished (gather wanted host) s ∧ s.output = (0 :: sources s).map (line host) := by
  have hP := (protocol_followed hsize).holds h
  obtain ⟨source, hpc, hle⟩ := first_of_stuck hsize hattends h hs
  have hprinted := reachable_printed hsize h
  rw [Printed, hpc] at hprinted
  refine ⟨fun j => ?_, hprinted⟩
  have hlocal := hP.locals j
  by_cases hj : j = 0
  · rw [hj, hpc]
    simp only [gather, dif_neg (not_lt.mpr hle)]
  · obtain ⟨k, rfl⟩ := Fin.exists_succ_eq.mpr hj
    have hmem : k.succ ∈ sources s :=
      (sources_of_stuck hsize hattends h hs).mem_iff.mpr (List.mem_map_of_mem (List.mem_finRange k))
    rw [sources, mem_sources] at hmem
    have hsent := hP.length_channel k.succ 0
    cases hk : s.process k.succ <;> rw [hk] at hlocal hsent
    case begin =>
      simp only [protocol] at hsent
      omega
    case returned => rfl
    case aborted => exact hlocal.elim
    all_goals exact absurd hlocal.1 hj

/-- The lines that a process has ahead of it. -/
def Pc.left (i : Fin (n + 1)) : Pc → ℕ
  | begin => if 0 < i.val then 1 else 2 * n + 1
  | receive source => 2 * (n + 1 - source)
  | print source _ => 2 * (n - source) + 1
  | returned => 0
  | aborted => 0

theorem left_lt (i : Fin (n + 1)) (a b : Pc) (h : ((gather wanted host).next i a).Leads b) :
    b.left i < a.left i := by
  cases a <;> simp only [gather] at h
  case begin =>
    split_ifs at h with hi <;> cases h <;> simp [Pc.left, hi]
  case receive source =>
    split_ifs at h with hlt
    · obtain ⟨message, rfl⟩ := h
      dsimp only
      cases receiveText (maxMsgLen m) message <;> simp only [afterReceive, Pc.left] <;> omega
    · cases h
  case print source text =>
    cases h
    simp only [Pc.left]
    omega
  all_goals cases h

theorem length_le {l : List (Fin (n + 1) × Fin (n + 1))}
    (h : ((gather wanted host).system limit).run l = some s) : l.length ≤ 3 * n + 1 := by
  apply (length_le_of_run Pc.left left_lt h).trans_eq
  rw [Fin.sum_univ_succ]
  simp only [gather, Pc.left, Fin.val_zero, lt_irrefl, if_false, Fin.val_succ, Nat.succ_pos,
    if_true, Finset.sum_const, Finset.card_univ, Fintype.card_fin, smul_eq_mul]
  ring

end Runs

theorem node_noNull : '\x00' ∉ ['n'] := by decide

def node : Host 2 := ⟨['n'], Nat.one_lt_two, node_noNull⟩

section OrdItm

variable {host : Fin (n + 1) → Host m} {limit : ℕ}
  {s : State (Fin (n + 1)) (List Char) Pc (List Char)}

theorem sources_eq_take {l : List (Fin (n + 1) × List Char)} (h : Gathered some l)
    (hle : l.length ≤ n) : l.map Prod.fst = (others n).take l.length := by
  apply List.ext_getElem
  · simpa [others] using hle
  · intro k hk hk'
    rw [List.length_map] at hk
    have hmatch := h k _ (List.getElem?_eq_getElem (by simpa using hk)) (by omega)
    rw [← matches_some.mp hmatch]
    simp [others]

theorem attends_some : Attends (some : Fin (n + 1) → _) := by
  intro l hl _ hlt
  refine ⟨⟨l.length + 1, hlt⟩, fun h => Nat.succ_ne_zero _ (congrArg Fin.val h), ?_, rfl⟩
  rw [sources_eq_take hl (by omega)]
  intro hmem
  obtain ⟨k, hk, heq⟩ := List.mem_take_iff_getElem.mp hmem
  have := congrArg Fin.val heq
  simp [others] at this
  omega

theorem sources_eq (h : (protocol some host).Holds s) :
    sources s = (others n).take (sources s).length := by
  have hle := length_sources_le h
  rw [sources, List.length_map] at hle ⊢
  exact sources_eq_take (gathered_received h) hle

/-- Whatever the system buffers and whoever moves when, the greetings are printed in the order of
the ranks, and no run ends before all have been printed. -/
theorem ord_itm_greets (hsize : n + 1 < 2 ^ 31) (host : Fin (n + 1) → Host m) (limit : ℕ) :
    (∀ s, ((ordItm host).system limit).Reachable s →
      s.output <+: (List.finRange (n + 1)).map (line host)) ∧
    (∀ s, ((ordItm host).system limit).Reachable s → ((ordItm host).system limit).Stuck s →
      Finished (ordItm host) s ∧ s.output = (List.finRange (n + 1)).map (line host)) ∧
    ∀ l s, ((ordItm host).system limit).run l = some s → l.length ≤ 3 * n + 1 := by
  have hrange : 0 :: others n = List.finRange (n + 1) := List.finRange_succ.symm
  refine ⟨fun s h => ?_, fun s h hs => ?_, fun l s => length_le⟩
  · have hsources := sources_eq ((protocol_followed hsize).holds h)
    have hbegins : 0 :: sources s <+: 0 :: others n := by
      rw [List.prefix_cons_inj, hsources]
      exact List.take_prefix _ _
    rw [← hrange]
    exact (output_begins hsize h).trans (hbegins.map _)
  · have hsources := sources_eq ((protocol_followed hsize).holds h)
    have hlength := (sources_of_stuck hsize attends_some h hs).length_eq
    obtain ⟨hend, houtput⟩ := finished_of_stuck hsize attends_some h hs
    rw [hlength, List.take_length] at hsources
    exact ⟨hend, by rw [houtput, hsources, hrange]⟩

/-- The end of a run of three processes that wait for each other at every send. -/
theorem ord_itm_greets_three : ∃ s, ((ordItm (n := 2) fun _ => node).system 0).Reachable s ∧
    Finished (ordItm fun _ => node) s ∧
    s.output = (List.finRange 3).map (line fun _ => node) := by
  have hterminates : ((ordItm (n := 2) fun _ => node).system 0).Terminates :=
    terminates Pc.left left_lt 0
  obtain ⟨s, hs, hstuck⟩ := hterminates.exists_stuck
  exact ⟨s, hs, (ord_itm_greets (by decide) (fun _ => node) 0).2.1 s hs hstuck⟩

end OrdItm

section Urd

variable {host : Fin (n + 1) → Host m} {limit : ℕ}
  {s t : State (Fin (n + 1)) (List Char) Pc (List Char)} {j : Fin (n + 1)}

theorem others_nodup : (others n).Nodup :=
  (List.nodup_finRange n).map (Fin.succ_injective n)

theorem attends_none : Attends (fun _ : Fin (n + 1) => none) := by
  intro l _ _ hlt
  by_contra! hall
  have hsub : others n ⊆ l.map Prod.fst := by
    intro j hj
    obtain ⟨k, -, rfl⟩ := List.mem_map.mp hj
    by_contra hnot
    exact hall k.succ (Fin.succ_ne_zero k) hnot (matches_none _)
  have hle := (others_nodup.subperm hsub).length_le
  simp only [others, List.length_map, List.length_finRange] at hle
  omega

/-- The first process has printed the greetings of some others, and the rest has not sent. -/
structure Served (host : Fin (n + 1) → Host m) (order : List (Fin (n + 1)))
    (s : State (Fin (n + 1)) (List Char) Pc (List Char)) : Prop where
  first : s.process 0 = .receive (order.length + 1)
  others : ∀ j ≠ 0, s.process j = if j ∈ order then .returned else .begin
  empty : ∀ j, s.channel j 0 = []
  output : s.output = (0 :: order).map (line host)

theorem Served.next (limit : ℕ) (hsize : n + 1 < 2 ^ 31) {order : List (Fin (n + 1))}
    (h : Served host order s) (hj : j ≠ 0) (hnot : j ∉ order) (hlt : order.length + 1 < n + 1) :
    ∃ t, ((urd host).system limit).Path s t ∧ Served host (order ++ [j]) t := by
  let text := greeting j (n + 1) (host j).name
  have hpos : 0 < j.val := Nat.pos_of_ne_zero fun h0 => hj (Fin.ext h0)
  have hbegin : (urd host).next j (s.process j) = .send 0 (sendText text) .returned := by
    rw [h.others j hj, if_neg hnot]
    simp only [urd, gather, if_pos hpos, text]
  have hready : Ready (urd host) s 0 j := by
    simp only [Ready, urd, gather, h.first, dif_pos hlt, matches_none, forall_const]
    exact ⟨trivial, h.empty⟩
  have hsend := step_send limit hbegin hready j
  set a := s.send j 0 (sendText text) .returned with ha
  have hfirst : a.process 0 = .receive (order.length + 1) := by
    rw [← h.first]
    exact Function.update_of_ne hj.symm _ _
  have hwait : (urd host).next 0 (a.process 0) = .receive none fun message =>
      afterReceive (order.length + 1) (receiveText (maxMsgLen m) message) := by
    rw [hfirst]
    simp only [urd, gather, dif_pos hlt]
  have hchannel : a.channel j 0 = [sendText text] := by
    simp only [ha, State.send, Function.update_self, h.empty, List.nil_append]
  have hreceive := step_receive limit hwait (matches_none j) hchannel
  rw [receiveText_greeting (host j) j.isLt hsize, afterReceive] at hreceive
  set b := a.receive 0 j (sendText text) [] (.print (order.length + 1) text) with hb
  have hprint : (urd host).next 0 (b.process 0) =
      .report text (.receive (order.length + 1 + 1)) := by
    simp only [hb, State.receive, Function.update_self]
    rfl
  have hreport := step_report limit hprint 0
  refine ⟨_, .head hsend (.head hreceive (.step hreport)), ?_, fun k hk => ?_, fun k => ?_, ?_⟩
  · simp only [State.report, Function.update_self, List.length_append, List.length_singleton]
  · have hk' : (b.report 0 text (.receive (order.length + 1 + 1))).process k =
        Function.update s.process j .returned k := by
      simp only [State.report, hb, State.receive, ha, State.send, Function.update_of_ne hk]
    rw [hk']
    by_cases hkj : k = j
    · rw [hkj, Function.update_self, if_pos (by simp)]
    · rw [Function.update_of_ne hkj, h.others k hk]
      simp only [List.mem_append, List.mem_singleton, hkj, or_false]
  · by_cases hkj : k = j
    · rw [hkj]
      simp only [State.report, hb, State.receive, Function.update_self]
    · simp only [State.report, hb, State.receive, ha, State.send, Function.update_of_ne hkj,
        h.empty]
  · simp only [State.report, hb, State.receive, ha, State.send, h.output, List.map_append,
      List.map_cons, List.map_nil, List.cons_append]
    rfl

theorem exists_served (limit : ℕ) (hsize : n + 1 < 2 ^ 31) (order : List (Fin (n + 1)))
    (hnodup : order.Nodup) (hzero : 0 ∉ order) :
    ∃ s, ((urd host).system limit).Reachable s ∧ Served host order s := by
  induction order using List.reverseRecOn with
  | nil =>
    have hbegin : (urd host).next 0 Pc.begin =
        .report (greeting 0 (n + 1) (host 0).name) (.receive 1) := rfl
    have hstep := step_report (s := ((urd host).system limit).start) limit hbegin 0
    refine ⟨_, System.Reachable.step .start hstep, ?_, fun j hj => ?_, fun _ => rfl, rfl⟩
    · simp only [State.report, Function.update_self, List.length_nil]
    · simp only [State.report, Function.update_of_ne hj, List.not_mem_nil, if_false]
      rfl
  | append_singleton order j ih =>
    obtain ⟨hnodup', -, hdisjoint⟩ := List.nodup_append.mp hnodup
    have hnot : j ∉ order := fun h => hdisjoint j h j (List.mem_singleton_self j) rfl
    have hj : j ≠ 0 := by
      rintro rfl
      exact hzero (by simp)
    obtain ⟨s, hs, hserved⟩ := ih hnodup' fun h => hzero (List.mem_append_left _ h)
    have hlength : (0 :: (order ++ [j])).length ≤ n + 1 := by
      have := (List.nodup_cons.mpr ⟨hzero, hnodup⟩).length_le_card
      rwa [Fintype.card_fin] at this
    simp only [List.length_cons, List.length_append, List.length_nil] at hlength
    obtain ⟨t, ht, hserved'⟩ := hserved.next limit hsize hj hnot (by omega)
    exact ⟨t, hs.path ht, hserved'⟩

theorem Served.stuck {order : List (Fin (n + 1))} (h : Served host order s)
    (horder : order.Perm (Intermediary.others n)) : ((urd host).system limit).Stuck s := by
  have hlength := horder.length_eq
  simp only [Intermediary.others, List.length_map, List.length_finRange] at hlength
  rintro ⟨i, j⟩
  have hfinished : (urd host).next i (s.process i) = .finished := by
    by_cases hi : i = 0
    · rw [hi, h.first]
      simp only [urd, gather, hlength, lt_irrefl, dite_false]
    · obtain ⟨k, rfl⟩ := Fin.exists_succ_eq.mpr hi
      rw [h.others _ hi, if_pos (horder.mem_iff.mpr (List.mem_map_of_mem (List.mem_finRange k)))]
      rfl
  simp only [Code.system, hfinished]

/-- The first process prints its greeting first, and every order of the others can follow; no run
ends before all greetings have been printed. -/
theorem urd_greets (hsize : n + 1 < 2 ^ 31) (host : Fin (n + 1) → Host m) (limit : ℕ) :
    (∀ s, ((urd host).system limit).Reachable s →
      ∃ order : List (Fin (n + 1)), order.Perm (others n) ∧
        s.output <+: (0 :: order).map (line host)) ∧
    (∀ s, ((urd host).system limit).Reachable s → ((urd host).system limit).Stuck s →
      Finished (urd host) s ∧ ∃ order : List (Fin (n + 1)), order.Perm (others n) ∧
        s.output = (0 :: order).map (line host)) ∧
    (∀ order : List (Fin (n + 1)), order.Perm (others n) →
      ∃ s, ((urd host).system limit).Reachable s ∧ ((urd host).system limit).Stuck s ∧
        s.output = (0 :: order).map (line host)) ∧
    ∀ l s, ((urd host).system limit).run l = some s → l.length ≤ 3 * n + 1 := by
  refine ⟨fun s h => ?_, fun s h hs => ?_, fun order horder => ?_, fun l s => length_le⟩
  · have hsub := sources_subperm ((protocol_followed hsize).holds h)
    refine ⟨sources s ++ (others n).diff (sources s),
      List.subperm_append_diff_self_of_count_le fun j _ => hsub.count_le j, ?_⟩
    rw [← List.cons_append, List.map_append]
    exact (output_begins hsize h).trans (List.prefix_append _ _)
  · obtain ⟨hend, houtput⟩ := finished_of_stuck hsize attends_none h hs
    exact ⟨hend, sources s, sources_of_stuck hsize attends_none h hs, houtput⟩
  · have hzero : 0 ∉ order := by
      rw [horder.mem_iff]
      intro h
      obtain ⟨k, -, hk⟩ := List.mem_map.mp h
      exact Fin.succ_ne_zero k hk
    obtain ⟨s, hs, hserved⟩ :=
      exists_served limit hsize order (horder.nodup_iff.mpr others_nodup) hzero
    exact ⟨s, hs, hserved.stuck horder, hserved.output⟩

theorem urd_greets_last_first : ∃ s, ((urd (n := 2) fun _ => node).system 0).Reachable s ∧
    ((urd (n := 2) fun _ => node).system 0).Stuck s ∧
      s.output = [0, 2, 1].map (line fun _ => node) :=
  (urd_greets (by decide) (fun _ => node) 0).2.2.1 [2, 1] (by decide)

end Urd

end Concurrente.Mpi.Intermediary
