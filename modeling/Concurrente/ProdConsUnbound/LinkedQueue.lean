import Concurrente.NodeHeap
import Concurrente.ProdConsUnbound.Program

/-!
# The linked queue

`queue.c`: a queue is a chain of nodes in memory, with pointers to the first and to the
last one.  Each operation runs under the mutex of the queue, so any threads that use it
execute some sequence of operations.  For every such sequence the queue is a list: new
values come last, and the first one leaves.
-/

namespace Concurrente.ProdConsUnbound

/-- `queue_t` without its mutex. -/
structure LinkedQueue where
  head : Option ℕ
  tail : Option ℕ

/-- The queue and the memory its nodes are in. -/
structure Store (α : Type) where
  heap : NodeHeap α
  queue : LinkedQueue

/-- `EXIT_SUCCESS` and `EXIT_FAILURE`. -/
inductive Exit where
  | success
  | failure
  deriving DecidableEq

section Code

variable {α : Type}

def queueInit : Store α → Store α := fun s => { s with queue := ⟨none, none⟩ }

def queueIsEmpty (s : Store α) : Bool := s.queue.head.isNone

/-- The node from `calloc` is at `newNode`. -/
def queueEnqueue [Zero α] (newNode : ℕ) (data : α) (s : Store α) :
    Except PointerFault (Store α) := do
  let heap := s.heap.allocate newNode ⟨0, none⟩
  let node ← heap.read (some newNode)
  let heap ← heap.write (some newNode) { node with data := data }
  if s.queue.tail.isSome then
    let tail ← heap.read s.queue.tail
    let heap ← heap.write s.queue.tail { tail with next := some newNode }
    return ⟨heap, { s.queue with tail := some newNode }⟩
  else
    return ⟨heap, ⟨some newNode, some newNode⟩⟩

def queueRemoveFirstUnsafe (s : Store α) : Except PointerFault (Store α) := do
  let node := s.queue.head
  let first ← s.heap.read s.queue.head
  let heap ← s.heap.free node
  return ⟨heap, ⟨first.next, if first.next = none then none else s.queue.tail⟩⟩

/-- The value is what was stored through `data`; `wanted` is false for a null pointer. -/
def queueDequeue (wanted : Bool) (s : Store α) :
    Except PointerFault (Store α × Exit × Option α) :=
  if queueIsEmpty s then .ok (s, .failure, none)
  else do
    let first ← s.heap.read s.queue.head
    let s ← queueRemoveFirstUnsafe s
    return (s, .success, if wanted then some first.data else none)

theorem card_queueRemoveFirstUnsafe {s s' : Store α} (h : queueRemoveFirstUnsafe s = .ok s') :
    s'.heap.live.card < s.heap.live.card := by
  simp only [queueRemoveFirstUnsafe, bind, Except.bind] at h
  cases hr : s.heap.read s.queue.head with
  | error e =>
    rw [hr] at h
    cases h
  | ok first =>
    cases hf : s.heap.free s.queue.head with
    | error e =>
      rw [hr, hf] at h
      cases h
    | ok heap =>
      rw [hr, hf] at h
      cases h
      exact NodeHeap.card_free hf

/-- The loop ends because each round frees a node. -/
def queueClear (s : Store α) : Except PointerFault (Store α) :=
  if queueIsEmpty s then .ok s
  else
    match _h : queueRemoveFirstUnsafe s with
    | .ok s => queueClear s
    | .error e => .error e
termination_by s.heap.live.card
decreasing_by exact card_queueRemoveFirstUnsafe _h

theorem queueClear_eq {s s' : Store α} (he : queueIsEmpty s = false)
    (hs : queueRemoveFirstUnsafe s = .ok s') : queueClear s = queueClear s' := by
  rw [queueClear, he, if_neg Bool.false_ne_true]
  split
  next t ht =>
    obtain rfl := Except.ok.inj (ht.symm.trans hs)
    rfl
  next e he => cases he.symm.trans hs

end Code

/-- A call, with the address that `calloc` chooses for a new node. -/
inductive QueueOp (α : Type) where
  | enqueue (data : α) (newNode : ℕ)
  | dequeue (wanted : Bool)
  | clear
  | isEmpty

inductive QueueResult (α : Type) where
  | error (exit : Exit)
  | dequeued (exit : Exit) (data : Option α)
  | cleared
  | answer (empty : Bool)
  deriving DecidableEq

section Operations

variable {α : Type} [Zero α]

def QueueOp.exec : QueueOp α → Store α → Except PointerFault (Store α × QueueResult α)
  | .enqueue data newNode, s => do
    let s ← queueEnqueue newNode data s
    return (s, .error .success)
  | .dequeue wanted, s => do
    let (s, exit, data) ← queueDequeue wanted s
    return (s, .dequeued exit data)
  | .clear, s => do
    let s ← queueClear s
    return (s, .cleared)
  | .isEmpty, s => .ok (s, .answer (queueIsEmpty s))

/-- An allocation that succeeds gives an address that is not in use. -/
def QueueOp.Fresh (s : Store α) : QueueOp α → Prop
  | .enqueue _ newNode => newNode ∉ s.heap.live
  | _ => True

/-- The operations and results from `queue_init` on. -/
inductive QueueRun : List (QueueOp α × QueueResult α) → Store α → Prop
  | init (nodes : ℕ → Node α) (queue : LinkedQueue) :
      QueueRun [] (queueInit ⟨⟨∅, nodes⟩, queue⟩)
  | step {events : List (QueueOp α × QueueResult α)} {s t : Store α} {op : QueueOp α}
      {result : QueueResult α} (run : QueueRun events s) (fresh : op.Fresh s)
      (exec : op.exec s = .ok (t, result)) : QueueRun (events ++ [(op, result)]) t

end Operations

section Fifo

variable {α : Type}

def QueueOp.fifo : QueueOp α → List α → List α × QueueResult α
  | .enqueue data _, values => (values ++ [data], .error .success)
  | .dequeue _, [] => ([], .dequeued .failure none)
  | .dequeue wanted, data :: values =>
    (values, .dequeued .success (if wanted then some data else none))
  | .clear, _ => ([], .cleared)
  | .isEmpty, values => (values, .answer values.isEmpty)

/-- The values after a sequence of operations, and the results of these. -/
def fifo (ops : List (QueueOp α)) : List α × List (QueueResult α) :=
  ops.foldl (fun x op => ((op.fifo x.1).1, x.2 ++ [(op.fifo x.1).2])) ([], [])

theorem fifo_concat (ops : List (QueueOp α)) (op : QueueOp α) : fifo (ops ++ [op]) =
    ((op.fifo (fifo ops).1).1, (fifo ops).2 ++ [(op.fifo (fifo ops).1).2]) := by
  rw [fifo, List.foldl_append]
  rfl

/-- The program on top of the queue uses it as this list. -/
theorem simulation_queue (s : Simulation) (data newNode : ℕ) (wanted : Bool) :
    (s.queueEnqueue data).1.queue = (QueueOp.fifo (.enqueue data newNode) s.queue).1 ∧
      s.queueDequeue.1.queue = (QueueOp.fifo (.dequeue wanted) s.queue).1 := by
  refine ⟨rfl, ?_⟩
  unfold Simulation.queueDequeue
  cases hq : s.queue with
  | nil => exact hq
  | cons data values => rfl

end Fifo

section Represents

variable {α : Type} {s t : Store α} {l : List ℕ} {values : List α}

/-- The nodes `l` are all the live ones, in the order in which the pointers visit them, and
hold the values. -/
structure Represents (s : Store α) (l : List ℕ) (values : List α) : Prop where
  visits : s.heap.Visits s.queue.head l
  nodup : l.Nodup
  live : ∀ a, a ∈ s.heap.live ↔ a ∈ l
  tail : s.queue.tail = l.getLast?
  data : l.map (fun a => (s.heap.nodes a).data) = values

theorem represents_init (nodes : ℕ → Node α) (queue : LinkedQueue) :
    Represents (queueInit ⟨⟨∅, nodes⟩, queue⟩) [] [] :=
  ⟨.null, List.nodup_nil, by simp [queueInit], rfl, rfl⟩

namespace Represents

theorem head_eq_none (h : Represents s l values) : s.queue.head = none ↔ l = [] :=
  h.visits.null_iff

theorem tail_eq_none (h : Represents s l values) : s.queue.tail = none ↔ l = [] := by
  rw [h.tail, List.getLast?_eq_none_iff]

theorem values_eq_nil (h : Represents s l values) : values = [] ↔ l = [] := by
  rw [← h.data, List.map_eq_nil_iff]

theorem isEmpty_eq (h : Represents s l values) : queueIsEmpty s = values.isEmpty := by
  rw [queueIsEmpty, Bool.eq_iff_iff, Option.isNone_iff_eq_none, List.isEmpty_iff, h.head_eq_none,
    h.values_eq_nil]

theorem notMem (h : Represents s l values) {a : ℕ} (ha : a ∉ s.heap.live) : a ∉ l :=
  fun hl => ha ((h.live a).mpr hl)

theorem enqueue_nil [Zero α] (h : Represents s [] values) {newNode : ℕ} (data : α) :
    ∃ t, queueEnqueue newNode data s = .ok t ∧ Represents t [newNode] [data] := by
  have htail : s.queue.tail = none := h.tail_eq_none.mpr rfl
  refine ⟨⟨s.heap.allocate newNode ⟨data, none⟩, ⟨some newNode, some newNode⟩⟩, ?_, ?_⟩
  · simp only [queueEnqueue, NodeHeap.read_allocate, NodeHeap.write_allocate, htail, bind,
      Except.bind]
    rfl
  · refine ⟨.node (Finset.mem_insert_self _ _) ?_, List.nodup_singleton _, fun a => ?_, rfl, ?_⟩
    · simp only [NodeHeap.allocate, Function.update_self]
      exact .null
    · rw [NodeHeap.allocate, Finset.mem_insert, h.live, List.mem_singleton]
      simp
    · simp only [NodeHeap.allocate, List.map_singleton, Function.update_self]

theorem enqueue_concat [Zero α] {b : ℕ} (h : Represents s (l ++ [b]) values) {newNode : ℕ}
    (hnew : newNode ∉ s.heap.live) (data : α) : ∃ t, queueEnqueue newNode data s = .ok t ∧
      Represents t (l ++ [b] ++ [newNode]) (values ++ [data]) := by
  have hnl := h.notMem hnew
  have htail : s.queue.tail = some b := by rw [h.tail, List.getLast?_concat]
  have hb : b ∈ s.heap.live := (h.live b).mpr (by simp)
  have hne : b ≠ newNode := fun he => hnew (he ▸ hb)
  have hbl : b ∉ l := fun hl => (List.nodup_append.mp h.nodup).2.2 b hl b (by simp) rfl
  set nodes : ℕ → Node α := Function.update
    (Function.update s.heap.nodes newNode ⟨data, none⟩) b
    ⟨(s.heap.nodes b).data, some newNode⟩ with hnodes
  have hread : (s.heap.allocate newNode ⟨data, none⟩).read (some b) = .ok (s.heap.nodes b) := by
    rw [NodeHeap.read_live (Finset.mem_insert_of_mem hb)]
    simp only [NodeHeap.allocate, Function.update_of_ne hne]
  have hwrite : (s.heap.allocate newNode ⟨data, none⟩).write (some b)
      ⟨(s.heap.nodes b).data, some newNode⟩ = .ok ⟨insert newNode s.heap.live, nodes⟩ :=
    NodeHeap.write_live (Finset.mem_insert_of_mem hb) _
  have hlive : ∀ a, a ∈ insert newNode s.heap.live ↔ a ∈ l ++ [b] ++ [newNode] := by
    intro a
    rw [Finset.mem_insert, List.mem_append, List.mem_singleton, h.live, or_comm]
  have hlast : nodes newNode = ⟨data, none⟩ := by
    rw [hnodes, Function.update_of_ne hne.symm, Function.update_self]
  have hnode : nodes b = ⟨(s.heap.nodes b).data, some newNode⟩ := by
    rw [hnodes, Function.update_self]
  -- the nodes before the last keep their links
  have hold : ∀ a ∈ l, nodes a = s.heap.nodes a := by
    intro a ha
    have hab : a ≠ b := fun he => hbl (he ▸ ha)
    have han : a ≠ newNode := fun he => hnl (he ▸ List.mem_append_left _ ha)
    rw [hnodes, Function.update_of_ne hab, Function.update_of_ne han]
  refine ⟨⟨⟨insert newNode s.heap.live, nodes⟩, ⟨s.queue.head, some newNode⟩⟩, ?_, ?_⟩
  · simp only [queueEnqueue, NodeHeap.read_allocate, NodeHeap.write_allocate, htail, hread, hwrite,
      bind, Except.bind]
    rfl
  · refine ⟨?_, ?_, hlive, by rw [List.getLast?_concat], ?_⟩
    · refine h.visits.concat (fun c hc => ?_) hold (congrArg Node.next hnode) ?_
        (congrArg Node.next hlast)
      · exact (hlive c).mpr (List.mem_append_left _ hc)
      · exact (hlive newNode).mpr (by simp)
    · rw [List.nodup_append]
      refine ⟨h.nodup, List.nodup_singleton _, fun a ha c hc => ?_⟩
      rintro rfl
      exact hnl (List.mem_singleton.mp hc ▸ ha)
    · have hmap : l.map (fun a => (nodes a).data) = l.map fun a => (s.heap.nodes a).data :=
        List.map_congr_left fun a ha => by rw [hold a ha]
      rw [← h.data]
      simp only [List.map_append, List.map_singleton, hmap, hnode, hlast]

theorem enqueue [Zero α] (h : Represents s l values) {newNode : ℕ} (hnew : newNode ∉ s.heap.live)
    (data : α) : ∃ t, queueEnqueue newNode data s = .ok t ∧
      Represents t (l ++ [newNode]) (values ++ [data]) := by
  rcases List.eq_nil_or_concat' l with rfl | ⟨l, b, rfl⟩
  · rw [h.values_eq_nil.mpr rfl]
    exact h.enqueue_nil data
  · exact h.enqueue_concat hnew data

theorem removeFirst {a : ℕ} {data : α} (h : Represents s (a :: l) (data :: values)) :
    s.heap.read s.queue.head = .ok ⟨data, (s.heap.nodes a).next⟩ ∧
      ∃ t, queueRemoveFirstUnsafe s = .ok t ∧ Represents t l values := by
  obtain ⟨hvisits, hnodup, hlive, htail, hdata⟩ := h
  obtain ⟨hal, hnodup⟩ := List.nodup_cons.mp hnodup
  obtain ⟨hfirst, hrest⟩ := List.cons.inj hdata
  generalize hhead : s.queue.head = head at hvisits
  cases hvisits with
  | node ha hvisits =>
    have hread : s.heap.read (some a) = .ok ⟨data, (s.heap.nodes a).next⟩ := by
      rw [NodeHeap.read_live ha, ← hfirst]
    refine ⟨hread, ⟨{ s.heap with live := s.heap.live.erase a }, ⟨(s.heap.nodes a).next,
      if (s.heap.nodes a).next = none then none else s.queue.tail⟩⟩, ?_, ?_⟩
    · simp only [queueRemoveFirstUnsafe, hhead, hread, NodeHeap.free_live ha, bind, Except.bind]
      rfl
    · have hin : ∀ b, b ∈ s.heap.live.erase a ↔ b ∈ l := by
        intro b
        rw [Finset.mem_erase, hlive, List.mem_cons]
        constructor
        · rintro ⟨hne, rfl | hb⟩
          · exact absurd rfl hne
          · exact hb
        · exact fun hb => ⟨fun he => hal (he ▸ hb), Or.inr hb⟩
      refine ⟨hvisits.congr (fun b hb => (hin b).mpr hb) fun _ _ => rfl, hnodup, hin, ?_, hrest⟩
      cases l with
      | nil => exact if_pos (hvisits.null_iff.mpr rfl)
      | cons b l =>
        have hnext : (s.heap.nodes a).next ≠ none := fun he =>
          absurd (hvisits.null_iff.mp he) (List.cons_ne_nil b l)
        simp only [if_neg hnext]
        rw [htail, List.getLast?_cons_cons]

theorem dequeue_nil (h : Represents s [] []) (wanted : Bool) :
    queueDequeue wanted s = .ok (s, .failure, none) := by
  rw [queueDequeue, h.isEmpty_eq]
  rfl

theorem dequeue_cons {data : α} (h : Represents s l (data :: values)) (wanted : Bool) :
    ∃ t l', queueDequeue wanted s = .ok (t, .success, if wanted then some data else none) ∧
      Represents t l' values := by
  cases l with
  | nil => exact absurd (h.values_eq_nil.mpr rfl) (List.cons_ne_nil _ _)
  | cons a l =>
    obtain ⟨hread, t, ht, hrep⟩ := h.removeFirst
    refine ⟨t, l, ?_, hrep⟩
    rw [queueDequeue, h.isEmpty_eq]
    simp only [List.isEmpty_cons, Bool.false_eq_true, if_false, hread, ht, bind, Except.bind]
    rfl

theorem clear (h : Represents s l values) :
    ∃ t, queueClear s = .ok t ∧ Represents t [] ([] : List α) := by
  induction l generalizing s values with
  | nil =>
    obtain rfl := h.values_eq_nil.mpr rfl
    refine ⟨s, ?_, h⟩
    rw [queueClear, h.isEmpty_eq]
    rfl
  | cons a l ih =>
    cases values with
    | nil => exact absurd (h.values_eq_nil.mp rfl) (List.cons_ne_nil _ _)
    | cons data values =>
      obtain ⟨-, s', hs', hrep⟩ := h.removeFirst
      obtain ⟨t, ht, hempty⟩ := ih hrep
      refine ⟨t, ?_, hempty⟩
      rw [queueClear_eq h.isEmpty_eq hs', ht]

theorem exec [Zero α] (h : Represents s l values) {op : QueueOp α} (hfresh : op.Fresh s) :
    ∃ t l', op.exec s = .ok (t, (op.fifo values).2) ∧ Represents t l' (op.fifo values).1 := by
  cases op with
  | enqueue data newNode =>
    obtain ⟨t, ht, hrep⟩ := h.enqueue hfresh data
    exact ⟨t, _, by rw [QueueOp.exec, ht]; rfl, hrep⟩
  | dequeue wanted =>
    cases values with
    | nil =>
      obtain rfl := h.values_eq_nil.mp rfl
      exact ⟨s, [], by rw [QueueOp.exec, h.dequeue_nil]; rfl, h⟩
    | cons data values =>
      obtain ⟨t, l', ht, hrep⟩ := h.dequeue_cons wanted
      exact ⟨t, l', by rw [QueueOp.exec, ht]; rfl, hrep⟩
  | clear =>
    obtain ⟨t, ht, hrep⟩ := h.clear
    exact ⟨t, [], by rw [QueueOp.exec, ht]; rfl, hrep⟩
  | isEmpty => exact ⟨s, l, by rw [QueueOp.exec, h.isEmpty_eq]; rfl, h⟩

end Represents

theorem represents_run [Zero α] {events : List (QueueOp α × QueueResult α)}
    (h : QueueRun events s) : ∃ l, Represents s l (fifo (events.map Prod.fst)).1 ∧
      events.map Prod.snd = (fifo (events.map Prod.fst)).2 := by
  induction h with
  | init nodes queue => exact ⟨[], represents_init nodes queue, rfl⟩
  | @step events s t op result _ hfresh hexec ih =>
    obtain ⟨l, hrep, hresults⟩ := ih
    obtain ⟨t', l', ht', hrep'⟩ := hrep.exec hfresh
    obtain ⟨rfl, rfl⟩ := Prod.mk.inj (Except.ok.inj (ht'.symm.trans hexec))
    refine ⟨l', ?_, ?_⟩
    · rwa [List.map_append, List.map_singleton, fifo_concat]
    · rw [List.map_append, List.map_append, List.map_singleton, List.map_singleton, fifo_concat,
        hresults]

/-- What every run of the linked queue keeps: its pointers are null together, the links visit
each live node once and end at `tail`, the values and all results are those of the list, no
operation fails to return, `queue_dequeue` fails and changes nothing exactly on the empty
list, and `queue_clear` leaves the empty queue. -/
theorem linked_queue_fifo [Zero α] (events : List (QueueOp α × QueueResult α)) (s : Store α)
    (h : QueueRun events s) :
    (s.queue.head = none ↔ s.queue.tail = none) ∧
    (∃ l, s.heap.Visits s.queue.head l ∧ l.Nodup ∧ (∀ a, a ∈ s.heap.live ↔ a ∈ l) ∧
      s.queue.tail = l.getLast? ∧
      (∀ a, s.queue.tail = some a → (s.heap.nodes a).next = none) ∧
      l.map (fun a => (s.heap.nodes a).data) = (fifo (events.map Prod.fst)).1) ∧
    events.map Prod.snd = (fifo (events.map Prod.fst)).2 ∧
    (∀ op : QueueOp α, op.Fresh s →
      ∃ t, op.exec s = .ok (t, (op.fifo (fifo (events.map Prod.fst)).1).2)) ∧
    (∀ wanted, (fifo (events.map Prod.fst)).1 = [] ↔
      queueDequeue wanted s = .ok (s, .failure, none)) ∧
    ∃ t, queueClear s = .ok t ∧ t.queue = ⟨none, none⟩ ∧ t.heap.live = ∅ := by
  obtain ⟨l, hrep, hresults⟩ := represents_run h
  refine ⟨?_, ⟨l, hrep.visits, hrep.nodup, hrep.live, hrep.tail, ?_, hrep.data⟩, hresults, ?_, ?_,
    ?_⟩
  · rw [hrep.head_eq_none, hrep.tail_eq_none]
  · intro a ha
    exact hrep.visits.next_last (hrep.tail.symm.trans ha)
  · intro op hfresh
    obtain ⟨t, -, ht, -⟩ := hrep.exec hfresh
    exact ⟨t, ht⟩
  · intro wanted
    constructor
    · intro hnil
      rw [hnil] at hrep
      obtain rfl := hrep.values_eq_nil.mp rfl
      exact hrep.dequeue_nil wanted
    · intro hfail
      cases hvalues : (fifo (events.map Prod.fst)).1 with
      | nil => rfl
      | cons data values =>
        rw [hvalues] at hrep
        obtain ⟨t, -, ht, -⟩ := hrep.dequeue_cons wanted
        cases ht.symm.trans hfail
  · obtain ⟨t, ht, hempty⟩ := hrep.clear
    refine ⟨t, ht, ?_, Finset.eq_empty_of_forall_notMem fun a ha => ?_⟩
    · obtain ⟨heap, head, tail⟩ := t
      have hhead : head = none := hempty.head_eq_none.mpr rfl
      have htail : tail = none := hempty.tail_eq_none.mpr rfl
      rw [hhead, htail]
    · exact absurd ((hempty.live a).mp ha) List.not_mem_nil

/-- Two values that leave again, one call too many, and a value at an address that is free. -/
def refilling : List (QueueOp ℕ × QueueResult ℕ) :=
  [(.enqueue 7 4, .error .success), (.enqueue 8 5, .error .success),
    (.dequeue true, .dequeued .success (some 7)), (.dequeue true, .dequeued .success (some 8)),
    (.dequeue true, .dequeued .failure none), (.enqueue 9 4, .error .success)]

theorem exists_refilling : ∃ s, QueueRun refilling s := by
  refine ⟨_, .step (.step (.step (.step (.step (.step (.init (fun _ => ⟨0, none⟩) ⟨none, none⟩)
    ?_ rfl) ?_ rfl) ?_ rfl) ?_ rfl) ?_ rfl) ?_ rfl⟩
  · exact Finset.notMem_empty 4
  · exact fun h => absurd (List.mem_singleton.mp h) (by decide)
  · trivial
  · trivial
  · trivial
  · exact Finset.notMem_empty 4

theorem linked_queue_fifo_refilling : ∃ s, QueueRun refilling s ∧
    (s.queue.head = none ↔ s.queue.tail = none) ∧
    (∃ l, s.heap.Visits s.queue.head l ∧ l.map (fun a => (s.heap.nodes a).data) = [9]) ∧
    ∃ t, queueClear s = .ok t ∧ t.queue = ⟨none, none⟩ ∧ t.heap.live = ∅ := by
  obtain ⟨s, hs⟩ := exists_refilling
  obtain ⟨hnull, ⟨l, hvisits, -, -, -, -, hdata⟩, -, -, -, hclear⟩ := linked_queue_fifo _ s hs
  exact ⟨s, hs, hnull, ⟨l, hvisits, hdata⟩, hclear⟩

end Represents

end Concurrente.ProdConsUnbound
