import Mathlib.Data.Finset.Card
import Mathlib.Data.List.Nodup
import Mathlib.Logic.Function.Basic
import Mathlib.Tactic

/-!
# Linked nodes in memory

The live nodes of a heap and their contents.  Reading, writing or freeing a node that is
not live is a fault.  `Visits` says which nodes one meets from a pointer on until the
null pointer.
-/

namespace Concurrente

variable {α : Type}

inductive PointerFault where
  | null
  | dangling (address : ℕ)
  deriving DecidableEq

/-- A pointer is an address or null. -/
structure Node (α : Type) where
  data : α
  next : Option ℕ

structure NodeHeap (α : Type) where
  live : Finset ℕ
  nodes : ℕ → Node α

namespace NodeHeap

variable {h h' : NodeHeap α} {p : Option ℕ} {a b : ℕ} {l l' : List ℕ}

/-- The node at a pointer that may be dereferenced. -/
def deref (h : NodeHeap α) : Option ℕ → Except PointerFault ℕ
  | none => .error .null
  | some a => if a ∈ h.live then .ok a else .error (.dangling a)

def read (h : NodeHeap α) (p : Option ℕ) : Except PointerFault (Node α) := do
  let a ← h.deref p
  return h.nodes a

def write (h : NodeHeap α) (p : Option ℕ) (node : Node α) : Except PointerFault (NodeHeap α) := do
  let a ← h.deref p
  return { h with nodes := Function.update h.nodes a node }

def free (h : NodeHeap α) (p : Option ℕ) : Except PointerFault (NodeHeap α) := do
  let a ← h.deref p
  return { h with live := h.live.erase a }

/-- A new node at an address that the allocator chooses. -/
def allocate (h : NodeHeap α) (a : ℕ) (node : Node α) : NodeHeap α :=
  ⟨insert a h.live, Function.update h.nodes a node⟩

theorem deref_live (ha : a ∈ h.live) : h.deref (some a) = .ok a := if_pos ha

theorem read_live (ha : a ∈ h.live) : h.read (some a) = .ok (h.nodes a) := by
  rw [read, deref_live ha]
  rfl

theorem write_live (ha : a ∈ h.live) (node : Node α) :
    h.write (some a) node = .ok { h with nodes := Function.update h.nodes a node } := by
  rw [write, deref_live ha]
  rfl

theorem free_live (ha : a ∈ h.live) :
    h.free (some a) = .ok { h with live := h.live.erase a } := by
  rw [free, deref_live ha]
  rfl

theorem read_allocate (node : Node α) : (h.allocate a node).read (some a) = .ok node := by
  rw [read_live (Finset.mem_insert_self a h.live)]
  simp only [allocate, Function.update_self]

theorem write_allocate (node node' : Node α) :
    (h.allocate a node).write (some a) node' = .ok (h.allocate a node') := by
  rw [write_live (Finset.mem_insert_self a h.live)]
  simp only [allocate, Function.update_idem]

theorem card_free (hf : h.free p = .ok h') : h'.live.card < h.live.card := by
  cases p with
  | none => cases hf
  | some a =>
    by_cases ha : a ∈ h.live
    · rw [free_live ha] at hf
      cases hf
      exact Finset.card_erase_lt_of_mem ha
    · rw [free, deref, if_neg ha] at hf
      cases hf

/-- Following `next` from the pointer visits these nodes and then the null pointer. -/
inductive Visits (h : NodeHeap α) : Option ℕ → List ℕ → Prop
  | null : Visits h none []
  | node {a : ℕ} {l : List ℕ} (live : a ∈ h.live) (rest : Visits h (h.nodes a).next l) :
      Visits h (some a) (a :: l)

namespace Visits

theorem null_iff (hl : h.Visits p l) : p = none ↔ l = [] := by
  cases hl <;> simp

theorem next_last (hl : h.Visits p l) (ha : l.getLast? = some a) : (h.nodes a).next = none := by
  induction hl with
  | null => cases ha
  | @node b l _ hrest ih =>
    cases l with
    | nil =>
      cases ha
      exact hrest.null_iff.mpr rfl
    | cons c l => exact ih (by rwa [List.getLast?_cons_cons] at ha)

/-- What is visited depends only on the visited nodes. -/
theorem congr (hl : h.Visits p l) (hlive : ∀ a ∈ l, a ∈ h'.live)
    (hnodes : ∀ a ∈ l, h'.nodes a = h.nodes a) : h'.Visits p l := by
  induction hl with
  | null => exact .null
  | @node b l _ _ ih =>
    refine .node (hlive b List.mem_cons_self) ?_
    rw [hnodes b List.mem_cons_self]
    exact ih (fun a ha => hlive a (List.mem_cons_of_mem b ha))
      fun a ha => hnodes a (List.mem_cons_of_mem b ha)

theorem concat (hl : h.Visits p (l ++ [b])) (hlive : ∀ c ∈ l ++ [b], c ∈ h'.live)
    (hnodes : ∀ c ∈ l, h'.nodes c = h.nodes c) (hb : (h'.nodes b).next = some a)
    (ha : a ∈ h'.live) (hnull : (h'.nodes a).next = none) : h'.Visits p (l ++ [b] ++ [a]) := by
  induction l generalizing p with
  | nil =>
    cases hl with
    | node =>
      refine .node (hlive b List.mem_cons_self) ?_
      rw [hb]
      refine .node ha ?_
      rw [hnull]
      exact .null
  | cons c l ih =>
    cases hl with
    | node _ hrest =>
      refine .node (hlive c List.mem_cons_self) ?_
      rw [hnodes c List.mem_cons_self]
      exact ih hrest (fun d hd => hlive d (List.mem_cons_of_mem c hd))
        fun d hd => hnodes d (List.mem_cons_of_mem c hd)

end Visits

end NodeHeap

end Concurrente
