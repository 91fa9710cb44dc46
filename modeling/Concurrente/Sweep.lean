import Mathlib.Order.Bounds.Basic
import Mathlib.Data.Set.Function
import Mathlib.Logic.Function.Iterate
import Mathlib.Tactic

/-!
# Sweeps over two buffers

A scheme computes the next state of a field of cells from the current one: the
inner cells follow a rule and all others keep their value.  An implementation
keeps two buffers, reads one, writes the other, and swaps them after each state.
The order in which the inner cells are written does not matter.
-/

namespace Concurrente

/-- A rule for the inner cells of a domain, and when two values count as equal. -/
structure Scheme (ι α : Type*) where
  dom : Set ι
  inner : Set ι
  rule : (ι → α) → ι → α
  close : α → α → Prop
  inner_subset : inner ⊆ dom
  rule_congr : ∀ {T T' : ι → α}, Set.EqOn T T' dom → ∀ i ∈ inner, rule T i = rule T' i

namespace Scheme

variable {ι α : Type*} (S : Scheme ι α)

open Classical in
noncomputable def next (T : ι → α) : ι → α := fun i => if i ∈ S.inner then S.rule T i else T i

/-- State `j`, from the initial state `T`. -/
noncomputable def state (T : ι → α) (j : ℕ) : ι → α := S.next^[j] T

/-- No inner cell changes noticeably from state `j` to state `j + 1`. -/
def Settled (T : ι → α) (j : ℕ) : Prop :=
    ∀ i ∈ S.inner, S.close (S.state T j i) (S.state T (j + 1) i)

/-- State `k` is the first that is close to its predecessor. -/
def Equilibrium (T : ι → α) (k : ℕ) : Prop := IsLeast {k | 1 ≤ k ∧ S.Settled T (k - 1)} k

variable {S}

theorem next_of_mem {T : ι → α} {i : ι} (h : i ∈ S.inner) : S.next T i = S.rule T i := by
  simp [next, h]

theorem next_of_notMem {T : ι → α} {i : ι} (h : i ∉ S.inner) : S.next T i = T i := by
  simp [next, h]

@[simp] theorem state_zero (T : ι → α) : S.state T 0 = T := rfl

theorem state_succ (T : ι → α) (j : ℕ) : S.state T (j + 1) = S.next (S.state T j) :=
  Function.iterate_succ_apply' _ _ _

theorem state_border (T : ι → α) (j : ℕ) : Set.EqOn (S.state T j) T (S.dom \ S.inner) := by
  induction j with
  | zero => exact fun _ _ => rfl
  | succ j ih =>
    intro i hi
    rw [state_succ, next_of_notMem hi.2, ih hi]

theorem state_mono [Preorder α] {T T' : ι → α}
    (hm : ∀ T T' : ι → α, (∀ i ∈ S.dom, T i ≤ T' i) → ∀ i ∈ S.inner, S.rule T i ≤ S.rule T' i)
    (h : ∀ i ∈ S.dom, T i ≤ T' i) (j : ℕ) : ∀ i ∈ S.dom, S.state T j i ≤ S.state T' j i := by
  induction j with
  | zero => exact h
  | succ j ih =>
    intro i hi
    rw [state_succ, state_succ]
    by_cases hin : i ∈ S.inner
    · rw [next_of_mem hin, next_of_mem hin]
      exact hm _ _ ih i hin
    · rw [next_of_notMem hin, next_of_notMem hin]
      exact ih i hi

theorem state_const {a : α} (h : ∀ i ∈ S.inner, S.rule (fun _ => a) i = a) (j : ℕ) :
    S.state (fun _ => a) j = fun _ => a := by
  induction j with
  | zero => rfl
  | succ j ih =>
    rw [state_succ, ih]
    funext i
    by_cases hin : i ∈ S.inner
    · rw [next_of_mem hin, h i hin]
    · rw [next_of_notMem hin]

theorem equilibrium_succ {T : ι → α} {j : ℕ} (hj : S.Settled T j) (hn : ∀ i < j, ¬ S.Settled T i) :
    S.Equilibrium T (j + 1) := by
  refine ⟨⟨by omega, hj⟩, ?_⟩
  rintro k ⟨hk, hs⟩
  by_contra hlt
  exact hn (k - 1) (by omega) hs

theorem Equilibrium.unique {T : ι → α} {k k' : ℕ} (h : S.Equilibrium T k)
    (h' : S.Equilibrium T k') : k = k' := IsLeast.unique h h'

theorem exists_equilibrium {T : ι → α} {j : ℕ} (h : S.Settled T j) : ∃ k, S.Equilibrium T k := by
  classical
  have hex : ∃ j, S.Settled T j := ⟨j, h⟩
  exact ⟨Nat.find hex + 1, equilibrium_succ (Nat.find_spec hex) fun i hi => Nat.find_min hex hi⟩

theorem equilibrium_of_inner_empty (h : S.inner = ∅) (T : ι → α) : S.Equilibrium T 1 := by
  apply equilibrium_succ
  · intro i hi
    simp [h] at hi
  · intro i hi
    omega

/-- `back` holds state `j`; `front` has the border, and state `j + 1` at the cells in `done`. -/
structure Sweeping (S : Scheme ι α) (T : ι → α) (j : ℕ) (done : Set ι) (front back : ι → α) :
    Prop where
  back_eq : Set.EqOn back (S.state T j) S.dom
  border : Set.EqOn front T (S.dom \ S.inner)
  written : Set.EqOn front (S.state T (j + 1)) (S.inner ∩ done)

variable {T front front' back back' : ι → α} {j : ℕ} {done : Set ι}

theorem Sweeping.begin (hb : Set.EqOn back (S.state T j) S.dom)
    (hf : Set.EqOn front T (S.dom \ S.inner)) : S.Sweeping T j ∅ front back :=
  ⟨hb, hf, fun _ hi => absurd hi.2 (Set.notMem_empty _)⟩

theorem Sweeping.congr (h : S.Sweeping T j done front back)
    (hf : Set.EqOn front' front S.dom) (hb : Set.EqOn back' back S.dom) :
    S.Sweeping T j done front' back' :=
  ⟨hb.trans h.back_eq, fun _ hi => (hf hi.1).trans (h.border hi),
    fun _ hi => (hf (S.inner_subset hi.1)).trans (h.written hi)⟩

/-- Writing a cell by the rule, whichever cells were written before. -/
theorem Sweeping.write [DecidableEq ι] (h : S.Sweeping T j done front back) {i : ι}
    (hi : i ∈ S.inner) :
    S.Sweeping T j (insert i done) (Function.update front i (S.rule back i)) back := by
  refine ⟨h.back_eq, ?_, ?_⟩
  · intro k hk
    have hki : k ≠ i := fun he => hk.2 (he ▸ hi)
    rw [Function.update_of_ne hki, h.border hk]
  · rintro k ⟨hk, hd⟩
    by_cases hki : k = i
    · subst hki
      rw [Function.update_self, state_succ, next_of_mem hk, S.rule_congr h.back_eq k hk]
    · rw [Function.update_of_ne hki]
      exact h.written ⟨hk, hd.resolve_left hki⟩

theorem Sweeping.front_eq (h : S.Sweeping T j done front back) (hd : S.inner ⊆ done) :
    Set.EqOn front (S.state T (j + 1)) S.dom := by
  intro i hi
  by_cases hin : i ∈ S.inner
  · exact h.written ⟨hin, hd hin⟩
  · rw [h.border ⟨hi, hin⟩, state_border T (j + 1) ⟨hi, hin⟩]

theorem Sweeping.back_border (h : S.Sweeping T j done front back) :
    Set.EqOn back T (S.dom \ S.inner) :=
  fun _ hi => (h.back_eq hi.1).trans (state_border T j hi)

theorem Sweeping.swap (h : S.Sweeping T j done front back) (hd : S.inner ⊆ done) :
    S.Sweeping T (j + 1) ∅ back front :=
  .begin (h.front_eq hd) h.back_border

theorem Sweeping.values (h : S.Sweeping T j done front back) {i : ι} (hi : i ∈ S.inner)
    (hd : i ∈ done) : front i = S.state T (j + 1) i ∧ back i = S.state T j i :=
  ⟨h.written ⟨hi, hd⟩, h.back_eq (S.inner_subset hi)⟩

theorem Sweeping.of_inner (h : S.Sweeping T j done front back) {done' : Set ι}
    (hd : ∀ i ∈ S.inner, i ∈ done' → i ∈ done) : S.Sweeping T j done' front back :=
  ⟨h.back_eq, h.border, fun i hi => h.written ⟨hi.1, hd i hi.1 hi.2⟩⟩

theorem Sweeping.mono (h : S.Sweeping T j done front back) {done' : Set ι} (hd : done' ⊆ done) :
    S.Sweeping T j done' front back :=
  h.of_inner fun _ _ hi => hd hi

end Scheme

/-- A representation `M` of the two buffers: `write` computes a cell of the front buffer
from the back buffer.  `ok` is what the representation needs to keep. -/
structure Buffers {ι α : Type*} [DecidableEq ι] (S : Scheme ι α) (M : Type*) where
  ok : M → Prop
  front : M → ι → α
  back : M → ι → α
  write : M → ι → M
  ok_write : ∀ {m i}, ok m → i ∈ S.inner → ok (write m i)
  back_write : ∀ {m i}, ok m → i ∈ S.inner → Set.EqOn (back (write m i)) (back m) S.dom
  front_write : ∀ {m i}, ok m → i ∈ S.inner →
    Set.EqOn (front (write m i)) (Function.update (front m) i (S.rule (back m) i)) S.dom

namespace Buffers

variable {ι α M : Type*} [DecidableEq ι] {S : Scheme ι α} (B : Buffers S M)

/-- The buffers in the middle of a sweep. -/
def Sweeping (T : ι → α) (j : ℕ) (done : Set ι) (m : M) : Prop :=
  B.ok m ∧ S.Sweeping T j done (B.front m) (B.back m)

/-- Writes a cell and passes the new and the old value on to an accumulator. -/
def visit {β : Type*} (g : β → α → α → β) (x : M × β) (i : ι) : M × β :=
  let m := B.write x.1 i
  (m, g x.2 (B.front m i) (B.back m i))

variable {B} {T : ι → α} {j : ℕ} {done : Set ι} {m : M}

theorem Sweeping.write (h : B.Sweeping T j done m) {i : ι} (hi : i ∈ S.inner) :
    B.Sweeping T j (insert i done) (B.write m i) :=
  ⟨B.ok_write h.1 hi, (h.2.write hi).congr (B.front_write h.1 hi) (B.back_write h.1 hi)⟩

/-- A run over any list of inner cells: the cells are written, and the accumulator sees
the values of the two states, in the order of the list. -/
theorem Sweeping.visits {β : Type*} (g : β → α → α → β) (cells : List ι) (b : β)
    (hc : ∀ i ∈ cells, i ∈ S.inner) (h : B.Sweeping T j done m) :
    B.Sweeping T j (done ∪ {i | i ∈ cells}) (cells.foldl (B.visit g) (m, b)).1 ∧
      (cells.foldl (B.visit g) (m, b)).2 =
        cells.foldl (fun b i => g b (S.state T (j + 1) i) (S.state T j i)) b := by
  -- induction on the cells that are left; the values of a written cell are final
  induction cells generalizing done m b with
  | nil => simpa using h
  | cons i cells ih =>
    have hi := hc i List.mem_cons_self
    have hw := h.write hi
    obtain ⟨hf, hb⟩ := hw.2.values hi (Set.mem_insert _ _)
    obtain ⟨h1, h2⟩ := ih (g b (B.front (B.write m i) i) (B.back (B.write m i) i))
      (fun k hk => hc k (List.mem_cons_of_mem _ hk)) hw
    rw [hf, hb] at h1 h2
    simp only [List.foldl_cons, visit, hf, hb]
    refine ⟨?_, h2⟩
    convert h1 using 1
    ext k
    constructor
    · rintro (hk | hk)
      · exact Or.inl (Or.inr hk)
      · obtain rfl | hk := List.mem_cons.mp hk
        · exact Or.inl (Or.inl rfl)
        · exact Or.inr hk
    · rintro ((rfl | hk) | hk)
      · exact Or.inr List.mem_cons_self
      · exact Or.inl hk
      · exact Or.inr (List.mem_cons_of_mem _ hk)

end Buffers

end Concurrente
