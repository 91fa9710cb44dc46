import Mathlib.Data.Fintype.Basic
import Mathlib.Logic.Function.Basic
import Mathlib.Tactic

/-!
# Tasks on files

Every task reads one file and writes one file, whose place depends on the result of the task.
The tasks are performed one after another.  When the order does not matter: two tasks that
write to one place write the same, and a task whose file is written by another does the
same with what was written.
-/

namespace Concurrente

/-- What a task writes, with its result, depends on the file that it reads. -/
structure FileTask (κ φ ρ : Type*) where
  input : κ
  output : ρ → κ
  run : φ → Option (φ × ρ)

/-- The files and the results of the tasks so far. -/
@[ext] structure Store (ι κ φ ρ : Type*) where
  file : κ → Option φ
  result : ι → Option ρ

namespace FileTask

variable {ι κ φ ρ : Type*} [DecidableEq ι] [DecidableEq κ]

section Perform

variable (task : ι → FileTask κ φ ρ)

/-- A task that fails performs nothing. -/
def perform (s : Store ι κ φ ρ) (i : ι) : Option (Store ι κ φ ρ) :=
  ((s.file (task i).input).bind (task i).run).map fun x =>
    ⟨Function.update s.file ((task i).output x.2) (some x.1),
      Function.update s.result i (some x.2)⟩

def performAll (s : Store ι κ φ ρ) (order : List ι) : Option (Store ι κ φ ρ) :=
  order.foldlM (perform task) s

def begin (file : κ → Option φ) : Store ι κ φ ρ := ⟨file, fun _ => none⟩

/-- The contents and the results of the tasks, each performed alone. -/
structure Separate (file : κ → Option φ) (content : ι → φ) (result : ι → ρ) : Prop where
  alone : ∀ i, (file (task i).input).bind (task i).run = some (content i, result i)
  outputs : ∀ i j, (task i).output (result i) = (task j).output (result j) →
    content i = content j
  inputs : ∀ i j, (task i).output (result i) = (task j).input →
    (task j).run (content i) = some (content j, result j)

end Perform

variable {task : ι → FileTask κ φ ρ} {s t : Store ι κ φ ρ} {file : κ → Option φ} {i : ι}

theorem performAll_cons (s : Store ι κ φ ρ) (i : ι) (order : List ι) :
    performAll task s (i :: order) = (perform task s i).bind fun r => performAll task r order :=
  List.foldlM_cons

theorem perform_some (h : perform task s i = some t) : ∃ x,
    (s.file (task i).input).bind (task i).run = some x ∧
      t.file = Function.update s.file ((task i).output x.2) (some x.1) ∧
      t.result = Function.update s.result i (some x.2) := by
  obtain ⟨x, hx, rfl⟩ := Option.map_eq_some_iff.mp h
  exact ⟨x, hx, rfl, rfl⟩

section Separate

variable {content : ι → φ} {result : ι → ρ} {done order : List ι}

/-- After the tasks in `done`: their files hold their contents, and all other files are as
before. -/
structure Done (task : ι → FileTask κ φ ρ) (file : κ → Option φ) (content : ι → φ) (result : ι → ρ)
    (done : List ι) (s : Store ι κ φ ρ) : Prop where
  written : ∀ i ∈ done, s.file ((task i).output (result i)) = some (content i)
  kept : ∀ x, (∀ i ∈ done, (task i).output (result i) ≠ x) → s.file x = file x
  results : ∀ i, s.result i = if i ∈ done then some (result i) else none

theorem Done.step (h : Separate task file content result)
    (hs : Done task file content result done s) (i : ι) :
    ∃ t, perform task s i = some t ∧ Done task file content result (i :: done) t := by
  have hrun : (s.file (task i).input).bind (task i).run = some (content i, result i) := by
    by_cases hex : ∃ j ∈ done, (task j).output (result j) = (task i).input
    · obtain ⟨j, hj, hji⟩ := hex
      rw [← hji, hs.written j hj]
      exact h.inputs j i hji
    · rw [hs.kept _ fun j hj hji => hex ⟨j, hj, hji⟩]
      exact h.alone i
  refine ⟨⟨Function.update s.file ((task i).output (result i)) (some (content i)),
    Function.update s.result i (some (result i))⟩, by rw [perform, hrun]; rfl, ?_, ?_, ?_⟩
  · intro j hj
    dsimp only
    by_cases hout : (task j).output (result j) = (task i).output (result i)
    · rw [h.outputs j i hout, hout, Function.update_self]
    · rw [Function.update_of_ne hout]
      obtain rfl | hj := List.mem_cons.mp hj
      · exact absurd rfl hout
      · exact hs.written j hj
  · intro x hx
    dsimp only
    rw [Function.update_of_ne (Ne.symm (hx i List.mem_cons_self))]
    exact hs.kept x fun j hj => hx j (List.mem_cons_of_mem i hj)
  · intro j
    dsimp only
    by_cases hji : j = i
    · subst hji
      rw [Function.update_self, if_pos List.mem_cons_self]
    · rw [Function.update_of_ne hji, hs.results j]
      simp only [List.mem_cons, hji, false_or]

theorem Done.run (h : Separate task file content result)
    (hs : Done task file content result done s) (order : List ι) :
    ∃ t, performAll task s order = some t ∧
      Done task file content result (order.reverse ++ done) t := by
  -- induction on the tasks that are left; `Done` has those that were performed
  induction order generalizing s done with
  | nil => exact ⟨s, rfl, hs⟩
  | cons i order ih =>
    obtain ⟨r, hr, hr'⟩ := hs.step h i
    obtain ⟨t, ht, ht'⟩ := ih hr'
    refine ⟨t, ?_, ?_⟩
    · rw [performAll_cons, hr, Option.bind_some, ht]
    · rwa [List.reverse_cons, List.append_assoc]

theorem Done.input (h : Separate task file content result)
    (hs : Done task file content result done s) (i : ι) :
    (s.file (task i).input).bind (task i).run = some (content i, result i) := by
  obtain ⟨t, ht, ht'⟩ := hs.step h i
  obtain ⟨x, hx, hfile, hresult⟩ := perform_some ht
  have hr : x.2 = result i := by
    have heq := (congrFun hresult i).symm.trans (ht'.results i)
    rw [Function.update_self, if_pos List.mem_cons_self] at heq
    exact Option.some.inj heq
  have hc : x.1 = content i := by
    have heq := (congrFun hfile _).symm.trans (ht'.written i List.mem_cons_self)
    rw [hr, Function.update_self] at heq
    exact Option.some.inj heq
  rw [hx, ← hr, ← hc]

theorem Done.write (h : Separate task file content result)
    (hs : Done task file content result done s) (i : ι) :
    Done task file content result (i :: done)
      ⟨Function.update s.file ((task i).output (result i)) (some (content i)),
        Function.update s.result i (some (result i))⟩ := by
  obtain ⟨t, ht, ht'⟩ := hs.step h i
  rw [perform, hs.input h i] at ht
  rwa [← Option.some.inj ht] at ht'

omit [DecidableEq κ] in
theorem Done.unique {done' : List ι} (hs : Done task file content result done s)
    (ht : Done task file content result done' t) (hd : ∀ i, i ∈ done) (hd' : ∀ i, i ∈ done') :
    s = t := by
  refine Store.ext ?_ ?_
  · funext x
    by_cases hex : ∃ i, (task i).output (result i) = x
    · obtain ⟨i, rfl⟩ := hex
      rw [hs.written i (hd i), ht.written i (hd' i)]
    · rw [hs.kept x fun i _ hi => hex ⟨i, hi⟩, ht.kept x fun i _ hi => hex ⟨i, hi⟩]
  · funext i
    rw [hs.results, ht.results, if_pos (hd i), if_pos (hd' i)]

omit [DecidableEq κ] in
theorem done_begin : Done task file content result [] (begin file) where
  written _ hi := absurd hi List.not_mem_nil
  kept _ _ := rfl
  results _ := (if_neg List.not_mem_nil).symm

end Separate

section Orders

variable {m : ι} {l l' order : List ι}

end Orders

section Independent

variable [Fintype ι] {m : ι}

def Fresh (task : ι → FileTask κ φ ρ) : Prop :=
  ∀ i c x, (task i).run c = some x → (task i).output x.2 ≠ (task i).input

end Independent

end FileTask

end Concurrente
