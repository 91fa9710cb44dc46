import Concurrente.Semaphores.Progress

/-!
# building_tasks

Ten builders, each in a thread of its own, who wait with semaphores for the tasks that theirs
depends on.  The design lets the interior painting wait for a permit of the exterior plumbing,
which gives two to three who wait.
-/

namespace Concurrente.BuildingTasks

open Semaphores

/-- The routines in the order of `do_concurrent_tasks`. -/
inductive Task where
  | walls
  | exteriorPlumbing
  | roof
  | exteriorPainting
  | interiorPlumbing
  | electricalInstallation
  | exteriorFinishes
  | interiorPainting
  | floors
  | interiorFinishes
  deriving DecidableEq

instance : Fintype Task where
  elems := {.walls, .exteriorPlumbing, .roof, .exteriorPainting, .interiorPlumbing,
    .electricalInstallation, .exteriorFinishes, .interiorPainting, .floors, .interiorFinishes}
  complete task := by cases task <;> decide

/-- The semaphores of `shared_data`. -/
inductive Ready where
  | walls
  | exteriorPlumbing
  | roof
  | exteriorPainting
  | interiorPlumbing
  | electricalInstallation
  | interiorPainting
  | floor
  deriving DecidableEq

instance : Fintype Ready where
  elems := {.walls, .exteriorPlumbing, .roof, .exteriorPainting, .interiorPlumbing,
    .electricalInstallation, .interiorPainting, .floor}
  complete ready := by cases ready <;> decide

inductive Report where
  | start
  | finish
  deriving DecidableEq

def Task.title : Task → String
  | walls => "1.2 walls"
  | exteriorPlumbing => "2.1 exterior plumbing"
  | roof => "2.3 roof"
  | exteriorPainting => "3.1 exterior painting"
  | interiorPlumbing => "3.2 interior plumbing"
  | electricalInstallation => "3.3 electrical installation"
  | exteriorFinishes => "4.1 exterior finishes"
  | interiorPainting => "4.3 interior painting"
  | floors => "5.3 floor"
  | interiorFinishes => "6.3 interior finishes"

/-- The line that `puts` writes. -/
def Task.message (task : Task) : Report → String
  | .start => task.title ++ " start"
  | .finish => task.title ++ " finish"

/-- A builder waits, reports, works and reports, and posts.  The duration of the work does not
matter for the order of the steps. -/
def builder (waits posts : List Ready) : List (Line Ready Report) :=
  waits.map .wait ++ [.statement .start, .statement .finish] ++ posts.map fun r => .signal r 1

def walls : List (Line Ready Report) := builder [] [.walls, .walls]

def exteriorPlumbing : List (Line Ready Report) :=
  builder [.walls] [.exteriorPlumbing, .exteriorPlumbing]

def roof : List (Line Ready Report) := builder [.walls] [.roof]

def exteriorPainting : List (Line Ready Report) := builder [.exteriorPlumbing] [.exteriorPainting]

def interiorPlumbing : List (Line Ready Report) := builder [.exteriorPlumbing] [.interiorPlumbing]

def electricalInstallation : List (Line Ready Report) := builder [.roof] [.electricalInstallation]

def exteriorFinishes : List (Line Ready Report) := builder [.exteriorPainting] []

def interiorPainting : List (Line Ready Report) :=
  builder [.interiorPlumbing, .electricalInstallation] [.interiorPainting]

def floors : List (Line Ready Report) := builder [.interiorPainting] [.floor]

def interiorFinishes : List (Line Ready Report) := builder [.floor] []

def Task.routine : Task → List (Line Ready Report)
  | walls => BuildingTasks.walls
  | exteriorPlumbing => BuildingTasks.exteriorPlumbing
  | roof => BuildingTasks.roof
  | exteriorPainting => BuildingTasks.exteriorPainting
  | interiorPlumbing => BuildingTasks.interiorPlumbing
  | electricalInstallation => BuildingTasks.electricalInstallation
  | exteriorFinishes => BuildingTasks.exteriorFinishes
  | interiorPainting => BuildingTasks.interiorPainting
  | floors => BuildingTasks.floors
  | interiorFinishes => BuildingTasks.interiorFinishes

def permits : Ready → ℕ := fun _ => 0

/-- `do_concurrent_tasks`. -/
def doConcurrentTasks : Script Task Ready Report := Script.once permits Task.routine

def stdout (s : State Task Ready Report) : List String := s.done.map fun x => x.1.message x.2

def Task.dependencies : Task → List Task
  | walls => []
  | exteriorPlumbing => [walls]
  | roof => [walls]
  | exteriorPainting => [exteriorPlumbing]
  | interiorPlumbing => [exteriorPlumbing]
  | electricalInstallation => [roof]
  | exteriorFinishes => [exteriorPainting]
  | interiorPainting => [interiorPlumbing, electricalInstallation]
  | floors => [interiorPainting]
  | interiorFinishes => [floors]

def Task.ready : Task → Ready
  | walls => .walls
  | exteriorPlumbing => .exteriorPlumbing
  | roof => .roof
  | exteriorPainting => .exteriorPainting
  | interiorPlumbing => .interiorPlumbing
  | electricalInstallation => .electricalInstallation
  | interiorPainting => .interiorPainting
  | floors => .floor
  | exteriorFinishes | interiorFinishes => .floor

theorem waits_for_dependency : ∀ task, ∀ d ∈ Task.dependencies task,
    Line.After (.wait d.ready) (· = .statement .start) task.routine := by
  decide

theorem signals_after_finish : ∀ task d, d ∈ Task.dependencies task →
    Line.After (.statement .finish) (Line.Signals d.ready) d.routine ∧
      ∀ t, t ≠ d → ∀ l ∈ t.routine, ¬ l.Signals d.ready := by
  decide

/-- The tasks before which a semaphore is posted, along the graph. -/
def Ready.rank : Ready → ℕ
  | walls => 0
  | exteriorPlumbing => 1
  | roof => 1
  | exteriorPainting => 2
  | interiorPlumbing => 2
  | electricalInstallation => 2
  | interiorPainting => 3
  | floor => 4

theorem completes : Completes permits Task.routine :=
  completes_of_rank Ready.rank (by decide) (by decide)

theorem message_injective : ∀ task task' report report',
    Task.message task report = Task.message task' report' → task = task' ∧ report = report' := by
  intro task task' report report'
  cases task <;> cases task' <;> cases report <;> cases report' <;> decide

theorem message_inj {x y : Task × Report} (h : x.1.message x.2 = y.1.message y.2) : x = y := by
  obtain ⟨htask, hreport⟩ := message_injective _ _ _ _ h
  exact Prod.ext htask hreport

/-- No builder starts before all dependencies of his task have been completed, and every run
ends with the whole building, each task reported once. -/
theorem building_tasks_complete (s : State Task Ready Report)
    (h : doConcurrentTasks.system.Reachable s) :
    (∀ task : Task, ∀ d ∈ task.dependencies, ∀ l₁ l₂,
      stdout s = l₁ ++ task.message .start :: l₂ → d.message .finish ∈ l₁) ∧
    (doConcurrentTasks.system.Stuck s →
      ∀ task report, (stdout s).count (Task.message task report) = 1) ∧
    ∀ l, doConcurrentTasks.system.run l = some s → l.length ≤ 40 := by
  refine ⟨fun task d hd l₁ l₂ hout => ?_, fun hs task report => ?_, fun l hl => ?_⟩
  · have hprecedes : Precedes s (d, .finish) (task, .start) :=
      once_precedes rfl (waits_for_dependency task d hd) (signals_after_finish task d hd).1
        (signals_after_finish task d hd).2 h
    obtain ⟨m₁, m₂', hdone, rfl, htail⟩ := List.map_eq_append_iff.mp hout
    obtain ⟨x, m₂, rfl, hx, -⟩ := List.map_eq_cons_iff.mp htail
    obtain rfl := message_inj (y := (task, .start)) hx
    exact List.mem_map_of_mem (f := fun x : Task × Report => x.1.message x.2)
      (hprecedes m₁ m₂ hdone)
  · have hcount := List.count_map_of_injective s.done (fun x : Task × Report => x.1.message x.2)
      (fun _ _ => message_inj) (task, report)
    rw [stdout, hcount, count_done, done_of_finished h (completes.finished s h hs task)]
    cases task <;> cases report <;> rfl
  · exact completes.bounded l s hl

/-- A building that is completed. -/
theorem building_tasks_complete_once : ∃ s, doConcurrentTasks.system.Reachable s ∧
    (∀ task report, (stdout s).count (Task.message task report) = 1) ∧
    (∀ l₁ l₂, stdout s = l₁ ++ Task.message .roof .start :: l₂ →
      Task.message .walls .finish ∈ l₁) ∧
    ∀ l, doConcurrentTasks.system.run l = some s → l.length ≤ 40 := by
  have hstart : doConcurrentTasks.system.Reachable doConcurrentTasks.system.start := .start
  obtain ⟨s, hs, hstuck⟩ := exists_stuck hstart
  obtain ⟨horder, hcount, hlength⟩ := building_tasks_complete s hs
  exact ⟨s, hs, hcount hstuck, horder .roof .walls (by decide), hlength⟩

namespace Design

/-- The posts of a builder are one signal of as many permits. -/
def builder (waits : List Ready) (signals : List (Ready × ℕ)) : List (Line Ready Report) :=
  waits.map .wait ++ [.statement .start, .statement .finish] ++
    signals.map fun r => .signal r.1 r.2

def routine : Task → List (Line Ready Report)
  | .walls => builder [] [(.walls, 2)]
  | .exteriorPlumbing => builder [.walls] [(.exteriorPlumbing, 2)]
  | .roof => builder [.walls] [(.roof, 1)]
  | .exteriorPainting => builder [.exteriorPlumbing] [(.exteriorPainting, 1)]
  | .interiorPlumbing => builder [.exteriorPlumbing] [(.interiorPlumbing, 1)]
  | .electricalInstallation => builder [.roof] [(.electricalInstallation, 1)]
  | .exteriorFinishes => builder [.exteriorPainting] []
  | .interiorPainting =>
    builder [.exteriorPlumbing, .electricalInstallation] [(.interiorPainting, 1)]
  | .floors => builder [.interiorPainting] [(.floor, 1)]
  | .interiorFinishes => builder [.floor] []

def main : Script Task Ready Report := Script.once permits routine

/-- In no run of the design is the building completed: all runs end with a builder who waits. -/
theorem design_never_completes (s : State Task Ready Report) (h : main.system.Reachable s) :
    (∃ task, s.position task < (routine task).length) ∧
      ∃ t, main.system.Path s t ∧ main.system.Stuck t ∧
        ∃ task, t.position task < (routine task).length := by
  have hpermits : permits .exteriorPlumbing +
      ∑ task, ((routine task).map (Line.signals .exteriorPlumbing)).sum <
        ∑ task, ((routine task).map (Line.waits .exteriorPlumbing)).sum := by
    decide
  obtain ⟨t, ht, hstuck⟩ := exists_stuck h
  exact ⟨exists_unfinished hpermits h, t, ht, hstuck, exists_unfinished hpermits (h.path ht)⟩

theorem design_never_completes_start :
    ∃ t, main.system.Path main.system.start t ∧ main.system.Stuck t ∧
      ∃ task, t.position task < (routine task).length :=
  (design_never_completes _ System.Reachable.start).2

end Design

end Concurrente.BuildingTasks
