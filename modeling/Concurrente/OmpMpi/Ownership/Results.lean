import Concurrente.OmpMpi.Ownership.Program

/-!
# Who destroys what

While no call fails a process destroys the matrix of each plate when the plate is written, and the
job at the end.  What is wrong stays wrong: a job is not created again, and what is undefined
stays undefined.
-/

namespace Concurrente.OmpMpi.Ownership

open Resources
open SetJob (Allocations startingCapacity)

variable {r r' r'' : Resources} {calls : PlateCalls} {directory : Directory} {i platesCount : ℕ}

/-- What is undefined or destroyed in the first state is so in the second. -/
structure Later (r r' : Resources) : Prop where
  undefined : r.undefined = true → r'.undefined = true
  job : r.job ≠ .live → r'.job ≠ .live

/-- The job cannot be used any more without harm. -/
def Broken (r : Resources) : Prop := r.undefined = true ∨ r.job ≠ .live

theorem Later.refl (r : Resources) : Later r r := ⟨id, id⟩

theorem Later.trans (h : Later r r') (h' : Later r' r'') : Later r r'' :=
  ⟨h'.undefined ∘ h.undefined, h'.job ∘ h.job⟩

theorem Broken.later (h : Broken r) (hl : Later r r') : Broken r' := h.imp hl.undefined hl.job

theorem later_check (r : Resources) (ok : Bool) : Later r (r.check ok) :=
  ⟨fun h => by rw [check, h, Bool.true_or], id⟩

theorem later_useJob (r : Resources) : Later r r.useJob := later_check r _

theorem later_usePlate (r : Resources) (i : ℕ) : Later r (r.usePlate i) :=
  (later_useJob r).trans (later_check _ _)

theorem later_usePlateMatrix (r : Resources) (i : ℕ) : Later r (r.usePlateMatrix i) :=
  later_check r _

theorem later_destroyPlateMatrix (r : Resources) (i : ℕ) : Later r (r.destroyPlateMatrix i) :=
  (later_usePlateMatrix r i).trans ⟨id, id⟩

theorem later_destroyJob (r : Resources) : Later r r.destroyJob where
  undefined h :=
    (((later_useJob r).trans (later_check _ _)).trans (later_check _ _)).undefined h
  job _ := by simp [destroyJob]

theorem later_mpiwrapperFinalize (r : Resources) : Later r r.mpiwrapperFinalize :=
  (later_check r _).trans ⟨id, id⟩

theorem Broken.useJob (h : Broken r) : r.useJob.undefined = true := by
  obtain h | h := h
  · exact (later_useJob r).undefined h
  · simp [Resources.useJob, check, h]

theorem Broken.usePlate (h : Broken r) (i : ℕ) : (r.usePlate i).undefined = true :=
  (later_check _ _).undefined h.useJob

theorem Broken.destroyJob (h : Broken r) : r.destroyJob.undefined = true :=
  ((later_check _ _).trans (later_check _ _)).undefined h.useJob

theorem later_updatePlateFile (calls : PlateCalls) (r : Resources) (i : ℕ) :
    Later r (updatePlateFile calls r i).2 := by
  unfold updatePlateFile
  split_ifs
  · exact later_usePlateMatrix r i
  · exact (later_destroyPlateMatrix r i).trans (later_check _ _)
  · exact Later.refl r

theorem later_cleanPlate (calls : PlateCalls) (r : Resources) (i : ℕ) :
    Later r (cleanPlate calls r i) := by
  have h := (later_usePlate r i).trans (later_updatePlateFile calls (r.usePlate i) i)
  unfold cleanPlate
  dsimp only
  split_ifs
  · exact h.trans (later_destroyPlateMatrix _ i)
  · exact h.trans (later_destroyJob _)

theorem check_true (r : Resources) : r.check true = r := by
  rw [check, Bool.not_true, Bool.or_false]

theorem useJob_eq (h : r.job = .live) : r.useJob = r := by
  rw [Resources.useJob, decide_eq_true h, check_true]

theorem usePlate_eq (h : r.job = .live) (hi : i < r.platesCount) (hf : r.plateFreed i = false) :
    r.usePlate i = r := by
  rw [Resources.usePlate, useJob_eq h, decide_eq_true ⟨hi, hf⟩, check_true]

theorem usePlateMatrix_eq (h : r.plateMatrix i = .live) : r.usePlateMatrix i = r := by
  rw [usePlateMatrix, decide_eq_true h, check_true]

/-- Between two plates: the job is live with all its plates, and no matrix is. -/
structure Ready (r : Resources) (directory : Directory) (platesCount : ℕ) : Prop where
  job : r.job = .live
  directory : r.sourceDirectory = directory
  counted : r.platesCount = platesCount
  freed : ∀ i < platesCount, r.plateFreed i = false
  idle : ∀ i < platesCount, r.plateMatrix i ≠ .live
  mpi : r.mpi = .live
  destroyJobs : r.destroyJobs = 0
  finalizes : r.finalizes = 0
  defined : r.undefined = false

theorem Ready.usePlate (h : Ready r directory platesCount) (hi : i < platesCount) :
    r.usePlate i = r :=
  usePlate_eq h.job (by rwa [h.counted]) (h.freed i hi)

def load (r : Resources) (i : ℕ) : Resources :=
  { r with plateMatrix := Function.update r.plateMatrix i .live }

theorem load_live (r : Resources) (i : ℕ) : (load r i).plateMatrix i = .live :=
  Function.update_self _ _ _

theorem Ready.usePlate_load (h : Ready r directory platesCount) (hi : i < platesCount) :
    (load r i).usePlate i = load r i :=
  usePlate_eq h.job (by rw [load, h.counted]; exact hi) (h.freed i hi)

theorem buildFilePath_eq_true {path : Bool} :
    buildFilePath path r = true ↔ r.sourceDirectory ≠ .null ∧ path = true := by
  rw [buildFilePath, Bool.and_eq_true, decide_eq_true_iff]

theorem setPlateMatrix_cases (calls : PlateCalls) (r : Resources) (i : ℕ) :
    (r.sourceDirectory ≠ .null ∧ calls.path = true ∧ calls.opened = true ∧
      calls.dimensions = true ∧ calls.callocs.plateMatrix = true ∧ calls.callocs.matrix = true ∧
      calls.callocs.auxiliaryMatrix = true ∧ setPlateMatrix calls r i = (true, load r i)) ∨
    setPlateMatrix calls r i = (false, r) ∨
    ((setPlateMatrix calls r i).1 = true ∧ (setPlateMatrix calls r i).2.undefined = true) := by
  by_cases hload : (buildFilePath calls.path r && calls.opened && calls.dimensions) = true
  · by_cases hcallocs : (calls.callocs.plateMatrix && calls.callocs.matrix &&
        calls.callocs.auxiliaryMatrix) = true
    · have hset : setPlateMatrix calls r i = (true, (load r i).usePlateMatrix i) := by
        simp only [setPlateMatrix, hload, hcallocs, if_true]
        rfl
      simp only [Bool.and_eq_true, buildFilePath_eq_true] at hload hcallocs
      refine .inl ⟨hload.1.1.1, hload.1.1.2, hload.1.2, hload.2, hcallocs.1.1, hcallocs.1.2,
        hcallocs.2, ?_⟩
      rw [hset, usePlateMatrix_eq (load_live r i)]
    · refine .inr (.inr ?_)
      simp only [setPlateMatrix, if_pos hload, if_neg hcallocs]
      simp [usePlateMatrix, check]
  · exact .inr (.inl (by rw [setPlateMatrix, if_neg hload]))

theorem updatePlateFile_cases (calls : PlateCalls) (hlive : r.plateMatrix i = .live) :
    (calls.outputName = true ∧ calls.outputPath = true ∧ calls.output = true ∧
      updatePlateFile calls r i = (true, r)) ∨ (updatePlateFile calls r i).1 = false := by
  by_cases hname : (calls.outputName && buildFilePath calls.outputPath r) = true
  · by_cases houtput : calls.output = true
    · have hupdate : updatePlateFile calls r i = (true, r.usePlateMatrix i) := by
        rw [updatePlateFile, if_pos hname, if_pos houtput]
      simp only [Bool.and_eq_true, buildFilePath_eq_true] at hname
      refine .inl ⟨hname.1, hname.2.2, houtput, ?_⟩
      rw [hupdate, usePlateMatrix_eq hlive]
    · exact .inr (by simp only [updatePlateFile, if_pos hname, if_neg houtput])
  · exact .inr (by simp only [updatePlateFile, if_neg hname])

theorem processPlate_cases (calls : PlateCalls) (h : Ready r directory platesCount)
    (hi : i < platesCount) :
    (calls.Succeed directory ∧ processPlate calls r i =
      { r with plateMatrix := Function.update r.plateMatrix i .destroyed }) ∨
    (¬ calls.Succeed directory ∧ Broken (processPlate calls r i)) := by
  have hd := h.directory
  have hpath : ∀ path r', calls.Succeed directory → r'.sourceDirectory = r.sourceDirectory →
      path = true → buildFilePath path r' = true := fun path r' hs hr' hp =>
    buildFilePath_eq_true.mpr ⟨by rw [hr', hd]; exact hs.directory, hp⟩
  obtain ⟨h0, h1, h2, h3, h4, h5, h6, hset⟩ | hset | ⟨htrue, hundefined⟩ :=
    setPlateMatrix_cases calls r i
  · have hprocess : processPlate calls r i = cleanPlate calls (load r i) i := by
      simp only [processPlate, h.usePlate hi, hset, if_true]
      rw [usePlateMatrix_eq (load_live r i)]
    obtain ⟨h7, h8, h9, hupdate⟩ | hupdate := updatePlateFile_cases calls (load_live r i)
    · refine .inl ⟨⟨by rwa [← hd], h1, h2, h3, h4, h5, h6, h7, h8, h9⟩, ?_⟩
      simp only [hprocess, cleanPlate, h.usePlate_load hi, hupdate, if_true, destroyPlateMatrix,
        usePlateMatrix_eq (load_live r i)]
      simp only [load, Function.update_idem]
    · refine .inr ⟨fun hs => ?_, .inr ?_⟩
      · have hout := hpath _ (load r i) hs rfl hs.outputPath
        simp [updatePlateFile, hs.outputName, hout, hs.output] at hupdate
      · rw [hprocess, cleanPlate, h.usePlate_load hi]
        simp only [hupdate, Bool.false_eq_true, if_false]
        simp [Resources.destroyJob]
  · refine .inr ⟨fun hs => ?_, .inl ?_⟩
    · have hin := hpath _ r hs rfl hs.path
      simp [setPlateMatrix, hin, hs.opened, hs.dimensions] at hset
    · simp only [processPlate, h.usePlate hi, hset, Bool.false_eq_true, if_false]
      simp [destroyPlateMatrix, usePlateMatrix, check, h.idle i hi]
  · refine .inr ⟨fun hs => ?_, .inl ?_⟩
    · have hlive : setPlateMatrix calls r i = (true, load r i) := by
        have hin := hpath _ r hs rfl hs.path
        simp only [setPlateMatrix, hin, hs.opened, hs.dimensions, hs.plateMatrix, hs.matrix,
          hs.auxiliaryMatrix, Bool.and_self, if_true]
        exact congrArg (Prod.mk true) (usePlateMatrix_eq (load_live r i))
      rw [hlive] at hundefined
      exact Bool.false_ne_true (h.defined.symm.trans hundefined)
    · simp only [processPlate, h.usePlate hi, htrue, if_true]
      exact ((later_usePlateMatrix _ i).trans (later_cleanPlate calls _ i)).undefined hundefined

theorem Ready.processPlate (h : Ready r directory platesCount) (hi : i < platesCount)
    (hs : calls.Succeed directory) :
    Ready (processPlate calls r i) directory platesCount := by
  obtain ⟨-, heq⟩ | ⟨hn, -⟩ := processPlate_cases calls h hi
  · rw [heq]
    refine ⟨h.job, h.directory, h.counted, h.freed, fun j hj => ?_, h.mpi, h.destroyJobs,
      h.finalizes, h.defined⟩
    by_cases hji : j = i
    · simp [hji]
    · simpa [hji] using h.idle j hj
  · exact absurd hs hn

section Plates

variable {env : Environment} {plates : ℕ → PlateCalls} {order : List ℕ}

end Plates

section Master

variable {env : Environment}

end Master

/-- What a process has before it finalizes MPI, when all is well. -/
structure Settled (x : Exit × Resources) : Prop where
  left : x.1 ≠ .waiting
  defined : x.2.undefined = false
  destroyed : x.2.destroyJobs ≤ 1
  finalizes : x.2.finalizes = 0
  mpi : x.2.mpi = .live

/-- Something is undefined, or MPI is never finalized, or before the end. -/
def Lost (x : Exit × Resources) : Prop :=
  x.2.undefined = true ∨ x.1 = .waiting ∧ x.2.finalizes = 0 ∨ x.1 ≠ .waiting ∧ x.2.mpi ≠ .live

/-- The process leaves after it has destroyed its job, whose plates were all live. -/
def Destroys (directory : Directory) (x : Exit × Resources) : Prop :=
  x.1 ≠ .waiting ∧ ∃ r platesCount, Ready r directory platesCount ∧ x.2 = r.destroyJob

section Job

variable {env : Environment} {exit : Exit} {x : Exit × Resources}

theorem Ready.destroyJob_undefined (h : Ready r directory platesCount) :
    r.destroyJob.undefined = true ↔ directory = .literal := by
  have hfreed : ∀ i < r.platesCount, r.plateFreed i = false := by
    rw [h.counted]
    exact h.freed
  simp only [Resources.destroyJob, useJob_eq h.job, decide_eq_true hfreed, check,
    h.defined, h.directory]
  simp

theorem Destroys.lost (h : Destroys .literal x) : Lost x := by
  obtain ⟨-, r, platesCount, hready, hx⟩ := h
  exact .inl (by rw [hx, hready.destroyJob_undefined])

theorem Ready.waits (h : Ready r directory platesCount) : Lost (.waiting, r) :=
  .inr (.inl ⟨rfl, h.finalizes⟩)

def add (r : Resources) : Resources :=
  { r with
    platesCount := r.platesCount + 1
    plateFreed := Function.update r.plateFreed r.platesCount false
    plateMatrix := Function.update r.plateMatrix r.platesCount .absent }

theorem Ready.add (h : Ready r directory platesCount) :
    Ready (add r) directory (platesCount + 1) := by
  refine ⟨h.job, h.directory, congrArg (· + 1) h.counted, fun i hi => ?_, fun i hi => ?_, h.mpi,
    h.destroyJobs, h.finalizes, h.defined⟩
  · by_cases hic : i = platesCount
    · simp [Ownership.add, hic, h.counted]
    · simpa [Ownership.add, h.counted, hic] using h.freed i (by omega)
  · by_cases hic : i = platesCount
    · simp [Ownership.add, hic, h.counted]
    · simpa [Ownership.add, h.counted, hic] using h.idle i (by omega)

theorem Ready.capacity (h : Ready r directory platesCount) (capacity : ℕ) :
    Ready { r with platesCapacity := capacity } directory platesCount :=
  ⟨h.job, h.directory, h.counted, h.freed, h.idle, h.mpi, h.destroyJobs, h.finalizes, h.defined⟩

def created (directory : Directory) : Resources :=
  { begin with
    mpi := .live
    job := .live
    sourceDirectory := directory
    platesCapacity := startingCapacity }

/-- What becomes of the resources when `main` finalizes MPI. -/
def conclude (x : Exit × Resources) : Exit × Resources :=
  if x.1 = .waiting then x else (x.1, x.2.mpiwrapperFinalize)

theorem Settled.conclude (h : Settled x) : Owned (conclude x) := by
  rw [Ownership.conclude, if_neg h.left]
  refine ⟨?_, h.destroyed, congrArg (· + 1) h.finalizes⟩
  simp only [mpiwrapperFinalize, decide_eq_true h.mpi, check_true]
  exact h.defined

theorem Lost.conclude (h : Lost x) : ¬ Owned (conclude x) := by
  intro ho
  have hdefined := ho.defined
  have hfinalized := ho.finalized
  unfold Ownership.conclude at hdefined hfinalized
  obtain hundefined | ⟨hw, hzero⟩ | ⟨hw, hmpi⟩ := h
  · split_ifs at hdefined
    · exact Bool.false_ne_true (hdefined.symm.trans hundefined)
    · exact Bool.false_ne_true
        (hdefined.symm.trans ((later_mpiwrapperFinalize x.2).undefined hundefined))
  · rw [if_pos hw, hzero] at hfinalized
    cases hfinalized
  · rw [if_neg hw] at hdefined
    simp [mpiwrapperFinalize, check, hmpi] at hdefined

end Job

end Concurrente.OmpMpi.Ownership
