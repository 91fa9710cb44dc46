import Concurrente.CString

/-!
# Paths

`common.c` of omp_mpi, which is the same in the other versions: directories, file names
and extensions of paths.  A null pointer is `none`, and `calloc` tells which sizes can be
allocated.
-/

namespace Concurrente.OmpMpi

open CString

abbrev Text := List Char

/-- The directory, a slash and the file name. -/
def buildFilePath (calloc : ℕ → Bool) (directory filename : Option Text) : Option Text :=
  match directory, filename with
  | some directory, some filename =>
    let length := directory.length + filename.length + 2
    if calloc length then some (snprintf length (directory ++ '/' :: filename)) else none
  | _, _ => none

/-- The path up to its last slash; the empty string if there is none. -/
def extractDirectory (calloc : ℕ → Bool) (filepath : Option Text) : Option Text :=
  filepath.bind fun filepath =>
    match strrchr '/' filepath with
    | none => some []
    | some dirLength =>
      if calloc (dirLength + 1) then some (filepath.take dirLength) else none

def extractFileName (calloc : ℕ → Bool) (filepath : Option Text) : Option Text :=
  filepath.bind fun filepath =>
    let filename := match strrchr '/' filepath with
      | none => filepath
      | some lastSlash => filepath.drop (lastSlash + 1)
    if calloc (filename.length + 1) then some (snprintf (filename.length + 1) filename) else none

def components (path : Text) : List Text := (path.splitOn '/').filter (· ≠ [])

def Absolute (path : Text) : Prop := path.head? = some '/'

instance (path : Text) : Decidable (Absolute path) := inferInstanceAs (Decidable (_ = _))

/-- The place of a path in the tree of directories, from a working directory. -/
def place (workingDirectory : List Text) (path : Text) : List Text :=
  if Absolute path then components path else workingDirectory ++ components path

section Join

variable {p d f n : Text}

def memory : ℕ → Bool := fun _ => true

theorem buildFilePath_eq : buildFilePath memory (some d) (some n) = some (d ++ '/' :: n) := by
  simp only [buildFilePath, memory, if_true]
  rw [snprintf_eq]
  simp only [Truncates, List.length_append, List.length_cons]
  omega

theorem extractDirectory_split (hf : '/' ∉ f) :
    extractDirectory memory (some (d ++ '/' :: f)) = some d := by
  rw [extractDirectory, Option.bind_some, strrchr_append hf]
  simp [memory]

theorem extractDirectory_plain (hp : '/' ∉ p) : extractDirectory memory (some p) = some [] := by
  rw [extractDirectory, Option.bind_some, strrchr_of_notMem hp]

theorem extractFileName_split (hf : '/' ∉ f) :
    extractFileName memory (some (d ++ '/' :: f)) = some f := by
  rw [extractFileName, Option.bind_some, strrchr_append hf]
  have hdrop : (d ++ '/' :: f).drop (d.length + 1) = f := by
    rw [List.drop_append]
    simp
  simp only [hdrop, memory, if_true]
  rw [snprintf_eq]
  simp [Truncates]

/-- A plate named `n` in the job at `p` is looked for beside the job, and the parts of `p`
make `p` again. -/
structure Locates (p n : Text) : Prop where
  inDirectory : ∀ d f, p = d ++ '/' :: f → '/' ∉ f →
    buildFilePath memory (extractDirectory memory (some p)) (some n) = some (d ++ '/' :: n)
  relative : '/' ∉ p → ∃ path,
    buildFilePath memory (extractDirectory memory (some p)) (some n) = some path ∧
      ¬ Absolute path ∧ ∀ workingDirectory, place workingDirectory path = place workingDirectory n
  itself : ∃ path, buildFilePath memory (extractDirectory memory (some p))
      (extractFileName memory (some p)) = some path ∧
    ∀ workingDirectory, place workingDirectory path = place workingDirectory p

/-- Plates are looked for in the directory of the job exactly if its path names one; a job
in the working directory has its plates looked for in the root. -/
theorem locates_iff (p n : Text) : Locates p n ↔ '/' ∈ p := by
  constructor
  · intro h
    by_contra hp
    obtain ⟨path, hpath, hrel, -⟩ := h.relative hp
    rw [extractDirectory_plain hp, buildFilePath_eq] at hpath
    obtain rfl := Option.some.inj hpath
    exact hrel rfl
  · intro hp
    obtain ⟨d, f, rfl, hf⟩ := exists_split hp
    refine ⟨fun d' f' heq hf' => ?_, fun hn => absurd hp hn, d ++ '/' :: f, ?_, fun _ => rfl⟩
    · obtain ⟨rfl, rfl⟩ := split_unique heq hf hf'
      rw [extractDirectory_split hf, buildFilePath_eq]
    · rw [extractDirectory_split hf, extractFileName_split hf, buildFilePath_eq]

/-- `bin/omp_mpi job001.txt` does not find the plates of its job. -/
theorem job_without_directory : ¬ Locates "job001.txt".toList "plate001.bin".toList := by
  rw [locates_iff]
  decide

end Join

end Concurrente.OmpMpi
