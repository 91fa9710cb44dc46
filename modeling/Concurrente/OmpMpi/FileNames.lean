import Concurrente.OmpMpi.Paths

/-!
# Names of output files

`set_plate_file_name`: the stem of the plate file, a dash, the number of states and the
extension `.bin`.  The stem may contain dashes, dots and digits of its own; the last dash
of the result is always the one before the number.
-/

namespace Concurrente.OmpMpi

open CString

/-- `.bin`. -/
def binExtension : Text := ['.', 'b', 'i', 'n']

/-- What the first `snprintf` prints. -/
def suffixText (kStates : ℕ) : Text := decimal kStates ++ binExtension

/-- The size of `suffix`. -/
def suffixSize : ℕ := 25

/-- What the second `snprintf` prints. -/
def newFileText (fileName : Text) (nameLength : ℕ) (suffix : Text) : Text :=
  precision (toInt nameLength) fileName ++ '-' :: suffix

def newSize (nameLength : ℕ) (suffix : Text) : ℕ := nameLength + suffix.length + 2

def setPlateFileName (calloc : ℕ → Bool) (fileName : Text) (kStates : ℕ) : Option Text :=
  (strrchr '.' fileName).bind fun nameLength =>
    let suffix := snprintf suffixSize (suffixText kStates)
    let newSize := newSize nameLength suffix
    if calloc newSize then some (snprintf newSize (newFileText fileName nameLength suffix))
    else none

def stem (fileName : Text) : Text := fileName.take ((strrchr '.' fileName).getD fileName.length)

section Names

variable {stem ext fileName : Text} {kStates : ℕ}

theorem stem_append (he : '.' ∉ ext) : OmpMpi.stem (stem ++ '.' :: ext) = stem := by
  rw [OmpMpi.stem, strrchr_append he]
  simp

theorem suffix_fits (hk : kStates < 2 ^ 64) : ¬ Truncates suffixSize (suffixText kStates) := by
  have := decimal_length_le hk
  simp only [Truncates, suffixSize, suffixText, List.length_append]
  simp only [binExtension, List.length_cons, List.length_nil]
  omega

theorem newFileText_eq (hs : stem.length < 2 ^ 31) (suffix : Text) :
    newFileText (stem ++ '.' :: ext) stem.length suffix = stem ++ '-' :: suffix := by
  rw [newFileText, precision_toInt hs, List.take_left]

theorem newFile_fits (hs : stem.length < 2 ^ 31) (suffix : Text) :
    ¬ Truncates (newSize stem.length suffix)
      (newFileText (stem ++ '.' :: ext) stem.length suffix) := by
  rw [newFileText_eq hs]
  simp only [Truncates, newSize, List.length_append, List.length_cons]
  omega

theorem setPlateFileName_append (he : '.' ∉ ext) (hs : stem.length < 2 ^ 31)
    (hk : kStates < 2 ^ 64) : setPlateFileName memory (stem ++ '.' :: ext) kStates =
      some (stem ++ '-' :: suffixText kStates) := by
  rw [setPlateFileName, strrchr_append he, Option.bind_some, snprintf_eq (suffix_fits hk)]
  simp only [memory, if_true]
  rw [snprintf_eq (newFile_fits hs _), newFileText_eq hs]

theorem dash_notMem_suffixText : '-' ∉ suffixText kStates := by
  intro h
  obtain h | h := List.mem_append.mp h
  · exact absurd (isDigit_of_mem_decimal h) (by decide)
  · exact absurd h (by decide)

theorem name_injective {stem' : Text} {kStates' : ℕ}
    (h : stem ++ '-' :: suffixText kStates = stem' ++ '-' :: suffixText kStates') :
    stem = stem' ∧ kStates = kStates' := by
  obtain ⟨hstem, hsuffix⟩ := split_unique h dash_notMem_suffixText dash_notMem_suffixText
  exact ⟨hstem, decimal_injective (List.append_cancel_right hsuffix)⟩

end Names

/-- Every plate file with an extension gets the name of its stem and its number of states, no
buffer is too small, and no other stem or number gives the same name. -/
theorem plate_file_names (fileName : Text) (kStates : ℕ) (hdot : '.' ∈ fileName)
    (hstem : (stem fileName).length < 2 ^ 31) (hk : kStates < 2 ^ 64) :
    setPlateFileName memory fileName kStates =
        some (stem fileName ++ '-' :: (decimal kStates ++ ['.', 'b', 'i', 'n'])) ∧
      ¬ Truncates suffixSize (suffixText kStates) ∧
      ¬ Truncates (newSize (stem fileName).length (suffixText kStates))
        (newFileText fileName (stem fileName).length (suffixText kStates)) ∧
      ∀ fileName' kStates', '.' ∈ fileName' → (stem fileName').length < 2 ^ 31 →
        kStates' < 2 ^ 64 →
        setPlateFileName memory fileName' kStates' = setPlateFileName memory fileName kStates →
        stem fileName' = stem fileName ∧ kStates' = kStates := by
  obtain ⟨s, ext, rfl, he⟩ := exists_split hdot
  rw [stem_append he] at hstem ⊢
  have hname := setPlateFileName_append he hstem hk
  refine ⟨hname, suffix_fits hk, newFile_fits hstem _, ?_⟩
  intro fileName' kStates' hdot' hstem' hk' heq
  obtain ⟨s', ext', rfl, he'⟩ := exists_split hdot'
  rw [stem_append he'] at hstem' ⊢
  rw [setPlateFileName_append he' hstem' hk', hname] at heq
  exact name_injective (Option.some.inj heq)

theorem plate_file_names_dashes : setPlateFileName memory "a-7.b-1.bin".toList 12 =
    some "a-7.b-1-12.bin".toList :=
  (plate_file_names "a-7.b-1.bin".toList 12 (by decide) (by decide) (by norm_num)).1

end Concurrente.OmpMpi
