import Mathlib.Tactic

/-!
# Error codes of omp_mpi
-/

namespace Concurrente.OmpMpi

/-- `errors.h`, and the `EXIT_FAILURE` of the C library. -/
inductive ErrorCode
  | exitFailure
  | noJobFile
  | invalidThreadCount
  | jobInit
  | jobFileNotFound
  | plateAlloc
  | plateFileNameAlloc
  | jobExpansion
  | resultsFilePath
  | openResultsFile
  | openPlateFile
  | updateOutputFileName
  | rowsCols
  | buildOutputFileName
  | openOutputFile
  | initMpi
  | setProcessNumber
  | setProcessCount
  | mpiSend
  | mpiRecv
  deriving DecidableEq, Repr

def ErrorCode.value : ErrorCode → ℕ
  | exitFailure => 1
  | noJobFile => 2
  | invalidThreadCount => 3
  | jobInit => 11
  | jobFileNotFound => 12
  | plateAlloc => 13
  | plateFileNameAlloc => 14
  | jobExpansion => 15
  | resultsFilePath => 16
  | openResultsFile => 17
  | openPlateFile => 21
  | updateOutputFileName => 22
  | rowsCols => 23
  | buildOutputFileName => 24
  | openOutputFile => 25
  | initMpi => 31
  | setProcessNumber => 32
  | setProcessCount => 33
  | mpiSend => 34
  | mpiRecv => 35

/-- No error code is `EXIT_SUCCESS`, and no two are the same. -/
theorem ErrorCode.value_ne_zero (e : ErrorCode) : e.value ≠ 0 := by
  cases e <;> simp [value]

theorem ErrorCode.value_injective : Function.Injective ErrorCode.value := by
  intro a b h
  cases a <;> cases b <;> simp_all [value]

end Concurrente.OmpMpi
