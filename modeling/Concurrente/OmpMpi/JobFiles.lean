import Concurrente.OmpMpi.SetJob

/-!
# Job files

A file of well-formed lines gives the plates of these lines: a round of the loop reads the
next five words, the array always has room for one more plate, and expanding it keeps the
plates in it.  The loop never reports a line that is not well formed, and a long name
leaves the buffer.
-/

namespace Concurrente.OmpMpi.SetJob

open Scanf

variable {δ : Type} {strtod : List Char → δ} {memory : ℕ → Allocations}

section Buffer

variable {v : Variables δ} {t : List Char}

theorem storeFileName_eq (h : t.length < v.plateFileName.size) : storeFileName t v =
    .ok { v with plateFileName := v.plateFileName.splice 0 (t ++ ['\x00']) } := if_pos h

theorem cString_splice (b : Block Char) (h : t.length < b.size) (ht : '\x00' ∉ t) :
    cString (b.splice 0 (t ++ ['\x00'])) = t := by
  have hlen : (t ++ ['\x00']).length = t.length + 1 := by simp
  have hslice : (b.splice 0 (t ++ ['\x00'])).slice 0 (0 + (t ++ ['\x00']).length) = t ++ ['\x00'] :=
    Block.slice_splice _ _ _
  rw [Nat.zero_add] at hslice
  have hsplit := Block.slice_append (b := b.splice 0 (t ++ ['\x00'])) (Nat.zero_le _)
    (by rw [hlen]; exact h : (t ++ ['\x00']).length ≤ b.size)
  rw [cString, Block.splice_size, ← hsplit, hslice, List.append_assoc, List.takeWhile_append_of_pos]
  · rw [List.singleton_append, List.takeWhile_cons_of_neg (by simp), List.append_nil]
  · intro c hc
    have hne : c ≠ '\x00' := fun he => ht (he ▸ hc)
    simpa using hne

end Buffer

def assign (strtod : List Char → δ) (name interval diffusivity dimension epsilon : List Char)
    (v : Variables δ) : Variables δ :=
  ⟨v.plateFileName.splice 0 (name ++ ['\x00']), strtoull interval, strtod diffusivity,
    strtod dimension, strtod epsilon⟩

theorem scanf_format (strtod : List Char → δ)
    {l name interval diffusivity dimension epsilon : List Char}
    {ts : List (List Char)} {v : Variables δ}
    (h : words l = name :: interval :: diffusivity :: dimension :: epsilon :: ts)
    (hname : name.length < v.plateFileName.size) (hi : unsigned.accepts interval = true)
    (hdiff : float.accepts diffusivity = true) (hdim : float.accepts dimension = true)
    (heps : float.accepts epsilon = true) : ∃ rest, words rest = ts ∧
      scanf (format strtod) l v 0 =
        .ok (5, assign strtod name interval diffusivity dimension epsilon v, rest) := by
  unfold format
  obtain ⟨l1, e1, h⟩ := scanf_string h (storeFileName_eq hname)
  rw [e1]
  obtain ⟨l2, e2, h⟩ := scanf_space h
  rw [e2]
  obtain ⟨l3, e3, h⟩ := scanf_number h hi
  rw [e3]
  obtain ⟨l4, e4, h⟩ := scanf_space h
  rw [e4]
  obtain ⟨l5, e5, h⟩ := scanf_number h hdiff
  rw [e5]
  obtain ⟨l6, e6, h⟩ := scanf_space h
  rw [e6]
  obtain ⟨l7, e7, h⟩ := scanf_number h hdim
  rw [e7]
  obtain ⟨l8, e8, h⟩ := scanf_space h
  rw [e8]
  obtain ⟨l9, e9, h⟩ := scanf_number h heps
  rw [e9]
  obtain ⟨l10, e10, h⟩ := scanf_space h
  rw [e10]
  exact ⟨l10, h, rfl⟩

theorem addPlate_cases (a : Allocations) (v : Variables δ) {job : Job δ}
    (hroom : job.platesCount < job.plates.size) :
    addPlate a v job = .ok (checkCapacity a.expansion
      ⟨(job.platesCount + 1) % 2 ^ 64, job.platesCapacity, ⟨job.plates.size,
        Function.update job.plates.cells job.platesCount (some ⟨cString v.plateFileName,
          v.thermalDiffusivity, v.intervalDuration, v.cellsDimension, v.epsilon, 0⟩)⟩⟩) ∨
      a ≠ ⟨true, true, true⟩ ∧ ∃ code, addPlate a v job = .ok (.error code) := by
  by_cases hp : a.plate = false
  · refine Or.inr ⟨fun ha => ?_, .plateAlloc, if_pos hp⟩
    rw [ha] at hp
    cases hp
  · by_cases hn : a.plateFileName = false
    · refine Or.inr ⟨fun ha => ?_, .plateFileNameAlloc, ?_⟩
      · rw [ha] at hn
        cases hn
      · rw [addPlate, if_neg hp, if_pos hn]
    · left
      simp only [addPlate, hp, hn, Block.write, hroom, if_true, bind, Except.bind]
      rfl

/-- The array has a free place, and the places in use have the plates of the first lines. -/
structure Stored (strtod : List Char → δ) (lines : List (List Char)) (k : ℕ) (job : Job δ) :
    Prop where
  count : job.platesCount = k
  room : k < job.platesCapacity
  size : job.plates.size = job.platesCapacity
  plates : ∀ i < k, job.plates.cells i = lines[i]?.bind (fields strtod)

theorem stored_checkCapacity (expansion : Bool) (lines : List (List Char)) (k : ℕ) (job : Job δ)
    (hcount : job.platesCount = k) (hle : k ≤ job.platesCapacity) (hpos : 1 ≤ k)
    (hmem : 16 * k < 2 ^ 64)
    (hsize : job.plates.size = job.platesCapacity)
    (hplates : ∀ i < k, job.plates.cells i = lines[i]?.bind (fields strtod)) :
    (∃ job', checkCapacity expansion job = .ok job' ∧ Stored strtod lines k job') ∨
      expansion = false ∧ ∃ code, checkCapacity expansion job = .error code := by
  -- a full array is doubled, and the plates stay where they are
  by_cases hfull : job.platesCount = job.platesCapacity
  · rw [SetJob.checkCapacity, if_pos hfull]
    cases expansion with
    | false => exact Or.inr ⟨rfl, .jobExpansion, rfl⟩
    | true =>
      have hcap : job.platesCapacity * 2 % 2 ^ 64 = job.platesCapacity * 2 :=
        Nat.mod_eq_of_lt (by omega)
      -- the size in bytes does not wrap around
      have hbytes : 8 * (job.platesCapacity * 2) % 2 ^ 64 / 8 = job.platesCapacity * 2 := by
        rw [Nat.mod_eq_of_lt (by omega)]
        omega
      refine Or.inl ⟨⟨job.platesCount, job.platesCapacity * 2, ⟨job.platesCapacity * 2,
        fun i => if i < job.plates.size then job.plates.cells i else none⟩⟩, ?_, hcount, ?_,
          rfl, ?_⟩
      · simp only [expandJob, Bool.true_eq_false, if_false, hcap, hbytes]
      · dsimp only
        omega
      · intro i hi
        dsimp only
        rw [if_pos (by omega), hplates i hi]
  · refine Or.inl ⟨job, if_neg hfull, hcount, ?_, hsize, hplates⟩
    omega

/-- After `k` rounds: the text that is left has the words of the other lines. -/
structure Read (strtod : List Char → δ) (lines : List (List Char)) (k : ℕ) (x : Reading δ) :
    Prop where
  stored : Stored strtod lines k x.job
  buffer : x.vars.plateFileName.size = maxFileNameSize
  rest : words x.rest = (lines.drop k).flatMap words

theorem read_start [Zero δ] (strtod : List Char → δ) (text : List Char) :
    Read strtod (jobLines text) 0 (start text) := by
  refine ⟨⟨rfl, Nat.succ_pos 49, rfl, fun i hi => absurd hi (Nat.not_lt_zero i)⟩, rfl, ?_⟩
  have hfilter : ∀ ls : List (List Char), ls.flatMap words =
      (ls.filter fun line => !(words line).isEmpty).flatMap words := by
    intro ls
    induction ls with
    | nil => rfl
    | cons line ls ih =>
      rw [List.flatMap_cons, ih]
      by_cases hw : words line = []
      · rw [List.filter_cons_of_neg (by simp [hw]), hw, List.nil_append]
      · rw [List.filter_cons_of_pos (by simp [hw]), List.flatMap_cons]
  rw [List.drop_zero, jobLines, ← hfilter, ← words_splitOn]
  rfl

section Round

variable {x : Reading δ} {v : Variables δ} {rest : List Char} {k : ℕ}

theorem readPlate_again {job : Job δ} (hcount : x.job.platesCount = k)
    (hscan : scanf (format strtod) x.rest x.vars 0 = .ok (5, v, rest))
    (hadd : addPlate (memory k) v x.job = .ok (.ok job)) :
    readPlate strtod memory x = .ok (.again ⟨job, v, rest⟩) := by
  simp only [readPlate, hscan, hcount, hadd, bind, Except.bind, if_true]
  rfl

theorem readPlate_failed {code : ErrorCode} (hcount : x.job.platesCount = k)
    (hscan : scanf (format strtod) x.rest x.vars 0 = .ok (5, v, rest))
    (hadd : addPlate (memory k) v x.job = .ok (.error code)) :
    readPlate strtod memory x = .ok (.failed code) := by
  simp only [readPlate, hscan, hcount, hadd, bind, Except.bind, if_true]
  rfl

end Round

theorem Read.step (memory : ℕ → Allocations) {lines : List (List Char)} {k : ℕ} {x : Reading δ}
    (h : Read strtod lines k x) (hk : k < lines.length) (hline : WellFormed lines[k])
    (hmem : 16 * lines.length < 2 ^ 64) :
    (∃ y, readPlate strtod memory x = .ok (.again y) ∧ Read strtod lines (k + 1) y) ∨
      memory k ≠ ⟨true, true, true⟩ ∧
        ∃ code, readPlate strtod memory x = .ok (.failed code) := by
  obtain ⟨⟨hcount, hroom, hsize, hplates⟩, hbuffer, hrest⟩ := h
  obtain ⟨name, interval, diffusivity, dimension, epsilon, hwords, hname, hnul, hdigits, hvalue,
    hdiff, hdim, heps⟩ := hline
  rw [List.drop_eq_getElem_cons hk, List.flatMap_cons, hwords] at hrest
  have hinterval : interval ≠ [] := by
    have hmem : interval ∈ words lines[k] := by simp [hwords]
    exact ne_nil_of_mem_words hmem
  have hname' : name.length < x.vars.plateFileName.size := by rwa [hbuffer]
  obtain ⟨rest, hrest', hscan⟩ := scanf_format strtod hrest hname'
    (unsigned_accepts hinterval hdigits) hdiff hdim heps
  have hplate : fields strtod lines[k] = some ⟨cString (x.vars.plateFileName.splice 0
      (name ++ ['\x00'])), strtod diffusivity, strtoull interval, strtod dimension,
      strtod epsilon, 0⟩ := by
    rw [cString_splice _ hname' hnul, strtoull_of_lt hdigits hvalue, fields, hwords]
  have hplates' : ∀ i < k + 1, Function.update x.job.plates.cells k (fields strtod lines[k]) i =
      lines[i]?.bind (fields strtod) := by
    intro i hi
    by_cases hik : i = k
    · subst hik
      rw [Function.update_self, List.getElem?_eq_getElem hk]
      rfl
    · rw [Function.update_of_ne hik, hplates i (by omega)]
  obtain hadd | ⟨hbad, code, hadd⟩ := addPlate_cases (memory k)
    (assign strtod name interval diffusivity dimension epsilon x.vars)
    (hcount.trans_lt (hroom.trans_eq hsize.symm))
  · have hstored := stored_checkCapacity (memory k).expansion lines (k + 1)
      ⟨k + 1, x.job.platesCapacity, ⟨x.job.plates.size,
        Function.update x.job.plates.cells k (fields strtod lines[k])⟩⟩ rfl
      (Nat.succ_le_of_lt hroom) (Nat.succ_pos k) (by omega) hsize hplates'
    have hadd' : addPlate (memory k)
        (assign strtod name interval diffusivity dimension epsilon x.vars) x.job =
        .ok (checkCapacity (memory k).expansion ⟨k + 1, x.job.platesCapacity, ⟨x.job.plates.size,
          Function.update x.job.plates.cells k (fields strtod lines[k])⟩⟩) := by
      rw [hadd, hcount, Nat.mod_eq_of_lt (by omega), hplate]
      rfl
    obtain ⟨job, hjob, hstored⟩ | ⟨hbad, code, hjob⟩ := hstored
    · rw [hjob] at hadd'
      exact Or.inl ⟨_, readPlate_again hcount hscan hadd', hstored, hbuffer, hrest'⟩
    · rw [hjob] at hadd'
      refine Or.inr ⟨fun ha => ?_, code, readPlate_failed hcount hscan hadd'⟩
      rw [ha] at hbad
      cases hbad
  · exact Or.inr ⟨hbad, code, readPlate_failed hcount hscan hadd⟩

theorem Read.finish {lines : List (List Char)} {x : Reading δ}
    (h : Read strtod lines lines.length x) :
    readPlate strtod memory x = .ok (.finished x.job) := by
  have hrest := h.rest
  rw [List.drop_length, List.flatMap_nil] at hrest
  rw [readPlate, format, scanf_string_nil hrest]
  rfl

theorem readPlates_again {x y : Reading δ} (h : readPlate strtod memory x = .ok (.again y)) :
    readPlates strtod memory x = readPlates strtod memory y := by
  rw [readPlates]
  split
  next z hz =>
    obtain rfl := Round.again.inj (Except.ok.inj (hz.symm.trans h))
    rfl
  next hz => cases hz.symm.trans h
  next hz => cases hz.symm.trans h
  next hz => cases hz.symm.trans h

theorem readPlates_finished {x : Reading δ} {job : Job δ}
    (h : readPlate strtod memory x = .ok (.finished job)) :
    readPlates strtod memory x = .ok (.ok job) := by
  rw [readPlates]
  split
  next hz => cases hz.symm.trans h
  next hz =>
    obtain rfl := Round.finished.inj (Except.ok.inj (hz.symm.trans h))
    rfl
  next hz => cases hz.symm.trans h
  next hz => cases hz.symm.trans h

theorem readPlates_failed {x : Reading δ} {code : ErrorCode}
    (h : readPlate strtod memory x = .ok (.failed code)) :
    readPlates strtod memory x = .ok (.error code) := by
  rw [readPlates]
  split
  next hz => cases hz.symm.trans h
  next hz => cases hz.symm.trans h
  next hz =>
    obtain rfl := Round.failed.inj (Except.ok.inj (hz.symm.trans h))
    rfl
  next hz => cases hz.symm.trans h

section Lines

variable [Zero δ] {text : List Char}

theorem rounds_read (strtod : List Char → δ) (hlines : ∀ line ∈ jobLines text, WellFormed line)
    (hmem : AllocationsSucceed memory (jobLines text).length) {k : ℕ}
    (hk : k ≤ (jobLines text).length) : ∃ x, rounds strtod memory text k = .ok (.again x) ∧
      Read strtod (jobLines text) k x ∧
      readPlates strtod memory (start text) = readPlates strtod memory x := by
  induction k with
  | zero => exact ⟨start text, rfl, read_start strtod text, rfl⟩
  | succ k ih =>
    obtain ⟨x, hx, hread, heq⟩ := ih (by omega)
    have happart := hmem.apart
    obtain ⟨y, hy, hread'⟩ := (hread.step memory (by omega) (hlines _ (List.getElem_mem _))
      (by omega)).resolve_right fun hbad => hbad.1 (hmem.succeed k)
    refine ⟨y, ?_, hread', heq.trans (readPlates_again hy)⟩
    rw [rounds, hx]
    exact hy

/-- A file of well-formed lines gives their plates; before every store there is a free place, and
the plates stored before are still there. -/
theorem set_job_reads (strtod : List Char → δ) (memory : ℕ → Allocations) (text : List Char)
    (hlines : ∀ line ∈ jobLines text, WellFormed line)
    (hmem : AllocationsSucceed memory (jobLines text).length) :
    (∃ job, setJob strtod memory (some text) = .ok (.ok job) ∧
      job.platesCount = (jobLines text).length ∧
      ∀ i < (jobLines text).length,
        job.plates.cells i = (jobLines text)[i]?.bind (fields strtod)) ∧
    ∀ k ≤ (jobLines text).length, ∃ x, rounds strtod memory text k = .ok (.again x) ∧
      x.job.platesCount = k ∧ x.job.platesCount < x.job.platesCapacity ∧
      x.job.plates.size = x.job.platesCapacity ∧
      ∀ i < k, x.job.plates.cells i = (jobLines text)[i]?.bind (fields strtod) := by
  constructor
  · obtain ⟨x, -, hread, heq⟩ := rounds_read strtod hlines hmem le_rfl
    refine ⟨x.job, ?_, hread.stored.count, hread.stored.plates⟩
    exact heq.trans (readPlates_finished hread.finish)
  · intro k hk
    obtain ⟨x, hx, ⟨⟨hcount, hroom, hsize, hplates⟩, -, -⟩, -⟩ :=
      rounds_read strtod hlines hmem hk
    exact ⟨x, hx, hcount, hcount ▸ hroom, hsize, hplates⟩

omit [Zero δ] in
theorem addPlate_ok {v : Variables δ} {job : Job δ} {r : Except ErrorCode (Job δ)}
    (h : addPlate ⟨true, true, true⟩ v job = .ok r) : ∃ job', r = .ok job' := by
  simp only [addPlate, Bool.true_eq_false, if_false, bind, Except.bind] at h
  split at h
  next => cases h
  next plates _ =>
    cases h
    unfold checkCapacity
    split_ifs
    · exact ⟨_, rfl⟩
    · exact ⟨_, rfl⟩

omit [Zero δ] in
theorem readPlate_ne_failed (hmem : ∀ i, memory i = ⟨true, true, true⟩) (x : Reading δ)
    (code : ErrorCode) : readPlate strtod memory x ≠ .ok (.failed code) := by
  intro h
  simp only [readPlate, hmem, bind, Except.bind] at h
  split at h
  next => cases h
  next =>
    split_ifs at h
    · split at h
      next => cases h
      next r hr =>
        obtain ⟨job, rfl⟩ := addPlate_ok hr
        cases h
    · cases h

omit [Zero δ] in
theorem readPlates_ne_error (hmem : ∀ i, memory i = ⟨true, true, true⟩) (x : Reading δ)
    (code : ErrorCode) : readPlates strtod memory x ≠ .ok (.error code) := by
  induction x using readPlates.induct strtod memory with
  | case1 x y hy ih => rwa [readPlates_again hy]
  | case2 x job hjob =>
    rw [readPlates_finished hjob]
    intro h
    cases h
  | case3 x code' hcode => exact absurd hcode (readPlate_ne_failed hmem x code')
  | case4 x e he =>
    rw [readPlates]
    split
    next hz => cases hz.symm.trans he
    next hz => cases hz.symm.trans he
    next hz => cases hz.symm.trans he
    next => exact fun h => nomatch h

/-- Whichever allocations fail: no word leaves the buffer, a job is accepted only with the plates
of all lines, and a line that is not well formed is reported. -/
structure Checked (strtod : List Char → δ) (text : List Char) : Prop where
  bounded : ∀ memory, ∃ result, setJob strtod memory (some text) = .ok result
  complete : ∀ memory job, setJob strtod memory (some text) = .ok (.ok job) →
    job.platesCount = (jobLines text).length ∧
      ∀ i < (jobLines text).length, job.plates.cells i = (jobLines text)[i]?.bind (fields strtod)
  reported : ∀ memory, (∃ line ∈ jobLines text, ¬ WellFormed line) →
    ∃ code, setJob strtod memory (some text) = .ok (.error code)

omit [Zero δ] in
theorem Read.result (memory : ℕ → Allocations) {lines : List (List Char)}
    (hlines : ∀ line ∈ lines, WellFormed line)
    (hmem : 16 * lines.length < 2 ^ 64) {k : ℕ} (hk : k ≤ lines.length) {x : Reading δ}
    (h : Read strtod lines k x) :
    (∃ job, readPlates strtod memory x = .ok (.ok job) ∧ job.platesCount = lines.length ∧
      ∀ i < lines.length, job.plates.cells i = lines[i]?.bind (fields strtod)) ∨
      ∃ code, readPlates strtod memory x = .ok (.error code) := by
  obtain rfl | hlt := hk.eq_or_lt
  · exact Or.inl ⟨x.job, readPlates_finished h.finish, h.stored.count, h.stored.plates⟩
  · obtain ⟨y, hy, hread⟩ | ⟨-, code, hcode⟩ :=
      h.step memory hlt (hlines _ (List.getElem_mem _)) hmem
    · rw [readPlates_again hy]
      exact hread.result memory hlines hmem hlt
    · exact Or.inr ⟨code, readPlates_failed hcode⟩
termination_by lines.length - k

theorem WellFormed.length_le {line : List Char} (h : WellFormed line) : 9 ≤ line.length := by
  obtain ⟨name, interval, diffusivity, dimension, epsilon, hwords, -⟩ := h
  have hlen := length_words line
  rw [hwords] at hlen
  simp only [List.length_cons, List.length_nil] at hlen
  omega

theorem length_jobLines {text : List Char} (hlines : ∀ line ∈ jobLines text, WellFormed line) :
    10 * (jobLines text).length ≤ text.length + 1 := by
  refine length_filter_splitOnP fun line hline hw => ?_
  have hmem : line ∈ jobLines text := List.mem_filter.mpr ⟨hline, hw⟩
  have := (hlines line hmem).length_le
  omega

/-- A file, whose size is an `off_t`, is checked if and only if there is nothing to report: all its
lines are well formed. -/
theorem checked_iff (strtod : List Char → δ) (text : List Char) (hsize : text.length < 2 ^ 63) :
    Checked strtod text ↔ ∀ line ∈ jobLines text, WellFormed line := by
  constructor
  · intro h line hline
    by_contra hbad
    obtain ⟨code, hcode⟩ := h.reported (fun _ => ⟨true, true, true⟩) ⟨line, hline, hbad⟩
    exact readPlates_ne_error (fun _ => rfl) _ code hcode
  · intro hlines
    have hlength := length_jobLines hlines
    have hresult : ∀ memory, _ := fun memory =>
      (read_start strtod text).result memory hlines (by omega) (Nat.zero_le _)
    refine ⟨fun memory => ?_, fun memory job hjob => ?_, fun memory hbad => ?_⟩
    · obtain ⟨job, hjob, -⟩ | ⟨code, hcode⟩ := hresult memory
      · exact ⟨_, hjob⟩
      · exact ⟨_, hcode⟩
    · obtain ⟨job', hjob', hplates⟩ | ⟨code, hcode⟩ := hresult memory
      · obtain rfl := Except.ok.inj (Except.ok.inj (hjob'.symm.trans hjob))
        exact hplates
      · exact absurd (Except.ok.inj (hcode.symm.trans hjob)) (fun h => nomatch h)
    · obtain ⟨line, hline, hbad⟩ := hbad
      exact absurd (hlines line hline) hbad

end Lines

def plenty : ℕ → Allocations := fun _ => ⟨true, true, true⟩

/-- One plate, with numbers that are integers. -/
def plateText : List Char := "plate000.bin\t1\t50 1000 2\n".toList

theorem plateText_lines : jobLines plateText = ["plate000.bin\t1\t50 1000 2".toList] := by
  decide

theorem plateText_wellFormed : ∀ line ∈ jobLines plateText, WellFormed line := by
  rw [plateText_lines]
  intro line hline
  obtain rfl := List.mem_singleton.mp hline
  have hdigits : ∀ c ∈ "1".toList, c.isDigit = true := by
    intro c hc
    obtain rfl := List.mem_singleton.mp hc
    rfl
  have hvalue : digitsValue "1".toList < 2 ^ 64 := by
    rw [show digitsValue "1".toList = 1 by decide]
    norm_num
  exact ⟨"plate000.bin".toList, "1".toList, "50".toList, "1000".toList, "2".toList, by decide,
    by decide, by decide, hdigits, hvalue, by decide, by decide, by decide⟩

/-- More plates than the array has room for at first. -/
def sixtyText : List Char := (List.replicate 60 plateText).flatten

theorem sixtyText_lines :
    jobLines sixtyText = List.replicate 60 "plate000.bin\t1\t50 1000 2".toList := by
  decide +kernel

theorem sixtyText_wellFormed : ∀ line ∈ jobLines sixtyText, WellFormed line := by
  rw [sixtyText_lines]
  intro line hline
  obtain rfl := List.eq_of_mem_replicate hline
  exact plateText_wellFormed _ (by rw [plateText_lines]; exact List.mem_singleton_self _)

theorem sixtyText_succeed : AllocationsSucceed plenty (jobLines sixtyText).length := by
  rw [sixtyText_lines, List.length_replicate]
  exact ⟨fun _ => rfl, by norm_num⟩

theorem set_job_reads_sixty :
    (∃ job, setJob digitsValue plenty (some sixtyText) = .ok (.ok job) ∧ job.platesCount = 60 ∧
      ∀ i < 60, job.plates.cells i = (jobLines sixtyText)[i]?.bind (fields digitsValue)) ∧
    ∃ x, rounds digitsValue plenty sixtyText 60 = .ok (.again x) ∧ x.job.platesCount = 60 ∧
      60 < x.job.platesCapacity ∧ x.job.plates.size = x.job.platesCapacity := by
  obtain ⟨hjob, hrounds⟩ :=
    set_job_reads digitsValue plenty sixtyText sixtyText_wellFormed sixtyText_succeed
  have hlength : (jobLines sixtyText).length = 60 := by
    rw [sixtyText_lines, List.length_replicate]
  rw [hlength] at hjob hrounds
  obtain ⟨x, hx, hcount, hcapacity, hsize, -⟩ := hrounds 60 le_rfl
  exact ⟨hjob, x, hx, hcount, hcount ▸ hcapacity, hsize⟩

theorem checked_plateText : Checked digitsValue plateText ↔
    ∀ line ∈ jobLines plateText, WellFormed line :=
  checked_iff digitsValue plateText (by decide)

def shortText : List Char := "plate000.bin\t1\t50 1000\n".toList

theorem shortText_lines : jobLines shortText = ["plate000.bin\t1\t50 1000".toList] := by
  decide

/-- The loop ends as at the end of the file, with an error for no line. -/
theorem not_checked_shortText : ¬ Checked digitsValue shortText := by
  intro h
  have hwords : words "plate000.bin\t1\t50 1000".toList =
      ["plate000.bin".toList, "1".toList, "50".toList, "1000".toList] := by decide
  have hbad : ¬ WellFormed "plate000.bin\t1\t50 1000".toList := by
    rintro ⟨name, interval, diffusivity, dimension, epsilon, hw, -⟩
    have hlength := congrArg List.length (hwords.symm.trans hw)
    cases hlength
  obtain ⟨code, hcode⟩ := h.reported plenty
    ⟨_, by rw [shortText_lines]; exact List.mem_singleton_self _, hbad⟩
  exact readPlates_ne_error (fun _ => rfl) _ code hcode

end Concurrente.OmpMpi.SetJob
