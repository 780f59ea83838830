import Radmind.Lcksum.Run

/-!
# A bad line with `-n -a`

With `-a` the check is to go on behind a bad line.  The label `badline` closes the stream and
jumps back into the loop, which finds no further line.
-/

namespace Radmind

section

variable (cfg : LcksumConfig)

/-- What is to be found at each line: behind a bad line what is found if it is not there.  Only
the end of the run is an end of the check. -/
def allLines : List (List Byte) → LcksumState → List LineReport
  | [], _ => []
  | tline :: f, st =>
    match lcksumLine cfg st tline with
    | (report, st') =>
      match report.ended with
      | .done => report :: allLines f st'
      | .badline => report :: allLines f { st with linenum := st.linenum + 1 }
      | .exits => [report]

/-- Neither bad nor wrong. -/
def LineReport.fine (report : LineReport) : Bool := report.ended = .done && report.reports = []

/-- Every line is examined, and the transcript is verified exactly if all of them are fine. -/
structure ChecksAll (input : List Byte) : Prop where
  examined : (doLcksum cfg input).1 = allLines cfg (fileLines input) .start
  verified : (doLcksum cfg input).2 = .verified ↔
    ∀ report ∈ allLines cfg (fileLines input) .start, report.fine = true

/-- No line stands behind one that is bad. -/
def BadIsLast (input : List Byte) : Prop :=
  ∀ i report, (allLines cfg (fileLines input) .start)[i]? = some report →
    report.ended = .badline → i + 1 = (fileLines input).length

end

/-- A line that is done has set the exit value if something was wrong. -/
def Marks (st : LcksumState) (r : LineReport × LcksumState) : Prop :=
  r.1.ended = .done → r.2.exitval = (st.exitval || r.1.reports ≠ [])

section

variable {cfg : LcksumConfig} (hcheck : cfg.updatetran = false)

include hcheck

theorem lcksumCompare_exitval (wrong : Bool) (report update : LcksumReport) (st : LcksumState) :
    (lcksumCompare cfg wrong report update st).2.exitval =
      (st.exitval || (lcksumCompare cfg wrong report update st).1 ≠ []) := by
  unfold lcksumCompare
  rw [hcheck]
  cases wrong <;> simp

theorem copy_exitval (st : LcksumState) (line : CStr) :
    (st.copy cfg line).exitval = st.exitval := by
  rw [LcksumState.copy, hcheck]
  rfl

omit hcheck in
/-- A line that is not done sets nothing that is said of one that is. -/
theorem marks_of_ended {st st' : LcksumState} {reports : List LcksumReport} {ended : BodyEnd}
    (h : ended ≠ .done) : Marks st (⟨reports, ended⟩, st') := fun hdone => absurd hdone h

theorem marks_copy {st st' : LcksumState} (h : st'.exitval = st.exitval) (line : CStr) :
    Marks st (⟨[], .done⟩, st'.copy cfg line) := by
  intro _
  rw [copy_exitval hcheck, h]
  simp

theorem lcksumOpened_marks (st : LcksumState) (line dPath : CStr) (file : ServerFile)
    (stMtime stSize : BitVec 64) (cksumsize : Int)
    (lcksum type name mode uid gid mtime size cksum : CStr) :
    Marks st (lcksumOpened cfg st line dPath file stMtime stSize cksumsize lcksum
      type name mode uid gid mtime size cksum) := by
  unfold lcksumOpened
  simp only
  split_ifs
  · exact marks_of_ended (by decide)
  · exact marks_of_ended (by decide)
  · exact marks_of_ended (by decide)
  · intro _
    simp [copy_exitval hcheck, lcksumCompare_exitval hcheck, Bool.or_assoc]
  · intro _
    simp [copy_exitval hcheck, lcksumCompare_exitval hcheck, Bool.or_assoc]

theorem lcksumFile_marks (st : LcksumState) (line dPath : CStr) (targv : List CStr) :
    Marks st (lcksumFile cfg st line dPath targv) := by
  unfold lcksumFile
  split
  · simp only
    split_ifs
    · exact marks_of_ended (by decide)
    split
    · exact marks_of_ended (by decide)
    split
    · exact marks_of_ended (by decide)
    split
    · exact marks_of_ended (by decide)
    · exact lcksumOpened_marks hcheck _ _ _ _ _ _ _ _ _ _ _ _ _ _ _ _
  · exact marks_of_ended (by decide)

theorem lcksumEntry_marks (st : LcksumState) (line : CStr) (remove : Bool)
    (targv : List (List Byte)) : Marks st (lcksumEntry cfg st line remove targv) := by
  unfold lcksumEntry
  split
  · split
    · exact marks_of_ended (by decide)
    simp only
    split_ifs
    · exact marks_of_ended (by decide)
    · exact marks_copy hcheck (by rfl) _
    · exact marks_of_ended (by decide)
    · exact marks_copy hcheck (by rfl) _
    · exact lcksumFile_marks hcheck _ _ _ _
  · exact marks_of_ended (by decide)

theorem lcksumLine_marks (st : LcksumState) (tline : List Byte) :
    Marks st (lcksumLine cfg st tline) := by
  unfold lcksumLine
  simp only
  split_ifs
  · exact marks_of_ended (by decide)
  split
  · exact marks_copy hcheck (by rfl) _
  split_ifs
  · exact marks_copy hcheck (by rfl) _
  · exact marks_of_ended (by decide)
  · exact lcksumEntry_marks hcheck _ _ _ _
  · exact lcksumEntry_marks hcheck _ _ _ _

end

/-- Only a bad line closes the stream. -/
theorem lcksumLoop_closed {cfg : LcksumConfig} {f : List (List Byte)} {st st' : LcksumState}
    (h : (lcksumLoop cfg f st).2 = some (st', true)) : st'.exitval = true := by
  induction f generalizing st with
  | nil => cases h
  | cons tline f ih =>
    rw [lcksumLoop] at h
    generalize lcksumLine cfg st tline = r at h
    obtain ⟨⟨reports, ended⟩, st₁⟩ := r
    cases ended with
    | done =>
      simp only at h
      split_ifs at h
      exact ih h
    | badline =>
      simp only at h
      split_ifs at h
      cases h
      rfl
    | exits => cases h

section

variable {cfg : LcksumConfig} (hcheck : cfg.updatetran = false)

include hcheck

/-- What a run ends with: with no closed stream, and the exit value as it was, exactly if all
lines are fine. -/
theorem lcksumLoop_fine (f : List (List Byte)) (st : LcksumState) :
    (∃ st', (lcksumLoop cfg f st).2 = some (st', false) ∧ st'.exitval = false) ↔
      st.exitval = false ∧ ∀ report ∈ allLines cfg f st, report.fine = true := by
  induction f generalizing st with
  | nil => simp [lcksumLoop, allLines]
  | cons tline f ih =>
    have hmarks := lcksumLine_marks hcheck st tline
    rw [lcksumLoop, allLines]
    generalize lcksumLine cfg st tline = r at hmarks ⊢
    obtain ⟨⟨reports, ended⟩, st₁⟩ := r
    simp only
    cases ended with
    | done =>
      simp only [hcheck, Bool.false_and, Bool.false_eq_true, if_false, List.forall_mem_cons]
      have hexit := hmarks rfl
      rw [ih, hexit]
      simp [LineReport.fine, and_assoc]
    | badline =>
      have hnot : LineReport.fine ⟨reports, .badline⟩ = false := rfl
      simp only [List.forall_mem_cons, hnot]
      split_ifs <;> simp
    | exits =>
      have hnot : LineReport.fine ⟨reports, .exits⟩ = false := rfl
      simp [hnot]

/-- All lines are examined exactly where no line stands behind a bad one. -/
theorem lcksumLoop_examined (hall : cfg.checkall = true) (f : List (List Byte))
    (st : LcksumState) :
    (lcksumLoop cfg f st).1 = allLines cfg f st ↔
      ∀ i report, (allLines cfg f st)[i]? = some report → report.ended = .badline →
        i + 1 = f.length := by
  induction f generalizing st with
  | nil => simp [lcksumLoop, allLines]
  | cons tline f ih =>
    rw [lcksumLoop, allLines]
    generalize lcksumLine cfg st tline = r
    obtain ⟨⟨reports, ended⟩, st₁⟩ := r
    simp only
    cases ended with
    | done =>
      simp only [hcheck, Bool.false_and, Bool.false_eq_true, if_false, List.cons.injEq, true_and]
      rw [ih]
      constructor
      · intro h i report hi hbad
        cases i with
        | zero =>
          cases hi
          cases hbad
        | succ i =>
          rw [List.length_cons, h i report hi hbad]
      · intro h i report hi hbad
        have hlength := h (i + 1) report hi hbad
        exact Nat.succ.inj hlength
    | badline =>
      have hgo : (cfg.checkall && !cfg.updatetran) = true := by simp [hall, hcheck]
      rw [if_pos hgo]
      simp only [List.cons.injEq, true_and]
      cases f with
      | nil =>
        refine ⟨fun _ i report hi _ => ?_, fun _ => rfl⟩
        cases i with
        | zero => rfl
        | succ i => simp [allLines] at hi
      | cons tline' f =>
        -- something is found at the line behind
        have hne : allLines cfg (tline' :: f) { st with linenum := st.linenum + 1 } ≠ [] := by
          rw [allLines]
          simp only
          split <;> simp
        refine ⟨fun h => absurd h.symm hne, fun h => ?_⟩
        have hlength := h 0 _ rfl rfl
        simp at hlength
    | exits =>
      simp only [true_iff]
      intro i report hi hbad
      cases i with
      | zero =>
        cases hi
        cases hbad
      | succ i => simp at hi

end

/-- With `-n -a` every line is examined and counts exactly where no line stands behind a bad
one. -/
theorem lcksum_checksAll {cfg : LcksumConfig} (hcheck : cfg.updatetran = false)
    (hall : cfg.checkall = true) (input : List Byte) :
    ChecksAll cfg input ↔ BadIsLast cfg input := by
  have hverified : (doLcksum cfg input).2 = .verified ↔
      ∀ report ∈ allLines cfg (fileLines input) .start, report.fine = true := by
    have hfine := lcksumLoop_fine hcheck (fileLines input) .start
    rw [show LcksumState.start.exitval = false from rfl, eq_self, true_and] at hfine
    rw [← hfine, doLcksum]
    cases hrun : lcksumLoop cfg (fileLines input) .start with
    | mk reports r =>
      cases r with
      | none => simp
      | some r =>
        obtain ⟨st', closed⟩ := r
        cases closed with
        | false => cases hexit : st'.exitval <;> simp [hcheck, hexit]
        | true =>
          have hexit : st'.exitval = true := lcksumLoop_closed (congrArg Prod.snd hrun)
          cases cfg.recloses <;> simp [hcheck, hexit]
  have hexamined : (doLcksum cfg input).1 = allLines cfg (fileLines input) .start ↔
      BadIsLast cfg input := by
    rw [BadIsLast, ← lcksumLoop_examined hcheck hall, doLcksum]
    split <;> next heq => rw [heq]
  exact ⟨fun h => hexamined.mp h.examined, fun h => ⟨hexamined.mpr h, hverified⟩⟩

/-- `lcksum -n -a` where the server has no files. -/
def checkAllConfig : LcksumConfig where
  caseSensitive := true
  checkall := true
  checkapplefile := false
  updatetran := false
  pathPrefix := none
  fileRoot := lit "/var/radmind/file"
  tranName := lit "base.T"
  digest content := content
  server _ := none
  recloses := true

/-- A line with a missing file, and one behind it. -/
def badTranscript : List Byte := lit "f /a 0644 0 0 1 2 x\nf /b 0644 0 0 1 2 x\n"

theorem lcksum_checksAll_bad :
    ChecksAll checkAllConfig badTranscript ↔ BadIsLast checkAllConfig badTranscript :=
  lcksum_checksAll rfl rfl badTranscript

/-- The line behind is not looked at. -/
theorem not_lcksum_checksAll : ¬ ChecksAll checkAllConfig badTranscript := by
  intro h
  have hrun : (doLcksum checkAllConfig badTranscript).1.length = 1 := by decide +kernel
  have hall : (allLines checkAllConfig (fileLines badTranscript) .start).length = 2 := by
    decide +kernel
  rw [h.examined, hall] at hrun
  cases hrun

end Radmind
