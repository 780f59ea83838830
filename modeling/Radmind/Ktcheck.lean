import Radmind.CommandFile
import Radmind.Transcript.Text

/-!
# The special transcript of `ktcheck`

`ktcheck` reads the command files, collects the paths of the 's' lines and asks the
server about each of them.  The answers are the lines of `special.T`.
-/

namespace Radmind

/-- The return values of `check`. -/
inductive Checked
  | current | changed | failed
  deriving DecidableEq, Repr

/-- The settings of `ktcheck` and what it works on.  A check may replace files, so
what a command file holds, and how a check ends, depends on the number of checks
before. -/
structure KtConfig where
  caseSensitive : Bool
  update : Bool
  kdir : CStr
  kfile : Nat → CStr → Option (List Byte)
  check : Nat → CStr → Option CStr → Checked

/-- What ends a run: `changed` is the `exit( 1 )` of a run without updates. -/
inductive KtExit
  | invalidLine (kfile : CStr) (line : Nat)
  | pathTooLong (path : CStr)
  | loop (kfile : CStr) (line : Nat) (path : CStr)
  | checkFailed (type : CStr) (file : Option CStr)
  | systemError (path : CStr)
  | changed
  | outOfFuel
  deriving DecidableEq, Repr

/-- The variables `read_kfile` shares with its caller, and the 's' lines read so far. -/
structure KtState where
  specialList : PathList
  kfileSeen : PathList
  linenum : Nat
  change : Bool
  checks : Nat
  specialLines : List SpecialLine
  deriving DecidableEq, Repr

def KtState.start : KtState := ⟨[], [], 0, false, 0, []⟩

/-- A call of `check` with the switch on its result. -/
def ktCheck (cfg : KtConfig) (type : CStr) (file : Option CStr) (st : KtState) :
    Except KtExit KtState :=
  let st' := { st with checks := st.checks + 1 }
  match cfg.check st.checks type file with
  | .current => .ok st'
  | .changed => if cfg.update then .ok { st' with change := true } else .error .changed
  | .failed => .error (.checkFailed type file)

/-- The case 's' of `read_kfile`. -/
def ktSpecial (cfg : KtConfig) (l : SpecialLine) (st : KtState) : Except KtExit KtState :=
  match specialLine cfg.caseSensitive st.specialList l with
  | none => .error (.systemError (lit "list_insert"))
  | some specialList =>
    .ok { st with specialList := specialList, specialLines := st.specialLines ++ [l] }

/-- The case 'k' of `read_kfile`. -/
def ktCommand (cfg : KtConfig) (readKfile : CStr → KtState → Except KtExit KtState)
    (kfile : CStr) (kline : Nat) (file : CStr) (st : KtState) : Except KtExit KtState :=
  let path := cfg.kdir ++ file
  if path.length ≥ maxPathLen then .error (.pathTooLong path)
  else if listCheck st.kfileSeen path then .error (.loop kfile kline file)
  else
    match listInsertTail st.kfileSeen path with
    | none => .error (.systemError (lit "list_insert_tail"))
    | some kfileSeen =>
      match ktCheck cfg (lit "COMMAND") (some file) { st with kfileSeen := kfileSeen } with
      | .error e => .error e
      | .ok st => readKfile path st

/-- A line of a command file. -/
def ktLine (cfg : KtConfig) (readKfile : CStr → KtState → Except KtExit KtState)
    (kfile : CStr) (kline : Nat) (line : List Byte) (st : KtState) : Except KtExit KtState :=
  let st := { st with linenum := st.linenum + 1 }
  match lineWords line with
  | [] => .ok st
  | word :: av =>
    if word.head? = some hash then .ok st
    else if word.head? = some minus then
      match av with
      | [type, path] =>
        -- skip non-special minus lines
        if type.head? = some 115 then ktSpecial cfg ⟨true, path⟩ st else .ok st
      | _ => .error (.invalidLine kfile kline)
    else
      match av with
      | [file] =>
        match word.head? with
        | some 107 => ktCommand cfg readKfile kfile kline file st
        | some 115 => ktSpecial cfg ⟨false, file⟩ st
        | some 112 | some 110 => ktCheck cfg (lit "TRANSCRIPT") (some file) st
        | _ => .ok st
      | _ => .error (.invalidLine kfile st.linenum)

def ktLines (cfg : KtConfig) (readKfile : CStr → KtState → Except KtExit KtState)
    (kfile : CStr) : Nat → List (List Byte) → KtState → Except KtExit KtState
  | _, [], st => if !cfg.update && st.change then .error .changed else .ok st
  | kline, line :: lines, st =>
    match ktLine cfg readKfile kfile (kline + 1) line st with
    | .error e => .error e
    | .ok st => ktLines cfg readKfile kfile (kline + 1) lines st

/-- `read_kfile` of ktcheck. -/
def ktReadKfile (cfg : KtConfig) : Nat → CStr → KtState → Except KtExit KtState
  | 0, _, _ => .error .outOfFuel
  | fuel + 1, kfile, st =>
    match cfg.kfile st.checks kfile with
    | none => .error (.systemError kfile)
    | some content => ktLines cfg (ktReadKfile cfg fuel) kfile 0 (fileLines content) st

/-- The start of `main`: the base command file is checked and read. -/
def ktRead (cfg : KtConfig) (fuel : Nat) (baseKfile : CStr) : Except KtExit KtState :=
  match ktCheck cfg (lit "COMMAND") none .start with
  | .error e => .error e
  | .ok st => ktReadKfile cfg fuel baseKfile st

/-- `createspecial`: the lines it writes.  `getstat` is the answer to a request, if the
server gives one. -/
def createspecial (getstat : CStr → Option CStr) : PathList → Option (List CStr)
  | [] => some []
  | node :: specialList =>
    let filedesc := lit "SPECIAL " ++ node
    if filedesc.length ≥ 2 * maxPathLen then none
    else
      match getstat filedesc with
      | none => none
      | some stats =>
        if stats.length ≥ maxPathLen then none
        else (createspecial getstat specialList).map (stats :: ·)

/-- The text of `special.T`. -/
def specialText (lines : List CStr) : List Byte := lines.flatMap fun stats => stats ++ [newline]

/-! ## The list that was read -/

/-- `special_list` is the list of the 's' lines. -/
def KtState.Ok (cfg : KtConfig) (st : KtState) : Prop :=
  SpecialList cfg.caseSensitive st.specialLines st.specialList

section

variable {cfg : KtConfig} {st st' : KtState}

theorem ktCheck_ok {type : CStr} {file : Option CStr} (h : st.Ok cfg)
    (hcheck : ktCheck cfg type file st = .ok st') : st'.Ok cfg := by
  unfold ktCheck at hcheck
  simp only at hcheck
  split at hcheck
  · exact (Except.ok.inj hcheck) ▸ h
  · split at hcheck
    · exact (Except.ok.inj hcheck) ▸ h
    · exact absurd hcheck (by simp)
  · exact absurd hcheck (by simp)

theorem ktSpecial_ok {l : SpecialLine} (h : st.Ok cfg) (hl : NulFree l.path)
    (hstep : ktSpecial cfg l st = .ok st') : st'.Ok cfg := by
  unfold ktSpecial at hstep
  split at hstep
  · exact absurd hstep (by simp)
  · next list hlist =>
    obtain rfl := Except.ok.inj hstep
    exact SpecialList.snoc h hl hlist

theorem ktLine_ok {readKfile : CStr → KtState → Except KtExit KtState} {kfile : CStr} {kline : Nat}
    {line : List Byte}
    (hread : ∀ path st st', st.Ok cfg → readKfile path st = .ok st' → st'.Ok cfg) (h : st.Ok cfg)
    (hline : ktLine cfg readKfile kfile kline line st = .ok st') : st'.Ok cfg := by
  have hnul := fun word => @nulFree_of_mem_lineWords line word
  unfold ktLine at hline
  simp only at hline
  split at hline
  · exact (Except.ok.inj hline) ▸ h
  next word av hwords =>
  rw [hwords] at hnul
  split_ifs at hline
  · exact (Except.ok.inj hline) ▸ h
  · split at hline
    · split_ifs at hline
      · exact ktSpecial_ok (l := ⟨true, _⟩) (by exact h) (hnul _ (by simp)) hline
      · exact (Except.ok.inj hline) ▸ h
    · exact absurd hline (by simp)
  · split at hline
    · split at hline
      · unfold ktCommand at hline
        simp only at hline
        split_ifs at hline
        split at hline
        · exact absurd hline (by simp)
        split at hline
        · exact absurd hline (by simp)
        next st₁ hst₁ =>
        exact hread _ _ _ (ktCheck_ok (by exact h) hst₁) hline
      · exact ktSpecial_ok (l := ⟨false, _⟩) (by exact h) (hnul _ (by simp)) hline
      · exact ktCheck_ok (by exact h) hline
      · exact ktCheck_ok (by exact h) hline
      · exact (Except.ok.inj hline) ▸ h
    · exact absurd hline (by simp)

theorem ktLines_ok {readKfile : CStr → KtState → Except KtExit KtState} {kfile : CStr}
    (hread : ∀ path st st', st.Ok cfg → readKfile path st = .ok st' → st'.Ok cfg)
    {kline : Nat} {lines : List (List Byte)} (h : st.Ok cfg)
    (hlines : ktLines cfg readKfile kfile kline lines st = .ok st') : st'.Ok cfg := by
  induction lines generalizing st kline with
  | nil =>
    rw [ktLines] at hlines
    split at hlines
    · exact absurd hlines (by simp)
    · exact (Except.ok.inj hlines) ▸ h
  | cons line lines ih =>
    rw [ktLines] at hlines
    split at hlines
    · exact absurd hlines (by simp)
    · next st₁ hst₁ => exact ih (ktLine_ok hread h hst₁) hlines

theorem ktReadKfile_ok {fuel : Nat} {kfile : CStr} (h : st.Ok cfg)
    (hread : ktReadKfile cfg fuel kfile st = .ok st') : st'.Ok cfg := by
  induction fuel generalizing kfile st st' with
  | zero => exact absurd hread (by simp [ktReadKfile])
  | succ fuel ih =>
    rw [ktReadKfile] at hread
    split at hread
    · exact absurd hread (by simp)
    · exact ktLines_ok (fun path st st' => ih) h hread

theorem ktRead_ok {fuel : Nat} {baseKfile : CStr} (h : ktRead cfg fuel baseKfile = .ok st) :
    st.Ok cfg := by
  unfold ktRead at h
  split at h
  · exact absurd h (by simp)
  · next st₁ hst₁ => exact ktReadKfile_ok (ktCheck_ok (show KtState.Ok cfg .start from .nil) hst₁) h

end

end Radmind
