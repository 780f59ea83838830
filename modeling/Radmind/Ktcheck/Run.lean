import Radmind.Ktcheck.Check

/-!
# A run of ktcheck on the file system

The command files are read and each file they name is checked, then `special.T` is made anew and
compared.  The requests of a run are kept with the file system they met.
-/

namespace Radmind
namespace Ktcheck

open FailingState (Act Meets Moves)

inductive Kind
  | missing | error | directory | file
  deriving DecidableEq

/-- What stands at a path, whatever its size and date. -/
def StatResult.kind : StatResult → Kind
  | .missing => .missing
  | .error => .error
  | .found isDir _ _ => if isDir then .directory else .file

/-- The file system, with what a path leads to: an entry of a directory.  The path of a linked one
leads to an entry of another name too. -/
structure View (σ : Type) extends Os σ where
  Entry : Type
  entry : σ → CStr → Entry
  linked : σ → CStr → Bool

/-- The same object stands at the path, and holds the same. -/
def Os.Same {σ : Type} (os : Os σ) (s s' : σ) (path : CStr) : Prop :=
  (os.stat s' path).kind = (os.stat s path).kind ∧ os.content s' path = os.content s path

/-- Only the entry of the path is touched. -/
structure View.Only {σ : Type} (view : View σ) (path : CStr) (s s' : σ) : Prop where
  entry : view.entry s' = view.entry s
  linked : view.linked s' path = view.linked s path
  same : ∀ p, view.entry s p ≠ view.entry s path → view.toOs.Same s s' p

/-- The calls for a file that is written: `fopen` for writing and `fputs`. -/
structure Disk (σ : Type) extends View σ where
  fopen : CStr → σ → Bool × σ
  fputs : CStr → CStr → σ → Bool × σ
  only_fopen : ∀ s path, linked s path = false → toView.Only path s (fopen path s).2
  only_fputs : ∀ s path text, linked s path = false → toView.Only path s (fputs path text s).2
  only_unlink : ∀ s path, linked s path = false → toView.Only path s (unlink path s).2
  unlinked_missing : ∀ s path, (unlink path s).1 = true →
    stat (unlink path s).2 path = .missing

deriving instance DecidableEq for StatAnswer

structure RunSettings extends Settings where
  caseSensitive : Bool

/-- A request to the server: about a file, with the file system before the check, or about a
special path, with its answer. -/
inductive Request (σ : Type)
  | check (type : CStr) (file : Option CStr) (before : σ)
  | special (path : CStr) (answer : StatAnswer)
  deriving DecidableEq

/-- What a run works on. -/
structure RunState (σ : Type) where
  fs : σ
  st : KtState
  requests : List (Request σ)

/-- How a run ends early. -/
inductive RunEnd
  | ended (e : KtExit)
  | refused
  | lost

abbrev Run (σ α : Type) := Act RunEnd (RunState σ) α

variable {σ : Type} (disk : Disk σ) (cfg : RunSettings) (answers : Nat → Answer)

def RunState.start (s : σ) : RunState σ := ⟨s, .start, []⟩

/-- The state after a check. -/
def RunState.checked (r : RunState σ) (type : CStr) (file : Option CStr) (fs : σ) : RunState σ :=
  ⟨fs, { r.st with checks := r.st.checks + 1 }, r.requests ++ [.check type file r.fs]⟩

/-- The state after a request for a special path. -/
def RunState.asked (r : RunState σ) (path : CStr) (answer : StatAnswer) : RunState σ :=
  { r with requests := r.requests ++ [.special path answer] }

def RunState.changed (r : RunState σ) : RunState σ := { r with st := { r.st with change := true } }

/-- A change that was found: without updates the run ends here. -/
def foundChange : Run σ Unit :=
  if cfg.update then modify RunState.changed else throw (.ended .changed)

/-- The switch on the result of `check`. -/
def onChecked (type : CStr) (file : Option CStr) : Checked → Run σ Unit
  | .current => pure ()
  | .changed => foundChange cfg
  | .failed => throw (.ended (.checkFailed type file))

/-- A call of `check`. -/
def runCheck (type : CStr) (file : Option CStr) : Run σ Unit := do
  let r ← get
  let (c, fs) := (check disk.toOs cfg.toSettings (answers r.requests.length) type file).result r.fs
  set (r.checked type file fs)
  match c with
  | .ok c | .error (.returned c) => onChecked cfg type file c
  | .error .exited => throw .refused

/-- The case 's' of `read_kfile`. -/
def runSpecial (l : SpecialLine) : Run σ Unit := do
  let r ← get
  match specialLine cfg.caseSensitive r.st.specialList l with
  | none => throw (.ended (.systemError (lit "list_insert")))
  | some specialList =>
    set { r with st := { r.st with
      specialList := specialList, specialLines := r.st.specialLines ++ [l] } }

/-- The case 'k' of `read_kfile`. -/
def runCommand (readKfile : CStr → Run σ Unit) (kfile : CStr) (kline : Nat) (file : CStr) :
    Run σ Unit := do
  let path := cfg.kdir ++ file
  FailingState.check (path.length < maxPathLen) (.ended (.pathTooLong path))
  let r ← get
  FailingState.check (!listCheck r.st.kfileSeen path) (.ended (.loop kfile kline file))
  match listInsertTail r.st.kfileSeen path with
  | none => throw (.ended (.systemError (lit "list_insert_tail")))
  | some kfileSeen => do
    set { r with st := { r.st with kfileSeen := kfileSeen } }
    runCheck disk cfg answers (lit "COMMAND") (some file)
    readKfile path

/-- What the first word of a line calls for. -/
def runWord (readKfile : CStr → Run σ Unit) (kfile : CStr) (kline : Nat) (word file : CStr) :
    Run σ Unit :=
  match word.head? with
  | some 107 => runCommand disk cfg answers readKfile kfile kline file
  | some 115 => runSpecial cfg ⟨false, file⟩
  | some 112 | some 110 => runCheck disk cfg answers (lit "TRANSCRIPT") (some file)
  | _ => pure ()

/-- A minus line: only those of special paths count. -/
def runMinus (kfile : CStr) (kline : Nat) : List CStr → Run σ Unit
  | [type, path] => if type.head? = some 115 then runSpecial cfg ⟨true, path⟩ else pure ()
  | _ => throw (.ended (.invalidLine kfile kline))

/-- A line of a command file. -/
def runLine (readKfile : CStr → Run σ Unit) (kfile : CStr) (kline : Nat) (line : List Byte) :
    Run σ Unit := do
  modify fun r => { r with st := { r.st with linenum := r.st.linenum + 1 } }
  match lineWords line with
  | [] => pure ()
  | word :: av =>
    if word.head? = some hash then pure ()
    else if word.head? = some minus then runMinus cfg kfile kline av
    else
      match av with
      | [file] => runWord disk cfg answers readKfile kfile kline word file
      | _ => do
        let r ← get
        throw (.ended (.invalidLine kfile r.st.linenum))

def runLines (readKfile : CStr → Run σ Unit) (kfile : CStr) :
    Nat → List (List Byte) → Run σ Unit
  | _, [] => do
    let r ← get
    FailingState.check (cfg.update || !r.st.change) (.ended .changed)
  | kline, line :: lines => do
    runLine disk cfg answers readKfile kfile (kline + 1) line
    runLines readKfile kfile (kline + 1) lines

/-- `read_kfile` -/
def runKfile : Nat → CStr → Run σ Unit
  | 0, _ => throw (.ended .outOfFuel)
  | fuel + 1, kfile => do
    let r ← get
    match disk.content r.fs kfile with
    | none => throw (.ended (.systemError kfile))
    | some content => runLines disk cfg answers (runKfile fuel) kfile 0 (fileLines content)

/-- A call on the file system that has to succeed. -/
def onDisk (call : σ → Bool × σ) (path : CStr) : Run σ Unit := do
  let r ← get
  set { r with fs := (call r.fs).2 }
  FailingState.check (call r.fs).1 (.ended (.systemError path))

/-- The lines of `createspecial`. -/
def specialLoop (tempfile : CStr) : PathList → Run σ Unit
  | [] => pure ()
  | node :: specialList => do
    let r ← get
    let answer := (answers r.requests.length).stat
    set (r.asked node answer)
    let filedesc := lit "SPECIAL " ++ node
    FailingState.check (filedesc.length < 2 * maxPathLen) (.ended (.pathTooLong filedesc))
    match answer with
    | .lost => throw .lost
    | .refused => throw .refused
    | .stats stats => do
      FailingState.check (stats.length < maxPathLen) .lost
      onDisk (disk.fputs tempfile stats) tempfile
      onDisk (disk.fputs tempfile [newline]) tempfile
      specialLoop tempfile specialList

def RunSettings.specialPath : CStr := cfg.kdir ++ lit "special.T"

def RunSettings.specialTemp : CStr := cfg.specialPath ++ lit "." ++ printInt cfg.pid.toInt

/-- `createspecial` -/
def runCreatespecial (specialList : PathList) : Run σ Unit := do
  FailingState.check (cfg.specialTemp.length < maxPathLen)
    (.ended (.pathTooLong cfg.specialTemp))
  onDisk (disk.fopen cfg.specialTemp) cfg.specialTemp
  specialLoop disk answers cfg.specialTemp specialList

/-- What a file holds, for its checksum. -/
def runContent (path : CStr) : Run σ (List Byte) := do
  let r ← get
  match disk.content r.fs path with
  | none => throw (.ended (.systemError path))
  | some content => pure content

/-- The checksums differ, where they are asked for.  Without them the new one counts as another. -/
def specialDiffers (size tsize : Int) : Run σ Bool :=
  if cfg.cksum then do
    let content ← runContent disk cfg.specialPath
    let tcontent ← runContent disk cfg.specialTemp
    pure (tsize ≠ size ∨ cfg.digest tcontent ≠ cfg.digest content)
  else pure true

/-- The new `special.T` is put in the place of the old one, or removed without updates. -/
def replaceSpecial : Run σ Unit :=
  if cfg.update then onDisk (disk.rename cfg.specialTemp cfg.specialPath) cfg.specialTemp
  else onDisk (disk.unlink cfg.specialTemp) cfg.specialTemp

/-- The part of `main` behind `createspecial`. -/
def compareSpecial : Run σ Unit := do
  FailingState.check (cfg.specialPath.length < maxPathLen)
    (.ended (.pathTooLong cfg.specialPath))
  let r ← get
  match disk.stat r.fs cfg.specialPath with
  | .missing => do
    replaceSpecial disk cfg
    modify RunState.changed
  | .error => throw (.ended (.systemError cfg.specialPath))
  | .found _ size _ =>
    match disk.stat r.fs cfg.specialTemp with
    | .found _ tsize _ => do
      if (← specialDiffers disk cfg size tsize) then
        modify RunState.changed
        replaceSpecial disk cfg
      else onDisk (disk.unlink cfg.specialTemp) cfg.specialTemp
    | _ => throw (.ended (.systemError cfg.specialTemp))

/-- The check of the base command file and of the files it names. -/
def runRead (fuel : Nat) : Run σ Unit := do
  runCheck disk cfg answers (lit "COMMAND") none
  runKfile disk cfg answers fuel cfg.baseKfile

/-- `main` of ktcheck, up to `clean_client_dir`. -/
def ktcheck (fuel : Nat) : Run σ Unit := do
  runRead disk cfg answers fuel
  let r ← get
  if r.st.specialList ≠ [] then
    runCreatespecial disk cfg answers r.st.specialList
    compareSpecial disk cfg
  else pure ()

/-! ## A run without updates -/

/-- The directories above the file are there, and the file is no directory. -/
def Ready (fs : σ) (type : CStr) (file : Option CStr) : Prop :=
  ∀ f, file = some f → Fits cfg.toSettings type file →
    (∀ cut ∈ Mkdirs.cuts f, ∃ size mtime, disk.stat fs (cfg.kdir ++ cut) = .found true size mtime) ∧
      ∀ size mtime, disk.stat fs (cfg.kdir ++ f) ≠ .found true size mtime

/-- The request changes nothing: there is nothing to make and nothing in the way, or the server
gives a line for the special path. -/
def Request.Calm : Request σ → Prop
  | .check type file before => Ready disk cfg before type file
  | .special path answer => (lit "SPECIAL " ++ path).length < 2 * maxPathLen ∧
      ∃ stats, answer = .stats stats ∧ stats.length < maxPathLen

def RunState.Calm (r : RunState σ) : Prop := ∀ q ∈ r.requests, q.Calm disk cfg

/-- Further requests, which leave the file system where they are calm. -/
def RunState.Stays (r r' : RunState σ) : Prop :=
  r.requests <+: r'.requests ∧ (r'.Calm disk cfg → r'.fs = r.fs)

/-- What the directory holds is the same, the temporary file apart, which is gone. -/
def Unchanged (s s' : σ) : Prop :=
  (∀ p, disk.entry s p ≠ disk.entry s cfg.specialTemp → disk.toOs.Same s s' p) ∧
    (disk.toOs.Same s s' cfg.specialTemp ∨ disk.stat s' cfg.specialTemp = .missing)

section

variable {disk cfg answers} {r r' r'' : RunState σ}

theorem RunState.Calm.of_prefix (h : r'.Calm disk cfg) (hpre : r.requests <+: r'.requests) :
    r.Calm disk cfg := fun q hq => h q (hpre.subset hq)

theorem stays_refl (r : RunState σ) : r.Stays disk cfg r := ⟨List.prefix_rfl, fun _ => rfl⟩

theorem stays_trans (h : r.Stays disk cfg r') (h' : r'.Stays disk cfg r'') :
    r.Stays disk cfg r'' :=
  ⟨h.1.trans h'.1, fun hcalm => (h'.2 hcalm).trans (h.2 (hcalm.of_prefix h'.1))⟩

instance : IsPreorder (RunState σ) (RunState.Stays disk cfg) where
  refl := stays_refl
  trans _ _ _ := stays_trans

/-- Nothing but the variables of the run changes. -/
theorem stays_of_eq (hfs : r'.fs = r.fs) (hrequests : r'.requests = r.requests) :
    r.Stays disk cfg r' := ⟨hrequests ▸ List.prefix_rfl, fun _ => hfs⟩

/-- Where the directories stand and nothing is in the way, a file is not touched before the
request. -/
theorem prepare_ready {s : σ} {type : CStr} {file : Option CStr}
    (h : Ready disk cfg s type file) :
    Meets (prepare disk.toOs cfg.toSettings type file) s (fun _ s' => s' = s)
      (fun _ s' => s' = s) := by
  unfold prepare
  refine FailingState.Meets.checked (fun _ => rfl) fun hdesc => ?_
  refine FailingState.Meets.checked (fun _ => rfl) fun hlen => ?_
  cases file with
  | none => exact rfl
  | some file =>
    have hfits : Fits cfg.toSettings type (some file) :=
      ⟨of_decide_eq_true hdesc, of_decide_eq_true hlen⟩
    obtain ⟨hdirs, hpath⟩ := h file rfl hfits
    have hcuts : ∀ t ∈ (Mkdirs.cuts file).map (cfg.kdir ++ ·), t.length < maxPathLen ∧
        ∃ size mtime, disk.stat s t = .found true size mtime := by
      intro t ht
      obtain ⟨cut, hcut, rfl⟩ := List.mem_map.mp ht
      refine ⟨?_, hdirs cut hcut⟩
      have hlen : (cfg.kdir ++ file).length < maxPathLen := hfits.2
      obtain ⟨w, rfl⟩ := Mkdirs.mem_cuts hcut
      simp only [List.length_append, List.length_cons] at hlen ⊢
      omega
    show Meets (checkDirs disk.toOs _ >>= fun _ => clearPath disk.toOs _) s _ _
    rw [FailingState.meets_bind]
    refine (meets_checkDirs hcuts).mono ?_ fun _ _ h => h.elim
    intro _ s' hs'
    subst hs'
    rw [clearPath, FailingState.meets_bind, FailingState.meets_get]
    cases hstat : disk.stat s' (cfg.kdir ++ file) with
    | missing => exact rfl
    | error => exact rfl
    | found isDir size mtime =>
      cases isDir with
      | true => exact absurd hstat (hpath size mtime)
      | false => exact rfl

theorem needUpdate_moves {path : CStr} {targv : List CStr} {size mtime : Int} :
    Moves (fun s s' => s' = s) (needUpdate disk.toOs cfg.toSettings path targv size mtime) := by
  unfold needUpdate
  split
  · exact fun _ => rfl
  split
  · apply Moves.get_bind
    intro s
    split
    · exact rfl
    · exact rfl
  · exact fun _ => rfl

/-- Without updates a check only looks, once what is above the file is there. -/
theorem check_dry (hupdate : cfg.update = false) {answer : Answer} {s : σ} {type : CStr}
    {file : Option CStr} (h : Ready disk cfg s type file) :
    Meets (check disk.toOs cfg.toSettings answer type file) s (fun _ s' => s' = s)
      (fun _ s' => s' = s) := by
  unfold check
  rw [FailingState.meets_bind]
  refine (prepare_ready h).mono ?_ fun _ _ h => h
  intro _ s' hs'
  subst hs'
  rw [FailingState.meets_bind]
  cases hanswer : answer.stat with
  | lost =>
    rw [getstat, hanswer]
    exact rfl
  | refused =>
    rw [getstat, hanswer]
    exact rfl
  | stats line =>
    rw [getstat, hanswer]
    refine FailingState.Meets.checked (fun _ => rfl) fun _ => ?_
    rw [FailingState.meets_pure]
    refine FailingState.Meets.checked (fun _ => rfl) fun _ => ?_
    rw [FailingState.meets_bind, FailingState.meets_get]
    cases disk.stat s' (cfg.path file) with
    | error => exact rfl
    | missing =>
      simp only [hupdate, Bool.false_eq_true, if_false]
      exact rfl
    | found isDir size mtime =>
      simp only
      rw [FailingState.meets_bind]
      refine (needUpdate_moves s').mono ?_ fun _ _ h => h
      intro b s₁ hs₁
      subst hs₁
      simp only [hupdate, Bool.false_eq_true, if_false]
      split
      · exact rfl
      · exact rfl

/-! ### The command files -/

theorem foundChange_moves : Moves (RunState.Stays disk cfg) (foundChange cfg) := by
  unfold foundChange
  split
  · exact .modify fun r => stays_of_eq rfl rfl
  · exact .throw _

theorem onChecked_moves (type : CStr) (file : Option CStr) (c : Checked) :
    Moves (RunState.Stays disk cfg) (onChecked cfg type file c) := by
  cases c with
  | current => exact .pure _
  | changed => exact foundChange_moves
  | failed => exact .throw _

/-- A check is a further request, and a calm one touches nothing. -/
theorem checked_stays (hupdate : cfg.update = false) (r : RunState σ) (type : CStr)
    (file : Option CStr) :
    r.Stays disk cfg (r.checked type file ((check disk.toOs cfg.toSettings
      (answers r.requests.length) type file).result r.fs).2) := by
  refine ⟨List.prefix_append _ _, fun hcalm => ?_⟩
  have hready : Ready disk cfg r.fs type file :=
    hcalm _ (List.mem_append_right _ List.mem_cons_self)
  have hdry : Meets (check disk.toOs cfg.toSettings (answers r.requests.length) type file) r.fs
      (fun _ s' => s' = r.fs) (fun _ s' => s' = r.fs) := check_dry hupdate hready
  unfold Meets at hdry
  rcases hres : (check disk.toOs cfg.toSettings (answers r.requests.length) type file).result r.fs
    with ⟨_ | _, fs⟩
  · rw [hres] at hdry
    exact hdry
  · rw [hres] at hdry
    exact hdry

theorem runCheck_moves (hupdate : cfg.update = false) (type : CStr) (file : Option CStr) :
    Moves (RunState.Stays disk cfg) (runCheck disk cfg answers type file) := by
  unfold runCheck
  apply Moves.get_bind
  intro r
  have hstays : r.Stays disk cfg (r.checked type file ((check disk.toOs cfg.toSettings
      (answers r.requests.length) type file).result r.fs).2) := checked_stays hupdate r type file
  rcases hres : (check disk.toOs cfg.toSettings (answers r.requests.length) type file).result r.fs
    with ⟨c, fs⟩
  rw [hres] at hstays
  rw [FailingState.meets_bind, FailingState.meets_set]
  have hswitch : ∀ c, Meets (onChecked cfg type file c) (r.checked type file fs)
      (fun _ r' => r.Stays disk cfg r') (fun _ r' => r.Stays disk cfg r') := by
    intro c
    exact (onChecked_moves type file c).after hstays
  cases c with
  | ok c => exact hswitch c
  | error e =>
    cases e with
    | returned c => exact hswitch c
    | exited => exact hstays

theorem runSpecial_moves (l : SpecialLine) :
    Moves (RunState.Stays disk cfg) (runSpecial cfg l) := by
  unfold runSpecial
  apply Moves.get_bind
  intro r
  split
  · exact stays_refl r
  · exact stays_of_eq rfl rfl

theorem runCommand_moves (hupdate : cfg.update = false) {readKfile : CStr → Run σ Unit}
    (hread : ∀ kfile, Moves (RunState.Stays disk cfg) (readKfile kfile)) (kfile : CStr)
    (kline : Nat) (file : CStr) :
    Moves (RunState.Stays disk cfg) (runCommand disk cfg answers readKfile kfile kline file) := by
  unfold runCommand
  refine .bind (.check _ _) fun _ => ?_
  apply Moves.get_bind
  intro r
  refine FailingState.Meets.checked (fun _ => stays_refl r) fun _ => ?_
  split
  · exact stays_refl r
  · next kfileSeen _ =>
    rw [FailingState.meets_bind, FailingState.meets_set]
    have hrest : Moves (RunState.Stays disk cfg) (do
        runCheck disk cfg answers (lit "COMMAND") (some file)
        readKfile (cfg.kdir ++ file)) :=
      .bind (runCheck_moves hupdate _ _) fun _ => hread _
    have hstays : r.Stays disk cfg { r with st := { r.st with kfileSeen := kfileSeen } } :=
      stays_of_eq rfl rfl
    exact hrest.after hstays

theorem runWord_moves (hupdate : cfg.update = false) {readKfile : CStr → Run σ Unit}
    (hread : ∀ kfile, Moves (RunState.Stays disk cfg) (readKfile kfile)) (kfile : CStr)
    (kline : Nat) (word file : CStr) :
    Moves (RunState.Stays disk cfg)
      (runWord disk cfg answers readKfile kfile kline word file) := by
  unfold runWord
  split
  · exact runCommand_moves hupdate hread kfile kline file
  · exact runSpecial_moves _
  · exact runCheck_moves hupdate _ _
  · exact runCheck_moves hupdate _ _
  · exact .pure _

theorem runMinus_moves (kfile : CStr) (kline : Nat) (av : List CStr) :
    Moves (RunState.Stays disk cfg) (@runMinus σ cfg kfile kline av) := by
  unfold runMinus
  split
  · split
    · exact runSpecial_moves _
    · exact .pure _
  · exact .throw _

theorem runLine_moves (hupdate : cfg.update = false) {readKfile : CStr → Run σ Unit}
    (hread : ∀ kfile, Moves (RunState.Stays disk cfg) (readKfile kfile)) (kfile : CStr)
    (kline : Nat) (line : List Byte) :
    Moves (RunState.Stays disk cfg)
      (runLine disk cfg answers readKfile kfile kline line) := by
  unfold runLine
  refine .bind (.modify fun r => stays_of_eq rfl rfl) fun _ => ?_
  split
  · exact .pure _
  split_ifs
  · exact .pure _
  · exact runMinus_moves kfile kline _
  split
  · exact runWord_moves hupdate hread kfile kline _ _
  · apply Moves.get_bind
    intro r
    exact stays_refl r

theorem runLines_moves (hupdate : cfg.update = false) {readKfile : CStr → Run σ Unit}
    (hread : ∀ kfile, Moves (RunState.Stays disk cfg) (readKfile kfile)) (kfile : CStr)
    (kline : Nat) (lines : List (List Byte)) :
    Moves (RunState.Stays disk cfg)
      (runLines disk cfg answers readKfile kfile kline lines) := by
  induction lines generalizing kline with
  | nil =>
    rw [runLines]
    apply Moves.get_bind
    intro r
    exact Moves.check _ _ r
  | cons line lines ih =>
    rw [runLines]
    exact .bind (runLine_moves hupdate hread kfile (kline + 1) line)
      fun _ => ih (kline + 1)

/-- However deep the command files go, reading them is no more than the requests. -/
theorem runKfile_moves (hupdate : cfg.update = false) (fuel : Nat) (kfile : CStr) :
    Moves (RunState.Stays disk cfg) (runKfile disk cfg answers fuel kfile) := by
  induction fuel generalizing kfile with
  | zero => exact .throw _
  | succ fuel ih =>
    rw [runKfile]
    apply Moves.get_bind
    intro r
    split
    · exact stays_refl r
    · exact runLines_moves hupdate ih kfile 0 _ r

theorem runRead_moves (hupdate : cfg.update = false) (fuel : Nat) :
    Moves (RunState.Stays disk cfg) (runRead disk cfg answers fuel) :=
  .bind (runCheck_moves hupdate _ _) fun _ => runKfile_moves hupdate fuel _

/-! ### The special transcript -/

theorem View.Only.refl {view : View σ} {path : CStr} (s : σ) : view.Only path s s :=
  ⟨rfl, rfl, fun _ _ => ⟨rfl, rfl⟩⟩

theorem Os.Same.trans {os : Os σ} {s s' s'' : σ} {path : CStr} (h : os.Same s s' path)
    (h' : os.Same s' s'' path) : os.Same s s'' path :=
  ⟨h'.1.trans h.1, h'.2.trans h.2⟩

theorem View.Only.trans {view : View σ} {path : CStr} {s s' s'' : σ} (h : view.Only path s s')
    (h' : view.Only path s' s'') : view.Only path s s'' where
  entry := h'.entry.trans h.entry
  linked := h'.linked.trans h.linked
  same p hp := (h.same p hp).trans (h'.same p (by rw [h.entry]; exact hp))

variable (disk cfg) in
/-- Further requests, and nothing but the temporary file is touched where it has its own name. -/
def RunState.Apart (r r' : RunState σ) : Prop :=
  r.requests <+: r'.requests ∧ (disk.linked r.fs cfg.specialTemp = false →
    disk.toView.Only cfg.specialTemp r.fs r'.fs)

theorem apart_of_eq (hfs : r'.fs = r.fs) (hrequests : r.requests <+: r'.requests) :
    r.Apart disk cfg r' :=
  ⟨hrequests, fun _ => by rw [hfs]; exact .refl r.fs⟩

instance : IsPreorder (RunState σ) (RunState.Apart disk cfg) where
  refl _ := apart_of_eq rfl List.prefix_rfl
  trans _ _ _ h h' := ⟨h.1.trans h'.1, fun hlinked =>
    (h.2 hlinked).trans (h'.2 ((h.2 hlinked).linked.trans hlinked))⟩

theorem meets_onDisk {call : σ → Bool × σ} {path : CStr} {post : Unit → RunState σ → Prop}
    {fail : RunEnd → RunState σ → Prop} : Meets (onDisk call path) r post fail ↔
      if (call r.fs).1 then post () { r with fs := (call r.fs).2 }
      else fail (.ended (.systemError path)) { r with fs := (call r.fs).2 } := by
  rw [onDisk, FailingState.meets_bind, FailingState.meets_get, FailingState.meets_bind,
    FailingState.meets_set, FailingState.meets_check]

theorem onDisk_apart {call : σ → Bool × σ} {path : CStr} (hcall : ∀ s,
    disk.linked s cfg.specialTemp = false → disk.toView.Only cfg.specialTemp s (call s).2) :
    Moves (RunState.Apart disk cfg) (onDisk call path) := by
  intro r
  have h : r.Apart disk cfg { r with fs := (call r.fs).2 } :=
    ⟨List.prefix_rfl, fun hlinked => hcall r.fs hlinked⟩
  rw [meets_onDisk]
  split
  · exact h
  · exact h

/-- A call that fails is a system error. -/
theorem onDisk_error (call : σ → Bool × σ) (path : CStr) (r : RunState σ) :
    Meets (onDisk call path) r (fun _ r' => r'.requests = r.requests)
      (fun e r' => r'.requests = r.requests ∧ ∃ path, e = .ended (.systemError path)) := by
  rw [meets_onDisk]
  split
  · exact rfl
  · exact ⟨rfl, path, rfl⟩

theorem specialLoop_apart (specialList : PathList) :
    Moves (RunState.Apart disk cfg) (specialLoop disk answers cfg.specialTemp specialList) := by
  induction specialList with
  | nil => exact .pure _
  | cons node specialList ih =>
    rw [specialLoop]
    apply Moves.get_bind
    intro r
    simp only
    rw [FailingState.meets_bind, FailingState.meets_set]
    have hasked : r.Apart disk cfg (r.asked node (answers r.requests.length).stat) :=
      apart_of_eq rfl (List.prefix_append _ _)
    refine Moves.after (.bind (.check _ _) fun _ => ?_) hasked
    split
    · exact .throw _
    · exact .throw _
    · refine .bind (.check _ _) fun _ => ?_
      refine .bind (onDisk_apart fun s => disk.only_fputs s _ _) fun _ => ?_
      exact .bind (onDisk_apart fun s => disk.only_fputs s _ _) fun _ => ih

/-- With calm requests only the system ends the loop early. -/
theorem specialLoop_error (specialList : PathList) (r : RunState σ) :
    Meets (specialLoop disk answers cfg.specialTemp specialList) r
      (fun _ r' => r.requests <+: r'.requests)
      (fun e r' => r.requests <+: r'.requests ∧
        (r'.Calm disk cfg → ∃ path, e = .ended (.systemError path))) := by
  induction specialList generalizing r with
  | nil => exact List.prefix_rfl
  | cons node specialList ih =>
    rw [specialLoop, FailingState.meets_bind, FailingState.meets_get]
    simp only
    rw [FailingState.meets_bind, FailingState.meets_set]
    have hpre : r.requests <+: (r.asked node (answers r.requests.length).stat).requests :=
      List.prefix_append _ _
    have hask : ∀ r' : RunState σ,
        (r.asked node (answers r.requests.length).stat).requests <+: r'.requests →
        r'.Calm disk cfg → (Request.special node (answers r.requests.length).stat).Calm disk cfg :=
      fun r' hr' hcalm => hcalm _ (hr'.subset (List.mem_append_right _ List.mem_cons_self))
    refine FailingState.Meets.checked (fun hno => ⟨hpre, fun hcalm => ?_⟩) fun _ => ?_
    · exact absurd (hask _ List.prefix_rfl hcalm).1 (of_decide_eq_false hno)
    cases hanswer : (answers r.requests.length).stat with
    | lost =>
      rw [hanswer] at hask hpre
      refine ⟨hpre, fun hcalm => ?_⟩
      obtain ⟨-, stats, hstats, -⟩ := hask _ List.prefix_rfl hcalm
      cases hstats
    | refused =>
      rw [hanswer] at hask hpre
      refine ⟨hpre, fun hcalm => ?_⟩
      obtain ⟨-, stats, hstats, -⟩ := hask _ List.prefix_rfl hcalm
      cases hstats
    | stats line =>
      rw [hanswer] at hask hpre
      refine FailingState.Meets.checked (fun hno => ⟨hpre, fun hcalm => ?_⟩) fun _ => ?_
      · obtain ⟨-, stats, hstats, hlen⟩ := hask _ List.prefix_rfl hcalm
        cases hstats
        exact absurd hlen (of_decide_eq_false hno)
      rw [FailingState.meets_bind]
      refine (onDisk_error _ _ _).mono ?_ ?_
      swap
      · rintro e r₁ ⟨hr₁, herror⟩
        exact ⟨hr₁ ▸ hpre, fun _ => herror⟩
      intro _ r₁ hr₁
      rw [FailingState.meets_bind]
      refine (onDisk_error _ _ _).mono ?_ ?_
      swap
      · rintro e r₂ ⟨hr₂, herror⟩
        exact ⟨hr₂ ▸ hr₁ ▸ hpre, fun _ => herror⟩
      intro _ r₂ hr₂
      have hpre₂ : r.requests <+: r₂.requests := hr₂ ▸ hr₁ ▸ hpre
      refine (ih r₂).mono ?_ ?_
      · exact fun _ _ h => hpre₂.trans h
      · exact fun _ _ h => ⟨hpre₂.trans h.1, h.2⟩

theorem runCreatespecial_apart (specialList : PathList) :
    Moves (RunState.Apart disk cfg) (runCreatespecial disk cfg answers specialList) := by
  unfold runCreatespecial
  refine .bind (.check _ _) fun _ => ?_
  exact .bind (onDisk_apart fun s => disk.only_fopen s _) fun _ => specialLoop_apart specialList

/-- With calm requests `createspecial` stops for the system, or before it opens the file. -/
theorem runCreatespecial_error (specialList : PathList) (r : RunState σ) :
    Meets (runCreatespecial disk cfg answers specialList) r
      (fun _ _ => cfg.specialTemp.length < maxPathLen)
      (fun e r' => r'.Calm disk cfg →
        r'.fs = r.fs ∨ ∃ path, e = .ended (.systemError path)) := by
  unfold runCreatespecial
  refine FailingState.Meets.checked (fun _ _ => .inl rfl) fun hlen => ?_
  rw [FailingState.meets_bind]
  refine (onDisk_error _ _ _).mono ?_ fun e r' h _ => .inr h.2
  intro _ r₁ _
  refine (specialLoop_error _ r₁).mono ?_ ?_
  · exact fun _ _ _ => of_decide_eq_true hlen
  · exact fun e r' h hcalm => .inr (h.2 hcalm)

theorem replaceSpecial_dry (hupdate : cfg.update = false) :
    replaceSpecial disk cfg = onDisk (disk.unlink cfg.specialTemp) cfg.specialTemp := by
  rw [replaceSpecial, hupdate]
  rfl

theorem runContent_moves {R : RunState σ → RunState σ → Prop} [IsPreorder (RunState σ) R]
    (path : CStr) : Moves R (runContent disk path) := by
  unfold runContent
  apply Moves.get_bind
  intro r
  split
  · exact refl_of R r
  · exact refl_of R r

theorem specialDiffers_moves {R : RunState σ → RunState σ → Prop} [IsPreorder (RunState σ) R]
    (size tsize : Int) : Moves R (specialDiffers disk cfg size tsize) := by
  unfold specialDiffers
  split
  · refine .bind (runContent_moves _) fun _ => ?_
    exact .bind (runContent_moves _) fun _ => .pure _
  · exact .pure _

theorem compareSpecial_apart (hupdate : cfg.update = false) :
    Moves (RunState.Apart disk cfg) (compareSpecial disk cfg) := by
  have hunlink : Moves (RunState.Apart disk cfg)
      (onDisk (disk.unlink cfg.specialTemp) cfg.specialTemp) :=
    onDisk_apart fun s => disk.only_unlink s _
  have hchanged : Moves (RunState.Apart disk cfg)
      (modify RunState.changed : Run σ PUnit) :=
    .modify fun r => apart_of_eq rfl List.prefix_rfl
  unfold compareSpecial
  rw [replaceSpecial_dry hupdate]
  refine .bind (.check _ _) fun _ => ?_
  apply Moves.get_bind
  intro r
  split
  · exact Moves.bind hunlink (fun _ => hchanged) r
  · exact refl_of (RunState.Apart disk cfg) r
  split
  · refine Moves.bind (specialDiffers_moves _ _) (fun b => ?_) r
    split
    · exact .bind hchanged fun _ => hunlink
    · exact hunlink
  · exact refl_of (RunState.Apart disk cfg) r

/-- Without updates the new `special.T` is removed. -/
theorem compareSpecial_removes (hupdate : cfg.update = false)
    (hlen : cfg.specialTemp.length < maxPathLen) (r : RunState σ) :
    Meets (compareSpecial disk cfg) r
      (fun _ r' => disk.stat r'.fs cfg.specialTemp = .missing)
      (fun e _ => ∃ path, e = .ended (.systemError path)) := by
  have hunlink : ∀ r, Meets (onDisk (disk.unlink cfg.specialTemp) cfg.specialTemp) r
      (fun _ r' => disk.stat r'.fs cfg.specialTemp = .missing)
      (fun e _ => ∃ path, e = .ended (.systemError path)) := by
    intro r
    rw [meets_onDisk]
    split
    · next hok => exact disk.unlinked_missing _ _ hok
    · exact ⟨_, rfl⟩
  unfold compareSpecial
  rw [replaceSpecial_dry hupdate]
  refine FailingState.Meets.checked (fun hno => ?_) fun _ => ?_
  · refine absurd ?_ (of_decide_eq_false hno)
    have hsplit : cfg.specialTemp.length =
        cfg.specialPath.length + (lit ".").length + (printInt cfg.pid.toInt).length := by
      rw [RunSettings.specialTemp, List.length_append, List.length_append]
    omega
  rw [FailingState.meets_bind, FailingState.meets_get]
  split
  · rw [FailingState.meets_bind]
    refine (hunlink r).mono ?_ fun _ _ h => h
    exact fun _ _ h => h
  · exact ⟨_, rfl⟩
  split
  · rw [FailingState.meets_bind]
    have hdiffers : ∀ tsize size, Meets (specialDiffers disk cfg size tsize) r (fun _ _ => True)
        (fun e _ => ∃ path, e = .ended (.systemError path)) := by
      intro tsize size
      unfold specialDiffers
      split
      · rw [FailingState.meets_bind, runContent, FailingState.meets_bind, FailingState.meets_get]
        split
        · exact ⟨_, rfl⟩
        rw [FailingState.meets_pure, FailingState.meets_bind, runContent,
          FailingState.meets_bind, FailingState.meets_get]
        split
        · exact ⟨_, rfl⟩
        · exact trivial
      · exact trivial
    refine (hdiffers _ _).mono ?_ fun _ _ h => h
    intro b r₁ _
    split
    · rw [FailingState.meets_bind, FailingState.meets_modify]
      exact hunlink _
    · exact hunlink r₁
  · exact ⟨_, rfl⟩

/-! ### The whole run -/

theorem unchanged_of_eq {s s' : σ} (h : s' = s) : Unchanged disk cfg s s' := by
  subst h
  exact ⟨fun _ _ => ⟨rfl, rfl⟩, .inl ⟨rfl, rfl⟩⟩

/-- Every end of a calm run, a system error apart, leaves the directory as it was. -/
theorem ktcheck_dry (hupdate : cfg.update = false) (fuel : Nat) {s : σ}
    (hlinked : disk.linked s cfg.specialTemp = false) :
    Meets (ktcheck disk cfg answers fuel) (.start s)
      (fun _ r => r.Calm disk cfg → Unchanged disk cfg s r.fs)
      (fun e r => r.Calm disk cfg → (∀ path, e ≠ .ended (.systemError path)) →
        Unchanged disk cfg s r.fs) := by
  unfold ktcheck
  rw [FailingState.meets_bind]
  refine (runRead_moves hupdate fuel (.start s)).mono ?_ ?_
  swap
  · exact fun _ r h hcalm _ => unchanged_of_eq (h.2 hcalm)
  intro _ r₁ hread
  rw [FailingState.meets_bind, FailingState.meets_get]
  split
  swap
  · exact fun hcalm => unchanged_of_eq (hread.2 hcalm)
  rw [FailingState.meets_bind]
  refine ((runCreatespecial_apart r₁.st.specialList r₁).and
    (runCreatespecial_error r₁.st.specialList r₁)).mono ?_ ?_
  swap
  · intro e r₂ ⟨hapart, hend⟩ hcalm hsystem
    rcases hend hcalm with hfs | ⟨path, herror⟩
    · exact unchanged_of_eq (hfs.trans (hread.2 (hcalm.of_prefix hapart.1)))
    · exact absurd herror (hsystem path)
  intro _ r₂ ⟨hapart, hlen⟩
  have hcompare := ((compareSpecial_apart hupdate).after hapart).and
    (compareSpecial_removes hupdate hlen r₂)
  refine hcompare.mono ?_ ?_
  · intro _ r₃ ⟨hapart', hmissing⟩ hcalm
    have hfs : r₁.fs = s := hread.2 (hcalm.of_prefix hapart'.1)
    have honly : disk.toView.Only cfg.specialTemp r₁.fs r₃.fs :=
      hapart'.2 (by rw [hfs]; exact hlinked)
    rw [hfs] at honly
    exact ⟨honly.same, .inr hmissing⟩
  · intro e r₃ ⟨_, path, herror⟩ _ hsystem
    exact absurd herror (hsystem path)

end

/-- Without updates, and without a system error, the directory holds the same objects with the same
contents after a run whose requests are all calm. -/
theorem dry_run_keeps (hupdate : cfg.update = false) (fuel : Nat) {s : σ}
    (hlinked : disk.linked s cfg.specialTemp = false) {e : Except RunEnd Unit} {r : RunState σ}
    (hrun : (ktcheck disk cfg answers fuel).result (.start s) = (e, r))
    (hcalm : ∀ q ∈ r.requests, q.Calm disk cfg)
    (herror : ∀ path, e ≠ .error (.ended (.systemError path))) :
    Unchanged disk cfg s r.fs := by
  obtain ⟨hok, hend⟩ := FailingState.meets_iff.mp (ktcheck_dry hupdate fuel hlinked)
  cases e with
  | ok _ => exact hok _ r hrun hcalm
  | error e => exact hend e r hrun hcalm fun path he => herror path (congrArg _ he)

/-! ### A small directory -/

/-- A client directory with a command file.  The state is the temporary file, and whether the
directory `a` stands there; nothing else is ever made. -/
structure Small where
  temp : Option CStr
  dir : Bool
  deriving DecidableEq

def smallTemp : CStr := lit "./special.T.1"

def smallStat (kfile : List Byte) (s : Small) (path : CStr) : StatResult :=
  if path = lit "./k" then .found false kfile.length 0
  else if path = smallTemp then
    match s.temp with
    | none => .missing
    | some text => .found false text.length 0
  else if path = lit "./a" then if s.dir then .found true 0 0 else .missing
  else if path = lit "./a/b" ∨ path = lit "./special.T" then .missing
  else .found true 0 0

def smallContent (kfile : List Byte) (s : Small) (path : CStr) : Option (List Byte) :=
  if path = lit "./k" then some kfile else if path = smallTemp then s.temp else none

/-- Of the two names of files only what stands before the slash is above them. -/
theorem small_above {name u w : CStr} (hname : name = lit "./k" ∨ name = smallTemp)
    (h : u ++ slash :: w = name) : u = lit "." := by
  have hu : u = name.take u.length := by rw [← h, List.take_left]
  have hslash : name[u.length]? = some slash := by
    rw [← h, List.getElem?_append_right (Nat.le_refl _), Nat.sub_self]
    rfl
  have hlen : u.length < name.length := by
    rw [← h, List.length_append, List.length_cons]
    omega
  have hone : ∀ name, name = lit "./k" ∨ name = smallTemp → ∀ n < name.length,
      name[n]? = some slash → n = 1 := by
    intro name hname
    rcases hname with rfl | rfl
    · decide
    · decide
  rw [hu, hone name hname _ hlen hslash]
  rcases hname with rfl | rfl
  · rfl
  · rfl

theorem smallContent_parents (kfile : List Byte) (s : Small) {u w : CStr} {c : List Byte}
    (h : smallContent kfile s (u ++ slash :: w) = some c) :
    ∃ size mtime, smallStat kfile s u = .found true size mtime := by
  have hname : u ++ slash :: w = lit "./k" ∨ u ++ slash :: w = smallTemp := by
    unfold smallContent at h
    split at h
    · next hk => exact .inl hk
    · split at h
      · next ht => exact .inr ht
      · cases h
  rw [small_above hname rfl]
  exact ⟨0, 0, rfl⟩

/-- A call that changes what the temporary file holds, where it succeeds. -/
def onTemp (path : CStr) (s : Small) (temp : Option (Option CStr)) : Bool × Small :=
  if path = smallTemp then
    match temp with
    | some temp => (true, { s with temp := temp })
    | none => (false, s)
  else (false, s)

theorem onTemp_same {kfile : List Byte} {path p : CStr} {s : Small}
    {temp : Option (Option CStr)} (hp : p ≠ path) :
    (smallStat kfile (onTemp path s temp).2 p).kind = (smallStat kfile s p).kind ∧
      smallContent kfile (onTemp path s temp).2 p = smallContent kfile s p := by
  unfold onTemp
  split
  · next hpath =>
    have hne : p ≠ smallTemp := fun h => hp (h.trans hpath.symm)
    cases temp with
    | none => exact ⟨rfl, rfl⟩
    | some temp =>
      constructor
      · simp only [smallStat, if_neg hne]
      · simp only [smallContent, if_neg hne]
  · exact ⟨rfl, rfl⟩

def smallUnlink (path : CStr) (s : Small) : Bool × Small :=
  onTemp path s (s.temp.map fun _ => none)

/-- What is unlinked is the temporary file. -/
theorem smallUnlink_true {path : CStr} {s : Small} (h : (smallUnlink path s).1 = true) :
    path = smallTemp ∧ (smallUnlink path s).2 = { s with temp := none } := by
  unfold smallUnlink onTemp at h ⊢
  split at h
  · next hpath =>
    refine ⟨hpath, ?_⟩
    cases htemp : s.temp with
    | none =>
      rw [htemp] at h
      cases h
    | some text => rw [if_pos hpath]; rfl
  · cases h

theorem smallUnlink_false {path : CStr} {s : Small} (h : (smallUnlink path s).1 = false) :
    (smallUnlink path s).2 = s := by
  unfold smallUnlink onTemp at h ⊢
  split
  · next hpath =>
    cases htemp : s.temp with
    | none => rfl
    | some text =>
      rw [if_pos hpath, htemp] at h
      cases h
  · rfl

def smallDisk (kfile : List Byte) : Disk Small where
  stat := smallStat kfile
  content := smallContent kfile
  mkdir path s := if path = lit "./a" ∧ s.dir = false then (true, { s with dir := true }) else (false, s)
  unlink := smallUnlink
  rmdirs _ s := (false, s)
  utime _ s := (false, s)
  rename _ _ s := (false, s)
  putFile _ _ s := s
  Entry := CStr
  entry _ path := path
  linked _ _ := false
  fopen path s := onTemp path s (some (some []))
  fputs path text s := onTemp path s (s.temp.map fun old => some (old ++ text))
  parents s _ _ _ _ h := smallContent_parents kfile s h
  unlink_failed s path h := by rw [smallUnlink_false h]
  unlinked s path h := by
    obtain ⟨rfl, hs⟩ := smallUnlink_true h
    rw [hs]
    rfl
  only_fopen s path _ := ⟨rfl, rfl, fun _ hp => onTemp_same hp⟩
  only_fputs s path text _ := ⟨rfl, rfl, fun _ hp => onTemp_same hp⟩
  only_unlink s path _ := ⟨rfl, rfl, fun _ hp => onTemp_same hp⟩
  unlinked_missing s path h := by
    obtain ⟨rfl, hs⟩ := smallUnlink_true h
    rw [hs]
    rfl

theorem dotSlash_ne_nil : lit "./" ≠ [] := by decide

def smallSettings : RunSettings where
  update := false
  cksum := false
  kdir := lit "./"
  baseKfile := lit "./k"
  pid := 1
  digest _ := []
  kdir_ne_nil := dotSlash_ne_nil
  caseSensitive := true

/-- The command file is as the server has it, and so is every other answer. -/
def smallAnswer (size : CStr) (_ : Nat) : Answer :=
  ⟨.stats (lit "f k 0644 0 0 0 " ++ size ++ lit " -"),
    ⟨⟨none, fun _ => 0, fun _ => false, false, fun _ => none⟩, [], []⟩⟩

/-- A run that asks for a special path, makes `special.T` and removes it again. -/
theorem dry_run_keeps_special :
    Unchanged (smallDisk (lit "s /x\n")) smallSettings ⟨none, false⟩
      ((ktcheck (smallDisk (lit "s /x\n")) smallSettings (smallAnswer (lit "5")) 1).result
        (.start ⟨none, false⟩)).2.fs := by
  have hrequests : ((ktcheck (smallDisk (lit "s /x\n")) smallSettings (smallAnswer (lit "5"))
      1).result (.start ⟨none, false⟩)).2.requests =
      [.check (lit "COMMAND") none ⟨none, false⟩,
        .special (lit "/x") (.stats (lit "f k 0644 0 0 0 5 -"))] := by decide +kernel
  have hend : ((ktcheck (smallDisk (lit "s /x\n")) smallSettings (smallAnswer (lit "5"))
      1).result (.start ⟨none, false⟩)).1.toBool = true := by decide +kernel
  refine dry_run_keeps (smallDisk (lit "s /x\n")) smallSettings (smallAnswer (lit "5")) rfl 1 rfl
    (Prod.mk.eta).symm ?_ ?_
  · rw [hrequests]
    intro q hq
    rcases List.mem_pair.mp hq with rfl | rfl
    · intro file hfile
      cases hfile
    · exact ⟨by decide, _, rfl, by decide⟩
  · intro path herror
    rw [herror] at hend
    cases hend

/-- The directory above a transcript is made, although nothing is to be changed. -/
theorem not_dry_run_keeps :
    ¬ ∀ (σ : Type) (disk : Disk σ) (cfg : RunSettings) (answers : Nat → Answer),
      cfg.update = false → ∀ (fuel : Nat) (s : σ) (e : Except RunEnd Unit) (r : RunState σ),
        (ktcheck disk cfg answers fuel).result (.start s) = (e, r) →
          (∀ path, e ≠ .error (.ended (.systemError path))) → Unchanged disk cfg s r.fs := by
  intro h
  have hmade : ((ktcheck (smallDisk (lit "p a/b\n")) smallSettings (smallAnswer (lit "6"))
      1).result (.start ⟨none, false⟩)).2.fs = ⟨none, true⟩ := by decide +kernel
  have hend : (match ((ktcheck (smallDisk (lit "p a/b\n")) smallSettings (smallAnswer (lit "6"))
      1).result (.start ⟨none, false⟩)).1 with
      | .error (.ended .changed) => true
      | _ => false) = true := by decide +kernel
  have hkept := h Small (smallDisk (lit "p a/b\n")) smallSettings (smallAnswer (lit "6")) rfl 1
    ⟨none, false⟩ _ _ (Prod.mk.eta).symm (fun path herror => by rw [herror] at hend; cases hend)
  rw [hmade] at hkept
  have hother : lit "./a" ≠ smallSettings.specialTemp := by decide
  exact absurd (hkept.1 (lit "./a") hother).1 (by decide)

end Ktcheck
end Radmind
