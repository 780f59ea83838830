import Radmind.CommandFile
import Radmind.Lapply.Update

/-!
# Applying a transcript

The loop of `main` reads the lines, removes what is in the way and carries out the
rest.  A directory to be removed waits on a list until the lines below it are done,
and the line that takes its place waits with it.
-/

namespace Radmind

section

variable {σ : Type} (os : Os σ) (cfg : LapplyConfig)

/-! ## The removal list -/

def setHead (head : List Node) : Lapply σ Unit := fun w => .ok () { w with head := head }

/-- `change = 1` -/
def setChange : Lapply σ Unit := fun w => .ok () { w with change := true }

/-- `do_line` for the line with this number, which was read with this path. -/
def runLine (line : Nat) (path tline tran : CStr) (present : Bool) : Lapply σ Unit := do
  record (.doLine line path)
  doLine os cfg line tline tran present
  record (.done line path)
  setChange

/-- Remove the head of the list, and carry out its line if it has one. -/
def removeHead (n : Node) (rest : List Node) : Lapply σ Unit := do
  sysOrFail os (.rmdir n.path) n.path
  record (.rmdir n)
  setHead rest
  match n.tline with
  | none => return ()
  | some tline => runLine os cfg n.line n.path tline n.tran false

/-- Remove heads until `path` is below the next one. -/
def minimize (path : CStr) : List Node → Lapply σ Unit
  | [] => return ()
  | n :: rest => do
    if ischildcase path (some n.path) cfg.caseSensitive then return ()
    else
      removeHead os cfg n rest
      minimize path rest

def minimizeHead (path : CStr) : Lapply σ Unit := do
  minimize os cfg path (← get).head

/-- `dirchecklist` -/
def dirchecklist (n : Node) : Lapply σ Unit := do
  minimizeHead os cfg n.path
  record (.push n)
  setHead (n :: (← get).head)

/-- `filechecklist` -/
def filechecklist (line : Nat) (path : CStr) : Lapply σ Unit := do
  minimizeHead os cfg path
  record (.unlink line path)
  let r ← sys os (.unlink path)
  -- with -F an object that is gone is only a warning
  runIf (r ≠ .ok && (!cfg.force || r ≠ .enoent)) (throw (.system path))

/-- Clear out remove list -/
def clearList : List Node → Lapply σ Unit
  | [] => return ()
  | n :: rest => do
    removeHead os cfg n rest
    clearList rest

/-! ## A line -/

/-- `strcpy` over memory that holds an older string. -/
def overwrite (mem : List Byte) (s : CStr) : List Byte := s ++ nul :: mem.drop (s.length + 1)

/-- `acav_parse` of the line in `targvline`. -/
def parseTargvline (tline : CStr) : Lapply σ (List (List Byte)) := fun w =>
  let (mem, targv) := acavParse (overwrite w.targvline tline)
  .ok targv { w with targvline := mem }

/-- `*command`: what stands in `targvline` now where the last sign was. -/
def World.commandByte (w : World σ) : Byte :=
  match w.command with
  | none => nul
  | some offset => w.targvline.getD offset nul

/-- The header of a transcript. -/
def headerLine (word : CStr) : Lapply σ Unit := fun w =>
  if word.getLast? = some colon then
    .ok () { w with transcript := word.dropLast, special := word.dropLast = lit "special.T" }
  else .error (.invalidTranscript word w.linenum) { w with transcript := word }

/-- The words behind the sign, if there is one, which `command` is set to. -/
def takeSign (word : List Byte) (targv : List (List Byte)) : Lapply σ (List (List Byte)) :=
  fun w =>
    if word.head? = some plus && w.transcript = [] then .error (.noTranscript w.linenum) w
    else if word.head? = some plus || word.head? = some minus then
      .ok targv { w with command := some (w.targvline.length - word.length) }
    else .ok (word :: targv) w

/-- Check transcript order, and the length of the path. -/
def checkOrder (path : CStr) : Lapply σ Unit := fun w =>
  if w.prepath ≠ [] ∧ pathcasecmp path w.prepath cfg.caseSensitive ≤ 0 then
    .error (.badSortOrder w.linenum) w
  else if path.length ≥ maxPathLen then .error (.pathTooLong w.linenum) w
  else .ok () { w with prepath := path }

/-- The type of what is at the path, with 'X' for nothing. -/
def localType (path : CStr) : Lapply σ FileType := do
  match (← radstat os path) with
  | .found (some type) => return type
  | .found none => throw (.unknownType path)
  | .enoent => return .X
  | .failed => throw (.system path)

/-- Minimize remove list, and carry out the line. -/
def applyLine (line : Nat) (tline path : CStr) (present : Bool) : Lapply σ Unit := do
  minimizeHead os cfg path
  runLine os cfg line path tline (← get).transcript present

/-- A line with a path, from the type check on local file on.  `type` is the first
byte of its type. -/
def pathLine (tline path : CStr) (type : Byte) : Lapply σ Unit := do
  let fstype ← localType os path
  let w ← get
  record (.begin w.linenum path fstype)
  let present : Bool := fstype ≠ .X
  let differs : Bool := present && fstype.letter ≠ type
  let command := w.commandByte
  if command = minus || differs then
    if fstype = .d then
      -- a line without a sign, or with the sign of another type, waits for the removal
      let tline? := if differs then some tline else none
      dirchecklist os cfg ⟨w.linenum, path, tline?, if differs then w.transcript else []⟩
    else
      filechecklist os cfg w.linenum path
      runIf (command ≠ minus) (applyLine os cfg w.linenum tline path false)
  else applyLine os cfg w.linenum tline path present

/-- The words of a line that is no header. -/
def wordsLine (tline : CStr) (word : List Byte) (targv : List (List Byte)) : Lapply σ Unit := do
  let targv ← takeSign word targv
  let w ← get
  if w.commandByte = plus && !w.network then return ()
  else
    let path ← decodeArg .decodeReturn targv[1]?
    checkOrder cfg path
    pathLine os cfg tline path ((targv.headD []).headD nul)

/-- `linenum++` -/
def countLine : Lapply σ Unit := fun w => .ok () { w with linenum := w.linenum + 1 }

/-- One round of the loop of `main`. -/
def mainLine (line : List Byte) : Lapply σ Unit := do
  countLine
  let tline := cstr line
  if tline = [] then throw .overrun
  else if tline.getLast? ≠ some newline then throw (.lineTooLong (← get).linenum)
  else
    match (← parseTargvline tline) with
    | [] => return ()
    | word :: targv =>
      -- skip blank lines and comments
      if word.head? = some hash then return ()
      else if targv = [] then headerLine (cstr word)
      else wordsLine os cfg tline word targv

def mainLoop : List (List Byte) → Lapply σ Unit
  | [] => return ()
  | line :: lines => do
    mainLine os cfg line
    mainLoop lines

/-- The lines of a transcript, and what is left on the list behind them. -/
def applyTranscript (lines : List (List Byte)) : Lapply σ Unit := do
  mainLoop os cfg lines
  clearList os cfg (← get).head

end

/-- The start of a run that is connected, or one without a network. -/
def World.start {σ : Type} (os : σ) (network : Bool) : World σ :=
  { os := os, trace := [], buf := [], network := network, st := Stat.zero, head := []
    transcript := [], special := false, command := none, targvline := [], prepath := []
    linenum := 0, change := false }

/-- A run of `lapply` on a transcript. -/
def lapply {σ : Type} (os : Os σ) (cfg : LapplyConfig) (network : Bool) (content : List Byte)
    (s : σ) : EStateM.Result Failure (World σ) Unit :=
  applyTranscript os cfg (fileLines content) (World.start s network)

/-- The exit status from `error1` on. -/
def errorStatus {σ : Type} (w : World σ) : Nat := if w.change then 1 else 2

/-- The exit status, `none` where the program does not get to an exit of its own. -/
def exitStatus {σ : Type} (os : Os σ) : EStateM.Result Failure (World σ) Unit → Option Nat
  | .ok () w =>
    if !os.fclose w.os then some (errorStatus w)
    else if w.network && !os.closesn w.os then some 2
    else some 0
  | .error .overrun _ => none
  | .error (.decodeReturn _) _ => some 1
  | .error _ w => some (errorStatus w)

/-- A run of root's without options. -/
def plainConfig : LapplyConfig :=
  { caseSensitive := true, cksum := false, force := false, createPrefix := false
    haveLchown := true, haveLchmod := false, euid := 0, pid := lit "1" }

end Radmind
